import Mathlib.Data.List.TakeWhile
import Mathlib.Tactic.SplitIfs

/-!
The texts of the program: byte strings, the decimal numbers a `stringstream` writes,
`std::string::substr`, the `split` of the master and the `slice` of the cache.

A `char` buffer is read as a C string, so a text never holds a NUL byte; nothing below depends
on it.
-/

namespace DistCache

/-- A `std::string`. -/
abbrev Str := List UInt8

/-- A string literal of the source. -/
def lit (s : String) : Str := s.toByteArray.data.toList

@[simp] lemma lit_inj {s t : String} : lit s = lit t ↔ s = t := by
  constructor
  · intro h
    exact String.toByteArray_inj.mp (ByteArray.ext (Array.toList_inj.mp h))
  · rintro rfl
    rfl

/-- The separator `'#'` of every message. -/
def sharp : UInt8 := 35

/-- The separator `':'` of the addresses sent to clients. -/
def colon : UInt8 := 58

/-- A natural number as `operator<<` writes it. -/
def dec (n : ℕ) : Str := (Nat.toDigits 10 n).map fun c => c.val.toUInt8

/-- An `int` as `operator<<` writes it. -/
def decInt (i : ℤ) : Str := if i < 0 then 45 :: dec i.natAbs else dec i.natAbs

/-- `std::string::substr`, which throws `out_of_range` when `pos` is past the end. -/
def substr (s : Str) (pos n : ℕ) : Option Str :=
  if pos ≤ s.length then some ((s.drop pos).take n) else none

/-! ### The fields of a message -/

/-- A field of a message: a text that is not empty and has no separator in it. -/
structure IsField (f : Str) : Prop where
  ne_nil : f ≠ []
  sharp_free : sharp ∉ f

/-- The texts `split` gives after `n` turns of its outer loop, from the rest `s` of the string. -/
def splitFrom (seperator : Str) : ℕ → Str → List Str
  | 0, _ => []
  | n + 1, s =>
    if s = [] then []
    else
      -- the first inner loop skips separators, the second one runs to the next separator
      let t := s.dropWhile (· ∈ seperator)
      let field := t.takeWhile (· ∉ seperator)
      let rest := t.dropWhile (· ∉ seperator)
      if field = [] then splitFrom seperator n rest
      else field :: splitFrom seperator n rest

/-- `split` of `master.h`. -/
def split (s seperator : Str) : List Str := splitFrom seperator s.length s

/-- `split(s, "#")`. -/
abbrev splitSharp (s : Str) : List Str := split s [sharp]

section Split

variable {sep : Str} {s f : Str} {c : UInt8}

lemma dropWhile_length_lt (sep : Str) (hs : s ≠ []) :
    ((s.dropWhile (· ∈ sep)).dropWhile (· ∉ sep)).length < s.length := by
  obtain ⟨c, t, rfl⟩ := List.exists_cons_of_ne_nil hs
  have hle : ∀ (p : UInt8 → Bool) (l : Str), (l.dropWhile p).length ≤ l.length :=
    fun p l => (List.dropWhile_sublist p).length_le
  by_cases hc : c ∈ sep
  · rw [List.dropWhile_cons_of_pos (by simpa using hc)]
    have h₁ := hle (· ∉ sep) (t.dropWhile (· ∈ sep))
    have h₂ := hle (· ∈ sep) t
    rw [List.length_cons]
    omega
  · rw [List.dropWhile_cons_of_neg (by simpa using hc),
      List.dropWhile_cons_of_pos (by simpa using hc)]
    have h₁ := hle (· ∉ sep) t
    rw [List.length_cons]
    omega

/-- A turn of the outer loop shortens the rest, so `s.length` turns are enough. -/
lemma splitFrom_eq {n m : ℕ} (hn : s.length ≤ n) (hm : s.length ≤ m) :
    splitFrom sep n s = splitFrom sep m s := by
  induction n generalizing m s with
  | zero =>
    have hs : s = [] := List.length_eq_zero_iff.mp (by omega)
    subst hs
    cases m <;> simp [splitFrom]
  | succ n ih =>
    by_cases hs : s = []
    · subst hs
      cases m <;> simp [splitFrom]
    · have hlt := dropWhile_length_lt sep hs
      obtain ⟨m, rfl⟩ : ∃ k, m = k + 1 := ⟨m - 1, by
        have := List.length_pos_iff.mpr hs
        omega⟩
      simp only [splitFrom, if_neg hs]
      rw [ih (m := m) (by omega) (by omega)]

/-- One turn of the outer loop. -/
lemma split_eq (hs : s ≠ []) : split s sep =
    if (s.dropWhile (· ∈ sep)).takeWhile (· ∉ sep) = [] then
      split ((s.dropWhile (· ∈ sep)).dropWhile (· ∉ sep)) sep
    else (s.dropWhile (· ∈ sep)).takeWhile (· ∉ sep) ::
      split ((s.dropWhile (· ∈ sep)).dropWhile (· ∉ sep)) sep := by
  have hlt := dropWhile_length_lt sep hs
  obtain ⟨n, hn⟩ : ∃ n, s.length = n + 1 := ⟨s.length - 1, by omega⟩
  have hturn : split s sep = splitFrom sep (n + 1) s := by rw [split, hn]
  rw [hturn]
  simp only [splitFrom, if_neg hs]
  unfold split
  rw [splitFrom_eq (n := n) (m := ((s.dropWhile (· ∈ sep)).dropWhile (· ∉ sep)).length) (by omega)
    le_rfl]

@[simp] lemma split_nil : split [] sep = [] := rfl

lemma split_cons_sep (hc : c ∈ sep) (s : Str) : split (c :: s) sep = split s sep := by
  rw [split_eq (by simp), List.dropWhile_cons_of_pos (by simpa using hc)]
  by_cases hs : s = []
  · subst hs
    simp
  · rw [split_eq hs]

/-- A field in front of a text that is empty or starts with a separator comes out first. -/
lemma split_append (hf : f ≠ []) (hfree : ∀ c ∈ f, c ∉ sep)
    (hs : ∀ c ∈ s.head?, c ∈ sep) : split (f ++ s) sep = f :: split s sep := by
  have h₁ : (f ++ s).dropWhile (· ∈ sep) = f ++ s := by
    obtain ⟨c, t, rfl⟩ := List.exists_cons_of_ne_nil hf
    exact List.dropWhile_cons_of_neg (by simpa using hfree c (by simp))
  have h₂ : s.takeWhile (· ∉ sep) = [] := by
    cases s with
    | nil => rfl
    | cons c t => exact List.takeWhile_cons_of_neg (by simpa using hs c (by simp))
  have h₃ : s.dropWhile (· ∉ sep) = s := by
    cases s with
    | nil => rfl
    | cons c t => exact List.dropWhile_cons_of_neg (by simpa using hs c (by simp))
  have hall : ∀ c ∈ f, decide (c ∉ sep) = true := fun c hc => by simpa using hfree c hc
  rw [split_eq (by simp [hf]), h₁, List.takeWhile_append_of_pos hall,
    List.dropWhile_append_of_pos hall, h₂, h₃, List.append_nil, if_neg hf]

/-- What `split` gives are fields. -/
lemma mem_split (hf : f ∈ split s sep) : f ≠ [] ∧ ∀ c ∈ f, c ∉ sep := by
  induction hn : s.length using Nat.strong_induction_on generalizing s with
  | _ n ih =>
    by_cases hs : s = []
    · subst hs
      simp at hf
    · have hlt := dropWhile_length_lt sep hs
      rw [split_eq hs] at hf
      have hall : ∀ c ∈ (s.dropWhile (· ∈ sep)).takeWhile (· ∉ sep), c ∉ sep := fun c hc => by
        simpa using List.mem_takeWhile_imp hc
      split_ifs at hf with hempty
      · exact ih _ (hn ▸ hlt) hf rfl
      · rcases List.mem_cons.mp hf with rfl | hf
        · exact ⟨hempty, hall⟩
        · exact ih _ (hn ▸ hlt) hf rfl

/-- `split` leaves characters out, and adds none. -/
lemma split_flatten_sublist (s sep : Str) : (split s sep).flatten.Sublist s := by
  induction hn : s.length using Nat.strong_induction_on generalizing s with
  | _ n ih =>
    by_cases hs : s = []
    · subst hs
      simp
    · have hlt := dropWhile_length_lt sep hs
      have hcut := (List.Sublist.refl ((s.dropWhile (· ∈ sep)).takeWhile (· ∉ sep))).append
        (ih _ (hn ▸ hlt) _ rfl)
      rw [List.takeWhile_append_dropWhile] at hcut
      rw [split_eq hs]
      split_ifs with hempty
      · exact (List.sublist_append_right _ _).trans (hcut.trans (List.dropWhile_sublist _))
      · rw [List.flatten_cons]
        exact hcut.trans (List.dropWhile_sublist _)

end Split

section Sharp

variable {f g s : Str}

lemma mem_splitSharp (hf : f ∈ splitSharp s) : IsField f := by
  obtain ⟨hne, hfree⟩ := mem_split hf
  exact ⟨hne, fun hc => hfree _ hc (by simp)⟩

lemma IsField.not_mem (hf : IsField f) : ∀ c ∈ f, c ∉ [sharp] := fun c hc => by
  simpa using ne_of_mem_of_not_mem hc hf.sharp_free

lemma splitSharp_field (hf : IsField f) : splitSharp f = [f] := by
  have h := split_append (s := []) hf.ne_nil hf.not_mem (by simp)
  simpa using h

lemma splitSharp_cons (hf : IsField f) (s : Str) :
    splitSharp (f ++ sharp :: s) = f :: splitSharp s := by
  have h := split_append (s := sharp :: s) hf.ne_nil hf.not_mem (by simp)
  rw [splitSharp, h, split_cons_sep (by simp)]

lemma splitSharp_pair (hf : IsField f) (hg : IsField g) :
    splitSharp (f ++ sharp :: g) = [f, g] := by
  rw [splitSharp_cons hf, splitSharp_field hg]

end Sharp

/-! ### Cutting at the first separator -/

/-- The index of the first separator, the length of the text when there is none. -/
def spear (message : Str) : ℕ := (message.takeWhile (· ≠ sharp)).length

/-- `slice` of `cache.cpp`: the text before the first separator and the one after it. -/
def slice (message : Str) : Option (Str × Str) := do
  let key ← substr message 0 (spear message)
  let val ← substr message (spear message + 1) (message.length - spear message - 1)
  return (key, val)

section Cut

variable {k : Str}

lemma spear_le (message : Str) : spear message ≤ message.length :=
  (List.takeWhile_prefix _).length_le

lemma spear_append (hk : sharp ∉ k) (v : Str) : spear (k ++ sharp :: v) = k.length := by
  have hall : ∀ c ∈ k, decide (c ≠ sharp) = true := fun c hc => by
    simpa using ne_of_mem_of_not_mem hc hk
  unfold spear
  rw [List.takeWhile_append_of_pos hall, List.takeWhile_cons_of_neg (by simp), List.append_nil]

lemma spear_of_sharp_free (hk : sharp ∉ k) : spear k = k.length := by
  have hall : ∀ c ∈ k, decide (c ≠ sharp) = true := fun c hc => by
    simpa using ne_of_mem_of_not_mem hc hk
  rw [spear, List.takeWhile_eq_self_iff.mpr hall]

lemma substr_left (k s : Str) : substr (k ++ s) 0 k.length = some k := by
  simp [substr]

lemma substr_right (k s : Str) (c : UInt8) {n : ℕ} (hn : s.length ≤ n) :
    substr (k ++ c :: s) (k.length + 1) n = some s := by
  have hd : (k ++ c :: s).drop (k.length + 1) = s := by
    rw [← List.drop_drop, List.drop_left]
    rfl
  unfold substr
  rw [if_pos (by simp), hd, List.take_of_length_le hn]

lemma slice_append (hk : sharp ∉ k) (v : Str) : slice (k ++ sharp :: v) = some (k, v) := by
  unfold slice
  rw [spear_append hk, substr_left, substr_right k v sharp (by simp)]
  rfl

end Cut

end DistCache
