import Mathlib.Data.Finmap

/-!
Finite maps, and what the loops that insert and erase key after key leave at each key.
-/

namespace DistCache.Lib

/-- The maps of the program (`std::map`, `std::unordered_map`): finite maps. -/
abbrev Map (K V : Type) := Finmap fun _ : K => V

variable {K V ι : Type} [DecidableEq K] {m : Map K V} {k a : K} {v w : V}

/-- `map::insert`: a key that is present keeps its value. -/
def insertNew (m : Map K V) (k : K) (v : V) : Map K V := if k ∈ m then m else m.insert k v

@[simp] lemma lookup_insert_ite : (m.insert k v).lookup a = if a = k then some v else m.lookup a := by
  split_ifs with h
  · subst h
    exact Finmap.lookup_insert m
  · exact Finmap.lookup_insert_of_ne m h

@[simp] lemma lookup_erase_ite : (m.erase k).lookup a = if a = k then none else m.lookup a := by
  split_ifs with h
  · subst h
    exact Finmap.lookup_erase a m
  · exact Finmap.lookup_erase_ne h

@[simp] lemma lookup_insertNew :
    (insertNew m k v).lookup a = (m.lookup a).or (if a = k then some v else none) := by
  unfold insertNew
  split_ifs with hk ha ha
  · subst ha
    obtain ⟨b, hb⟩ := Finmap.mem_iff.mp hk
    rw [hb, Option.some_or]
  · rw [Option.or_none]
  · subst ha
    rw [Finmap.lookup_eq_none.mpr hk, Option.none_or, Finmap.lookup_insert]
  · rw [Finmap.lookup_insert_of_ne m ha, Option.or_none]

/-- `map::operator[]`: a key that is absent is inserted with the value `d` of a new object. -/
def subscript (m : Map K V) (k : K) (d : V) : Map K V × V :=
  match m.lookup k with
  | some v => (m, v)
  | none => (m.insert k d, d)

lemma subscript_of_lookup (h : m.lookup k = some v) (d : V) : subscript m k d = (m, v) := by
  rw [subscript, h]

/-- Reading a map leaves it alone exactly when the key is there. -/
lemma subscript_fst_eq_iff {d : V} : (subscript m k d).1 = m ↔ k ∈ m := by
  unfold subscript
  cases h : m.lookup k with
  | some v => exact iff_of_true rfl (Finmap.mem_of_lookup_eq_some h)
  | none =>
    refine iff_of_false ?_ (Finmap.lookup_eq_none.mp h)
    intro heq
    have hins : (m.insert k d).lookup k = some d := Finmap.lookup_insert m
    rw [show m.insert k d = m from heq, h] at hins
    cases hins

/-- A loop that replaces every value. -/
def mapValues (f : V → V) (m : Map K V) : Map K V :=
  ⟨m.entries.map (Sigma.map id fun _ => f), by
    obtain ⟨⟨l⟩, hl⟩ := m
    exact List.NodupKeys.map₂ (fun _ => f) l hl⟩

@[simp] lemma lookup_mapValues (f : V → V) : (mapValues f m).lookup k = (m.lookup k).map f := by
  induction m using Finmap.induction_on with
  | H a => exact List.dlookup_map₂ (f := fun _ => f) k

/-- Every entry of the map meets `φ`. -/
def Every (φ : K → V → Prop) (m : Map K V) : Prop := ∀ k v, m.lookup k = some v → φ k v

section Every

variable {φ : K → V → Prop}

lemma Every.insert (h : Every φ m) (hv : φ k v) : Every φ (m.insert k v) := by
  intro a w ha
  rw [lookup_insert_ite] at ha
  split_ifs at ha with hk
  · cases ha
    exact hk ▸ hv
  · exact h a w ha

lemma Every.erase (h : Every φ m) (k : K) : Every φ (m.erase k) := by
  intro a w ha
  rw [lookup_erase_ite] at ha
  split_ifs at ha
  exact h a w ha

end Every

/-! ### One loop -/

section Loop

variable (f : ι → K)

lemma lookup_insertNew_loop (l : List ι) (m : Map K V) :
    (l.foldl (fun m j => insertNew m (f j) v) m).lookup a =
      (m.lookup a).or (if ∃ j ∈ l, f j = a then some v else none) := by
  induction l generalizing m with
  | nil => simp
  | cons j l ih =>
    rw [List.foldl_cons, ih, lookup_insertNew, Option.or_assoc]
    congr 1
    by_cases ha : f j = a
    · simp [ha]
    · simp [ha, Ne.symm ha]

lemma lookup_erase_loop (l : List ι) (m : Map K V) :
    (l.foldl (fun m j => m.erase (f j)) m).lookup a =
      if ∃ j ∈ l, f j = a then none else m.lookup a := by
  induction l generalizing m with
  | nil => simp
  | cons j l ih =>
    rw [List.foldl_cons, ih, lookup_erase_ite]
    by_cases ha : f j = a
    · simp [ha]
    · simp [ha, Ne.symm ha]

lemma lookup_insert_loop (l : List ι) (m : Map K V) :
    (l.foldl (fun m j => m.insert (f j) v) m).lookup a =
      if ∃ j ∈ l, f j = a then some v else m.lookup a := by
  induction l generalizing m with
  | nil => simp
  | cons j l ih =>
    rw [List.foldl_cons, ih, lookup_insert_ite]
    by_cases ha : f j = a
    · simp [ha]
    · simp [ha, Ne.symm ha]

end Loop

/-! ### A loop over rows -/

section Rows

variable {κ : Type} (f : κ → ι → K) (g : κ → V)

/-- The rows `rows` are written one after the other, each at the keys its row names. -/
def writeRows (rows : List κ) (cols : List ι) (m : Map K V) : Map K V :=
  rows.foldl (fun m i => cols.foldl (fun m j => m.insert (f i j) (g i)) m) m

lemma writeRows_append (rows₁ rows₂ : List κ) (cols : List ι) (m : Map K V) :
    writeRows f g (rows₁ ++ rows₂) cols m = writeRows f g rows₂ cols (writeRows f g rows₁ cols m) :=
  List.foldl_append ..

/-- After the rows are written a key holds the value of a row that names it, or, when no row
does, what it held before. -/
lemma lookup_writeRows (rows : List κ) (cols : List ι) (m : Map K V) :
    (∃ i ∈ rows, (∃ j ∈ cols, f i j = a) ∧ (writeRows f g rows cols m).lookup a = some (g i)) ∨
      (∀ i ∈ rows, ∀ j ∈ cols, f i j ≠ a) ∧
        (writeRows f g rows cols m).lookup a = m.lookup a := by
  unfold writeRows
  induction rows generalizing m with
  | nil => exact .inr ⟨by simp, rfl⟩
  | cons i rows ih =>
    rw [List.foldl_cons]
    rcases ih (cols.foldl (fun m j => m.insert (f i j) (g i)) m) with ⟨i', hi', hj, hl⟩ | ⟨hn, hl⟩
    · exact .inl ⟨i', List.mem_cons_of_mem _ hi', hj, hl⟩
    · rw [lookup_insert_loop (f i)] at hl
      by_cases hj : ∃ j ∈ cols, f i j = a
      · rw [if_pos hj] at hl
        exact .inl ⟨i, List.mem_cons_self .., hj, hl⟩
      · rw [if_neg hj] at hl
        refine .inr ⟨?_, hl⟩
        intro i' hi' j hjc hfa
        rcases List.mem_cons.mp hi' with rfl | hi'
        · exact hj ⟨j, hjc, hfa⟩
        · exact hn i' hi' j hjc hfa

end Rows

end DistCache.Lib
