import DistCache.Cache.CacheList
import DistCache.Lib.Faults

/-!
Messages of the master that are cut short or are no messages.

`ReadFromMaster` looks for the separator from index 2 on and cuts the message there, whatever it is.  The
function is stated once more with the reason why it ends, and with that left out it is the function of the
cache (`toOption_checkedRead`).  `named` is what is cut out, and `act` what is then done.
-/

namespace DistCache

open Lib

/-- Why `ReadFromMaster` ends early. -/
inductive ReadFault where
  /-- `message[spear]` is past the end. -/
  | outOfBounds
  /-- `substr` throws `out_of_range`. -/
  | outOfRange
  /-- `erase` is given the `end` iterator. -/
  | endIterator
  deriving DecidableEq

namespace Cache

/-! ### The function with its faults -/

/-- `dying`. -/
def checkedDying (c : Cache) (message : Str) (spear : ℤ) : Except ReadFault Cache := do
  let ip ← orFault (part message spear 1) .outOfRange
  let port ← orFault (part message spear 2) .outOfRange
  let c := { c with dyingCacheIP := ip, dyingCachePort := port }
  let c ← orFault (c.updateCache ip port (lit "K")) .endIterator
  if c.dyingCacheIP = c.localCacheIP ∧ c.dyingCachePort = c.portForCache then
    return { c with status := lit "K" }
  else return c

/-- `ReadFromMaster`.  In `setTarget` and in `failover` it is `substr` that can fail, in `updateCache` and
in `eraseCache` it is `erase`. -/
def checkedRead (flowOff : Str → ℤ) (c : Cache) (message : Str) : Except ReadFault Cache := do
  let spear ← orFault (spearFrom2 message) .outOfBounds
  let head := message.take 1
  if c.status = lit "K" then return c
  else if head = lit "K" then c.checkedDying message spear
  else if head = lit "N" then
    let ip ← orFault (part message spear 1) .outOfRange
    let port ← orFault (part message spear 2) .outOfRange
    orFault (c.updateCache ip port (lit "N")) .endIterator
  else if head = lit "P" then
    orFault (setTarget { c with status := head, prStatus := lit "P" } message spear) .outOfRange
  else if head = lit "R" then orFault (setTarget { c with status := head } message spear) .outOfRange
  else if head = lit "C" then orFault (c.failover flowOff message spear) .outOfRange
  else if head = lit "D" then
    let ip ← orFault (part message spear 1) .outOfRange
    let port ← orFault (part message spear 2) .outOfRange
    orFault (c.eraseCache (ip, port)) .endIterator
  else return c

variable {c c' : Cache} {flowOff : Str → ℤ} {message head : Str} {x : Str × Str}

/-- **The same function.**  What is left when the reasons are forgotten is what the cache does. -/
theorem toOption_checkedRead (flowOff : Str → ℤ) (c : Cache) (message : Str) :
    (c.checkedRead flowOff message).toOption = c.readFromMaster flowOff message := by
  have hdying (spear : ℤ) : (c.checkedDying message spear).toOption = c.dying message spear := by
    simp only [checkedDying, dying, toOption_bind, toOption_orFault, toOption_ite, toOption_pure,
      Option.bind_eq_bind, Option.pure_def]
  simp only [checkedRead, readFromMaster, toOption_bind, toOption_orFault, toOption_ite, toOption_pure,
    hdying, Option.bind_eq_bind, Option.pure_def]

/-! ### What is cut out of a message -/

/-- The two texts that a message names: an address, or `None` twice. -/
def named (message : Str) : Option (Str × Str) :=
  if (message.take 1 = lit "P" ∨ message.take 1 = lit "R") ∧ message.drop 2 = lit "None" then
    some (lit "None", lit "None")
  else slice (message.drop 2)

lemma spearFrom2_eq (hlen : 2 ≤ message.length) :
    spearFrom2 message = some (2 + spear (message.drop 2)) := by
  unfold spearFrom2
  rw [if_neg (by rintro rfl; simp at hlen), if_neg (by omega)]

/-- The two parts are what `slice` makes of the rest of the message. -/
lemma parts_eq (h₂ : 2 ≤ message.length) (hlen : message.length ≤ bufSize) {i : ℤ}
    (hi : i = (2 + spear (message.drop 2) : ℕ)) :
    part message i 1 = substr (message.drop 2) 0 (spear (message.drop 2)) ∧
    part message i 2 = substr (message.drop 2) (spear (message.drop 2) + 1)
      ((message.drop 2).length - spear (message.drop 2) - 1) := by
  have hle := spear_le (message.drop 2)
  rw [List.length_drop] at hle
  rw [hi]
  generalize spear (message.drop 2) = n at hle ⊢
  unfold bufSize at hlen
  constructor
  · have hsize : toSize ((2 + n : ℕ) - 2 : ℤ) = n := by
      unfold toSize
      omega
    unfold part
    rw [if_pos rfl, hsize]
    unfold substr
    rw [if_pos h₂, if_pos (Nat.zero_le _), List.drop_zero]
  · have hpos : toSize ((2 + n : ℕ) + 1 : ℤ) = n + 3 := by
      unfold toSize
      omega
    unfold part
    rw [if_neg (by decide), hpos]
    unfold substr
    rw [List.length_drop]
    by_cases hin : n + 3 ≤ message.length
    · have hsize : toSize (message.length - (2 + n : ℕ) - 1 : ℤ) = message.length - 2 - n - 1 := by
        unfold toSize
        omega
      rw [if_pos hin, if_pos (by omega), hsize, List.drop_drop, Nat.add_comm 2, Nat.add_right_comm]
    · rw [if_neg hin, if_neg (by omega)]

/-- Both parts are there, or the separator is missing. -/
lemma parts_cases (h₂ : 2 ≤ message.length) (hlen : message.length ≤ bufSize) {i : ℤ}
    (hi : i = (2 + spear (message.drop 2) : ℕ)) :
    ∃ ip, part message i 1 = some ip ∧
      ((∃ port, part message i 2 = some port ∧ slice (message.drop 2) = some (ip, port)) ∨
        (part message i 2 = none ∧ slice (message.drop 2) = none)) := by
  obtain ⟨hip, hport⟩ := parts_eq h₂ hlen hi
  have hleft : substr (message.drop 2) 0 (spear (message.drop 2)) =
      some ((message.drop 2).take (spear (message.drop 2))) := if_pos (Nat.zero_le _)
  refine ⟨_, hip.trans hleft, ?_⟩
  rw [hport, slice, hleft]
  cases substr (message.drop 2) (spear (message.drop 2) + 1)
    ((message.drop 2).length - spear (message.drop 2) - 1) with
  | none => exact .inr ⟨rfl, rfl⟩
  | some port => exact .inl ⟨port, rfl, rfl⟩

lemma slice_bind {α : Type} (f : Str → Str → Except ReadFault α) (h₂ : 2 ≤ message.length)
    (hlen : message.length ≤ bufSize) {i : ℤ} (hi : i = (2 + spear (message.drop 2) : ℕ)) :
    (do
      let ip ← orFault (part message i 1) ReadFault.outOfRange
      let port ← orFault (part message i 2) ReadFault.outOfRange
      f ip port) =
    (do
      let x ← orFault (slice (message.drop 2)) ReadFault.outOfRange
      f x.1 x.2) := by
  obtain ⟨ip, hip, ⟨port, hport, hslice⟩ | ⟨hport, hslice⟩⟩ := parts_cases h₂ hlen hi
  · rw [hip, hport, hslice]
    rfl
  · rw [hip, hport, hslice]
    rfl

/-- The partner that a message of the kinds `P` and `R` names. -/
lemma setTarget_eq (h₂ : 2 ≤ message.length) (hlen : message.length ≤ bufSize)
    (hhead : message.take 1 = lit "P" ∨ message.take 1 = lit "R") {i : ℤ}
    (hi : i = (2 + spear (message.drop 2) : ℕ)) :
    c.setTarget message i =
      (named message).map fun x => { c with targetIP := x.1, targetPort := x.2 } := by
  have hsize : toSize (message.length - 2 : ℤ) = message.length - 2 := by
    unfold toSize
    unfold bufSize at hlen
    omega
  have hrest : substr message 2 (toSize (message.length - 2)) = some (message.drop 2) := by
    unfold substr
    rw [if_pos h₂, hsize, List.take_of_length_le (by rw [List.length_drop])]
  unfold setTarget named
  rw [hrest, Option.bind_eq_bind, Option.bind_some]
  by_cases hnone : message.drop 2 = lit "None"
  · rw [if_pos hnone, if_pos ⟨hhead, hnone⟩]
    rfl
  · rw [if_neg hnone, if_neg fun h => hnone h.2]
    obtain ⟨ip, hip, ⟨port, hport, hslice⟩ | ⟨hport, hslice⟩⟩ := parts_cases h₂ hlen hi
    · rw [hip, hport, hslice]
      rfl
    · rw [hip, hport, hslice]
      rfl

/-! ### What is then done -/

/-- The kinds of messages that name an address. -/
def kinds : List Str := [lit "K", lit "N", lit "P", lit "R", lit "D"]

/-- What a message of the kind `head` does with the two texts. -/
def act (c : Cache) (head : Str) (x : Str × Str) : Option Cache :=
  if head = lit "K" then
    (updateCache { c with dyingCacheIP := x.1, dyingCachePort := x.2 } x.1 x.2 (lit "K")).map fun c =>
      if c.dyingCacheIP = c.localCacheIP ∧ c.dyingCachePort = c.portForCache then
        { c with status := lit "K" }
      else c
  else if head = lit "N" then c.updateCache x.1 x.2 (lit "N")
  else if head = lit "P" then
    some { c with status := head, prStatus := lit "P", targetIP := x.1, targetPort := x.2 }
  else if head = lit "R" then some { c with status := head, targetIP := x.1, targetPort := x.2 }
  else c.eraseCache x

lemma act_K : c.act (lit "K") x =
    (updateCache { c with dyingCacheIP := x.1, dyingCachePort := x.2 } x.1 x.2 (lit "K")).map fun c =>
      if c.dyingCacheIP = c.localCacheIP ∧ c.dyingCachePort = c.portForCache then
        { c with status := lit "K" }
      else c := by simp [act]

lemma act_N : c.act (lit "N") x = c.updateCache x.1 x.2 (lit "N") := by simp [act]

lemma act_P : c.act (lit "P") x = some { c with
    status := lit "P", prStatus := lit "P", targetIP := x.1, targetPort := x.2 } := by simp [act]

lemma act_R : c.act (lit "R") x =
    some { c with status := lit "R", targetIP := x.1, targetPort := x.2 } := by simp [act]

lemma act_D : c.act (lit "D") x = c.eraseCache x := by simp [act]

lemma checkedDying_eq (h₂ : 2 ≤ message.length) (hlen : message.length ≤ bufSize) {i : ℤ}
    (hi : i = (2 + spear (message.drop 2) : ℕ)) :
    c.checkedDying message i =
      (do
        let x ← orFault (slice (message.drop 2)) ReadFault.outOfRange
        orFault (c.act (lit "K") x) ReadFault.endIterator) := by
  rw [checkedDying, slice_bind _ h₂ hlen hi]
  congr 1
  funext x
  rw [act_K]
  dsimp only
  cases updateCache { c with dyingCacheIP := x.1, dyingCachePort := x.2 } x.1 x.2 (lit "K") with
  | none => rfl
  | some c₁ =>
    rw [orFault_some, ok_bind, Option.map_some, orFault_some]
    split_ifs <;> rfl

lemma orFault_map {o : Option (Str × Str)} {f : Str × Str → Cache} {e e' : ReadFault} :
    orFault (o.map f) e = (orFault o e >>= fun x => orFault (some (f x)) e') := by
  cases o <;> rfl

/-- A message is cut, and then acted on. -/
lemma checkedRead_eq (h₂ : 2 ≤ message.length) (hlen : message.length ≤ bufSize)
    (hstatus : c.status ≠ lit "K") (hkind : message.take 1 ∈ kinds) :
    c.checkedRead flowOff message =
      (do
        let x ← orFault (named message) ReadFault.outOfRange
        orFault (c.act (message.take 1) x) ReadFault.endIterator) := by
  have hi : ((2 + spear (message.drop 2) : ℕ) : ℤ) = (2 + spear (message.drop 2) : ℕ) := rfl
  have hnamed (hP : message.take 1 ≠ lit "P") (hR : message.take 1 ≠ lit "R") :
      named message = slice (message.drop 2) := if_neg fun h => h.1.elim hP hR
  rw [checkedRead, spearFrom2_eq h₂, orFault_some, ok_bind]
  dsimp only
  rw [if_neg hstatus]
  simp only [kinds, List.mem_cons, List.not_mem_nil, or_false] at hkind
  obtain h | h | h | h | h := hkind
  · rw [hnamed (by simp [h]) (by simp [h]), if_pos h, checkedDying_eq h₂ hlen hi, h]
  · simp only [hnamed (by simp [h]) (by simp [h]), h, act_N, lit_inj, String.reduceEq, if_true, if_false]
    exact slice_bind _ h₂ hlen hi
  · simp only [h, act_P, lit_inj, String.reduceEq, if_true, if_false]
    rw [setTarget_eq h₂ hlen (.inl h) hi]
    exact orFault_map
  · simp only [h, act_R, lit_inj, String.reduceEq, if_true, if_false]
    rw [setTarget_eq h₂ hlen (.inr h) hi]
    exact orFault_map
  · simp only [hnamed (by simp [h]) (by simp [h]), h, act_D, lit_inj, String.reduceEq, if_true, if_false]
    exact slice_bind _ h₂ hlen hi

/-! ### Malformed messages -/

/-- The messages that the master sends. -/
inductive WellFormed : Str → Prop where
  | addr {kind : Str} {x : Str × Str} (hkind : kind ∈ kinds) (hip : IsField x.1) (hport : IsField x.2) :
    WellFormed (kind ++ sharp :: joinAddr x)
  | alone {kind : Str} (hkind : kind = lit "P" ∨ kind = lit "R") : WellFormed (kind ++ sharp :: lit "None")
  | failover {origin backup : Str × Str} (horigin : IsField origin.1 ∧ IsField origin.2)
    (hbackup : IsField backup.1 ∧ IsField backup.2) :
    WellFormed (lit "C#" ++ (origin.1 ++ colon :: origin.2) ++ sharp :: (backup.1 ++ colon :: backup.2))

/-- The members that a malformed message must leave alone. -/
structure Untouched (c c' : Cache) : Prop where
  status : c'.status = c.status
  prStatus : c'.prStatus = c.prStatus
  target : c'.targetIP = c.targetIP ∧ c'.targetPort = c.targetPort
  dying : c'.dyingCacheIP = c.dyingCacheIP ∧ c'.dyingCachePort = c.dyingCachePort
  list : c'.cacheList = c.cacheList

lemma Untouched.refl (c : Cache) : c.Untouched c := ⟨rfl, rfl, ⟨rfl, rfl⟩, ⟨rfl, rfl⟩, rfl⟩

/-- The string is only indexed and cut within its bounds, and a malformed message changes nothing. -/
def Withstands (flowOff : Str → ℤ) (c : Cache) (message : Str) : Prop :=
  Avoids (· ≠ .endIterator) (c.checkedRead flowOff message) ∧
    (¬ WellFormed message → ∃ c', c.checkedRead flowOff message = .ok c' ∧ c.Untouched c')

/-- The message says what is the case anyway. -/
def Idle (c : Cache) (head : Str) (x : Str × Str) : Prop :=
  head = lit "N" ∧ x = c.cacheAddr ∨
  head = lit "P" ∧ c.status = head ∧ c.prStatus = lit "P" ∧ (c.targetIP, c.targetPort) = x ∨
  head = lit "R" ∧ c.status = head ∧ (c.targetIP, c.targetPort) = x

/-- The messages that are handled as they should be. -/
def Handled (c : Cache) (message : Str) : Prop :=
  message.length ≠ 1 ∧ (c.status = lit "K" ∨ message.take 1 ≠ lit "C" ∧
    (message.take 1 ∈ kinds →
      ∃ x, named message = some x ∧ (WellFormed message ∨ c.Idle (message.take 1) x)))

/-- An entry that is erased is missed. -/
lemma not_untouched_of_erase (hmem : x ∈ c.cacheList) (h : c'.cacheList = c.cacheList.erase x) :
    ¬ c.Untouched c' := by
  intro hu
  have hlen := List.length_erase_of_mem hmem
  rw [← h, hu.list] at hlen
  have hpos := List.length_pos_of_mem hmem
  omega

lemma mem_of_eraseCache (h : c.eraseCache x = some c') : x ∈ c.cacheList := by
  unfold eraseCache at h
  split_ifs at h with hmem
  exact hmem

/-- The two kinds that erase. -/
lemma erase_of_act (hhead : head = lit "K" ∨ head = lit "D") (h : c.act head x = some c') :
    x ∈ c.cacheList ∧ c'.cacheList = c.cacheList.erase x := by
  obtain rfl | rfl := hhead
  · rw [act_K] at h
    obtain ⟨c₁, h₁, h⟩ := Option.map_eq_some_iff.mp h
    have hlist : c'.cacheList = c₁.cacheList := by
      rw [← h]
      split_ifs <;> rfl
    simp only [updateCache, Option.bind_eq_bind, Option.bind_eq_some_iff, Option.pure_def,
      Option.some.injEq, lit_inj, String.reduceEq, if_true, if_false] at h₁
    obtain ⟨c₂, h₂, rfl⟩ := h₁
    have hmem := mem_of_eraseCache h₂
    refine ⟨hmem, ?_⟩
    rw [hlist, eraseCache_eq h₂]
  · rw [act_D] at h
    refine ⟨mem_of_eraseCache h, ?_⟩
    rw [eraseCache_eq h]

/-- When an action changes nothing. -/
lemma act_untouched_iff (hkind : head ∈ kinds) :
    (∃ c', c.act head x = some c' ∧ c.Untouched c') ↔ c.Idle head x := by
  have herases (hhead : head = lit "K" ∨ head = lit "D") : ¬ ∃ c', c.act head x = some c' ∧ c.Untouched c' := by
    rintro ⟨c', h, hu⟩
    obtain ⟨hmem, hlist⟩ := erase_of_act hhead h
    exact not_untouched_of_erase hmem hlist hu
  simp only [kinds, List.mem_cons, List.not_mem_nil, or_false] at hkind
  obtain rfl | rfl | rfl | rfl | rfl := hkind
  · refine iff_of_false (herases (.inl rfl)) ?_
    simp [Idle]
  · have hidle : c.Idle (lit "N") x ↔ x = c.cacheAddr := by simp [Idle]
    rw [hidle, act_N, updateCache, if_pos rfl]
    by_cases hown : x = c.cacheAddr
    · rw [hown, if_neg (by simp [cacheAddr])]
      exact iff_of_true ⟨_, rfl, rfl, rfl, ⟨rfl, rfl⟩, ⟨rfl, rfl⟩, rfl⟩ rfl
    · have hother : x.1 ≠ c.localCacheIP ∨ x.2 ≠ c.portForCache := by
        rw [← not_and_or]
        exact fun h => hown (Prod.ext h.1 h.2)
      rw [if_pos hother]
      refine iff_of_false ?_ hown
      rintro ⟨_, ⟨⟩, hu⟩
      have hlist : c.cacheList ++ [(x.1, x.2)] = c.cacheList := hu.list
      exact List.cons_ne_nil _ _ (List.append_right_eq_self.mp hlist)
  · have hidle : c.Idle (lit "P") x ↔
        c.status = lit "P" ∧ c.prStatus = lit "P" ∧ (c.targetIP, c.targetPort) = x := by
      simp [Idle]
    rw [hidle, act_P]
    constructor
    · rintro ⟨_, ⟨⟩, hu⟩
      exact ⟨hu.status.symm, hu.prStatus.symm, Prod.ext hu.target.1.symm hu.target.2.symm⟩
    · rintro ⟨hstatus, hpr, rfl⟩
      exact ⟨_, rfl, hstatus.symm, hpr.symm, ⟨rfl, rfl⟩, ⟨rfl, rfl⟩, rfl⟩
  · have hidle : c.Idle (lit "R") x ↔ c.status = lit "R" ∧ (c.targetIP, c.targetPort) = x := by
      simp [Idle]
    rw [hidle, act_R]
    constructor
    · rintro ⟨_, ⟨⟩, hu⟩
      exact ⟨hu.status.symm, Prod.ext hu.target.1.symm hu.target.2.symm⟩
    · rintro ⟨hstatus, rfl⟩
      exact ⟨_, rfl, hstatus.symm, rfl, ⟨rfl, rfl⟩, ⟨rfl, rfl⟩, rfl⟩
  · refine iff_of_false (herases (.inr rfl)) ?_
    simp [Idle]

/-- A message of a kind that names an address is withstood if it is cut, and is well formed or idle. -/
lemma withstands_of_kind (h₂ : 2 ≤ message.length) (hlen : message.length ≤ bufSize)
    (hstatus : c.status ≠ lit "K") (hkind : message.take 1 ∈ kinds) : c.Withstands flowOff message ↔
      ∃ x, named message = some x ∧ (WellFormed message ∨ c.Idle (message.take 1) x) := by
  unfold Withstands
  rw [checkedRead_eq h₂ hlen hstatus hkind]
  cases hn : named message with
  | none =>
    rw [orFault_none, error_bind, avoids_error_iff]
    refine iff_of_false (fun h => h.1 (by decide)) ?_
    rintro ⟨x, hx, -⟩
    cases hx
  | some x =>
    have hend : Avoids (· ≠ ReadFault.endIterator) (orFault (c.act (message.take 1) x) .endIterator) :=
      avoids_orFault (not_not_intro rfl)
    rw [orFault_some, ok_bind, and_iff_right hend, ← or_iff_not_imp_left]
    simp only [orFault_eq_ok_iff, act_untouched_iff hkind, Option.some.injEq, exists_eq_left']

lemma length_of_substr {s t : Str} {pos n : ℕ} (h : substr s pos n = some t) : t.length ≤ s.length := by
  unfold substr at h
  split_ifs at h
  cases h
  rw [List.length_take, List.length_drop]
  omega

/-- The inner `slice` of the branch `C` may give any number, also the length of the text. -/
lemma failover_length (hlen : message.length ≤ bufSize) (i : ℤ) :
    c.failover (fun s => s.length) message i = none := by
  rw [Option.eq_none_iff_forall_not_mem]
  intro c' h
  simp only [failover, Option.bind_eq_bind, Option.mem_def, Option.bind_eq_some_iff] at h
  obtain ⟨origin, horigin, backup, -, ip, -, port, hport, -⟩ := h
  have hle := length_of_substr horigin
  unfold bufSize at hlen
  have hpos : toSize ((origin.length : ℤ) + 1) = origin.length + 1 := by
    unfold toSize
    omega
  rw [part, if_neg (by decide), substr, hpos, if_neg (by omega)] at hport
  cases hport

/-- A message that leaves a cache as it was is withstood. -/
lemma withstands_of_ok (h : c.checkedRead flowOff message = .ok c) : c.Withstands flowOff message := by
  unfold Withstands
  rw [h]
  exact ⟨avoids_ok, fun _ => ⟨c, rfl, .refl c⟩⟩

/-- Of one character the third is read. -/
lemma not_withstands_of_one (hone : message.length = 1) : ¬ c.Withstands flowOff message := by
  intro h
  have hspear : spearFrom2 message = none := by
    unfold spearFrom2
    rw [if_neg (by rintro rfl; simp at hone), if_pos (by omega)]
  have hsafe := h.1
  rw [checkedRead, hspear, orFault_none, error_bind, avoids_error_iff] at hsafe
  exact hsafe (by decide)

lemma withstands_nil : c.Withstands flowOff [] := by
  refine withstands_of_ok ?_
  rw [checkedRead, show spearFrom2 [] = some 2 from rfl, orFault_some, ok_bind]
  simp +decide
  rfl

lemma withstands_of_dying (h₂ : 2 ≤ message.length) (hstatus : c.status = lit "K") :
    c.Withstands flowOff message := by
  refine withstands_of_ok ?_
  rw [checkedRead, spearFrom2_eq h₂, orFault_some, ok_bind]
  dsimp only
  rw [if_pos hstatus]
  rfl

/-- The other kinds: `C`, and those that are none. -/
lemma checkedRead_other (h₂ : 2 ≤ message.length) (hstatus : c.status ≠ lit "K")
    (hkind : message.take 1 ∉ kinds) :
    c.checkedRead flowOff message = if message.take 1 = lit "C" then
      orFault (c.failover flowOff message (2 + spear (message.drop 2) : ℕ)) .outOfRange
      else .ok c := by
  simp only [kinds, List.mem_cons, List.not_mem_nil, or_false, not_or] at hkind
  obtain ⟨hK, hN, hP, hR, hD⟩ := hkind
  rw [checkedRead, spearFrom2_eq h₂, orFault_some, ok_bind]
  dsimp only
  rw [if_neg hstatus, if_neg hK, if_neg hN, if_neg hP, if_neg hR, if_neg hD]
  rfl

/-- **Malformed messages.**  The string is indexed and cut within its bounds, and a malformed message
changes nothing, exactly when the message has not one character, and: the cache is dying, or the message
is of no kind, or it names an address (or no partner) and is well formed or says what is the case. -/
theorem withstands_iff (hlen : message.length ≤ bufSize) :
    (∀ flowOff, c.Withstands flowOff message) ↔ c.Handled message := by
  unfold Handled
  by_cases hone : message.length = 1
  · exact iff_of_false (fun h => not_withstands_of_one hone (h fun _ => 0)) fun h => h.1 hone
  rw [and_iff_right hone]
  rcases Nat.lt_or_ge message.length 2 with hlt | h₂
  · obtain rfl : message = [] := List.length_eq_zero_iff.mp (by omega)
    exact iff_of_true (fun _ => withstands_nil) (.inr ⟨by decide, fun h => absurd h (by decide)⟩)
  by_cases hstatus : c.status = lit "K"
  · exact iff_of_true (fun _ => withstands_of_dying h₂ hstatus) (.inl hstatus)
  rw [or_iff_right hstatus]
  by_cases hkind : message.take 1 ∈ kinds
  · have hC : message.take 1 ≠ lit "C" := by
      intro h
      rw [h] at hkind
      exact absurd hkind (by decide)
    rw [and_iff_right hC, forall_prop_of_true hkind]
    simp only [withstands_of_kind h₂ hlen hstatus hkind, forall_const]
  · by_cases hC : message.take 1 = lit "C"
    · refine iff_of_false (fun h => ?_) fun h => h.1 hC
      have hsafe := (h fun s => s.length).1
      rw [checkedRead_other h₂ hstatus hkind, if_pos hC, failover_length hlen, orFault_none,
        avoids_error_iff] at hsafe
      exact hsafe (by decide)
    · refine iff_of_true (fun flowOff => withstands_of_ok ?_) ⟨hC, fun h => absurd h hkind⟩
      rw [checkedRead_other h₂ hstatus hkind, if_neg hC]

/-- A backup before its first message. -/
def backup : Cache := .new 10 (lit "R") (lit "127.0.0.1") (lit "8002") (lit "9002")

/-- It is paired. -/
theorem withstands_paired : backup.Handled (lit "R#127.0.0.1#9001") ∧
    ∀ flowOff, backup.Withstands flowOff (lit "R#127.0.0.1#9001") := by
  have hwell : WellFormed (lit "R" ++ sharp :: joinAddr (lit "127.0.0.1", lit "9001")) :=
    .addr (by decide) ⟨by decide, by decide⟩ ⟨by decide, by decide⟩
  have hhandled : backup.Handled (lit "R#127.0.0.1#9001") :=
    ⟨by decide, .inr ⟨by decide, fun _ => ⟨_, rfl, .inl hwell⟩⟩⟩
  exact ⟨hhandled, (withstands_iff (by decide)).mpr hhandled⟩

lemma WellFormed.separator (h : WellFormed message) : message[1]? = some sharp := by
  cases h with
  | addr hkind =>
    simp only [kinds, List.mem_cons, List.not_mem_nil, or_false] at hkind
    obtain rfl | rfl | rfl | rfl | rfl := hkind <;> rfl
  | alone hkind => obtain rfl | rfl := hkind <;> rfl
  | failover => rfl

/-- One character, a port that is missing, another separator, and the branch `C`. -/
theorem withstands_not : (∀ flowOff, ¬ backup.Withstands flowOff (lit "P")) ∧
    (∀ flowOff, ¬ backup.Withstands flowOff (lit "P#127.0.0.1")) ∧
    (∀ flowOff, ¬ backup.Withstands flowOff (lit "P:127.0.0.1#9001")) ∧
    ∃ flowOff, ¬ backup.Withstands flowOff (lit "C#127.0.0.1:9001#127.0.0.1:9003") := by
  refine ⟨fun flowOff => not_withstands_of_one (by decide), fun flowOff h => ?_, fun flowOff h => ?_,
    fun s => s.length, fun h => ?_⟩
  · have hread : backup.checkedRead flowOff (lit "P#127.0.0.1") = .error .outOfRange := rfl
    have hsafe := h.1
    rw [hread, avoids_error_iff] at hsafe
    exact hsafe (by decide)
  · obtain ⟨c', hread, hu⟩ := h.2 fun hwell => absurd hwell.separator (by decide)
    have hstatus : ∀ c', backup.checkedRead flowOff (lit "P:127.0.0.1#9001") = .ok c' →
        c'.status = lit "P" := by
      rintro _ ⟨⟩
      rfl
    exact absurd ((hstatus c' hread).symm.trans hu.status) (by decide)
  · have hsafe := h.1
    rw [checkedRead_other (by decide) (by decide) (by decide), if_pos (by decide),
      failover_length (by decide), orFault_none, avoids_error_iff] at hsafe
    exact hsafe (by decide)

/-! ### Removals -/

lemma act_of_mem (hhead : head = lit "K" ∨ head = lit "D") (hmem : x ∈ c.cacheList) :
    ∃ c', c.act head x = some c' := by
  obtain rfl | rfl := hhead
  · have herase : eraseCache { c with dyingCacheIP := x.1, dyingCachePort := x.2 } (x.1, x.2) = some
        { c with dyingCacheIP := x.1, dyingCachePort := x.2, cacheList := c.cacheList.erase x } :=
      if_pos hmem
    rw [act_K, updateCache, if_neg (by simp), if_pos rfl, herase]
    exact ⟨_, rfl⟩
  · rw [act_D, eraseCache, if_pos hmem]
    exact ⟨_, rfl⟩

lemma readFromMaster_of_dying (h₂ : 2 ≤ message.length) (hstatus : c.status = lit "K") :
    c.readFromMaster flowOff message = some c := by
  rw [readFromMaster, spearFrom2_eq h₂, Option.bind_eq_bind, Option.bind_some]
  dsimp only
  rw [if_pos hstatus]
  rfl

/-- The first entry of an address that a message removes is taken off the list and nothing else, by a dying
cache only if there is no such entry, for it does nothing, and by another one only if there is one, for
what `find_if` gives is erased unseen. -/
theorem removes_iff {kind : Str} (hkind : kind = lit "K" ∨ kind = lit "D") (hip : sharp ∉ x.1)
    (hlen : (kind ++ sharp :: joinAddr x).length ≤ bufSize) :
    (∃ c', c.readFromMaster flowOff (kind ++ sharp :: joinAddr x) = some c' ∧
      c'.cacheList = c.cacheList.erase x) ↔ (c.status = lit "K" ↔ x ∉ c.cacheList) := by
  have hcut : (kind ++ sharp :: joinAddr x).take 1 = kind ∧
      (kind ++ sharp :: joinAddr x).drop 2 = joinAddr x ∧ 2 ≤ (kind ++ sharp :: joinAddr x).length := by
    obtain rfl | rfl := hkind <;> exact ⟨rfl, rfl, Nat.le_add_left 2 (joinAddr x).length⟩
  obtain ⟨hhead, hrest, h₂⟩ := hcut
  generalize kind ++ sharp :: joinAddr x = message at *
  by_cases hstatus : c.status = lit "K"
  · rw [readFromMaster_of_dying h₂ hstatus, iff_true_left hstatus]
    constructor
    · rintro ⟨_, ⟨⟩, hlist⟩
      exact List.erase_eq_self_iff.mp hlist.symm
    · exact fun hmem => ⟨c, rfl, (List.erase_eq_self_iff.mpr hmem).symm⟩
  · have hmem : message.take 1 ∈ kinds := by
      rw [hhead]
      obtain rfl | rfl := hkind <;> decide
    have hnamed : named message = some x := by
      have hnot : ¬ (message.take 1 = lit "P" ∨ message.take 1 = lit "R") := by
        rw [hhead]
        obtain rfl | rfl := hkind <;> decide
      rw [named, if_neg fun h => hnot h.1, hrest]
      exact slice_append hip x.2
    rw [← toOption_checkedRead, checkedRead_eq h₂ hlen hstatus hmem, hnamed, orFault_some, ok_bind,
      toOption_orFault, hhead, iff_false_left hstatus, not_not]
    constructor
    · rintro ⟨c', h, -⟩
      exact (erase_of_act hkind h).1
    · intro hx
      obtain ⟨c', h⟩ := act_of_mem hkind hx
      exact ⟨c', h, (erase_of_act hkind h).2⟩

/-- **Removals.**  A dying cache ignores a message that removes an address; another one takes the first entry
of the address off its list, if it has one. -/
theorem removes_or_ignores {kind : Str} (hkind : kind = lit "K" ∨ kind = lit "D") (hip : sharp ∉ x.1)
    (hlen : (kind ++ sharp :: joinAddr x).length ≤ bufSize) :
    (c.status = lit "K" → c.readFromMaster flowOff (kind ++ sharp :: joinAddr x) = some c) ∧
    (c.status ≠ lit "K" → x ∈ c.cacheList →
      ∃ c', c.readFromMaster flowOff (kind ++ sharp :: joinAddr x) = some c' ∧
        c'.cacheList = c.cacheList.erase x) := by
  refine ⟨readFromMaster_of_dying ?_, fun hstatus hmem => ?_⟩
  · obtain rfl | rfl := hkind <;> exact Nat.le_add_left 2 (joinAddr x).length
  · exact (removes_iff hkind hip hlen).mpr (iff_of_false hstatus (not_not_intro hmem))

/-- A primary that lists another one and itself. -/
def pair : Cache := { backup with
  status := lit "P"
  cacheList := [(lit "127.0.0.1", lit "9001"), (lit "127.0.0.1", lit "9002")] }

/-- The other one dies. -/
theorem removes_listed : ∃ x ∈ pair.cacheList, ∀ flowOff, ∃ c',
    pair.readFromMaster flowOff (lit "D" ++ sharp :: joinAddr x) = some c' ∧
      c'.cacheList = pair.cacheList.erase x := by
  refine ⟨(lit "127.0.0.1", lit "9001"), by decide, fun _ => ?_⟩
  exact (removes_or_ignores (.inr rfl) (by decide) (by decide)).2 (by decide) (by decide)

/-- The other one dies when the primary has been shrunk, and keeps its entry.  A backup that is promoted has
an empty list, and erases at its end. -/
theorem removes_not : ∃ x, (∀ flowOff, ∃ c, pair.receive flowOff (lit "K#127.0.0.1#9002") = some c ∧
      c.readFromMaster flowOff (lit "D" ++ sharp :: joinAddr x) = some c ∧
      c.cacheList ≠ c.cacheList.erase x) ∧
    ∀ flowOff, ∃ c, backup.receive flowOff (lit "P#None") = some c ∧ c.status = lit "P" ∧
      c.checkedRead flowOff (lit "D" ++ sharp :: joinAddr x) = .error .endIterator ∧
      c.checkedRead flowOff (lit "K" ++ sharp :: joinAddr x) = .error .endIterator :=
  ⟨(lit "127.0.0.1", lit "9001"), fun _ => ⟨_, rfl, rfl, by decide⟩, fun _ => ⟨_, rfl, rfl, rfl, rfl⟩⟩

end Cache

end DistCache
