import DistCache.Text
import DistCache.Lib.While

/-!
The loops of `split`, index by index.

`Text` has `split` on the rest of the string; here it is what `master.h` says: an outer `while` loop, and in
it one that runs over separators and one that runs to the next separator, each with a `for` loop over the
separators.  The loops end, give the same texts, and these are the maximal pieces without a separator.
-/

namespace DistCache

open Lib

/-! ### The loops -/

/-- An index into the string, and `flag`. -/
structure Scan where
  index : ℕ
  flag : Bool

/-- `i != s.size() && flag == 0`. -/
def Scan.goesOn (s : Str) (st : Scan) : Bool := st.index ≠ s.length && !st.flag

/-- The `for` loop of the first inner loop, where `c` stands at `i`. -/
def skipFor (c : UInt8) (i : ℕ) : Str → Scan
  | [] => ⟨i, true⟩
  | x :: seperator => if c = x then ⟨i + 1, false⟩ else skipFor c i seperator

/-- A turn of the first inner loop. -/
def skipTurn (s seperator : Str) (st : Scan) : Option Scan :=
  s[st.index]?.map fun c => skipFor c st.index seperator

/-- The first inner loop: it looks for a character that is no separator. -/
def skipLoop (fuel : ℕ) (s seperator : Str) (i : ℕ) : Option Scan :=
  whileLoop (Scan.goesOn s) (skipTurn s seperator) fuel ⟨i, false⟩

/-- The `for` loop of the second one: whether `c` is a separator. -/
def stopFor (c : UInt8) : Str → Bool
  | [] => false
  | x :: seperator => if c = x then true else stopFor c seperator

/-- A turn of the second inner loop. -/
def stopTurn (s seperator : Str) (st : Scan) : Option Scan :=
  s[st.index]?.map fun c => if stopFor c seperator then ⟨st.index, true⟩ else ⟨st.index + 1, false⟩

/-- The second inner loop: it looks for the next separator. -/
def stopLoop (fuel : ℕ) (s seperator : Str) (j : ℕ) : Option Scan :=
  whileLoop (Scan.goesOn s) (stopTurn s seperator) fuel ⟨j, false⟩

/-- `i` and `result`. -/
structure SplitState where
  index : ℕ
  result : List Str

/-- A turn of the outer loop. -/
def splitTurn (fuel : ℕ) (s seperator : Str) (st : SplitState) : Option SplitState := do
  let i ← (skipLoop fuel s seperator st.index).map Scan.index
  let j ← (stopLoop fuel s seperator i).map Scan.index
  if i ≠ j then
    let field ← substr s i (j - i)
    return ⟨j, st.result ++ [field]⟩
  else return ⟨i, st.result⟩

/-- `split`, with fuel for each of its loops. -/
def splitLoops (fuel : ℕ) (s seperator : Str) : Option (List Str) :=
  (whileLoop (fun st => decide (st.index ≠ s.length)) (splitTurn fuel s seperator) fuel ⟨0, []⟩).map
    SplitState.result

variable {s sep : Str} {i j fuel : ℕ} {p : UInt8 → Bool}

/-! ### The inner loops -/

/-- From `i` to `j` the characters meet `p`, and the one at `j` does not. -/
structure IsRun (s : Str) (p : UInt8 → Bool) (i j : ℕ) : Prop where
  le : i ≤ j
  bound : j ≤ s.length
  all : ∀ k c, i ≤ k → k < j → s[k]? = some c → p c = true
  stop : ∀ c, s[j]? = some c → p c = false

lemma skipFor_eq (c : UInt8) (i : ℕ) (sep : Str) :
    skipFor c i sep = if c ∈ sep then ⟨i + 1, false⟩ else ⟨i, true⟩ := by
  induction sep with
  | nil => simp [skipFor]
  | cons x sep ih =>
    rw [skipFor, ih]
    by_cases h : c = x
    · simp [h]
    · simp [h]

lemma stopFor_eq (c : UInt8) (sep : Str) : stopFor c sep = decide (c ∈ sep) := by
  induction sep with
  | nil => simp [stopFor]
  | cons x sep ih =>
    rw [stopFor, ih]
    by_cases h : c = x
    · simp [h]
    · simp [h]

lemma Scan.goesOn_iff {st : Scan} : st.goesOn s = true ↔ st.index ≠ s.length ∧ st.flag = false := by
  simp [Scan.goesOn]

/-- The characters that were passed meet `p`, and the one that has set `flag` does not. -/
structure Scanned (s : Str) (p : UInt8 → Bool) (i : ℕ) (st : Scan) : Prop where
  le : i ≤ st.index
  bound : st.index ≤ s.length
  all : ∀ k c, i ≤ k → k < st.index → s[k]? = some c → p c = true
  flag : st.flag = true → ∀ c, s[st.index]? = some c → p c = false

/-- Both loops: a turn passes a character that meets `p`, or sets `flag` in front of one that does not. -/
lemma scan_total {turn : Scan → Option Scan}
    (hturn : ∀ k c, s[k]? = some c →
      turn ⟨k, false⟩ = some (if p c then ⟨k + 1, false⟩ else ⟨k, true⟩))
    (hi : i ≤ s.length) (hfuel : s.length < fuel) :
    ∃ st, whileLoop (Scan.goesOn s) turn fuel ⟨i, false⟩ = some st ∧ IsRun s p i st.index := by
  have hstart : Scanned s p i ⟨i, false⟩ := ⟨le_rfl, hi, fun k c h₁ h₂ => absurd h₂ (not_lt.mpr h₁), nofun⟩
  have hbody (st : Scan) (hst : Scanned s p i st) (hcond : st.goesOn s = true) : ∃ st', turn st = some st' ∧
      Scanned s p i st' ∧ s.length - st'.index + (!st'.flag).toNat <
        s.length - st.index + (!st.flag).toNat := by
    obtain ⟨k, flag⟩ := st
    obtain ⟨hne, hflag⟩ := Scan.goesOn_iff.mp hcond
    obtain ⟨hle, hbound, hall, -⟩ := hst
    dsimp only at hne hflag hle hbound hall
    subst hflag
    have hk : k < s.length := by omega
    have hget : s[k]? = some s[k] := List.getElem?_eq_getElem hk
    refine ⟨_, hturn k _ hget, ?_⟩
    cases hp : p s[k] with
    | true =>
      simp only [if_true]
      refine ⟨⟨hle.trans k.le_succ, hk, fun k' c h₁ h₂ hc => ?_, nofun⟩, ?_⟩
      · rcases Nat.lt_succ_iff_lt_or_eq.mp h₂ with hlt | rfl
        · exact hall k' c h₁ hlt hc
        · rw [hget, Option.some.injEq] at hc
          rw [← hc, hp]
      · omega
    | false =>
      simp only [Bool.false_eq_true, if_false]
      refine ⟨⟨hle, hbound, hall, fun _ c hc => ?_⟩, by simp⟩
      rw [hget, Option.some.injEq] at hc
      rw [← hc, hp]
  have hfuel' : s.length - i + (!false).toNat ≤ fuel := by
    rw [Bool.not_false, Bool.toNat_true]
    omega
  obtain ⟨st, hloop, hst, hexit⟩ := whileLoop_total
    (m := fun st : Scan => s.length - st.index + (!st.flag).toNat) hbody hstart hfuel'
  refine ⟨st, hloop, hst.le, hst.bound, hst.all, fun c hc => ?_⟩
  have hflag : st.flag = true := by
    by_contra hne
    rw [Bool.not_eq_true] at hne
    have hend : st.index = s.length := by
      by_contra hindex
      rw [Scan.goesOn_iff.mpr ⟨hindex, hne⟩] at hexit
      cases hexit
    rw [hend, List.getElem?_eq_none le_rfl] at hc
    cases hc
  exact hst.flag hflag c hc

lemma skipLoop_total (sep : Str) (hi : i ≤ s.length) (hfuel : s.length < fuel) :
    ∃ j, (skipLoop fuel s sep i).map Scan.index = some j ∧ IsRun s (· ∈ sep) i j := by
  have hturn (k : ℕ) (c : UInt8) (hc : s[k]? = some c) : skipTurn s sep ⟨k, false⟩ =
      some (if decide (c ∈ sep) then ⟨k + 1, false⟩ else ⟨k, true⟩) := by
    simp [skipTurn, hc, skipFor_eq]
  obtain ⟨st, hloop, hrun⟩ := scan_total hturn hi hfuel
  exact ⟨st.index, by rw [skipLoop, hloop, Option.map_some], hrun⟩

lemma stopLoop_total (sep : Str) (hi : i ≤ s.length) (hfuel : s.length < fuel) :
    ∃ j, (stopLoop fuel s sep i).map Scan.index = some j ∧ IsRun s (· ∉ sep) i j := by
  have hturn (k : ℕ) (c : UInt8) (hc : s[k]? = some c) : stopTurn s sep ⟨k, false⟩ =
      some (if decide (c ∉ sep) then ⟨k + 1, false⟩ else ⟨k, true⟩) := by
    by_cases hmem : c ∈ sep
    · simp [stopTurn, hc, stopFor_eq, hmem]
    · simp [stopTurn, hc, stopFor_eq, hmem]
  obtain ⟨st, hloop, hrun⟩ := scan_total hturn hi hfuel
  exact ⟨st.index, by rw [stopLoop, hloop, Option.map_some], hrun⟩

/-! ### A turn of the outer loop -/

lemma IsRun.eq_append (h : IsRun s p i j) :
    (s.drop i).takeWhile p = (s.drop i).take (j - i) ∧ (s.drop i).dropWhile p = s.drop j := by
  have hsplit : (s.drop i).take (j - i) ++ s.drop j = s.drop i := by
    have hdrop : (s.drop i).drop (j - i) = s.drop j := by
      rw [List.drop_drop, Nat.add_sub_cancel' h.le]
    rw [← hdrop, List.take_append_drop]
  have hall : ∀ c ∈ (s.drop i).take (j - i), p c = true := by
    intro c hc
    obtain ⟨k, hk⟩ := List.mem_iff_getElem?.mp hc
    rw [List.getElem?_take] at hk
    split_ifs at hk with hlt
    rw [List.getElem?_drop] at hk
    exact h.all (i + k) c (Nat.le_add_right i k) (by omega) hk
  have hhead : ∀ c ∈ (s.drop j).head?, p c = false := by
    intro c hc
    rw [List.head?_drop] at hc
    exact h.stop c hc
  generalize (s.drop i).take (j - i) = field at hsplit hall ⊢
  generalize s.drop j = rest at hsplit hhead ⊢
  rw [← hsplit, List.takeWhile_append_of_pos hall, List.dropWhile_append_of_pos hall]
  cases rest with
  | nil => simp
  | cons c rest =>
    have hc := hhead c rfl
    rw [List.takeWhile_cons_of_neg (by simp [hc]), List.dropWhile_cons_of_neg (by simp [hc])]
    simp

/-- What a turn does: it passes the separators up to `i`, and the field from there up to `j`. -/
lemma splitTurn_total {k : ℕ} (sep : Str) (result : List Str) (hk : k ≤ s.length) (hfuel : s.length < fuel) :
    ∃ i j, IsRun s (· ∈ sep) k i ∧ IsRun s (· ∉ sep) i j ∧ splitTurn fuel s sep ⟨k, result⟩ =
      some ⟨j, if i = j then result else result ++ [(s.drop i).take (j - i)]⟩ := by
  obtain ⟨i, hskip, hi⟩ := skipLoop_total sep hk hfuel
  obtain ⟨j, hstop, hj⟩ := stopLoop_total sep hi.bound hfuel
  refine ⟨i, j, hi, hj, ?_⟩
  rw [splitTurn]
  dsimp only
  rw [hskip, Option.bind_eq_bind, Option.bind_some, hstop, Option.bind_eq_bind, Option.bind_some]
  by_cases heq : i = j
  · rw [if_neg (not_not_intro heq), if_pos heq, heq]
    rfl
  · rw [if_pos heq, if_neg heq, substr, if_pos hi.bound]
    rfl

/-! ### The pieces of a string -/

/-- The piece from `p.1` up to `p.2` is not empty, and has no separator in it. -/
structure IsPiece (s sep : Str) (p : ℕ × ℕ) : Prop where
  lt : p.1 < p.2
  le : p.2 ≤ s.length
  free : ∀ k c, p.1 ≤ k → k < p.2 → s[k]? = some c → c ∉ sep

/-- And no larger piece has it inside. -/
structure IsMaximal (s sep : Str) (p : ℕ × ℕ) : Prop where
  piece : IsPiece s sep p
  max : ∀ q, IsPiece s sep q → q.1 ≤ p.1 → p.2 ≤ q.2 → q = p

/-- The text of a piece. -/
def textOf (s : Str) (p : ℕ × ℕ) : Str := (s.drop p.1).take (p.2 - p.1)

/-- The pieces are the maximal ones, in the order of the string. -/
structure ArePieces (s sep : Str) (bound : ℕ) (pieces : List (ℕ × ℕ)) : Prop where
  sorted : pieces.Pairwise fun p q => p.2 ≤ q.1
  mem : ∀ p, p ∈ pieces ↔ IsMaximal s sep p ∧ p.2 ≤ bound

/-- What is true between two turns of the outer loop: the rest is still to be split, a separator stands
there, and what came out are the maximal pieces up to there. -/
structure Passed (s sep : Str) (st : SplitState) : Prop where
  bound : st.index ≤ s.length
  rest : st.result ++ split (s.drop st.index) sep = split s sep
  edge : st.index = 0 ∨ ∀ c, s[st.index]? = some c → c ∈ sep
  pieces : ∃ pieces, ArePieces s sep st.index pieces ∧ st.result = pieces.map (textOf s)

variable {k : ℕ} {q : ℕ × ℕ}

/-- A place inside a piece holds a character that is no separator. -/
lemma IsPiece.exists_not_mem (h : IsPiece s sep q) (hle : q.1 ≤ k) (hlt : k < q.2) :
    ∃ c, s[k]? = some c ∧ c ∉ sep := by
  have hk : k < s.length := hlt.trans_le h.le
  have hget : s[k]? = some s[k] := List.getElem?_eq_getElem hk
  exact ⟨s[k], hget, h.free k _ hle hlt hget⟩

/-- What a turn passes from `i` on is a piece. -/
lemma IsRun.isPiece (hj : IsRun s (· ∉ sep) i j) (hlt : i < j) : IsPiece s sep (i, j) :=
  ⟨hlt, hj.bound, fun k c h₁ h₂ hc => by simpa using hj.all k c h₁ h₂ hc⟩

/-- Of the pieces that end in what a turn passes, the one from `i` on is the maximal one. -/
lemma isMaximal_iff_of_turn (hedge : k = 0 ∨ ∀ c, s[k]? = some c → c ∈ sep) (hi : IsRun s (· ∈ sep) k i)
    (hj : IsRun s (· ∉ sep) i j) (hk : k < q.2) (hq : q.2 ≤ j) :
    IsMaximal s sep q ↔ i < j ∧ q = (i, j) := by
  constructor
  · rintro ⟨hpiece, hmax⟩
    have hleft : i ≤ q.1 := by
      by_contra hlt
      -- the separator at `q.1`, or the one at `k`
      by_cases hkq : k ≤ q.1
      · obtain ⟨c, hc, hnot⟩ := hpiece.exists_not_mem le_rfl hpiece.lt
        exact hnot (by simpa using hi.all q.1 c hkq (not_le.mp hlt) hc)
      · obtain ⟨c, hc, hnot⟩ := hpiece.exists_not_mem (not_le.mp hkq).le hk
        exact hnot (hedge.resolve_left (by omega) c hc)
    have hlt : i < j := hleft.trans_lt (hpiece.lt.trans_le hq)
    exact ⟨hlt, (hmax _ (hj.isPiece hlt) hleft hq).symm⟩
  · rintro ⟨hlt, rfl⟩
    refine ⟨hj.isPiece hlt, fun r hr hleft hright => Prod.ext ?_ ?_⟩
    · dsimp only at hleft hright ⊢
      by_contra hne
      have hbefore : r.1 < i := lt_of_le_of_ne hleft hne
      by_cases hki : k < i
      · obtain ⟨c, hc, hnot⟩ := hr.exists_not_mem (k := i - 1) (by omega) (by omega)
        exact hnot (by simpa using hi.all (i - 1) c (by omega) (by omega) hc)
      · obtain rfl : k = i := le_antisymm hi.le (not_lt.mp hki)
        obtain ⟨c, hc, hnot⟩ := hr.exists_not_mem hleft (hlt.trans_le hright)
        exact hnot (hedge.resolve_left (by omega) c hc)
    · dsimp only at hleft hright ⊢
      by_contra hne
      obtain ⟨c, hc, hnot⟩ := hr.exists_not_mem (k := j) (by omega) (lt_of_le_of_ne hright (Ne.symm hne))
      exact hnot (by simpa using hj.stop c hc)

/-- The pieces after a turn. -/
lemma ArePieces.turn {pieces : List (ℕ × ℕ)} (h : ArePieces s sep k pieces)
    (hedge : k = 0 ∨ ∀ c, s[k]? = some c → c ∈ sep) (hi : IsRun s (· ∈ sep) k i)
    (hj : IsRun s (· ∉ sep) i j) : ArePieces s sep j (if i = j then pieces else pieces ++ [(i, j)]) := by
  have hmem (p : ℕ × ℕ) : IsMaximal s sep p ∧ p.2 ≤ j ↔ p ∈ pieces ∨ i < j ∧ p = (i, j) := by
    rw [h.mem]
    by_cases hp : p.2 ≤ k
    · have hle : p.2 ≤ j := hp.trans (hi.le.trans hj.le)
      have hnot : ¬ (i < j ∧ p = (i, j)) := by
        rintro ⟨hlt, rfl⟩
        exact absurd (hlt.trans_le hp) (not_lt.mpr hi.le)
      simp [hp, hle, hnot]
    · have hiff := fun hle => isMaximal_iff_of_turn hedge hi hj (not_le.mp hp) (q := p) hle
      constructor
      · rintro ⟨hmax, hle⟩
        exact .inr ((hiff hle).mp hmax)
      · rintro (⟨-, hle⟩ | ⟨hlt, rfl⟩)
        · exact absurd hle hp
        · exact ⟨(hiff le_rfl).mpr ⟨hlt, rfl⟩, le_rfl⟩
  split_ifs with heq
  · refine ⟨h.sorted, fun p => ?_⟩
    rw [hmem, or_iff_left]
    exact fun hlt => hlt.1.ne heq
  · refine ⟨?_, fun p => ?_⟩
    · rw [List.pairwise_append]
      refine ⟨h.sorted, List.pairwise_singleton _ _, fun p hp q hq => ?_⟩
      rw [List.mem_singleton.mp hq]
      exact ((h.mem p).mp hp).2.trans hi.le
    · rw [hmem, List.mem_append, List.mem_singleton, and_iff_right (lt_of_le_of_ne hj.le heq)]

/-- A turn keeps what is true between turns, and comes nearer to the end. -/
lemma Passed.turn {st : SplitState} (h : Passed s sep st) (hne : st.index ≠ s.length)
    (hfuel : s.length < fuel) : ∃ st', splitTurn fuel s sep st = some st' ∧ Passed s sep st' ∧
      s.length - st'.index < s.length - st.index := by
  obtain ⟨k, result⟩ := st
  obtain ⟨hbound, hrest, hedge, pieces, hpieces, hresult⟩ := h
  dsimp only at hbound hrest hedge hpieces hresult hne
  obtain ⟨i, j, hi, hj, hturn⟩ := splitTurn_total sep result hbound hfuel
  have hlt : k < s.length := lt_of_le_of_ne hbound hne
  have hprogress : k < j := by
    refine lt_of_le_of_ne (hi.le.trans hj.le) fun heq => ?_
    -- the character at `k` would be a separator and none
    obtain rfl : k = i := le_antisymm hi.le (heq ▸ hj.le)
    subst heq
    have hget : s[k]? = some s[k] := List.getElem?_eq_getElem hlt
    have h₁ := hi.stop _ hget
    have h₂ := hj.stop _ hget
    simp only [decide_eq_false_iff_not, not_not] at h₁ h₂
    exact h₁ h₂
  refine ⟨_, hturn, ⟨hj.bound, ?_, .inr fun c hc => by simpa using hj.stop c hc, ?_⟩, by dsimp only; omega⟩
  · have hnil : s.drop k ≠ [] := by simpa using hlt
    have hsplit : split (s.drop k) sep = _ := split_eq hnil
    rw [hi.eq_append.2, hj.eq_append.1, hj.eq_append.2] at hsplit
    have hempty : (s.drop i).take (j - i) = [] ↔ i = j := by
      have hle := hj.le
      have hlen := hj.bound
      rw [← List.length_eq_zero_iff, List.length_take, List.length_drop]
      omega
    rw [← hrest, hsplit]
    dsimp only
    split_ifs with h₁ h₂ h₂
    · rfl
    · exact absurd (hempty.mpr h₁) h₂
    · exact absurd (hempty.mp h₂) h₁
    · rw [List.append_assoc, List.singleton_append]
  · refine ⟨_, hpieces.turn hedge hi hj, ?_⟩
    dsimp only
    split_ifs
    · exact hresult
    · rw [hresult, List.map_append]
      rfl

/-! ### The whole string -/

/-- The loops end, with the texts of the maximal pieces, which are those of `split`. -/
lemma splitLoops_total (s sep : Str) : ∃ pieces, ArePieces s sep s.length pieces ∧
    split s sep = pieces.map (textOf s) ∧
    ∀ fuel, s.length < fuel → splitLoops fuel s sep = some (split s sep) := by
  have hstart : Passed s sep ⟨0, []⟩ := by
    refine ⟨Nat.zero_le _, rfl, .inl rfl, [], ⟨List.Pairwise.nil, fun p => ?_⟩, rfl⟩
    refine iff_of_false List.not_mem_nil fun h => ?_
    have hlt := h.1.piece.lt
    have hle := h.2
    dsimp only at hle
    omega
  have hloop (fuel : ℕ) (hfuel : s.length < fuel) : ∃ st, Passed s sep st ∧ st.index = s.length ∧
      splitLoops fuel s sep = some st.result := by
    have hbody (st : SplitState) (h : Passed s sep st) (hcond : decide (st.index ≠ s.length) = true) :=
      h.turn (of_decide_eq_true hcond) hfuel
    obtain ⟨st, hwhile, hst, hexit⟩ := whileLoop_total hbody hstart (n := fuel) (by dsimp only; omega)
    have hend : st.index = s.length := by simpa using hexit
    exact ⟨st, hst, hend, by rw [splitLoops, hwhile, Option.map_some]⟩
  have hresult {st : SplitState} (h : Passed s sep st) (hend : st.index = s.length) :
      st.result = split s sep := by
    have hrest := h.rest
    rwa [hend, List.drop_length, split_nil, List.append_nil] at hrest
  obtain ⟨st, hst, hend, -⟩ := hloop (s.length + 1) s.length.lt_succ_self
  obtain ⟨pieces, hpieces, htexts⟩ := hst.pieces
  refine ⟨pieces, hend ▸ hpieces, ?_, fun fuel hfuel => ?_⟩
  · rw [← hresult hst hend, htexts]
  · obtain ⟨st', hst', hend', heq⟩ := hloop fuel hfuel
    rw [heq, hresult hst' hend']

/-- Fields with separators between them: at least one, and as many more behind each field as it says. -/
def joinRuns : List (Str × ℕ) → Str
  | [] => []
  | [(f, n)] => f ++ List.replicate n sharp
  | (f, n) :: x :: l => f ++ List.replicate (n + 1) sharp ++ joinRuns (x :: l)

lemma splitSharp_replicate (n : ℕ) (s : Str) : splitSharp (List.replicate n sharp ++ s) = splitSharp s := by
  induction n with
  | zero => rfl
  | succ n ih =>
    rw [List.replicate_succ, List.cons_append, splitSharp, split_cons_sep (by simp)]
    exact ih

lemma splitSharp_joinRuns {l : List (Str × ℕ)} (hl : ∀ x ∈ l, IsField x.1) :
    splitSharp (joinRuns l) = l.map Prod.fst := by
  have hcut {f : Str} (hf : IsField f) (n : ℕ) (s : Str) :
      splitSharp (f ++ List.replicate (n + 1) sharp ++ s) = f :: splitSharp s := by
    rw [List.append_assoc, List.replicate_succ, List.cons_append, splitSharp_cons hf, splitSharp_replicate]
  induction l using joinRuns.induct with
  | case1 => rfl
  | case2 f n =>
    have hf := hl (f, n) List.mem_cons_self
    cases n with
    | zero =>
      rw [joinRuns, List.replicate_zero, List.append_nil]
      exact splitSharp_field hf
    | succ n =>
      have h := hcut hf n []
      rw [List.append_nil] at h
      exact h
  | case3 f n x l ih =>
    rw [List.forall_mem_cons] at hl
    rw [joinRuns, hcut hl.1, ih hl.2]
    rfl

/-- **`split`.**  Its loops end, on every string and every set of separators, with the texts of the maximal
pieces without a separator, in order.  Fields that are joined come out again, whatever runs of separators
are in front of them, between them and behind them. -/
theorem split_pieces :
    (∀ s sep : Str, ∃ pieces, ArePieces s sep s.length pieces ∧
      ∀ fuel, s.length < fuel → splitLoops fuel s sep = some (pieces.map (textOf s))) ∧
    ∀ (n : ℕ) (l : List (Str × ℕ)), (∀ x ∈ l, IsField x.1) →
      ∀ fuel, (List.replicate n sharp ++ joinRuns l).length < fuel →
        splitLoops fuel (List.replicate n sharp ++ joinRuns l) [sharp] = some (l.map Prod.fst) := by
  constructor
  · intro s sep
    obtain ⟨pieces, hpieces, htexts, hloops⟩ := splitLoops_total s sep
    refine ⟨pieces, hpieces, fun fuel hfuel => ?_⟩
    rw [hloops fuel hfuel, htexts]
  · intro n l hl fuel hfuel
    obtain ⟨-, -, -, hloops⟩ := splitLoops_total (List.replicate n sharp ++ joinRuns l) [sharp]
    have hsplit := splitSharp_replicate n (joinRuns l)
    rw [splitSharp_joinRuns hl] at hsplit
    rw [hloops fuel hfuel]
    exact congrArg some hsplit

/-- Two fields with separators on all sides. -/
theorem split_pieces_two : splitLoops 9 (lit "#ab##c##") [sharp] = some [lit "ab", lit "c"] := by
  have hab : IsField (lit "ab") := ⟨by decide, by decide⟩
  have hc : IsField (lit "c") := ⟨by decide, by decide⟩
  have hfields : ∀ x ∈ [(lit "ab", 1), (lit "c", 2)], IsField x.1 := by
    rw [List.forall_mem_cons, List.forall_mem_singleton]
    exact ⟨hab, hc⟩
  exact split_pieces.2 1 [(lit "ab", 1), (lit "c", 2)] hfields 9 (by decide)

end DistCache
