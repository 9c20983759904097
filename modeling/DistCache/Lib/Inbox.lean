import Mathlib.Data.List.Nodup
import Mathlib.Tactic.SplitIfs

/-!
Messages that are sent whole and in order, and read later: every receiver has an inbox, which a
sender appends to and the receiver takes the head of.

What a receiver will know when it has read everything is fixed as soon as the messages are sent.
`Drains f s inbox P` says so: the messages of `inbox`, read one after the other by the partial
function `f` from the state `s` on, are all accepted and lead to a state with `P`.  A message that is
sent changes what holds at the end (`Drains.append`), and reading one does not (`Drains.deliver`).
-/

namespace DistCache.Lib

variable {σ μ α : Type*} {f : σ → μ → Option σ} {s s' : σ} {m : μ} {inbox rest : List μ}
  {P Q : σ → Prop}

/-- Reading `inbox` from `s` on leads to a state with `P`. -/
def Drains (f : σ → μ → Option σ) (s : σ) (inbox : List μ) (P : σ → Prop) : Prop :=
  ∃ s', inbox.foldlM f s = some s' ∧ P s'

lemma drains_nil : Drains f s [] P ↔ P s := by
  constructor
  · rintro ⟨s', hs, hP⟩
    cases hs
    exact hP
  · exact fun hP => ⟨s, rfl, hP⟩

lemma drains_cons : Drains f s (m :: rest) P ↔ ∃ s', f s m = some s' ∧ Drains f s' rest P := by
  unfold Drains
  simp only [List.foldlM_cons, Option.bind_eq_bind, Option.bind_eq_some_iff]
  constructor
  · rintro ⟨s'', ⟨s', hs, hfold⟩, hP⟩
    exact ⟨s', hs, s'', hfold, hP⟩
  · rintro ⟨s', hs, s'', hfold, hP⟩
    exact ⟨s'', ⟨s', hs, hfold⟩, hP⟩

/-- Messages are sent. -/
lemma Drains.append (h : Drains f s inbox P) (hrest : ∀ s', P s' → Drains f s' rest Q) :
    Drains f s (inbox ++ rest) Q := by
  obtain ⟨s', hs, hP⟩ := h
  obtain ⟨s'', hs', hQ⟩ := hrest s' hP
  refine ⟨s'', ?_, hQ⟩
  rw [List.foldlM_append, hs]
  exact hs'

/-- A message is read. -/
lemma Drains.deliver (h : Drains f s (m :: rest) P) (hs : f s m = some s') : Drains f s' rest P := by
  obtain ⟨s'', hs', h⟩ := drains_cons.mp h
  rw [hs, Option.some.injEq] at hs'
  exact hs' ▸ h

lemma drains_singleton : Drains f s [m] P ↔ ∃ s', f s m = some s' ∧ P s' := by
  simp only [drains_cons, drains_nil]

/-! ### Who is sent what -/

section Addressed

variable [DecidableEq α] {a b : α} {l : List α} {sends sends' : List (α × μ)}

/-- The messages for `a`, in the order they are sent in. -/
def addressed (sends : List (α × μ)) (a : α) : List μ :=
  (sends.filter fun e => e.1 = a).map Prod.snd

@[simp] lemma addressed_nil : addressed ([] : List (α × μ)) a = [] := rfl

@[simp] lemma addressed_append :
    addressed (sends ++ sends') a = addressed sends a ++ addressed sends' a := by
  simp [addressed]

lemma addressed_cons : addressed ((b, m) :: sends) a =
    if b = a then m :: addressed sends a else addressed sends a := by
  unfold addressed
  rw [List.filter_cons]
  split_ifs with h₁ h₂ h₂
  · rfl
  · exact absurd (by simpa using h₁) h₂
  · exact absurd (by simpa using h₂) h₁
  · rfl

/-- A broadcast reaches everyone once. -/
lemma addressed_broadcast (hl : l.Nodup) (m : μ) :
    addressed (l.map fun b => (b, m)) a = if a ∈ l then [m] else [] := by
  induction l with
  | nil => rfl
  | cons b l ih =>
    rw [List.nodup_cons] at hl
    rw [List.map_cons, addressed_cons, ih hl.2]
    by_cases hb : b = a
    · subst hb
      simp [hl.1]
    · simp [hb, Ne.symm hb]

end Addressed

/-! ### The list that everyone keeps -/

/-- Taking out a member of a list without repetitions takes its image out of the images. -/
lemma map_erase_of_nodup {β : Type*} [BEq α] [LawfulBEq α] [BEq β] [LawfulBEq β] {g : α → β} {a : α}
    {l : List α} (hl : (l.map g).Nodup) (ha : a ∈ l) : (l.map g).erase (g a) = (l.erase a).map g := by
  classical
  induction l with
  | nil => rfl
  | cons b l ih =>
    rw [List.map_cons, List.nodup_cons] at hl
    rw [List.map_cons]
    by_cases hb : b = a
    · subst hb
      rw [List.erase_cons_head, List.erase_cons_head]
    · have ha' : a ∈ l := (List.mem_cons.mp ha).resolve_left (Ne.symm hb)
      have hg : g b ≠ g a := fun h => hl.1 (h ▸ List.mem_map_of_mem ha')
      rw [List.erase_cons_tail (by simpa using hg), List.erase_cons_tail (by simpa using hb),
        List.map_cons, ih hl.2 ha']

/-- A partial function that is defined on all members of a list. -/
lemma mapM_eq_some_map {β : Type*} {g : α → Option β} {g' : α → β} {l : List α}
    (h : ∀ a ∈ l, g a = some (g' a)) : l.mapM g = some (l.map g') := by
  induction l with
  | nil => rfl
  | cons a l ih =>
    have hrest := ih fun b hb => h b (List.mem_cons_of_mem a hb)
    rw [List.mapM_cons, h a List.mem_cons_self, hrest]
    rfl

/-- The results of a loop that does not fail. -/
lemma map_eq_of_mapM {β : Type*} {g : α → Option β} {l : List α} {l' : List β} (h : l.mapM g = some l') :
    l.map g = l'.map some := by
  induction l generalizing l' with
  | nil =>
    cases h
    rfl
  | cons a l ih =>
    simp only [List.mapM_cons, Option.bind_eq_bind, Option.bind_eq_some_iff, Option.pure_def,
      Option.some.injEq] at h
    obtain ⟨b, hb, l₁, hl₁, rfl⟩ := h
    rw [List.map_cons, List.map_cons, hb, ih hl₁]

end DistCache.Lib
