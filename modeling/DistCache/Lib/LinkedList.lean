import Mathlib.Data.List.Chain
import Mathlib.Data.List.Nodup
import Mathlib.Logic.Function.Basic

/-!
Doubly linked lists, as two partial successor functions on the nodes.

`Linked next prev l` says that the nodes of `l` are different and that each of them is linked to the one
after it in both directions.  The two splices that such lists are edited with, `unlink` and `linkAfter`,
are assignments to the two functions; what the list is afterwards is said once here.
-/

namespace DistCache.Lib

variable {P : Type} {next prev next' prev' : P → Option P} {a b x : P} {l l₁ l₂ : List P}

/-- `b` comes after `a`, and `a` before `b`. -/
def Link (next prev : P → Option P) (a b : P) : Prop := next a = some b ∧ prev b = some a

/-- The nodes of `l` are different and linked one to the next. -/
structure Linked (next prev : P → Option P) (l : List P) : Prop where
  nodup : l.Nodup
  chain : l.IsChain (Link next prev)

/-- From `a` the function leads through the nodes of the list to `b`. -/
def Walk (f : P → Option P) : P → List P → P → Prop
  | a, [], b => f a = some b
  | a, x :: l, b => f a = some x ∧ Walk f x l b

/-! ### Walking through a list -/

lemma walk_of_chain (h : (a :: l ++ [b]).IsChain (Link next prev)) : Walk next a l b := by
  induction l generalizing a with
  | nil =>
    have hlink : Link next prev a b := by simpa using h
    exact hlink.1
  | cons x l ih =>
    rw [List.cons_append, List.cons_append, List.isChain_cons_cons] at h
    exact ⟨h.1.1, ih h.2⟩

/-- A list that is linked can be walked through from its first node to its last one. -/
lemma Linked.walk_next (h : Linked next prev (a :: l ++ [b])) : Walk next a l b := walk_of_chain h.chain

lemma Linked.reverse (h : Linked next prev l) : Linked prev next l.reverse where
  nodup := List.nodup_reverse.mpr h.nodup
  chain := List.isChain_reverse.mpr (h.chain.imp fun _ _ hab => ⟨hab.2, hab.1⟩)

/-- And back, through the same nodes in the opposite order. -/
lemma Linked.walk_prev (h : Linked next prev (a :: l ++ [b])) : Walk prev b l.reverse a := by
  have hback : Linked prev next (b :: l.reverse ++ [a]) := by simpa using h.reverse
  exact hback.walk_next

/-! ### Splices -/

/-- Only the pointers of the nodes of the list matter. -/
lemma Linked.congr (h : Linked next prev l) (hnext : ∀ c ∈ l, next' c = next c)
    (hprev : ∀ c ∈ l, prev' c = prev c) : Linked next' prev' l where
  nodup := h.nodup
  chain := h.chain.imp_of_mem_imp fun c d hc hd hlink =>
    ⟨(hnext c hc).trans hlink.1, (hprev d hd).trans hlink.2⟩

/-- The links before `a` do not depend on what comes after `a`. -/
lemma chain_before (hnext : ∀ c ∈ l, next' c = next c) (hprev : ∀ c ∈ l ++ [a], prev' c = prev c)
    (h : (l ++ [a]).IsChain (Link next prev)) : (l ++ [a]).IsChain (Link next' prev') := by
  induction l with
  | nil => exact List.isChain_singleton a
  | cons c l ih =>
    rw [List.cons_append, List.isChain_cons] at h ⊢
    refine ⟨fun y hy => ?_, ih (fun d hd => hnext d (List.mem_cons_of_mem _ hd))
      (fun d hd => hprev d (List.mem_cons_of_mem _ hd)) h.2⟩
    have hlink := h.1 y hy
    have hmem : y ∈ l ++ [a] := List.mem_of_mem_head? hy
    exact ⟨(hnext c List.mem_cons_self).trans hlink.1,
      (hprev y (List.mem_cons_of_mem _ hmem)).trans hlink.2⟩

/-- The links after `b` do not depend on what comes before `b`. -/
lemma chain_after (hnext : ∀ c ∈ b :: l, next' c = next c) (hprev : ∀ c ∈ l, prev' c = prev c)
    (h : (b :: l).IsChain (Link next prev)) : (b :: l).IsChain (Link next' prev') := by
  refine h.imp_of_mem_tail_imp fun c d hc hd hlink => ?_
  exact ⟨(hnext c hc).trans hlink.1, (hprev d hd).trans hlink.2⟩

section Splice

variable [DecidableEq P]

/-- The node `x` is taken out: the nodes around it are linked to each other. -/
theorem Linked.unlink (h : Linked next prev (l₁ ++ a :: x :: b :: l₂)) :
    Linked (Function.update next a (some b)) (Function.update prev b (some a))
      (l₁ ++ a :: b :: l₂) := by
  have hsub : (l₁ ++ a :: b :: l₂).Sublist (l₁ ++ a :: x :: b :: l₂) :=
    (List.Sublist.cons_cons a (List.sublist_cons_self x _)).append_left l₁
  have hnodup := h.nodup.sublist hsub
  obtain ⟨hleft, -, hright⟩ := List.isChain_append_cons_cons.mp h.chain
  refine ⟨hnodup, List.isChain_append_cons_cons.mpr ⟨?_, ?_, ?_⟩⟩
  · have hdisj := List.nodup_append.mp hnodup
    refine chain_before (fun c hc => ?_) (fun c hc => ?_) hleft
    · exact Function.update_of_ne (hdisj.2.2 c hc a List.mem_cons_self) _ _
    · refine Function.update_of_ne ?_ _ _
      rintro rfl
      rcases List.mem_append.mp hc with hc | hc
      · exact hdisj.2.2 c hc c (by simp) rfl
      · exact (List.nodup_cons.mp hdisj.2.1).1 (by simp [List.mem_singleton.mp hc])
  · exact ⟨Function.update_self .., Function.update_self ..⟩
  · obtain ⟨-, hright⟩ := List.isChain_cons_cons.mp hright
    have hab := (List.nodup_append.mp hnodup).2.1
    obtain ⟨ha, hbl⟩ := List.nodup_cons.mp hab
    have hb := (List.nodup_cons.mp hbl).1
    refine chain_after (fun c hc => ?_) (fun c hc => ?_) hright
    · exact Function.update_of_ne (ne_of_mem_of_not_mem hc ha) _ _
    · exact Function.update_of_ne (ne_of_mem_of_not_mem hc hb) _ _

/-- A node `x` from outside is put between `a` and `b`. -/
theorem Linked.linkAfter (h : Linked next prev (a :: b :: l)) (hx : x ∉ a :: b :: l) :
    Linked (Function.update (Function.update next x (some b)) a (some x))
      (Function.update (Function.update prev x (some a)) b (some x)) (a :: x :: b :: l) := by
  obtain ⟨ha, hbl⟩ := List.nodup_cons.mp h.nodup
  rw [List.mem_cons, not_or] at hx
  obtain ⟨hxa, hxbl⟩ := hx
  have hxb : x ≠ b := fun heq => hxbl (heq ▸ List.mem_cons_self)
  refine ⟨?_, ?_⟩
  · rw [List.nodup_cons, List.nodup_cons]
    exact ⟨by simpa [Ne.symm hxa] using ha, hxbl, hbl⟩
  · rw [List.isChain_cons_cons, List.isChain_cons_cons]
    obtain ⟨-, hright⟩ := List.isChain_cons_cons.mp h.chain
    refine ⟨⟨Function.update_self .., ?_⟩, ⟨?_, Function.update_self ..⟩, ?_⟩
    · rw [Function.update_of_ne hxb, Function.update_self]
    · rw [Function.update_of_ne hxa, Function.update_self]
    · refine chain_after (fun c hc => ?_) (fun c hc => ?_) hright
      · have hca := ne_of_mem_of_not_mem hc ha
        have hcx := ne_of_mem_of_not_mem hc hxbl
        rw [Function.update_of_ne hca, Function.update_of_ne hcx]
      · have hcb := ne_of_mem_of_not_mem hc (List.nodup_cons.mp hbl).1
        have hcx := ne_of_mem_of_not_mem (List.mem_cons_of_mem b hc) hxbl
        rw [Function.update_of_ne hcb, Function.update_of_ne hcx]

end Splice

end DistCache.Lib
