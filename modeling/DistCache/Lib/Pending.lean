import Mathlib.Data.List.Nodup
import Mathlib.Logic.Function.Basic

/-!
Lists of the requests that are pending with each peer, and a log that says what they should be.

A request puts its key at the end of the list of its peer, unless the key is there, a reply takes it off, and
a clearing empties the list.  `Exact log f` says that the lists `f` have no duplicates and hold the keys whose
latest entry in the log is a request; every deed keeps it (`Exact.apply`).
-/

namespace DistCache.Lib

/-- What happens to the pending requests. -/
inductive Deed (α κ : Type) where
  | send (peer : α) (key : κ)
  | reply (peer : α) (key : κ)
  | clear (peer : α)
  deriving DecidableEq

variable {α κ : Type} [DecidableEq α] [BEq κ] {log ds : List (Deed α κ)} {f : α → List κ}
  {a : α} {k : κ} {d : Deed α κ}

namespace Deed

/-- The deed has to do with the key and the peer. -/
def about (a : α) (k : κ) : Deed α κ → Bool
  | .send peer key => peer = a && key == k
  | .reply peer key => peer = a && key == k
  | .clear peer => peer = a

/-- The lists after the deed. -/
def apply (d : Deed α κ) (f : α → List κ) : α → List κ :=
  match d with
  | .send peer key => Function.update f peer (if (f peer).contains key then f peer else f peer ++ [key])
  | .reply peer key => Function.update f peer ((f peer).erase key)
  | .clear peer => Function.update f peer []

end Deed

/-- The lists have the keys whose latest deed is a request, once each. -/
def Exact (log : List (Deed α κ)) (f : α → List κ) : Prop :=
  ∀ a, (f a).Nodup ∧ ∀ k, k ∈ f a ↔ log.find? (Deed.about a k) = some (.send a k)

lemma exact_nil : Exact ([] : List (Deed α κ)) fun _ => [] := fun _ =>
  ⟨List.nodup_nil, fun _ => iff_of_false List.not_mem_nil nofun⟩

/-- A deed about another key leaves the latest one. -/
lemma find?_cons_of_other (h : d.about a k = false) :
    (d :: log).find? (Deed.about a k) = log.find? (Deed.about a k) := List.find?_cons_of_neg (by simp [h])

/-- A deed about the key is the latest one. -/
lemma find?_cons_of_about (h : d.about a k = true) : (d :: log).find? (Deed.about a k) = some d :=
  List.find?_cons_of_pos h

/-- A deed that replaces the list of one peer. -/
lemma Exact.update {peer : α} {l : List κ} (h : Exact log f) (hother : ∀ a k, a ≠ peer → d.about a k = false)
    (hnodup : l.Nodup)
    (hl : ∀ k, k ∈ l ↔ (d :: log).find? (Deed.about peer k) = some (.send peer k)) :
    Exact (d :: log) (Function.update f peer l) := by
  intro a
  by_cases ha : a = peer
  · subst ha
    rw [Function.update_self]
    exact ⟨hnodup, hl⟩
  · rw [Function.update_of_ne ha]
    refine ⟨(h a).1, fun k => ?_⟩
    rw [find?_cons_of_other (hother a k ha)]
    exact (h a).2 k

/-- The lists after some of them are cleared. -/
lemma foldr_clear (peers : List α) (f : α → List κ) (a : α) :
    (a ∈ peers → (peers.map Deed.clear).foldr Deed.apply f a = []) ∧
    (a ∉ peers → (peers.map Deed.clear).foldr Deed.apply f a = f a) := by
  induction peers with
  | nil => exact ⟨fun h => absurd h List.not_mem_nil, fun _ => rfl⟩
  | cons peer peers ih =>
    rw [List.map_cons, List.foldr_cons]
    show (_ → Function.update ((peers.map Deed.clear).foldr Deed.apply f) peer [] a = []) ∧
      (_ → Function.update ((peers.map Deed.clear).foldr Deed.apply f) peer [] a = f a)
    by_cases ha : a = peer
    · rw [ha, Function.update_self]
      exact ⟨fun _ => rfl, fun h => absurd List.mem_cons_self h⟩
    · rw [Function.update_of_ne ha, List.mem_cons, or_iff_right ha]
      exact ih

variable [LawfulBEq κ]

/-- **A deed.**  One case for each kind. -/
theorem Exact.apply (h : Exact log f) (d : Deed α κ) : Exact (d :: log) (d.apply f) := by
  cases d with
  | send peer key =>
    obtain ⟨hnodup, hmem⟩ := h peer
    refine h.update (fun a k ha => by simp [Deed.about, Ne.symm ha]) ?_ fun k => ?_
    · split_ifs with hkey
      · exact hnodup
      · rw [List.contains_iff_mem] at hkey
        exact hnodup.append (List.nodup_singleton key) (List.disjoint_singleton.mpr hkey)
    · by_cases hk : k = key
      · subst hk
        rw [find?_cons_of_about (by simp [Deed.about])]
        refine iff_of_true ?_ rfl
        split_ifs with hkey
        · exact List.contains_iff_mem.mp hkey
        · exact List.mem_append_right _ (List.mem_singleton_self k)
      · rw [find?_cons_of_other (by simp [Deed.about, Ne.symm hk]), ← hmem k]
        split_ifs
        · rfl
        · simp [hk]
  | reply peer key =>
    obtain ⟨hnodup, hmem⟩ := h peer
    refine h.update (fun a k ha => by simp [Deed.about, Ne.symm ha]) (hnodup.erase key) fun k => ?_
    rw [hnodup.mem_erase_iff]
    by_cases hk : k = key
    · subst hk
      rw [find?_cons_of_about (by simp [Deed.about])]
      exact iff_of_false (fun h => h.1 rfl) nofun
    · rw [find?_cons_of_other (by simp [Deed.about, Ne.symm hk]), ← hmem k]
      exact and_iff_right hk
  | clear peer =>
    refine h.update (fun a k ha => by simp [Deed.about, Ne.symm ha]) List.nodup_nil fun k => ?_
    rw [find?_cons_of_about (by simp [Deed.about])]
    exact iff_of_false List.not_mem_nil nofun

/-- Some deeds, the latest first. -/
lemma Exact.foldr (h : Exact log f) (ds : List (Deed α κ)) :
    Exact (ds ++ log) (ds.foldr Deed.apply f) := by
  induction ds with
  | nil => exact h
  | cons d ds ih => exact ih.apply d

end DistCache.Lib
