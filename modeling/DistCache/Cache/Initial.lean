import Mathlib.Algebra.Ring.Parity
import DistCache.Cache.CacheList
import DistCache.Master.State

/-!
The first message of a primary, for every text that can come.

`initial` counts the fields and forces the last one to be a port, so it accepts a message by the number of
its separators alone.
-/

namespace DistCache

/-- The message with the addresses of all primaries. -/
def allcache (addrs : List Str) : Str := (addrs.flatMap fun a => sharp :: a).drop 1

/-- It is what the master sends first when a primary joins. -/
lemma Master.sends_of_joinPrimary {m : Master} {fd : ℤ} {out : Out} (h : m.joinPrimary fd = some out) :
    ∃ fd' addrs rest,
      (out.master.fdNode.mapM fun fdi => (out.master.cachesList.lookup fdi).map FdMap.ipCache) = some addrs ∧
        out.sends = (fd', allcache addrs) :: rest := by
  simp only [joinPrimary, Option.bind_eq_bind, Option.bind_eq_some_iff, Option.pure_def,
    Option.some.injEq] at h
  obtain ⟨m', -, fd', -, e, -, addrs, haddrs, rfl⟩ := h
  exact ⟨fd', addrs, _, haddrs, rfl⟩

namespace Cache

/-- How many addresses and ports the loop of `initial` reads. -/
lemma length_unpack (s tmp : Str) (count : ℕ) (ip port : List Str) :
    (unpack s tmp count ip port).1.length = ip.length + (s.count sharp + 1 - count % 2) / 2 ∧
      (unpack s tmp count ip port).2.length = port.length + 1 + (s.count sharp + count % 2) / 2 := by
  induction s generalizing tmp count ip port with
  | nil =>
    rw [unpack, List.count_nil]
    dsimp only
    rw [List.length_append, List.length_singleton]
    omega
  | cons single rest ih =>
    rw [unpack]
    split_ifs with hsharp hcount
    · rw [List.count_cons_of_ne hsharp]
      exact ih _ _ _ _
    · rw [not_not] at hsharp
      obtain ⟨hip, hport⟩ := ih [] (count + 1) (ip ++ [tmp]) port
      rw [hip, hport, hsharp, List.count_cons_self, List.length_append, List.length_singleton]
      omega
    · rw [not_not] at hsharp
      obtain ⟨hip, hport⟩ := ih [] (count + 1) ip (port ++ [tmp])
      rw [hip, hport, hsharp, List.count_cons_self, List.length_append, List.length_singleton]
      omega

lemma length_unpack_eq_iff (s : Str) :
    (unpack s [] 0 [] []).1.length = (unpack s [] 0 [] []).2.length ↔ Odd (s.count sharp) := by
  obtain ⟨hip, hport⟩ := length_unpack s [] 0 [] []
  rw [hip, hport, Nat.odd_iff, List.length_nil]
  omega

/-- The two ways that `initial` ends. -/
lemma initial_eq (c : Cache) (message : Str) :
    c.initial message =
      if message ≠ [] ∧ Odd (message.count sharp) then
        { c with
          cacheList := c.cacheList ++ (unpack message [] 0 [] []).1.zip (unpack message [] 0 [] []).2
          isInitialed := successInit }
      else { c with isInitialed := errorInit } := by
  unfold initial
  dsimp only
  by_cases hnil : message = []
  · rw [if_pos hnil, if_neg fun h => h.1 hnil]
  · rw [if_neg hnil]
    by_cases hodd : Odd (message.count sharp)
    · have heq := (length_unpack_eq_iff message).mpr hodd
      have hok : message ≠ [] ∧ Odd (message.count sharp) := ⟨hnil, hodd⟩
      rw [if_neg (not_not_intro heq), if_pos hok]
    · have hne := mt (length_unpack_eq_iff message).mp hodd
      have hno : ¬(message ≠ [] ∧ Odd (message.count sharp)) := fun h => hodd h.2
      rw [if_pos hne, if_neg hno]

/-- **The first message.**  One that is not empty is accepted exactly when the number of its separators is
odd.  The one that the master makes of the addresses of all primaries is, and they are appended to the list
in their order.  One that is not accepted is an error, and leaves the list alone. -/
theorem initial_accepts (c : Cache) :
    (∀ message ≠ [], (c.initial message).isInitialed = successInit ↔ Odd (message.count sharp)) ∧
    (∀ l : List (Str × Str), l ≠ [] → (∀ x ∈ l, sharp ∉ x.1 ∧ sharp ∉ x.2) →
      (c.initial (allcache (l.map joinAddr))).cacheList = c.cacheList ++ l ∧
        (c.initial (allcache (l.map joinAddr))).isInitialed = successInit) ∧
    ∀ message, (c.initial message).isInitialed ≠ successInit →
      (c.initial message).isInitialed = errorInit ∧ (c.initial message).cacheList = c.cacheList := by
  refine ⟨fun message hne => ?_, fun l hne hl => ?_, fun message hreject => ?_⟩
  · rw [initial_eq]
    split_ifs with h
    · exact iff_of_true rfl h.2
    · exact iff_of_false (show errorInit ≠ successInit by decide) fun hodd => h ⟨hne, hodd⟩
  · rw [allcache, initial_addrs c hne hl]
    exact ⟨rfl, rfl⟩
  · rw [initial_eq] at hreject ⊢
    split_ifs at hreject ⊢ with h
    · exact absurd rfl hreject
    · exact ⟨rfl, rfl⟩

/-- A new cache on the message of two primaries, the first with an empty port, and on a message with a field
too many. -/
theorem initial_accepts_two :
    ((Cache.new 10 (lit "P") [] [] []).initial (lit "10.0.0.1##10.0.0.2#9002")).cacheList =
        [(lit "10.0.0.1", []), (lit "10.0.0.2", lit "9002")] ∧
      ((Cache.new 10 (lit "P") [] [] []).initial (lit "10.0.0.1#9001#")).isInitialed = errorInit := by
  obtain ⟨haccept, hlist, hreject⟩ := initial_accepts (Cache.new 10 (lit "P") [] [] [])
  have heven : ¬Odd ((lit "10.0.0.1#9001#").count sharp) := by decide +kernel
  have hno := mt (haccept (lit "10.0.0.1#9001#") (by decide +kernel)).mp heven
  exact ⟨(hlist [(lit "10.0.0.1", []), (lit "10.0.0.2", lit "9002")] (by decide) (by decide +kernel)).1,
    (hreject _ hno).1⟩

end Cache

end DistCache
