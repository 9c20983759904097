import DistCache.ConsistentHash
import DistCache.Lib.Words

/-!
The hash of texts that differ in one byte.

Every turn of the loop of `murmur3_32` is injective in the state and in the byte, and each of the five lines
after the loop is injective in the state.  So two texts of one length that differ in one place have
different hashes, and labels that differ in one digit have different points.
-/

namespace DistCache

open Lib Function

/-- The texts have one length, and differ at the index `i` only. -/
structure DifferAt (s t : Str) (i : ℕ) : Prop where
  length : s.length = t.length
  differ : s[i]? ≠ t[i]?
  same : ∀ j, j ≠ i → s[j]? = t[j]?

variable {s t : Str} {i : ℕ}

/-- What is in front of the place, and what is behind it. -/
lemma DifferAt.split (h : DifferAt s t i) :
    ∃ u c c' v, c ≠ c' ∧ s = u ++ c :: v ∧ t = u ++ c' :: v := by
  have hi : i < s.length := by
    by_contra hge
    apply h.differ
    rw [List.getElem?_eq_none (by omega), List.getElem?_eq_none (by have := h.length; omega)]
  have hi' : i < t.length := h.length ▸ hi
  have hleft : t.take i = s.take i := by
    apply List.ext_getElem?
    intro j
    by_cases hj : j < i
    · rw [List.getElem?_take_of_lt hj, List.getElem?_take_of_lt hj, h.same j hj.ne]
    · rw [List.getElem?_take, List.getElem?_take, if_neg hj, if_neg hj]
  have hright : t.drop (i + 1) = s.drop (i + 1) := by
    apply List.ext_getElem?
    intro j
    rw [List.getElem?_drop, List.getElem?_drop, h.same _ (by omega)]
  refine ⟨s.take i, s[i], t[i], s.drop (i + 1), ?_, ?_, ?_⟩
  · intro heq
    apply h.differ
    rw [List.getElem?_eq_getElem hi, List.getElem?_eq_getElem hi', heq]
  · rw [List.getElem_cons_drop, List.take_append_drop]
  · rw [← hleft, ← hright, List.getElem_cons_drop, List.take_append_drop]

lemma differAt_append {c c' : UInt8} (hne : c ≠ c') (u v : Str) :
    DifferAt (u ++ c :: v) (u ++ c' :: v) u.length := by
  refine ⟨by simp, by simpa using hne, fun j hj => ?_⟩
  rcases Nat.lt_or_gt_of_ne hj with hlt | hgt
  · rw [List.getElem?_append_left hlt, List.getElem?_append_left hlt]
  · obtain ⟨n, hn⟩ : ∃ n, j - u.length = n + 1 := ⟨j - u.length - 1, by omega⟩
    rw [List.getElem?_append_right hgt.le, List.getElem?_append_right hgt.le, hn, List.getElem?_cons_succ,
      List.getElem?_cons_succ]

/-! ### The loop -/

lemma signExtend_injective : Injective signExtend := by
  intro c d h
  have hbyte (c : UInt8) : (signExtend c).toUInt8 = c := by
    have hzero : (0xFFFFFF00 : UInt8) = 0 := rfl
    unfold signExtend
    split_ifs
    · simp
    · simp [hzero]
  rw [← hbyte c, h, hbyte d]

/-- A turn of the loop takes different states to different states. -/
lemma murmurStep_injective (c : UInt8) : Injective fun hash => murmurStep hash c := by
  intro a b h
  have hmul := congrArg UInt32.toBitVec h
  have hxor : (a ^^^ signExtend c).toBitVec = (b ^^^ signExtend c).toBitVec :=
    mul_odd_injective 8388809 hmul
  exact (UInt32.xor_left_inj _).mp (UInt32.toBitVec_inj.mp hxor)

/-- And different bytes. -/
lemma murmurStep_byte_injective (hash : UInt32) : Injective (murmurStep hash) := by
  intro c d h
  have hmul := congrArg UInt32.toBitVec h
  have hxor : (hash ^^^ signExtend c).toBitVec = (hash ^^^ signExtend d).toBitVec :=
    mul_odd_injective 8388809 hmul
  exact signExtend_injective ((UInt32.xor_right_inj _).mp (UInt32.toBitVec_inj.mp hxor))

/-! ### After the loop -/

lemma add_shift_injective {k : UInt32} (hk : 0 < (k.toBitVec % 32).toNat) :
    Injective fun hash : UInt32 => hash + hash <<< k := by
  intro a b h
  have hbits := congrArg UInt32.toBitVec h
  exact UInt32.toBitVec_inj.mp (add_shiftLeft_injective hk hbits)

lemma xor_shift_injective {k : UInt32} (hk : 0 < (k.toBitVec % 32).toNat) :
    Injective fun hash : UInt32 => hash ^^^ hash >>> k := by
  intro a b h
  have hbits := congrArg UInt32.toBitVec h
  exact UInt32.toBitVec_inj.mp (xor_ushiftRight_injective hk hbits)

/-- The five lines after the loop, one after the other. -/
lemma murmurFinish_injective : Injective murmurFinish := by
  have h₁ : Injective fun hash : UInt32 => hash + hash <<< 13 := add_shift_injective (by decide)
  have h₂ : Injective fun hash : UInt32 => hash ^^^ hash >>> 7 := xor_shift_injective (by decide)
  have h₃ : Injective fun hash : UInt32 => hash + hash <<< 3 := add_shift_injective (by decide)
  have h₄ : Injective fun hash : UInt32 => hash ^^^ hash >>> 17 := xor_shift_injective (by decide)
  have h₅ : Injective fun hash : UInt32 => hash + hash <<< 5 := add_shift_injective (by decide)
  exact h₅.comp (h₄.comp (h₃.comp (h₂.comp h₁)))

/-- **One byte.**  Texts that differ in one place have different hashes, and labels that do have different
points. -/
theorem murmur3_32_differ :
    (∀ s t i, DifferAt s t i → murmur3_32 s ≠ murmur3_32 t) ∧
    ∀ (shard shard' : ℤ) (node node' i : ℕ), DifferAt (label shard node) (label shard' node') i →
      point shard node ≠ point shard' node' := by
  have hne (s t : Str) (i : ℕ) (h : DifferAt s t i) : murmur3_32 s ≠ murmur3_32 t := by
    obtain ⟨u, c, c', v, hc, rfl, rfl⟩ := h.split
    intro heq
    exact foldl_ne murmurStep_injective murmurStep_byte_injective _ u v hc (murmurFinish_injective heq)
  exact ⟨hne, fun shard shard' node node' i h => hne _ _ i h⟩

/-- The first nodes of two shards. -/
theorem murmur3_32_differ_shard : DifferAt (label 1 0) (label 2 0) 6 ∧ point 1 0 ≠ point 2 0 := by
  have hdigit : (49 : UInt8) ≠ 50 := by decide
  have hdiffer : DifferAt (label 1 0) (label 2 0) 6 := differAt_append hdigit (lit "SHARD-") (lit "NODE-0")
  exact ⟨hdiffer, murmur3_32_differ.2 1 2 0 0 6 hdiffer⟩

end DistCache
