/-
  THE CHECKSUM OF THE BASE BLOCK: which damaged headers it finds.

  The checksum is the XOR of 127 words, and two of its results are replaced: `0` by `1` and
  `0xFFFFFFFF` by `0xFFFFFFFE`.  A change of one word changes the XOR, so it is found, unless the
  replacement maps the old and the new result to the same value; this happens to two pairs of
  results, and both pairs differ in the lowest bit only.

  1. **Replacement** — where two results are stored alike (`storedSum_eq_iff`).
  2. **One word** — the XOR changes by the bits by which the word does, and the check fails or not
     accordingly (`validateChecksum_one_word`).
-/
import Winreg.Base.XorFold
import Winreg.Format.Header
import Mathlib.Data.UInt

namespace Winreg

open Rust

namespace BaseBlock

/-! ## Replacement -/

/-- The XOR of the 127 words before the stored checksum. -/
def xorWords (headerBytes : Bytes) : UInt32 := xorFold (fun i => u32At headerBytes (i * 4)) 127

/-- What is stored for a result of the XOR. -/
def storedSum (x : UInt32) : UInt32 :=
  if (if x = 0 then 1 else x) = 0xFFFFFFFF then 0xFFFFFFFE else if x = 0 then 1 else x

/-- The checksum is the XOR of the words, with two sums replaced. -/
theorem computeChecksum_eq (headerBytes : Bytes) :
    computeChecksum headerBytes = storedSum (xorWords headerBytes) := rfl

/-- The four results at which two share what is stored. -/
def Shared (x : UInt32) : Prop := x = 0 ∨ x = 1 ∨ x = 0xFFFFFFFE ∨ x = 0xFFFFFFFF

/-- Any other sum is stored as it is. -/
theorem storedSum_of_not_shared {x : UInt32} (h : ¬ Shared x) : storedSum x = x := by
  obtain ⟨h0, _, _, hF⟩ : x ≠ 0 ∧ x ≠ 1 ∧ x ≠ 0xFFFFFFFE ∧ x ≠ 0xFFFFFFFF := by
    simpa only [Shared, not_or] using h
  unfold storedSum
  rw [if_neg h0, if_neg hF]

/-- A shared result stays among the four, and so does its neighbour. -/
theorem storedSum_of_shared {x : UInt32} (h : Shared x) :
    Shared (storedSum x) ∧ storedSum (x ^^^ 1) = storedSum x ∧
      ∀ y, Shared y → storedSum y = storedSum x → y = x ∨ y = x ^^^ 1 := by
  rcases h with rfl | rfl | rfl | rfl
  all_goals
    refine ⟨by unfold Shared; decide, by decide, ?_⟩
    rintro y (rfl | rfl | rfl | rfl) <;> decide

/-- **Two different results** are stored alike exactly when they differ in the lowest bit only and
    are among the four. -/
theorem storedSum_eq_iff {x y : UInt32} (hne : x ≠ y) :
    storedSum x = storedSum y ↔ x ^^^ y = 1 ∧ Shared x := by
  constructor
  · intro heq
    by_cases hx : Shared x
    · obtain ⟨hstored, _, honly⟩ := storedSum_of_shared hx
      have hy : Shared y := by
        by_contra hy
        rw [storedSum_of_not_shared hy] at heq
        exact hy (heq ▸ hstored)
      rcases honly y hy heq.symm with rfl | rfl
      · exact absurd rfl hne
      · exact ⟨xor_cancel_left x 1, hx⟩
    · rw [storedSum_of_not_shared hx] at heq
      by_cases hy : Shared y
      · exact absurd (heq ▸ (storedSum_of_shared hy).1) hx
      · rw [storedSum_of_not_shared hy] at heq
        exact absurd heq hne
  · rintro ⟨hbit, hx⟩
    have hy : y = x ^^^ 1 := by rw [← hbit, xor_cancel_left]
    rw [hy]
    exact (storedSum_of_shared hx).2.1.symm

/-! ## One word -/

/-- Two buffers differ in word `i` of the 127 words, and in no byte outside of it. -/
structure DifferInWord (h h' : Bytes) (i : Nat) : Prop where
  word_lt : i < 127
  differ : u32At h (i * 4) ≠ u32At h' (i * 4)
  same : ∀ j, j < i * 4 ∨ i * 4 + 4 ≤ j → h[j]? = h'[j]?

namespace DifferInWord

variable {h h' : Bytes} {i : Nat}

/-- A word at another place is the same. -/
theorem u32At_eq (hd : DifferInWord h h' i) {off : Nat} (hoff : off + 4 ≤ i * 4 ∨ i * 4 + 4 ≤ off) :
    u32At h off = u32At h' off := by
  refine u32At_congr (bytesAt_congr fun j hlo hhi => hd.same j ?_)
  omega

/-- The stored checksum is at byte 511 of both or of none. -/
theorem length_iff (hd : DifferInWord h h' i) : h.length < 512 ↔ h'.length < 512 := by
  have hlast : h[511]? = h'[511]? := hd.same 511 (Or.inr (by have := hd.word_lt; omega))
  have hleft : h.length < 512 ↔ h[511]? = none := by
    rw [List.getElem?_eq_none_iff, Nat.lt_succ_iff]
  have hright : h'.length < 512 ↔ h'[511]? = none := by
    rw [List.getElem?_eq_none_iff, Nat.lt_succ_iff]
  rw [hleft, hright, hlast]

/-- The XOR changes by the bits by which the word does. -/
theorem xorWords_xor (hd : DifferInWord h h' i) :
    xorWords h ^^^ xorWords h' = u32At h (i * 4) ^^^ u32At h' (i * 4) :=
  xorFold_change hd.word_lt fun j _ hj => hd.u32At_eq (by omega)

end DifferInWord

/-- **A damaged word is found**: of a header that is valid, one that differs in a single word is
    not, unless the two words differ in the lowest bit only and the XOR of the words is one of the
    four at which the stored values are shared.  Two different sums are stored alike only where 0 is
    replaced by 1, or the greatest number by the one below it. -/
theorem validateChecksum_one_word {h h' : Bytes} {i : Nat} (hvalid : validateChecksum h = true)
    (hd : DifferInWord h h' i) :
    validateChecksum h' = true ↔ u32At h (i * 4) ^^^ u32At h' (i * 4) = 1 ∧
      (xorWords h = 0 ∨ xorWords h = 1 ∨ xorWords h = 0xFFFFFFFE ∨ xorWords h = 0xFFFFFFFF) := by
  have hstored : u32At h 0x1FC = u32At h' 0x1FC := hd.u32At_eq (by have := hd.word_lt; omega)
  have hne : xorWords h ≠ xorWords h' := by
    intro heq
    have hxor := hd.xorWords_xor
    rw [heq, LawfulXor.xor_self] at hxor
    exact hd.differ (UInt32.xor_eq_zero_iff.mp hxor.symm)
  unfold validateChecksum at hvalid ⊢
  by_cases hlen : h.length < 512
  · rw [if_pos hlen] at hvalid
    cases hvalid
  · rw [if_neg hlen, decide_eq_true_iff, computeChecksum_eq] at hvalid
    rw [if_neg (mt hd.length_iff.mpr hlen), decide_eq_true_iff, computeChecksum_eq, ← hstored,
      ← hvalid, eq_comm, storedSum_eq_iff hne, hd.xorWords_xor]
    rfl

/-- What follows the first word in a block of zeros that is sealed with `1`. -/
def sealedRest : Bytes := List.replicate 504 0 ++ [1, 0, 0, 0]

/-- A block of zeros, and the one with the word `1` in front: the change is not found. -/
theorem validateChecksum_one_word_zeros :
    validateChecksum ([1, 0, 0, 0] ++ sealedRest) = true ↔
      u32At ([0, 0, 0, 0] ++ sealedRest) (0 * 4) ^^^ u32At ([1, 0, 0, 0] ++ sealedRest) (0 * 4) = 1
      ∧ (xorWords ([0, 0, 0, 0] ++ sealedRest) = 0 ∨ xorWords ([0, 0, 0, 0] ++ sealedRest) = 1 ∨
        xorWords ([0, 0, 0, 0] ++ sealedRest) = 0xFFFFFFFE ∨
        xorWords ([0, 0, 0, 0] ++ sealedRest) = 0xFFFFFFFF) := by
  have hd : DifferInWord ([0, 0, 0, 0] ++ sealedRest) ([1, 0, 0, 0] ++ sealedRest) 0 := by
    refine ⟨by decide, by decide, ?_⟩
    intro j hj
    rw [List.getElem?_append_right (show 4 ≤ j by omega),
      List.getElem?_append_right (show 4 ≤ j by omega)]
    rfl
  exact validateChecksum_one_word (by decide +kernel) hd

end BaseBlock

end Winreg
