/-
  XOR OVER A RANGE: the fold of a checksum that is the XOR of words.

  `xorFold f n` is the XOR of `f 0, …, f (n - 1)`, from the left as a loop computes it.

  1. **Steps** — one more word (`xorFold_succ`), and the same words (`xorFold_congr`).
  2. **One change** — a change of one word goes through to the result unchanged
     (`xorFold_change`, by induction on the range, the changed word being the last one or not).
-/
import Mathlib.Data.LawfulXor.Basic

namespace Rust

variable {α : Type} [XorOp α] [Zero α]

/-- The XOR of the words with the numbers below `n`. -/
def xorFold (f : Nat → α) (n : Nat) : α := (List.range n).foldl (fun c i => c ^^^ f i) 0

@[simp] theorem xorFold_zero (f : Nat → α) : xorFold f 0 = 0 := rfl

@[simp] theorem xorFold_succ (f : Nat → α) (n : Nat) :
    xorFold f (n + 1) = xorFold f n ^^^ f n := by
  show (List.range (n + 1)).foldl _ 0 = _
  rw [List.range_succ, List.foldl_append]
  rfl

/-- The fold looks at the first `n` words only. -/
theorem xorFold_congr {f g : Nat → α} {n : Nat} (h : ∀ i, i < n → f i = g i) :
    xorFold f n = xorFold g n := by
  induction n with
  | zero => rfl
  | succ n ih =>
    rw [xorFold_succ, xorFold_succ, ih (fun i hi => h i (Nat.lt_succ_of_lt hi)),
      h n (Nat.lt_succ_self n)]

/-- **One changed word** changes the result by the same bits. -/
theorem xorFold_change [LawfulXor α] {f g : Nat → α} {n k : Nat} (hk : k < n)
    (h : ∀ i, i < n → i ≠ k → f i = g i) :
    xorFold f n ^^^ xorFold g n = f k ^^^ g k := by
  induction n with
  | zero => exact absurd hk (Nat.not_lt_zero k)
  | succ n ih =>
    rw [xorFold_succ, xorFold_succ]
    rcases Nat.lt_succ_iff_lt_or_eq.mp hk with hlt | rfl
    · -- the last word is the same, and cancels out
      have hrest := ih hlt fun i hi => h i (Nat.lt_succ_of_lt hi)
      rw [h n (Nat.lt_succ_self n) (Nat.ne_of_gt hlt), ← hrest, xor_assoc,
        LawfulXor.xor_comm (g n), xor_cancel_right]
    · have hrest : xorFold f k = xorFold g k :=
        xorFold_congr fun i hi => h i (Nat.lt_succ_of_lt hi) (Nat.ne_of_lt hi)
      rw [hrest, LawfulXor.xor_comm (xorFold g k) (f k), xor_assoc, xor_cancel_left]

end Rust
