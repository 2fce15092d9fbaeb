import XarkCircuit.Lib.Instances
import Mathlib.Algebra.BigOperators.Intervals
import Mathlib.Algebra.Module.BigOperators
import Mathlib.Tactic.LinearCombination
import Mathlib.Tactic.Ring

/-!
Signed digits: a digit to the base `B` takes a carry in and hands one on.

* `sum_signed`: whatever the carries are, the digits stand for the number, but for the carry that
  goes in and the one that is left over.
* `sum_smul_signed`: the same for multiples of an element of a group; `horner` sums windows up.
-/

namespace SignedDigits

/-- Digit `k` of `s` to the base `B`, with the carries `o`. -/
def digit (B s : ℕ) (o : ℕ → ℤ) (k : ℕ) : ℤ := ((s / B ^ k % B : ℕ) : ℤ) + o k - B * o (k + 1)

/-- **Signed digits recombine.** -/
theorem sum_signed (B s : ℕ) (o : ℕ → ℤ) (n : ℕ) :
    ∑ k ∈ Finset.range n, digit B s o k * B ^ k
      = ((s % B ^ n : ℕ) : ℤ) + o 0 - o n * B ^ n := by
  induction n with
  | zero => simp [Nat.mod_one]
  | succ n ih =>
      have hmod : ((s % B ^ (n + 1) : ℕ) : ℤ)
          = ((s % B ^ n : ℕ) : ℤ) + (B : ℤ) ^ n * ((s / B ^ n % B : ℕ) : ℤ) := by
        rw [pow_succ, Nat.mod_mul]
        push_cast
        ring
      rw [Finset.sum_range_succ, ih, hmod, digit]
      ring

/-- Without a carry in and without one left over, the digits are those of the number. -/
lemma sum_eq {B s n : ℕ} {o : ℕ → ℤ} (h0 : o 0 = 0) (hn : o n = 0) (hs : s < B ^ n) :
    ∑ k ∈ Finset.range n, digit B s o k * B ^ k = s := by
  rw [sum_signed, h0, hn, Nat.mod_eq_of_lt hs]
  ring

variable {G : Type*} [AddCommGroup G]

/-- **Signed windows recombine** to a multiple. -/
theorem sum_smul_signed {B s n : ℕ} {o : ℕ → ℤ} (h0 : o 0 = 0) (hn : o n = 0) (hs : s < B ^ n)
    (P : G) : ∑ k ∈ Finset.range n, digit B s o k • B ^ k • P = s • P := by
  calc ∑ k ∈ Finset.range n, digit B s o k • B ^ k • P
      = ∑ k ∈ Finset.range n, (digit B s o k * B ^ k : ℤ) • P := by
        refine Finset.sum_congr rfl fun k _ => ?_
        rw [mul_smul, ← Nat.cast_pow, natCast_zsmul]
    _ = (s : ℤ) • P := by rw [← Finset.sum_smul, sum_eq h0 hn hs]
    _ = s • P := natCast_zsmul P s

/-! ### Windows of a group -/

/-- `c` doublings. -/
lemma iterate_double (c : ℕ) (P : G) : (fun P : G => P + P)^[c] P = 2 ^ c • P := by
  induction c with
  | zero => rw [pow_zero, one_nsmul]; rfl
  | succ c ih => rw [Function.iterate_succ_apply', ih, ← two_nsmul, ← mul_nsmul', pow_succ']

/-- **Horner's scheme**, from the highest window down. -/
theorem horner (B : ℕ) (V : ℕ → G) (n : ℕ) (total : G) :
    (List.range n).reverse.foldl (fun total w => B • total + V w) total
      = B ^ n • total + ∑ w ∈ Finset.range n, B ^ w • V w := by
  induction n generalizing total with
  | zero => simp
  | succ n ih =>
      rw [List.range_succ, List.reverse_append, List.reverse_singleton, List.singleton_append,
        List.foldl_cons, ih, Finset.sum_range_succ, smul_add, ← mul_nsmul', ← pow_succ, add_assoc,
        add_comm (B ^ n • V n)]

end SignedDigits
