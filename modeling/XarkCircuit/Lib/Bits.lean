import XarkCircuit.Lib.Instances
import Mathlib.Algebra.BigOperators.Ring.Finset
import Mathlib.Tactic.Ring

/-!
Bits as elements of a ring.

* `bitOf x i` is bit `i` of a number, as `0` or `1`, and `number f n` the number whose bits are the
  values of `f` that are one.
* `sum_mul_two_pow`: values that are `0` or `1`, weighted by powers of two, add up to that number.
* `sum_bitOf`: bits add up to the number of bits that are set.
-/

namespace Bits

variable {R : Type*} [CommRing R]

/-! ### Bits of a number -/

/-- Bit `i` of a number. -/
def bitOf (x i : ℕ) : R := if x.testBit i then 1 else 0

lemma bitOf_eq_one_iff [Nontrivial R] (x i : ℕ) : (bitOf x i : R) = 1 ↔ x.testBit i := by
  rw [bitOf]
  split_ifs with h
  · simp [h]
  · simp [h]

lemma bitOf_eq_zero_or_one (x i : ℕ) : (bitOf x i : R) = 0 ∨ (bitOf x i : R) = 1 := by
  rw [bitOf]
  split_ifs
  · exact .inr rfl
  · exact .inl rfl

/-- The bits that are set, among the first `n`. -/
def setBits (x n : ℕ) : Finset ℕ := (Finset.range n).filter fun i => x.testBit i

lemma mem_setBits {x n i : ℕ} : i ∈ setBits x n ↔ i < n ∧ x.testBit i := by
  rw [setBits, Finset.mem_filter, Finset.mem_range]

lemma card_setBits_le (x n : ℕ) : (setBits x n).card ≤ n := by
  calc (setBits x n).card ≤ (Finset.range n).card := Finset.card_filter_le _ _
    _ = n := Finset.card_range n

/-- Bits add up to the number of them that are set. -/
lemma sum_bitOf (x n : ℕ) : ∑ i ∈ Finset.range n, (bitOf x i : R) = ((setBits x n).card : R) := by
  simp only [bitOf, setBits]
  rw [Finset.sum_boole]

/-- Bits that are set in both add up to the number of them. -/
lemma sum_bitOf_mul (x y n : ℕ) :
    ∑ i ∈ Finset.range n, (bitOf x i * bitOf y i : R) = ((setBits (x &&& y) n).card : R) := by
  rw [← sum_bitOf]
  refine Finset.sum_congr rfl fun i _ => ?_
  simp only [bitOf, Nat.testBit_and]
  cases x.testBit i <;> cases y.testBit i <;> simp

/-! ### The number of bits -/

variable [DecidableEq R]

/-- The number whose bit `i` is set where `f i` is one, of `n` bits. -/
def number (f : ℕ → R) (n : ℕ) : ℕ := Nat.ofBits fun i : Fin n => decide (f i = 1)

lemma number_lt (f : ℕ → R) (n : ℕ) : number f n < 2 ^ n := Nat.ofBits_lt_two_pow _

lemma testBit_number (f : ℕ → R) {n i : ℕ} (h : i < n) :
    (number f n).testBit i = decide (f i = 1) := by
  rw [number, Nat.testBit_ofBits_lt _ _ h]

lemma number_succ (f : ℕ → R) (n : ℕ) :
    number f (n + 1) = 2 * number (fun i => f (i + 1)) n + (decide (f 0 = 1)).toNat := by
  rw [number, Nat.ofBits_succ]
  rfl

/-- Weighted by powers of two, the bits add up to the number. -/
lemma sum_mul_two_pow [Nontrivial R] {f : ℕ → R} {n : ℕ} (h : ∀ i < n, f i = 0 ∨ f i = 1) :
    ∑ i ∈ Finset.range n, f i * 2 ^ i = (number f n : R) := by
  induction n generalizing f with
  | zero => simp [number]
  | succ n ih =>
      have hhead : f 0 = ((decide (f 0 = 1)).toNat : R) := by
        rcases h 0 (Nat.succ_pos n) with h0 | h1
        · simp [h0]
        · simp [h1]
      have htail := @ih (fun i => f (i + 1)) fun i hi => h (i + 1) (Nat.succ_lt_succ hi)
      calc ∑ i ∈ Finset.range (n + 1), f i * 2 ^ i
          = ∑ i ∈ Finset.range n, f (i + 1) * 2 ^ (i + 1) + f 0 * 2 ^ 0 :=
            Finset.sum_range_succ' _ n
        _ = 2 * ∑ i ∈ Finset.range n, f (i + 1) * 2 ^ i + f 0 := by
            rw [Finset.mul_sum, pow_zero, mul_one]
            refine congrArg (· + f 0) (Finset.sum_congr rfl fun i _ => ?_)
            ring
        _ = (number f (n + 1) : R) := by
            rw [htail, number_succ, Nat.cast_add, Nat.cast_mul, Nat.cast_ofNat, ← hhead]

/-- A number is the number of its bits. -/
lemma number_bitOf [Nontrivial R] {x n : ℕ} (h : x < 2 ^ n) :
    number (fun i => (bitOf x i : R)) n = x := by
  have hbits : (fun i : Fin n => decide ((bitOf x i : R) = 1)) = fun i : Fin n => x.testBit i := by
    funext i
    simp [bitOf_eq_one_iff]
  rw [number, hbits, Nat.ofBits_testBit, Nat.mod_eq_of_lt h]

end Bits
