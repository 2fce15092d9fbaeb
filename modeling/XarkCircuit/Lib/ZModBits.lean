import XarkCircuit.Lib.Bits
import Mathlib.Algebra.Field.ZMod

/-!
Bits of residues modulo a prime, for widths below the prime.

* `sum_bitOf_val`: a small residue is the sum of its bits; `bits_unique`: they are the only bits that
  add up to it.
* `borrow_unique`: the borrow of a difference is the only bit that brings it back into the range, and
  `borrow_bit` finds it in the difference itself.
-/

namespace Bits

variable {p : ℕ} [Fact p.Prime] {n : ℕ}

/-- A residue below `2 ^ n` is the sum of its bits. -/
lemma sum_bitOf_val {x : ZMod p} (h : x.val < 2 ^ n) :
    ∑ i ∈ Finset.range n, (bitOf x.val i : ZMod p) * 2 ^ i = x := by
  rw [sum_mul_two_pow fun i _ => bitOf_eq_zero_or_one x.val i, number_bitOf h, ZMod.natCast_zmod_val]

/-- **Bits are unique** where their sum does not wrap. -/
lemma bits_unique (hn : 2 ^ n ≤ p) {f : ℕ → ZMod p} (hf : ∀ i < n, f i = 0 ∨ f i = 1) {x : ZMod p}
    (hsum : ∑ i ∈ Finset.range n, f i * 2 ^ i = x) :
    x.val < 2 ^ n ∧ ∀ i < n, f i = bitOf x.val i := by
  have hlt := number_lt f n
  have hval : x.val = number f n := by
    rw [← hsum, sum_mul_two_pow hf, ZMod.val_natCast_of_lt (hlt.trans_le hn)]
  rw [hval]
  refine ⟨hlt, fun i hi => ?_⟩
  rw [bitOf, testBit_number f hi]
  rcases hf i hi with h | h <;> simp [h]

/-! ### Borrows -/

/-- The borrow of `x - y`. -/
def borrow (x y : ZMod p) : ZMod p := if x.val < y.val then 1 else 0

lemma cast_two_pow (n : ℕ) : ((2 ^ n : ℕ) : ZMod p) = 2 ^ n := by push_cast; rfl

/-- With the borrow, the difference is the one modulo `2 ^ n`. -/
lemma val_sub_add_borrow (hn : 2 ^ (n + 1) ≤ p) {x y : ZMod p} (hx : x.val < 2 ^ n)
    (hy : y.val < 2 ^ n) :
    (x - y + borrow x y * 2 ^ n).val = (x.val + 2 ^ n - y.val) % 2 ^ n := by
  rw [Nat.pow_succ] at hn
  rw [borrow]
  split_ifs with hlt
  · have hcast : x - y + 1 * 2 ^ n = ((x.val + 2 ^ n - y.val : ℕ) : ZMod p) := by
      rw [Nat.cast_sub (by omega), Nat.cast_add, cast_two_pow, ZMod.natCast_zmod_val,
        ZMod.natCast_zmod_val]
      ring
    rw [hcast, ZMod.val_natCast_of_lt (by omega), Nat.mod_eq_of_lt (by omega)]
  · have hle : y.val ≤ x.val := not_lt.mp hlt
    have hmod : (x.val + 2 ^ n - y.val) % 2 ^ n = x.val - y.val := by
      rw [show x.val + 2 ^ n - y.val = x.val - y.val + 2 ^ n by omega, Nat.add_mod_right,
        Nat.mod_eq_of_lt (by omega)]
    rw [zero_mul, add_zero, ZMod.val_sub hle, hmod]

/-- **The borrow is unique**: with another bit, the difference leaves the range. -/
lemma borrow_unique (hn : 2 ^ (n + 1) ≤ p) {x y t : ZMod p} (hx : x.val < 2 ^ n)
    (hy : y.val < 2 ^ n) (ht : t = 0 ∨ t = 1) (h : (x - y + t * 2 ^ n).val < 2 ^ n) :
    t = borrow x y := by
  rw [Nat.pow_succ] at hn
  rw [borrow]
  rcases ht with rfl | rfl
  · split_ifs with hlt
    · -- `x - y` wraps
      exfalso
      have hcast : x - y + 0 * 2 ^ n = ((x.val + p - y.val : ℕ) : ZMod p) := by
        rw [Nat.cast_sub (by omega), Nat.cast_add, ZMod.natCast_self, ZMod.natCast_zmod_val,
          ZMod.natCast_zmod_val]
        ring
      rw [hcast, ZMod.val_natCast_of_lt (by omega)] at h
      omega
    · rfl
  · split_ifs with hlt
    · rfl
    · exfalso
      have hcast : x - y + 1 * 2 ^ n = ((x.val + 2 ^ n - y.val : ℕ) : ZMod p) := by
        rw [Nat.cast_sub (by omega), Nat.cast_add, cast_two_pow, ZMod.natCast_zmod_val,
          ZMod.natCast_zmod_val]
        ring
      rw [hcast, ZMod.val_natCast_of_lt (by omega)] at h
      omega

/-- Bit `n` of `x - y + 2 ^ n` is one minus the borrow. -/
lemma borrow_bit (hn : 2 ^ (n + 1) ≤ p) {x y : ZMod p} (hx : x.val < 2 ^ n) (hy : y.val < 2 ^ n) :
    1 - (bitOf (x - y + 2 ^ n).val n : ZMod p) = borrow x y := by
  rw [Nat.pow_succ] at hn
  have hcast : x - y + 2 ^ n = ((x.val + 2 ^ n - y.val : ℕ) : ZMod p) := by
    rw [Nat.cast_sub (by omega), Nat.cast_add, cast_two_pow, ZMod.natCast_zmod_val,
      ZMod.natCast_zmod_val]
    ring
  rw [hcast, ZMod.val_natCast_of_lt (by omega), bitOf, borrow, Nat.testBit_eq_decide_div_mod_eq]
  split_ifs with hbit hlt hlt
  · rw [decide_eq_true_eq, Nat.div_eq_of_lt (by omega)] at hbit
    omega
  · exact sub_self 1
  · exact sub_zero 1
  · have hdiv : (x.val + 2 ^ n - y.val) / 2 ^ n = 1 :=
      Nat.div_eq_of_lt_le (by omega) (by omega)
    rw [hdiv] at hbit
    exact absurd (by decide) hbit

end Bits
