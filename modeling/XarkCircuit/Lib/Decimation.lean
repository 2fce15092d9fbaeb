import XarkCircuit.Lib.Dft

/-!
Splitting a Fourier transform of composite length.

* `dft_split`: `q` transforms of the subsequences of every `q`-th element.
* `dft_matrix` and `dft_matrix_transposed`: a matrix of `n1` rows and `n2` columns, transformed column
  by column and row by row, with twiddle factors in between.
-/

namespace Dft

open Finset

variable {F G : Type} [Field F] [AddCommGroup G] [Module F G] {ω : F}

lemma sum_range_mul (q m : ℕ) (f : ℕ → G) :
    ∑ i ∈ range (q * m), f i = ∑ j ∈ range q, ∑ t ∈ range m, f (j + q * t) := by
  induction m with
  | zero => simp
  | succ m ih =>
      have hlast : ∑ j ∈ range q, f (q * m + j) = ∑ j ∈ range q, f (j + q * m) :=
        sum_congr rfl fun j _ => by rw [add_comm]
      rw [Nat.mul_succ, sum_range_add, ih, hlast, ← sum_add_distrib]
      exact sum_congr rfl fun j _ => (sum_range_succ _ m).symm

/-- **Decimation**: a transform is made of the transforms of the subsequences. -/
theorem dft_split (ω : F) (q m : ℕ) (v : ℕ → G) (i : ℕ) :
    dft ω (q * m) v i
      = ∑ j ∈ range q, ω ^ (i * j) • dft (ω ^ q) m (fun t => v (j + q * t)) i := by
  rw [dft, sum_range_mul]
  refine sum_congr rfl fun j _ => ?_
  rw [dft, smul_sum]
  refine sum_congr rfl fun t _ => ?_
  rw [smul_smul, ← pow_mul, ← pow_add]
  congr 2
  ring

/-- Transforms are periodic. -/
lemma dft_add_mul {m : ℕ} (h : ω ^ m = 1) (v : ℕ → G) (i k : ℕ) :
    dft ω m v (i + m * k) = dft ω m v i := by
  refine sum_congr rfl fun j _ => ?_
  have hpow : ω ^ ((i + m * k) * j) = ω ^ (i * j) := by
    rw [add_mul, pow_add, mul_assoc, pow_mul ω m, h, one_pow, mul_one]
  rw [hpow]

lemma dft_mul (m : ℕ) (c : F) (v : ℕ → F) (i : ℕ) :
    dft ω m (fun j => c * v j) i = c * dft ω m v i := by
  rw [dft, dft, mul_sum]
  exact sum_congr rfl fun j _ => mul_left_comm _ _ _

/-- Two halves are joined by sums and differences. -/
lemma dft_two {m : ℕ} (h : ω ^ m = -1) (v : ℕ → G) (p : ℕ) :
    dft ω (2 * m) v p = dft (ω ^ 2) m (fun t => v (2 * t)) p
        + ω ^ p • dft (ω ^ 2) m (fun t => v (1 + 2 * t)) p ∧
      dft ω (2 * m) v (m + p) = dft (ω ^ 2) m (fun t => v (2 * t)) p
        - ω ^ p • dft (ω ^ 2) m (fun t => v (1 + 2 * t)) p := by
  have hone : (ω ^ 2) ^ m = 1 := by rw [← pow_mul, mul_comm, pow_mul, h, neg_one_sq]
  have hperiod : ∀ w : ℕ → G, dft (ω ^ 2) m w (m + p) = dft (ω ^ 2) m w p := by
    intro w
    have hp := dft_add_mul hone w p 1
    rwa [mul_one, add_comm] at hp
  constructor
  · rw [dft_split, sum_range_succ, sum_range_one]
    simp
  · rw [dft_split, sum_range_succ, sum_range_one, hperiod, hperiod]
    simp [pow_add, h, sub_eq_add_neg]

variable {n1 n2 : ℕ}

/-- **By columns, then by rows.** -/
theorem dft_matrix (h : ω ^ (n1 * n2) = 1) (v : ℕ → G) (k1 k2 : ℕ) :
    dft ω (n1 * n2) v (k1 + n1 * k2)
      = dft (ω ^ n1) n2 (fun c => ω ^ (k1 * c) •
          dft (ω ^ n2) n1 (fun r => v (r * n2 + c)) k1) k2 := by
  have hone : (ω ^ n2) ^ n1 = 1 := by rw [← pow_mul, mul_comm, h]
  rw [mul_comm n1 n2, dft_split, dft]
  refine sum_congr rfl fun c _ => ?_
  have hcols : dft (ω ^ n2) n1 (fun r => v (c + n2 * r)) (k1 + n1 * k2)
      = dft (ω ^ n2) n1 (fun r => v (r * n2 + c)) k1 := by
    rw [dft_add_mul hone]
    exact dft_congr (fun r _ => by rw [add_comm, mul_comm]) k1
  rw [hcols, smul_smul, ← pow_mul, ← pow_add]
  congr 2
  ring

/-- **By rows, then by columns**, of a matrix in T-layout. -/
theorem dft_matrix_transposed (h : ω ^ (n1 * n2) = 1) (v : ℕ → G) (i1 j : ℕ) :
    dft ω (n1 * n2) v (i1 * n2 + j)
      = dft (ω ^ n2) n1 (fun k1 => ω ^ (j * k1) •
          dft (ω ^ n1) n2 (fun k2 => v (k1 + n1 * k2)) j) i1 := by
  have hone : (ω ^ n1) ^ n2 = 1 := by rw [← pow_mul, h]
  rw [dft_split, dft]
  refine sum_congr rfl fun k1 _ => ?_
  rw [add_comm (i1 * n2), mul_comm i1 n2, dft_add_mul hone, smul_smul, ← pow_mul, ← pow_add]
  congr 2
  ring

end Dft
