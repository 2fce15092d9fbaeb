import XarkCircuit.Lib.Instances
import Mathlib.RingTheory.RootsOfUnity.PrimitiveRoots
import Mathlib.Algebra.Polynomial.RingDivision
import Mathlib.Algebra.Field.GeomSum
import Mathlib.Tactic.FieldSimp
import Mathlib.Tactic.LinearCombination

/-!
The discrete Fourier transform on the powers of a root of unity, and division on a coset.

* `dft` and `idft` transform vectors over a module. Over the field itself `dft` evaluates the
  polynomial with the given coefficients at the powers of the root (`eval_ofCoeffs`), and each
  transform undoes the other (`dft_idft`, `idft_dft`).
* `interpolant` is the polynomial with given values at the powers of the root; `eval_interpolant`
  gives its value elsewhere by the weights `lagrangeAt`, of which `lagrangeAt_eq` is the closed form.
* `dvd_iff_eval`: divisibility by `X ^ n - 1` is vanishing at the powers of the root.
* `coset_quotient`: a quotient by `X ^ n - 1` of low degree is found from its values on a coset.
-/

namespace Dft

open Polynomial Finset

variable {F G : Type} [Field F] [AddCommGroup G] [Module F G]

/-! ### The transforms -/

/-- The transform of a vector of length `n`. -/
def dft (ω : F) (n : ℕ) (v : ℕ → G) (i : ℕ) : G := ∑ j ∈ range n, ω ^ (i * j) • v j

/-- The inverse transform of a vector of length `n`. -/
def idft (ω : F) (n : ℕ) (v : ℕ → G) (i : ℕ) : G :=
  (n : F)⁻¹ • ∑ j ∈ range n, ω⁻¹ ^ (i * j) • v j

lemma dft_congr {ω : F} {n : ℕ} {v w : ℕ → G} (h : ∀ j, j < n → v j = w j) (i : ℕ) :
    dft ω n v i = dft ω n w i :=
  sum_congr rfl fun j hj => by rw [h j (mem_range.mp hj)]

lemma idft_congr {ω : F} {n : ℕ} {v w : ℕ → G} (h : ∀ j, j < n → v j = w j) (i : ℕ) :
    idft ω n v i = idft ω n w i := by
  rw [idft, idft]
  exact congrArg _ (sum_congr rfl fun j hj => by rw [h j (mem_range.mp hj)])

/-- The inverse transform of multiples of one element. -/
lemma idft_smul_const (ω : F) (n : ℕ) (v : ℕ → F) (g : G) (i : ℕ) :
    idft ω n (fun j => v j • g) i = idft ω n v i • g := by
  rw [idft, idft, smul_assoc, sum_smul]
  exact congrArg _ (sum_congr rfl fun j _ => by rw [smul_assoc])

variable {ω : F} {n : ℕ}

lemma ne_zero_of_root (hω : IsPrimitiveRoot ω n) (hn : 0 < n) : ω ≠ 0 :=
  hω.ne_zero hn.ne'

/-- The length is invertible. -/
lemma cast_ne_zero (hω : IsPrimitiveRoot ω n) (hn : 0 < n) : (n : F) ≠ 0 := by
  have : NeZero n := ⟨hn.ne'⟩
  exact hω.neZero'.out

/-- The powers of a power of the root sum to zero, unless that power is `1`. -/
lemma sum_pow_root (hω : IsPrimitiveRoot ω n) {i j : ℕ} (hi : i < n) (hj : j < n) :
    ∑ k ∈ range n, (ω ^ i * ω⁻¹ ^ j) ^ k = if i = j then (n : F) else 0 := by
  have h0 : ω ≠ 0 := ne_zero_of_root hω (by omega)
  split_ifs with hij
  · subst hij
    rw [← mul_pow, mul_inv_cancel₀ h0, one_pow]
    simp
  · have hne : ω ^ i * ω⁻¹ ^ j ≠ 1 := by
      rw [inv_pow, Ne, mul_inv_eq_one₀ (pow_ne_zero j h0)]
      exact fun h => hij (hω.pow_inj hi hj h)
    have hone : (ω ^ i * ω⁻¹ ^ j) ^ n = 1 := by
      rw [mul_pow, ← pow_mul, ← pow_mul, mul_comm i, mul_comm j, pow_mul, pow_mul, inv_pow,
        hω.pow_eq_one]
      simp
    rw [geom_sum_eq hne, hone, sub_self, zero_div]

/-- The inverse transform undoes the transform. -/
lemma idft_dft (hω : IsPrimitiveRoot ω n) (v : ℕ → F) {i : ℕ} (hi : i < n) :
    idft ω n (dft ω n v) i = v i := by
  have hn : (n : F) ≠ 0 := cast_ne_zero hω (by omega)
  have hsum : ∑ j ∈ range n, ω⁻¹ ^ (i * j) • dft ω n v j = n * v i := by
    calc ∑ j ∈ range n, ω⁻¹ ^ (i * j) • dft ω n v j
        = ∑ j ∈ range n, ∑ k ∈ range n, (ω ^ k * ω⁻¹ ^ i) ^ j * v k := by
          refine sum_congr rfl fun j _ => ?_
          rw [dft, smul_sum]
          refine sum_congr rfl fun k _ => ?_
          rw [smul_eq_mul, smul_eq_mul, mul_pow, ← pow_mul, ← pow_mul, mul_comm j k]
          ring
      _ = ∑ k ∈ range n, (if k = i then (n : F) else 0) * v k := by
          rw [sum_comm]
          refine sum_congr rfl fun k hk => ?_
          rw [← sum_mul, sum_pow_root hω (mem_range.mp hk) hi]
      _ = n * v i := by simp [hi]
  rw [idft, hsum, smul_eq_mul, inv_mul_cancel_left₀ hn]

/-- The transform undoes the inverse transform. -/
lemma dft_idft (hω : IsPrimitiveRoot ω n) (v : ℕ → F) {i : ℕ} (hi : i < n) :
    dft ω n (idft ω n v) i = v i := by
  have hn : (n : F) ≠ 0 := cast_ne_zero hω (by omega)
  calc dft ω n (idft ω n v) i
      = ∑ j ∈ range n, ∑ k ∈ range n, (n : F)⁻¹ * ((ω ^ i * ω⁻¹ ^ k) ^ j * v k) := by
        refine sum_congr rfl fun j _ => ?_
        rw [idft, smul_eq_mul, smul_eq_mul, mul_sum, mul_sum]
        refine sum_congr rfl fun k _ => ?_
        rw [smul_eq_mul, mul_pow, ← pow_mul, ← pow_mul, mul_comm j k]
        ring
    _ = ∑ k ∈ range n, (n : F)⁻¹ * ((if i = k then (n : F) else 0) * v k) := by
        rw [sum_comm]
        refine sum_congr rfl fun k hk => ?_
        rw [← mul_sum, ← sum_mul, sum_pow_root hω hi (mem_range.mp hk)]
    _ = v i := by simp [hi, hn]

/-! ### Polynomials -/

/-- The polynomial with the given coefficients. -/
noncomputable def ofCoeffs (n : ℕ) (c : ℕ → F) : F[X] := ∑ k ∈ range n, C (c k) * X ^ k

lemma eval_ofCoeffs (c : ℕ → F) (x : F) :
    (ofCoeffs n c).eval x = ∑ k ∈ range n, c k * x ^ k := by
  simp [ofCoeffs, eval_finsetSum]

lemma coeff_ofCoeffs (c : ℕ → F) (k : ℕ) :
    (ofCoeffs n c).coeff k = if k < n then c k else 0 := by
  simp [ofCoeffs, coeff_X_pow]

lemma degree_ofCoeffs_lt (c : ℕ → F) : (ofCoeffs n c).degree < n := by
  rw [degree_lt_iff_coeff_zero]
  intro k hk
  rw [coeff_ofCoeffs, if_neg (by omega)]

/-- The polynomial of degree less than `n` with the given values at the powers of the root. -/
noncomputable def interpolant (ω : F) (n : ℕ) (v : ℕ → F) : F[X] := ofCoeffs n (idft ω n v)

/-- The value at a multiple of a power of the root is the transform of scaled coefficients. -/
lemma eval_ofCoeffs_mul (c : ℕ → F) (g : F) (i : ℕ) :
    (ofCoeffs n c).eval (g * ω ^ i) = dft ω n (fun k => c k * g ^ k) i := by
  rw [eval_ofCoeffs, dft]
  refine sum_congr rfl fun k _ => ?_
  rw [smul_eq_mul, mul_pow, ← pow_mul]
  ring

lemma eval_interpolant_root (hω : IsPrimitiveRoot ω n) (v : ℕ → F) {i : ℕ} (hi : i < n) :
    (interpolant ω n v).eval (ω ^ i) = v i := by
  have h := eval_ofCoeffs_mul (n := n) (ω := ω) (idft ω n v) 1 i
  simp only [one_mul, one_pow, mul_one] at h
  rw [interpolant, h, dft_idft hω v hi]

/-- The interpolant is the only polynomial of low degree with these values. -/
lemma eq_interpolant (hω : IsPrimitiveRoot ω n) {P : F[X]} (hP : P.degree < n) {v : ℕ → F}
    (h : ∀ i < n, P.eval (ω ^ i) = v i) : P = interpolant ω n v := by
  have hcoeffs : P = ofCoeffs n P.coeff := by
    ext k
    rw [coeff_ofCoeffs]
    split_ifs with hk
    · rfl
    · exact (degree_lt_iff_coeff_zero P n).mp hP k (Nat.not_lt.mp hk)
  have hvals : ∀ i < n, v i = dft ω n P.coeff i := by
    intro i hi
    have heval := eval_ofCoeffs_mul (n := n) (ω := ω) P.coeff 1 i
    simp only [one_mul, one_pow, mul_one] at heval
    rw [← heval, ← hcoeffs, h i hi]
  ext k
  rw [interpolant, coeff_ofCoeffs]
  split_ifs with hk
  · rw [idft_congr hvals, idft_dft hω _ hk]
  · exact (degree_lt_iff_coeff_zero P n).mp hP k (Nat.not_lt.mp hk)

/-- The weight of the `i`-th value in the value of the interpolant at `t`. -/
def lagrangeAt (ω : F) (n : ℕ) (t : F) (i : ℕ) : F := idft ω n (fun j => t ^ j) i

/-- The value of the interpolant anywhere. -/
lemma eval_interpolant (v : ℕ → F) (t : F) :
    (interpolant ω n v).eval t = ∑ i ∈ range n, v i * lagrangeAt ω n t i := by
  calc (interpolant ω n v).eval t
      = ∑ k ∈ range n, ∑ i ∈ range n, v i * ((n : F)⁻¹ * (ω⁻¹ ^ (i * k) * t ^ k)) := by
        rw [interpolant, eval_ofCoeffs]
        refine sum_congr rfl fun k _ => ?_
        rw [idft, smul_eq_mul, mul_sum, sum_mul]
        refine sum_congr rfl fun i _ => ?_
        rw [smul_eq_mul, mul_comm k i]
        ring
    _ = ∑ i ∈ range n, v i * lagrangeAt ω n t i := by
        rw [sum_comm]
        refine sum_congr rfl fun i _ => ?_
        rw [lagrangeAt, idft, smul_eq_mul, mul_sum, mul_sum]
        rfl

/-- The weights in closed form, off the powers of the root. -/
lemma lagrangeAt_eq (hω : IsPrimitiveRoot ω n) (hn : 0 < n) {t : F} (ht : t ^ n ≠ 1) (i : ℕ) :
    lagrangeAt ω n t i = (t ^ n - 1) * ω ^ i / (n * (t - ω ^ i)) := by
  have h0 : ω ^ i ≠ 0 := pow_ne_zero _ (ne_zero_of_root hω hn)
  have hroot : (ω ^ i) ^ n = 1 := by rw [← pow_mul, mul_comm, pow_mul, hω.pow_eq_one, one_pow]
  have hsub : t - ω ^ i ≠ 0 := fun h => ht (by rw [sub_eq_zero.mp h, hroot])
  have hne : t * (ω ^ i)⁻¹ ≠ 1 := by
    rw [Ne, mul_inv_eq_one₀ h0]
    exact fun h => hsub (sub_eq_zero.mpr h)
  have hsum : ∑ j ∈ range n, ω⁻¹ ^ (i * j) • t ^ j = ((t ^ n - 1) * ω ^ i) / (t - ω ^ i) := by
    calc ∑ j ∈ range n, ω⁻¹ ^ (i * j) • t ^ j
        = ∑ j ∈ range n, (t * (ω ^ i)⁻¹) ^ j := by
          refine sum_congr rfl fun j _ => ?_
          rw [smul_eq_mul, pow_mul, inv_pow, mul_pow]
          ring
      _ = (t ^ n - 1) / (t * (ω ^ i)⁻¹ - 1) := by
          rw [geom_sum_eq hne, mul_pow, inv_pow, hroot, inv_one, mul_one]
      _ = ((t ^ n - 1) * ω ^ i) / (t - ω ^ i) := by
          have hsub' : t * (ω ^ i)⁻¹ - 1 = (t - ω ^ i) / ω ^ i := by
            field_simp
          rw [hsub', div_div_eq_mul_div]
  rw [lagrangeAt, idft, hsum, smul_eq_mul, mul_comm (n : F), ← div_div, div_eq_inv_mul _ (n : F)]

/-! ### Division by the vanishing polynomial -/

lemma natDegree_vanishing : (X ^ n - 1 : F[X]).natDegree = n := by
  simpa using natDegree_X_pow_sub_C (R := F) (n := n) (r := 1)

lemma monic_vanishing (hn : 0 < n) : (X ^ n - 1 : F[X]).Monic := monic_X_pow_sub_C 1 hn.ne'

/-- Divisibility is vanishing at the powers of the root. -/
lemma dvd_iff_eval (hω : IsPrimitiveRoot ω n) (hn : 0 < n) (P : F[X]) :
    X ^ n - 1 ∣ P ↔ ∀ i, i < n → P.eval (ω ^ i) = 0 := by
  have hroot : ∀ i, (ω ^ i) ^ n = 1 := fun i => by
    rw [← pow_mul, mul_comm, pow_mul, hω.pow_eq_one, one_pow]
  constructor
  · rintro ⟨Q, rfl⟩ i _
    rw [eval_mul, eval_sub, eval_pow, eval_X, eval_one, hroot, sub_self, zero_mul]
  · intro h
    classical
    have hmonic : (X ^ n - 1 : F[X]).Monic := monic_vanishing hn
    rw [← modByMonic_eq_zero_iff_dvd hmonic]
    have hcard : (image (fun i => ω ^ i) (range n)).card = n := by
      rw [card_image_of_injOn, card_range]
      exact fun i hi j hj hij => hω.pow_inj (mem_range.mp hi) (mem_range.mp hj) hij
    refine eq_zero_of_natDegree_lt_card_of_eval_eq_zero' _ (image (fun i => ω ^ i) (range n))
      (fun x hx => ?_) ?_
    · obtain ⟨i, hi, rfl⟩ := mem_image.mp hx
      have hmod := modByMonic_add_div P (X ^ n - 1 : F[X])
      have heval := congrArg (eval (ω ^ i)) hmod
      rw [eval_add, eval_mul, eval_sub, eval_pow, eval_X, eval_one, hroot, sub_self, zero_mul,
        add_zero, h i (mem_range.mp hi)] at heval
      exact heval
    · rw [hcard]
      refine (natDegree_modByMonic_lt P hmonic ?_).trans_eq (natDegree_vanishing)
      intro h1
      have := congrArg natDegree h1
      rw [natDegree_vanishing, natDegree_one] at this
      omega

/-- A quotient of `A * B - C` has degree less than `n - 1`. -/
lemma coeff_quotient_eq_zero (hn : 0 < n) {A B C Q : F[X]} (hA : A.degree < n) (hB : B.degree < n)
    (hC : C.degree < n) (hQ : A * B - C = (X ^ n - 1) * Q) {k : ℕ} (hk : n - 1 ≤ k) :
    Q.coeff k = 0 := by
  by_contra hne
  have hQ0 : Q ≠ 0 := fun h => hne (by rw [h, coeff_zero])
  have hdeg : (A * B - C).natDegree = n + Q.natDegree := by
    rw [hQ, (monic_vanishing hn).natDegree_mul' hQ0, natDegree_vanishing]
  have hle : Q.natDegree ≥ k := le_natDegree_of_ne_zero hne
  have hlt : ∀ {P : F[X]}, P.degree < n → P.natDegree ≤ n - 1 := by
    intro P hP
    by_cases h0 : P = 0
    · rw [h0, natDegree_zero]; omega
    · have := (natDegree_lt_iff_degree_lt h0).mpr hP
      omega
  have hAB : (A * B).natDegree ≤ (n - 1) + (n - 1) :=
    natDegree_mul_le.trans (Nat.add_le_add (hlt hA) (hlt hB))
  have hsub := natDegree_sub_le (A * B) C
  have hC' := hlt hC
  have hmax : (A * B - C).natDegree ≤ (n - 1) + (n - 1) :=
    hsub.trans (max_le hAB (by omega))
  omega

/-- **Division on a coset**: the values of `(A * B - C) / (X ^ n - 1)` on the coset of `g`, transformed
back and unscaled, are the coefficients of the quotient when there is one. -/
theorem coset_quotient (hω : IsPrimitiveRoot ω n) (hn : 0 < n) {g : F} (hg0 : g ≠ 0)
    (hg : g ^ n ≠ 1) {A B C Q : F[X]} (hA : A.degree < n) (hB : B.degree < n) (hC : C.degree < n)
    (hQ : A * B - C = (X ^ n - 1) * Q) {k : ℕ} (hk : k < n) :
    idft ω n (fun i => (A.eval (g * ω ^ i) * B.eval (g * ω ^ i) - C.eval (g * ω ^ i))
      * (g ^ n - 1)⁻¹) k * g⁻¹ ^ k = Q.coeff k := by
  have hZ : g ^ n - 1 ≠ 0 := sub_ne_zero.mpr hg
  have hcoset : ∀ i, (g * ω ^ i) ^ n = g ^ n := fun i => by
    rw [mul_pow, ← pow_mul, mul_comm i, pow_mul, hω.pow_eq_one, one_pow, mul_one]
  have hQn : Q = ofCoeffs n Q.coeff := by
    ext j
    rw [coeff_ofCoeffs]
    split_ifs with hj
    · rfl
    · exact coeff_quotient_eq_zero hn hA hB hC hQ (by omega)
  have hvals : ∀ i, (A.eval (g * ω ^ i) * B.eval (g * ω ^ i) - C.eval (g * ω ^ i)) * (g ^ n - 1)⁻¹
      = dft ω n (fun k => Q.coeff k * g ^ k) i := by
    intro i
    rw [← eval_ofCoeffs_mul, ← hQn, ← eval_mul, ← eval_sub, hQ, eval_mul, eval_sub, eval_pow,
      eval_X, eval_one, hcoset, mul_comm (g ^ n - 1), mul_inv_cancel_right₀ hZ]
  rw [idft_congr fun j _ => hvals j, idft_dft hω _ hk, mul_assoc, ← mul_pow, mul_inv_cancel₀ hg0,
    one_pow, mul_one]

end Dft
