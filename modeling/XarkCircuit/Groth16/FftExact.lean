import XarkCircuit.Groth16.FourStep
import XarkCircuit.Groth16.Complete

/-!
The blocked transform is the Fourier transform.

* `fftToT_eq`, `ifftToT_eq`, `fftFromT_eq`, `ifftFromT_eq` and `cosetScaleT_eq`: in T-layout,
  position `k1 * n2 + k2` holds index `k1 + n1 * k2`.
* `toCoset_eq` and `fromCosetToT_eq`: to a coset and back. `fft_eq` and `ifft_eq`: in natural order.
* `qap_apply`: the transforms that the quotient is computed with are these.
* `blocked_fft_exact`: all of it, for every domain that is made.
-/

namespace XarkCircuit

namespace Fft

open Buffer Dft Finset Polynomial
open Groth16 (entry trailingZeros isPowerOfTwo isPowerOfTwo_pow trailingZeros_mul find_factor
  entry_map_range entry_toCoset FftField)

variable {F : Type} [Field F] {d : Domain F} {ω : F}

/-! ### Two sweeps -/

section Sweeps

variable (hd : d.Split ω) {η : F} (hη : IsPrimitiveRoot η (d.n1 * d.n2)) {st : RowStage F}
  (hst : ∀ k1 row, d.rowStage k1 row st
    = radix2FftStrided d.n2 (Tables.new η d.n1 d.n2).twN2 1 row)
include hd hη

/-- One row is the whole. -/
lemma plain_eq (hblocked : d.isBlocked = false) (buf : ℕ → F) {i : ℕ} (hi : i < d.n) :
    radix2FftStrided d.n (Tables.new η d.n1 d.n2).twN2 1 buf i = dft η d.n buf i := by
  have hn1 : d.n1 = 1 := by
    have hle := of_decide_eq_false hblocked
    have hpos := hd.n1_pos
    omega
  have hn : d.n = d.n2 := by rw [hd.n_eq, hn1, one_mul]
  rw [hn] at hi ⊢
  rw [rowFft_eq hd hη buf hi, hn1, pow_one]

variable (hblocked : d.isBlocked = true) (h2 : (2 : F) ≠ 0)
include hst hblocked h2

/-- **Columns, then rows.** -/
theorem sweep_to_t (scale : F) (buf : ℕ → F) {k1 k2 : ℕ} (hk1 : k1 < d.n1) (hk2 : k2 < d.n2) :
    d.rowsPass (d.colPass (Tables.new η d.n1 d.n2) .post scale buf) [st] (k1 * d.n2 + k2)
      = scale * dft η (d.n1 * d.n2) buf (k1 + d.n1 * k2) := by
  rw [rowsPass_apply d _ _ _ hk2, List.foldl_cons, List.foldl_nil, hst, rowFft_eq hd hη _ hk2,
    dft_matrix hη.pow_eq_one, ← dft_mul]
  refine dft_congr (fun c hc => ?_) k2
  rw [colPass_eq hd hblocked h2 hη .post scale buf hk1 hc, column, smul_eq_mul, ← pow_mul,
    mul_comm c k1]
  ring

/-- **Rows, then columns.** -/
theorem sweep_from_t (scale : F) (buf : ℕ → F) {i1 j : ℕ} (hi1 : i1 < d.n1) (hj : j < d.n2) :
    d.colPass (Tables.new η d.n1 d.n2) .pre scale (d.rowsPass buf [st]) (i1 * d.n2 + j)
      = scale * dft η (d.n1 * d.n2) (fun i => buf (i % d.n1 * d.n2 + i / d.n1))
          (i1 * d.n2 + j) := by
  have hn1 := hd.n1_pos
  rw [colPass_eq hd hblocked h2 hη .pre scale _ hi1 hj, column, dft_matrix_transposed hη.pow_eq_one,
    ← dft_mul]
  refine dft_congr (fun k1 hk1 => ?_) i1
  rw [rowsPass_apply d _ _ _ hj, List.foldl_cons, List.foldl_nil, hst, rowFft_eq hd hη _ hj,
    smul_eq_mul, ← pow_mul]
  have hrow : dft (η ^ d.n1) d.n2 (fun k2 => buf ((k1 + d.n1 * k2) % d.n1 * d.n2
      + (k1 + d.n1 * k2) / d.n1)) j = dft (η ^ d.n1) d.n2 (fun q => buf (k1 * d.n2 + q)) j := by
    refine dft_congr (fun k2 _ => ?_) j
    rw [Nat.add_mul_mod_self_left, Nat.mod_eq_of_lt hk1, Nat.add_mul_div_left _ _ hn1,
      Nat.div_eq_of_lt hk1, zero_add]
  rw [hrow]
  ring

end Sweeps

/-! ### T-layout -/

lemma scale_apply (buf : ℕ → F) (k : F) (p : ℕ) : Domain.scale buf k p = buf p * k := by
  rw [Domain.scale, chunks]
  exact congrArg (fun q => buf q * k) (Nat.div_add_mod' p (2 ^ 12))

section Layout

variable (hd : d.Split ω) (h2 : (2 : F) ≠ 0)
include hd

lemma exists_row_column {i : ℕ} (hi : i < d.n) :
    ∃ i1 < d.n1, ∃ j < d.n2, i = i1 * d.n2 + j := by
  have hn2 := hd.n2_pos
  rw [hd.n_eq] at hi
  exact ⟨i / d.n2, Nat.div_lt_of_lt_mul (by rwa [mul_comm]), i % d.n2, Nat.mod_lt _ hn2,
    (Nat.div_add_mod' i d.n2).symm⟩

lemma idft_eq_dft_inv (buf : ℕ → F) (i : ℕ) :
    idft ω d.n buf i = d.sizeInv * dft ω⁻¹ (d.n1 * d.n2) buf i := by
  rw [hd.sizeInv, ← hd.n_eq]
  rfl

/-- Places of the only row. -/
lemma place_of_not_blocked (hblocked : d.isBlocked = false) {k1 k2 : ℕ} (hk1 : k1 < d.n1)
    (hk2 : k2 < d.n2) : k1 * d.n2 + k2 = k1 + d.n1 * k2 ∧ k1 + d.n1 * k2 < d.n := by
  have hle := of_decide_eq_false hblocked
  have hn1 : d.n1 = 1 := by omega
  have hk0 : k1 = 0 := by omega
  rw [hd.n_eq, hn1, hk0]
  omega

include h2

/-- **The transform to T-layout.** -/
theorem fftToT_eq (buf : ℕ → F) {k1 k2 : ℕ} (hk1 : k1 < d.n1) (hk2 : k2 < d.n2) :
    d.fftToT buf (k1 * d.n2 + k2) = dft ω d.n buf (k1 + d.n1 * k2) := by
  rw [Domain.fftToT]
  split_ifs with hblocked
  · rw [hd.fwd, sweep_to_t hd hd.root (fun k1 row => by rw [Domain.rowStage, hd.fwd]) hblocked h2 1
      buf hk1 hk2, one_mul, hd.n_eq]
  · rw [Bool.not_eq_true] at hblocked
    obtain ⟨hplace, hlt⟩ := place_of_not_blocked hd hblocked hk1 hk2
    rw [hplace, hd.fwd, plain_eq hd hd.root hblocked buf hlt]

/-- **The inverse transform to T-layout.** -/
theorem ifftToT_eq (buf : ℕ → F) {k1 k2 : ℕ} (hk1 : k1 < d.n1) (hk2 : k2 < d.n2) :
    d.ifftToT buf (k1 * d.n2 + k2) = idft ω d.n buf (k1 + d.n1 * k2) := by
  rw [idft_eq_dft_inv hd, Domain.ifftToT]
  split_ifs with hblocked
  · rw [hd.inv, sweep_to_t hd (inverse_root hd) (fun k1 row => by rw [Domain.rowStage, hd.inv])
      hblocked h2 d.sizeInv buf hk1 hk2]
  · rw [Bool.not_eq_true] at hblocked
    obtain ⟨hplace, hlt⟩ := place_of_not_blocked hd hblocked hk1 hk2
    rw [hplace, scale_apply, hd.inv,
      plain_eq hd (inverse_root hd) hblocked buf hlt, mul_comm, hd.n_eq]

/-- **The transform from T-layout.** -/
theorem fftFromT_eq (buf : ℕ → F) {i : ℕ} (hi : i < d.n) :
    d.fftFromT buf i = dft ω d.n (fun j => buf (j % d.n1 * d.n2 + j / d.n1)) i := by
  rw [Domain.fftFromT]
  split_ifs with hblocked
  · obtain ⟨i1, hi1, j, hj, rfl⟩ := exists_row_column hd hi
    rw [hd.fwd, sweep_from_t hd hd.root (fun k1 row => by rw [Domain.rowStage, hd.fwd]) hblocked h2
      1 buf hi1 hj, one_mul, hd.n_eq]
  · rw [Bool.not_eq_true] at hblocked
    have hle := of_decide_eq_false hblocked
    have hn1 : d.n1 = 1 := by
      have hpos := hd.n1_pos
      omega
    rw [hd.fwd, plain_eq hd hd.root hblocked buf hi]
    exact dft_congr (fun j _ => by rw [hn1, Nat.mod_one, zero_mul, zero_add, Nat.div_one]) i

/-- **The inverse transform from T-layout.** -/
theorem ifftFromT_eq (buf : ℕ → F) {i : ℕ} (hi : i < d.n) :
    d.ifftFromT buf i = idft ω d.n (fun j => buf (j % d.n1 * d.n2 + j / d.n1)) i := by
  rw [idft_eq_dft_inv hd, Domain.ifftFromT]
  split_ifs with hblocked
  · obtain ⟨i1, hi1, j, hj, rfl⟩ := exists_row_column hd hi
    rw [hd.inv, sweep_from_t hd (inverse_root hd) (fun k1 row => by rw [Domain.rowStage, hd.inv])
      hblocked h2 d.sizeInv buf hi1 hj]
  · rw [Bool.not_eq_true] at hblocked
    have hle := of_decide_eq_false hblocked
    have hn1 : d.n1 = 1 := by
      have hpos := hd.n1_pos
      omega
    rw [scale_apply, hd.inv,
      plain_eq hd (inverse_root hd) hblocked buf hi, mul_comm, hd.n_eq]
    refine congrArg _ (dft_congr (fun j _ => ?_) i)
    rw [hn1, Nat.mod_one, zero_mul, zero_add, Nat.div_one]

omit hd h2 in
/-- **The multiples of a coset.** -/
theorem cosetScaleT_eq (buf : ℕ → F) (g : F) (k1 : ℕ) {k2 : ℕ} (hk2 : k2 < d.n2) :
    d.cosetScaleT buf g (k1 * d.n2 + k2) = buf (k1 * d.n2 + k2) * g ^ (k1 + d.n1 * k2) := by
  rw [Domain.cosetScaleT, chunks_apply _ _ _ hk2, scaleBy_eq, if_pos hk2, pow_add, pow_mul]

/-! ### Cosets -/

omit h2 in
lemma colPass_congr (hblocked : d.isBlocked = true) (h2 : (2 : F) ≠ 0) {η : F}
    (hη : IsPrimitiveRoot η (d.n1 * d.n2)) (tw : Twiddle) (k : F) {buf buf' : ℕ → F}
    (h : ∀ p < d.n, buf p = buf' p) {p : ℕ} (hp : p < d.n) :
    d.colPass (Tables.new η d.n1 d.n2) tw k buf p
      = d.colPass (Tables.new η d.n1 d.n2) tw k buf' p := by
  obtain ⟨i1, hi1, j, hj, rfl⟩ := exists_row_column hd hp
  rw [colPass_eq hd hblocked h2 hη tw k buf hi1 hj, colPass_eq hd hblocked h2 hη tw k buf' hi1 hj]
  refine column_congr (fun r hr => h _ ?_) i1
  rw [hd.n_eq]
  exact mul_add_lt hr hj

omit h2 in
/-- One sweep over the rows does three. -/
lemma rowsPass_coset (buf : ℕ → F) (g : F) {p : ℕ} (hp : p < d.n) :
    d.rowsPass buf [.ifft, .coset g, .fft] p
      = d.rowsPass (d.cosetScaleT (d.rowsPass buf [.ifft]) g) [.fft] p := by
  obtain ⟨k1, hk1, k2, hk2, rfl⟩ := exists_row_column hd hp
  rw [rowsPass_apply d _ _ _ hk2, rowsPass_apply d _ _ _ hk2]
  refine stages_congr hd k1 [.fft] (fun q hq => ?_) hk2
  rw [Domain.cosetScaleT, chunks_apply _ _ _ hq, scaleBy_eq, if_pos hq, rowsPass_apply d _ _ _ hq]
  simp only [Domain.rowStage, scaleBy_eq, if_pos hq, List.foldl_cons, List.foldl_nil]

omit hd h2 in
lemma rowsPass_fromCoset (buf : ℕ → F) (g : F) {k1 k2 : ℕ} (hk2 : k2 < d.n2) :
    d.rowsPass buf [.ifft, .coset g] (k1 * d.n2 + k2)
      = d.cosetScaleT (d.rowsPass buf [.ifft]) g (k1 * d.n2 + k2) := by
  rw [rowsPass_apply d _ _ _ hk2, Domain.cosetScaleT, chunks_apply _ _ _ hk2, scaleBy_eq,
    if_pos hk2, rowsPass_apply d _ _ _ hk2]
  simp only [Domain.rowStage, scaleBy_eq, if_pos hk2, List.foldl_cons, List.foldl_nil]

/-- The sweeps of a coset transform are its three steps. -/
lemma toCoset_eq_steps (buf : ℕ → F) (g : F) {p : ℕ} (hp : p < d.n) :
    d.toCoset buf g p = d.fftFromT (d.cosetScaleT (d.ifftToT buf) g) p := by
  rw [Domain.toCoset]
  split_ifs with hblocked
  · rw [Domain.fftFromT, if_pos hblocked, Domain.ifftToT, if_pos hblocked]
    simp only [Domain.colOp, hd.fwd, hd.inv]
    exact colPass_congr hd hblocked h2 hd.root .pre 1 (fun q hq => rowsPass_coset hd _ g hq) hp
  · rfl

/-- **To a coset**: the values of the interpolant there. -/
theorem toCoset_eq (buf : ℕ → F) (g : F) {i : ℕ} (hi : i < d.n) :
    d.toCoset buf g i = (interpolant ω d.n buf).eval (g * ω ^ i) := by
  rw [toCoset_eq_steps hd h2 buf g hi, fftFromT_eq hd h2 _ hi, interpolant, eval_ofCoeffs_mul]
  refine dft_congr (fun j hj => ?_) i
  have hn1 := hd.n1_pos
  have hrow : j % d.n1 < d.n1 := Nat.mod_lt j hn1
  have hcol : j / d.n1 < d.n2 := Nat.div_lt_of_lt_mul (by rwa [hd.n_eq] at hj)
  rw [cosetScaleT_eq _ _ _ hcol, ifftToT_eq hd h2 buf hrow hcol, Nat.mod_add_div]

/-- **Off a coset**: coefficients, unscaled. -/
theorem fromCosetToT_eq (buf : ℕ → F) (gInv : F) {k1 k2 : ℕ} (hk1 : k1 < d.n1) (hk2 : k2 < d.n2) :
    d.fromCosetToT buf gInv (k1 * d.n2 + k2)
      = idft ω d.n buf (k1 + d.n1 * k2) * gInv ^ (k1 + d.n1 * k2) := by
  rw [← ifftToT_eq hd h2 buf hk1 hk2, ← cosetScaleT_eq _ _ _ hk2, Domain.fromCosetToT,
    Domain.ifftToT]
  split_ifs with hblocked
  · simp only [Domain.colOp]
    exact rowsPass_fromCoset _ gInv hk2
  · rfl

/-- **To a coset and off it**: the coefficients of the interpolant. -/
theorem fromCosetToT_toCoset (buf : ℕ → F) {g : F} (hg : g ≠ 0) {k1 k2 : ℕ} (hk1 : k1 < d.n1)
    (hk2 : k2 < d.n2) :
    d.fromCosetToT (d.toCoset buf g) g⁻¹ (k1 * d.n2 + k2) = idft ω d.n buf (k1 + d.n1 * k2) := by
  have hroot : IsPrimitiveRoot ω d.n := hd.n_eq ▸ hd.root
  have hlt : k1 + d.n1 * k2 < d.n := by
    have hmul := mul_add_lt hk2 hk1
    rw [hd.n_eq, mul_comm d.n1 d.n2]
    calc k1 + d.n1 * k2 = k2 * d.n1 + k1 := by ring
      _ < d.n2 * d.n1 := hmul
  have hvals : ∀ i < d.n, d.toCoset buf g i = dft ω d.n (fun k => idft ω d.n buf k * g ^ k) i := by
    intro i hi
    rw [toCoset_eq hd h2 buf g hi, interpolant, eval_ofCoeffs_mul]
  rw [fromCosetToT_eq hd h2 _ _ hk1 hk2, idft_congr hvals, idft_dft hroot _ hlt, mul_assoc,
    ← mul_pow, mul_inv_cancel₀ hg, one_pow, mul_one]

/-! ### Natural order -/

omit h2 in
lemma tToNatural_apply {β : Type} (buf : ℕ → F) (default : β) (f : F → β) {i : ℕ} (hi : i < d.n) :
    d.tToNatural buf default f i = f (buf (i % d.n1 * d.n2 + i / d.n1)) := by
  have hn1 := hd.n1_pos
  have hcol : i / d.n1 < d.n2 := Nat.div_lt_of_lt_mul (by rwa [hd.n_eq] at hi)
  have hplace := transposeMap_apply buf (fun _ => default) d.tile f (Nat.mod_lt i hn1) hcol
  rwa [Nat.div_add_mod'] at hplace

/-- **The transform.** -/
theorem fft_eq (buf : ℕ → F) {i : ℕ} (hi : i < d.n) : d.fft buf i = dft ω d.n buf i := by
  have hn1 := hd.n1_pos
  have hrow : i % d.n1 < d.n1 := Nat.mod_lt i hn1
  have hcol : i / d.n1 < d.n2 := Nat.div_lt_of_lt_mul (by rwa [hd.n_eq] at hi)
  rw [Domain.fft]
  split_ifs with hblocked
  · rw [tToNatural_apply hd _ _ _ hi, id_eq, fftToT_eq hd h2 buf hrow hcol, Nat.mod_add_div]
  · rw [Bool.not_eq_true] at hblocked
    rw [Domain.fftToT, hblocked, if_neg Bool.false_ne_true, hd.fwd,
      plain_eq hd hd.root hblocked buf hi]

/-- **The inverse transform.** -/
theorem ifft_eq (buf : ℕ → F) {i : ℕ} (hi : i < d.n) : d.ifft buf i = idft ω d.n buf i := by
  have hn1 := hd.n1_pos
  have hrow : i % d.n1 < d.n1 := Nat.mod_lt i hn1
  have hcol : i / d.n1 < d.n2 := Nat.div_lt_of_lt_mul (by rwa [hd.n_eq] at hi)
  rw [Domain.ifft]
  split_ifs with hblocked
  · rw [tToNatural_apply hd _ _ _ hi, id_eq, ifftToT_eq hd h2 buf hrow hcol, Nat.mod_add_div]
  · rw [Bool.not_eq_true] at hblocked
    rw [Domain.ifftToT, hblocked, if_neg Bool.false_ne_true, scale_apply, hd.inv,
      plain_eq hd (inverse_root hd) hblocked buf hi, idft_eq_dft_inv hd, mul_comm, hd.n_eq]

end Layout

/-! ### Every domain -/

section Made

variable [DecidableEq F] {R : FftField F} {n1 n2 tile : ℕ}

lemma inverse_eq_some {x y : F} : inverse x = some y ↔ x ≠ 0 ∧ x⁻¹ = y := by
  rw [inverse]
  split_ifs with h <;> simp [h]

lemma le_of_two_pow_le {m k : ℕ} (hle : 2 ^ k ≤ m) (hlt : m < 2 ^ 64) : k ≤ 64 :=
  ((Nat.pow_lt_pow_iff_right (by norm_num)).mp (hle.trans_lt hlt)).le

/-- The odd part of the number of rows is 1, 3 or 9. -/
lemma smooth_of_odd {n : ℕ} (hn : n ≠ 0) (hlt : n < 2 ^ 64)
    (hodd : n >>> trailingZeros n ∈ [1, 3, 9]) : ∃ b k, k ≤ 64 ∧ n = 3 ^ b * 2 ^ k := by
  have hdvd : 2 ^ trailingZeros n ∣ n := pow_padicValNat_dvd
  have hsize : n / 2 ^ trailingZeros n * 2 ^ trailingZeros n = n := Nat.div_mul_cancel hdvd
  have hk : trailingZeros n ≤ 64 :=
    le_of_two_pow_le (Nat.le_of_dvd (Nat.pos_of_ne_zero hn) hdvd) hlt
  rw [Nat.shiftRight_eq_div_pow] at hodd
  simp only [List.mem_cons, List.not_mem_nil, or_false] at hodd
  rcases hodd with hq | hq | hq
  · exact ⟨0, _, hk, by rw [pow_zero, ← hq, hsize]⟩
  · exact ⟨1, _, hk, by rw [pow_one, ← hq, hsize]⟩
  · exact ⟨2, _, hk, by rw [show 3 ^ 2 = 9 from rfl, ← hq, hsize]⟩

/-- **A domain that is made** is on the powers of a root. -/
theorem split_of_withSplit (h : Domain.withSplit R n1 n2 tile = some d) :
    d.n1 = n1 ∧ d.n2 = n2 ∧ d.n = n1 * n2 ∧
      ∃ ω, R.getRootOfUnity (n1 * n2) = some ω ∧ d.Split ω := by
  rw [Domain.withSplit] at h
  obtain ⟨hbad, h⟩ := Option.ite_none_left_eq_some.mp h
  obtain ⟨hbig, h⟩ := Option.ite_none_left_eq_some.mp h
  obtain ⟨hpow, hodd⟩ := not_or.mp hbad
  obtain ⟨ω, hω, h⟩ := Option.bind_eq_some_iff.mp h
  obtain ⟨ωInv, hωInv, h⟩ := Option.bind_eq_some_iff.mp h
  obtain ⟨sizeInv, hsizeInv, h⟩ := Option.bind_eq_some_iff.mp h
  obtain ⟨-, rfl⟩ := inverse_eq_some.mp hωInv
  obtain ⟨-, rfl⟩ := inverse_eq_some.mp hsizeInv
  obtain rfl := Option.some.inj h
  have hn1 : n1 ≠ 0 := by
    rintro rfl
    simp at hodd
  have hn2 : n2 = 2 ^ n2.log2 := by
    rw [Bool.not_eq_false] at hpow
    exact of_decide_eq_true hpow
  have hn2pos : 0 < n2 := by
    rw [hn2]
    positivity
  have hlt := Nat.not_le.mp hbig
  rw [if_neg hn1, not_not] at hodd
  refine ⟨rfl, rfl, rfl, ω, hω, ⟨rfl, ?_, ?_, ?_, R.primitive _ _ hω, rfl, rfl, rfl⟩⟩
  · exact smooth_of_odd hn1 (lt_of_le_of_lt (Nat.le_mul_of_pos_right n1 hn2pos) hlt) hodd
  · refine ⟨n2.log2, le_of_two_pow_le hn2.ge (lt_of_le_of_lt ?_ hlt), hn2⟩
    exact Nat.le_mul_of_pos_left n2 (Nat.pos_of_ne_zero hn1)
  · exact lt_min (lt_of_lt_of_le Nat.one_pos (le_max_right _ _)) hn2pos

lemma withSplit_ne_none {q j k : ℕ} (hq : q ∈ [1, 3, 9]) {ω : F}
    (hroot : R.getRootOfUnity (q * 2 ^ j * 2 ^ k) = some ω) (hlt : q * 2 ^ j * 2 ^ k < 2 ^ 64) :
    ∃ d, Domain.withSplit R (q * 2 ^ j) (2 ^ k) tile = some d := by
  have hq0 : 0 < q := Nat.pos_of_ne_zero (by rintro rfl; simp at hq)
  have hpos : 0 < q * 2 ^ j * 2 ^ k := by positivity
  have hprim := R.primitive _ _ hroot
  have hbad : ¬ (isPowerOfTwo (2 ^ k) = false ∨
      (if q * 2 ^ j = 0 then 0 else (q * 2 ^ j) >>> trailingZeros (q * 2 ^ j)) ∉ [1, 3, 9]) := by
    rw [isPowerOfTwo_pow, if_neg (by positivity), trailingZeros_mul hq, Nat.shiftRight_eq_div_pow,
      Nat.mul_div_cancel _ (by positivity)]
    exact not_or.mpr ⟨Bool.true_eq_false_eq_False, not_not.mpr hq⟩
  rw [Domain.withSplit]
  dsimp only
  rw [if_neg hbad, if_neg (Nat.not_le.mpr hlt), hroot, Option.bind_eq_bind, Option.bind_some,
    inverse, if_neg (ne_zero_of_root hprim hpos), Option.bind_some, inverse,
    if_neg (cast_ne_zero hprim hpos)]
  exact ⟨_, rfl⟩

/-- **Every supported size** has a domain. -/
theorem withSize_ne_none (cfg : FftConfig) {q k : ℕ} (hq : q ∈ [1, 3, 9]) {ω : F}
    (hroot : R.getRootOfUnity (q * 2 ^ k) = some ω) (hlt : q * 2 ^ k < 2 ^ 64) :
    ∃ d, Domain.withSize R (q * 2 ^ k) cfg = some d := by
  have hq0 : 0 < q := Nat.pos_of_ne_zero (by rintro rfl; simp at hq)
  have hk : trailingZeros (q * 2 ^ k / q) = k := by
    rw [Nat.mul_div_cancel_left _ hq0]
    simpa using trailingZeros_mul (show 1 ∈ [1, 3, 9] by simp) k
  rw [Domain.withSize, find_factor hq, Option.bind_eq_bind, Option.bind_some]
  dsimp only
  rw [hk, if_neg (not_not.mpr rfl)]
  split_ifs with hone hlog
  · obtain ⟨rfl, -⟩ := hone
    simpa using @withSplit_ne_none F _ _ R cfg.tile 1 0 k (by simp) ω (by simpa using hroot)
      (by simpa using hlt)
  · simpa using @withSplit_ne_none F _ _ R cfg.tile q 0 k hq ω (by simpa using hroot)
      (by simpa using hlt)
  · have hsplit : q * 2 ^ (k / 2) * 2 ^ (k - k / 2) = q * 2 ^ k := by
      rw [mul_assoc, ← pow_add]
      congr 2
      omega
    exact withSplit_ne_none hq (by rwa [hsplit]) (by rwa [hsplit])

/-- A domain of some size is one of some split. -/
lemma split_of_withSize {n : ℕ} {cfg : FftConfig} (h : Domain.withSize R n cfg = some d) :
    ∃ n1 n2, n1 * n2 = n ∧ Domain.withSplit R n1 n2 cfg.tile = some d := by
  rw [Domain.withSize] at h
  obtain ⟨q, hq, h⟩ := Option.bind_eq_some_iff.mp h
  dsimp only at h
  obtain ⟨hn, h⟩ := Option.ite_none_left_eq_some.mp h
  rw [not_not] at hn
  split_ifs at h with hone hlog
  · exact ⟨1, n, one_mul n, h⟩
  · exact ⟨q, _, hn.symm, h⟩
  · refine ⟨_, _, ?_, h⟩
    rw [mul_assoc, ← pow_add, Nat.add_sub_cancel' (Nat.div_le_self _ 2)]
    exact hn.symm

end Made

/-! ### What a domain computes -/

/-- `w` holds `v` in T-layout. -/
def Domain.InT (d : Domain F) (v w : ℕ → F) : Prop :=
  ∀ k1 < d.n1, ∀ k2 < d.n2, w (k1 * d.n2 + k2) = v (k1 + d.n1 * k2)

/-- The transforms of a domain are those of the powers of `ω`. -/
structure Domain.Exact (d : Domain F) (ω : F) : Prop where
  root : IsPrimitiveRoot ω d.n
  fft : ∀ v, ∀ i < d.n, d.fft v i = ∑ j ∈ range d.n, v j * ω ^ (i * j)
  ifft_fft : ∀ v, ∀ i < d.n, d.ifft (d.fft v) i = v i
  fft_ifft : ∀ v, ∀ i < d.n, d.fft (d.ifft v) i = v i
  fftToT : ∀ v, d.InT (d.fft v) (d.fftToT v)
  ifftToT : ∀ v, d.InT (d.ifft v) (d.ifftToT v)
  fftFromT : ∀ v w, d.InT v w → ∀ i < d.n, d.fftFromT w i = d.fft v i
  ifftFromT : ∀ v w, d.InT v w → ∀ i < d.n, d.ifftFromT w i = d.ifft v i
  cosetScaleT : ∀ v w g, d.InT v w → d.InT (fun i => v i * g ^ i) (d.cosetScaleT w g)
  toCoset : ∀ (P : F[X]) (v : ℕ → F) (g : F), P.degree < d.n → (∀ i < d.n, v i = P.eval (ω ^ i)) →
    ∀ i < d.n, d.toCoset v g i = P.eval (g * ω ^ i)
  fromCosetToT : ∀ (P : F[X]) (v : ℕ → F) (g : F), g ≠ 0 → P.degree < d.n →
    (∀ i < d.n, v i = P.eval (g * ω ^ i)) → d.InT P.coeff (d.fromCosetToT v g⁻¹)
  /-- A block of whole columns, as one worker gets it. -/
  colsKernel : d.isBlocked = true → ∀ (op : ColOp) (buf block : ℕ → F) (b c0 : ℕ), c0 + b ≤ d.n2 →
    (∀ r < d.n1, ∀ j < b, block (r * b + j) = buf (r * d.n2 + (c0 + j))) →
    ∀ r < d.n1, ∀ j < b, d.colsKernel block b c0 op (r * b + j)
      = d.colPass (d.colOp op).1 (d.colOp op).2.1 (d.colOp op).2.2 buf (r * d.n2 + (c0 + j))
  /-- A block of whole rows. -/
  rowsKernel : ∀ (stages : List (RowStage F)) (buf rows : ℕ → F) (firstRow count : ℕ),
    (∀ i < count, ∀ c < d.n2, rows (i * d.n2 + c) = buf ((firstRow + i) * d.n2 + c)) →
    ∀ i < count, ∀ c < d.n2, d.rowsKernel rows firstRow stages (i * d.n2 + c)
      = d.rowsPass buf stages ((firstRow + i) * d.n2 + c)

section Summary

variable (hd : d.Split ω) (h2 : (2 : F) ≠ 0)
include hd

/-- What an index holds in T-layout. -/
lemma InT_apply {v w : ℕ → F} (h : d.InT v w) {i : ℕ} (hi : i < d.n) :
    w (i % d.n1 * d.n2 + i / d.n1) = v i := by
  have hcol : i / d.n1 < d.n2 := Nat.div_lt_of_lt_mul (by rwa [hd.n_eq] at hi)
  rw [h _ (Nat.mod_lt i hd.n1_pos) _ hcol, Nat.mod_add_div]

lemma index_lt {k1 k2 : ℕ} (hk1 : k1 < d.n1) (hk2 : k2 < d.n2) : k1 + d.n1 * k2 < d.n := by
  have hmul := mul_add_lt hk2 hk1
  rw [hd.n_eq, mul_comm d.n1 d.n2]
  calc k1 + d.n1 * k2 = k2 * d.n1 + k1 := by ring
    _ < d.n2 * d.n1 := hmul

include h2

/-- Coefficients off the coset of `g`. -/
lemma fromCosetToT_coeff {P : F[X]} (hP : P.degree < d.n) {v : ℕ → F} {g : F} (hg : g ≠ 0)
    (hv : ∀ i < d.n, v i = P.eval (g * ω ^ i)) {k1 k2 : ℕ} (hk1 : k1 < d.n1) (hk2 : k2 < d.n2) :
    d.fromCosetToT v g⁻¹ (k1 * d.n2 + k2) = P.coeff (k1 + d.n1 * k2) := by
  have hroot : IsPrimitiveRoot ω d.n := hd.n_eq ▸ hd.root
  have hlt := index_lt hd hk1 hk2
  have hvals : ∀ i < d.n, v i = d.toCoset (fun j => P.eval (ω ^ j)) g i := by
    intro i hi
    rw [hv i hi, toCoset_eq hd h2 _ g hi, ← eq_interpolant hroot hP fun _ _ => rfl]
  have hcoeff : P.coeff (k1 + d.n1 * k2)
      = idft ω d.n (fun j => P.eval (ω ^ j)) (k1 + d.n1 * k2) := by
    conv_lhs => rw [eq_interpolant hroot hP fun _ _ => rfl]
    rw [interpolant, coeff_ofCoeffs, if_pos hlt]
  rw [hcoeff, ← fromCosetToT_toCoset hd h2 _ hg hk1 hk2, fromCosetToT_eq hd h2 _ _ hk1 hk2,
    fromCosetToT_eq hd h2 _ _ hk1 hk2, idft_congr hvals]

/-- **All of it.** -/
theorem Domain.Split.exact : d.Exact ω := by
  have hroot : IsPrimitiveRoot ω d.n := hd.n_eq ▸ hd.root
  exact {
    root := hroot
    fft := fun v i hi => by
      rw [fft_eq hd h2 v hi, dft]
      exact sum_congr rfl fun j _ => by rw [smul_eq_mul, mul_comm, pow_mul]
    ifft_fft := fun v i hi => by
      rw [ifft_eq hd h2 _ hi, idft_congr fun j hj => fft_eq hd h2 v hj, idft_dft hroot v hi]
    fft_ifft := fun v i hi => by
      rw [fft_eq hd h2 _ hi, dft_congr fun j hj => ifft_eq hd h2 v hj, dft_idft hroot v hi]
    fftToT := fun v k1 hk1 k2 hk2 => by
      rw [fftToT_eq hd h2 v hk1 hk2, fft_eq hd h2 v (index_lt hd hk1 hk2)]
    ifftToT := fun v k1 hk1 k2 hk2 => by
      rw [ifftToT_eq hd h2 v hk1 hk2, ifft_eq hd h2 v (index_lt hd hk1 hk2)]
    fftFromT := fun v w h i hi => by
      rw [fftFromT_eq hd h2 w hi, fft_eq hd h2 v hi]
      exact dft_congr (fun j hj => InT_apply hd h hj) i
    ifftFromT := fun v w h i hi => by
      rw [ifftFromT_eq hd h2 w hi, ifft_eq hd h2 v hi]
      exact idft_congr (fun j hj => InT_apply hd h hj) i
    cosetScaleT := fun v w g h k1 hk1 k2 hk2 => by
      rw [cosetScaleT_eq w g k1 hk2, h k1 hk1 k2 hk2]
    toCoset := fun P v g hP hv i hi => by
      rw [toCoset_eq hd h2 v g hi, ← eq_interpolant hroot hP fun i hi => (hv i hi).symm]
    fromCosetToT := fun P v g hg hP hv k1 hk1 k2 hk2 => fromCosetToT_coeff hd h2 hP hg hv hk1 hk2
    colsKernel := fun hblocked op buf block b c0 hfits hblock r hr j hj => by
      cases op with
      | inversePost =>
          simp only [Domain.colOp, hd.inv]
          exact colsKernel_eq hd hblocked h2 (inverse_root hd) (by rw [Domain.colOp, hd.inv]) hfits
            hblock hr hj
      | forwardPre =>
          simp only [Domain.colOp, hd.fwd]
          exact colsKernel_eq hd hblocked h2 hd.root (by rw [Domain.colOp, hd.fwd]) hfits hblock hr
            hj
    rowsKernel := fun stages buf rows firstRow count hrows i hi c hc =>
      rowsKernel_eq hd firstRow stages (hrows i hi) hc }

/-- **The transforms of the quotient** are the blocked ones. -/
theorem qap_apply {Q : Groth16.Domain F} (h1 : Q.n1 = d.n1) (hn2 : Q.n2 = d.n2)
    (hω : Q.omega = ω) (buf : List F) (g : F) {p : ℕ} (hp : p < d.n) :
    entry (Q.ifftToT buf) p = d.ifftToT (entry buf) p ∧
      entry (Q.fftFromT buf) p = d.fftFromT (entry buf) p ∧
      entry (Q.toCoset buf g) p = d.toCoset (entry buf) g p ∧
      entry (Q.fromCosetToT buf g) p = d.fromCosetToT (entry buf) g p := by
  have hn : Q.n = d.n := by rw [Groth16.Domain.n, h1, hn2, hd.n_eq]
  have hinv : ∀ p < d.n, entry (Q.ifftToT buf) p = d.ifftToT (entry buf) p := by
    intro p hp
    obtain ⟨k1, hk1, k2, hk2, rfl⟩ := exists_row_column hd hp
    rw [ifftToT_eq hd h2 _ hk1 hk2, Groth16.Domain.ifftToT, hn, entry_map_range _ hp, hω,
      Groth16.Domain.index, h1, hn2, div_of_lt hk2, mod_of_lt hk2]
  refine ⟨hinv p hp, ?_, ?_, ?_⟩
  · rw [fftFromT_eq hd h2 _ hp, Groth16.Domain.fftFromT, hn, entry_map_range _ hp, hω]
    refine dft_congr (fun j _ => ?_) p
    rw [Groth16.Domain.position, h1, hn2]
  · rw [entry_toCoset Q buf g (hn ▸ hp), toCoset_eq hd h2 _ g hp, hn, hω]
  · obtain ⟨k1, hk1, k2, hk2, rfl⟩ := exists_row_column hd hp
    rw [fromCosetToT_eq hd h2 _ g hk1 hk2, Groth16.Domain.fromCosetToT, Groth16.Domain.cosetScaleT,
      hn, entry_map_range _ hp, hinv _ hp, ifftToT_eq hd h2 _ hk1 hk2, Groth16.Domain.index, h1,
      hn2, div_of_lt hk2, mod_of_lt hk2]

end Summary

/-- **The blocked transform is the Fourier transform.** Every supported size with a root of unity
has a domain, whatever the configuration, and the transforms of every domain are those of its
root. -/
theorem blocked_fft_exact [DecidableEq F] (h2 : (2 : F) ≠ 0) (R : FftField F) :
    (∀ q ∈ [1, 3, 9], ∀ k ω cfg, R.getRootOfUnity (q * 2 ^ k) = some ω → q * 2 ^ k < 2 ^ 64 →
      ∃ d, Domain.withSize R (q * 2 ^ k) cfg = some d) ∧
    (∀ n cfg d, Domain.withSize R n cfg = some d →
      ∃ n1 n2, n1 * n2 = n ∧ Domain.withSplit R n1 n2 cfg.tile = some d) ∧
    (∀ n1 n2 tile d, Domain.withSplit R n1 n2 tile = some d →
      d.n1 = n1 ∧ d.n2 = n2 ∧ d.n = n1 * n2 ∧
        ∃ ω, R.getRootOfUnity (n1 * n2) = some ω ∧ d.Exact ω) := by
  refine ⟨fun q hq k ω cfg hroot hlt => withSize_ne_none cfg hq hroot hlt,
    fun n cfg d h => split_of_withSize h, fun n1 n2 tile d h => ?_⟩
  obtain ⟨h1, h2', hn, ω, hω, hd⟩ := split_of_withSplit h
  exact ⟨h1, h2', hn, ω, hω, hd.exact h2⟩

instance fact_prime_thirtySeven : Fact (Nat.Prime 37) := ⟨by decide⟩

/-- A root of one of order 18 modulo `37`. -/
def fieldOfThirtySeven : FftField (ZMod 37) where
  getRootOfUnity n := if n = 18 then some 4 else none
  GENERATOR := 2
  primitive n ω h := by
    obtain ⟨rfl, rfl⟩ : n = 18 ∧ 4 = ω := by simpa using h
    exact IsPrimitiveRoot.mk_of_lt 4 (by decide) (by decide) fun l hpos hlt => by
      interval_cases l <;> decide
  generator_ne_zero := by decide
  off_domain n ω _ h := by
    obtain ⟨rfl, -⟩ : n = 18 ∧ 4 = ω := by simpa using h
    decide

/-- Nine rows of two. -/
theorem blocked_fft_exact_nine :
    ∃ d, Domain.withSize fieldOfThirtySeven 18 ⟨5, 0⟩ = some d ∧ d.Exact 4 := by
  obtain ⟨hsize, hsplit, hexact⟩ := blocked_fft_exact (by decide : (2 : ZMod 37) ≠ 0)
    fieldOfThirtySeven
  obtain ⟨d, hd⟩ := hsize 9 (by decide) 1 4 ⟨5, 0⟩ rfl (by decide)
  obtain ⟨n1, n2, hn, hmade⟩ := hsplit _ _ _ hd
  obtain ⟨-, -, -, ω, hω, h⟩ := hexact n1 n2 _ d hmade
  rw [hn] at hω
  obtain rfl : 4 = ω := Option.some.inj hω
  exact ⟨d, hd, h⟩

theorem qap_apply_nine : ∃ d, Domain.withSize fieldOfThirtySeven 18 ⟨5, 0⟩ = some d ∧
    ∃ Q : Groth16.Domain (ZMod 37), ∀ (buf : List (ZMod 37)) (g : ZMod 37),
      entry (Q.ifftToT buf) 7 = d.ifftToT (entry buf) 7 ∧
        entry (Q.fftFromT buf) 7 = d.fftFromT (entry buf) 7 ∧
        entry (Q.toCoset buf g) 7 = d.toCoset (entry buf) g 7 ∧
        entry (Q.fromCosetToT buf g) 7 = d.fromCosetToT (entry buf) g 7 := by
  obtain ⟨d, hd⟩ := withSize_ne_none (R := fieldOfThirtySeven) ⟨5, 0⟩ (by decide : 9 ∈ [1, 3, 9])
    (rfl : fieldOfThirtySeven.getRootOfUnity (9 * 2 ^ 1) = some 4) (by decide)
  obtain ⟨n1, n2, hn, hmade⟩ := split_of_withSize hd
  obtain ⟨-, -, hlen, ω, hω, hsplit⟩ := split_of_withSplit hmade
  rw [hn] at hω hlen
  obtain rfl : 4 = ω := Option.some.inj hω
  have hpos : 0 < d.n1 * d.n2 := by
    rw [← hsplit.n_eq, hlen]
    decide
  exact ⟨d, hd, ⟨d.n1, d.n2, 4, hpos, hsplit.root⟩, fun buf g =>
    qap_apply hsplit (by decide) rfl rfl rfl buf g (by rw [hlen]; decide)⟩

end Fft

end XarkCircuit
