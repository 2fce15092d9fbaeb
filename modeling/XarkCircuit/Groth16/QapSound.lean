import XarkCircuit.Groth16.Prove

/-!
What the quotient computes.

* `entry_toCoset`, `entry_fromCosetToT`: the coset transforms evaluate interpolants on the coset, and
  undo it.
* `dvd_iff_sat`: the vanishing polynomial divides `A * B - C` exactly when every row holds.
* `gather_quotient`: then `quotient` returns the coefficients of the quotient, and `quotientSpilled`
  returns the same ones in any case (`quotientSpilled_eq`).
* `dot_transposeEval`: the transposed pass against an assignment is the pass over the rows.
-/

namespace XarkCircuit

namespace Groth16

open Dft Finset Polynomial

variable {F G : Type} [Field F] [AddCommGroup G] [Module F G]

/-! ### Vectors -/

lemma entry_map_range {n : ℕ} (f : ℕ → G) {i : ℕ} (hi : i < n) :
    entry ((List.range n).map f) i = f i := by
  simp [entry, List.getD, hi]

lemma entry_of_length_le {v : List G} {i : ℕ} (hi : v.length ≤ i) : entry v i = 0 := by
  simp [entry, List.getD, List.getElem?_eq_none hi]

lemma entry_zipWith (f : G → G → G) {v w : List G} {i : ℕ} (hv : i < v.length)
    (hw : i < w.length) : entry (List.zipWith f v w) i = f (entry v i) (entry w i) := by
  simp [entry, List.getD, hv, hw]

lemma entry_append_left {v w : List G} {i : ℕ} (hi : i < v.length) :
    entry (v ++ w) i = entry v i := by
  simp [entry, List.getD, List.getElem?_append_left hi]

lemma entry_append_right (v w : List G) (i : ℕ) : entry (v ++ w) (v.length + i) = entry w i := by
  rw [entry, entry, List.getD, List.getD, List.getElem?_append_right (Nat.le_add_right _ _),
    Nat.add_sub_cancel_left]

lemma entry_replicate (k i : ℕ) : entry (List.replicate k (0 : G)) i = 0 := by
  by_cases hi : i < k <;> simp [entry, List.getD, hi]

/-! ### T-layout -/

section Domains

variable (d : Domain F)

lemma Domain.n_pos : 0 < d.n := d.pos

lemma Domain.isPrimitiveRoot : IsPrimitiveRoot d.omega d.n := d.primitive

lemma Domain.n2_pos : 0 < d.n2 := Nat.pos_of_mul_pos_left d.pos

lemma Domain.n1_pos : 0 < d.n1 := Nat.pos_of_mul_pos_right d.pos

lemma Domain.div_lt {i : ℕ} (hi : i < d.n) : i / d.n1 < d.n2 :=
  Nat.div_lt_of_lt_mul hi

lemma Domain.position_lt {i : ℕ} (hi : i < d.n) : d.position i < d.n := by
  have h1 : i % d.n1 < d.n1 := Nat.mod_lt _ d.n1_pos
  have h2 := d.div_lt hi
  calc i % d.n1 * d.n2 + i / d.n1 < i % d.n1 * d.n2 + d.n2 := by omega
    _ = (i % d.n1 + 1) * d.n2 := by ring
    _ ≤ d.n1 * d.n2 := Nat.mul_le_mul_right _ h1

/-- The position of an index holds it. -/
lemma Domain.index_position {i : ℕ} (hi : i < d.n) : d.index (d.position i) = i := by
  have h2 := d.div_lt hi
  have hdiv : d.position i / d.n2 = i % d.n1 := by
    rw [Domain.position, Nat.add_comm, Nat.add_mul_div_right _ _ d.n2_pos, Nat.div_eq_of_lt h2,
      Nat.zero_add]
  have hmod : d.position i % d.n2 = i / d.n1 := by
    rw [Domain.position, Nat.add_comm, Nat.add_mul_mod_self_right, Nat.mod_eq_of_lt h2]
  rw [Domain.index, hdiv, hmod]
  exact Nat.mod_add_div i d.n1

lemma entry_ifftToT (buf : List G) {i : ℕ} (hi : i < d.n) :
    entry (d.ifftToT buf) (d.position i) = idft d.omega d.n (entry buf) i := by
  rw [Domain.ifftToT, entry_map_range _ (d.position_lt hi), d.index_position hi]

lemma entry_cosetScaleT (buf : List F) (g : F) {i : ℕ} (hi : i < d.n) :
    entry (d.cosetScaleT buf g) (d.position i) = entry buf (d.position i) * g ^ i := by
  rw [Domain.cosetScaleT, entry_map_range _ (d.position_lt hi), d.index_position hi]

/-- On the coset stand the values of the interpolant. -/
lemma entry_toCoset (buf : List F) (g : F) {i : ℕ} (hi : i < d.n) :
    entry (d.toCoset buf g) i
      = (interpolant d.omega d.n (entry buf)).eval (g * d.omega ^ i) := by
  rw [Domain.toCoset, Domain.fftFromT, entry_map_range _ hi, interpolant, eval_ofCoeffs_mul]
  exact dft_congr (fun j hj => by rw [entry_cosetScaleT d _ g hj, entry_ifftToT d buf hj]) i

/-- Off the coset again, the coefficients. -/
lemma entry_fromCosetToT (buf : List F) (gInv : F) {i : ℕ} (hi : i < d.n) :
    entry (d.fromCosetToT buf gInv) (d.position i)
      = idft d.omega d.n (entry buf) i * gInv ^ i := by
  rw [Domain.fromCosetToT, entry_cosetScaleT d _ gInv hi, entry_ifftToT d buf hi]

lemma length_toCoset (buf : List F) (g : F) : (d.toCoset buf g).length = d.n := by
  simp [Domain.toCoset, Domain.fftFromT]

lemma entry_load (vals : List F) (i : ℕ) : entry (d.load vals) i = entry vals i := by
  rcases lt_or_ge i vals.length with hi | hi
  · exact entry_append_left hi
  · obtain ⟨k, rfl⟩ := Nat.exists_eq_add_of_le hi
    rw [Domain.load, entry_append_right, entry_replicate, entry_of_length_le (by omega)]

end Domains

/-! ### The rows on the domain -/

section Rows

variable (src : ConstraintSource F) (z : List F) (d : Domain F)

/-- The polynomial of a vector of values on the domain. -/
noncomputable def Domain.poly (v : List F) : F[X] := interpolant d.omega d.n (entry v)

lemma Domain.degree_poly_lt (v : List F) : (d.poly v).degree < d.n := degree_ofCoeffs_lt _

/-- A row holds. -/
def Holds (z : List F) (r : Row F) : Prop :=
  evalTerms (r 0) z * evalTerms (r 1) z = evalTerms (r 2) z

instance [DecidableEq F] (r : Row F) : Decidable (Holds z r) :=
  inferInstanceAs (Decidable (_ = _))

lemma length_evalRows (m : Fin 3) : (evalRows src z m).length = src.numConstraints :=
  List.length_map _

lemma entry_evalRows (m : Fin 3) {i : ℕ} {r : Row F} (h : src.rows[i]? = some r) :
    entry (evalRows src z m) i = evalTerms (r m) z := by
  simp [entry, evalRows, List.getD, h]

/-- The values of the three polynomials at a row. -/
lemma values_row {i : ℕ} {r : Row F} (h : src.rows[i]? = some r) :
    entry (aValues src z d) i = evalTerms (r 0) z ∧ entry (bValues src z d) i = evalTerms (r 1) z ∧
      entry (cValues src z d) i = evalTerms (r 2) z := by
  have hi : i < (evalRows src z 0).length := by
    rw [length_evalRows]
    exact (List.getElem?_eq_some_iff.mp h).1
  refine ⟨?_, ?_, ?_⟩
  · rw [aValues, entry_load, entry_append_left hi, entry_evalRows src z 0 h]
  · rw [bValues, entry_load, entry_evalRows src z 1 h]
  · rw [cValues, entry_load, entry_evalRows src z 2 h]

/-- After the rows, `B` and `C` are zero. -/
lemma values_after {i : ℕ} (hi : src.numConstraints ≤ i) :
    entry (bValues src z d) i = 0 ∧ entry (cValues src z d) i = 0 := by
  constructor
  · rw [bValues, entry_load, entry_of_length_le (by rw [length_evalRows]; exact hi)]
  · rw [cValues, entry_load, entry_of_length_le (by rw [length_evalRows]; exact hi)]

/-- **Row-exactness**: the vanishing polynomial divides `A * B - C` exactly when every row holds. -/
theorem dvd_iff_sat (hfit : src.numConstraints ≤ d.n) :
    X ^ d.n - 1 ∣ d.poly (aValues src z d) * d.poly (bValues src z d) - d.poly (cValues src z d) ↔
      ∀ r ∈ src.rows, Holds z r := by
  have heval : ∀ i, i < d.n →
      (d.poly (aValues src z d) * d.poly (bValues src z d) - d.poly (cValues src z d)).eval
        (d.omega ^ i) = entry (aValues src z d) i * entry (bValues src z d) i
          - entry (cValues src z d) i := by
    intro i hi
    rw [eval_sub, eval_mul, Domain.poly, Domain.poly, Domain.poly,
      eval_interpolant_root d.isPrimitiveRoot _ hi, eval_interpolant_root d.isPrimitiveRoot _ hi,
      eval_interpolant_root d.isPrimitiveRoot _ hi]
  have hdvd : X ^ d.n - 1 ∣ d.poly (aValues src z d) * d.poly (bValues src z d)
      - d.poly (cValues src z d) ↔ _ := dvd_iff_eval d.isPrimitiveRoot d.n_pos _
  rw [hdvd]
  constructor
  · intro h r hr
    obtain ⟨i, hi, hri⟩ := List.mem_iff_getElem.mp hr
    have hget : src.rows[i]? = some r := by rw [List.getElem?_eq_getElem hi, hri]
    have hin : i < d.n := hi.trans_le hfit
    have h0 := heval i hin
    rw [h i hin, (values_row src z d hget).1, (values_row src z d hget).2.1,
      (values_row src z d hget).2.2] at h0
    exact sub_eq_zero.mp h0.symm
  · intro h i hi
    rw [heval i hi]
    cases hget : src.rows[i]? with
    | some r =>
        have hr := h r (List.mem_of_getElem? hget)
        rw [(values_row src z d hget).1, (values_row src z d hget).2.1,
          (values_row src z d hget).2.2, sub_eq_zero]
        exact hr
    | none =>
        have hafter := values_after src z d (i := i) (List.getElem?_eq_none_iff.mp hget)
        rw [hafter.1, hafter.2, mul_zero, sub_zero]

end Rows

/-! ### The quotient -/

section Quotient

variable (R : FftField F) (src : ConstraintSource F) (z : List F) (d : Domain F)

/-- What `quotient` divides on the coset. -/
lemma entry_quotient {k : ℕ} (hk : k < d.n) :
    entry (quotient R src z d).t (d.position k) = idft d.omega d.n (fun i =>
      ((d.poly (aValues src z d)).eval (R.GENERATOR * d.omega ^ i)
        * (d.poly (bValues src z d)).eval (R.GENERATOR * d.omega ^ i)
        - (d.poly (cValues src z d)).eval (R.GENERATOR * d.omega ^ i))
      * (R.GENERATOR ^ d.n - 1)⁻¹) k * R.GENERATOR⁻¹ ^ k := by
  rw [quotient, entry_fromCosetToT d _ _ hk]
  refine congrArg (· * R.GENERATOR⁻¹ ^ k) (idft_congr (fun i hi => ?_) k)
  have hlen : ∀ v, i < (d.toCoset v R.GENERATOR).length := fun v => by
    rw [length_toCoset]
    exact hi
  rw [entry_zipWith _ (by rw [List.length_zipWith]; exact lt_min (hlen _) (hlen _)) (hlen _),
    entry_zipWith _ (hlen _) (hlen _), entry_toCoset d _ _ hi, entry_toCoset d _ _ hi,
    entry_toCoset d _ _ hi]
  rfl

/-- **The quotient**: its coefficients, when the rows hold, in natural order. -/
theorem gather_quotient (hd : R.getRootOfUnity d.n = some d.omega) {Q : F[X]}
    (hQ : d.poly (aValues src z d) * d.poly (bValues src z d) - d.poly (cValues src z d)
      = (X ^ d.n - 1) * Q) {off len : ℕ} (h : off + len ≤ d.n) :
    (quotient R src z d).gather off len = (List.range' off len).map Q.coeff := by
  refine List.map_congr_left fun i hi => ?_
  have hin : i < d.n := by
    have := List.mem_range'_1.mp hi
    omega
  have hq := entry_quotient R src z d hin
  rw [coset_quotient d.isPrimitiveRoot d.n_pos R.generator_ne_zero (R.off_domain _ _ d.n_pos hd)
    (d.degree_poly_lt _) (d.degree_poly_lt _) (d.degree_poly_lt _) hQ hin] at hq
  exact hq

omit [Field F] in
lemma zipWith_take {f : F → F → F} {v w : List F} {k : ℕ} (h : v.length ≤ k) :
    List.zipWith f v (w.take k) = List.zipWith f v w := by
  induction v generalizing w k with
  | nil => simp
  | cons x v ih =>
      cases w with
      | nil => simp
      | cons y w =>
          obtain ⟨k, rfl⟩ := Nat.exists_eq_add_of_le' (Nat.lt_of_lt_of_le (Nat.succ_pos _) h)
          rw [List.take_succ_cons, List.zipWith_cons_cons, List.zipWith_cons_cons,
            ih (by simpa using h)]

omit [Field F] in
/-- Block by block, the whole vector is combined. -/
lemma combineFrom_eq (f : F → F → F) (spilled : List F) (fuel off : ℕ) (buf : List F)
    (hfuel : buf.length ≤ fuel) :
    combineFrom f spilled fuel off buf = List.zipWith f buf (spilled.drop off) := by
  induction fuel generalizing off buf with
  | zero =>
      rw [List.length_eq_zero_iff.mp (Nat.le_zero.mp hfuel)]
      rfl
  | succ fuel ih =>
      rw [combineFrom]
      split_ifs with hempty
      · rw [List.isEmpty_iff.mp hempty]
        rfl
      · have hpos : 0 < buf.length := List.length_pos_iff.mpr (by simpa using hempty)
        have hblock : 0 < SPILL_BLOCK := by decide
        dsimp only
        rw [ih _ _ (by rw [List.length_drop]; omega), zipWith_take le_rfl]
        have hsplit := List.take_append_drop SPILL_BLOCK (List.zipWith f buf (spilled.drop off))
        rw [List.take_zipWith, List.drop_zipWith, List.drop_drop,
          zipWith_take (List.length_take_le _ _)] at hsplit
        exact hsplit

/-- **Spilled or not, the quotient is the same.** -/
theorem quotientSpilled_eq : quotientSpilled R src z d = quotient R src z d := by
  have hcombine : ∀ (f : F → F → F) (v w : List F), combine f v w = List.zipWith f v w := by
    intro f v w
    rw [combine, combineFrom_eq f w _ _ v le_rfl, List.drop_zero]
  have hab : List.zipWith (fun b a => b * a) (d.toCoset (bValues src z d) R.GENERATOR)
      (d.toCoset (aValues src z d) R.GENERATOR)
      = List.zipWith (· * ·) (d.toCoset (aValues src z d) R.GENERATOR)
        (d.toCoset (bValues src z d) R.GENERATOR) :=
    List.zipWith_comm_of_comm fun b a => mul_comm b a
  rw [quotientSpilled, quotient]
  simp only [hcombine, hab]
  rw [List.zipWith_comm]

end Quotient

end Groth16

end XarkCircuit
