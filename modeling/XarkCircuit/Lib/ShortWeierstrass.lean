import XarkCircuit.Lib.Instances
import Mathlib.AlgebraicGeometry.EllipticCurve.Affine.Point
import Mathlib.GroupTheory.OrderOfElement

/-!
Affine coordinates on `y² = x³ + a x + b`.

* `coords` gives the coordinates of a point, `none` at infinity.
* `third` is the third point of a line of slope `l`, mirrored. `coords_add_chord` and
  `coords_add_tangent`: with the right slope it is the sum; `add_eq_zero`: the points that have
  no such slope are opposite. `affineAdd` is the sum in coordinates.
* `cusp` is a point of order `p` on a cusp in characteristic `p` (`addOrderOf_cusp`).
-/

namespace ShortWeierstrass

variable {F : Type*} [Field F] {a b : F}

/-- `y² = x³ + a x + b`. -/
abbrev curve (a b : F) : WeierstrassCurve.Affine F := ⟨0, 0, 0, a, b⟩

/-- The coordinates of a point. -/
def coords : (curve a b).Point → Option (F × F)
  | .zero => none
  | .some x y _ => some (x, y)

@[simp] lemma coords_zero : coords (0 : (curve a b).Point) = none := rfl

lemma coords_eq_none {P : (curve a b).Point} : coords P = none ↔ P = 0 := by
  cases P with
  | zero => exact iff_of_true rfl rfl
  | some x y h => simp [coords]

lemma exists_coords {P : (curve a b).Point} (hP : P ≠ 0) : ∃ x y, coords P = some (x, y) := by
  cases P with
  | zero => exact absurd rfl hP
  | some x y h => exact ⟨x, y, rfl⟩

lemma coords_injective : Function.Injective (coords (a := a) (b := b)) := by
  rintro (_ | ⟨x, y, h⟩) (_ | ⟨x', y', h'⟩) heq
  · rfl
  · cases heq
  · cases heq
  · cases heq
    rfl

lemma negY_eq (x y : F) : (curve a b).negY x y = -y := by
  simp [WeierstrassCurve.Affine.negY]

lemma coords_neg (P : (curve a b).Point) : coords (-P) = (coords P).map fun c => (c.1, -c.2) := by
  cases P with
  | zero => rfl
  | some x y h =>
      rw [WeierstrassCurve.Affine.Point.neg_some]
      simp [coords]

/-! ### Sums -/

/-- The mirror image of the third point on the line of slope `l` through `(x₁, y₁)` and a point
over `x₂`. -/
def third (l x₁ y₁ x₂ : F) : F × F :=
  let x := l ^ 2 - x₁ - x₂
  (x, l * (x₁ - x) - y₁)

lemma addXY_eq (l x₁ y₁ x₂ : F) :
    ((curve a b).addX x₁ x₂ l, (curve a b).addY x₁ x₂ y₁ l) = third l x₁ y₁ x₂ := by
  simp only [WeierstrassCurve.Affine.addX, WeierstrassCurve.Affine.addY,
    WeierstrassCurve.Affine.negAddY, WeierstrassCurve.Affine.negY, third]
  refine Prod.ext ?_ ?_ <;> ring

variable [DecidableEq F] {P Q : (curve a b).Point} {x₁ y₁ x₂ y₂ : F}

/-- **The chord.** -/
theorem coords_add_chord (hP : coords P = some (x₁, y₁)) (hQ : coords Q = some (x₂, y₂))
    (hx : x₁ ≠ x₂) : coords (P + Q) = some (third ((y₂ - y₁) * (x₂ - x₁)⁻¹) x₁ y₁ x₂) := by
  cases P with
  | zero => cases hP
  | some x₁' y₁' h₁ =>
      cases Q with
      | zero => cases hQ
      | some x₂' y₂' h₂ =>
          cases hP
          cases hQ
          have hslope : (curve a b).slope x₁ x₂ y₁ y₂ = (y₂ - y₁) * (x₂ - x₁)⁻¹ := by
            rw [WeierstrassCurve.Affine.slope_of_X_ne hx, ← neg_sub y₂, ← neg_sub x₂,
              neg_div_neg_eq, div_eq_mul_inv]
          rw [WeierstrassCurve.Affine.Point.add_of_X_ne hx, ← addXY_eq (a := a) (b := b), ← hslope]
          rfl

/-- **The tangent.** -/
theorem coords_add_tangent (h2 : (2 : F) ≠ 0) (hP : coords P = some (x₁, y₁)) (hy : y₁ ≠ 0) :
    coords (P + P) = some (third ((3 * x₁ ^ 2 + a) * (2 * y₁)⁻¹) x₁ y₁ x₁) := by
  cases P with
  | zero => cases hP
  | some x₁' y₁' h₁ =>
      cases hP
      have hne : y₁ ≠ (curve a b).negY x₁ y₁ := by
        rw [negY_eq]
        intro heq
        have h0 : 2 * y₁ = 0 := by linear_combination heq
        exact hy ((mul_eq_zero.mp h0).resolve_left h2)
      have hslope : (curve a b).slope x₁ x₁ y₁ y₁ = (3 * x₁ ^ 2 + a) * (2 * y₁)⁻¹ := by
        rw [WeierstrassCurve.Affine.slope_of_Y_ne rfl hne, negY_eq, div_eq_mul_inv]
        congr 1 <;> ring
      rw [WeierstrassCurve.Affine.Point.add_self_of_Y_ne hne, ← addXY_eq (a := a) (b := b),
        ← hslope]
      rfl

omit [DecidableEq F] in
/-- Over one `x` there are a point and its opposite. -/
lemma eq_or_eq_neg (hP : coords P = some (x₁, y₁)) (hQ : coords Q = some (x₁, y₂)) :
    P = Q ∨ P = -Q := by
  cases P with
  | zero => cases hP
  | some x₁' y₁' h₁ =>
      cases Q with
      | zero => cases hQ
      | some x₂' y₂' h₂ =>
          cases hP
          cases hQ
          exact WeierstrassCurve.Affine.Point.X_eq_iff.mp rfl

/-- **Opposite points**: one `x`, and not the same `y`, or both `y` zero. -/
theorem add_eq_zero (hP : coords P = some (x₁, y₁)) (hQ : coords Q = some (x₁, y₂))
    (hy : ¬ (y₁ = y₂ ∧ y₁ ≠ 0)) : P + Q = 0 := by
  rcases eq_or_eq_neg hP hQ with rfl | rfl
  · -- the same point twice, with `y = 0`: it is its own opposite
    have hyy : y₁ = y₂ := (Prod.mk.inj (Option.some.inj (hP.symm.trans hQ))).2
    have h0 : y₁ = 0 := by
      by_contra hne
      exact hy ⟨hyy, hne⟩
    have hneg : -P = P := by
      refine coords_injective ?_
      rw [coords_neg, hP, h0]
      simp
    calc P + P = P + -P := by rw [hneg]
      _ = 0 := add_neg_cancel P
  · exact neg_add_cancel Q

/-- The sum in coordinates. -/
def affineAdd (a : F) : Option (F × F) → Option (F × F) → Option (F × F)
  | none, q => q
  | p, none => p
  | some (x₁, y₁), some (x₂, y₂) =>
      if x₁ ≠ x₂ then some (third ((y₂ - y₁) * (x₂ - x₁)⁻¹) x₁ y₁ x₂)
      else if y₁ = y₂ ∧ y₁ ≠ 0 then some (third ((3 * x₁ ^ 2 + a) * (2 * y₁)⁻¹) x₁ y₁ x₂)
      else none

/-- **The sum in coordinates** is the sum. -/
theorem affineAdd_coords (h2 : (2 : F) ≠ 0) (P Q : (curve a b).Point) :
    affineAdd a (coords P) (coords Q) = coords (P + Q) := by
  by_cases hP : P = 0
  · rw [hP, zero_add, coords_zero, affineAdd]
  by_cases hQ : Q = 0
  · obtain ⟨x₁, y₁, hx⟩ := exists_coords hP
    rw [hQ, add_zero, coords_zero, hx, affineAdd]
    simp
  obtain ⟨x₁, y₁, h₁⟩ := exists_coords hP
  obtain ⟨x₂, y₂, h₂⟩ := exists_coords hQ
  rw [h₁, h₂, affineAdd]
  split_ifs with hx hy
  · exact (coords_add_chord h₁ h₂ hx).symm
  · obtain ⟨rfl, hy⟩ := hy
    obtain rfl := not_ne_iff.mp hx
    obtain rfl : P = Q := coords_injective (h₁.trans h₂.symm)
    exact (coords_add_tangent h2 h₁ hy).symm
  · obtain rfl := not_ne_iff.mp hx
    rw [add_eq_zero h₁ h₂ hy, coords_zero]

/-! ### The cusp -/

omit [DecidableEq F] in
lemma nonsingular_one (h2 : (2 : F) ≠ 0) : (curve (0 : F) 0).Nonsingular 1 1 := by
  rw [WeierstrassCurve.Affine.nonsingular_iff, WeierstrassCurve.Affine.equation_iff]
  refine ⟨by simp, Or.inr fun heq => h2 ?_⟩
  simp only [zero_mul, sub_zero] at heq
  linear_combination heq

/-- The point `(1, 1)` of `y² = x³`. -/
def cusp (h2 : (2 : F) ≠ 0) : (curve (0 : F) 0).Point := .some 1 1 (nonsingular_one h2)

omit [DecidableEq F] in
/-- A chord of the cusp: the parameters `x / y` add up. -/
lemma third_cusp {t : F} (h1 : t ≠ 1) (hneg : 1 + t ≠ 0) :
    third ((1 - t ^ 3) * (1 - t ^ 2)⁻¹) (t ^ 2) (t ^ 3) 1
      = ((t * (1 + t)⁻¹) ^ 2, (t * (1 + t)⁻¹) ^ 3) := by
  have hsub : 1 - t ≠ 0 := sub_ne_zero.mpr h1.symm
  have hslope : (1 - t ^ 3) * (1 - t ^ 2)⁻¹ = (1 + t + t ^ 2) * (1 + t)⁻¹ := by
    rw [show 1 - t ^ 2 = (1 - t) * (1 + t) by ring]
    field_simp
    ring
  rw [hslope, third]
  refine Prod.ext ?_ ?_
  · field_simp
    ring
  · field_simp
    ring

omit [DecidableEq F] in
/-- A tangent of the cusp. -/
lemma third_cusp_one (h2 : (2 : F) ≠ 0) :
    third ((3 * 1 + 0) * (2 * 1)⁻¹) 1 1 1 = ((2 : F)⁻¹ ^ 2, (2 : F)⁻¹ ^ 3) := by
  rw [third]
  refine Prod.ext ?_ ?_
  · field_simp
    ring
  · field_simp
    ring

/-- The multiples of the point: `x / y` counts them. -/
lemma coords_smul_cusp (h2 : (2 : F) ≠ 0) (n : ℕ) :
    coords (n • cusp h2) = if (n : F) = 0 then none else some ((n : F)⁻¹ ^ 2, (n : F)⁻¹ ^ 3) := by
  induction n with
  | zero => simp
  | succ n ih =>
      have hone : coords (cusp h2) = some (1, 1) := rfl
      rw [succ_nsmul]
      push_cast
      by_cases h0 : (n : F) = 0
      · rw [if_pos h0, coords_eq_none] at ih
        rw [ih, zero_add, h0, zero_add, if_neg one_ne_zero]
        simpa using hone
      rw [if_neg h0] at ih
      rw [← affineAdd_coords h2, ih, hone, affineAdd]
      set t := (n : F)⁻¹ with ht
      have hn : (n : F) = t⁻¹ := (inv_inv _).symm
      have ht0 : t ≠ 0 := inv_ne_zero h0
      have hsucc : (n : F) + 1 = (1 + t) * t⁻¹ := by rw [hn, add_mul, mul_inv_cancel₀ ht0]; ring
      have hinv : ((n : F) + 1)⁻¹ = t * (1 + t)⁻¹ := by rw [hsucc, mul_inv, inv_inv, mul_comm]
      by_cases h1 : t = 1
      · have htwo : (n : F) + 1 = 2 := by rw [hn, h1]; norm_num
        rw [h1, htwo, if_neg (by simp), if_pos (by simp), if_neg h2, ← third_cusp_one h2]
        simp only [one_pow]
      by_cases hneg : 1 + t = 0
      · have hm : t = -1 := by linear_combination hneg
        have hzero : (n : F) + 1 = 0 := by rw [hsucc, hneg, zero_mul]
        rw [if_pos hzero, hm, if_neg (by norm_num), if_neg]
        rintro ⟨heq, -⟩
        exact h2 (by linear_combination -heq)
      · have hx : t ^ 2 ≠ 1 := by
          intro heq
          rcases sq_eq_one_iff.mp heq with h | h
          · exact h1 h
          · exact hneg (by rw [h, add_neg_cancel])
        have hne : (n : F) + 1 ≠ 0 := by
          rw [hsucc]
          exact mul_ne_zero hneg (inv_ne_zero ht0)
        rw [if_pos hx, if_neg hne, hinv, third_cusp h1 hneg]

/-- **The cusp has a point of order `p`** in characteristic `p`. -/
theorem addOrderOf_cusp (h2 : (2 : F) ≠ 0) {p : ℕ} [Fact p.Prime] [CharP F p] :
    addOrderOf (cusp h2) = p := by
  have hzero : p • cusp h2 = 0 := by
    rw [← coords_eq_none, coords_smul_cusp h2, CharP.cast_eq_zero, if_pos rfl]
  refine addOrderOf_eq_prime hzero fun h0 => ?_
  have hone : coords (cusp h2) = some (1, 1) := rfl
  rw [h0] at hone
  cases hone

end ShortWeierstrass
