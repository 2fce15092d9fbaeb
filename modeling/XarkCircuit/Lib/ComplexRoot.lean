import XarkCircuit.Lib.Instances
import Mathlib.FieldTheory.Finite.Basic
import Mathlib.NumberTheory.LegendreSymbol.QuadraticChar.Basic
import Mathlib.Algebra.QuadraticAlgebra.Basic
import Mathlib.Tactic.LinearCombination

/-!
Square roots in a finite field of `q` elements, `q ≡ 3 mod 4`, and in its extension by a root of
`-1`.

* `sq_root_iff`: `a ^ ((q + 1) / 4)` is a root exactly when there is one.
* `root_mul_inv`: with `t = d ^ ((q - 3) / 4)`, the product of `t * d` and `t` is the Legendre
  symbol of `d`; when it is one, `t * d` is a root of `d` and `t` its inverse (`sq_of_inv`).
* `one_of_two`: of two numbers with product `-c²`, `c ≠ 0`, exactly one is a square.
* `sq_candidate`: the complex method, from a root `s` of the norm to a root of the element.
-/

namespace ComplexRoot

variable {F : Type*} [Field F] [Fintype F]

/-! ### The field itself -/

lemma ringChar_ne_two (h : Fintype.card F % 4 = 3) : ringChar F ≠ 2 := by
  intro h2
  have heven := FiniteField.even_card_iff_char_two.mp h2
  omega

lemma not_isSquare_neg_one (h : Fintype.card F % 4 = 3) : ¬ IsSquare (-1 : F) := fun hsq =>
  FiniteField.isSquare_neg_one_iff.mp hsq h

lemma two_ne_zero (h : Fintype.card F % 4 = 3) : (2 : F) ≠ 0 :=
  Ring.two_ne_zero (ringChar_ne_two h)

/-- Euler's criterion, the form that the zero of the field does not meet. -/
lemma pow_half_eq_one_iff (h : Fintype.card F % 4 = 3) {d : F} :
    d ^ (Fintype.card F / 2) = 1 ↔ d ≠ 0 ∧ IsSquare d := by
  rcases eq_or_ne d 0 with rfl | hd
  · have hpos : Fintype.card F / 2 ≠ 0 := by omega
    simp [zero_pow hpos]
  · rw [FiniteField.isSquare_iff (ringChar_ne_two h) hd]
    exact ⟨fun h1 => ⟨hd, h1⟩, fun h1 => h1.2⟩

/-- **A power that is a root** of every square, and of nothing else. -/
theorem sq_root_iff (h : Fintype.card F % 4 = 3) (a : F) :
    (a ^ ((Fintype.card F + 1) / 4)) ^ 2 = a ↔ IsSquare a := by
  have hexp : (Fintype.card F + 1) / 4 * 2 = Fintype.card F / 2 + 1 := by omega
  rw [← pow_mul, hexp, pow_succ]
  rcases eq_or_ne a 0 with rfl | ha
  · simp
  · rw [FiniteField.isSquare_iff (ringChar_ne_two h) ha]
    exact mul_eq_right₀ ha

/-- A root candidate times its inverse candidate is the Legendre symbol. -/
lemma root_mul_inv (h : Fintype.card F % 4 = 3) (d : F) :
    d ^ ((Fintype.card F - 3) / 4) * d * d ^ ((Fintype.card F - 3) / 4)
      = d ^ (Fintype.card F / 2) := by
  have hexp : Fintype.card F / 2
      = (Fintype.card F - 3) / 4 + 1 + (Fintype.card F - 3) / 4 := by omega
  rw [hexp, pow_add, pow_succ]

omit [Fintype F] in
/-- Where the symbol is one, the candidate is a root. -/
lemma sq_of_inv {d t : F} (h : t * d * t = 1) : (t * d) ^ 2 = d := by
  calc (t * d) ^ 2 = t * d * t * d := by ring
    _ = d := by rw [h, one_mul]

/-- Of two numbers whose product is `-c²`, **one is a square**. -/
theorem one_of_two (h : Fintype.card F % 4 = 3) {d e c : F} (hc : c ≠ 0) (hde : d * e = -c ^ 2) :
    (d ≠ 0 ∧ IsSquare d) ∨ (e ≠ 0 ∧ IsSquare e) := by
  have hne : d * e ≠ 0 := by rw [hde]; exact neg_ne_zero.mpr (pow_ne_zero 2 hc)
  have hd : d ≠ 0 := left_ne_zero_of_mul hne
  have he : e ≠ 0 := right_ne_zero_of_mul hne
  rw [← pow_half_eq_one_iff h, ← pow_half_eq_one_iff h]
  rcases FiniteField.pow_dichotomy (ringChar_ne_two h) hd with h1 | hd1
  · exact Or.inl h1
  rcases FiniteField.pow_dichotomy (ringChar_ne_two h) he with h1 | he1
  · exact Or.inr h1
  -- two non-squares have a square for their product, and `-c²` is none
  have hprod : (d * e) ^ (Fintype.card F / 2) = 1 := by
    calc (d * e) ^ (Fintype.card F / 2) = -1 * -1 := by rw [mul_pow, hd1, he1]
      _ = 1 := by ring
  obtain ⟨-, r, hr⟩ := (pow_half_eq_one_iff h).mp hprod
  refine absurd ⟨r / c, ?_⟩ (not_isSquare_neg_one h)
  calc (-1 : F) = -c ^ 2 / (c * c) := by field_simp
    _ = r * r / (c * c) := by rw [← hde, hr]
    _ = r / c * (r / c) := by rw [div_mul_div_comm]

/-! ### The extension -/

/-- `F[u] / (u² + 1)`. -/
abbrev Ext (F : Type*) [Field F] := QuadraticAlgebra F (-1) 0

omit [Fintype F] in
lemma norm_eq (a : Ext F) : a.norm = a.re ^ 2 + a.im ^ 2 := by
  rw [QuadraticAlgebra.norm_def]
  ring

omit [Fintype F] in
/-- The norm of a square is a square. -/
lemma isSquare_norm {a : Ext F} (h : IsSquare a) : IsSquare (a.re ^ 2 + a.im ^ 2) := by
  rw [← norm_eq]
  exact h.map QuadraticAlgebra.norm

omit [Fintype F] in
lemma ext_sq (a : Ext F) : a ^ 2 = ⟨a.re ^ 2 - a.im ^ 2, 2 * (a.re * a.im)⟩ := by
  rw [sq]
  ext
  · rw [QuadraticAlgebra.re_mul]
    ring
  · rw [QuadraticAlgebra.im_mul]
    ring

/-- The two numbers of the complex method. -/
lemma half_mul_half (h : Fintype.card F % 4 = 3) {c0 c1 s : F} (hs : s ^ 2 = c0 ^ 2 + c1 ^ 2) :
    (s + c0) * 2⁻¹ * ((s + c0) * 2⁻¹ - s) = -(c1 * 2⁻¹) ^ 2 := by
  have h2 := two_ne_zero h
  field_simp
  linear_combination -hs

lemma half_add_half (h : Fintype.card F % 4 = 3) (c0 s : F) :
    (s + c0) * 2⁻¹ + ((s + c0) * 2⁻¹ - s) = c0 := by
  have h2 := two_ne_zero h
  field_simp
  ring

/-- **The complex method.** From a root `r` of `d` with inverse `t`, where `d + e` is the real part
and `d * e` minus the square of half the other part, to a root. -/
theorem sq_candidate (h : Fintype.card F % 4 = 3) {c0 c1 d e r t : F} (hr : r ^ 2 = d)
    (ht : r * t = 1) (hsum : d + e = c0) (hprod : d * e = -(c1 * 2⁻¹) ^ 2) :
    (⟨r, c1 * 2⁻¹ * t⟩ : Ext F) ^ 2 = ⟨c0, c1⟩ := by
  have h2 := two_ne_zero h
  have htt : d * t ^ 2 = 1 := by
    calc d * t ^ 2 = (r * t) ^ 2 := by rw [← hr]; ring
      _ = 1 := by rw [ht, one_pow]
  rw [ext_sq]
  ext
  · calc r ^ 2 - (c1 * 2⁻¹ * t) ^ 2 = d + -(c1 * 2⁻¹) ^ 2 * t ^ 2 := by rw [hr]; ring
      _ = d + e * (d * t ^ 2) := by rw [← hprod]; ring
      _ = c0 := by rw [htt, mul_one, hsum]
  · calc 2 * (r * (c1 * 2⁻¹ * t)) = c1 * (2 * 2⁻¹) * (r * t) := by ring
      _ = c1 := by rw [ht, mul_inv_cancel₀ h2, mul_one, mul_one]

/-- The extension is a field, so that a root is unique up to its sign. -/
lemma ext_eq_or_eq_neg (h : Fintype.card F % 4 = 3) {y z : Ext F} (hyz : y ^ 2 = z ^ 2) :
    y = z ∨ y = -z := by
  have hfield : Fact (∀ r : F, r ^ 2 ≠ -1 + 0 * r) :=
    ⟨fun r hr => not_isSquare_neg_one h ⟨r, by rw [← sq, hr, zero_mul, add_zero]⟩⟩
  exact sq_eq_sq_iff_eq_or_eq_neg.mp hyz

lemma eq_zero_of_eq_neg (h : Fintype.card F % 4 = 3) {y : F} (hy : y = -y) : y = 0 := by
  have hsum : 2 * y = 0 := by linear_combination hy
  exact (mul_eq_zero.mp hsum).resolve_left (two_ne_zero h)

end ComplexRoot
