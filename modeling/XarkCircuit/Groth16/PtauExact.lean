import XarkCircuit.Groth16.PtauSound
import XarkCircuit.Verifier.Curve
import XarkCircuit.Verifier.ScalarOrder
import Mathlib.Algebra.Algebra.Bilinear
import Mathlib.Algebra.Field.ZMod
import Mathlib.SetTheory.Cardinal.Finite

/-!
The checks of a powers-of-tau transcript accept the geometric ladders, and make phase 2 safe
(`ptau_check_exact`).
-/

namespace XarkCircuit

namespace Groth16

open Verifier

/-- **The check accepts the geometric ladders**: powers of a `tau` other than 0 and 1 and nonzero
multiples of them, for every challenge, and anything else at most at the roots of one polynomial,
whose degree is below the longest section. After every check phase 2 reads within the sections, of
whatever size the circuit is. The pairing `e` and the generators are the library's. -/
theorem ptau_check_exact {F : Type} [Field F] [DecidableEq F] {G₁ G₂ Gₜ : Type} [AddCommGroup G₁]
    [Module F G₁] [AddCommGroup G₂] [Module F G₂] [AddCommGroup Gₜ] [Module F Gₜ] [DecidableEq G₁]
    [DecidableEq G₂] [DecidableEq Gₜ] (e : G₁ →ₗ[F] G₂ →ₗ[F] Gₜ) (g1 : G₁) (g2 : G₂)
    (hg1 : ∀ P : G₁, ∃ x : F, x • g1 = P) (hg2 : ∀ Q : G₂, ∃ x : F, x • g2 = Q)
    (he : e g1 g2 ≠ 0) :
    (∀ ptau : PtauFile G₁ G₂, IsTranscript F g1 g2 ptau →
      ∀ rho, verifyPowersConsistency e g1 g2 rho ptau = .ok ()) ∧
    (∀ ptau : PtauFile G₁ G₂, ¬ IsTranscript F g1 g2 ptau →
      ∃ p : Polynomial F, p ≠ 0 ∧ p.natDegree < longestSection ptau ∧
        ∀ rho, p.eval rho ≠ 0 → verifyPowersConsistency e g1 g2 rho ptau ≠ .ok ()) ∧
    (∀ (ptau : PtauFile G₁ G₂) (rho : F) (m ninst : ℕ),
      validateForCircuit e g1 g2 rho ptau m ninst = .ok () →
        Covers ptau (DomainKind.radix2.size (m + ninst))) ∧
    ∀ (ptau : PtauFile G₁ G₂) (rho : F) (R : FftField F) (src : ConstraintSource F)
      (order : Fin 3 → List (MatrixEntry F)) (gamma delta : F),
      validateForCircuit e g1 g2 rho ptau src.numConstraints src.numInstance = .ok () →
        phase2SetupChecked R src order ptau.toPtauPowers gamma delta g1 g2
          = .ok (phase2Setup R src order ptau.toPtauPowers gamma delta g1 g2) := by
  refine ⟨fun ptau h rho => verify_iff.mpr (passes_of_transcript hg1 hg2 he h), fun ptau h => ?_,
    fun ptau rho m ninst h => (covers_of_validate h).1,
    fun ptau rho R src order gamma delta h =>
      phase2SetupChecked_eq R src order gamma delta (covers_of_validate h).1⟩
  obtain ⟨p, hp, hdeg, heval⟩ := exists_polynomial_of_not_transcript hg1 hg2 he h
  exact ⟨p, hp, hdeg, fun rho hrho hok => heval rho hrho (verify_iff.mp hok)⟩

/-! ### In exponents -/

/-- The pairing of exponents. -/
def exponents : Fr →ₗ[Fr] Fr →ₗ[Fr] Fr := LinearMap.mul Fr Fr

lemma exponents_span (P : Fr) : ∃ x : Fr, x • (1 : Fr) = P := ⟨P, mul_one P⟩

lemma exponents_one : exponents 1 1 ≠ 0 := by
  simp [exponents]

/-- Ladders of 3. -/
def laddersOfThree : PtauFile Fr Fr where
  power := 1
  tauG1 := [1, 3, 9]
  tauG2 := [1, 3]
  alphaTauG1 := [2, 6]
  betaTauG1 := [5, 15]
  betaG2 := 5

theorem ptau_check_exact_three :
    verifyPowersConsistency exponents 1 1 4 laddersOfThree = .ok () := by
  refine (ptau_check_exact exponents 1 1 exponents_span exponents_span exponents_one).1
    laddersOfThree ⟨⟨3, 2, 5, ?_⟩, ?_, ?_, ?_, ?_⟩ 4
  · constructor <;> decide
  all_goals decide

/-- Ladders of 2, the one of `alpha` of a single point. -/
def singleAlpha : PtauFile Fr Fr where
  power := 1
  tauG1 := [1, 2, 4]
  tauG2 := [1, 2]
  alphaTauG1 := [3]
  betaTauG1 := [5, 10]
  betaG2 := 5

/-- **One power is a ladder too**, for every challenge. -/
theorem single_alpha_passes : singleAlpha.alphaTauG1.length < 2 ∧
    ¬ ∃ p : Polynomial Fr, p ≠ 0 ∧ p.natDegree < longestSection singleAlpha ∧
      ∀ rho, p.eval rho ≠ 0 →
        verifyPowersConsistency exponents 1 1 rho singleAlpha ≠ .ok () := by
  have htranscript : IsTranscript Fr 1 1 singleAlpha := by
    refine ⟨⟨2, 3, 5, ?_⟩, ?_, ?_, ?_, ?_⟩
    · constructor <;> decide
    all_goals decide
  refine ⟨by decide, ?_⟩
  rintro ⟨p, hp, hdeg, hrefuses⟩
  have hcard : (p.natDegree : Cardinal) < Cardinal.mk Fr := by
    rw [Cardinal.mk_fintype, ZMod.card, Nat.cast_lt]
    exact hdeg.trans (by decide)
  obtain ⟨rho, hrho⟩ := p.exists_eval_ne_zero_of_natDegree_lt_card hp hcard
  exact hrefuses rho hrho (verify_iff.mpr
    (passes_of_transcript exponents_span exponents_span exponents_one htranscript))

end Groth16

end XarkCircuit
