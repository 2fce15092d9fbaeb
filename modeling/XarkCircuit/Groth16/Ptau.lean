import XarkCircuit.Groth16.Setup
import XarkCircuit.Lib.Ladder
import XarkCircuit.Lib.Outcome

/-!
Powers of tau (`ptau.rs`), and what phase 2 reads of them.

* `validateForCircuit`: the transcript covers the circuit, its sections are long enough, and
  `verifyPowersConsistency`.
* `verifyPowersConsistency`: the sections are ladders of one `τ`, checked in a random combination
  each. The challenge `ρ` is a hash of the transcript in the code, here any scalar.
* `phase2SetupChecked` is `phase2Setup` with every access to a section checked.
-/

namespace XarkCircuit

namespace Groth16

variable {F : Type} [Field F] {G₁ G₂ Gₜ : Type} [AddCommGroup G₁] [Module F G₁]
  [AddCommGroup G₂] [Module F G₂] [AddCommGroup Gₜ] [Module F Gₜ]

/-- A parsed transcript. -/
structure PtauFile (G₁ G₂ : Type) extends PtauPowers G₁ G₂ where
  power : ℕ

/-- `Phase2Coverage`. -/
structure Phase2Coverage where
  maxDomainSize : ℕ
  requiredDomainSize : ℕ

inductive Phase2Error
  | ptauTooSmall (ptauPower maxDomainSize requiredDomainSize : ℕ)
  | ptauSectionTooShort (name : String) (needed actual : ℕ)
  | inconsistentPowers (stage : String)
deriving DecidableEq, Repr

/-- Why a check doesn't pass: it overflows, or it refuses the transcript. -/
inductive Fault
  | panic
  | refused (e : Phase2Error)
deriving DecidableEq, Repr

/-- A machine word. -/
def word (n : ℕ) : Except Fault ℕ := if n < 2 ^ 64 then .ok n else .error .panic

/-! ### Sizes -/

/-- `2^power` rows cover the circuit (`check_ptau_covers_circuit`). -/
def checkPtauCoversCircuit (ptau : PtauFile G₁ G₂) (numConstraints numInstanceVariables : ℕ) :
    Except Fault Phase2Coverage := do
  let requiredUnrounded ← word (numConstraints + numInstanceVariables)
  let rounded ← word (nextPowerOfTwo requiredUnrounded)
  let required := max rounded 2
  let max ← word (2 ^ ptau.power)
  if required > max then .error (.refused (.ptauTooSmall ptau.power max required))
  else return ⟨max, required⟩

/-- The sections that a domain of `n` points reads (`check_ptau_section_lengths`). -/
def checkPtauSectionLengths (ptau : PtauFile G₁ G₂) (n : ℕ) : Except Fault Unit := do
  let double ← word (2 * n)
  let checks := [
    ("tau_g1", double - 1, ptau.tauG1.length),
    ("tau_g2", n, ptau.tauG2.length),
    ("alpha_tau_g1", n, ptau.alphaTauG1.length),
    ("beta_tau_g1", n, ptau.betaTauG1.length)]
  checks.forM fun (name, needed, actual) =>
    if actual < needed then .error (.refused (.ptauSectionTooShort name needed actual)) else .ok ()

/-! ### Ladders -/

/-- Fail at a stage. -/
def refuse (bad : Prop) [Decidable bad] (stage : String) : Except Fault Unit :=
  if bad then .error (.refused (.inconsistentPowers stage)) else .ok ()

/-- `[ρ⁰, ρ¹, …, ρ^(n-1)]`. -/
def powersOf (rho : F) (n : ℕ) : List F := List.iterate (· * rho) 1 n

/-- The library's multi-scalar multiplication, of lists of one length. -/
def msmOf {G : Type} [AddCommGroup G] [Module F G] (points : List G) (scalars : List F) :
    Option G :=
  if points.length = scalars.length then
    some (List.zipWith (fun s P => s • P) scalars points).sum
  else none

/-- `e(B, g2) = e(A, τ·g2)` for `A = Σ ρⁱ Pᵢ` and `B = Σ ρⁱ Pᵢ₊₁`. -/
def g1LadderOk [DecidableEq Gₜ] (e : G₁ →ₗ[F] G₂ →ₗ[F] Gₜ) (tauLo tauHi : G₂) (allScalars : List F)
    (points : List G₁) : Bool :=
  let m := points.length
  if m < 2 then true
  else
    let scalars := allScalars.take (m - 1)
    match msmOf (points.take (m - 1)) scalars with
    | none => false
    | some a =>
      match msmOf points.tail scalars with
      | none => false
      | some b => e b tauLo = e a tauHi

/-- A sum, or a failure at a stage. -/
def orRefuse {G : Type} (stage : String) : Option G → Except Fault G
  | none => .error (.refused (.inconsistentPowers stage))
  | some a => .ok a

variable [DecidableEq G₁] [DecidableEq G₂] [DecidableEq Gₜ]

/-- The transcript is a ladder in both groups, with consistent multiples of it. -/
def verifyPowersConsistency (e : G₁ →ₗ[F] G₂ →ₗ[F] Gₜ) (g1 : G₁) (g2 : G₂) (rho : F)
    (ptau : PtauFile G₁ G₂) : Except Fault Unit := do
  refuse (ptau.tauG1.length < 2 ∨ ptau.tauG2.length < 2) "too-short"
  refuse (entry ptau.tauG1 0 ≠ g1 ∨ entry ptau.tauG2 0 ≠ g2) "generators"
  refuse (ptau.alphaTauG1 = [] ∨ ptau.betaTauG1 = []) "missing-alpha-beta"
  refuse (entry ptau.tauG1 1 = 0 ∨ entry ptau.tauG1 1 = g1) "degenerate-tau"
  refuse (entry ptau.alphaTauG1 0 = 0) "degenerate-alpha"
  refuse (entry ptau.betaTauG1 0 = 0 ∨ ptau.betaG2 = 0) "degenerate-beta"
  refuse (e (entry ptau.tauG1 1) g2 ≠ e g1 (entry ptau.tauG2 1)) "tau-link"
  let tauLo := entry ptau.tauG2 0
  let tauHi := entry ptau.tauG2 1
  let maxM := max (max (max ptau.tauG1.length ptau.alphaTauG1.length) ptau.betaTauG1.length)
    ptau.tauG2.length
  let allScalars := powersOf rho (maxM - 1)
  refuse (g1LadderOk e tauLo tauHi allScalars ptau.tauG1 = false) "tau-g1-ladder"
  refuse (g1LadderOk e tauLo tauHi allScalars ptau.alphaTauG1 = false) "alpha-ladder"
  refuse (g1LadderOk e tauLo tauHi allScalars ptau.betaTauG1 = false) "beta-ladder"
  let m := ptau.tauG2.length
  let scalars := allScalars.take (m - 1)
  let c ← orRefuse "g2-msm" (msmOf (ptau.tauG2.take (m - 1)) scalars)
  let d ← orRefuse "g2-msm" (msmOf ptau.tauG2.tail scalars)
  refuse (e (entry ptau.tauG1 0) d ≠ e (entry ptau.tauG1 1) c) "tau-g2-ladder"
  refuse (e (entry ptau.betaTauG1 0) g2 ≠ e g1 ptau.betaG2) "beta-link"

/-- Every check before keys are derived. -/
def validateForCircuit (e : G₁ →ₗ[F] G₂ →ₗ[F] Gₜ) (g1 : G₁) (g2 : G₂) (rho : F)
    (ptau : PtauFile G₁ G₂) (numConstraints numInstanceVariables : ℕ) : Except Fault Unit := do
  let _ ← checkPtauCoversCircuit ptau numConstraints numInstanceVariables
  let required ← word (numConstraints + numInstanceVariables)
  let rounded ← word (nextPowerOfTwo required)
  checkPtauSectionLengths ptau (max rounded 1)
  verifyPowersConsistency e g1 g2 rho ptau

/-! ### Phase 2 -/

section Checked

variable {G : Type} [AddCommGroup G]

/-- `v[..n]`. -/
def sliceTo (v : List G) (n : ℕ) : Outcome (List G) :=
  if n ≤ v.length then .ok (v.take n) else .error .panic

/-- `v[i]`. -/
def getAt (v : List G) (i : ℕ) : Outcome G :=
  if i < v.length then .ok (entry v i) else .error .panic

/-- `phase2_setup`, panicking where a section is read out of its range. -/
def phase2SetupChecked [DecidableEq F] (R : FftField F) (src : ConstraintSource F)
    (order : Fin 3 → List (MatrixEntry F)) (p : PtauPowers G₁ G₂) (gamma delta : F) (g1 : G₁)
    (g2 : G₂) : Outcome (Except SetupError (ProvingKey G₁ G₂)) :=
  let m := src.numConstraints
  let n := DomainKind.radix2.size (m + src.numInstance)
  match R.getRootOfUnity n with
  | none => .ok (.error (.domainTooLarge (m + src.numInstance)))
  | some ω => do
    let cols := fun i => Columns.build (order i)
    let nv := src.numVars
    let betaPoints ← sliceTo p.betaTauG1 n
    let lamBeta := lagrangeTable ω n betaPoints
    let betaA := addFrom (columnSums (cols 0) nv lamBeta) lamBeta m src.numInstance
    let alphaPoints ← sliceTo p.alphaTauG1 n
    let lamAlpha := lagrangeTable ω n alphaPoints
    let combined := List.zipWith (· + ·) betaA (columnSums (cols 1) nv lamAlpha)
    let tauPoints ← sliceTo p.tauG1 n
    let lam := lagrangeTable ω n tauPoints
    let combined := List.zipWith (· + ·) combined (columnSums (cols 2) nv lam)
    let alphaG1 ← getAt p.alphaTauG1 0
    let betaG1 ← getAt p.betaTauG1 0
    let tau2Points ← sliceTo p.tauG2 n
    let lam2 := lagrangeTable ω n tau2Points
    let hQuery ← (List.range (n - 1)).mapM fun k => do
      let high ← getAt p.tauG1 (n + k)
      let low ← getAt p.tauG1 k
      return delta⁻¹ • (high - low)
    return .ok {
      domain := some n
      vk := {
        alphaG1 := alphaG1
        betaG2 := p.betaG2
        gammaG2 := gamma • g2
        deltaG2 := delta • g2
        gammaAbcG1 := (combined.take src.numInstance).map fun x => gamma⁻¹ • x }
      betaG1 := betaG1
      deltaG1 := delta • g1
      aQuery := addFrom (columnSums (cols 0) nv lam) lam m src.numInstance
      bG1Query := columnSums (cols 1) nv lam
      bG2Query := columnSums (cols 1) nv lam2
      hQuery := hQuery
      lQuery := (combined.drop src.numInstance).map fun x => delta⁻¹ • x }

end Checked

end Groth16

end XarkCircuit
