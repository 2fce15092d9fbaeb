import XarkCircuit.Groth16.Qap

/-!
Groth16 key generation (`setup.rs`), with the curve groups as modules over the scalar field.

* `devSetup` draws its secrets (`Toxic`) and evaluates every variable's polynomials at `t` in one
  transposed pass over the rows (`transposeEval`).
* `Columns` is the column index: the windows may be expanded in any order, each entry goes to the
  next free place of its column, and the columns are sorted by row afterwards.
* `phase2Setup` sums the Lagrange tables of a transcript (`PtauPowers`) over the columns.
-/

namespace XarkCircuit

namespace Groth16

open Dft Finset

variable {F : Type} [Field F]

/-! ### Keys -/

/-- A verifying key. -/
structure VerifyingKey (G₁ G₂ : Type) where
  alphaG1 : G₁
  betaG2 : G₂
  gammaG2 : G₂
  deltaG2 : G₂
  gammaAbcG1 : List G₁
deriving DecidableEq

/-- A proving key; `domain` is the domain size that its header states. -/
structure ProvingKey (G₁ G₂ : Type) where
  domain : Option ℕ
  vk : VerifyingKey G₁ G₂
  betaG1 : G₁
  deltaG1 : G₁
  aQuery : List G₁
  bG1Query : List G₁
  bG2Query : List G₂
  hQuery : List G₁
  lQuery : List G₁
deriving DecidableEq

/-- Why key generation fails. -/
inductive SetupError
  | domainTooLarge (size : ℕ)
deriving DecidableEq, Repr

/-- The secrets of a setup and the points they multiply; the inverses of `gamma` and `delta` are
taken. -/
structure Toxic (F G₁ G₂ : Type) [Field F] where
  alpha : F
  beta : F
  gamma : F
  delta : F
  t : F
  g1 : G₁
  g2 : G₂
  gamma_ne_zero : gamma ≠ 0
  delta_ne_zero : delta ≠ 0

/-! ### The trusted-dealer setup -/

section Dev

/-- Add `w` times a row to a vector. -/
def addRow (w : F) (terms : List (ℕ × F)) (out : List F) : List F :=
  terms.foldl (fun out t => out.modify t.1 (· + w * t.2)) out

/-- `out[p] += Σ_rows w[row] · M[row][p]`, rows of weight zero skipped (`transpose_eval`). -/
def transposeEval [DecidableEq F] (src : ConstraintSource F) (w : List F) (m : Fin 3)
    (out : List F) : List F :=
  (w.zip src.rows).foldl (fun out r => if r.1 = 0 then out else addRow r.1 (r.2 m) out) out

/-- The values at `t` of the Lagrange polynomials of the `n` powers of `ω`
(`evaluate_all_lagrange_coefficients`), off the domain. -/
def lagrangeCoefficients (ω : F) (n : ℕ) (t : F) : List F :=
  (List.range n).map fun i => (t ^ n - 1) * ω ^ i / (n * (t - ω ^ i))

/-- Zeros, with the given values first. -/
def zerosWith (n : ℕ) (vals : List F) : List F := vals ++ List.replicate (n - vals.length) 0

variable {G₁ G₂ : Type} [AddCommGroup G₁] [Module F G₁] [AddCommGroup G₂] [Module F G₂]

/-- Multiples of one point (`FixedBase::mul`). -/
def fixedBase {G : Type} [AddCommGroup G] [Module F G] (g : G) (scalars : List F) : List G :=
  scalars.map fun s => s • g

/-- The values `a_j(t)` of all variables, for the weights `u` of the rows and of libsnark's instance
rows after them. -/
def aAt [DecidableEq F] (src : ConstraintSource F) (u : List F) : List F :=
  transposeEval src (u.take src.numConstraints) 0
    (zerosWith src.numVars ((u.drop src.numConstraints).take src.numInstance))

/-- The values `b_j(t)`. -/
def bAt [DecidableEq F] (src : ConstraintSource F) (u : List F) : List F :=
  transposeEval src (u.take src.numConstraints) 1 (zerosWith src.numVars [])

/-- The values `c_j(t)`. -/
def cAt [DecidableEq F] (src : ConstraintSource F) (u : List F) : List F :=
  transposeEval src (u.take src.numConstraints) 2 (zerosWith src.numVars [])

/-- What a variable adds to the public input or to `L`. -/
def abcAt [DecidableEq F] (src : ConstraintSource F) (u : List F) (alpha beta : F) (i : ℕ) : F :=
  beta * entry (aAt src u) i + alpha * entry (bAt src u) i + entry (cAt src u) i

/-- The key on the powers of `ω`. -/
def devKey [DecidableEq F] (src : ConstraintSource F) (x : Toxic F G₁ G₂) (ω : F) (n : ℕ) :
    ProvingKey G₁ G₂ :=
  let u := lagrangeCoefficients ω n x.t
  let zt := x.t ^ n - 1
  let gammaAbc := (List.range src.numInstance).map fun i =>
    abcAt src u x.alpha x.beta i * x.gamma⁻¹
  let l := (List.range' src.numInstance (src.numVars - src.numInstance)).map fun i =>
    abcAt src u x.alpha x.beta i * x.delta⁻¹
  let h0 := zt * x.delta⁻¹
  { domain := some n
    vk := {
      alphaG1 := x.alpha • x.g1
      betaG2 := x.beta • x.g2
      gammaG2 := x.gamma • x.g2
      deltaG2 := x.delta • x.g2
      gammaAbcG1 := fixedBase x.g1 gammaAbc }
    betaG1 := x.beta • x.g1
    deltaG1 := x.delta • x.g1
    aQuery := fixedBase x.g1 (aAt src u)
    bG1Query := fixedBase x.g1 (bAt src u)
    bG2Query := fixedBase x.g2 (bAt src u)
    hQuery := fixedBase x.g1 ((List.range (n - 1)).map fun i => h0 * x.t ^ i)
    lQuery := fixedBase x.g1 l }

/-- `dev_setup` on a domain of `n` points. -/
def devSetupOn [DecidableEq F] (R : FftField F) (src : ConstraintSource F) (x : Toxic F G₁ G₂)
    (n : ℕ) : Except SetupError (ProvingKey G₁ G₂) :=
  match R.getRootOfUnity n with
  | none =>
    .error (.domainTooLarge (if isPowerOfTwo n then src.numConstraints + src.numInstance else n))
  | some ω => .ok (devKey src x ω n)

/-- `dev_setup`, with the domain size of the given kind. -/
def devSetup [DecidableEq F] (R : FftField F) (src : ConstraintSource F) (x : Toxic F G₁ G₂)
    (kind : DomainKind) : Except SetupError (ProvingKey G₁ G₂) :=
  devSetupOn R src x (kind.size (src.numConstraints + src.numInstance))

end Dev

/-! ### The column index -/

section Columns

/-- An entry of a matrix: its column, its row and the coefficient. -/
structure MatrixEntry (F : Type) where
  col : ℕ
  row : ℕ
  coeff : F

/-- The entries of matrix `m`, row by row. -/
def ConstraintSource.entries (src : ConstraintSource F) (m : Fin 3) : List (MatrixEntry F) :=
  (src.rows.zipIdx).flatMap fun r => (r.1 m).map fun t => ⟨t.1, r.2, t.2⟩

/-- The columns of one matrix: column `p` is at the places from `start p` to `start (p + 1)`. -/
structure Columns (F : Type) where
  start : ℕ → ℕ
  slot : ℕ → ℕ × F

/-- The entries in columns before `p`. -/
def columnStart (es : List (MatrixEntry F)) (p : ℕ) : ℕ :=
  ((List.range p).map fun q => (es.filter fun e => e.col = q).length).sum

/-- The cursors of the columns, and what is at each place so far. -/
structure Filling (F : Type) where
  cursor : ℕ → ℕ
  slot : ℕ → ℕ × F

/-- The next free place of its column takes an entry. -/
def Filling.put (s : Filling F) (e : MatrixEntry F) : Filling F :=
  ⟨Function.update s.cursor e.col (s.cursor e.col + 1),
    Function.update s.slot (s.cursor e.col) (e.row, e.coeff)⟩

/-- The column index, the entries arriving in the given order. -/
def Columns.build (order : List (MatrixEntry F)) : Columns F :=
  let start := columnStart order
  ⟨start, (order.foldl Filling.put ⟨start, fun _ => (0, 0)⟩).slot⟩

/-- A column, sorted by row. -/
def Columns.col (c : Columns F) (p : ℕ) : List (ℕ × F) :=
  ((List.range' (c.start p) (c.start (p + 1) - c.start p)).map c.slot).mergeSort
    fun x y => x.1 ≤ y.1

variable {G : Type} [AddCommGroup G] [Module F G]

/-- The sum over each column of the coefficients times the table at their rows (`column_sums`). -/
def columnSums [DecidableEq F] (c : Columns F) (numVars : ℕ) (lambda : List G) : List G :=
  (List.range numVars).map fun p =>
    (c.col p).foldl (fun acc e =>
      let l := entry lambda e.1
      if e.2 = 1 then acc + l else if e.2 = -1 then acc - l else acc + e.2 • l) 0

end Columns

/-! ### Phase 2 -/

section Phase2

/-- The powers that phase 2 takes from a transcript. -/
structure PtauPowers (G₁ G₂ : Type) where
  tauG1 : List G₁
  tauG2 : List G₂
  alphaTauG1 : List G₁
  betaTauG1 : List G₁
  betaG2 : G₂

variable {G₁ G₂ : Type} [AddCommGroup G₁] [Module F G₁] [AddCommGroup G₂] [Module F G₂]

/-- The transcript of the secrets for domains of up to `n` points. -/
def PtauPowers.ofSecrets (tau alpha beta : F) (g1 : G₁) (g2 : G₂) (n : ℕ) : PtauPowers G₁ G₂ where
  tauG1 := (List.range (2 * n - 1)).map fun i => tau ^ i • g1
  tauG2 := (List.range n).map fun i => tau ^ i • g2
  alphaTauG1 := (List.range n).map fun i => (alpha * tau ^ i) • g1
  betaTauG1 := (List.range n).map fun i => (beta * tau ^ i) • g1
  betaG2 := beta • g2

/-- Inverse transform of points (`lagrange_g1`). -/
def lagrangeTable {G : Type} [AddCommGroup G] [Module F G] (ω : F) (n : ℕ) (pts : List G) :
    List G :=
  (List.range n).map (idft ω n (entry pts))

/-- `x[i] += y[from + i]` for the first `count` places. -/
def addFrom {G : Type} [AddCommGroup G] (x y : List G) (start count : ℕ) : List G :=
  (List.range count).foldl (fun x i => x.modify i (· + entry y (start + i))) x

/-- `phase2_setup`, with the windows of the rows expanded in the given orders, on the points `g1`
and `g2`. -/
def phase2Setup [DecidableEq F] (R : FftField F) (src : ConstraintSource F)
    (order : Fin 3 → List (MatrixEntry F)) (p : PtauPowers G₁ G₂) (gamma delta : F) (g1 : G₁)
    (g2 : G₂) : Except SetupError (ProvingKey G₁ G₂) :=
  let m := src.numConstraints
  let n := DomainKind.radix2.size (m + src.numInstance)
  match R.getRootOfUnity n with
  | none => .error (.domainTooLarge (m + src.numInstance))
  | some ω =>
    let cols := fun i => Columns.build (order i)
    let nv := src.numVars
    let lamBeta := lagrangeTable ω n (p.betaTauG1.take n)
    let betaA := addFrom (columnSums (cols 0) nv lamBeta) lamBeta m src.numInstance
    let lamAlpha := lagrangeTable ω n (p.alphaTauG1.take n)
    let combined := List.zipWith (· + ·) betaA (columnSums (cols 1) nv lamAlpha)
    let lam := lagrangeTable ω n (p.tauG1.take n)
    let combined := List.zipWith (· + ·) combined (columnSums (cols 2) nv lam)
    let lam2 := lagrangeTable ω n (p.tauG2.take n)
    .ok {
      domain := some n
      vk := {
        alphaG1 := entry p.alphaTauG1 0
        betaG2 := p.betaG2
        gammaG2 := gamma • g2
        deltaG2 := delta • g2
        gammaAbcG1 := (combined.take src.numInstance).map fun x => gamma⁻¹ • x }
      betaG1 := entry p.betaTauG1 0
      deltaG1 := delta • g1
      aQuery := addFrom (columnSums (cols 0) nv lam) lam m src.numInstance
      bG1Query := columnSums (cols 1) nv lam
      bG2Query := columnSums (cols 1) nv lam2
      hQuery := (List.range (n - 1)).map fun k =>
        delta⁻¹ • (entry p.tauG1 (n + k) - entry p.tauG1 k)
      lQuery := (combined.drop src.numInstance).map fun x => delta⁻¹ • x }

end Phase2

end Groth16

end XarkCircuit
