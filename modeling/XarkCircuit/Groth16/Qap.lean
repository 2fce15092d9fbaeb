import Mathlib.Data.Nat.Log
import Mathlib.NumberTheory.Padics.PadicVal.Basic
import XarkCircuit.Lib.Dft

/-!
The quotient of the Groth16 witness map (`qap.rs`, with the domains of `fft.rs`).

* `FftField` is what the field type promises of its roots of unity and its generator, and `Domain`
  the powers of such a root, split as an `n1 × n2` matrix. In T-layout position `k1 * n2 + k2` holds
  index `k1 + n1 * k2`.
* `ConstraintSource` holds the rows over assignment positions: position `0` is the constant `1`, the
  first `numInstance` positions are public.
* `quotient` divides on a coset, with the vectors in memory, and `quotientSpilled` with all but one of
  them parked and read back block by block. `Quotient.gather` reads the coefficients in natural order.
-/

namespace XarkCircuit

namespace Groth16

open Dft Finset

/-! ### Domains -/

/-- What the field type promises: primitive roots of unity, and a generator off their powers. -/
structure FftField (F : Type) [Field F] where
  getRootOfUnity : ℕ → Option F
  GENERATOR : F
  primitive : ∀ n ω, getRootOfUnity n = some ω → IsPrimitiveRoot ω n
  generator_ne_zero : GENERATOR ≠ 0
  off_domain : ∀ n ω, 0 < n → getRootOfUnity n = some ω → GENERATOR ^ n ≠ 1

/-- The powers of a root of unity of order `n1 * n2`. -/
structure Domain (F : Type) [Field F] where
  n1 : ℕ
  n2 : ℕ
  omega : F
  pos : 0 < n1 * n2
  primitive : IsPrimitiveRoot omega (n1 * n2)

section Domains

variable {F : Type} [Field F]

/-- The number of points. -/
def Domain.n (d : Domain F) : ℕ := d.n1 * d.n2

/-- `trailing_zeros` of a positive number. -/
def trailingZeros (n : ℕ) : ℕ := padicValNat 2 n

/-- `is_power_of_two`. -/
def isPowerOfTwo (n : ℕ) : Bool := n = 2 ^ n.log2

/-- The domain of `n1 * n2` points (`Domain::with_split`). -/
def Domain.withSplit (R : FftField F) (n1 n2 : ℕ) : Option (Domain F) :=
  if isPowerOfTwo n2 && decide (n1 / 2 ^ trailingZeros n1 ∈ [1, 3, 9]) then
    match h : R.getRootOfUnity (n1 * n2) with
    | none => none
    | some ω => if hpos : 0 < n1 * n2 then some ⟨n1, n2, ω, hpos, R.primitive _ _ h⟩ else none
  else none

/-- The domain of exactly `n` points (`Domain::with_size`); from `2 ^ minBlockedLog` points on, the rows
get the larger half of the power of two. -/
def Domain.withSize (R : FftField F) (minBlockedLog n : ℕ) : Option (Domain F) := do
  let q ← [9, 3, 1].find? fun q => n % q = 0
  let k := trailingZeros (n / q)
  if n = q * 2 ^ k then
    if k < minBlockedLog then
      if q = 1 then Domain.withSplit R 1 n else Domain.withSplit R q (2 ^ k)
    else Domain.withSplit R (q * 2 ^ (k / 2)) (2 ^ (k - k / 2))
  else none

/-- The index that a T-position holds. -/
def Domain.index (d : Domain F) (p : ℕ) : ℕ := p / d.n2 + d.n1 * (p % d.n2)

/-- The T-position of an index. -/
def Domain.position (d : Domain F) (i : ℕ) : ℕ := i % d.n1 * d.n2 + i / d.n1

variable {G : Type} [AddCommGroup G] [Module F G]

/-- An entry of a vector. -/
def entry (v : List G) (i : ℕ) : G := v.getD i 0

/-- Inverse transform, natural order to T-layout. -/
def Domain.ifftToT (d : Domain F) (buf : List G) : List G :=
  (List.range d.n).map fun p => idft d.omega d.n (entry buf) (d.index p)

/-- Transform, T-layout to natural order. -/
def Domain.fftFromT (d : Domain F) (buf : List G) : List G :=
  (List.range d.n).map (dft d.omega d.n fun j => entry buf (d.position j))

/-- Multiply the entry that holds index `i` by `g ^ i`. -/
def Domain.cosetScaleT (d : Domain F) (buf : List F) (g : F) : List F :=
  (List.range d.n).map fun p => entry buf p * g ^ d.index p

/-- Values on the domain to values on the coset of `g`. -/
def Domain.toCoset (d : Domain F) (buf : List F) (g : F) : List F :=
  d.fftFromT (d.cosetScaleT (d.ifftToT buf) g)

/-- Values on a coset to coefficients in T-layout; `gInv` is the inverse of what spans the coset. -/
def Domain.fromCosetToT (d : Domain F) (buf : List F) (gInv : F) : List F :=
  d.cosetScaleT (d.ifftToT buf) gInv

/-- `next_power_of_two`. -/
def nextPowerOfTwo (n : ℕ) : ℕ := 2 ^ Nat.clog 2 n

/-- Which domains a key may be made for. -/
inductive DomainKind
  | radix2
  | smooth
deriving DecidableEq, Repr

/-- `r` doubled until it is at least `minSize`; `fuel` bounds the doublings. -/
def doubledTo (minSize : ℕ) : ℕ → ℕ → ℕ
  | 0, r => r
  | fuel + 1, r => if r < minSize then doubledTo minSize fuel (2 * r) else r

/-- The smallest of the three kinds of domain size. -/
def smoothSize (minSize : ℕ) : ℕ :=
  min (doubledTo minSize minSize 1) (min (doubledTo minSize minSize 3) (doubledTo minSize minSize 9))

/-- The domain size for a number of points. -/
def DomainKind.size (kind : DomainKind) (minSize : ℕ) : ℕ :=
  match kind with
  | .radix2 => nextPowerOfTwo (max minSize 1)
  | .smooth => smoothSize minSize

end Domains

/-! ### Rows -/

/-- The terms of a row in each of the three matrices, as positions and coefficients. -/
abbrev Row (F : Type) := Fin 3 → List (ℕ × F)

/-- The rows of a circuit over assignment positions. -/
structure ConstraintSource (F : Type) where
  rows : List (Row F)
  numInstance : ℕ
  numVars : ℕ
  instance_pos : 0 < numInstance
  instance_le : numInstance ≤ numVars
  positions : ∀ r ∈ rows, ∀ m, ∀ t ∈ r m, t.1 < numVars

/-- A value for each position. -/
structure Assignment {F : Type} (src : ConstraintSource F) where
  vals : List F
  length_eq : vals.length = src.numVars

section Quotient

variable {F : Type} [Field F]

/-- The number of rows. -/
def ConstraintSource.numConstraints (src : ConstraintSource F) : ℕ := src.rows.length

/-- The number of witness variables. -/
def ConstraintSource.numWitness (src : ConstraintSource F) : ℕ := src.numVars - src.numInstance

/-- `⟨M_row, z⟩` (`RowChunk::eval`). -/
def evalTerms (terms : List (ℕ × F)) (z : List F) : F :=
  terms.foldl (fun acc t => acc + entry z t.1 * t.2) 0

/-- One matrix on all rows (`eval_rows`). -/
def evalRows (src : ConstraintSource F) (z : List F) (m : Fin 3) : List F :=
  src.rows.map fun r => evalTerms (r m) z

/-- The first row that the values break (`first_unsatisfied`). -/
def firstUnsatisfied [DecidableEq F] (src : ConstraintSource F) (z : List F) : Option ℕ :=
  src.rows.findIdx? fun r => evalTerms (r 0) z * evalTerms (r 1) z ≠ evalTerms (r 2) z

/-! ### The quotient -/

/-- A vector of the domain's size, zero after the given values. -/
def Domain.load (d : Domain F) (vals : List F) : List F :=
  vals ++ List.replicate (d.n - vals.length) 0

/-- Coefficients in T-layout. -/
structure Quotient (F : Type) where
  t : List F
  n1 : ℕ
  n2 : ℕ

/-- The coefficients from `off` on, in natural order. -/
def Quotient.gather (q : Quotient F) (off len : ℕ) : List F :=
  (List.range' off len).map fun i => entry q.t (i % q.n1 * q.n2 + i / q.n1)

variable (R : FftField F) (src : ConstraintSource F) (z : List F) (d : Domain F)

/-- The values of `A` on the domain: the rows, then libsnark's instance rows. -/
def aValues : List F := d.load (evalRows src z 0 ++ z.take src.numInstance)

/-- The values of `B` on the domain. -/
def bValues : List F := d.load (evalRows src z 1)

/-- The values of `C` on the domain. -/
def cValues : List F := d.load (evalRows src z 2)

/-- The inverse of the vanishing polynomial on the coset of the generator. -/
def zInv : F := (R.GENERATOR ^ d.n - 1)⁻¹

/-- The quotient, with the vectors in memory (`quotient` without a spill). -/
def quotient : Quotient F :=
  let a := d.toCoset (aValues src z d) R.GENERATOR
  let b := d.toCoset (bValues src z d) R.GENERATOR
  let ab := List.zipWith (· * ·) a b
  let c := d.toCoset (cValues src z d) R.GENERATOR
  let h := List.zipWith (fun x y => (x - y) * zInv R d) ab c
  ⟨d.fromCosetToT h R.GENERATOR⁻¹, d.n1, d.n2⟩

/-- Elements read back per step. -/
def SPILL_BLOCK : ℕ := 2 ^ 16

/-- A buffer combined with a parked vector, block by block from `off` on; `fuel` bounds the blocks. -/
def combineFrom (f : F → F → F) (spilled : List F) : ℕ → ℕ → List F → List F
  | 0, _, _ => []
  | fuel + 1, off, buf =>
    if buf.isEmpty then []
    else
      let block := buf.take SPILL_BLOCK
      List.zipWith f block ((spilled.drop off).take block.length)
        ++ combineFrom f spilled fuel (off + SPILL_BLOCK) (buf.drop SPILL_BLOCK)

/-- `combine`. -/
def combine (f : F → F → F) (buf spilled : List F) : List F :=
  combineFrom f spilled buf.length 0 buf

/-- The quotient, with one vector in memory (`quotient` with a spill). -/
def quotientSpilled : Quotient F :=
  let spilled := d.toCoset (aValues src z d) R.GENERATOR
  let b := d.toCoset (bValues src z d) R.GENERATOR
  let spilled := combine (fun b a => b * a) b spilled
  let c := d.toCoset (cValues src z d) R.GENERATOR
  let h := combine (fun c ab => (ab - c) * zInv R d) c spilled
  ⟨d.fromCosetToT h R.GENERATOR⁻¹, d.n1, d.n2⟩

end Quotient

end Groth16

end XarkCircuit
