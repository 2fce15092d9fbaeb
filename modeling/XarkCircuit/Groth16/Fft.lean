import XarkCircuit.Groth16.Qap
import XarkCircuit.Lib.Buffer
import Mathlib.Data.List.Iterate

/-!
The blocked Fourier transform (`fft.rs`).

* `radix2FftStrided` is the iterative transform of a power of two, and `mixedFft` splits off factors
  of three. Twiddle factors are read off tables (`Tables`).
* A `Domain` of `n1 * n2` points transforms the columns of an `n1 × n2` matrix tile by tile
  (`colPass`), and its rows (`rowsPass`). In T-layout position `k1 * n2 + k2` holds index
  `k1 + n1 * k2`.
* `rowsKernel` and `colsKernel` are the two passes on slices, as workers run them.

Buffers are functions on places, and scratch space is left out. Tasks that run in parallel touch
disjoint places; they run one after another here.
-/

namespace XarkCircuit

namespace Fft

open Buffer
open Groth16 (entry trailingZeros isPowerOfTwo FftField)

variable {F : Type} [Field F]

/-! ### Tables -/

structure FftConfig where
  /-- Columns moved at a time. -/
  tile : ℕ
  /-- Below `2^min_blocked_log` points the rows are not split. -/
  minBlockedLog : ℕ

/-- The twiddle factors of one direction. -/
structure Tables (F : Type) where
  twN1 : List F
  twN2 : List F
  colStep : List F

def powers (base : F) (count : ℕ) : List F := List.iterate (· * base) 1 count

def Tables.new (root : F) (n1 n2 : ℕ) : Tables F :=
  let n := n1 * n2
  let rootN1 := root ^ (n / n1)
  let rootN2 := root ^ (n / n2)
  { twN1 := powers rootN1 (if n1 % 3 = 0 then n1 else n1 / 2)
    twN2 := powers rootN2 (n2 / 2)
    colStep := if 1 < n1 then powers root n2 else [] }

/-! ### Transforms in place -/

/-- `reverse_bits` of a machine word. -/
def reverseBits (i : ℕ) : ℕ := (BitVec.ofNat 64 i).reverse.toNat

/-- In-place bit-reversal permutation of `n` places. -/
def bitrevPermute (n : ℕ) (a : ℕ → F) : ℕ → F :=
  if n ≤ 2 then a
  else
    let shift := 64 - trailingZeros n
    permute (fun i => reverseBits i >>> shift) n a

/-- The butterflies of a block of `2m` places; the first twiddle factor is 1. -/
def butterflies (tw : List F) (m stride : ℕ) (block : ℕ → F) : ℕ → F :=
  (List.range m).foldl (fun b j =>
    let t := if j = 0 then b (m + j) else b (m + j) * entry tw (j * stride)
    Function.update (Function.update b (m + j) (b j - t)) j (b j + t)) block

/-- The layers from blocks of `2m` places on; `fuel` bounds them. -/
def layers (tw : List F) (s n : ℕ) : ℕ → ℕ → (ℕ → F) → ℕ → F
  | 0, _, a => a
  | fuel + 1, m, a =>
      if m < n then
        let stride := n / (2 * m)
        layers tw s n fuel (m * 2) (chunks (2 * m) (fun _ => butterflies tw m (stride * s)) a)
      else a

/-- Radix-2 transform of `n` places, with `ω_n^j = tw[j·s]`. -/
def radix2FftStrided (n : ℕ) (tw : List F) (s : ℕ) (a : ℕ → F) : ℕ → F :=
  if n ≤ 1 then a else layers tw s n n 1 (bitrevPermute n a)

/-- Transform of `n = 3^b·2^a` places, with `ω_n^j = tw[j·s]`: the three subsequences, and 4
multiplications for 3 places. -/
def mixedFft (tw : List F) (n s : ℕ) (a : ℕ → F) : ℕ → F :=
  if h : n % 3 ≠ 0 ∨ n = 0 then radix2FftStrided n tw s a
  else
    let m := n / 3
    let sc := write (fun _ => 0) ((List.range m).flatMap fun j2 =>
      [(j2, a (3 * j2)), (m + j2, a (3 * j2 + 1)), (2 * m + j2, a (3 * j2 + 2))])
    let sc := chunks m (fun _ => mixedFft tw m (3 * s)) sc
    let half := (2 : F)⁻¹
    let w3 := entry tw (m * s)
    let c := (w3 - w3 ^ 2) * half
    write a ((List.range m).flatMap fun k =>
      let x0 := sc k
      let x1 := sc (m + k) * entry tw (k * s)
      let x2 := sc (2 * m + k) * entry tw (2 * k * s)
      let sum := x1 + x2
      let d := (x1 - x2) * c
      let mid := x0 - sum * half
      [(k, x0 + sum), (m + k, mid + d), (2 * m + k, mid - d)])
termination_by n
decreasing_by omega

/-! ### Domains -/

/-- A domain of `n1 * n2` points. -/
structure Domain (F : Type) where
  n : ℕ
  logN : ℕ
  n1 : ℕ
  n2 : ℕ
  tile : ℕ
  sizeInv : F
  fwd : Tables F
  inv : Tables F

/-- `inverse`. -/
def inverse [DecidableEq F] (x : F) : Option F := if x = 0 then none else some x⁻¹

/-- The domain of `n1 * n2` points as a matrix (`Domain::with_split`). -/
def Domain.withSplit [DecidableEq F] (R : FftField F) (n1 n2 tile : ℕ) : Option (Domain F) :=
  let odd := if n1 = 0 then 0 else n1 >>> trailingZeros n1
  if isPowerOfTwo n2 = false ∨ odd ∉ [1, 3, 9] then none
  else if 2 ^ 64 ≤ n1 * n2 then none
  else do
    let n := n1 * n2
    let omega ← R.getRootOfUnity n
    let omegaInv ← inverse omega
    let sizeInv ← inverse (n : F)
    return {
      n := n
      logN := n.log2
      n1 := n1
      n2 := n2
      tile := min (max tile 1) n2
      sizeInv := sizeInv
      fwd := Tables.new omega n1 n2
      inv := Tables.new omegaInv n1 n2 }

/-- The domain of exactly `n` points (`Domain::with_size`). -/
def Domain.withSize [DecidableEq F] (R : FftField F) (n : ℕ) (cfg : FftConfig) :
    Option (Domain F) := do
  let q ← [9, 3, 1].find? fun q => n % q = 0
  let k := trailingZeros (n / q)
  if n ≠ q * 2 ^ k then none
  else if q = 1 ∧ k < cfg.minBlockedLog then Domain.withSplit R 1 n cfg.tile
  else if k < cfg.minBlockedLog then Domain.withSplit R q (2 ^ k) cfg.tile
  else Domain.withSplit R (q * 2 ^ (k / 2)) (2 ^ (k - k / 2)) cfg.tile

/-- When the twiddle factors between rows and columns are multiplied in. -/
inductive Twiddle
  | pre
  | post
deriving DecidableEq

/-- The column passes of a coset transform. -/
inductive ColOp
  | inversePost
  | forwardPre
deriving DecidableEq

/-- The steps of a row. -/
inductive RowStage (F : Type)
  | fft
  | ifft
  | scale (k : F)
  | coset (g : F)

/-- `dst[c·rows + r] = f(src[r·cols + c])`, tile by tile. -/
def transposeMap {α β : Type} (src : ℕ → α) (dst : ℕ → β) (rows cols tile : ℕ) (f : α → β) :
    ℕ → β :=
  let tile := max tile 1
  chunks (tile * rows) (fun bc out =>
    let c0 := bc * tile
    let cn := min tile (cols - c0)
    write out ((List.range ((rows + tile - 1) / tile)).flatMap fun br =>
      let r0 := br * tile
      let rn := min tile (rows - r0)
      (List.range' r0 rn).flatMap fun r =>
        (List.range cn).map fun dc => (dc * rows + r, f (src (r * cols + c0 + dc))))) dst

namespace Domain

variable (d : Domain F)

def isBlocked : Bool := decide (1 < d.n1)

/-- Column transform. -/
def colFft (t : Tables F) (col : ℕ → F) : ℕ → F :=
  if d.n1 % 3 = 0 then mixedFft t.twN1 d.n1 1 col else radix2FftStrided d.n1 t.twN1 1 col

/-- Columns from `c0` on, stored column by column. -/
def colsCore (c0 : ℕ) (t : Tables F) (tw : Twiddle) (scale : F) (cols : ℕ → F) : ℕ → F :=
  chunks d.n1 (fun j col =>
    let step := entry t.colStep (c0 + j)
    let col := if tw = .pre then scaleBy d.n1 scale step col else col
    let col := d.colFft t col
    if tw = .post then scaleBy d.n1 scale step col else col) cols

/-- One tile of columns: gathered, transformed and scattered. -/
def colTile (t : Tables F) (tw : Twiddle) (scale : F) (buf : ℕ → F) (bt : ℕ) : ℕ → F :=
  let c0 := bt * d.tile
  let b := min d.tile (d.n2 - c0)
  let scratch := write (fun _ => 0) ((List.range d.n1).flatMap fun r =>
    (List.range b).map fun j => (j * d.n1 + r, buf (r * d.n2 + c0 + j)))
  let scratch := d.colsCore c0 t tw scale scratch
  write buf ((List.range d.n1).flatMap fun r =>
    (List.range b).map fun j => (r * d.n2 + c0 + j, scratch (j * d.n1 + r)))

/-- All columns. -/
def colPass (t : Tables F) (tw : Twiddle) (scale : F) (buf : ℕ → F) : ℕ → F :=
  (List.range ((d.n2 + d.tile - 1) / d.tile)).foldl (d.colTile t tw scale) buf

/-- One step of row `k1`. -/
def rowStage (k1 : ℕ) (row : ℕ → F) : RowStage F → ℕ → F
  | .fft => radix2FftStrided d.n2 d.fwd.twN2 1 row
  | .ifft => radix2FftStrided d.n2 d.inv.twN2 1 row
  | .scale k => fun p => row p * k
  | .coset g => scaleBy d.n2 (g ^ k1) (g ^ d.n1) row

/-- Whole rows, of which the first is `firstRow`. -/
def rowsKernel (rows : ℕ → F) (firstRow : ℕ) (stages : List (RowStage F)) : ℕ → F :=
  chunks d.n2 (fun i row => stages.foldl (d.rowStage (firstRow + i)) row) rows

def colOp (op : ColOp) : Tables F × Twiddle × F :=
  match op with
  | .inversePost => (d.inv, .post, d.sizeInv)
  | .forwardPre => (d.fwd, .pre, 1)

/-- A block of `b` columns from `c0` on, stored row by row. -/
def colsKernel (block : ℕ → F) (b c0 : ℕ) (op : ColOp) : ℕ → F :=
  let cm := transposeMap block (fun _ => 0) d.n1 b d.tile id
  let (t, tw, scale) := d.colOp op
  let cm := d.colsCore c0 t tw scale cm
  transposeMap cm block b d.n1 d.tile id

/-- All rows, some of them at a time. -/
def rowsPass (buf : ℕ → F) (stages : List (RowStage F)) : ℕ → F :=
  let per := max ((2 ^ 15 + d.n2 - 1) / d.n2) 1
  chunks (d.n2 * per) (fun i rows => d.rowsKernel rows (i * per) stages) buf

def scale (buf : ℕ → F) (k : F) : ℕ → F := chunks (2 ^ 12) (fun _ c p => c p * k) buf

/-- Transform, natural order to T-layout. -/
def fftToT (buf : ℕ → F) : ℕ → F :=
  if d.isBlocked then d.rowsPass (d.colPass d.fwd .post 1 buf) [.fft]
  else radix2FftStrided d.n d.fwd.twN2 1 buf

/-- Transform, T-layout to natural order. -/
def fftFromT (buf : ℕ → F) : ℕ → F :=
  if d.isBlocked then d.colPass d.fwd .pre 1 (d.rowsPass buf [.fft])
  else radix2FftStrided d.n d.fwd.twN2 1 buf

/-- Inverse transform, natural order to T-layout. -/
def ifftToT (buf : ℕ → F) : ℕ → F :=
  if d.isBlocked then d.rowsPass (d.colPass d.inv .post d.sizeInv buf) [.ifft]
  else scale (radix2FftStrided d.n d.inv.twN2 1 buf) d.sizeInv

/-- Inverse transform, T-layout to natural order. -/
def ifftFromT (buf : ℕ → F) : ℕ → F :=
  if d.isBlocked then d.colPass d.inv .pre d.sizeInv (d.rowsPass buf [.ifft])
  else scale (radix2FftStrided d.n d.inv.twN2 1 buf) d.sizeInv

/-- Multiply what holds index `i` by `g^i`. -/
def cosetScaleT (buf : ℕ → F) (g : F) : ℕ → F :=
  chunks d.n2 (fun k1 row => scaleBy d.n2 (g ^ k1) (g ^ d.n1) row) buf

/-- Values on the domain to values on the coset of `g`. -/
def toCoset (buf : ℕ → F) (g : F) : ℕ → F :=
  if d.isBlocked then
    let (t, tw, k) := d.colOp .inversePost
    let buf := d.colPass t tw k buf
    let buf := d.rowsPass buf [.ifft, .coset g, .fft]
    let (t, tw, k) := d.colOp .forwardPre
    d.colPass t tw k buf
  else d.fftFromT (d.cosetScaleT (d.ifftToT buf) g)

/-- Values on a coset to coefficients in T-layout. -/
def fromCosetToT (buf : ℕ → F) (gInv : F) : ℕ → F :=
  if d.isBlocked then
    let (t, tw, k) := d.colOp .inversePost
    d.rowsPass (d.colPass t tw k buf) [.ifft, .coset gInv]
  else d.cosetScaleT (d.ifftToT buf) gInv

/-- T-layout to natural order. -/
def tToNatural {β : Type} (src : ℕ → F) (default : β) (f : F → β) : ℕ → β :=
  transposeMap src (fun _ => default) d.n1 d.n2 d.tile f

/-- Transform in natural order. -/
def fft (buf : ℕ → F) : ℕ → F :=
  let buf := d.fftToT buf
  if d.isBlocked then d.tToNatural buf 0 id else buf

/-- Inverse transform in natural order. -/
def ifft (buf : ℕ → F) : ℕ → F :=
  let buf := d.ifftToT buf
  if d.isBlocked then d.tToNatural buf 0 id else buf

end Domain

end Fft

end XarkCircuit
