import XarkCircuit.Groth16.Points
import XarkCircuit.Lib.BatchInverse
import XarkCircuit.Lib.Outcome
import XarkCircuit.Lib.ShortWeierstrass
import Mathlib.Data.Nat.Size

/-!
Multi-scalar multiplication (`msm.rs`).

* `AffineBuckets` are filled by additions in affine coordinates that share inversions in batches. A
  bucket that is in the batch already makes an addition wait; what waits too long goes to side
  buckets.
* `pippenger` splits the scalars of one class into Booth digits and sums bucket by bucket;
  `msm` sorts the scalars into classes by the size of `s` or `r - s`.
* `StreamingMsm` adds up the sums of chunks.

The group `G` and its mixed addition `ofAffine` are the library's.
-/

namespace XarkCircuit

open Verifier ShortWeierstrass

namespace Msm

/-! ### Affine buckets -/

/-- Additions per shared inversion. -/
def batch : ℕ := 512

/-- One bucket. -/
structure Slot (F : Type) where
  x : F
  y : F
  used : Bool

/-- An addition: a bucket and a point. -/
abbrev Addition (F : Type) := ℕ × (F × F)

structure AffineBuckets (F G : Type) where
  slots : ℕ → Slot F
  /-- The epoch in which a bucket was last put into the batch. -/
  stamp : ℕ → ℕ
  epoch : ℕ
  batch : List (Addition F)
  queue : List (Addition F)
  /-- Not allocated until the queue first overflows. -/
  side : Option (ℕ → G)

section Buckets

variable {F G : Type} [Field F] [DecidableEq F] [AddCommGroup G]

def AffineBuckets.new : AffineBuckets F G where
  slots _ := ⟨0, 0, false⟩
  stamp _ := 0
  epoch := 1
  batch := []
  queue := []
  side := none

/-- The addition of a batch: a chord, a tangent, or a cancellation that needs no inverse. -/
def addition (a : F) : BatchInverse.Rule (Slot F) (F × F) F where
  den s p := if s.x ≠ p.1 then p.1 - s.x else if s.y = p.2 ∧ s.y ≠ 0 then s.y + s.y else 1
  upd s p inv :=
    if s.x ≠ p.1 then
      let c := third ((p.2 - s.y) * inv) s.x s.y p.1
      { s with x := c.1, y := c.2 }
    else if s.y = p.2 ∧ s.y ≠ 0 then
      let c := third ((s.x ^ 2 + s.x ^ 2 + s.x ^ 2 + a) * inv) s.x s.y p.1
      { s with x := c.1, y := c.2 }
    else { s with used := false }

namespace AffineBuckets

variable (a : F) (ofAffine : Affine F → G)

/-- Add the batch to its buckets, and begin the next. -/
def flush (st : AffineBuckets F G) : Outcome (AffineBuckets F G) := do
  let slots ← Outcome.orPanic (BatchInverse.run (addition a) st.batch st.slots)
  return { st with slots := slots, batch := [], epoch := max ((st.epoch + 1) % 2 ^ 32) 1 }

/-- Add a point now, or batch it; `false` if its bucket is already in this batch. -/
def place (st : AffineBuckets F G) (b : ℕ) (p : F × F) : Outcome (AffineBuckets F G × Bool) :=
  if !(st.slots b).used then
    .ok ({ st with slots := Function.update st.slots b ⟨p.1, p.2, true⟩ }, true)
  else if st.stamp b = st.epoch then .ok (st, false)
  else do
    let st := { st with
      stamp := Function.update st.stamp b st.epoch
      batch := st.batch ++ [(b, p)] }
    let st ← if st.batch.length = Msm.batch then flush a st else .ok st
    return (st, true)

/-- Offer one queued addition to the batch. -/
def offer (st : AffineBuckets F G × List (Addition F)) (e : Addition F) :
    Outcome (AffineBuckets F G × List (Addition F)) := do
  let (st', placed) ← place a st.1 e.1 e.2
  return (st', if placed then st.2 else st.2 ++ [e])

/-- Offer the queued additions to the current batch. -/
def drain (st : AffineBuckets F G) : Outcome (AffineBuckets F G) := do
  let (st', kept) ← st.queue.foldlM (offer a) ({ st with queue := [] }, [])
  return { st' with queue := kept }

/-- Add what is still queued to the side buckets. -/
def spill (st : AffineBuckets F G) : AffineBuckets F G :=
  let side := st.side.getD fun _ => 0
  { st with
    side := some (st.queue.foldl (fun side e =>
      Function.update side e.1 (side e.1 + ofAffine (some e.2))) side)
    queue := [] }

/-- Add a point to a bucket. -/
def add (st : AffineBuckets F G) (b : ℕ) (p : F × F) : Outcome (AffineBuckets F G) := do
  let (st', placed) ← place a st b p
  if !placed then
    let st' := { st' with queue := st'.queue ++ [(b, p)] }
    if st'.queue.length = Msm.batch then
      let st' ← flush a st'
      let st' ← drain a st'
      return if st'.queue.length > Msm.batch / 2 then spill ofAffine st' else st'
    else .ok st'
  else if st'.epoch ≠ st.epoch then drain a st'
  else .ok st'

/-- At most `n` times: offer what is queued, and add the batch. -/
def settle : ℕ → AffineBuckets F G → Outcome (AffineBuckets F G)
  | 0, st => .ok st
  | n + 1, st =>
      if st.queue = [] then .ok st
      else do
        let st ← drain a st
        let st ← flush a st
        settle n st

/-- Finish the batches; the queue's last few go to the side buckets. -/
def finish (st : AffineBuckets F G) : Outcome (AffineBuckets F G) := do
  let st ← flush a st
  let st ← settle a 2 st
  return if st.queue ≠ [] then spill ofAffine st else st

/-- A bucket: its affine part, and its side sum if there is one. -/
def sum (st : AffineBuckets F G) (b : ℕ) : G :=
  (if (st.slots b).used then ofAffine (some ((st.slots b).x, (st.slots b).y)) else 0)
    + st.side.elim 0 fun side => side b

end AffineBuckets

end Buckets

/-! ### Digits -/

/-- A scalar as an integer of 256 bits. -/
abbrev Scalar := Fin (2 ^ 256)

/-- Bits `[pos, pos + len)`, zero past the last limb. -/
def bitsAt (s pos len : ℕ) : ℕ :=
  let limbs := Points.bigInt s
  let q := pos / 64
  let r := pos % 64
  if 4 ≤ q then 0
  else
    let v := limbs.getD q 0 >>> r
    let v := if 64 < r + len ∧ q + 1 < 4 then v ||| limbs.getD (q + 1) 0 <<< (64 - r) % 2 ^ 64 else v
    v &&& (2 ^ len - 1)

/-- Booth digit `w` of width `c`. -/
def boothDigit (s w c : ℕ) : ℤ :=
  let pos := w * c
  let v := bitsAt s pos c
  let carry := if pos = 0 then 0 else bitsAt s (pos - 1) 1
  v + carry - ((v >>> (c - 1) &&& 1 : ℕ) : ℤ) * 2 ^ c

/-! ### Pippenger's method -/

/-- How a sum is run. -/
structure Config where
  threads : ℕ
  /-- `BATCH_AFFINE`. -/
  batchAffine : Bool
  /-- Whether the build checks integer arithmetic; where it doesn't, differences wrap. -/
  overflowChecks : Bool
  /-- The window of least cost, for a number of points and of bits. The costs are floating-point
  numbers, so only the candidates are known. -/
  windowBits : ℕ → ℕ → ℕ
  windowBits_mem : ∀ n bits, 2 ≤ windowBits n bits ∧ windowBits n bits ≤ 15

/-- `hi - lo` of two machine words. -/
def Config.sub (cfg : Config) (hi lo : ℕ) : Outcome ℕ :=
  if lo ≤ hi then .ok (hi - lo)
  else if cfg.overflowChecks then .error .panic
  else .ok (2 ^ 64 + hi - lo)

/-- A scalar of a class: its index, and whether `r - s` stands for it. -/
abbrev Entry := ℕ × Bool

section Pippenger

variable {F G : Type} [Field F] [DecidableEq F] [AddCommGroup G] (a : F) (ofAffine : Affine F → G)
  (r : ℕ) (cfg : Config)

/-- `-p`. -/
def negIf (neg : Bool) (p : F × F) : F × F := if neg then (p.1, -p.2) else p

/-- The sum of `(j + 1) · bucket j`, by a running sum from the top. -/
def runningSum (nb : ℕ) (bucket : ℕ → G) : G :=
  ((List.range nb).reverse.foldl (fun (running, res) j =>
    let running := running + bucket j
    (running, res + running)) (0, 0)).2

/-- The affine buckets of a slice of digits and points. -/
def affineBuckets (slice : List (ℤ × Affine F)) : Outcome (AffineBuckets F G) := do
  let st ← slice.foldlM (fun st (d, p) =>
    if d = 0 then .ok st
    else match p with
      | none => .ok st
      | some p => AffineBuckets.add a ofAffine st (d.natAbs - 1) (negIf (decide (d < 0)) p))
    AffineBuckets.new
  AffineBuckets.finish a ofAffine st

/-- The buckets of a slice, in the library's representation. -/
def plainBuckets (slice : List (ℤ × Affine F)) : ℕ → G :=
  slice.foldl (fun bucket (d, p) =>
    if d = 0 then bucket
    else Function.update bucket (d.natAbs - 1)
      (if d < 0 then bucket (d.natAbs - 1) - ofAffine p else bucket (d.natAbs - 1) + ofAffine p))
    fun _ => 0

/-- The sum of one slice of one window. -/
def taskSum (c : ℕ) (row : List (ℤ × Affine F)) (lo hi : ℕ) : Outcome G := do
  let nb := 2 ^ (c - 1)
  let slice := (row.take hi).drop lo
  let affine ← if cfg.batchAffine then (fun len => decide (4 * nb ≤ len)) <$> cfg.sub hi lo
    else .ok false
  if affine then
    let st ← affineBuckets a ofAffine slice
    return runningSum nb (st.sum ofAffine)
  else return runningSum nb (plainBuckets ofAffine slice)

/-- The magnitude of an entry, and its sign. -/
def magnitude (scalars : List Scalar) (e : Entry) : ℕ :=
  let s := (scalars.getD e.1 0).val
  if e.2 then r - s else s

/-- Window `w`: the signed digits, each with its point. -/
def row (bases : List (Affine F)) (scalars : List Scalar) (entries : List Entry) (c w : ℕ) :
    List (ℤ × Affine F) :=
  entries.map fun e =>
    let d := boothDigit (magnitude r scalars e) w c
    (if e.2 then -d else d, bases.getD e.1 none)

/-- How many windows, and how many slices of each. -/
def windows (bits c : ℕ) : ℕ := (bits + 1 + c - 1) / c

def parts (n bits c : ℕ) : ℕ :=
  max (min ((2 * max cfg.threads 1 + windows bits c - 1) / windows bits c) (max (n >>> (c + 1)) 1)) 1

def partLen (n parts : ℕ) : ℕ := (n + parts - 1) / parts

/-- The sum over the entries of a class. -/
def pippenger (bases : List (Affine F)) (scalars : List Scalar) (entries : List Entry) (bits : ℕ) :
    Outcome G :=
  let n := entries.length
  if n = 0 then .ok 0
  else do
    let c := cfg.windowBits n bits
    let parts := parts cfg n bits c
    let len := partLen n parts
    let sums ← (List.range (windows bits c * parts)).mapM fun t =>
      let lo := t % parts * len
      taskSum a ofAffine cfg c (row r bases scalars entries c (t / parts)) lo (min n (lo + len))
    return (List.range (windows bits c)).reverse.foldl (fun total w =>
      (List.range parts).foldl (fun total part => total + sums.getD (w * parts + part) 0)
        ((fun total => total + total)^[c] total)) 0

/-! ### Classes -/

/-- The upper bit bounds; class 0 is `±1`. -/
def classBits : List ℕ := [1, 16, 32, 64, 128, 256]

/-- `NEG`: an index has fewer bits. -/
def negBit : ℕ := 2 ^ 31

/-- The class of scalar `i`, by the size of `s` or of `r - s`. -/
def classify (scalars : List Scalar) (i : ℕ) : Option (ℕ × Entry) :=
  let s := (scalars.getD i 0).val
  if s = 0 then none
  else
    let posBits := s.size
    let (bits, neg) :=
      if 128 < posBits ∧ s < r then
        let nb := (r - s).size
        if nb < posBits then (nb, true) else (posBits, false)
      else (posBits, false)
    if bits = 0 then none
    else (classBits.findIdx? fun b => decide (bits ≤ b)).map fun c => (c, (i, neg))

/-- The entries of a class, by index. -/
def entriesOf (scalars : List Scalar) (n c : ℕ) : List Entry :=
  (List.range n).filterMap fun i =>
    match classify r scalars i with
    | some (c', e) => if c' = c then some e else none
    | none => none

/-- `± 1`: plain additions. -/
def unit (bases : List (Affine F)) (entries : List Entry) : G :=
  entries.foldl (fun acc e =>
    if e.2 then acc - ofAffine (bases.getD e.1 none) else acc + ofAffine (bases.getD e.1 none)) 0

/-- `Σ sᵢ · Pᵢ` over the shorter of the two lists. -/
def msm (bases : List (Affine F)) (scalars : List Scalar) : Outcome G :=
  let n := min bases.length scalars.length
  let bases := bases.take n
  let scalars := scalars.take n
  if negBit ≤ n then .error .panic
  else
    (List.range classBits.length).tail.foldlM (fun total c => do
      let sum ← pippenger a ofAffine r cfg bases scalars (entriesOf r scalars n c) (classBits.getD c 0)
      return total + sum) (unit ofAffine bases (entriesOf r scalars n 0))

/-- Chunks of points and scalars, summed as they come (`StreamingMsm`). -/
def streaming (chunks : List (List (Affine F) × List Scalar)) : Outcome G :=
  chunks.foldlM (fun acc chunk => do
    let sum ← msm a ofAffine r cfg chunk.1 chunk.2
    return acc + sum) 0

end Pippenger

end Msm

end XarkCircuit
