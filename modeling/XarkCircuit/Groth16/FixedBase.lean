import XarkCircuit.Groth16.Points
import XarkCircuit.Lib.BatchInverse
import XarkCircuit.Lib.Outcome
import XarkCircuit.Lib.ShortWeierstrass
import XarkCircuit.Solve.Parallel

/-!
Multiples of one fixed point (`FixedBase` in `setup.rs`).

* `FixedBase.new` tabulates `j · 2^(wk) · G` for every window `k` and `j = 1, ..., 2^(w-1)`.
* `FixedBase.digits` splits a scalar into signed digits to the base `2^w`.
* `FixedBase.mul` adds one entry of each window, in affine coordinates: the sums of a window
  that are chords share one inversion (`BatchInverse.run`).
-/

namespace XarkCircuit

open Verifier ShortWeierstrass

/-- `FIXED_BASE_BATCH`. -/
def fixedBaseBatch : ℕ := 1024

structure FixedBase (F : Type) where
  w : ℕ
  table : List (List (Affine F))

namespace FixedBase

variable {F : Type} [Field F] [DecidableEq F] {a b : F}

/-! ### The table -/

/-- The width of a window. -/
def width (numScalars : ℕ) : ℕ :=
  if numScalars < 32 then 4 else Nat.log2 numScalars * 69 / 100 + 1

/-- One spare bit absorbs the carry out of the top digit. -/
def windows (w : ℕ) : ℕ := (254 + 1 + w - 1) / w

/-- `w` doublings. -/
def doubled (w : ℕ) (P : (curve a b).Point) : (curve a b).Point := (fun P => P + P)^[w] P

/-- The tables for scalars of `num_scalars` multiplications. -/
def new (base : (curve a b).Point) (numScalars : ℕ) : FixedBase F :=
  let w := width numScalars
  let bases := List.iterate (doubled w) base (windows w)
  { w := w
    table := bases.map fun P => (List.iterate (· + P) P (2 ^ (w - 1))).map coords }

/-! ### The digits -/

/-- A limb, zero past the last. -/
def limb (limbs : List ℕ) (i : ℕ) : ℕ := limbs.getD i 0

/-- The `w` bits of window `k`, read off a pair of limbs. -/
def bits (w : ℕ) (limbs : List ℕ) (k : ℕ) : ℕ :=
  let i := k * w / 64
  let sh := k * w % 64
  ((limb limbs i ||| limb limbs (i + 1) <<< 64) >>> sh) % 2 ^ 64 &&& (2 ^ w - 1)

/-- The digits of `count` windows from `k` on, and the carry that is left. -/
def digitsFrom (w : ℕ) (limbs : List ℕ) : ℕ → ℕ → ℤ → List ℤ × ℤ
  | 0, _, carry => ([], carry)
  | count + 1, k, carry =>
      let half : ℤ := 2 ^ (w - 1)
      let v := bits w limbs k + carry
      let carry : ℤ := if v > half then 1 else 0
      let (ds, last) := digitsFrom w limbs count (k + 1) carry
      ((v - carry * 2 ^ w) :: ds, last)

/-- The signed digits of a scalar, and the carry that is asserted to be zero. -/
def digits (T : FixedBase F) (s : Fr) : List ℤ × ℤ :=
  digitsFrom T.w (Points.bigInt s.val) T.table.length 0 0

/-! ### Multiplication -/

/-- The coordinates of a point; infinity has zeros. -/
def xy : Affine F → F × F
  | none => (0, 0)
  | some p => p

/-- `-q`. -/
def neg (q : Affine F) : Affine F := q.map fun p => (p.1, -p.2)

/-- The chord through a sum so far and an entry. -/
def chord : BatchInverse.Rule (Affine F) (Affine F) F where
  den a q := (xy q).1 - (xy a).1
  upd a q inv := some (third (((xy q).2 - (xy a).2) * inv) (xy a).1 (xy a).2 (xy q).1)

/-- The sums so far, and the additions that wait for an inverse. -/
abbrev Pending (F : Type) := (ℕ → Affine F) × List (ℕ × Affine F)

/-- The digit of scalar `i` in one window: added at once, or pending. `add` is the library's sum. -/
def visit (add : Affine F → Affine F → Affine F) (tab : List (Affine F)) (digit : ℕ → ℤ)
    (st : Pending F) (i : ℕ) : Outcome (Pending F) :=
  let d := digit i
  if d = 0 then .ok st
  else do
    let q ← Outcome.orPanic tab[d.natAbs - 1]?
    let q := if d < 0 then neg q else q
    let a := st.1 i
    if a = none then .ok (Function.update st.1 i q, st.2)
    else if (xy a).1 = (xy q).1 then .ok (Function.update st.1 i (add a q), st.2)
    else .ok (st.1, st.2 ++ [(i, q)])

/-- One window for `n` scalars. -/
def addWindow (add : Affine F → Affine F → Affine F) (n : ℕ) (acc : ℕ → Affine F)
    (tab : List (Affine F)) (digit : ℕ → ℤ) : Outcome (ℕ → Affine F) := do
  let (acc, pending) ← (List.range n).foldlM (visit add tab digit) (acc, [])
  Outcome.orPanic (BatchInverse.run chord pending acc)

/-- A chunk of scalars. -/
def mulChunk (add : Affine F → Affine F → Affine F) (T : FixedBase F) (sc : List Fr) :
    Outcome (List (Affine F)) := do
  let digits := sc.map fun s => (T.digits s).1
  let acc ← T.table.zipIdx.foldlM (fun acc (tab, k) =>
    addWindow add sc.length acc tab fun i => (digits.getD i []).getD k 0) fun _ => none
  return (List.range sc.length).map acc

/-- All scalars, chunk by chunk. -/
def mul (add : Affine F → Affine F → Affine F) (T : FixedBase F) (scalars : List Fr) :
    Outcome (List (Affine F)) := do
  let chunks ← (parChunks fixedBaseBatch scalars.length scalars).mapM (mulChunk add T)
  return chunks.flatten

end FixedBase

end XarkCircuit
