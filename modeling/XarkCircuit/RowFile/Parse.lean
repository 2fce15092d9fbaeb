import XarkCircuit.Bytecode.Wire
import XarkCircuit.Ir.R1cs
import XarkCircuit.Lib.PosReader

/-!
Row files (`r1cs_stream.rs`): the reader.

* `RowFile.header` reads what comes before the rows; `RowFile.parse` adds the checks of the counts
  and of the window offsets against the bytes that are left.
* `RowFile.decodeWindow` decodes the rows of one window from the window's offset; the linear
  combinations handed to the callback are returned as a list.
* All arithmetic that is not checked in the source is done by operations that can stop with
  `Stop.panic`, and every preallocation by `reserve`, which can stop with `Stop.unbounded`.
-/

namespace XarkCircuit

open Codec

/-- The bytes of a file in memory. -/
structure FileBytes where
  data : List UInt8
  fits : data.length < 2 ^ 63

/-- Why the reader stopped. -/
inductive Stop where
  | err (message : String)
  /-- An overflow, an access out of range, or an `unwrap` of nothing. -/
  | panic
  /-- A preallocation of more entries than the file has bytes. -/
  | unbounded
deriving DecidableEq, Repr

/-- A reader of parts of a row file. -/
abbrev RowReader := PosReader UInt8 Stop

/-- The error of a malformed header. -/
def malformed : Stop := .err "malformed r1cs.stream"

/-- The error of a malformed row. -/
def malformedRow : Stop := .err "malformed r1cs.stream row"

/-- `a + b` on machine words. -/
def add64 (a b : ℕ) : Except Stop ℕ := if a + b < 2 ^ 64 then .ok (a + b) else .error .panic

/-- `a * b` on machine words. -/
def mul64 (a b : ℕ) : Except Stop ℕ := if a * b < 2 ^ 64 then .ok (a * b) else .error .panic

/-- `a - b` on machine words. -/
def sub64 (a b : ℕ) : Except Stop ℕ := if b ≤ a then .ok (a - b) else .error .panic

/-! ### Integers and bytes -/

/-- `get_uv`, and `get_usize`, with the caller's error. -/
def RowFile.getUv (bad : Stop) : RowReader ℕ := PosReader.uv bad .panic

/-- `get_u32`, with the caller's error. -/
def RowFile.getU32 (bad : Stop) : RowReader (Fin (2 ^ 32)) := do
  let v ← RowFile.getUv bad
  if h : v < 2 ^ 32 then pure ⟨v, h⟩ else throw bad

/-- `take_bytes`, with the caller's error. -/
def takeBytes (bad : Stop) (len : ℕ) : RowReader (List UInt8) := PosReader.take bad len

/-- `Vec::with_capacity`. -/
def reserve (n : ℕ) : RowReader Unit := fun b p =>
  if n ≤ b.length then .ok ((), p) else .error .unbounded

/-- `b.len().saturating_sub(p)`. -/
def bytesLeft : RowReader ℕ := fun b p => .ok (b.length - p, p)

/-- `b.len()`. -/
def fileLen : RowReader ℕ := fun b p => .ok (b.length, p)

/-! ### The header -/

/-- What comes before the rows. -/
structure RowHeader where
  fingerprint : String
  vars : List (VarId × Bool)
  pool : List FieldConst
  numRows : ℕ
  window : ℕ
  offsets : List ℕ

/-- The loop over the variables; `vars` are those read so far, which are all different. -/
def varEntries : ℕ → List (VarId × Bool) → RowReader (List (VarId × Bool))
  | 0, vars => return vars
  | n + 1, vars => do
      let id ← RowFile.getU32 malformed
      if id ∈ vars.map Prod.fst then throw malformed else
      match ← takeBytes malformed 1 with
      | [] => throw .panic
      | visibility :: _ =>
          if 1 < visibility then throw malformed else
          varEntries n (vars ++ [(id, visibility == 1)])

/-- One constant of the pool. -/
def poolEntry : RowReader FieldConst := do
  let l ← RowFile.getUv malformed
  let raw ← takeBytes malformed l
  return if l = 0 then 0 else fromSignedBytesLe raw

/-- One window offset. -/
def offsetEntry : RowReader ℕ := do
  let o ← takeBytes malformed 8
  -- `o.try_into().unwrap()`
  if o.length ≠ 8 then throw .panic else
  return fromBytesLe o

/-- The header after the magic. -/
def RowFile.header : RowReader RowHeader := do
  let fl ← RowFile.getUv malformed
  let fingerprint ← takeBytes malformed fl
  match Bytecode.fromUtf8 fingerprint with
  | none => throw malformed
  | some fingerprint =>
      let nv ← RowFile.getUv malformed
      let left ← bytesLeft
      if left / 2 < nv then throw malformed else
      let len ← fileLen
      reserve (min nv len)
      -- the set of the ids seen
      reserve nv
      let vars ← varEntries nv []
      let np ← RowFile.getUv malformed
      reserve (min np len)
      let pool ← PosReader.many poolEntry np
      let numRows ← RowFile.getUv malformed
      let window ← RowFile.getUv malformed
      let nw ← RowFile.getUv malformed
      if window = 0 ∨ nw ≠ (numRows + window - 1) / window then throw malformed else
      let left ← bytesLeft
      if 2 ^ 64 ≤ nw * 8 ∨ left < nw * 8 then throw malformed else
      reserve nw
      let offsets ← PosReader.many offsetEntry nw
      return ⟨fingerprint, vars, pool, numRows, window, offsets⟩

/-! ### The file -/

/-- A parsed row file: its header, its bytes, and where the rows start. -/
structure RowFile extends RowHeader where
  bytes : FileBytes
  rowsStart : ℕ

/-- The loop over the window offsets. -/
def checkOffsets (rowsLen : ℕ) : Option ℕ → List ℕ → Except Stop Unit
  | _, [] => .ok ()
  | previous, offset :: offsets =>
      if rowsLen ≤ offset ∨ previous.any (offset ≤ ·) then .error malformed
      else checkOffsets rowsLen (some offset) offsets

/-- `b"XRS1"`. -/
def rowMagic : List UInt8 := [0x58, 0x52, 0x53, 0x31]

/-- `RowFile::parse`. -/
def RowFile.parse (bytes : FileBytes) : Except Stop RowFile :=
  if bytes.data.length < 4 ∨ bytes.data.take 4 ≠ rowMagic then
    .error (.err "not an r1cs.stream file")
  else do
    let (h, p) ← RowFile.header bytes.data 4
    if bytes.data.length < p then .error malformed else
    let rowsLen := bytes.data.length - p
    if 2 ^ 64 ≤ h.numRows * 6 ∨ rowsLen < h.numRows * 6 then .error malformed else
    checkOffsets rowsLen none h.offsets
    if h.offsets.head?.any (· ≠ 0) then .error malformed else
    return { h with bytes := bytes, rowsStart := p }

/-! ### Windows -/

/-- What the callback gets: the index of the constant, and the terms with the indices of their
coefficients. -/
structure PooledLc where
  const : Fin (2 ^ 32)
  terms : List (VarId × Fin (2 ^ 32))
deriving DecidableEq

/-- The loop over the terms, from the variable `var`. -/
def termEntries (poolLen : ℕ) : ℕ → VarId → List (VarId × Fin (2 ^ 32)) →
    RowReader (List (VarId × Fin (2 ^ 32)))
  | 0, _, terms => return terms
  | n + 1, var, terms => do
      let delta ← RowFile.getU32 malformedRow
      if h : var.val + delta.val < 2 ^ 32 then
        let c ← RowFile.getU32 malformedRow
        if poolLen ≤ c.val then throw malformedRow else
        termEntries poolLen n ⟨var.val + delta.val, h⟩ (terms ++ [(⟨var.val + delta.val, h⟩, c)])
      else throw malformedRow

/-- One linear combination. -/
def lcEntry (poolLen : ℕ) : RowReader PooledLc := do
  let k ← RowFile.getU32 malformedRow
  let n ← RowFile.getUv malformedRow
  let terms ← termEntries poolLen n 0 []
  if poolLen ≤ k.val then throw malformedRow else
  return ⟨k, terms⟩

/-- Where window `w` has to end. -/
def RowFile.expectedEnd (f : RowFile) (w : ℕ) : Except Stop ℕ :=
  match f.offsets[w + 1]? with
  | some offset => .ok offset
  | none => sub64 f.bytes.data.length f.rowsStart

/-- `RowFile::decode_window`. -/
def RowFile.decodeWindow (f : RowFile) (w : ℕ) : Except Stop (List PooledLc) :=
  match f.offsets[w]? with
  | none => .error (.err ("r1cs.stream window " ++ toString w ++ " is out of range"))
  | some offset => do
      if 2 ^ 64 ≤ f.rowsStart + offset then .error malformedRow else
      let before ← mul64 w f.window
      let rows ← sub64 f.numRows before
      let count ← mul64 (min f.window rows) 3
      let (lcs, p) ←
        PosReader.many (lcEntry f.pool.length) count f.bytes.data (f.rowsStart + offset)
      if p < f.rowsStart then .error malformedRow else
      let expected ← f.expectedEnd w
      if p - f.rowsStart ≠ expected then .error malformedRow else
      return lcs

end XarkCircuit
