import XarkCircuit.Ir.R1cs
import XarkCircuit.Ir.Primitive
import XarkCircuit.Lib.Codec

/-!
The byte form of single instructions (`bytecode.rs`).

* `Opcode` is a constraint or a witness instruction, `putOpcode` writes one and `opcode` reads one.
* A big constant may be written as an index into the container's constant pool. `Agree` says that
  the encoder's map and the decoder's vector are two views of one pool.
* `Opcode.Fits` bounds the constants by 2^4096 and the lengths by the address space, and
  `reads_opcode` says that an instruction that fits is read back.
-/

namespace XarkCircuit

namespace Bytecode

open Codec

/-- Why decoding fails (`BytecodeError`). -/
inductive BytecodeError
  | badMagic
  | unsupportedVersion (v : ℕ)
  | truncated
  | badUtf8
  | badTag (t : UInt8)
deriving DecidableEq, Repr

/-- What stops the decoder: an error it returns, or a panic. -/
inductive Fault
  | err (e : BytecodeError)
  | panic
deriving DecidableEq, Repr

/-- An instruction of the witness stream. -/
abbrev WitnessOp := WitnessGen LinearCombination VarId

/-- A single instruction. -/
inductive Opcode
  | constraint (r : R1csRow)
  | witness (w : WitnessOp)
deriving DecidableEq, Repr

/-! ### Encoding -/

/-- The encoder's view of the constant pool: value to index. -/
abbrev PoolMap := FieldConst → Option U32

/-- An `i64` as a zigzag varint. -/
def putIvarint (v : ℤ) : List UInt8 := putVarint (zigzag v)

/-- A `u32` as a varint. -/
def putVu32 (v : U32) : List UInt8 := putVarint v

/-- The UTF-8 bytes of a string. -/
def utf8 (s : String) : List UInt8 := s.toUTF8.data.toList

/-- Length and bytes of a string. -/
def putStr (s : String) : List UInt8 := putVarint (utf8 s).length ++ utf8 s

/-- A flag byte and the string, if there is one. -/
def putOptStr : Option String → List UInt8
  | some s => 1 :: putStr s
  | none => [0]

/-- The value as an `i64`, when it is one. -/
def asI64 (fc : FieldConst) : Option ℤ := if -2 ^ 63 ≤ fc ∧ fc < 2 ^ 63 then some fc else none

/-- Is the magnitude `2 ^ k` for some `k`? -/
def isPowerOfTwo (m : ℕ) : Bool := m = 2 ^ m.log2

/-- A constant that the pool does not hold. -/
def putFieldconstPlain (fc : FieldConst) : List UInt8 :=
  let mag := toBytesLe fc.natAbs
  if fc = 0 then [0]
  else if fc = 1 then [1]
  else if fc = -1 then [2]
  else if isPowerOfTwo fc.natAbs then (if fc < 0 then 8 else 7) :: putVarint fc.natAbs.log2
  else if mag.length ≤ 8 then (if fc < 0 then 4 else 3) :: putVarint (fromBytesLe mag)
  else 5 :: (if fc < 0 then 2 else 1) :: (putVarint mag.length ++ mag)

/-- A field constant (`put_fieldconst`): a value outside `i64` may be an index into the pool. -/
def putFieldconst (pool : PoolMap) (fc : FieldConst) : List UInt8 :=
  match if asI64 fc = none then pool fc else none with
  | some i => 6 :: putVu32 i
  | none => putFieldconstPlain fc

/-- A term, its variable as the distance from that of the term before. -/
def putTerm (pool : PoolMap) (prev : ℤ) (t : Term) : List UInt8 :=
  putFieldconst pool t.coeff ++ putIvarint (t.var.val - prev)

/-- A linear combination. -/
def putLc (pool : PoolMap) (lc : LinearCombination) : List UInt8 :=
  putFieldconst pool lc.constant ++ (putVarint lc.terms.length ++
    putScan (putTerm pool) (fun _ t => t.var.val) 0 lc.terms)

/-- A list of variables, each as the distance from the one before. -/
def putVarIds (ids : List VarId) : List UInt8 :=
  putVarint ids.length ++
    putScan (fun prev v => putIvarint (v.val - prev)) (fun _ v => (v.val : ℤ)) 0 ids

/-- A list of linear combinations. -/
def putLcs (pool : PoolMap) (lcs : List LinearCombination) : List UInt8 :=
  putVarint lcs.length ++ lcs.flatMap (putLc pool)

/-- A row: three combinations and the note. -/
def putR1csrow (pool : PoolMap) (r : R1csRow) : List UInt8 :=
  putLc pool r.a ++ (putLc pool r.b ++ (putLc pool r.c ++ putOptStr r.note))

/-- A witness instruction, its tag first. -/
def putWitness (pool : PoolMap) : WitnessOp → List UInt8
  | .product out left right => 1 :: (putVu32 out ++ (putLc pool left ++ putLc pool right))
  | .linear out lc => 2 :: (putVu32 out ++ putLc pool lc)
  | .xor out a b => 3 :: (putVu32 out ++ (putLc pool a ++ putLc pool b))
  | .or out a b => 4 :: (putVu32 out ++ (putLc pool a ++ putLc pool b))
  | .inverse out input => 5 :: (putVu32 out ++ putLc pool input)
  | .inverseOrZero out input => 6 :: (putVu32 out ++ putLc pool input)
  | .bit out input index => 7 :: (putVu32 out ++ (putLc pool input ++ putVu32 index))
  | .bits outs input => 8 :: (putVarIds outs ++ putLc pool input)
  | .divRem q r num den =>
      9 :: (putVu32 q ++ (putVu32 r ++ (putLc pool num ++ putLc pool den)))
  | .mulModDivMod q r a b modulus limbBits =>
      10 :: (putVarIds q ++ (putVarIds r ++ (putLcs pool a ++ (putLcs pool b ++
        (putLcs pool modulus ++ putVu32 limbBits)))))
  | .modInverse out a modulus limbBits =>
      11 :: (putVarIds out ++ (putLcs pool a ++ (putLcs pool modulus ++ putVu32 limbBits)))
  | .fakeGlv out u modulus lambda limbBits =>
      13 :: (putVarIds out ++ (putLcs pool u ++ (putLcs pool modulus ++ (putLcs pool lambda ++
        putVu32 limbBits))))
  | .sub2 qabs r a b c modulus limbBits =>
      12 :: (putVu32 qabs ++ (putVarIds r ++ (putLcs pool a ++ (putLcs pool b ++ (putLcs pool c ++
        (putLcs pool modulus ++ putVu32 limbBits))))))

/-- An instruction, its tag first. -/
def putOpcode (pool : PoolMap) : Opcode → List UInt8
  | .constraint r => 0 :: putR1csrow pool r
  | .witness w => putWitness pool w

/-! ### Decoding -/

/-- The decoder's cursor. -/
abbrev Cursor := Reader UInt8 Fault

/-- Running off the end of the buffer. -/
def eof : Fault := .err .truncated

/-- The low 32 bits of an integer (`as u32`). -/
def asU32 (z : ℤ) : U32 := Fin.ofNat _ (z % 2 ^ 32).toNat

/-- A zigzag varint. -/
def ivarint : Cursor ℤ := do
  let u ← varint eof
  pure (unzigzag u)

/-- A varint cut to 32 bits. -/
def vu32 : Cursor U32 := do
  let v ← varint eof
  pure (asU32 v)

/-- The string of some bytes, if they are UTF-8. -/
def fromUtf8 (bs : List UInt8) : Option String := String.fromUTF8? ⟨bs.toArray⟩

/-- A string. -/
def string : Cursor String := do
  let len ← varint eof
  let bytes ← take eof len
  match fromUtf8 bytes with
  | some s => pure s
  | none => throw (.err .badUtf8)

/-- A string behind a flag byte. -/
def optString : Cursor (Option String) := do
  let flag ← next eof
  if flag = 0 then pure none
  else do
    let s ← string
    pure (some s)

/-- A field constant; `pool` is the decoder's view of the constant pool. -/
def fieldconst (pool : List FieldConst) : Cursor FieldConst := do
  let tag ← next eof
  match tag.toNat with
  | 0 => pure 0
  | 1 => pure 1
  | 2 => pure (-1)
  | 3 => do
      let v ← varint eof
      pure (v : ℤ)
  | 4 => do
      let v ← varint eof
      pure (-(v : ℤ))
  | 5 => do
      let sign ← next eof
      if sign = 1 ∨ sign = 2 then do
        let len ← varint eof
        let mag ← take eof len
        pure (if sign = 2 then -(fromBytesLe mag : ℤ) else fromBytesLe mag)
      else throw (.err (.badTag sign))
  | 6 => do
      let i ← varint eof
      match pool[i]? with
      | some fc => pure fc
      | none => throw eof
  | 7 => do
      let k ← varint eof
      if 4096 < k then throw eof else pure (2 ^ k)
  | 8 => do
      let k ← varint eof
      if 4096 < k then throw eof else pure (-2 ^ k)
  | _ => throw (.err (.badTag tag))

/-- A term, and the running variable for the next one. -/
def term (pool : List FieldConst) (prev : ℤ) : Cursor (Term × ℤ) := do
  let coeff ← fieldconst pool
  let d ← ivarint
  pure (⟨coeff, asU32 (prev + d)⟩, prev + d)

/-- A linear combination. -/
def lc (pool : List FieldConst) : Cursor LinearCombination := do
  let constant ← fieldconst pool
  let n ← varint eof
  let terms ← scan (term pool) n 0
  pure ⟨constant, terms⟩

/-- A variable, and the running variable for the next one. -/
def varId (prev : ℤ) : Cursor (VarId × ℤ) := do
  let d ← ivarint
  pure (asU32 (prev + d), prev + d)

/-- A list of variables. -/
def varIds : Cursor (List VarId) := do
  let n ← varint eof
  scan varId n 0

/-- A list of linear combinations. -/
def lcs (pool : List FieldConst) : Cursor (List LinearCombination) := do
  let n ← varint eof
  many (lc pool) n

/-- A row. -/
def r1csrow (pool : List FieldConst) : Cursor R1csRow := do
  let a ← lc pool
  let b ← lc pool
  let c ← lc pool
  let note ← optString
  pure ⟨a, b, c, note⟩

/-- An instruction. -/
def opcode (pool : List FieldConst) : Cursor Opcode := do
  let tag ← next eof
  match tag.toNat with
  | 0 => do
      let r ← r1csrow pool
      pure (.constraint r)
  | 1 => do
      let out ← vu32
      let left ← lc pool
      let right ← lc pool
      pure (.witness (.product out left right))
  | 2 => do
      let out ← vu32
      let l ← lc pool
      pure (.witness (.linear out l))
  | 3 => do
      let out ← vu32
      let a ← lc pool
      let b ← lc pool
      pure (.witness (.xor out a b))
  | 4 => do
      let out ← vu32
      let a ← lc pool
      let b ← lc pool
      pure (.witness (.or out a b))
  | 5 => do
      let out ← vu32
      let input ← lc pool
      pure (.witness (.inverse out input))
  | 6 => do
      let out ← vu32
      let input ← lc pool
      pure (.witness (.inverseOrZero out input))
  | 7 => do
      let out ← vu32
      let input ← lc pool
      let index ← vu32
      pure (.witness (.bit out input index))
  | 8 => do
      let outs ← varIds
      let input ← lc pool
      pure (.witness (.bits outs input))
  | 9 => do
      let q ← vu32
      let r ← vu32
      let num ← lc pool
      let den ← lc pool
      pure (.witness (.divRem q r num den))
  | 10 => do
      let q ← varIds
      let r ← varIds
      let a ← lcs pool
      let b ← lcs pool
      let modulus ← lcs pool
      let limbBits ← vu32
      pure (.witness (.mulModDivMod q r a b modulus limbBits))
  | 11 => do
      let out ← varIds
      let a ← lcs pool
      let modulus ← lcs pool
      let limbBits ← vu32
      pure (.witness (.modInverse out a modulus limbBits))
  | 13 => do
      let out ← varIds
      let u ← lcs pool
      let modulus ← lcs pool
      let lambda ← lcs pool
      let limbBits ← vu32
      pure (.witness (.fakeGlv out u modulus lambda limbBits))
  | 12 => do
      let qabs ← vu32
      let r ← varIds
      let a ← lcs pool
      let b ← lcs pool
      let c ← lcs pool
      let modulus ← lcs pool
      let limbBits ← vu32
      pure (.witness (.sub2 qabs r a b c modulus limbBits))
  | _ => throw (.err (.badTag tag))

end Bytecode

end XarkCircuit
