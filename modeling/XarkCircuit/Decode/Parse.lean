import XarkCircuit.Bytecode.Roll
import XarkCircuit.Decode.Container

/-!
The parser of a container (`function_decode.rs`).

* `Parser` reads bytes and panics on malformed ones, which is all that can go wrong in it: a parser
  ends on every input. `getWitnessWith` reads a witness instruction
  with a given reader of combinations, `cItems` and `wItems` the two item streams of a scope.
* A scope's `table` holds the combinations of two or more terms of its rows so far, which a tag `8`
  entry refers back to. The source stores their positions; the model stores the combinations.
* A tag `7` entry holds a blob that `RunReader` turns into rows or instructions. `lenientRun` is the
  source's, which takes a blob that does not decode for an empty run, and `strictRun` one that
  panics there. A scope also lists the blobs it has met, with the pool they are read under.
* `parseContainer` is the whole parser.
-/

namespace XarkCircuit

open Codec Bytecode Outcome

/-- The one way a parser fails. -/
inductive Panic
  | panic
deriving DecidableEq, Repr

/-- A parser's failure is a panic of the program. -/
def Panic.toOutcome {α : Type} : Except Panic α → Outcome α
  | .ok a => .ok a
  | .error _ => .error .panic

/-- Indexing and `unwrap` in a parser. -/
def Panic.unless {α : Type} : Option α → Except Panic α
  | some a => .ok a
  | none => .error .panic

/-- Reads bytes, and panics on malformed ones. -/
abbrev Parser := Reader UInt8 Panic

/-! ### Low-level readers -/

/-- The next byte. -/
def getByte : Parser UInt8 := next .panic

/-- A varint; shift counts wrap. -/
def getUv : Parser ℕ := varintWrapping .panic

/-- A zigzag varint. -/
def getIv : Parser ℤ := do
  let u ← getUv
  pure (unzigzag u)

/-- A varint cut to 32 bits. -/
def getU32 : Parser U32 := do
  let u ← getUv
  pure (asU32 u)

/-- A field constant; `pool` is the container's constant pool. -/
def getFc (pool : List FieldConst) : Parser FieldConst := do
  let tag ← getByte
  match tag.toNat with
  | 0 => getIv
  | 2 => do
      let sign ← getByte
      if sign = 1 ∨ sign = 2 then do
        let n ← getUv
        let mag ← take .panic n
        pure (if sign = 2 then -(fromBytesLe mag : ℤ) else fromBytesLe mag)
      else throw .panic
  | 3 => do
      let i ← getUv
      (Panic.unless pool[i]? : Except Panic FieldConst)
  | 4 => do
      let k ← getUv
      if k < 4096 then pure (2 ^ k) else throw .panic
  | 5 => do
      let k ← getUv
      if k < 4096 then pure (-2 ^ k) else throw .panic
  | _ => throw .panic

/-- A variable as the distance from the one before, and the running variable. -/
def getVar (prev : ℤ) : Parser (VarId × ℤ) := do
  let d ← getIv
  pure (asU32 (prev + d), prev + d)

/-- A term, and the running variable. -/
def getTerm (pool : List FieldConst) (prev : ℤ) : Parser (Term × ℤ) := do
  let coeff ← getFc pool
  let d ← getIv
  pure (⟨coeff, asU32 (prev + d)⟩, prev + d)

/-- A linear combination. -/
def getLc (pool : List FieldConst) : Parser LinearCombination := do
  let constant ← getFc pool
  let n ← getUv
  let terms ← scan (getTerm pool) n 0
  pure ⟨constant, terms⟩

/-- A list of variables. -/
def getIds : Parser (List VarId) := do
  let n ← getUv
  scan getVar n 0

/-- A string. -/
def getStr : Parser String := do
  let n ← getUv
  let bytes ← take .panic n
  (Panic.unless (fromUtf8 bytes) : Except Panic String)

/-- The role of an input. -/
def byteRole (b : UInt8) : VarRole :=
  if b = 0 then .publicInput else if b = 1 then .privateInput else .derived

/-- A counted list of combinations. -/
def getLcs (lc : Parser LinearCombination) : Parser (List LinearCombination) := do
  let n ← getUv
  many lc n

/-- A witness instruction with its combinations read by `lc` (`get_witness_with`). -/
def getWitnessWith (lc : Parser LinearCombination) : Parser WitnessOp := do
  let tag ← getByte
  match tag.toNat with
  | 0 => do
      let out ← getU32
      let left ← lc
      let right ← lc
      pure (.product out left right)
  | 1 => do
      let out ← getU32
      let l ← lc
      pure (.linear out l)
  | 2 => do
      let out ← getU32
      let a ← lc
      let b ← lc
      pure (.xor out a b)
  | 3 => do
      let out ← getU32
      let a ← lc
      let b ← lc
      pure (.or out a b)
  | 4 => do
      let out ← getU32
      let input ← lc
      pure (.inverse out input)
  | 5 => do
      let out ← getU32
      let input ← lc
      pure (.inverseOrZero out input)
  | 6 => do
      let out ← getU32
      let input ← lc
      let index ← getU32
      pure (.bit out input index)
  | 7 => do
      let outs ← getIds
      let input ← lc
      pure (.bits outs input)
  | 8 => do
      let q ← getU32
      let r ← getU32
      let num ← lc
      let den ← lc
      pure (.divRem q r num den)
  | 9 => do
      let q ← getIds
      let r ← getIds
      let a ← getLcs lc
      let b ← getLcs lc
      let modulus ← getLcs lc
      let limbBits ← getU32
      pure (.mulModDivMod q r a b modulus limbBits)
  | 10 => do
      let out ← getIds
      let a ← getLcs lc
      let modulus ← getLcs lc
      let limbBits ← getU32
      pure (.modInverse out a modulus limbBits)
  | 12 => do
      let out ← getIds
      let u ← getLcs lc
      let modulus ← getLcs lc
      let lambda ← getLcs lc
      let limbBits ← getU32
      pure (.fakeGlv out u modulus lambda limbBits)
  | 11 => do
      let qabs ← getU32
      let r ← getIds
      let a ← getLcs lc
      let b ← getLcs lc
      let c ← getLcs lc
      let modulus ← getLcs lc
      let limbBits ← getU32
      pure (.sub2 qabs r a b c modulus limbBits)
  | _ => throw .panic

/-- A combination, or `6` and an index into the table. -/
def refLc (pool : List FieldConst) (table : List LinearCombination) : Parser LinearCombination
  | [] => .error .panic
  | b :: bs =>
      if b = 6 then
        (do
          let i ← getUv
          (Panic.unless table[i]? : Except Panic LinearCombination) : Parser LinearCombination) bs
      else getLc pool (b :: bs)

/-! ### Calls -/

/-- A plug of a call: a bare variable as the distance from the previous one, or a combination. -/
def getPlug (pool : List FieldConst) (prev : ℤ) : Parser (LinearCombination × ℤ) := do
  let h ← getUv
  if h % 2 = 0 then pure (.ofVar (asU32 (prev + unzigzag (h / 2))), prev + unzigzag (h / 2))
  else do
    let l ← getLc pool
    pure (l, prev)

/-- The plugs of a call (`get_plugs_compact`). -/
def getPlugsCompact (pool : List FieldConst) (base : VarId) : Parser (List LinearCombination) := do
  let n ← getUv
  scan (getPlug pool) n base.val

/-- A call of tag `5`. -/
def getCall {α : Type} (pool : List FieldConst) : Parser (Item α) := do
  let d ← getU32
  let base ← getU32
  let plugs ← getPlugsCompact pool base
  pure (.call d.val base plugs)

/-- A plug of a rolled call: the constant, and the terms with the first variable and its step. -/
structure PlugTemplate where
  constant : FieldConst
  terms : List (FieldConst × ℤ × ℤ)
deriving DecidableEq, Repr

/-- One call of the body of a rolled block. -/
structure CallTemplate where
  d : U32
  base0 : ℤ
  baseStep : ℤ
  plugs : List PlugTemplate
deriving DecidableEq, Repr

/-- A term of a plug of a rolled call. -/
def getPlugTerm (pool : List FieldConst) : Parser (FieldConst × ℤ × ℤ) := do
  let coeff ← getFc pool
  let var0 ← getUv
  let step ← getIv
  pure (coeff, (var0 : ℤ), step)

/-- A plug of a rolled call, and the running bare variable. -/
def getPlugTemplate (pool : List FieldConst) (prev : ℤ) : Parser (PlugTemplate × ℤ) := do
  let h ← getUv
  if h % 2 = 0 then do
    let step ← getIv
    pure (⟨0, [(1, prev + unzigzag (h / 2), step)]⟩, prev + unzigzag (h / 2))
  else do
    let constant ← getFc pool
    let n ← getUv
    let terms ← many (getPlugTerm pool) n
    pure (⟨constant, terms⟩, prev)

/-- One call of a body. -/
def getCallTemplate (pool : List FieldConst) : Parser CallTemplate := do
  let d ← getU32
  let base0 ← getUv
  let baseStep ← getIv
  let n ← getUv
  let plugs ← scan (getPlugTemplate pool) n base0
  pure ⟨d, base0, baseStep, plugs⟩

/-- The plug of iteration `k`. -/
def PlugTemplate.at (t : PlugTemplate) (k : ℕ) : LinearCombination :=
  ⟨t.constant, t.terms.map fun (coeff, var0, step) => ⟨coeff, asU32 (var0 + k * step)⟩⟩

/-- The call of iteration `k`. -/
def CallTemplate.at {α : Type} (t : CallTemplate) (k : ℕ) : Item α :=
  .call t.d.val (asU32 (t.base0 + k * t.baseStep)) (t.plugs.map fun p => p.at k)

/-- The low 64 bits as a signed integer (`as i64`). -/
def wrapI64 (u : ℕ) : ℤ := if u < 2 ^ 63 then u else u - 2 ^ 64

/-- A rolled block of calls (`parse_rolled_calls_compact`). -/
def getRolledCalls {α : Type} (pool : List FieldConst) : Parser (List (Item α)) := do
  let count ← getUv
  let period ← getUv
  let body ← many (getCallTemplate pool) period
  pure ((List.range (wrapI64 count).toNat).flatMap fun k => body.map fun t => t.at k)

/-! ### Item streams -/

/-- What makes rows or instructions of the blob of a rolled run. -/
abbrev RunReader := List UInt8 → Except Panic (List R1csRow × List WitnessOp)

/-- The blob of a rolled run, and the pool it is read under. -/
abbrev Blob := List FieldConst × List UInt8

/-- The source's: a blob that does not decode is an empty run (`unwrap_or_default`). -/
def lenientRun (pool : List FieldConst) : RunReader := fun blob =>
  match decodeAndExpandOpsCompact blob pool with
  | .ok run => .ok run
  | .error (.err _) => .ok ([], [])
  | .error .panic => .error .panic

/-- Length and bytes of a blob. -/
def getBlob : Parser (List UInt8) := do
  let len ← getUv
  take .panic len

/-- A scope's constraint stream so far. -/
structure CScope where
  items : List CItem
  table : List LinearCombination
  runs : List Blob
deriving DecidableEq, Repr

/-- Does a combination go in the table? -/
def tabled (l : LinearCombination) : Bool := 2 ≤ l.terms.length

/-- The combinations of a row, in order. -/
def R1csRow.lcs (r : R1csRow) : List LinearCombination := [r.a, r.b, r.c]

/-- What rows add to the table. -/
def tableOf (rows : List R1csRow) : List LinearCombination := (rows.flatMap R1csRow.lcs).filter tabled

/-- The entries of the last item (`push_refs`); there has to be one. -/
def pushRefs (s : CScope) : Except Panic CScope := do
  let it ← Panic.unless s.items.getLast?
  return { s with table := s.table ++ tableOf it.inline }

/-- A row whose combinations may be references, also to its own earlier ones. -/
def getRefRow (pool : List FieldConst) (table : List LinearCombination) : Parser R1csRow := do
  let a ← refLc pool table
  let b ← refLc pool (table ++ [a].filter tabled)
  let c ← refLc pool (table ++ [a, b].filter tabled)
  pure ⟨a, b, c, none⟩

/-- A row. -/
def getRow (pool : List FieldConst) : Parser R1csRow := do
  let a ← getLc pool
  let b ← getLc pool
  let c ← getLc pool
  pure ⟨a, b, c, none⟩

/-- The next item of a constraint stream. -/
def cItem (pool : List FieldConst) (run : RunReader) (s : CScope) : Parser CScope := do
  let tag ← getByte
  match tag.toNat with
  | 8 => do
      let r ← getRefRow pool s.table
      pure { s with items := s.items ++ [.row r], table := s.table ++ tableOf [r] }
  | 0 => do
      let r ← getRow pool
      (pushRefs { s with items := s.items ++ [.row r] } : Except Panic CScope)
  | 5 => do
      let it ← getCall pool
      (pushRefs { s with items := s.items ++ [it] } : Except Panic CScope)
  | 6 => do
      let its ← getRolledCalls pool
      (pushRefs { s with items := s.items ++ its } : Except Panic CScope)
  | 7 => do
      let blob ← getBlob
      let out ← (run blob : Except Panic _)
      (pushRefs { s with items := s.items ++ [.rolled out.1], runs := s.runs ++ [(pool, blob)] } :
        Except Panic CScope)
  | _ => throw .panic

/-- `n` steps of a loop. -/
def repeatM {σ : Type} (step : σ → Parser σ) : ℕ → σ → Parser σ
  | 0, s => pure s
  | n + 1, s => do
      let s ← step s
      repeatM step n s

/-- A constraint stream (`parse_c_items`). -/
def cItems (pool : List FieldConst) (run : RunReader) : Parser CScope := do
  let n ← getUv
  repeatM (cItem pool run) n ⟨[], [], []⟩

/-- A scope's witness stream so far, and the calls of its constraint stream still to come. -/
structure WScope where
  items : List WItem
  calls : List WItem
  runs : List Blob
deriving DecidableEq, Repr

/-- The calls of a constraint stream. -/
def callsOf (items : List CItem) : List WItem :=
  items.filterMap fun
    | .call d base plugs => some (.call d base plugs)
    | _ => none

/-- The next item of a witness stream; `table` is that of the scope's constraint stream. -/
def wItem (pool : List FieldConst) (run : RunReader) (table : List LinearCombination)
    (s : WScope) : Parser WScope := do
  let tag ← getByte
  match tag.toNat with
  | 0 => do
      let w ← getWitnessWith (getLc pool)
      pure { s with items := s.items ++ [.row w] }
  | 8 => do
      let w ← getWitnessWith (refLc pool table)
      pure { s with items := s.items ++ [.row w] }
  | 4 => do
      let skip ← getUv
      let n ← getUv
      let calls := s.calls.drop skip
      if n ≤ calls.length then
        pure { s with items := s.items ++ calls.take n, calls := calls.drop n }
      else throw .panic
  | 5 => do
      let it ← getCall pool
      pure { s with items := s.items ++ [it] }
  | 6 => do
      let its ← getRolledCalls pool
      pure { s with items := s.items ++ its }
  | 7 => do
      let blob ← getBlob
      let out ← (run blob : Except Panic _)
      pure { s with items := s.items ++ [.rolled out.2], runs := s.runs ++ [(pool, blob)] }
  | _ => throw .panic

/-- A witness stream (`parse_w_items`). -/
def wItems (pool : List FieldConst) (run : RunReader) (c : CScope) : Parser WScope := do
  let n ← getUv
  repeatM (wItem pool run c.table) n ⟨[], callsOf c.items, []⟩

/-- The two streams of a scope. -/
structure Scope where
  c : List CItem
  w : List WItem
  runs : List Blob
deriving DecidableEq, Repr

/-- The constraint stream of a scope, then its witness stream. -/
def scope (pool : List FieldConst) (run : RunReader) : Parser Scope := do
  let c ← cItems pool run
  let w ← wItems pool run c
  pure ⟨c.items, w.items, c.runs ++ w.runs⟩

/-! ### The container -/

/-- A template, and the blobs of its streams. -/
def getDef (pool : List FieldConst) (run : RunReader) : Parser (GDef × List Blob) := do
  let baseVar ← getU32
  let plugs ← getIds
  let outputs ← getIds
  let s ← scope pool run
  pure (⟨baseVar, plugs, outputs, s.c, s.w⟩, s.runs)

/-- A signature input. -/
def getInput : Parser (VarRole × String) := do
  let role ← getByte
  let name ← getStr
  pure (byteRole role, name)

/-- A parsed header: the field, the number of variables and the signature inputs. -/
structure Header where
  field : FieldSpec
  numVars : ℕ
  inputs : List (VarRole × String)
deriving DecidableEq, Repr

/-- The header, after magic and version. -/
def getHeader : Parser Header := do
  let name ← getStr
  let modulusDecimal ← getStr
  let numVars ← getUv
  let numInputs ← getUv
  let inputs ← many getInput numInputs
  pure ⟨⟨name, some modulusDecimal⟩, numVars, inputs⟩

/-- A parsed body, and the blobs of all rolled runs in it. -/
structure Body where
  defs : List GDef
  topC : List CItem
  topW : List WItem
  keepExtra : List VarId
  runs : List Blob
deriving DecidableEq, Repr

/-- The body, after the header (`parse_body`); `run` reads rolled runs under the pool. -/
def getBody (run : List FieldConst → RunReader) : Parser Body := do
  let n ← getUv
  let pool ← many (getFc []) n
  let nDefs ← getUv
  let defs ← many (getDef pool (run pool)) nDefs
  let top ← scope pool (run pool)
  let keepExtra ← getIds
  pure ⟨defs.map Prod.fst, top.c, top.w, keepExtra, defs.flatMap Prod.snd ++ top.runs⟩

/-- The version of the container format. -/
def VERSION_FUNCTION : ℕ := 2

/-- The version field of a container, if it is long enough to have one. -/
def version (b : List UInt8) : Option ℕ :=
  match b with
  | _ :: _ :: _ :: _ :: lo :: hi :: _ => some (lo.toNat + 256 * hi.toNat)
  | _ => none

/-- The parser of a container, and the blobs of all rolled runs in it; more inputs than variables
are an index out of range. -/
def parseWith (run : List FieldConst → RunReader) (b : List UInt8) :
    Outcome (Container × List Blob) := do
  let (h, rest) ← Panic.toOutcome (getHeader (b.drop 6))
  if hle : h.inputs.length ≤ h.numVars then
    if version b = some VERSION_FUNCTION then do
      let (body, _) ← Panic.toOutcome (getBody run rest)
      return (⟨h.field, h.numVars, h.inputs, body.defs, body.topC, body.topW, body.keepExtra, hle⟩,
        body.runs)
    else throw .panic
  else throw .panic

/-- The source's parser. -/
def parseContainer (b : List UInt8) : Outcome (Container × List Blob) :=
  parseWith lenientRun b

end XarkCircuit
