import Mathlib.Data.Nat.Size
import XarkCircuit.Lib.Codec
import XarkCircuit.Schema.Json
import XarkCircuit.Verifier.ScalarOrder

/-!
Input values, encoded by a schema (`schema/src/lib.rs`).

* `Schema.encode` walks a JSON value along its type and emits what it inserts into the map of leaves,
  in order; `Schema.encodeNatural` takes the standard forms of the named types.
* `Schema.typeAt` resolves a key that is a path.
* `Schema.pack` combines the leaves of packed fields, and `Schema.leaves` is the whole: the declared
  inputs, the path keys, the packing and the check that nothing is missing.

Single values (a number, a date, a point) are read by the functions of `Readers`.
-/

namespace XarkCircuit

namespace Input

open Codec

/-! ### Values -/

/-- A scalar. -/
abbrev Fr : Type := ZMod Verifier.rModulus

/-- A JSON number. -/
inductive Number
  | unsigned (n : ℕ)
  | negative (n : ℤ)
  | float (text : String)
deriving DecidableEq, Repr

/-- A JSON value; the entries of an object are in the order of its map. -/
inductive Value
  | null
  | bool (b : Bool)
  | number (n : Number)
  | string (s : String)
  | array (xs : List Value)
  | object (m : List (String × Value))

/-- An object's value for a key. -/
def getKey (m : List (String × Value)) (k : String) : Option Value := m.lookup k

/-- How single values are read and shown. -/
structure Readers where
  display : Value → String
  integer : Value → Except String ℕ
  signed : Value → Except String ℤ
  bytes : Value → Except String (List UInt8)
  moment : Value → Except String ℤ
  steps : ℕ → ℕ → ℕ → ℤ → Except String ℕ
  decompress : List UInt8 → Except String (ℕ × ℕ)
  toUppercase : Char → List Char

/-- An input value the schema refuses: where and why. -/
structure InputError where
  path : String
  message : String
deriving DecidableEq, Repr

/-- Why there are no leaves. -/
inductive Refusal
  | error (e : InputError)
  | halt (h : Halt)
deriving DecidableEq, Repr

/-- An error at a path. -/
def refuse {α : Type} (path message : String) : Except Refusal α := .error (.error ⟨path, message⟩)

/-- The error of a reader, at a path. -/
def orRefuse {α : Type} (path : String) : Except String α → Except Refusal α
  | .ok a => .ok a
  | .error message => refuse path message

/-- A computation without errors. -/
def orHalt {α : Type} : Outcome α → Except Refusal α
  | .ok a => .ok a
  | .error h => .error (.halt h)

/-! ### Names -/

/-- The words of a name, joined: after an underscore the next character is in upper case. -/
def camelWords (rd : Readers) : Bool → List Char → List Char
  | _, [] => []
  | up, c :: cs =>
    if c = '_' then camelWords rd true cs
    else if up then rd.toUppercase c ++ camelWords rd false cs
    else c :: camelWords rd false cs

/-- `born_before` as `bornBefore`; outer underscores stay as written. -/
def camel (rd : Readers) (s : String) : String :=
  let lead := s.toList.takeWhile (· = '_')
  let rest := s.toList.dropWhile (· = '_')
  let trail := rest.reverse.takeWhile (· = '_')
  let words := (rest.reverse.dropWhile (· = '_')).reverse
  String.ofList (lead ++ camelWords rd false words ++ trail)

/-- What remains after a prefix. -/
def stripPrefix (p : String) (l : List Char) : Option (List Char) :=
  if p.toList.isPrefixOf l then some (l.drop p.length) else none

/-- What remains before a suffix. -/
def stripSuffix (p : String) (l : List Char) : Option (List Char) :=
  if p.toList.isSuffixOf l then some (l.take (l.length - p.length)) else none

/-- Whether `s` is one of the placeholders of an inputs template. -/
def isPlaceholder (s : String) : Bool :=
  let width (t : List Char) : Bool := !t.isEmpty && t.all Char.isDigit
  if s = "YYYY-MM-DD" || s = "YYYY-MM-DDTHH:MM:SSZ" then true
  else
    match (stripPrefix "0x<" s.toList).bind (stripSuffix ">") with
    | some inner => inner = "bytes".toList || ((stripSuffix " bytes" inner).map width).getD false
    | none =>
      match (stripPrefix "<" s.toList).bind (stripSuffix ">") with
      | none => false
      | some inner =>
        inner = "field".toList || inner = "text".toList || inner = "number".toList
          || ((stripPrefix "u" inner).map width).getD false
          || ((stripPrefix "i" inner).map width).getD false
          || ("a ".toList.isPrefixOf inner && ", …".toList.isSuffixOf inner)
          || inner.tails.any " or a list of ".toList.isPrefixOf

mutual

/-- The first value that is still a placeholder, and its path (`placeholder_in`). -/
def placeholderIn : Value → String → Option (String × String)
  | .string s, path => if isPlaceholder s then some (path, s) else none
  | .array xs, path => placeholderItems path 0 xs
  | .object m, path => placeholderFields path m
  | .null, _ => none
  | .bool _, _ => none
  | .number _, _ => none

/-- The first one in an array from number `i` on. -/
def placeholderItems (path : String) (i : ℕ) : List Value → Option (String × String)
  | [] => none
  | x :: xs =>
    (placeholderIn x (path ++ "[" ++ toString i ++ "]")).or (placeholderItems path (i + 1) xs)

/-- The first one in an object. -/
def placeholderFields (path : String) : List (String × Value) → Option (String × String)
  | [] => none
  | (k, x) :: m => (placeholderIn x (path ++ "." ++ k)).or (placeholderFields path m)

end

/-! ### Single values -/

/-- What is inserted into the map of leaves, in order. -/
abbrev Insertions : Type := List (String × Fr)

/-- `n` as a `w`-bit two's complement word. -/
def twosComplement (n : ℤ) (w : ℕ) : Except String ℕ :=
  if n < -2 ^ (w - 1) ∨ 2 ^ (w - 1) ≤ n then
    .error (toString n ++ " is out of range for an i" ++ toString w)
  else .ok (if n < 0 then n + 2 ^ w else n).toNat

/-- A field element that is not reduced. -/
def fieldOf (n : ℕ) : Except String Fr :=
  if Verifier.rModulus ≤ n then
    .error (toString n ++ " is not a field element (it is p or more)")
  else .ok n

/-- `field`. -/
def Readers.field (rd : Readers) (v : Value) : Except String Fr := do
  let n ← rd.integer v
  fieldOf n

/-- A variant's position in enum `e`, from its name. -/
def Readers.variant (rd : Readers) (e : String) (names : List String) (v : Value) :
    Except String ℕ :=
  match v with
  | .string s =>
    match names.findIdx? (· = s) with
    | some i => .ok i
    | none => .error (rd.display v ++ " is not a " ++ e)
  | _ => .error ("expected a " ++ e ++ " name, got " ++ rd.display v)

/-- One variant: its name, or its position. -/
def Readers.choice (rd : Readers) (e : String) (names : List String) (v : Value) :
    Except String ℕ :=
  match v with
  | .string _ => rd.variant e names v
  | _ => do
    let n ← rd.integer v
    if n < names.length then .ok n
    else .error (toString n ++ " is not a " ++ e ++ " (there are " ++ toString names.length ++ ")")

/-- A set of variants: a name, a list of names, or the raw mask. -/
def Readers.set (rd : Readers) (e : String) (names : List String) (v : Value) : Except String ℕ :=
  match v with
  | .array xs => xs.foldlM (fun acc x => do .ok (acc ||| 1 <<< (← rd.variant e names x))) 0
  | .string _ => do .ok (1 <<< (← rd.variant e names v))
  | _ => do
    let n ← rd.integer v
    if names.length < n.size then .error (toString n ++ " sets a bit past the last " ++ e)
    else .ok n

/-! ### Named types -/

/-- The encoding of a named type. -/
def Schema.encoding (s : Schema) (r : String) : Option SchemaEncoding :=
  match s.find r with
  | some (.type _ enc) => enc
  | _ => none

/-- The variant names of an enum. -/
def Schema.enumNames (s : Schema) (e : String) : List String :=
  match s.find e with
  | some (.enum names) => names
  | _ => []

/-- The length that an encoding states. -/
def SchemaEncoding.bytes : SchemaEncoding → Option ℕ
  | .limbs bytes _ => some bytes
  | .concat bytes _ => some bytes
  | .ed25519 => some 32
  | _ => none

/-- The lengths of fields that all have one. -/
def sizesOf (len : String → Outcome (Option ℕ)) : List SchemaMember → Outcome (Option (List ℕ))
  | [] => .ok (some [])
  | f :: fs =>
    match f.type with
    | .ref r => do
      match ← len r with
      | none => .ok none
      | some n => do .ok ((← sizesOf len fs).map (n :: ·))
    | _ => .ok none

/-- The lengths of a type's fields in its bytes (`concat_sizes`). -/
def Schema.concatSizes (s : Schema) (len : String → Outcome (Option ℕ)) (r : String) :
    Outcome (Option (List ℕ)) :=
  match s.find r with
  | some (.type _ (some (.concat _ sizes))) => .ok (some sizes)
  | some (.type (.struct ms) _) => sizesOf len ms
  | _ => .ok none

/-- A named type's length in bytes (`encoded_len`). -/
def Schema.encodedLen (s : Schema) : ℕ → String → Outcome (Option ℕ)
  | 0, _ => .error .outOfFuel
  | fuel + 1, r =>
    match (s.encoding r).bind SchemaEncoding.bytes with
    | some b => .ok (some b)
    | none => do .ok ((← s.concatSizes (s.encodedLen fuel) r).map List.sum)

/-- A number split into the leaves of a named type. -/
def Schema.encodeNumber (s : Schema) (fuel : ℕ) (bits : ℕ) (r : String) (n : ℕ)
    (path name : String) : Except Refusal Insertions := do
  let leaves ← orHalt (s.leafNames fuel (.ref r) name)
  if bits * leaves.length < n.size then
    refuse path (toString n ++ " doesn't fit a " ++ r ++ " (" ++ toString leaves.length ++ " × "
      ++ toString bits ++ "-bit limbs)")
  else .ok (leaves.zipIdx.map fun l => (l.1, ((n / 2 ^ (l.2 * bits)) % 2 ^ bits : ℕ)))

/-- A big-endian number. -/
def fromBytesBe (b : List UInt8) : ℕ := fromBytesLe b.reverse

/-- `be32`. -/
def be32 (n : ℕ) : List UInt8 := (leBytes 32 n).reverse

/-- A chunk of bytes as one field element. -/
def encodeChunk (path name : String) (chunk : List UInt8) : Except Refusal Insertions :=
  if chunk.isEmpty then refuse path "\"0x\" is not a decimal or 0x-hex number"
  else do
    let x ← orRefuse path (fieldOf (fromBytesBe chunk))
    .ok [(name, x)]

/-- A field's bytes: those of a named type, or one field element. -/
def encodePart (enc : String → List UInt8 → String → Except Refusal Insertions) (path : String)
    (ty : SchemaType) (chunk : List UInt8) (name : String) : Except Refusal Insertions :=
  match ty with
  | .ref r => enc r chunk name
  | _ => encodeChunk path name chunk

/-- The bytes of a struct's fields, cut off one after the other. -/
def encodeChunks (enc : String → List UInt8 → String → Except Refusal Insertions)
    (path name : String) : List (SchemaMember × ℕ) → List UInt8 → Except Refusal Insertions
  | [], _ => .ok []
  | (f, size) :: l, b =>
    if b.length < size then .error (.halt .panic)
    else do
      let first ← encodePart enc path f.type (b.take size) (name ++ "." ++ f.name)
      let rest ← encodeChunks enc path name l (b.drop size)
      .ok (first ++ rest)

/-- A named type's bytes without the `0x04` that may stand before them. -/
def sec1Body (enc : Option SchemaEncoding) (len : ℕ) (b : List UInt8) : List UInt8 :=
  if enc = some (.concatFields true) ∧ b.length = len + 1 ∧ b.head? = some 4 then b.drop 1 else b

/-- A value of a named type from its bytes (`encode_bytes`). -/
def Schema.encodeBytes (s : Schema) (rd : Readers) :
    ℕ → String → String → List UInt8 → String → Except Refusal Insertions
  | 0, _, _, _, _ => .error (.halt .outOfFuel)
  | fuel + 1, path, r, b, name => do
    match ← orHalt (s.encodedLen (fuel + 1) r) with
    | none => refuse path ("`" ++ r ++ "` has no byte length")
    | some len =>
      let b := sec1Body (s.encoding r) len b
      if b.length ≠ len then
        refuse path ("a " ++ r ++ " is " ++ toString len ++ " bytes, got " ++ toString b.length)
      else
        match s.encoding r with
        | some (.limbs _ bits) => s.encodeNumber (fuel + 1) bits r (fromBytesBe b) path name
        | some .ed25519 => do
          let p ← orRefuse path (rd.decompress b)
          encodeChunks (s.encodeBytes rd fuel path) path name ((s.members r).zip [32, 32])
            (be32 p.1 ++ be32 p.2)
        | _ => do
          match ← orHalt (s.concatSizes (s.encodedLen fuel) r) with
          | none => refuse path ("`" ++ r ++ "` has no field lengths")
          | some sizes =>
            encodeChunks (s.encodeBytes rd fuel path) path name ((s.members r).zip sizes) b

/-- One leaf, from a reader. -/
def single (path name : String) (x : Except String ℕ) : Except Refusal Insertions := do
  let n ← orRefuse path x
  .ok [(name, (n : Fr))]

/-- A value in a named type's natural form (`encode_natural`). -/
def Schema.encodeNatural (s : Schema) (rd : Readers) (fuel : ℕ) (r : String) (v : Value)
    (name : String) : Except Refusal Insertions :=
  let inBytes : Except Refusal Insertions := do
    let b ← orRefuse name (rd.bytes v)
    s.encodeBytes rd fuel name r b name
  match s.encoding r with
  | some .timestamp => single name name (rd.moment v >>= fun t => twosComplement t 64)
  | some (.time unit fromYear toYear) =>
    if unit = 0 then inBytes
    else single name name (rd.moment v >>= rd.steps unit fromYear toYear)
  | some (.text _) =>
    match v with
    | .string t =>
      if 31 < t.utf8ByteSize then refuse name (rd.display v ++ " is longer than 31 bytes")
      else .ok [(name, (fromBytesLe t.toUTF8.toList : Fr))]
    | _ => refuse name "expected a string"
  | some (.choice e) => single name name (rd.choice e (s.enumNames e) v)
  | some (.set e) => single name name (rd.set e (s.enumNames e) v)
  | some (.limbs _ bits) =>
    match v with
    | .array _ => do
      let b ← orRefuse name (rd.bytes v)
      s.encodeNumber fuel bits r (fromBytesLe b) name name
    | _ => do
      let n ← orRefuse name (rd.integer v)
      s.encodeNumber fuel bits r n name name
  | _ => inBytes

/-! ### Values along their types -/

/-- Whether a value is an object. -/
def Value.isObject : Value → Bool
  | .object _ => true
  | _ => false

/-- The elements of an array value; bytes may be given as a string. -/
def arrayItems (rd : Readers) (of : SchemaType) (v : Value) (name : String) :
    Except Refusal (List Value) :=
  match of, v with
  | .uint 8, .string _ => do
    let b ← orRefuse name (rd.bytes v)
    .ok (b.map fun x => .number (.unsigned x.toNat))
  | _, .array xs => .ok xs
  | _, _ => refuse name "expected an array"

/-- A field's value, under either spelling of its name. -/
def fieldValue (rd : Readers) (m : List (String × Value)) (n : String) : Option Value :=
  (getKey m n).or (getKey m (camel rd n))

/-- A key that is neither spelling of a field. -/
def strangeKey (rd : Readers) (ms : List SchemaMember) (m : List (String × Value)) :
    Option (String × Value) :=
  m.find? fun e => !ms.any fun f => f.name = e.1 || camel rd f.name = e.1

/-- Encode `v`, a value of `ty`, into its leaves under `name`. -/
def Schema.encode (s : Schema) (rd : Readers) :
    ℕ → SchemaType → Value → String → Except Refusal Insertions
  | 0, _, _, _ => .error (.halt .outOfFuel)
  | fuel + 1, ty, v, name =>
    match ty with
    | .field => do
      let x ← orRefuse name (rd.field v)
      .ok [(name, x)]
    | .bool =>
      match v with
      | .bool b => .ok [(name, if b then 1 else 0)]
      | .number (.unsigned 0) => .ok [(name, 0)]
      | .number (.unsigned 1) => .ok [(name, 1)]
      | _ => refuse name ("expected true or false, got " ++ rd.display v)
    | .uint w => do
      let n ← orRefuse name (rd.integer v)
      if w < n.size then refuse name (toString n ++ " is out of range for a u" ++ toString w)
      else .ok [(name, (n : Fr))]
    | .int w =>
      if w = 0 then .error (.halt .panic)
      else single name name (rd.signed v >>= fun n => twosComplement n w)
    | .array of len => do
      let items ← arrayItems rd of v name
      if items.length ≠ len then
        refuse name ("expected " ++ toString len ++ " elements, got " ++ toString items.length)
      else
        Outcome.emitAll (fun x => s.encode rd fuel of x.1 (name ++ "[" ++ toString x.2 ++ "]"))
          items.zipIdx
    | .tuple ts =>
      match v with
      | .array xs =>
        if xs.length = ts.length then
          Outcome.emitAll (fun e => s.encode rd fuel e.1.1 e.1.2 (name ++ "." ++ toString e.2))
            (ts.zip xs).zipIdx
        else refuse name ("expected a " ++ toString ts.length ++ "-tuple")
      | _ => refuse name ("expected a " ++ toString ts.length ++ "-tuple")
    | .ref r =>
      if (s.encoding r).isSome && !v.isObject then s.encodeNatural rd (fuel + 1) r v name
      else
        match s.find r with
        | some (.type (.newtype t) _) => s.encode rd fuel t v name
        | _ =>
          match v with
          | .object m => do
            let out ← Outcome.emitAll (fun f =>
              match fieldValue rd m f.name with
              | none => refuse name ("missing field `" ++ f.name ++ "`")
              | some x => s.encode rd fuel f.type x (name ++ "." ++ f.name)) (s.members r)
            match strangeKey rd (s.members r) m with
            | some e => refuse name ("`" ++ r ++ "` has no field `" ++ e.1 ++ "`")
            | none => .ok out
          | _ => refuse name ("expected a `" ++ r ++ "` (an object of its fields)")

/-! ### Paths -/

/-- A step of a path as it is written: a field, or what stands between two brackets. -/
inductive RawStep
  | field (f : List Char)
  | index (c : List Char)
deriving DecidableEq, Repr

/-- Where the reading of a path is. -/
inductive PathState
  | between
  | inField (f : List Char)
  | inIndex (c : List Char)

/-- The steps of a path after its root. -/
def rawSteps : PathState → List Char → Option (List RawStep)
  | .between, [] => some []
  | .between, c :: cs =>
    if c = '.' then rawSteps (.inField []) cs
    else if c = '[' then rawSteps (.inIndex []) cs
    else none
  | .inField f, [] => some [.field f]
  | .inField f, c :: cs =>
    if c = '.' then (rawSteps (.inField []) cs).map (.field f :: ·)
    else if c = '[' then (rawSteps (.inIndex []) cs).map (.field f :: ·)
    else rawSteps (.inField (f ++ [c])) cs
  | .inIndex _, [] => none
  | .inIndex i, c :: cs =>
    if c = ']' then (rawSteps .between cs).map (.index i :: ·)
    else rawSteps (.inIndex (i ++ [c])) cs

/-- Whether a character ends a name in a path. -/
def isSeparator (c : Char) : Bool := c = '.' || c = '['

/-- The type after the steps; an index into what is not an array gives JSON's `null`, here `none`. -/
def Schema.walk (s : Schema) (rd : Readers) :
    Option SchemaType → List RawStep → Option (Option SchemaType)
  | ty, [] => some ty
  | some (.ref r), .field f :: l =>
    match (s.members r).find? fun m =>
        m.name.toList = f || (camel rd m.name).toList = f with
    | some m => s.walk rd (some m.type) l
    | none => none
  | _, .field _ :: _ => none
  | some (.array of _), .index _ :: l => s.walk rd (some of) l
  | _, .index _ :: l => s.walk rd none l

/-- The type at an input path (`type_at`). -/
def Schema.typeAt (s : Schema) (rd : Readers) (path : String) : Option (Option SchemaType) :=
  let root := path.toList.takeWhile (!isSeparator ·)
  let rest := path.toList.dropWhile (!isSeparator ·)
  match s.inputs.find? fun i => i.name.toList = root with
  | none => none
  | some i => (rawSteps .between rest).bind (s.walk rd (some i.type))

/-! ### The map of leaves -/

/-- A map from leaf names to values. -/
abbrev Leaves : Type := String → Option Fr

/-- Insert values one after the other; a name that is there is overwritten. -/
def insertAll (ins : Insertions) (out : Leaves) : Leaves :=
  ins.foldl (fun out e => Function.update out e.1 (some e.2)) out

/-- The fields of one packed element, taken out of the map and put together. -/
def packFields (name : String) : List SchemaMember → Leaves → ℕ → Except Refusal (Leaves × ℕ)
  | [], out, v => .ok (out, v)
  | f :: fs, out, v =>
    let leaf := name ++ "." ++ f.name
    let x := ((out leaf).getD 0).val
    if (packing f).2 < x.size then
      refuse leaf (toString x ++ " doesn't fit its " ++ toString (packing f).2 ++ " packed bits")
    else packFields name fs (Function.update out leaf none) (v ||| x <<< (packing f).1)

/-- One packed element; when a field is not given, it is left for the check that follows. -/
def packGroup (name : String) (fs : List SchemaMember) (out : Leaves) : Except Refusal Leaves :=
  if fs.all fun f => (out (name ++ "." ++ f.name)).isSome then
    match packFields name fs out 0 with
    | .error e => .error e
    | .ok (out, v) => .ok (Function.update out (packedName name fs) (some (v : Fr)))
  else .ok out

/-- Combine the leaves of packed fields throughout a value of `ty` at `name`. -/
def Schema.pack (s : Schema) : ℕ → SchemaType → String → Leaves → Except Refusal Leaves
  | 0, _, _, _ => .error (.halt .outOfFuel)
  | fuel + 1, ty, name, out =>
    match ty with
    | .array of len =>
      (List.range len).foldlM
        (fun out i => s.pack fuel of (name ++ "[" ++ toString i ++ "]") out) out
    | .tuple ts =>
      ts.zipIdx.foldlM (fun out e => s.pack fuel e.1 (name ++ "." ++ toString e.2) out) out
    | .ref r =>
      (groups (s.members r)).foldlM (fun out g =>
        match g with
        | .alone f => s.pack fuel f.type (name ++ "." ++ f.name) out
        | .packed fs => packGroup name fs out) out
    | _ => .ok out

/-! ### The inputs -/

/-- The entry that gives an input: the first key that is its name or its camelCase form. -/
def inputEntry (rd : Readers) (obj : List (String × Value)) (name : String) :
    Option (String × Value) :=
  obj.find? fun e => e.1 = name || e.1 = camel rd name

/-- Whether a key gives one of the inputs. -/
def isUsed (rd : Readers) (wanted : List SchemaInput) (obj : List (String × Value)) (k : String) :
    Bool :=
  wanted.any fun i => (inputEntry rd obj i.name).map Prod.fst = some k

/-- What is inserted for the declared inputs. -/
def Schema.encodeInputs (s : Schema) (rd : Readers) (fuel : ℕ) (obj : List (String × Value)) :
    List SchemaInput → Except Refusal Insertions :=
  Outcome.emitAll fun i =>
    match inputEntry rd obj i.name with
    | none => .ok []
    | some e => s.encode rd fuel i.type e.2 i.name

/-- What is inserted for the other keys. -/
def Schema.encodePaths (s : Schema) (rd : Readers) (fuel : ℕ) (wanted : List SchemaInput)
    (obj : List (String × Value)) : List (String × Value) → Except Refusal Insertions :=
  Outcome.emitAll fun e =>
    if isUsed rd wanted obj e.1 then .ok []
    else
      match s.typeAt rd e.1 with
      | none =>
        refuse "" ("unknown input `" ++ e.1 ++ "`; expected "
          ++ rd.display (.array (wanted.map fun i => .string i.name)))
      | some none => .ok []
      | some (some ty) => s.encode rd fuel ty e.2 e.1

/-- Everything that is inserted for an object, in order. -/
def Schema.insertions (s : Schema) (rd : Readers) (fuel : ℕ) (wanted : List SchemaInput)
    (obj : List (String × Value)) : Except Refusal Insertions := do
  let tops ← s.encodeInputs rd fuel obj wanted
  let rest ← s.encodePaths rd fuel wanted obj obj
  .ok (tops ++ rest)

/-- The packing of all inputs. -/
def Schema.packInputs (s : Schema) (fuel : ℕ) (wanted : List SchemaInput) (out : Leaves) :
    Except Refusal Leaves :=
  wanted.foldlM (fun out i => s.pack fuel i.type i.name out) out

/-- Every leaf of every input is there. -/
def Schema.checkMissing (s : Schema) (fuel : ℕ) (out : Leaves) :
    List SchemaInput → Except Refusal Unit
  | [] => .ok ()
  | i :: is => do
    let all ← orHalt (s.leafNames fuel i.type i.name)
    match all.find? fun l => (out l).isNone with
    | some l =>
      if l = i.name then refuse "" ("missing input `" ++ i.name ++ "`")
      else refuse "" ("missing input `" ++ i.name ++ "` (no value for `" ++ l ++ "`)")
    | none => s.checkMissing fuel out is

/-- The leaves of the inputs that `keep` wants (`leaves_where`). -/
def Schema.leavesWhere (s : Schema) (rd : Readers) (fuel : ℕ) (keep : SchemaInput → Bool)
    (inputs : Value) : Except Refusal Leaves :=
  match inputs with
  | .object obj =>
    match obj.findSome? fun e => placeholderIn e.2 e.1 with
    | some (path, p) =>
      refuse path ("still the placeholder " ++ rd.display (.string p)
        ++ " from `inputs.example.json`: replace it with a value")
    | none => do
      let wanted := s.inputs.filter keep
      let ins ← s.insertions rd fuel wanted obj
      let out ← s.packInputs fuel wanted (insertAll ins fun _ => none)
      s.checkMissing fuel out wanted
      .ok out
  | _ => refuse "" "inputs must be a JSON object"

/-- Every input leaf's value (`leaves`). -/
def Schema.leaves (s : Schema) (rd : Readers) (fuel : ℕ) (inputs : Value) : Except Refusal Leaves :=
  s.leavesWhere rd fuel (fun _ => true) inputs

end Input

end XarkCircuit
