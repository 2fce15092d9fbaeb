import XarkCircuit.Lib.Outcome
import XarkCircuit.Schema.Type

/-!
The schema of a circuit: `schema.json` as a tree, as `input.rs` writes it and `schema/src/lib.rs` reads
it.

* `SchemaType` and `SchemaDef` are the descriptions of types; a named type is described once, under its
  name (`Defs`), and a name that stands for two types panics.
* `schemaJson` is what is written for a circuit's parameters.
* `Schema.leafNames` and `groups` are how the runtime reads the leaves and the packed elements back.
-/

namespace XarkCircuit

namespace Input

/-! ### Descriptions -/

/-- A type, as the schema states it. -/
inductive SchemaType
  | field
  | uint (w : ℕ)
  | int (w : ℕ)
  | bool
  | array (of : SchemaType) (len : ℕ)
  | tuple (ts : List SchemaType)
  | ref (name : String)

/-- A struct field, with its offset and width in a packed element. -/
structure SchemaMember where
  name : String
  type : SchemaType
  packed : Option (ℕ × ℕ)

/-- How a value is given. -/
inductive SchemaEncoding
  | timestamp
  | time (unit fromYear toYear : ℕ)
  | text (max : ℕ)
  | choice (e : String)
  | set (e : String)
  | limbs (bytes bits : ℕ)
  | concatFields (sec1 : Bool)
  | concat (bytes : ℕ) (sizes : List ℕ)
  | ed25519
deriving DecidableEq, Repr

/-- The leaves of a named type. -/
inductive SchemaBody
  | newtype (ty : SchemaType)
  | struct (ms : List SchemaMember)

/-- What a name under `types` stands for. -/
inductive SchemaDef
  | type (body : SchemaBody) (encoding : Option SchemaEncoding)
  | enum (names : List String)

/-- One declared input. -/
structure SchemaInput where
  name : String
  isPublic : Bool
  type : SchemaType

/-- A circuit's input description. -/
structure Schema where
  inputs : List SchemaInput
  types : List (String × SchemaDef)
  publicInputs : List String

/-! ### Writing -/

/-- Seconds in a day. -/
def DAY : ℕ := 86400

/-- A named type's name in the schema. -/
def typeName (n : Named Ty) : String :=
  match n.encoding with
  | .time unit fromYear toYear =>
    if unit = DAY then "Days<" ++ toString fromYear ++ "," ++ toString toYear ++ ">"
    else "Time<" ++ toString unit ++ "," ++ toString fromYear ++ "," ++ toString toYear ++ ">"
  | _ =>
    match n.arg with
    | some a => n.name ++ "<" ++ a ++ ">"
    | none => n.name

/-- What a name first stood for. -/
inductive Seen
  | named (n : Named Ty)
  | enum (v : Variants)

mutual

/-- Equality of types. -/
def Ty.beq : Ty → Ty → Bool
  | .field, .field => true
  | .uint w, .uint w' => w = w'
  | .int w, .int w' => w = w'
  | .bool, .bool => true
  | .array t n, .array t' n' => t.beq t' && n = n'
  | .tuple ts, .tuple ts' => tupleBeq ts ts'
  | .named ⟨n, a, .newtype t, e⟩, .named ⟨n', a', .newtype t', e'⟩ =>
    n = n' && a = a' && t.beq t' && e = e'
  | .named ⟨n, a, .struct ms, e⟩, .named ⟨n', a', .struct ms', e'⟩ =>
    n = n' && a = a' && membersBeq ms ms' && e = e'
  | _, _ => false

/-- Equality of lists of types. -/
def tupleBeq : List Ty → List Ty → Bool
  | [], [] => true
  | t :: ts, t' :: ts' => t.beq t' && tupleBeq ts ts'
  | _, _ => false

/-- Equality of fields. -/
def membersBeq : List (Member Ty) → List (Member Ty) → Bool
  | [], [] => true
  | ⟨n, t, p⟩ :: ms, ⟨n', t', p'⟩ :: ms' => n = n' && t.beq t' && p = p' && membersBeq ms ms'
  | _, _ => false

end

/-- The same meaning. -/
def Seen.beq : Seen → Seen → Bool
  | .named n, .named n' => (Ty.named n).beq (.named n')
  | .enum v, .enum v' => v = v'
  | _, _ => false

/-- The named types described so far. -/
structure Defs where
  json : List (String × SchemaDef)
  seen : List (String × Seen)

/-- Claim `name` for `what`: `true` the first time, `false` when it already stands for exactly that. -/
def Defs.claim (d : Defs) (name : String) (what : Seen) : Outcome (Bool × Defs) :=
  match d.seen.lookup name with
  | none => .ok (true, { d with seen := (name, what) :: d.seen })
  | some w => if w.beq what then .ok (false, d) else .error .panic

/-- A description. -/
def Defs.insert (d : Defs) (name : String) (desc : SchemaDef) : Defs :=
  { d with json := (name, desc) :: d.json }

/-- `natural_bytes`. -/
def naturalBytes (limbs bits : ℕ) : ℕ := if limbs * bits ≤ 264 then 32 else (limbs * bits + 7) / 8

/-- The variants of an enum that an encoding names, described the first time. -/
def variantsJson (v : Variants) (d : Defs) : Outcome Defs := do
  let (fresh, d) ← d.claim v.name (.enum v)
  .ok (if fresh then d.insert v.name (.enum v.names) else d)

/-- The encoding of a named type with the given number of leaves (`encoding_json`). -/
def encodingJson (enc : Encoding) (leaves : ℕ) (d : Defs) :
    Outcome (Option SchemaEncoding × Defs) :=
  match enc with
  | .fields => .ok (none, d)
  | .timestamp => .ok (some .timestamp, d)
  | .time unit fromYear toYear => .ok (some (.time unit fromYear toYear), d)
  | .text max => .ok (some (.text max), d)
  | .choice v => do .ok (some (.choice v.name), ← variantsJson v d)
  | .set v => do .ok (some (.set v.name), ← variantsJson v d)
  | .number bits => .ok (some (.limbs (naturalBytes leaves bits) bits), d)
  | .bytes .concat => .ok (some (.concatFields false), d)
  | .bytes .sec1 => .ok (some (.concatFields true), d)
  | .bytes (.split sizes) => .ok (some (.concat sizes.sum sizes), d)
  | .bytes .ed25519 => .ok (some .ed25519, d)

mutual

/-- A type's description; the named types in it are described on the way (`type_json`). -/
def Ty.json : Ty → Defs → Outcome (SchemaType × Defs)
  | .field, d => .ok (.field, d)
  | .bool, d => .ok (.bool, d)
  | .uint w, d => .ok (.uint w, d)
  | .int w, d => .ok (.int w, d)
  | .array t n, d => do
    let (s, d) ← t.json d
    .ok (.array s n, d)
  | .tuple ts, d => do
    let (ss, d) ← tupleJson ts d
    .ok (.tuple ss, d)
  | .named ⟨name, arg, layout, enc⟩, d => do
    let n : Named Ty := ⟨name, arg, layout, enc⟩
    let (fresh, d) ← d.claim (typeName n) (.named n)
    if fresh then
      let (body, d) ← layoutJson (enc = .fields) layout d
      let (encoding, d) ← encodingJson enc (Ty.named n).leaves d
      .ok (.ref (typeName n), d.insert (typeName n) (.type body encoding))
    else .ok (.ref (typeName n), d)

/-- The descriptions of a tuple's types. -/
def tupleJson : List Ty → Defs → Outcome (List SchemaType × Defs)
  | [], d => .ok ([], d)
  | t :: ts, d => do
    let (s, d) ← t.json d
    let (ss, d) ← tupleJson ts d
    .ok (s :: ss, d)

/-- The description of a layout; `packing` says whether its fields may share elements. -/
def layoutJson (packing : Bool) : Layout Ty → Defs → Outcome (SchemaBody × Defs)
  | .newtype t, d => do
    let (s, d) ← t.json d
    .ok (.newtype s, d)
  | .struct ms, d => do
    let (fs, d) ← membersJson packing ms 0 ms d
    .ok (.struct fs, d)

/-- The descriptions of the fields of `all` from field `i` on. -/
def membersJson (packing : Bool) (all : List (Member Ty)) (i : ℕ) :
    List (Member Ty) → Defs → Outcome (List SchemaMember × Defs)
  | [], d => .ok ([], d)
  | ⟨n, t, _⟩ :: ms, d => do
    let (s, d) ← t.json d
    let p := packOf all i
    let f : SchemaMember := ⟨n, s, if packing && p.packed then some (p.offset, p.bits) else none⟩
    let (fs, d) ← membersJson packing all (i + 1) ms d
    .ok (f :: fs, d)

end

/-- One parameter of a circuit: its name, whether it is public, and its type. -/
structure Param where
  name : String
  isPublic : Bool
  type : Ty

/-- The descriptions of the parameters. -/
def paramsJson : List Param → Defs → Outcome (List SchemaInput × Defs)
  | [], d => .ok ([], d)
  | p :: ps, d => do
    let (s, d) ← p.type.json d
    let (rest, d) ← paramsJson ps d
    .ok (⟨p.name, p.isPublic, s⟩ :: rest, d)

/-- The schema of a circuit with these parameters (`schema_json`). -/
def schemaJson (params : List Param) : Outcome Schema := do
  let (inputs, d) ← paramsJson params ⟨[], []⟩
  .ok ⟨inputs, d.json,
    (params.filter Param.isPublic).flatMap fun p => leafNames p.type p.name⟩

/-! ### Reading -/

/-- A struct's fields, each alone or in a run sharing a packed field element. -/
inductive Group
  | alone (f : SchemaMember)
  | packed (fs : List SchemaMember)

/-- The next field joins the last run, or starts one, or is alone. -/
def pushGroup (out : List Group) (f : SchemaMember) : List Group :=
  match f.packed, out.getLast? with
  | some p, some (.packed fs) =>
    if p.1 ≠ 0 then out.dropLast ++ [.packed (fs ++ [f])] else out ++ [.packed [f]]
  | some _, _ => out ++ [.packed [f]]
  | none, _ => out ++ [.alone f]

/-- A struct's fields, grouped by the packed element each shares. -/
def groups (ms : List SchemaMember) : List Group := ms.foldl pushGroup []

/-- A packed field's offset and width in its element. -/
def packing (f : SchemaMember) : ℕ × ℕ := f.packed.getD (0, 0)

/-- `join(",")`. -/
def commaJoin : List String → String
  | [] => ""
  | [a] => a
  | a :: b :: l => a ++ "," ++ commaJoin (b :: l)

/-- A packed element's leaf name: its fields' names. -/
def packedName (name : String) (fs : List SchemaMember) : String :=
  name ++ ".\x7b" ++ commaJoin (fs.map SchemaMember.name) ++ "\x7d"

/-- What a name stands for. -/
def Schema.find (s : Schema) (name : String) : Option SchemaDef := s.types.lookup name

/-- The struct fields of a definition. -/
def Schema.members (s : Schema) (name : String) : List SchemaMember :=
  match s.find name with
  | some (.type (.struct ms) _) => ms
  | _ => []

/-- The leaf names of a value at `name`, in flatten order (`Schema::leaf_names`); `fuel` bounds the
nesting. -/
def Schema.leafNames (s : Schema) : ℕ → SchemaType → String → Outcome (List String)
  | 0, _, _ => .error .outOfFuel
  | fuel + 1, ty, name =>
    match ty with
    | .field => .ok [name]
    | .bool => .ok [name]
    | .uint _ => .ok [name]
    | .int _ => .ok [name]
    | .array of len =>
      Outcome.concatM (fun i => s.leafNames fuel of (name ++ "[" ++ toString i ++ "]"))
        (List.range len)
    | .tuple ts =>
      Outcome.concatM (fun e => s.leafNames fuel e.1 (name ++ "." ++ toString e.2)) ts.zipIdx
    | .ref r =>
      match s.find r with
      | some (.type (.newtype _) _) => .ok [name]
      | _ =>
        Outcome.concatM (fun g =>
          match g with
          | .alone f => s.leafNames fuel f.type (name ++ "." ++ f.name)
          | .packed fs => .ok [packedName name fs]) (groups (s.members r))

/-- Where the fields of a struct sit: the offset, the width and whether the field is its element's last
one. -/
def groupSlots (ms : List SchemaMember) : List (Option (ℕ × ℕ × Bool)) :=
  (groups ms).flatMap fun g =>
    match g with
    | .alone _ => [none]
    | .packed fs => fs.zipIdx.map fun f =>
      some ((packing f.1).1, (packing f.1).2, decide (f.2 + 1 = fs.length))

end Input

end XarkCircuit
