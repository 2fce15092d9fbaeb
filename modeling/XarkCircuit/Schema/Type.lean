import XarkCircuit.Lib.Instances
import Mathlib.Data.List.Basic
import Mathlib.Tactic.Lemma

/-!
The types of circuit inputs (`input.rs`).

* `Ty` is the vocabulary of `Type`; a named type's layout is a newtype or a struct of `Member`s.
* `packOf` is where a struct field sits in the element it shares (`pack_of`), and `packPlan` the plan
  that values are read and written by.
* `Ty.leaves` counts the leaves, and `leafNames` names them.
-/

namespace XarkCircuit

namespace Input

/-! ### Types -/

/-- An enum's name and variant names. -/
structure Variants where
  name : String
  names : List String
deriving DecidableEq, Repr

/-- How a byte-encoded type's bytes split into its leaves. -/
inductive Bytes
  | concat
  | sec1
  | split (sizes : List ℕ)
  | ed25519
deriving DecidableEq, Repr

/-- How a client gives a value of a named type. -/
inductive Encoding
  | fields
  | timestamp
  | time (unit fromYear toYear : ℕ)
  | text (max : ℕ)
  | choice (v : Variants)
  | set (v : Variants)
  | number (bits : ℕ)
  | bytes (b : Bytes)
deriving DecidableEq, Repr

/-- A struct field; `pack` says whether it may share a field element with its neighbours. -/
structure Member (T : Type) where
  name : String
  ty : T
  pack : Bool
deriving DecidableEq

/-- A named type's leaves. -/
inductive Layout (T : Type)
  | newtype (ty : T)
  | struct (ms : List (Member T))
deriving DecidableEq

/-- A named type over its layout. -/
structure Named (T : Type) where
  name : String
  arg : Option String
  layout : Layout T
  encoding : Encoding
deriving DecidableEq

/-- A circuit input type's shape (`Type`). -/
inductive Ty
  | field
  | uint (bits : ℕ)
  | int (bits : ℕ)
  | bool
  | array (of : Ty) (len : ℕ)
  | tuple (ts : List Ty)
  | named (n : Named Ty)

/-- Induction over a type: the hypotheses are those of the types in it. -/
@[elab_as_elim]
theorem Ty.ind {P : Ty → Prop} (field : P .field) (uint : ∀ w, P (.uint w)) (int : ∀ w, P (.int w))
    (bool : P .bool) (array : ∀ t len, P t → P (.array t len))
    (tuple : ∀ ts, (∀ t ∈ ts, P t) → P (.tuple ts))
    (newtype : ∀ name arg t enc, P t → P (.named ⟨name, arg, .newtype t, enc⟩))
    (struct : ∀ name arg ms enc, (∀ m ∈ ms, P m.ty) → P (.named ⟨name, arg, .struct ms, enc⟩)) :
    ∀ t, P t
  | .field => field
  | .uint w => uint w
  | .int w => int w
  | .bool => bool
  | .array t len => array t len (Ty.ind field uint int bool array tuple newtype struct t)
  | .tuple ts => tuple ts fun t _ => Ty.ind field uint int bool array tuple newtype struct t
  | .named ⟨name, arg, .newtype t, enc⟩ =>
      newtype name arg t enc (Ty.ind field uint int bool array tuple newtype struct t)
  | .named ⟨name, arg, .struct ms, enc⟩ =>
      struct name arg ms enc fun m _ =>
        Ty.ind field uint int bool array tuple newtype struct m.ty
termination_by t => sizeOf t
decreasing_by
  · simp_wf
    omega
  · have hmem := List.sizeOf_lt_of_mem ‹t ∈ ts›
    simp_wf
    omega
  · simp_wf
    omega
  · have hmem := List.sizeOf_lt_of_mem ‹m ∈ ms›
    have hm : sizeOf m.ty < sizeOf m := by
      obtain ⟨_, _, _⟩ := m
      simp only [Member.mk.sizeOf_spec]
      omega
    simp_wf
    omega

/-! ### Packing -/

/-- The width of a value of this type when it is packed (`Type::bits`). -/
def Ty.bits : Ty → Option ℕ
  | .uint w => some w
  | .int w => some w
  | .bool => some 1
  | .named ⟨_, _, .newtype t, enc⟩ =>
    match enc with
    | .choice v =>
      let len := v.names.length
      some (if len ≤ 2 then 1 else (len - 1).log2 + 1)
    | .set v => if v.names.isEmpty then none else some v.names.length
    | .fields => t.bits
    | .timestamp => t.bits
    | .time _ _ _ => t.bits
    | _ => none
  | _ => none

/-- The most bits a packed field element holds. -/
def PACK_BITS : ℕ := 253

/-- Where a struct field sits in its packed field element. -/
structure Pack where
  offset : ℕ
  bits : ℕ
  total : ℕ
  last : Bool
  check : Bool
deriving DecidableEq, Repr

/-- Not packed: its own leaves. -/
def Pack.ALONE : Pack := ⟨0, 0, 0, true, false⟩

/-- Whether the field shares a packed element. -/
def Pack.packed (p : Pack) : Bool := 0 < p.total

/-- The width of a field that may be packed. -/
def packable (m : Member Ty) : Option ℕ := if m.pack then m.ty.bits else none

/-- How many fields join a run of the given width, and its width with them. -/
def joinRun (total : ℕ) : List (Member Ty) → ℕ × ℕ
  | [] => (0, total)
  | m :: ms =>
    match packable m with
    | some w =>
      if total + w ≤ PACK_BITS then
        let r := joinRun (total + w) ms
        (r.1 + 1, r.2)
      else (0, total)
    | none => (0, total)

/-- Whether a value of this type must be checked to fit its width when it is written. -/
def Ty.checked : Ty → Bool
  | .named ⟨_, _, _, .choice _⟩ => true
  | .named ⟨_, _, _, .set _⟩ => true
  | _ => false

/-- Where field `i` sits, in the runs from `start` on; `fuel` bounds the runs. -/
def packFrom (ms : List (Member Ty)) (i : ℕ) : ℕ → ℕ → Pack
  | 0, _ => .ALONE
  | fuel + 1, start =>
    match ms.drop start with
    | [] => .ALONE
    | m :: rest =>
      match packable m with
      | none => packFrom ms i fuel (start + 1)
      | some w0 =>
        let r := joinRun w0 rest
        let stop := start + 1 + r.1
        if i < start then .ALONE
        else if i < stop then
          if stop - start = 1 then .ALONE
          else
            { offset := (((ms.drop start).take (i - start)).map fun m => (packable m).getD 0).sum
              bits := (ms[i]?.bind packable).getD 0
              total := r.2
              last := i + 1 = stop
              check := (ms[i]?.map fun m => m.ty.checked).getD false }
        else packFrom ms i fuel stop

/-- Where field `i` of a struct with these fields sits (`pack_of`). -/
def packOf (ms : List (Member Ty)) (i : ℕ) : Pack := packFrom ms i (ms.length + 1) 0

/-- Where each of a struct type's `n` fields sits (`pack_plan`). -/
def packPlan (ty : Ty) (n : ℕ) : List Pack :=
  match ty with
  | .named ⟨_, _, .struct ms, .fields⟩ =>
    (List.range n).map fun i => if i < ms.length then packOf ms i else .ALONE
  | _ => List.replicate n .ALONE

/-! ### Leaves -/

mutual

/-- The number of leaves a value of this type takes. -/
def Ty.leaves : Ty → ℕ
  | .field => 1
  | .uint _ => 1
  | .int _ => 1
  | .bool => 1
  | .array t n => t.leaves * n
  | .tuple ts => tupleLeaves ts
  | .named ⟨_, _, .newtype t, _⟩ => t.leaves
  | .named ⟨_, _, .struct ms, _⟩ => memberLeaves ms 0 ms

/-- The leaves of a tuple's values. -/
def tupleLeaves : List Ty → ℕ
  | [] => 0
  | t :: ts => t.leaves + tupleLeaves ts

/-- The leaves of the fields of `all` from field `i` on: a packed element counts once, at its first
field. -/
def memberLeaves (all : List (Member Ty)) (i : ℕ) : List (Member Ty) → ℕ
  | [] => 0
  | ⟨_, t, _⟩ :: ms =>
    (if !(packOf all i).packed then t.leaves else if (packOf all i).offset = 0 then 1 else 0)
      + memberLeaves all (i + 1) ms

end

/-- The names of the fields of a packed element, from field `j` on; `fuel` bounds the fields. -/
def packedNames (all : List (Member Ty)) : ℕ → ℕ → String
  | 0, _ => ""
  | fuel + 1, j =>
    let name := (all[j]?.map Member.name).getD ""
    if (packOf all j).last then name else name ++ "," ++ packedNames all fuel (j + 1)

mutual

/-- The leaf names of a value named `name` (`names_into`). -/
def Ty.namesInto : Ty → String → List String
  | .field, name => [name]
  | .uint _, name => [name]
  | .int _, name => [name]
  | .bool, name => [name]
  | .array t n, name =>
    (List.range n).flatMap fun i => t.namesInto (name ++ "[" ++ toString i ++ "]")
  | .tuple ts, name => tupleNames name 0 ts
  | .named ⟨_, _, .newtype t, _⟩, name => t.namesInto name
  | .named ⟨_, _, .struct ms, _⟩, name => memberNames ms name 0 ms

/-- The leaf names of a tuple's values from number `i` on. -/
def tupleNames (name : String) (i : ℕ) : List Ty → List String
  | [] => []
  | t :: ts => t.namesInto (name ++ "." ++ toString i) ++ tupleNames name (i + 1) ts

/-- The leaf names of the fields of `all` from field `i` on. -/
def memberNames (all : List (Member Ty)) (name : String) (i : ℕ) : List (Member Ty) → List String
  | [] => []
  | ⟨n, t, _⟩ :: ms =>
    (if !(packOf all i).packed then t.namesInto (name ++ "." ++ n)
      else if (packOf all i).offset = 0 then
        [name ++ ".\x7b" ++ packedNames all all.length i ++ "\x7d"]
      else [])
      ++ memberNames all name (i + 1) ms

end

/-- The leaf names of a value named `prefix`, in input order (`leaf_names`). -/
def leafNames (ty : Ty) (name : String) : List String := ty.namesInto name

end Input

end XarkCircuit
