import XarkCircuit.Schema.Encode

/-!
Values of circuit inputs, and their field elements (`input.rs`, on the host).

* `Impl` lists the types that implement `Input`, with what `#[input]` makes of a struct; `Impl.type`
  is `TYPE`, and `Impl.Val` are the values.
* `Impl.read` and `Impl.write` are `Input::read` and `Input::write` over a `Reader` and a `Writer`,
  which pack a struct's fields by its plan.
* `fromFields` and `writeFields` are the two directions for a whole value.
-/

namespace XarkCircuit

namespace Input

/-- Why reading or writing panics. -/
inductive Panic
  /-- "a packed value past its bits isn't one this type packs". -/
  | pastTotal (total : ℕ)
  /-- "a packed field's `Input` impl reads no leaf". -/
  | readsNoLeaf
  /-- "a packed field's `Input` impl writes one leaf". -/
  | notOneLeaf
  /-- "a value past its bits can't be packed". -/
  | pastBits (bits : ℕ)
  /-- `debug_assert!(w <= bits)`. -/
  | narrow
  /-- An index past the end of the leaves. -/
  | outOfBounds
deriving DecidableEq, Repr

/-! ### The types -/

/-- The widths of the machine integers up to `u64`. -/
inductive Width
  | w8
  | w16
  | w32
  | w64
deriving DecidableEq, Repr

/-- The number of bits. -/
def Width.bits : Width → ℕ
  | .w8 => 8
  | .w16 => 16
  | .w32 => 32
  | .w64 => 64

/-- `days_from_civil`. -/
def daysFromCivil (year : ℤ) (month day : ℕ) : ℤ :=
  let y := if month ≤ 2 then year - 1 else year
  let era := y / 400
  let yoe := y - era * 400
  let m : ℤ := month
  let doy := (153 * (if 2 < m then m - 3 else m + 9) + 2) / 5 + day - 1
  let doe := yoe * 365 + yoe / 4 - yoe / 100 + doy
  era * 146097 + doe - 719468

/-- The parameters of a `Time`, as its assertions have them. -/
structure TimeRange where
  unit : ℕ
  fromYear : ℕ
  toYear : ℕ
  unit_pos : 0 < unit
  ordered : fromYear ≤ toYear

/-- `Time::START`. -/
def TimeRange.start (t : TimeRange) : ℤ := daysFromCivil t.fromYear 1 1 * 86400

/-- `Time::END`. -/
def TimeRange.stop (t : TimeRange) : ℤ := daysFromCivil (t.toYear + 1) 1 1 * 86400

/-- `Time::STEPS`. -/
def TimeRange.steps (t : TimeRange) : ℕ :=
  ((t.stop - t.start - 1) / t.unit + 1).toNat % 2 ^ 64

/-- `Time::BITS`. -/
def TimeRange.bits (t : TimeRange) : ℕ :=
  let last := t.steps - 1
  if last = 0 then 1 else last.log2 + 1

/-- What `#[input(..)]` says of a struct's encoding. -/
inductive StructEncoding
  | fields
  | number (bits : ℕ)
  | bytes
deriving DecidableEq, Repr

/-- The types that implement `Input`. A struct's field has `pack` unless it is `#[unpacked]`. -/
inductive Impl
  | field
  | uint (w : Width)
  | u128
  | int (w : Width)
  | i128
  | bool
  | array (of : Impl) (len : ℕ)
  | tuple (ts : List Impl)
  | struct (name : String) (fields : List (Member Impl)) (encoding : StructEncoding)
  | text
  | choice (v : Variants)
  | bitfield (v : Variants)
  | timestamp
  | time (t : TimeRange)

mutual

/-- `Input::TYPE`. -/
def Impl.type : Impl → Ty
  | .field => .field
  | .uint w => .uint w.bits
  | .u128 => .uint 128
  | .int w => .int w.bits
  | .i128 => .int 128
  | .bool => .bool
  | .array t n => .array t.type n
  | .tuple ts => .tuple (tupleTypes ts)
  | .struct name fields enc =>
      .named ⟨name, none, .struct (memberTypes (enc = .fields) fields),
        match enc with
        | .fields => .fields
        | .number bits => .number bits
        | .bytes => .bytes .concat⟩
  | .text => .named ⟨"Text", none, .newtype .field, .text 31⟩
  | .choice v => .named ⟨"Choice", some v.name, .newtype .field, .choice v⟩
  | .bitfield v => .named ⟨"Bitfield", some v.name, .newtype .field, .set v⟩
  | .timestamp => .named ⟨"Timestamp", none, .newtype (.int 64), .timestamp⟩
  | .time t => .named ⟨"Time", none, .newtype (.uint t.bits), .time t.unit t.fromYear t.toYear⟩

/-- The types of a tuple. -/
def tupleTypes : List Impl → List Ty
  | [] => []
  | t :: ts => t.type :: tupleTypes ts

/-- The members of a struct's layout, packed where `#[input]` packs at all. -/
def memberTypes (packing : Bool) : List (Member Impl) → List (Member Ty)
  | [] => []
  | ⟨name, t, pack⟩ :: ms => ⟨name, t.type, packing && pack⟩ :: memberTypes packing ms

end

/-- `__PLAN`. -/
def Impl.plan (t : Impl) (n : ℕ) : List Pack := packPlan t.type n

mutual

/-- The values of a type. A signed integer is its two's complement. -/
def Impl.Val : Impl → Type
  | .field => Fr
  | .uint w => BitVec w.bits
  | .u128 => BitVec 128
  | .int w => BitVec w.bits
  | .i128 => BitVec 128
  | .bool => Bool
  | .array t n => Fin n → t.Val
  | .tuple ts => TupleVal ts
  | .struct _ fields _ => FieldsVal fields
  | .text => Fr
  | .choice _ => Fr
  | .bitfield _ => Fr
  | .timestamp => BitVec 64
  | .time _ => BitVec 64

/-- The values of a tuple. -/
def TupleVal : List Impl → Type
  | [] => Unit
  | t :: ts => t.Val × TupleVal ts

/-- The values of a struct's fields. -/
def FieldsVal : List (Member Impl) → Type
  | [] => Unit
  | ⟨_, t, _⟩ :: ms => t.Val × FieldsVal ms

end

/-! ### Reading -/

/-- `Reader`, over known values: the packed element being read is a number. -/
structure Reader where
  values : List Fr
  pos : ℕ
  group : ℕ
  slot : Option (ℕ × ℕ)

/-- A step of a reader. -/
abbrev Reading (α : Type) := Reader → Except Panic (α × Reader)

/-- `Group::slice`. -/
def sliceBits (group offset bits : ℕ) : Fr := ((group / 2 ^ offset % 2 ^ bits : ℕ) : Fr)

/-- The next leaf, as it is. -/
def Reader.next (r : Reader) : Except Panic (Fr × Reader) :=
  match r.values[r.pos]? with
  | some f => .ok (f, { r with pos := r.pos + 1 })
  | none => .error .outOfBounds

/-- `Reader::field`. -/
def Reader.field : Reading Fr := fun r =>
  match r.slot with
  | some (offset, bits) => .ok (sliceBits r.group offset bits, { r with slot := none })
  | none => r.next

/-- `field.to_limbs()[0]`. -/
def limb0 (f : Fr) : ℕ := f.val % 2 ^ 64

/-- `Reader::uint`. -/
def Reader.uint (bits : ℕ) : Reading ℕ := fun r =>
  match r.slot with
  | some (offset, w) =>
      if w ≤ bits then .ok (limb0 (sliceBits r.group offset w), { r with slot := none })
      else .error .narrow
  | none => do
      let (f, r) ← r.next
      .ok (limb0 f, r)

/-- `Reader::bool`. -/
def Reader.bool : Reading Bool := fun r => do
  let (f, r) ← r.field
  .ok (f ≠ 0, r)

/-- `Reader::u128`. -/
def Reader.u128 : Reading ℕ := fun r =>
  match r.slot with
  | some (offset, bits) =>
      let lo := sliceBits r.group offset (min bits 64)
      let hi := sliceBits r.group (offset + 64) (bits - 64)
      .ok ((limb0 hi) * 2 ^ 64 + limb0 lo, { r with slot := none })
  | none => do
      let (f, r) ← r.next
      .ok (f.val / 2 ^ 64 % 2 ^ 64 * 2 ^ 64 + limb0 f, r)

/-- `Reader::member`. -/
def Reader.member {α : Type} (p : Pack) (read : Reading α) : Reading α := fun r =>
  if !p.packed then read r
  else do
    let r ←
      (if p.offset = 0 then do
        let (f, r) ← r.field
        -- `Group::of`
        if f.val < 2 ^ p.total then .ok { r with group := f.val } else .error (.pastTotal p.total)
      else .ok r)
    let (v, r) ← read { r with slot := some (p.offset, p.bits) }
    if r.slot = none then .ok (v, r) else .error .readsNoLeaf

/-- `n` values, one after the other. -/
def readArray {α : Type} (read : Reading α) : (n : ℕ) → Reading (Fin n → α)
  | 0 => fun r => .ok (Fin.elim0, r)
  | n + 1 => fun r => do
      let (vs, r) ← readArray read n r
      let (v, r) ← read r
      .ok (Fin.snoc vs v, r)

mutual

/-- `Input::read`. -/
def Impl.read : (t : Impl) → Reading t.Val
  | .field => Reader.field
  | .uint w => fun r => do
      let (x, r) ← r.uint w.bits
      .ok (BitVec.ofNat w.bits x, r)
  | .u128 => fun r => do
      let (x, r) ← r.u128
      .ok (BitVec.ofNat 128 x, r)
  | .int w => fun r => do
      let (x, r) ← r.uint w.bits
      .ok (BitVec.ofNat w.bits x, r)
  | .i128 => fun r => do
      let (x, r) ← r.u128
      .ok (BitVec.ofNat 128 x, r)
  | .bool => Reader.bool
  | .array t n => readArray t.read n
  | .tuple ts => tupleRead ts
  | .struct name fields enc =>
      fieldsRead ((Impl.struct name fields enc).plan fields.length) fields
  | .text => Reader.field
  | .choice _ => Reader.field
  | .bitfield _ => Reader.field
  | .timestamp => fun r => do
      let (x, r) ← r.uint 64
      .ok (BitVec.ofNat 64 x, r)
  | .time t => fun r => do
      let (x, r) ← r.uint t.bits
      .ok (BitVec.ofNat 64 x, r)

/-- The values of a tuple. -/
def tupleRead : (ts : List Impl) → Reading (TupleVal ts)
  | [] => fun r => .ok ((), r)
  | t :: ts => fun r => do
      let (v, r) ← t.read r
      let (vs, r) ← tupleRead ts r
      .ok ((v, vs), r)

/-- The fields of a struct, each as the plan has it. -/
def fieldsRead : (plan : List Pack) → (ms : List (Member Impl)) → Reading (FieldsVal ms)
  | _, [] => fun r => .ok ((), r)
  | plan, ⟨_, t, _⟩ :: ms => fun r => do
      let (v, r) ← Reader.member (plan.head?.getD .ALONE) t.read r
      let (vs, r) ← fieldsRead plan.tail ms r
      .ok ((v, vs), r)

end

/-- `from_fields`. -/
def fromFields (t : Impl) (values : List Fr) : Except Panic t.Val := do
  let (v, _) ← t.read ⟨values, 0, 0, none⟩
  .ok v

/-! ### Writing -/

/-- `Writer`: what is written of a slice of `len` elements, and the packed element being written. -/
structure Writer where
  len : ℕ
  out : List Fr
  acc : Fr

/-- A step of a writer. -/
abbrev Writing := Writer → Except Panic Writer

/-- `Writer::field`. -/
def Writer.field (f : Fr) : Writing := fun w =>
  if w.out.length < w.len then .ok { w with out := w.out ++ [f] } else .error .outOfBounds

/-- `Writer::member`. -/
def Writer.member (p : Pack) (write : Writing) : Writing := fun w =>
  if !p.packed then write w
  else do
    let one ← write ⟨1, [], 0⟩
    match one.out with
    | [f] =>
        if f.val < 2 ^ p.bits then
          let acc := (if p.offset = 0 then 0 else w.acc) + f * 2 ^ p.offset
          if p.last then Writer.field acc { w with acc := acc } else .ok { w with acc := acc }
        else .error (.pastBits p.bits)
    | _ => .error .notOneLeaf

/-- `n` values, one after the other. -/
def writeArray {α : Type} (write : α → Writing) : (n : ℕ) → (Fin n → α) → Writing
  | 0, _ => fun w => .ok w
  | n + 1, v => fun w => do
      let w ← writeArray write n (fun i => v i.castSucc) w
      write (v (Fin.last n)) w

mutual

/-- `Input::write`. -/
def Impl.write : (t : Impl) → t.Val → Writing
  | .field, f => Writer.field f
  | .uint _, x => Writer.field ((BitVec.toNat x : ℕ) : Fr)
  | .u128, x => Writer.field ((BitVec.toNat x : ℕ) : Fr)
  | .int _, x => Writer.field ((BitVec.toNat x : ℕ) : Fr)
  | .i128, x => Writer.field ((BitVec.toNat x : ℕ) : Fr)
  | .bool, b => Writer.field ((Bool.toNat b : ℕ) : Fr)
  | .array t n, v => writeArray t.write n v
  | .tuple ts, vs => tupleWrite ts vs
  | .struct name fields enc, vs =>
      fieldsWrite ((Impl.struct name fields enc).plan fields.length) fields vs
  | .text, f => Writer.field f
  | .choice _, f => Writer.field f
  | .bitfield _, f => Writer.field f
  | .timestamp, x => Writer.field ((BitVec.toNat x : ℕ) : Fr)
  | .time _, x => Writer.field ((BitVec.toNat x : ℕ) : Fr)

/-- The values of a tuple. -/
def tupleWrite : (ts : List Impl) → TupleVal ts → Writing
  | [], _ => fun w => .ok w
  | t :: ts, (v, vs) => fun w => do
      let w ← t.write v w
      tupleWrite ts vs w

/-- The fields of a struct, each as the plan has it. -/
def fieldsWrite : (plan : List Pack) → (ms : List (Member Impl)) → FieldsVal ms → Writing
  | _, [], _ => fun w => .ok w
  | plan, ⟨_, t, _⟩ :: ms, (v, vs) => fun w => do
      let w ← Writer.member (plan.head?.getD .ALONE) (t.write v) w
      fieldsWrite plan.tail ms vs w

end

/-- `write_fields`, into a slice of `LEN` elements that are zero before. -/
def writeFields (t : Impl) (v : t.Val) : Except Panic (List Fr) := do
  let w ← t.write v ⟨t.type.leaves, [], 0⟩
  .ok (w.out ++ List.replicate (t.type.leaves - w.out.length) 0)

end Input

end XarkCircuit
