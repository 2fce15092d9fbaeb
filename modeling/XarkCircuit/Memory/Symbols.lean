import XarkCircuit.Lib.ByteMemory
import XarkCircuit.Lib.Succeeds

/-!
Symbolic values (`interp.rs`).

* `V` is a value of the interpreter, concrete or a symbol of the table; `Sym` is what a symbol
  stands for, and a `Cell` is what a byte of memory holds.
* `assemble` makes a value from its little-endian bytes, and `slice` takes bytes out of a value.
* `V.value` and `Cell.value` evaluate them under a valuation of the wires, from the values that
  `Table.value` gives the symbols of a table.
-/

namespace XarkCircuit

namespace Memory

open Codec ByteMemory Succeeding

/-- Why the interpreter stops. -/
inductive Fault where
  /-- `CompileError`, with the message. -/
  | compile (message : String)
  /-- `oob(addr)`: "circuit execution trapped: memory access out of bounds at" the address. -/
  | oob (addr : ℕ)
  /-- An index past the end, an overflowing addition or an `unreachable!`. -/
  | panic
  | outOfFuel
  deriving DecidableEq

/-- A value: concrete bits, or with `s ≠ 0` the symbol `s`. -/
structure V where
  b : ℕ
  s : ℕ
  deriving DecidableEq

/-- `V::c`. -/
def V.c (b : ℕ) : V := ⟨b, 0⟩

/-- `V::is_sym`. -/
def V.isSym (v : V) : Bool := v.s ≠ 0

/-- Byte `k` of the symbol `sym`. -/
structure SymByte where
  sym : ℕ
  k : ℕ
  deriving DecidableEq

/-- A byte, and the symbolic content that it has instead. -/
abbrev Cell := UInt8 × Option SymByte

/-- A symbolic value. -/
inductive Sym where
  /-- The placeholder for id 0. -/
  | none
  /-- A wire, with a value below `2 ^ width`. -/
  | wire (id width : ℕ)
  /-- `cond ? t : e`. -/
  | ite (cond : ℕ) (t e : V)
  /-- Little-endian bytes of several values. -/
  | bytes (cells : List Cell)
  deriving DecidableEq

/-- `Machine.syms`. -/
abbrev Table := List Sym

/-- `Machine::new_sym`. -/
def newSym (syms : Table) (s : Sym) : V × Table := (⟨0, syms.length⟩, syms ++ [s])

/-- `Machine::ite`. -/
def ite (syms : Table) (cond : ℕ) (t e : V) : V × Table :=
  if t = e then (t, syms) else newSym syms (.ite cond t e)

/-- `u32::div_ceil(8)`. -/
def divCeil8 (width : ℕ) : ℕ := (width + 7) / 8

/-- `self.syms[s as usize]`. -/
def symAt (syms : Table) (s : ℕ) : Except Fault Sym :=
  match syms[s]? with
  | some sym => .ok sym
  | none => .error .panic

/-- `Machine::byte_of`. -/
def byteOf (syms : Table) (v : V) (k : ℕ) : Except Fault Cell :=
  if v.isSym then do
    match ← symAt syms v.s with
    | .wire _ width => .ok (0, if width ≤ k * 8 then none else some ⟨v.s, k⟩)
    | .bytes b => .ok (b.getD k (0, none))
    | _ => .ok (0, some ⟨v.s, k⟩)
  else .ok (byteAt v.b k, none)

/-- The first select among the symbolic bytes. -/
def findIte (syms : Table) : List Cell → Except Fault (Option (ℕ × ℕ × V × V))
  | [] => .ok none
  | (_, none) :: cells => findIte syms cells
  | (_, some sb) :: cells => do
      match ← symAt syms sb.sym with
      | .ite cond t e => .ok (some (sb.sym, cond, t, e))
      | _ => findIte syms cells

/-- A byte, or where it is one of the select `iteSym` the byte of its arm `x`. -/
def armCell (syms : Table) (iteSym : ℕ) (x : V) : Cell → Except Fault Cell
  | (byte, some s) => if s.sym = iteSym then byteOf syms x s.k else .ok (byte, some s)
  | (byte, none) => .ok (byte, none)

/-- Whether the symbolic bytes are those of one wire in place, and the others zero. -/
def inPlace (first : SymByte) (cells : List Cell) : Bool :=
  cells.zipIdx.all fun c =>
    match c.1.2 with
    | some s => s.sym = first.sym ∧ s.k = c.2
    | none => c.1.1 = 0

/-- Whether the bytes are all those of a wire. -/
def isWire (syms : Table) (first : SymByte) (cells : List Cell) : Except Fault Bool :=
  if inPlace first cells ∧ first.k = 0 then do
    match ← symAt syms first.sym with
    | .wire _ width =>
        let need := divCeil8 width
        .ok (need ≤ cells.length ∧ (cells.take need).all fun c => c.2.isSome)
    | _ => .ok false
  else .ok false

/-- What a byte adds to the `weight`. -/
def cellWeight : Cell → ℕ
  | (_, some sb) => sb.sym + 1
  | (_, none) => 0

/-- A bound on the calls that `assemble` nests: each replaces ids by smaller ones. -/
def weight (cells : List Cell) : ℕ := (cells.map cellWeight).sum

/-- `Machine::assemble`, with the depth of the recursion bounded. -/
def assembleFuel : ℕ → Table → List Cell → Except Fault (V × Table)
  | 0, _, _ => .error .outOfFuel
  | fuel + 1, syms, cells =>
      match cells.findSome? fun c => c.2 with
      | none =>
          -- the buffer has eight bytes
          if 8 < cells.length then .error .panic
          else .ok (V.c (fromBytesLe (cells.map fun c => c.1)), syms)
      | some first => do
          match ← findIte syms cells with
          | some (iteSym, cond, t, e) =>
              let tb ← cells.mapM (armCell syms iteSym t)
              let eb ← cells.mapM (armCell syms iteSym e)
              let (tv, syms) ← assembleFuel fuel syms tb
              let (ev, syms) ← assembleFuel fuel syms eb
              .ok (ite syms cond tv ev)
          | none =>
              if ← isWire syms first cells then .ok (⟨0, first.sym⟩, syms)
              else .ok (newSym syms (.bytes cells))

/-- `Machine::assemble`. -/
def assemble (syms : Table) (cells : List Cell) : Except Fault (V × Table) :=
  assembleFuel (weight cells + 1) syms cells

/-- `Machine::slice`, with the depth of the recursion bounded. -/
def sliceFuel : ℕ → Table → V → ℕ → ℕ → Except Fault (V × Table)
  | 0, _, _, _, _ => .error .outOfFuel
  | fuel + 1, syms, v, off, len =>
      if v.isSym then do
        match ← symAt syms v.s with
        | .ite cond t e =>
            let (t2, syms) ← sliceFuel fuel syms t off len
            let (e2, syms) ← sliceFuel fuel syms e off len
            .ok (ite syms cond t2 e2)
        | .wire _ width =>
            if off = 0 ∧ width ≤ 8 * len then .ok (v, syms)
            else if width ≤ 8 * off then .ok (V.c 0, syms)
            else do
              let cells ← (List.range len).mapM fun i : ℕ => byteOf syms v (off + i)
              .ok (newSym syms (.bytes cells))
        | .bytes b => assemble syms ((List.range len).map fun i : ℕ => b.getD (off + i) (0, none))
        | .none => .error .panic
      else if 8 ≤ off then
        -- a shift by 64 or more
        .error .panic
      else
        let x := v.b / 256 ^ off
        .ok (V.c (if 8 ≤ len then x % 2 ^ 64 else x % 256 ^ len), syms)

/-- `Machine::slice`. -/
def slice (syms : Table) (v : V) (off len : ℕ) : Except Fault (V × Table) :=
  sliceFuel (v.s + 1) syms v off len

/-! ### Values -/

/-- The value of a value, where the symbols have the values `vals`. -/
def V.value (vals : ℕ → ℕ) (v : V) : ℕ := if v.isSym then vals v.s else v.b

/-- The value of a byte. -/
def Cell.value (vals : ℕ → ℕ) : Cell → UInt8
  | (_, some sb) => byteAt (vals sb.sym) sb.k
  | (byte, none) => byte

/-- The value of a symbol, with the wires given by `ρ`. -/
def Sym.value (ρ vals : ℕ → ℕ) : Sym → ℕ
  | .none => 0
  | .wire id _ => ρ id
  | .ite cond t e => if ρ cond ≠ 0 then t.value vals else e.value vals
  | .bytes cells => fromBytesLe (cells.map (Cell.value vals))

/-- The values of the symbols of a table, each from those before it. -/
def Table.values (ρ : ℕ → ℕ) (syms : Table) : List ℕ :=
  syms.foldl (fun vals s => vals ++ [s.value ρ fun i => vals.getD i 0]) []

/-- The value of a symbol of the table. -/
def Table.value (ρ : ℕ → ℕ) (syms : Table) (i : ℕ) : ℕ := (Table.values ρ syms).getD i 0

end Memory

end XarkCircuit
