import XarkCircuit.Frontend.Builder
import XarkCircuit.Frontend.MergeLc
import XarkCircuit.Verifier.ScalarOrder
import Mathlib.Algebra.Field.ZMod
import Mathlib.Data.Nat.Size

/-!
The operations on field elements of a circuit under construction (`host.rs`).

* `Host` is the state: the builder, the arms of witness branches that are open, the decompositions and
  selects that are remembered.
* An operation takes and returns combinations: `putField` reduces their constants. The memory that
  holds them is left out.
* A call can be refused, with an error, or stop the compiler.

`reduce` is the modulus, where the field is known.
-/

namespace XarkCircuit

namespace Frontend

open LinearCombination
open Verifier (rModulus)

/-- An error of the compiler; `diverged` marks one that no witness can reach. -/
structure CompileError where
  message : String
  help : List String
  notes : List String
  diverged : Bool
deriving DecidableEq, Repr

def CompileError.new (message : String) : CompileError := ⟨message, [], [], false⟩

inductive Failure
  | halt (why : Halt)
  | refused (error : CompileError)
deriving DecidableEq, Repr

/-- `CompileResult`, of a function that may panic. -/
abbrev Compile := Except Failure

/-- A function that may only panic. -/
def lift {α : Type} : Outcome α → Compile α
  | .ok a => .ok a
  | .error e => .error (.halt e)

def refuse {α : Type} (error : CompileError) : Compile α := .error (.refused error)

/-- The comparisons of integers; `S` are those of signed integers. -/
inductive Cmp
  | eq | ne | ltU | gtU | leU | geU | ltS | gtS | leS | geS
deriving DecidableEq, Repr

/-- The state of the host that the operations use. -/
structure Host where
  b : Builder
  reduce : Option ℕ
  /-- Decompositions that are proven, by the simplified value and the width. -/
  bitCache : LinearCombination × ℕ → Option (List LinearCombination)
  /-- The open arms, the innermost first: the condition, and the conjunction with those around it. -/
  guards : List (LinearCombination × Option LinearCombination)
  /-- Selects, by the number of the condition's wire. -/
  muxes : ℕ × LinearCombination × LinearCombination → Option LinearCombination
  wires : List LinearCombination
  /-- Widths of the variables that are wires. -/
  varWidth : VarId → Option ℕ
  /-- Bounds of variables that requirements proved. -/
  varMax : VarId → Option ℕ
  /-- Comparisons of integers, by the number of the result's wire. -/
  cmpFacts : ℕ → Option (Cmp × LinearCombination × LinearCombination)
  /-- Integer inputs whose range is still to be checked, with their widths. -/
  uintInputs : List (VarId × ℕ)
  /-- The high half of a wide input. -/
  pendingHi : Option LinearCombination

namespace Host

/-! ### Constants -/

/-- A constant in `[−p/2, p/2]`, and whether it became zero. -/
def fix (p : ℕ) (c : FieldConst) : FieldConst × Bool :=
  if Const.FitsI64 c ∨ c.natAbs ≤ p / 2 then (c, false)
  else
    let r := c % p
    let r := if (p / 2 : ℕ) < r then r - p else r
    (r, r = 0)

def reduceLc (reduce : Option ℕ) (l : LinearCombination) : LinearCombination :=
  match reduce with
  | none => l
  | some p =>
      let terms := l.terms.map fun t => (fix p t.coeff, t.var)
      let reduced : LinearCombination := ⟨(fix p l.constant).1, terms.map fun t => ⟨t.1.1, t.2⟩⟩
      if terms.any fun t => t.1.2 then reduced.simplified else reduced

/-- Is this stored as its limbs, not behind a handle? -/
def isRaw (l : LinearCombination) : Bool :=
  l.isConstant && (0 ≤ l.constant && l.constant < 2 ^ 256)

/-- The bits of a constant, if it fits. -/
def toBitsLe (c : FieldConst) (n : ℕ) : Option (List Bool) :=
  let v := (c : ZMod rModulus).val
  if n < v.size then none else some ((List.range n).map fun i => decide (i < 256) && v.testBit i)

/-- Zero or one. -/
def bitLc (b : Bool) : LinearCombination := if b then one else zero

/-! ### Known bits -/

/-- The term's place among the bits: that of its power of two, not taken, of a new boolean variable. -/
def placeBit (isBoolean : VarId → Bool) (n : ℕ) (slots : List (Option VarId) × List VarId)
    (t : Term) : Option (List (Option VarId) × List VarId) :=
  match (List.range n).find? fun i => (2 : ℤ) ^ i = t.coeff with
  | none => none
  | some i =>
      if (slots.1[i]?.getD none).isSome || t.var ∈ slots.2 || !isBoolean t.var then none
      else some (slots.1.set i (some t.var), t.var :: slots.2)

/-- The variables of a sum of `n` boolean variables with the powers of two. -/
def bitSumMatch (x : LinearCombination) (n : ℕ) (isBoolean : VarId → Bool) : Option (List VarId) :=
  if n = 0 ∨ x.constant ≠ 0 ∨ x.terms.length ≠ n then none
  else do
    let (slots, _) ← x.terms.foldlM (placeBit isBoolean n) (List.replicate n none, [])
    slots.mapM id

/-- `Σ 2ⁱ · bitᵢ`. -/
def recompose (bits : List LinearCombination) : LinearCombination :=
  (bits.zipIdx.foldl (fun acc l => acc + l.1.scale (2 ^ l.2)) zero)

/-- The bits that a sum of proven bits is made of. -/
def bitSumShortcut (b : Builder) (x : LinearCombination) (n : ℕ) : Option (List LinearCombination) :=
  match bitSumMatch x n b.booleanVars with
  | some vars => some (vars.map ofVar)
  | none =>
    match x.terms.getLast?.bind fun t => b.computedBits t.var with
    | none => none
    | some bits =>
        -- the low bits of a decomposition
        if bits.length < n then none
        else if (x - recompose (bits.take n)).isZero then some (bits.take n) else none

/-- The bits of `x`, if they are proven already. -/
def knownBits (h : Host) (x : LinearCombination) (n : ℕ) : Option (List LinearCombination) :=
  if x.isConstant then none
  else (bitSumShortcut h.b x n).or (h.bitCache (x.simplified, n))

/-! ### Operations -/

/-- `Host::new`: nothing is known. -/
def new (cse : Bool) (matThreshold : ℕ) (reduce : Option ℕ) : Host where
  b := Builder.new cse matThreshold
  reduce := reduce
  bitCache := fun _ => none
  guards := []
  muxes := fun _ => none
  wires := []
  varWidth := fun _ => none
  varMax := fun _ => none
  cmpFacts := fun _ => none
  uintInputs := []
  pendingHi := none

section Operations

variable (lcHash : LinearCombination → ℕ)

/-- The conjunction of the open arms, made when it is first needed. -/
def guardOf : List (LinearCombination × Option LinearCombination) → Builder →
    Outcome (Option LinearCombination × List (LinearCombination × Option LinearCombination) × Builder)
  | [], b => .ok (none, [], b)
  | (lit, some g) :: outer, b => .ok (some g, (lit, some g) :: outer, b)
  | (lit, none) :: outer, b => do
      let (parent, outer, b) ← guardOf outer b
      match parent with
      | none => return (some lit, (lit, some lit) :: outer, b)
      | some parent => do
          let (g, b) ← ((b.consumePending parent).consumePending lit).emitMul lcHash parent lit
          return (some g, (lit, some g) :: outer, b)

def guard (h : Host) : Outcome (Option LinearCombination × Host) := do
  let (g, guards, b) ← guardOf lcHash h.guards h.b
  return (g, { h with guards := guards, b := b })

/-- `lhs = rhs`, where the open arms are taken. -/
def requireGated (h : Host) (lhs rhs : LinearCombination) : Outcome Host := do
  let (g, h) ← h.guard lcHash
  match g with
  | none => do
      let b ← h.b.emitRequireEq lhs rhs
      return { h with b := b }
  | some g => return { h with b := h.b.emitRequireEqGated g lhs rhs }

/-- What is stored. -/
def putField (h : Host) (l : LinearCombination) : LinearCombination := reduceLc h.reduce l

/-- `x + y` or `x − y`. -/
def add (h : Host) (x y : LinearCombination) (negB : Bool) : LinearCombination × Host :=
  let h := { h with b := (h.b.consumePending x).consumePending y }
  let (out, big) := XarkCircuit.Host.mergeLc x.constant x.terms y.constant y.terms negB
  (if big || (isRaw x || isRaw y) then h.putField out else out, h)

def neg (h : Host) (x : LinearCombination) : LinearCombination × Host :=
  (h.putField (-x), { h with b := h.b.consumePending x })

def mul (h : Host) (lhs rhs : LinearCombination) : Outcome (LinearCombination × Host) :=
  if lhs.isConstant then
    .ok (h.putField (rhs.scale lhs.constant), { h with b := h.b.consumePending rhs })
  else if rhs.isConstant then
    .ok (h.putField (lhs.scale rhs.constant), { h with b := h.b.consumePending lhs })
  else do
    let (v, b) ← ((h.b.consumePending lhs).consumePending rhs).emitMulVar lcHash lhs rhs
    return (ofVar v, { h with b := b })

/-- `base ^ n`; a constant's power is a constant, where the modulus is known. -/
def pow (h : Host) (base : LinearCombination) (n : ℕ) : Outcome (LinearCombination × Host) :=
  let b := h.b.consumePending base
  match h.reduce, base.isConstant with
  | some p, true => .ok (h.putField (ofConst ((base.constant % p) ^ n % p)), { h with b := b })
  | _, _ => do
      let (out, b) ← b.emitPow lcHash base n
      return (h.putField out, { h with b := b })

/-- Exclusive or, and or, of bits; with a constant they are linear. -/
def xorOr (h : Host) (isXor : Bool) (x y : LinearCombination) : Outcome (LinearCombination × Host) :=
  let fold (v : LinearCombination) (k : FieldConst) : LinearCombination × Host :=
    let slope := if isXor then 1 + k * -2 else 1 + -k
    let out := v.scale slope
    (h.putField ⟨out.constant + k, out.terms⟩, { h with b := h.b.consumePending v })
  if y.isConstant then .ok (fold x y.constant)
  else if x.isConstant then .ok (fold y x.constant)
  else do
    let (out, b) ← if isXor then h.b.emitXor x y else h.b.emitOr x y
    return (h.putField out, { h with b := b })

/-- A wire, with its number; the width of a variable is remembered. -/
def newWire (h : Host) (l : LinearCombination) (width : ℕ) : Host :=
  { h with
    wires := h.wires ++ [l]
    varWidth := match Builder.oneVar l with
      | some v => Function.update h.varWidth v (some (min ((h.varWidth v).getD width) width))
      | none => h.varWidth }

/-- `x == y`, as a wire. -/
def eq (h : Host) (x y : LinearCombination) : Outcome (LinearCombination × Host) := do
  let (out, b) ← h.b.emitIsZero lcHash (x - y)
  return (out, { h with b := b }.newWire out 1)

/-- `x < y` of `n` bits, as a wire. -/
def ult (h : Host) (n : ℕ) (x y : LinearCombination) : Compile (LinearCombination × Host) := do
  let (g, h) ← lift (h.guard lcHash)
  match ← lift (h.b.emitLessThanGated lcHash n x y g) with
  | .error message => refuse { CompileError.new message with
      help := ["use a narrower fixed width; `2^(N+1)` must stay below the field order"] }
  | .ok (out, b) => return (out, { h with b := b }.newWire out 1)

/-- `!c`, as a wire. -/
def not (h : Host) (c : LinearCombination) : LinearCombination × Host :=
  (one - c, h.newWire (one - c) 1)

/-- A free witness; zero in an untaken arm. -/
def advice (h : Host) : Outcome (LinearCombination × Host) := do
  let (v, b) ← h.b.allocAdvice
  let (g, h) ← { h with b := b }.guard lcHash
  return (h.putField (ofVar v), { h with b := h.b.pinDeadTo g v 0 })

/-- The hint of `1 / x`; `orZero` where zero is its own inverse. -/
def hintInverse (h : Host) (orZero : Bool) (x : LinearCombination) :
    Outcome (LinearCombination × Host) := do
  let (g, h) ← h.guard lcHash
  let (x, b) ← h.b.gateInput lcHash g x
  let (v, b) ← b.allocAdvice
  let b := b.pinDeadTo g v 0
  -- in an arm the hint has to solve where it is not taken
  let op := if !orZero && h.guards.isEmpty then .inverse v x else .inverseOrZero v x
  return (h.putField (ofVar v), { h with b := b.pushWitness (some op) })

/-- The hint of bit `index` of `x`; a constant's bit is a constant. -/
def hintBit (h : Host) (x : LinearCombination) (index : U32) :
    Outcome (LinearCombination × Host) :=
  match h.reduce, x.isConstant with
  | some p, true =>
      .ok (h.putField (ofConst (if ((x.constant % p).toNat).testBit index.val then 1 else 0)), h)
  | _, _ => do
      let (g, h) ← h.guard lcHash
      let (x, b) ← h.b.gateInput lcHash g x
      let (v, b) ← b.allocAdvice
      let b := b.pinDeadTo g v 0
      return (h.putField (ofVar v), { h with b := b.pushWitness (some (.bit v x index)) })

/-- The divisor of a hint in an arm: `g · x + (1 − g) · low`. -/
def gateLimb (b : Builder) (gate : Option LinearCombination) (x : LinearCombination) (low : FieldConst) :
    Outcome (LinearCombination × Builder) :=
  match gate with
  | none => .ok (x, b)
  | some g => do
      let (x, b) ← b.gateInput lcHash (some g) x
      return (if low = 0 then x else x + (one - g).scale low, b)

/-- The hint of a quotient and a remainder. -/
def hintDivRem (h : Host) (num den : LinearCombination) :
    Outcome ((LinearCombination × LinearCombination) × Host) := do
  let (g, h) ← h.guard lcHash
  let (num, b) ← h.b.gateInput lcHash g num
  let (den, b) ← gateLimb lcHash b g den 1
  let (q, b) ← b.allocAdvice
  let (r, b) ← b.allocAdvice
  let b := (b.pinDeadTo g q 0).pinDeadTo g r 0
  let b := b.pushWitness (some (.divRem q r num den))
  return ((h.putField (ofVar q), h.putField (ofVar r)), { h with b := b })

/-- `x = y`. Two different constants never are. -/
def requireEq (h : Host) (x y : LinearCombination) : Compile Host :=
  if x.isConstant && y.isConstant && h.guards.isEmpty && !h.b.witnessOnly &&
      (reduceLc h.reduce (x - y)).constant ≠ 0 then
    refuse { CompileError.new s!"`require_eq` of two different constants ({x.constant} and {y.constant}) can never hold" with
      diverged := true }
  else lift (h.requireGated lcHash x y)

/-- `x` is in a row. -/
def bind (h : Host) (x : LinearCombination) : Outcome Host :=
  if x.isConstant then .ok h
  else do
    let (_, b) ← h.b.emitMul lcHash x x
    return { h with b := b }

/-- Is `x` known to be a bit? -/
def bitOperand (h : Host) (x : LinearCombination) : Compile Bool :=
  if x.isConstant then
    let k := (reduceLc h.reduce x).constant
    if k = 0 ∨ k = 1 then .ok true
    else refuse
      { message := s!"`^` is boolean XOR, and `{k}` isn't a bit (0 or 1)"
        help := []
        notes := [s!"for bitwise XOR use a native integer (`u32`: `x ^ {k}`) or XOR the bits of `x.to_bits::<N>()`; for a power, `x.pow({k})`"]
        diverged := true }
  else .ok (h.b.isBooleanLc x)

/-- The `n` bits of `x`, the lowest first, with a proof that it has no more. -/
def toBits (h : Host) (x : LinearCombination) (n : ℕ) :
    Compile (List LinearCombination × Host) :=
  if 253 < n then
    refuse (CompileError.new s!"`to_bits` of {n} bits: at most 253 fit below the field's modulus")
  else if x.isConstant then
    match toBitsLe x.constant n with
    | none => refuse
        { message := s!"constant `{x.constant}` does not fit in {n} bits"
          help := []
          notes := ["`Field::to_bits::<N>` of a constant requires `0 <= value < 2^N`"]
          diverged := true }
    | some bits => .ok (bits.map fun c => h.putField (bitLc c), h)
  else
    match h.knownBits x n with
    | some bits => .ok (bits.map h.putField, h)
    | none => do
        let (g, h) ← lift (h.guard lcHash)
        let (bits, b) ← lift (h.b.decomposeBitsGated lcHash x n g)
        -- an arm's bits are not those of `x`
        let bitCache := if h.guards.isEmpty && !b.witnessOnly then
            Function.update h.bitCache (x.simplified, n) (some bits) else h.bitCache
        return (bits.map h.putField, { h with b := b, bitCache := bitCache })

/-- The `n` bits of an integer value, in an arm too. -/
def bitsOf (h : Host) (x : LinearCombination) (n : ℕ) : Compile (List LinearCombination × Host) :=
  if x.isConstant then
    match toBitsLe x.constant n with
    | none => refuse (CompileError.new s!"internal: a constant does not fit its {n}-bit width")
    | some bits => .ok (bits.map bitLc, h)
  else
    match h.knownBits x n with
    | some bits => .ok (bits, h)
    | none => do
        let (bits, b) ← lift (h.b.decomposeBits lcHash x n)
        let bitCache := if !b.witnessOnly then
            Function.update h.bitCache (x.simplified, n) (some bits) else h.bitCache
        return (bits, { h with b := b, bitCache := bitCache })

/-- A field element as an integer of `w` bits, as a wire. -/
def fieldToUint (h : Host) (x : LinearCombination) (w : ℕ) : Compile (LinearCombination × Host) :=
  if w = 0 then .ok (zero, h)
  else if 64 < w then
    refuse (CompileError.new "internal error: `field_to_uint` is at most 64 bits wide")
  else do
    let (bits, h) ← h.bitsOf lcHash x w
    return (recompose bits, h.newWire (recompose bits) w)

/-! ### Inputs -/

def inputField (h : Host) (name : String) (visibility : Visibility) :
    Outcome (LinearCombination × Host) := do
  let (id, b) ← h.b.bindInput name visibility
  return (h.putField (ofVar id), { h with b := b })

/-- An integer input of `width` bits, as a wire: its low half, if it is wider than a register. -/
def inputUint (h : Host) (name : String) (visibility : Visibility) (width : ℕ) :
    Outcome (LinearCombination × Host) := do
  let (id, b) ← h.b.bindInput name visibility
  if 64 < width then do
    let (bits, b) ← b.decomposeBits lcHash (ofVar id) width
    let lo := recompose (bits.take 64)
    return (lo, { h with b := b, pendingHi := some (recompose (bits.drop 64)) }.newWire lo 64)
  else
    return (ofVar id,
      { h with b := b, uintInputs := h.uintInputs ++ [(id, width)] }.newWire (ofVar id) width)

def inputUintHi (h : Host) : Compile (LinearCombination × Host) :=
  match h.pendingHi with
  | none => refuse (CompileError.new "internal error: no `u128` input to take the high half of")
  | some hi => .ok (hi, { h with pendingHi := none }.newWire hi 64)

/-- `if c then t else e`, for the condition of wire `id`. -/
def muxBySym (h : Host) (id : ℕ) (t e : LinearCombination) : Outcome (LinearCombination × Host) :=
  let t := t.simplified
  let e := e.simplified
  if t = e then .ok (t, h)
  else
    match h.muxes (id, t, e) with
    | some l => .ok (l, h)
    | none => do
        let c ← Outcome.orPanic h.wires[id]?
        let (m, b) ← h.b.emitMul lcHash c (t - e)
        let out := e + m
        let muxes := if !b.witnessOnly then Function.update h.muxes (id, t, e) (some out) else h.muxes
        return (out, { h with b := b, muxes := muxes })

/-- An arm of a branch on wire `id`: it is taken where the wire is `value`. -/
def armBegin (h : Host) (id : ℕ) (value : Bool) : Outcome Host := do
  let c ← Outcome.orPanic h.wires[id]?
  return { h with guards := (if value then c else one - c, none) :: h.guards }

def armEnd (h : Host) : Host := { h with guards := h.guards.tail }

end Operations

end Host

end Frontend

end XarkCircuit
