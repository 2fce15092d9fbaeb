import XarkCircuit.Ir.LinearArith
import XarkCircuit.Ir.Primitive
import XarkCircuit.Ir.R1cs
import XarkCircuit.Lib.Outcome

/-!
The circuit builder (`builder.rs`): it allocates variables and emits rows and witness ops.

* `Builder` is its state. A state is passed on explicitly; a panic (an id past `u32`, an index out of
  bounds, a failed `assert!`) ends the run.
* `emitMulVar` reuses a product that is already constrained, `emitRequireEq` merges an equality into
  the row of the product it compares, and `consumePending` says that a product can no longer be.
* The other emissions are sequences of these and of rows and ops.

The table of products is keyed by hashes: `lcHash` is a parameter, the rows are compared literally.
-/

namespace XarkCircuit

namespace Frontend

open LinearCombination

/-- The state of the builder. -/
structure Builder where
  vars : List Variable
  constraints : List R1csConstraint
  nextVarId : ℕ
  nextConstraintId : ℕ
  /-- Products whose row may still take the target of an equality: the row and the op. -/
  pendingMul : VarId → Option (ℕ × ℕ)
  /-- Merged products, each with its op and its row, which still has the operands. -/
  merged : List (VarId × ℕ × ℕ)
  /-- Every constrained product: its op, its row and its output. -/
  deferredProducts : List (ℕ × ℕ × VarId)
  witnessGen : List (Option (WitnessGen LinearCombination VarId))
  /-- The bits of a decomposition whose bit 0 is computed, by its top bit. -/
  computedBits : VarId → Option (List LinearCombination)
  witnessOnly : Bool
  witnessOnlyVars : List VarId
  booleanVars : VarId → Bool
  /-- Constrained products by the hashes of their operands: the output and the row. -/
  products : ℕ × ℕ → Option (VarId × ℕ)
  cse : Bool
  matThreshold : ℕ
  /-- The inputs, in binding order. -/
  inputIds : List VarId

namespace Builder

/-- `Builder::new`, with the two development knobs. -/
def new (cse : Bool) (matThreshold : ℕ) : Builder where
  vars := []
  constraints := []
  nextVarId := 0
  nextConstraintId := 0
  pendingMul := fun _ => none
  merged := []
  deferredProducts := []
  witnessGen := []
  computedBits := fun _ => none
  witnessOnly := false
  witnessOnlyVars := []
  booleanVars := fun _ => false
  products := fun _ => none
  cse := cse
  matThreshold := matThreshold
  inputIds := []

/-! ### Variables, rows and ops -/

/-- A new variable. -/
def allocVar (b : Builder) (name : String) (visibility : Visibility) : Outcome (VarId × Builder) :=
  if h : b.nextVarId + 1 < 2 ^ 32 then
    let id : VarId := ⟨b.nextVarId, by omega⟩
    .ok (id, { b with
      nextVarId := b.nextVarId + 1
      vars := b.vars ++ [⟨id, name, visibility⟩]
      witnessOnlyVars :=
        if b.witnessOnly then b.witnessOnlyVars ++ [id] else b.witnessOnlyVars })
  else .error .panic

def allocInternal (b : Builder) : Outcome (VarId × Builder) := b.allocVar "" .internal

def allocAdvice (b : Builder) : Outcome (VarId × Builder) := b.allocVar "" .private

/-- A new input. -/
def bindInput (b : Builder) (name : String) (visibility : Visibility) :
    Outcome (VarId × Builder) := do
  let (id, b) ← b.allocVar name visibility
  return (id, { b with inputIds := b.inputIds ++ [id] })

/-- The variable of the combination `1 · v`. -/
def oneVar (l : LinearCombination) : Option VarId :=
  match l.terms with
  | [t] => if l.constant = 0 ∧ t.coeff = 1 then some t.var else none
  | _ => none

/-- The variable `v` of a row `v · v = v`. -/
def booleanityVar (c : R1csConstraint) : Option VarId := do
  let a ← oneVar c.a
  let b ← oneVar c.b
  let cc ← oneVar c.c
  if a = b ∧ b = cc then some a else none

def markBoolean (b : Builder) (v : VarId) : Builder :=
  { b with booleanVars := Function.update b.booleanVars v true }

/-- The row `a · b = c` under a fresh id, unless in a witness-only region. -/
def pushConstraint (b : Builder) (l r o : LinearCombination) : Builder :=
  let c : R1csConstraint := ⟨b.nextConstraintId, l, r, o, none⟩
  let b := { b with nextConstraintId := b.nextConstraintId + 1 }
  if b.witnessOnly then b
  else
    let b := match booleanityVar c with
      | some v => b.markBoolean v
      | none => b
    { b with constraints := b.constraints ++ [c] }

/-- The row `(lhs − rhs) · 1 = 0`. -/
def pushEqual (b : Builder) (lhs rhs : LinearCombination) : Builder :=
  b.pushConstraint (lhs - rhs) one zero

def pushWitness (b : Builder) (op : Option (WitnessGen LinearCombination VarId)) : Builder :=
  { b with witnessGen := b.witnessGen ++ [op] }

/-! ### Pending products -/

/-- The pending product that a combination is. -/
def asPendingVar (b : Builder) (l : LinearCombination) : Option VarId :=
  (oneVar l).filter fun v => (b.pendingMul v).isSome

/-- A pending product that a compound expression consumes can no longer be merged. -/
def consumePending (b : Builder) (l : LinearCombination) : Builder :=
  match b.asPendingVar l with
  | some v => { b with pendingMul := Function.update b.pendingMul v none }
  | none => b

/-- A combination with more terms than the threshold gets a name. -/
def materialize (b : Builder) (l : LinearCombination) : Outcome (LinearCombination × Builder) :=
  if l.terms.length ≤ b.matThreshold then .ok (l, b)
  else do
    let (v, b) ← b.allocInternal
    let b := b.pushWitness (some (.linear v l))
    return (ofVar v, b.pushEqual l (ofVar v))

/-! ### Booleans -/

/-- Is this zero, one, a boolean, a computed bit 0, or one minus such? -/
def isBooleanLc (b : Builder) (l : LinearCombination) : Bool :=
  match l.terms with
  | [] => l.constant = 0 || l.constant = 1
  | [t] =>
      b.booleanVars t.var &&
        ((l.constant = 0 && t.coeff = 1) || (l.constant = 1 && t.coeff = -1))
  | _ =>
      match l.terms.getLast?.bind fun t => b.computedBits t.var with
      | some (bit :: _) => (l - bit).isZero || (l + bit - one).isZero
      | _ => false

/-! ### Products -/

section Products

variable (lcHash : LinearCombination → ℕ)

/-- The key of a product in the table: the operands' hashes, the smaller first. -/
def productKey (lhs rhs : LinearCombination) : ℕ × ℕ :=
  (min (lcHash lhs) (lcHash rhs), max (lcHash lhs) (lcHash rhs))

/-- The output of the same product, if it is constrained and used as a value already. -/
def reuse (b : Builder) (lhs rhs : LinearCombination) : Outcome (Option VarId) :=
  if b.witnessOnly || !b.cse then .ok none
  else
    match b.products (productKey lcHash lhs rhs) with
    | none => .ok none
    | some (out, cIdx) => do
        let c ← Outcome.orPanic b.constraints[cIdx]?
        return if b.pendingMul out = none ∧ b.merged.lookup out = none ∧
            ((c.a = lhs ∧ c.b = rhs) ∨ (c.a = rhs ∧ c.b = lhs)) ∧ c.c = ofVar out
          then some out else none

/-- The row and the deferred op of a constrained product. -/
def pushProduct (b : Builder) (lhs rhs : LinearCombination) (out : VarId) : Builder :=
  let bothBool := b.isBooleanLc lhs && b.isBooleanLc rhs
  let b := b.pushConstraint lhs rhs (ofVar out)
  let cIdx := b.constraints.length - 1
  let b := if bothBool then b.markBoolean out else b
  let b := b.pushWitness none
  let wgIdx := b.witnessGen.length - 1
  { b with
    deferredProducts := b.deferredProducts ++ [(wgIdx, cIdx, out)]
    products :=
      if b.cse then Function.update b.products (productKey lcHash lhs rhs) (some (out, cIdx))
      else b.products
    pendingMul := Function.update b.pendingMul out (some (cIdx, wgIdx)) }

/-- `lhs · rhs`, as a variable. -/
def emitMulVar (b : Builder) (lhs rhs : LinearCombination) : Outcome (VarId × Builder) := do
  let (lhs, b) ← b.materialize lhs
  let (rhs, b) ← b.materialize rhs
  match ← b.reuse lcHash lhs rhs with
  | some out => return (out, b)
  | none => do
      let (out, b) ← b.allocInternal
      if b.witnessOnly then return (out, b.pushWitness (some (.product out lhs rhs)))
      else return (out, b.pushProduct lcHash lhs rhs out)

/-- `lhs · rhs`. -/
def emitMul (b : Builder) (lhs rhs : LinearCombination) : Outcome (LinearCombination × Builder) := do
  let (out, b) ← b.emitMulVar lcHash lhs rhs
  return (ofVar out, b)

/-! ### Equalities -/

/-- Does this mention a variable of a witness-only region? -/
def isWitnessOnlyLc (b : Builder) (l : LinearCombination) : Bool :=
  l.terms.any fun t => t.var ∈ b.witnessOnlyVars

/-- The row of a pending product outputs the target. -/
def mergeMul (b : Builder) (var : VarId) (target : LinearCombination) : Outcome Builder := do
  let (idx, wgIdx) ← Outcome.orPanic (b.pendingMul var)
  let c ← Outcome.orPanic b.constraints[idx]?
  let c := { c with c := target.simplified }
  let b := { b with
    pendingMul := Function.update b.pendingMul var none
    merged := b.merged ++ [(var, wgIdx, idx)]
    constraints := b.constraints.set idx c }
  return match booleanityVar c with
    | some v => b.markBoolean v
    | none => b

/-- `lhs = rhs`. -/
def emitRequireEq (b : Builder) (lhs rhs : LinearCombination) : Outcome Builder :=
  if b.witnessOnly then .ok b
  else
    match (b.asPendingVar lhs).filter fun _ => !b.isWitnessOnlyLc rhs with
    | some v => b.mergeMul v rhs
    | none =>
      match (b.asPendingVar rhs).filter fun _ => !b.isWitnessOnlyLc lhs with
      | some v => b.mergeMul v lhs
      | none =>
        let diff := lhs - rhs
        if diff.isZero then .ok b else .ok (b.pushEqual diff zero)

/-- `g → lhs = rhs` for a guard `g`. -/
def emitRequireEqGated (b : Builder) (g lhs rhs : LinearCombination) : Builder :=
  let b := ((b.consumePending lhs).consumePending rhs).consumePending g
  let diff := lhs - rhs
  if diff.isZero then b else b.pushConstraint g diff zero

/-! ### Bits -/

/-- `a` exclusive-or `b`, of booleans. -/
def emitXor (b : Builder) (x y : LinearCombination) : Outcome (LinearCombination × Builder) := do
  let b := (b.consumePending x).consumePending y
  let (c, b) ← b.allocInternal
  let b := b.pushConstraint (x.scale 2) y (x + y - ofVar c)
  let b := b.pushWitness (some (.xor c x y))
  let b := if !b.witnessOnly && b.isBooleanLc x && b.isBooleanLc y then b.markBoolean c else b
  return (ofVar c, b)

/-- `a` or `b`, of booleans. -/
def emitOr (b : Builder) (x y : LinearCombination) : Outcome (LinearCombination × Builder) := do
  let b := (b.consumePending x).consumePending y
  let (c, b) ← b.allocInternal
  let b := b.pushConstraint x y (x + y - ofVar c)
  let b := b.pushWitness (some (.or c x y))
  let b := if !b.witnessOnly && b.isBooleanLc x && b.isBooleanLc y then b.markBoolean c else b
  return (ofVar c, b)

/-- A hint's input in a branch arm: `g · x`. -/
def gateInput (b : Builder) (gate : Option LinearCombination) (x : LinearCombination) :
    Outcome (LinearCombination × Builder) :=
  match gate with
  | none => .ok (x, b)
  | some g =>
      if x.isZero then .ok (x, b) else ((b.consumePending x).consumePending g).emitMul lcHash g x

/-- A hint of an untaken arm is `value`. -/
def pinDeadTo (b : Builder) (gate : Option LinearCombination) (v : VarId) (value : FieldConst) :
    Builder :=
  match gate with
  | none => b
  | some g => b.emitRequireEqGated (one - g) (ofVar v) (ofConst value)

/-- `n` new advice variables. -/
def allocBits : ℕ → Builder → Outcome (List VarId × Builder)
  | 0, b => .ok ([], b)
  | n + 1, b => do
      let (v, b) ← b.allocAdvice
      let (vs, b) ← allocBits n b
      return (v :: vs, b)

/-- The hint and the booleanity of the bits from number `i + 1` on, and `sum` with their weights:
`pow` is that of bit `i`. -/
def pushBits (value : LinearCombination) :
    ℕ → List VarId → FieldConst → LinearCombination → Builder →
      Outcome (LinearCombination × Builder)
  | _, [], _, sum, b => .ok (sum, b)
  | i, v :: vs, pow, sum, b => do
      let index ← Outcome.orPanic (if h : i + 1 < 2 ^ 32 then some (⟨i + 1, h⟩ : U32) else none)
      let b := b.pushWitness (some (.bit v value index))
      let b := b.pushConstraint (ofVar v) (ofVar v) (ofVar v)
      let pow := pow * 2
      pushBits value (i + 1) vs pow (sum + (ofVar v).scale pow) b

/-- What a decomposition proves of its bits. -/
def learnBits (b : Builder) (top : Option VarId) (bits : List LinearCombination) : Builder :=
  if b.witnessOnly then b
  else
    match top with
    | some top => { b with computedBits := Function.update b.computedBits top (some bits) }
    | none =>
      match bits.head?.bind oneVar with
      | some v => b.markBoolean v
      | none => b

/-- `value`, below `2 ^ n`, as `n` bits, the lowest first; in an arm, `gate · value`. -/
def decomposeBitsGated (b : Builder) (value : LinearCombination) (n : ℕ)
    (gate : Option LinearCombination) : Outcome (List LinearCombination × Builder) :=
  if 253 < n then .error .panic
  else do
    let (value, b) ← b.gateInput lcHash gate value
    if n = 0 then return ([], b.pushEqual value zero)
    else do
      let (high, b) ← allocBits (n - 1) b
      let (sum, b) ← pushBits value 0 high 1 zero b
      -- bit 0 is what the others leave
      let low := value - sum
      let b := b.pushConstraint low (low - one) zero
      let bits := low :: high.map ofVar
      return (bits, b.learnBits high.getLast? bits)

/-- `value`, below `2 ^ n`, as `n` bits. -/
def decomposeBits (b : Builder) (value : LinearCombination) (n : ℕ) :
    Outcome (List LinearCombination × Builder) :=
  b.decomposeBitsGated lcHash value n none

/-- One when the input is zero, else zero. -/
def emitIsZero (b : Builder) (input : LinearCombination) :
    Outcome (LinearCombination × Builder) := do
  let (inv, b) ← b.allocAdvice
  let b := b.pushWitness (some (.inverseOrZero inv input))
  let (prod, b) ← b.emitMul lcHash input (ofVar inv)
  let out := one - prod
  let (inputOut, b) ← b.emitMul lcHash input out
  let b ← b.emitRequireEq inputOut zero
  let b := b.consumePending out
  let (invOut, b) ← b.emitMul lcHash (ofVar inv) out
  let b ← b.emitRequireEq invOut zero
  return (out, b)

/-- One when `x < y`, else zero, for numbers below `2 ^ n`. -/
def emitLessThanGated (b : Builder) (n : ℕ) (x y : LinearCombination)
    (gate : Option LinearCombination) : Outcome (Except String (LinearCombination × Builder)) :=
  if h : 252 < n then .ok (.error "comparison requires N ≤ 252 so 2^(N+1) ≤ BN254 field order")
  else do
    let twoPowN := ofConst (2 ^ n)
    let (diffPlus, b) ← b.gateInput lcHash gate (x - y + twoPowN)
    let (top, b) ← b.allocAdvice
    let b := b.pushWitness (some (.bit top diffPlus ⟨n, by omega⟩))
    let b := b.pushConstraint (ofVar top) (ofVar top) (ofVar top)
    let b := b.pinDeadTo gate top 0
    let lt := one - ofVar top
    let (ltPow, b) ← b.emitMul lcHash lt twoPowN
    let (_, b) ← b.decomposeBitsGated lcHash (x - y + ltPow) n gate
    return .ok (lt, b)

/-- `v · v = v`. -/
def emitBooleanity (b : Builder) (v : VarId) : Builder :=
  let b := b.pushConstraint (ofVar v) (ofVar v) (ofVar v)
  if b.witnessOnly then b else b.markBoolean v

/-- `x − y` modulo `2 ^ n`, for numbers below `2 ^ n`. -/
def emitWrappingSub (b : Builder) (n : ℕ) (x y : LinearCombination) :
    Outcome (LinearCombination × Builder) :=
  if h : n < 2 ^ 32 then do
    let (ge, b) ← b.allocAdvice
    let b := b.pushWitness (some (.bit ge (x - y + ofConst (2 ^ n)) ⟨n, h⟩))
    let b := b.emitBooleanity ge
    let borrow := one - ofVar ge
    let result := x - y + borrow.scale (2 ^ n)
    let (_, b) ← b.decomposeBits lcHash result n
    return (result, b)
  else .error .panic

/-- The loop of `emit_pow`: `base` is squared for each bit of the exponent; `fuel` bounds the bits. -/
def powLoop : ℕ → ℕ → Option LinearCombination → LinearCombination → Builder →
    Outcome (Option LinearCombination × Builder)
  | 0, _, result, _, b => .ok (result, b)
  | fuel + 1, e, result, base, b =>
      if e = 0 then .ok (result, b)
      else do
        let (result, b) ←
          if e % 2 = 1 then
            match result with
            | none => pure (some base, b)
            | some r => do
                let (r, b) ← ((b.consumePending r).consumePending base).emitMul lcHash r base
                pure (some r, b)
          else pure (result, b)
        let e := e / 2
        if 0 < e then do
          let (base, b) ← (b.consumePending base).emitMul lcHash base base
          powLoop fuel e result base b
        else powLoop fuel e result base b

/-- `base ^ n`. -/
def emitPow (b : Builder) (base : LinearCombination) (n : ℕ) :
    Outcome (LinearCombination × Builder) :=
  match n with
  | 0 => .ok (one, b)
  | 1 => .ok (base, b)
  | 2 => b.emitMul lcHash base base
  | 3 => do
      let (sq, b) ← b.emitMul lcHash base base
      (b.consumePending sq).emitMul lcHash sq base
  | n => do
      let (result, b) ← powLoop lcHash n n none base b
      let result ← Outcome.orPanic result
      return (result, b)

end Products

end Builder

end Frontend

end XarkCircuit
