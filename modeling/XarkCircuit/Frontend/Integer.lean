import XarkCircuit.Frontend.Host

/-!
The native integers of a circuit (`host.rs`, `interp.rs`).

* `Bin`, `Cmp` are the operations; `concreteBin` and `concreteCmp` are what the interpreter computes
  on concrete operands.
* `IntVal` is an operand: concrete, a wire, or a choice between two by a wire. `intBin` and `intCmp`
  emit the rows of an operation on such.
* `lcMax` bounds a combination from what is known of its variables; `splitLc`, `disjoint`,
  `decidedCmp` and `intResult` avoid decompositions with it.

`reg` is the width of the register, 32 or 64. The bytes of symbolic memory, and the search for the
values of an index, are left out.
-/

namespace XarkCircuit

namespace Frontend

open LinearCombination
open Verifier (rModulus)

/-- The operations on integers; `S` are those of signed integers. -/
inductive Bin
  | add | sub | mul | divS | divU | remS | remU | and | or | xor | shl | shrS | shrU | rotl | rotr
deriving DecidableEq, Repr

inductive BoolOp
  | and | or | xor
deriving DecidableEq, Repr

/-! ### Concrete operands -/

/-- `i32_bin`, `i64_bin`: a trap is `none`. -/
def concreteBin {reg : ℕ} (o : Bin) (a b : BitVec reg) : Option (BitVec reg) :=
  match o with
  | .add => some (a + b)
  | .sub => some (a - b)
  | .mul => some (a * b)
  | .divS => if b = 0 ∨ (a = BitVec.intMin reg ∧ b = -1) then none else some (a.sdiv b)
  | .divU => if b = 0 then none else some (a / b)
  | .remS => if b = 0 then none else some (a.srem b)
  | .remU => if b = 0 then none else some (a % b)
  | .and => some (a &&& b)
  | .or => some (a ||| b)
  | .xor => some (a ^^^ b)
  | .shl => some (a <<< (b.toNat % reg))
  | .shrS => some (a.sshiftRight (b.toNat % reg))
  | .shrU => some (a >>> (b.toNat % reg))
  | .rotl => some (a.rotateLeft (b.toNat % reg))
  | .rotr => some (a.rotateRight (b.toNat % reg))

/-- `i32_cmp`, `i64_cmp`. -/
def concreteCmp {reg : ℕ} (o : Cmp) (a b : BitVec reg) : Bool :=
  match o with
  | .eq => a == b
  | .ne => a != b
  | .ltS => a.slt b
  | .ltU => a.ult b
  | .gtS => b.slt a
  | .gtU => b.ult a
  | .leS => a.sle b
  | .leU => a.ule b
  | .geS => b.sle a
  | .geU => b.ule a

/-! ### Operands -/

/-- An operand. -/
inductive IntVal
  | const (b : ℕ)
  | wire (id width : ℕ)
  /-- The value of `t` where the wire of the condition is one, else that of `e`. -/
  | ite (cond : ℕ) (t e : IntVal)
deriving DecidableEq, Repr

namespace IntVal

def isSym : IntVal → Bool
  | const _ => false
  | _ => true

def konst : IntVal → Option ℕ
  | const b => some b
  | _ => none

/-- A bound on the bits of the value. -/
def intWidth : IntVal → ℕ
  | const b => b.size
  | wire _ width => width
  | ite _ t e => max t.intWidth e.intWidth

/-- Zero or one, by its width. -/
def boolLike : IntVal → Bool
  | const b => b ≤ 1
  | wire _ width => width = 1
  | ite _ t e => t.boolLike && e.boolLike

/-- A choice, unless there is none. -/
def mkIte (cond : ℕ) (t e : IntVal) : IntVal := if t = e then t else ite cond t e

end IntVal

namespace Host

def asI64 (c : FieldConst) : Option ℤ := if Const.FitsI64 c then some c else none

/-- A number of 128 bits. -/
def checkedU128 (n : ℕ) : Option ℕ := if n < 2 ^ 128 then some n else none

/-- A non-negative coefficient. -/
def asU128 (c : FieldConst) : Option ℕ := (asI64 c).bind fun c => if 0 ≤ c then some c.toNat else none

/-! ### Bounds -/

/-- `l` as a multiple of a computed bit 0, and the rest. -/
def splitComputedBit0 (b : Builder) (l : LinearCombination) : Option (ℤ × LinearCombination) :=
  l.terms.reverse.findSome? fun t => do
    let bits ← b.computedBits t.var
    let b0 ← bits.head?
    let lead ← b0.terms.getLast?
    let top ← asI64 lead.coeff
    let coeff ← asI64 t.coeff
    let c := coeff.tdiv top
    if coeff.tmod top = 0 ∧ 0 < c then some (c, l - b0.scale c) else none

/-- A bound on a variable: it is a bit, or its width or a requirement is known. -/
def varBound (h : Host) (v : VarId) : Option ℕ :=
  if h.b.booleanVars v then some 1
  else
    match (h.varWidth v).filter (· < 64), h.varMax v with
    | some n, some m => some (min (2 ^ n - 1) m)
    | some n, none => some (2 ^ n - 1)
    | none, some m => some m
    | none, none => none

/-- The bound with one more term. -/
def addTermBound (h : Host) (max : ℕ) (t : Term) : Option ℕ := do
  let c ← asU128 t.coeff
  let v ← h.varBound t.var
  let p ← checkedU128 (c * v)
  checkedU128 (max + p)

/-- A bound on the number `l`: its coefficients are not negative and its variables are bounded. Each
round takes off a variable; `fuel` bounds the rounds. -/
def lcMaxLoop (h : Host) : ℕ → LinearCombination → Option ℕ
  | 0, _ => none
  | fuel + 1, l =>
      match splitComputedBit0 h.b l with
      | some (c, rest) => do
          let m ← lcMaxLoop h fuel rest
          checkedU128 (m + c.toNat)
      | none => do
          let c ← asU128 l.constant
          l.terms.foldlM (addTermBound h) c

def lcMax (h : Host) (l : LinearCombination) : Option ℕ := lcMaxLoop h (h.b.nextVarId + 1) l

/-- The bits that the largest value of `l` needs. -/
def lcBits (h : Host) (l : LinearCombination) : Option ℕ := (h.lcMax l).map Nat.size

/-- A term's part of the low and of the high bits. -/
def splitTerm (m : ℤ) (parts : LinearCombination × LinearCombination) (t : Term) :
    LinearCombination × LinearCombination :=
  (if t.coeff % m ≠ 0 then parts.1 + (ofVar t.var).scale (t.coeff % m) else parts.1,
    if t.coeff / m ≠ 0 then parts.2 + (ofVar t.var).scale (t.coeff / m) else parts.2)

/-- `l` as `low + 2ᵏ · high`, with `low` below `2ᵏ`, if its terms say so. -/
def splitLc (h : Host) (l : LinearCombination) (k : ℕ) :
    Option (LinearCombination × LinearCombination) :=
  if 63 ≤ k ∨ l.terms.any fun t => (asU128 t.coeff).isNone then none
  else do
    let _ ← h.lcMax l
    let c ← asI64 l.constant
    let parts := l.terms.foldl (splitTerm (2 ^ k)) (ofConst (c % 2 ^ k), ofConst (c / 2 ^ k))
    let max ← h.lcMax parts.1
    if max < 2 ^ k then some parts else none

/-- The number of zeros below the lowest one. -/
def trailingZeros (c : ℕ) : ℕ := ((List.range 63).find? fun i => c.testBit i).getD 63

def minTrailingZeros (k : ℕ) (c : FieldConst) : Option ℕ :=
  (asU128 c).map fun c => if c = 0 then k else min k (trailingZeros c)

/-- The power of two that divides every coefficient and the constant, which are not negative. -/
def lcTrailingZeros (l : LinearCombination) : Option ℕ :=
  (l.constant :: l.terms.map Term.coeff).foldlM minTrailingZeros 63

def fitsBelow (h : Host) (hi lo : LinearCombination) : Bool :=
  !hi.isConstant && (h.lcMax hi).isSome &&
    match lcTrailingZeros hi, h.lcMax lo with
    | some k, some max => max < 2 ^ k
    | _, _ => false

/-- The bits of the two cannot overlap. -/
def disjoint (h : Host) (x y : LinearCombination) : Bool := h.fitsBelow x y || h.fitsBelow y x

/-- The least and the greatest value. -/
def lcRange (h : Host) (l : LinearCombination) : Option (ℕ × ℕ) :=
  if l.isConstant then (asU128 l.constant).map fun c => (c, c) else (h.lcMax l).map fun m => (0, m)

/-- A comparison that the bounds decide. -/
def decidedCmp (h : Host) (o : Cmp) (x y : LinearCombination) : Option Bool := do
  let (alo, ahi) ← h.lcRange x
  let (blo, bhi) ← h.lcRange y
  let lt := ahi < blo
  let ge := bhi ≤ alo
  let gt := bhi < alo
  let le := ahi ≤ blo
  match o with
  | .ltU => if lt then some true else if ge then some false else none
  | .geU => if ge then some true else if lt then some false else none
  | .gtU => if gt then some true else if le then some false else none
  | .leU => if le then some true else if gt then some false else none
  | .eq => if lt ∨ gt then some false else none
  | .ne => if lt ∨ gt then some true else none
  | _ => none

/-! ### Values -/

/-- A wire of an integer. -/
def intWire (h : Host) (l : LinearCombination) (width : ℕ) : IntVal × Host :=
  (.wire h.wires.length width, h.newWire l width)

section Operations

variable (lcHash : LinearCombination → ℕ)

/-- The combination that is the value. -/
def intLc : IntVal → Host → Outcome (LinearCombination × Host)
  | .const b, h => .ok (ofConst b, h)
  | .wire id _, h => do
      let l ← Outcome.orPanic h.wires[id]?
      return (l, h)
  | .ite cond t e, h => do
      let (t, h) ← intLc t h
      let (e, h) ← intLc e h
      h.muxBySym lcHash cond t e

/-- A value of `width` bits in a register. -/
def intResult (h : Host) (l : LinearCombination) (width reg : ℕ) : Compile (IntVal × Host) :=
  match if l.isConstant then asI64 l.constant else none with
  | some v =>
      let v := (v % 2 ^ 64).toNat
      .ok (.const (if reg = 32 then v % 2 ^ 32 else v), h)
  | none =>
      let width := min width ((h.lcBits l).getD width)
      if width ≤ reg then .ok (h.intWire l width)
      else
        match h.splitLc l reg with
        | some (low, _) => .ok (h.intWire low reg)
        | none => do
            let (bits, h) ← h.bitsOf lcHash l width
            return h.intWire (recompose (bits.take reg)) reg

/-! ### Operations -/

/-- The factor of one bit. -/
def twoPowStep (p : LinearCombination × Builder) (bit : LinearCombination × ℕ) :
    Outcome (LinearCombination × Builder) :=
  let f := one + bit.1.scale (2 ^ 2 ^ bit.2 - 1)
  if p.1.isConstant then .ok (f.scale p.1.constant, p.2)
  else (p.2.consumePending p.1).emitMul lcHash p.1 f

/-- `2 ^ k` for the number `k` of these bits: `Π (1 + (2 ^ 2ⁱ − 1) · kᵢ)`. -/
def twoPow (b : Builder) (bits : List LinearCombination) : Outcome (LinearCombination × Builder) :=
  bits.zipIdx.foldlM (twoPowStep lcHash) (one, b)

/-- A shift by a witness amount. -/
def shiftByWire (h : Host) (left : Bool) (reg : ℕ) (la : LinearCombination) (wa : ℕ)
    (lb : LinearCombination) (wb : ℕ) : Compile (IntVal × Host) := do
  let lg := if reg = 64 then 6 else 5
  let (kb, h) ← h.bitsOf lcHash lb (max wb lg)
  let (p, b) ← lift (twoPow lcHash h.b (kb.take lg))
  if left then do
    let (l, b) ← lift (((b.consumePending la).consumePending p).emitMul lcHash la p)
    intResult lcHash { h with b := b } l (wa + reg - 1) reg
  else do
    let (q, b) ← lift b.allocAdvice
    let (r, b) ← lift b.allocAdvice
    let b := b.pushWitness (some (.divRem q r la p))
    let (_, h) ← { h with b := b }.bitsOf lcHash (ofVar q) (max wa 1)
    let (_, h) ← h.bitsOf lcHash (ofVar r) (max wa 1)
    match ← lift (h.b.emitLessThanGated lcHash (max wa reg) (ofVar r) p none) with
    | .error message => refuse (CompileError.new message)
    | .ok (lt, b) => do
        let b ← lift (b.emitRequireEq lt one)
        let (prod, b) ← lift ((b.consumePending p).emitMul lcHash (ofVar q) p)
        let b ← lift ((b.consumePending la).emitRequireEq (prod + ofVar r) la)
        intResult lcHash { h with b := b } (ofVar q) wa reg

/-- An operation on bits; with a constant it is linear. -/
def bitOp (o : BoolOp) (x y : LinearCombination) (b : Builder) :
    Outcome (LinearCombination × Builder) :=
  if x.isConstant then
    match o, decide (x.constant = 0) with
    | .and, true => .ok (zero, b)
    | .and, false => if y.isConstant && y.constant = 0 then .ok (zero, b) else .ok (y, b)
    | .or, true => .ok (y, b)
    | .or, false => if y.isConstant && y.constant = 0 then .ok (x, b) else .ok (one, b)
    | .xor, true => .ok (y, b)
    | .xor, false => if y.isConstant && y.constant = 0 then .ok (x, b) else .ok (one - y, b)
  else if y.isConstant then
    match o, decide (y.constant = 0) with
    | .and, true => .ok (zero, b)
    | .and, false => .ok (x, b)
    | .or, true => .ok (x, b)
    | .or, false => .ok (one, b)
    | .xor, true => .ok (x, b)
    | .xor, false => .ok (one - x, b)
  else
    match o with
    | .and => b.emitMul lcHash x y
    | .or => b.emitOr x y
    | .xor => b.emitXor x y

/-- The operation bit by bit. -/
def bitOps (o : BoolOp) : List LinearCombination → List LinearCombination → Builder →
    Outcome (List LinearCombination × Builder)
  | x :: xs, y :: ys, b => do
      let (out, b) ← bitOp lcHash o x y b
      let (outs, b) ← bitOps o xs ys b
      return (out :: outs, b)
  | _, _, b => .ok ([], b)

/-- The `k` of a mask `2ᵏ − 1`. -/
def maskWidth (mask : ℕ) : Option ℕ :=
  if mask + 1 < 2 ^ 64 ∧ (mask + 1).isPowerOfTwo then some (trailingZeros (mask + 1)) else none

/-- Bit by bit; a mask of low bits takes them, and numbers whose bits cannot overlap are added. -/
def bitwise (h : Host) (o : BoolOp) (reg : ℕ) (a : IntVal) (la : LinearCombination) (wa : ℕ)
    (b : IntVal) (lb : LinearCombination) (wb : ℕ) : Compile (IntVal × Host) :=
  let x := if b.konst.isSome then (la, wa) else (lb, wb)
  let masked := if o = .and then (b.konst.or a.konst).bind maskWidth else none
  if o ≠ .and && h.disjoint la lb then intResult lcHash h (la + lb) (max wa wb) reg
  else
    match masked.bind fun k => (h.splitLc x.1 k).map fun parts => (k, parts.1) with
    | some (k, low) => intResult lcHash h low (min k x.2) reg
    | none => do
        let n := min (max wa wb) reg
        let (ba, h) ← h.bitsOf lcHash la n
        let (bb, h) ← h.bitsOf lcHash lb n
        let (out, b) ← lift (bitOps lcHash o ba bb h.b)
        intResult lcHash { h with b := b } (recompose out) (if o = .and then min wa wb else n) reg

/-- A product; with a constant it is linear. -/
def intMul (h : Host) (reg : ℕ) (a : IntVal) (la : LinearCombination) (wa : ℕ) (b : IntVal)
    (lb : LinearCombination) (wb : ℕ) : Compile (IntVal × Host) :=
  match a.konst, b.konst with
  | some c, _ => intResult lcHash h (lb.scale c) (wa + wb) reg
  | none, some c => intResult lcHash h (la.scale c) (wa + wb) reg
  | none, none => do
      let (l, b) ← lift (((h.b.consumePending la).consumePending lb).emitMul lcHash la lb)
      intResult lcHash { h with b := b } l (wa + wb) reg

/-- A shift to the right by a constant. -/
def shiftRight (h : Host) (signed : Bool) (reg k : ℕ) (la : LinearCombination) (wa : ℕ) :
    Compile (IntVal × Host) :=
  if signed && reg ≤ wa then do
    -- the sign is copied into the bits from the top
    let (bits, h) ← h.bitsOf lcHash la reg
    let top ← lift (Outcome.orPanic bits[reg - 1]?)
    intResult lcHash h (recompose (bits.drop k) + top.scale (2 ^ reg - 2 ^ (reg - k))) reg reg
  else if wa ≤ k then .ok (.const 0, h)
  else
    match h.splitLc la k with
    | some (_, high) => intResult lcHash h high (wa - k) reg
    | none => do
        let (bits, h) ← h.bitsOf lcHash la wa
        intResult lcHash h (recompose (bits.drop k)) (wa - k) reg

/-- A rotation. -/
def rotate (h : Host) (left : Bool) (reg k : ℕ) (la : LinearCombination) : Compile (IntVal × Host) := do
  let (bits, h) ← h.bitsOf lcHash la reg
  let bits := if left then bits.drop (reg - k) ++ bits.take (reg - k) else bits.drop k ++ bits.take k
  intResult lcHash h (recompose bits) reg reg

/-- A division by `2ᵏ`. -/
def divPow2 (h : Host) (div : Bool) (reg k : ℕ) (la : LinearCombination) (wa : ℕ) :
    Compile (IntVal × Host) :=
  match h.splitLc la k with
  | some (low, high) =>
      if div then intResult lcHash h high (wa - k) reg else intResult lcHash h low (min k wa) reg
  | none => do
      let (bits, h) ← h.bitsOf lcHash la (max wa k)
      if div then intResult lcHash h (recompose (bits.drop (min k wa))) (wa - k) reg
      else intResult lcHash h (recompose (bits.take (min k wa))) (min k wa) reg

/-- The divisor of the hint: in an arm that is not taken it may be zero, and is made one more. -/
def divisor (g : Option LinearCombination) (konst : Option ℕ) (l : LinearCombination) :
    LinearCombination :=
  match g, konst with
  | some g, none => l + one - g
  | _, _ => l

/-- The product of the quotient and the divisor; with a constant it is linear. -/
def quotientProduct (b : Builder) (konst : Option ℕ) (q l : LinearCombination) :
    Outcome (LinearCombination × Builder) :=
  match konst with
  | some k => .ok (q.scale k, b)
  | none => (b.consumePending l).emitMul lcHash q l

/-- A division: the quotient and the remainder are hints, and `a = q · b + r` with `r < b`. In an arm
that is not taken they are zero, whatever the divisor. -/
def divide (h : Host) (div : Bool) (reg : ℕ) (la : LinearCombination) (wa : ℕ) (b : IntVal)
    (lb : LinearCombination) (wb : ℕ) : Compile (IntVal × Host) := do
  let (g, h) ← lift (h.guard lcHash)
  let (num, bu) ← lift (h.b.gateInput lcHash g la)
  let (q, bu) ← lift bu.allocAdvice
  let (r, bu) ← lift bu.allocAdvice
  let bu := bu.pushWitness (some (.divRem q r num (divisor g b.konst lb)))
  let bu := (bu.pinDeadTo g q 0).pinDeadTo g r 0
  let (_, h) ← { h with b := bu }.bitsOf lcHash (ofVar q) (max wa 1)
  let (_, h) ← h.bitsOf lcHash (ofVar r) (max wb 1)
  match ← lift (h.b.emitLessThanGated lcHash (max wb 1) (ofVar r) lb none) with
  | .error message => refuse (CompileError.new message)
  | .ok (lt, bu) => do
      let h ← lift ({ h with b := bu }.requireGated lcHash lt one)
      let (prod, bu) ← lift (quotientProduct lcHash h.b b.konst (ofVar q) lb)
      let h ← lift ({ h with b := bu.consumePending la }.requireGated lcHash (prod + ofVar r) la)
      if div then intResult lcHash h (ofVar q) wa reg else intResult lcHash h (ofVar r) wb reg

/-- A division of unsigned numbers. -/
def intDiv (h : Host) (div : Bool) (reg : ℕ) (la : LinearCombination) (wa : ℕ) (b : IntVal)
    (lb : LinearCombination) (wb : ℕ) : Compile (IntVal × Host) :=
  match b.konst with
  | some c =>
      if c.isPowerOfTwo then divPow2 lcHash h div reg (trailingZeros c) la wa
      else if c = 0 then refuse { CompileError.new "integer division by zero" with diverged := true }
      else divide lcHash h div reg la wa b lb wb
  | none => divide lcHash h div reg la wa b lb wb

/-- The amount of a shift that must be a constant. -/
def amount (b : IntVal) (reg : ℕ) : Compile ℕ :=
  match b.konst with
  | some k => .ok (k % reg)
  | none => refuse (CompileError.new "a shift by a witness amount is not supported")

/-- An operation (`int_bin`). -/
def intBin (h : Host) (o : Bin) (reg : ℕ) (a b : IntVal) : Compile (IntVal × Host) := do
  let (la, h) ← lift (intLc lcHash a h)
  let (lb, h) ← lift (intLc lcHash b h)
  let wa := a.intWidth
  let wb := b.intWidth
  match o with
  | .add => intResult lcHash h (la + lb) (max wa wb + 1) reg
  | .sub =>
      if b.konst = some 0 then return (a, h)
      else do
        let (r, bu) ← lift (h.b.emitWrappingSub lcHash reg la lb)
        return { h with b := bu }.intWire r reg
  | .mul => intMul lcHash h reg a la wa b lb wb
  | .and => bitwise lcHash h .and reg a la wa b lb wb
  | .or => bitwise lcHash h .or reg a la wa b lb wb
  | .xor => bitwise lcHash h .xor reg a la wa b lb wb
  | .shl =>
      if b.isSym then shiftByWire lcHash h true reg la wa lb wb
      else do
        let k ← amount b reg
        intResult lcHash h (la.scale (2 ^ k)) (wa + k) reg
  | .shrU =>
      if b.isSym then shiftByWire lcHash h false reg la wa lb wb
      else do
        let k ← amount b reg
        shiftRight lcHash h false reg k la wa
  | .shrS => do
      let k ← amount b reg
      shiftRight lcHash h true reg k la wa
  | .rotl => do
      let k ← amount b reg
      rotate lcHash h true reg k la
  | .rotr => do
      let k ← amount b reg
      rotate lcHash h false reg k la
  | .divU => intDiv lcHash h true reg la wa b lb wb
  | .remU => intDiv lcHash h false reg la wa b lb wb
  | .divS | .remS => refuse (CompileError.new "signed division of a witness integer is not supported")

/-! ### Comparisons -/

/-- `x < y` of `n` bits. -/
def lessThan (h : Host) (n : ℕ) (x y : LinearCombination) : Compile (LinearCombination × Host) := do
  match ← lift (h.b.emitLessThanGated lcHash n x y none) with
  | .error message => refuse (CompileError.new message)
  | .ok (lt, b) => return (lt, { h with b := b })

/-- `x + 2 ^ (reg − 1)` modulo `2 ^ reg`: the order of signed numbers is that of these. -/
def signFlip (h : Host) (x : LinearCombination) (reg : ℕ) : Compile (LinearCombination × Host) :=
  let half := ofConst (2 ^ (reg - 1))
  if x.isConstant then .ok (ofConst ((x.constant + 2 ^ (reg - 1)).tmod (2 ^ reg)), h)
  else
    match h.knownBits x reg with
    | some bits => do
        let top ← lift (Outcome.orPanic bits[reg - 1]?)
        return (x + half - top.scale (2 ^ reg), h)
    | none => do
        let (lt, h) ← lessThan lcHash h reg x half
        return (x + half - (one - lt).scale (2 ^ reg), h)

/-- The numbers to compare. -/
def flips (h : Host) (flip : Bool) (reg : ℕ) (x y : LinearCombination) :
    Compile (LinearCombination × LinearCombination × Host) :=
  if flip then do
    let (x, h) ← signFlip lcHash h x reg
    let (y, h) ← signFlip lcHash h y reg
    return (x, y, h)
  else .ok (x, y, h)

def isSigned : Cmp → Bool
  | .ltS | .gtS | .leS | .geS => true
  | _ => false

/-- A comparison of numbers of `n` bits. -/
def emitCmp (h : Host) (o : Cmp) (n : ℕ) (x y : LinearCombination) :
    Compile (LinearCombination × Host) :=
  match o with
  | .eq => do
      let (z, b) ← lift (h.b.emitIsZero lcHash (x - y))
      return (z, { h with b := b })
  | .ne => do
      let (z, b) ← lift (h.b.emitIsZero lcHash (x - y))
      return (one - z, { h with b := b })
  | .ltU | .ltS => lessThan lcHash h n x y
  | .gtU | .gtS => lessThan lcHash h n y x
  | .leU | .leS => do
      let (lt, h) ← lessThan lcHash h n y x
      return (one - lt, h)
  | .geU | .geS => do
      let (lt, h) ← lessThan lcHash h n x y
      return (one - lt, h)

/-- A comparison (`int_cmp`); unsigned orders are remembered. -/
def intCmp (h : Host) (o : Cmp) (reg : ℕ) (a b : IntVal) : Compile (IntVal × Host) := do
  let (la, h) ← lift (intLc lcHash a h)
  let (lb, h) ← lift (intLc lcHash b h)
  match h.decidedCmp o la lb with
  | some v => return (.const (if v then 1 else 0), h)
  | none => do
      let n := max (max a.intWidth b.intWidth) 1
      let flip := isSigned o && reg ≤ n
      let (x, y, h) ← flips lcHash h flip reg la lb
      let (l, h) ← emitCmp lcHash h o (if flip then reg else n) x y
      let id := h.wires.length
      let (out, h) := h.intWire l 1
      let remembered := o = .ltU ∨ o = .leU ∨ o = .gtU ∨ o = .geU
      return (out, { h with cmpFacts :=
        if remembered then Function.update h.cmpFacts id (some (o, la, lb)) else h.cmpFacts })

/-- The bound of a variable that a required comparison proves. -/
def learnedBound (o : Cmp) (value : Bool) (x y : LinearCombination) : Option (VarId × ℤ) :=
  let konst (l : LinearCombination) : Option ℤ :=
    if l.isConstant then (asI64 l.constant).filter (0 ≤ ·) else none
  match Builder.oneVar x, konst y, Builder.oneVar y, konst x with
  | some v, some c, _, _ =>
      match o, value with
      | .ltU, true | .geU, false => some (v, c - 1)
      | .leU, true | .gtU, false => some (v, c)
      | _, _ => none
  | _, _, some v, some c =>
      match o, value with
      | .gtU, true | .leU, false => some (v, c - 1)
      | .geU, true | .ltU, false => some (v, c)
      | _, _ => none
  | _, _, _, _ => none

/-- A requirement outside the arms was made of the condition of wire `id`. -/
def learnBound (h : Host) (id : ℕ) (value : Bool) : Host :=
  match (h.cmpFacts id).bind fun f => learnedBound f.1 value f.2.1 f.2.2 with
  | some (v, max) =>
      if max < 0 then h
      else
        let bound := min ((h.varMax v).getD max.toNat) max.toNat
        { h with varMax := Function.update h.varMax v (some bound) }
  | none => h

/-- The condition of wire `id` is `value`, where the open arms are taken. -/
def requireCond (h : Host) (id : ℕ) (value : Bool) : Outcome Host := do
  let c ← Outcome.orPanic h.wires[id]?
  let h ← h.requireGated lcHash c (if value then one else zero)
  return if h.guards.isEmpty && !h.b.witnessOnly then h.learnBound id value else h

/-! ### Other operations -/

/-- The low `bits` bits. -/
def intTrunc (h : Host) (v : IntVal) (bits : ℕ) : Compile (IntVal × Host) := do
  let (l, h) ← lift (intLc lcHash v h)
  intResult lcHash h l v.intWidth bits

/-- `x` of `width` bits, its sign extended. -/
def signExtend (h : Host) (x : IntVal) (width reg : ℕ) : Compile (IntVal × Host) := do
  let (l, h) ← lift (intLc lcHash x h)
  let (lt, h) ← lessThan lcHash h width l (ofConst (2 ^ (width - 1)))
  return h.intWire (l + (one - lt).scale (2 ^ reg - 2 ^ width)) reg

def intNot (h : Host) (c : IntVal) : Outcome (IntVal × Host) :=
  match c.konst with
  | some b => .ok (.const (if b = 0 then 1 else 0), h)
  | none => do
      let (l, h) ← intLc lcHash c h
      return h.intWire (one - l) 1

/-- An operation with a concrete operand. -/
def boolFold (h : Host) (o : BoolOp) (x : IntVal) (y : ℕ) : Outcome (IntVal × Host) :=
  match o, decide (y ≠ 0) with
  | .and, true | .or, false | .xor, false => .ok (x, h)
  | .and, false => .ok (.const 0, h)
  | .or, true => .ok (.const 1, h)
  | .xor, true => intNot lcHash h x

/-- The row of an operation on `{0, 1}`. -/
def boolRow (o : BoolOp) (x y : LinearCombination) (b : Builder) : Outcome (LinearCombination × Builder) :=
  match o with
  | .and => ((b.consumePending x).consumePending y).emitMul lcHash x y
  | .or => b.emitOr x y
  | .xor => b.emitXor x y

/-- An operation on `{0, 1}`. -/
def boolOp (h : Host) (o : BoolOp) (a b : IntVal) : Outcome (IntVal × Host) :=
  match b.konst, a.konst with
  | some y, _ => boolFold lcHash h o a y
  | none, some y => boolFold lcHash h o b y
  | none, none => do
      let (la, h) ← intLc lcHash a h
      let (lb, h) ← intLc lcHash b h
      let (out, bu) ← boolRow lcHash o la lb h.b
      return { h with b := bu }.intWire out 1

end Operations

end Host

end Frontend

end XarkCircuit
