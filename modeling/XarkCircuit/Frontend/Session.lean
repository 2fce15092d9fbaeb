import XarkCircuit.Frontend.IntegerCmp

/-!
A circuit as the calls that its program makes on the host.

* `Session` is the host with the field elements and the integers that the program holds. What the
  interpreter does between two calls, moving values about, is left out.
* `Call` is a call, `Call.run` what the host does, `runAll` a sequence of them.
* `Values` is what the program holds under an assignment. `Call.Rel` is the meaning of a call on
  values, and `Call.Can` says when it does not fail. In an arm that is not taken a requirement is void,
  and a result may be anything that the meaning allows.

The hints of several limbs, the gadgets' recording and the schema are left out.
-/

namespace XarkCircuit

namespace Frontend

open LinearCombination
open Verifier (rModulus)

/-- The width of a register. -/
def regWidth (wide : Bool) : ℕ := if wide then 64 else 32

/-- A call; an operand is given by its place among the field elements, or among the integers. -/
inductive Call
  | const (c : FieldConst)
  | add (x y : ℕ) (negY : Bool)
  | neg (x : ℕ)
  | mul (x y : ℕ)
  | pow (x n : ℕ)
  | xorOr (isXor : Bool) (x y : ℕ)
  | eq (x y : ℕ)
  | ult (n x y : ℕ)
  | toBits (x n : ℕ)
  | fieldToUint (x n : ℕ)
  | boolToField (c : ℕ)
  | advice
  | hintInverse (orZero : Bool) (x : ℕ)
  | hintBit (x : ℕ) (i : U32)
  | hintDivRem (num den : ℕ)
  | requireEq (x y : ℕ)
  | bind (x : ℕ)
  | mux (c t e : ℕ)
  | number (k : ℕ) (wide : Bool)
  | intBin (o : Bin) (wide : Bool) (a b : ℕ)
  | intCmp (o : Cmp) (wide : Bool) (a b : ℕ)
  | intNot (c : ℕ)
  | boolOp (o : BoolOp) (a b : ℕ)
  | intTrunc (a : ℕ) (wide : Bool)
  | signExtend (a width : ℕ) (wide : Bool)
  | select (c t e : ℕ) (wide : Bool)
  | requireCond (c : ℕ) (value : Bool)
  | armBegin (c : ℕ) (value : Bool)
  | armEnd
deriving DecidableEq, Repr

/-! ### Sessions -/

/-- The host, and what the program holds: the integers with the width of their registers. -/
structure Session where
  h : Host
  fields : List LinearCombination
  ints : List (ℕ × IntVal)

namespace Session

/-- More is held. -/
def push (st : Session) (h : Host) (fields : List LinearCombination) (ints : List (ℕ × IntVal)) :
    Session :=
  ⟨h, st.fields ++ fields, st.ints ++ ints⟩

def field (st : Session) (i : ℕ) : Compile LinearCombination := lift (Outcome.orPanic st.fields[i]?)

/-- An integer, in a register of `reg` bits. -/
def int (st : Session) (i reg : ℕ) : Compile IntVal := do
  let v ← lift (Outcome.orPanic st.ints[i]?)
  if v.1 ≤ reg then return v.2 else lift (.error .panic)

/-- The wire of a condition. -/
def cond (st : Session) (i : ℕ) : Compile ℕ := do
  match ← st.int i 1 with
  | .wire id _ => return id
  | _ => lift (.error .panic)

end Session

section Operations

variable (lcHash : LinearCombination → ℕ)

/-- What the host does. -/
def Call.run (st : Session) : Call → Compile Session
  | const c => .ok (st.push st.h [ofConst c] [])
  | add x y negY => do
      let r := st.h.add (← st.field x) (← st.field y) negY
      return st.push r.2 [r.1] []
  | neg x => do
      let r := st.h.neg (← st.field x)
      return st.push r.2 [r.1] []
  | mul x y => do
      let r ← lift (st.h.mul lcHash (← st.field x) (← st.field y))
      return st.push r.2 [r.1] []
  | pow x n => do
      let r ← lift (st.h.pow lcHash (← st.field x) n)
      return st.push r.2 [r.1] []
  | xorOr isXor x y => do
      let r ← lift (st.h.xorOr isXor (← st.field x) (← st.field y))
      return st.push r.2 [r.1] []
  | eq x y => do
      let r ← lift (st.h.eq lcHash (← st.field x) (← st.field y))
      return st.push r.2 [] [(1, .wire (r.2.wires.length - 1) 1)]
  | ult n x y => do
      let r ← st.h.ult lcHash n (← st.field x) (← st.field y)
      return st.push r.2 [] [(1, .wire (r.2.wires.length - 1) 1)]
  | toBits x n => do
      let r ← st.h.toBits lcHash (← st.field x) n
      return st.push r.2 r.1 []
  | fieldToUint x n => do
      let r ← st.h.fieldToUint lcHash (← st.field x) n
      return st.push r.2 [] [(n, if n = 0 then .const 0 else .wire (r.2.wires.length - 1) n)]
  | boolToField c => do
      let r ← lift (Host.intLc lcHash (← st.int c 1) st.h)
      return st.push r.2 [r.2.putField r.1] []
  | advice => do
      let r ← lift (st.h.advice lcHash)
      return st.push r.2 [r.1] []
  | hintInverse orZero x => do
      let r ← lift (st.h.hintInverse lcHash orZero (← st.field x))
      return st.push r.2 [r.1] []
  | hintBit x i => do
      let r ← lift (st.h.hintBit lcHash (← st.field x) i)
      return st.push r.2 [r.1] []
  | hintDivRem num den => do
      let r ← lift (st.h.hintDivRem lcHash (← st.field num) (← st.field den))
      return st.push r.2 [r.1.1, r.1.2] []
  | requireEq x y => do
      let h ← st.h.requireEq lcHash (← st.field x) (← st.field y)
      return st.push h [] []
  | bind x => do
      let h ← lift (st.h.bind lcHash (← st.field x))
      return st.push h [] []
  | mux c t e => do
      let r ← lift (st.h.muxBySym lcHash (← st.cond c) (← st.field t) (← st.field e))
      return st.push r.2 [r.1] []
  | number k wide =>
      if k < 2 ^ regWidth wide then .ok (st.push st.h [] [(regWidth wide, .const k)])
      else lift (.error .panic)
  | intBin o wide a b => do
      let reg := regWidth wide
      let r ← Host.intBin lcHash st.h o reg (← st.int a reg) (← st.int b reg)
      return st.push r.2 [] [(reg, r.1)]
  | intCmp o wide a b => do
      let reg := regWidth wide
      let r ← Host.intCmp lcHash st.h o reg (← st.int a reg) (← st.int b reg)
      return st.push r.2 [] [(1, r.1)]
  | intNot c => do
      let r ← lift (Host.intNot lcHash st.h (← st.int c 1))
      return st.push r.2 [] [(1, r.1)]
  | boolOp o a b => do
      let r ← lift (Host.boolOp lcHash st.h o (← st.int a 1) (← st.int b 1))
      return st.push r.2 [] [(1, r.1)]
  | intTrunc a wide => do
      let r ← Host.intTrunc lcHash st.h (← st.int a 64) (regWidth wide)
      return st.push r.2 [] [(regWidth wide, r.1)]
  | signExtend a width wide =>
      if 0 < width ∧ width ≤ regWidth wide then do
        let r ← Host.signExtend lcHash st.h (← st.int a width) width (regWidth wide)
        return st.push r.2 [] [(regWidth wide, r.1)]
      else lift (.error .panic)
  | select c t e wide => do
      let reg := regWidth wide
      return st.push st.h [] [(reg, .mkIte (← st.cond c) (← st.int t reg) (← st.int e reg))]
  | requireCond c value => do
      let h ← lift (st.h.requireCond lcHash (← st.cond c) value)
      return st.push h [] []
  | armBegin c value => do
      let h ← lift (st.h.armBegin (← st.cond c) value)
      return st.push h [] []
  | armEnd => .ok (st.push st.h.armEnd [] [])

end Operations

/-! ### Values -/

/-- What the program holds; the arms that are open are taken or not, the innermost first. -/
structure Values where
  fields : List Fr
  ints : List ℕ
  arms : List Bool

namespace Values

def field (s : Values) (i : ℕ) : Fr := s.fields[i]?.getD 0

def int (s : Values) (i : ℕ) : ℕ := s.ints[i]?.getD 0

/-- Every open arm is taken. -/
def Taken (s : Values) : Prop := ∀ a ∈ s.arms, a = true

def push (s : Values) (fields : List Fr) (ints : List ℕ) : Values :=
  ⟨s.fields ++ fields, s.ints ++ ints, s.arms⟩

end Values

/-- What is held under an assignment. -/
def Session.values (st : Session) (w : VarId → Fr) : Values where
  fields := st.fields.map fun l => l.eval w
  ints := st.ints.map fun v => v.2.value st.h.wires w
  arms := st.h.guards.map fun g => decide (g.1.eval w = 1)

namespace Call

/-- The call does not fail. -/
def Can (s : Values) : Call → Prop
  | ult n x y => s.Taken → (s.field x).val < 2 ^ n ∧ (s.field y).val < 2 ^ n
  | toBits x n => s.Taken → (s.field x).val < 2 ^ n
  | fieldToUint x n => n ≠ 0 → (s.field x).val < 2 ^ n
  | advice => s.Taken
  | requireEq x y => s.Taken → s.field x = s.field y
  | requireCond c value => s.Taken → s.int c = value.toNat
  | intBin o wide a b => (Host.divides o = true → s.Taken) →
      (concreteBin o (BitVec.ofNat (regWidth wide) (s.int a))
        (BitVec.ofNat (regWidth wide) (s.int b))).isSome = true
  | _ => True

/-- The meaning of the call, from the values `s` to the values `s'`. The hints are what they should be
for whoever is `honest`; else they may be anything. -/
def Rel (honest : Bool) (s s' : Values) : Call → Prop
  | const c => s' = s.push [(c : Fr)] []
  | add x y negY =>
      s' = s.push [if negY then s.field x - s.field y else s.field x + s.field y] []
  | neg x => s' = s.push [-s.field x] []
  | mul x y => s' = s.push [s.field x * s.field y] []
  | pow x n => s' = s.push [s.field x ^ n] []
  | xorOr isXor x y => s' = s.push [Host.xorOrValue isXor (s.field x) (s.field y)] []
  | eq x y => s' = s.push [] [if s.field x = s.field y then 1 else 0]
  | ult n x y => ∃ lt, s' = s.push [] [lt] ∧ lt ≤ 1 ∧ (s.Taken → (s.field x).val < 2 ^ n →
      (s.field y).val < 2 ^ n → lt = if (s.field x).val < (s.field y).val then 1 else 0)
  | toBits x n => ∃ bits, s' = s.push bits [] ∧ bits.length = n ∧ (∀ b ∈ bits, IsBit b) ∧
      (s.Taken → (s.field x).val < 2 ^ n ∧ bits = bitList n (s.field x))
  | fieldToUint x n => s' = s.push [] [if n = 0 then 0 else (s.field x).val] ∧
      (n ≠ 0 → (s.field x).val < 2 ^ n)
  | boolToField c => s' = s.push [(s.int c : Fr)] []
  | advice => ∃ v, s' = s.push [v] [] ∧ (¬s.Taken → v = 0)
  | hintInverse _ x => ∃ v, s' = s.push [v] [] ∧ (honest = true → s.Taken → v = (s.field x)⁻¹)
  | hintBit x i => ∃ v, s' = s.push [v] [] ∧
      (honest = true → s.Taken → v = Bits.bitOf (s.field x).val i.val)
  | hintDivRem num den => ∃ q r, s' = s.push [q, r] [] ∧ (honest = true → s.Taken →
      q = ((s.field num).val / (s.field den).val : ℕ) ∧
        r = ((s.field num).val % (s.field den).val : ℕ))
  | requireEq x y => s' = s ∧ (s.Taken → s.field x = s.field y)
  | bind _ => s' = s
  | mux c t e => s' = s.push [if s.int c = 1 then s.field t else s.field e] []
  | number k _ => s' = s.push [] [k]
  | intBin o wide a b => ∃ v, s' = s.push [] [v] ∧ v < 2 ^ regWidth wide ∧
      ((Host.divides o = true → s.Taken) → concreteBin o (BitVec.ofNat (regWidth wide) (s.int a))
        (BitVec.ofNat (regWidth wide) (s.int b)) = some (BitVec.ofNat (regWidth wide) v))
  | intCmp o wide a b => s' = s.push [] [(concreteCmp o (BitVec.ofNat (regWidth wide) (s.int a))
      (BitVec.ofNat (regWidth wide) (s.int b))).toNat]
  | intNot c => s' = s.push [] [1 - s.int c]
  | boolOp o a b => s' = s.push [] [Host.natBool o (s.int a) (s.int b)]
  | intTrunc a wide => s' = s.push [] [s.int a % 2 ^ regWidth wide]
  | signExtend a width wide =>
      s' = s.push [] [((BitVec.ofNat width (s.int a)).signExtend (regWidth wide)).toNat]
  | select c t e _ => s' = s.push [] [if s.int c = 1 then s.int t else s.int e]
  | requireCond c value => s' = s ∧ (s.Taken → s.int c = value.toNat)
  | armBegin c value => s' = { s with arms := decide (s.int c = value.toNat) :: s.arms }
  | armEnd => s' = { s with arms := s.arms.tail }

/-- A signed comparison has operands whose constant combinations are the numbers themselves. -/
def Plain (lcHash : LinearCombination → ℕ) (st : Session) : Call → Prop
  | intCmp o wide a b => Host.isSigned o = true → ∀ va vb, st.int a (regWidth wide) = .ok va →
      st.int b (regWidth wide) = .ok vb → Host.PlainOperands lcHash st.h va vb
  | _ => True

end Call

/-- A run on values. -/
def Runs (honest : Bool) : List Call → Values → Values → Prop
  | [], s, s' => s' = s
  | c :: cs, s, s'' => ∃ s', c.Rel honest s s' ∧ Runs honest cs s' s''

end Frontend

end XarkCircuit
