import XarkCircuit.Decode.Eval
import XarkCircuit.Solve.Input

/-!
The compiled witness solver (`function_decode.rs`, `mod eval`).

* `wItems` compiles the instructions of a scope; the flag of an instruction marks a `Bit` on the
  input of the `Bit` just before it (`sameInput`). `escapes` says whether a template writes a
  variable that is not a fresh one of its call.
* `WFrame` is the frame of a call: its plugs as combinations over absolute variables, and their
  values when nothing the call writes can change them.
* `run` runs compiled instructions against a frame, and `solveWitness` solves a program.
-/

namespace XarkCircuit.Eval

open Outcome

/-- A compiled witness item. The flag of an instruction says that it is a `Bit` whose input the
`Bit` just before it has read and not written. -/
inductive WItem (F : Type)
  | op (op : WitnessGen (Lc F) VRef) (same : Bool)
  | call (d : ℕ) (base : VRef) (plugs : List (Lc F))

/-- Is this an absolute variable? -/
def VRef.isGlobal : VRef → Bool
  | .global _ => true
  | _ => false

/-- Is this a fresh variable of the call? -/
def VRef.isInternal : VRef → Bool
  | .internal _ => true
  | _ => false

section Compile

variable {F : Type} [CommRing F] [DecidableEq F]

/-- May `op` carry the input of the item before it over? In a template an absolute variable might
be one of the call's fresh ones, so the input must have none. -/
def sameInput (own : Option GDef) (prev : Option (WItem F)) (op : WitnessGen (Lc F) VRef) : Bool :=
  match prev, op with
  | some (.op (.bit out prev _) _), .bit _ input _ =>
      input = prev && input.terms.all fun t => t.1 ≠ out && (own.isNone || !t.1.isGlobal)
  | _, _ => false

/-- One instruction, compiled to the end of `out`. -/
def pushOp (own : Option GDef) (out : List (WItem F)) (op : WitnessGen LinearCombination VarId) :
    List (WItem F) :=
  let op := op.map (fun l => lc l own) fun v => resolve v own
  out ++ [.op op (sameInput own out.getLast? op)]

/-- One item, compiled to the end of `out`. -/
def pushWItem (own : Option GDef) (out : List (WItem F)) : XarkCircuit.WItem → List (WItem F)
  | .row op => pushOp own out op
  | .rolled ops => ops.foldl (pushOp own) out
  | .call d base plugs => out ++ [.call d (resolve base own) (plugs.map fun p => lc p own)]

/-- The witness items of a scope, compiled. -/
def wItems (src : List XarkCircuit.WItem) (own : Option GDef) : List (WItem F) :=
  src.foldl (pushWItem own) []

end Compile

section Solve

variable (p : ℕ)

/-- Whether one item writes a variable that is not a fresh one of its call. -/
def itemEscapes (inner : ℕ → Outcome Bool) : WItem (ZMod p) → Outcome Bool
  | .op op _ => .ok (op.outs.any fun v => !v.isInternal)
  | .call d base _ => if base.isInternal then inner d else .ok true

/-- `escapes`: whether some item under template `d` does. -/
def escapes (defs : List (List (WItem (ZMod p)))) : ℕ → ℕ → Outcome Bool
  | 0, _ => .error .outOfFuel
  | n + 1, d => do
      let items ← orPanic defs[d]?
      items.foldlM (fun e it => do
        let e' ← itemEscapes p (escapes defs n) it
        return e || e') false

/-- The compiled program. -/
structure WProgram where
  defs : List (List (WItem (ZMod p)))
  escapes : List Bool
  top : List (WItem (ZMod p))

/-- The values, and which variables an input or an instruction assigned. -/
structure Witness where
  vals : List (ZMod p)
  set : List Bool

variable {p}

namespace Witness

/-- The value of `id`; an unassigned variable reads as zero. -/
def get (w : Witness p) (id : VarId) : ZMod p := (w.vals[id.val]?).getD 0

/-- Assign `id`, growing both vectors as needed. -/
def put (w : Witness p) (id : VarId) (v : ZMod p) : Witness p :=
  let w := if w.vals.length ≤ id.val then
      ⟨w.vals ++ List.replicate (id.val + 1 - w.vals.length) 0,
        w.set ++ List.replicate (id.val + 1 - w.set.length) false⟩
    else w
  ⟨w.vals.set id.val v, w.set.set id.val true⟩

/-- The dense slots that `solve_streamed` returns. -/
def slots (w : Witness p) : DenseAssign p :=
  List.zipWith (fun v set => if set then some v else none) w.vals w.set

end Witness

/-- The frame of a call: the base of its fresh variables, its plugs as combinations over absolute
variables, and the values of the plugs when nothing the call writes can change them. -/
structure WFrame (p : ℕ) where
  base : VarId
  plugs : List (Lc (ZMod p))
  vals : Option (List (ZMod p))

/-- The value of a combination over absolute variables. -/
def absoluteValue (l : Lc (ZMod p)) (w : Witness p) : Outcome (ZMod p) :=
  l.terms.foldlM (fun acc t =>
    match t.1 with
    | .global id => .ok (acc + if t.2 = 1 then w.get id else w.get id * t.2)
    -- the plugs of a frame have absolute variables only
    | _ => .error .panic) l.k

namespace WFrame

/-- The value of a variable; a plug without a fixed value is read through its expression. -/
def var (f : WFrame p) (r : VRef) (w : Witness p) : Outcome (ZMod p) :=
  match r with
  | .internal o => .ok (w.get (f.base + o))
  | .global id => .ok (w.get id)
  | .plug i =>
    match f.vals with
    | some vals => orPanic vals[i]?
    | none => do
        let l ← orPanic f.plugs[i]?
        absoluteValue l w

/-- The value of a combination of this frame. -/
def lc (f : WFrame p) (l : Lc (ZMod p)) (w : Witness p) : Outcome (ZMod p) :=
  l.terms.foldlM (fun acc t => do
    let x ← f.var t.1 w
    return acc + if t.2 = 1 then x else x * t.2) l.k

/-- One term of `absolute`, added to what the terms before it have become. -/
def absoluteTerm (f : WFrame p) (acc : Lc (ZMod p)) (t : VRef × ZMod p) :
    Outcome (Lc (ZMod p)) :=
  match t.1, f.vals with
  | .plug i, some vals => do
      let x ← orPanic vals[i]?
      return ⟨acc.k + x * t.2, acc.terms⟩
  | .plug i, none => do
      let l ← orPanic f.plugs[i]?
      return ⟨acc.k + l.k * t.2, acc.terms ++ l.terms.map fun u => (u.1, u.2 * t.2)⟩
  | r, _ => do
      let id ← childBase f.base r
      return ⟨acc.k, acc.terms ++ [(.global id, t.2)]⟩

/-- A combination of this frame, over absolute variables. -/
def absolute (f : WFrame p) (l : Lc (ZMod p)) : Outcome (Lc (ZMod p)) :=
  l.terms.foldlM f.absoluteTerm ⟨l.k, []⟩

/-- The term reads a variable below `base`. -/
def below (base : VarId) (t : VRef × ZMod p) : Bool :=
  match t.1 with
  | .global id => id < base
  | _ => false

/-- The frame of a call to a template that does or does not escape. A call that does not writes
from its base on, so that plugs reading below the base keep their values throughout it. -/
def call (f : WFrame p) (base : VRef) (plugs : List (Lc (ZMod p))) (escapes : Bool)
    (w : Witness p) : Outcome (WFrame p) := do
  let base ← childBase f.base base
  let plugs ← plugs.mapM f.absolute
  let inner : WFrame p := ⟨base, plugs, none⟩
  if !escapes && plugs.all fun l => l.terms.all (below base) then do
    let vals ← plugs.mapM fun l => inner.lc l w
    return { inner with vals := some vals }
  else return inner

end WFrame

/-- What `run` carries along: the witness, and the input that was read last. -/
abbrev RunState (p : ℕ) := Witness p × Option (ZMod p)

/-- How an instruction reads: an input that is carried over is not read again. -/
def readInput (f : WFrame p) (st : RunState p) (same : Bool) (l : Lc (ZMod p)) :
    Outcome (ZMod p) :=
  match st.2.filter fun _ => same && f.vals.isSome with
  | some x => .ok x
  | none => f.lc l st.1

/-- What an instruction has read last. -/
def lastRead (f : WFrame p) (st : RunState p) (same : Bool)
    (op : WitnessGen (Lc (ZMod p)) VRef) : Outcome (Option (ZMod p)) :=
  match op.reads.getLast? with
  | none => .ok st.2
  | some l => some <$> readInput f st same l

/-- The outputs land on the variables they name. -/
def land (f : WFrame p) (outs : List (VRef × ZMod p)) (w : Witness p) : Outcome (Witness p) :=
  outs.foldlM (fun w o => do
    let id ← childBase f.base o.1
    return w.put id o.2) w

/-- One instruction: it reads its inputs, and then its outputs land. -/
def runOp (fakeGlv : FakeGlv) (f : WFrame p) (st : RunState p)
    (op : WitnessGen (Lc (ZMod p)) VRef) (same : Bool) :
    Outcome (Except SolveError (RunState p)) := do
  let r ← execWitnessOp p fakeGlv (readInput f st same) op
  match r with
  | .error e => return .error e
  | .ok outs => do
      let last ← lastRead f st same op
      let w ← land f outs st.1
      return .ok (w, last)

/-- One item of `run`. -/
def runItem (fakeGlv : FakeGlv) (prog : WProgram p)
    (inner : List (WItem (ZMod p)) → WFrame p → Witness p →
      Outcome (Except SolveError (Witness p)))
    (f : WFrame p) (st : Except SolveError (RunState p)) (it : WItem (ZMod p)) :
    Outcome (Except SolveError (RunState p)) :=
  match st with
  | .error e => .ok (.error e)
  | .ok st =>
    match it with
    | .op op same => runOp fakeGlv f st op same
    | .call d base plugs => do
        let esc ← orPanic prog.escapes[d]?
        let g ← f.call base plugs esc st.1
        let body ← orPanic prog.defs[d]?
        let r ← inner body g st.1
        return r.map fun w => (w, st.2)

/-- `run`, with calls nested less than the bound. -/
def run (fakeGlv : FakeGlv) (prog : WProgram p) :
    ℕ → List (WItem (ZMod p)) → WFrame p → Witness p → Outcome (Except SolveError (Witness p))
  | 0, _, _, _ => .error .outOfFuel
  | n + 1, items, f, w => do
      let r ← items.foldlM (runItem fakeGlv prog (run fakeGlv prog n) f) (.ok (w, none))
      return r.map Prod.fst

end Solve

end XarkCircuit.Eval
