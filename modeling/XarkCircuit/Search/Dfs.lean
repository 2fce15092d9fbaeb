import XarkCircuit.Search.Process
import XarkCircuit.Solve.Input

/-!
The exhaustive witness search (`propagate`, `dfs`, `search_witnesses`, `search_projection`).

* `propagate` runs the queued rows; `dfs` propagates, splits the narrowest window or samples an
  unbounded variable, and records what it finds in a `Tally`.
* `Indexed.new` gives the referenced variables dense indices and fixes the inputs.
* `searchWitnesses` and `searchProjection` run the search and judge what it found.
-/

namespace XarkCircuit.Search

variable {p n m : ℕ}

/-! ### The search -/

/-- Assignments found, and the values of the projected variables seen. -/
structure Found (p : ℕ) where
  found : List (List (ZMod p))
  projFound : List (List (ZMod p))

/-- What the search records. -/
structure Tally (p : ℕ) extends Found p where
  nodes : ℕ
  stuck : Option String
  /-- Set when some branch tried only sample values. -/
  incomplete : Option String

/-- Two witnesses (or two projections) were found, or the search gave up. -/
def Tally.done (t : Tally p) : Bool :=
  2 ≤ t.found.length || 2 ≤ t.projFound.length || t.stuck.isSome

/-- Record an assignment, or its projection when it differs from the first one. -/
def record (project : Option (List (Fin n))) (t : Found p) (vals : List (ZMod p)) :
    Outcome (Found p) :=
  match project with
  | some proj => do
      let pv ← proj.mapM fun i => Outcome.orPanic vals[i.val]?
      if t.projFound.head? ≠ some pv then return { t with projFound := t.projFound ++ [pv] }
      else return t
  | none => return { t with found := t.found ++ [vals] }

/-- The narrowest window and the last unbounded variable without alias. -/
def pickStep (f : Facts p n) (acc : Option (Fin n × ℤ) × Option (Fin n)) (v : Fin n) :
    Option (Fin n × ℤ) × Option (Fin n) :=
  match f.dom v with
  | .range lo hi => (if acc.1.all fun pw => hi - lo < pw.2 then some (v, hi - lo) else acc.1, acc.2)
  | .free => if (f.aliasOf v).isNone then (acc.1, some v) else acc
  | .val _ => acc

/-- What to split, and what to sample. -/
def pick (f : Facts p n) : Option (Fin n × ℤ) × Option (Fin n) :=
  (List.finRange n).foldl (pickStep f) (none, none)

section Rows

variable (rows : Fin m → Row p n)

/-- Run the queued rows until a conflict or until none is left. -/
def propagate : ℕ → State p n m → Outcome (State p n m × Bool)
  | 0, _ => .error .outOfFuel
  | fuel + 1, st =>
      match st.queue with
      | [] => .ok (st, true)
      | ci :: queue => do
          let st := { st with queue := queue, queued := Function.update st.queued ci false }
          let (st, ok) ← process rows fuel st ci
          if ok then propagate fuel st else .ok (st, false)

/-- Search below a window of `v`, and take it back. -/
def branch (fuel : ℕ) (dfs : State p n m → Tally p → Outcome (State p n m × Tally p))
    (v : Fin n) (a b : ℤ) (st : State p n m) (t : Tally p) : Outcome (State p n m × Tally p) := do
  let mark := st.trail.length
  let (st, ok) ← narrow rows fuel st v a b
  if ok then do
    let (st, t) ← dfs st t
    return (undo st mark, t)
  else return (undo st mark, t)

/-- Search below each of the windows of `v` in turn, until the search is done. -/
def branches (fuel : ℕ) (dfs : State p n m → Tally p → Outcome (State p n m × Tally p))
    (v : Fin n) : List (ℤ × ℤ) → State p n m → Tally p → Outcome (State p n m × Tally p)
  | [], st, t => .ok (st, t)
  | (a, b) :: windows, st, t => do
      let (st, t) ← branch rows fuel dfs v a b st t
      if t.done then return (st, t) else branches fuel dfs v windows st t

variable (budget : ℕ) (project : Option (List (Fin n))) (name : Fin n → String)

/-- Depth-first search. -/
def dfs : ℕ → State p n m → Tally p → Outcome (State p n m × Tally p)
  | 0, _, _ => .error .outOfFuel
  | fuel + 1, st, t =>
      if t.done then .ok (st, t)
      else
        let t := { t with nodes := t.nodes + 1 }
        if budget < t.nodes then
          .ok (st, { t with stuck := some s!"node budget ({budget}) exhausted" })
        else do
          let (st, ok) ← propagate rows fuel st
          if ¬ ok then .ok (st, t)
          else
            match pick st.toFacts with
            | (some (v, _), _) =>
              match st.dom v with
              | .range lo hi =>
                  let mid := floorDiv (lo + hi) 2
                  branches rows fuel (dfs fuel) v [(lo, mid), (mid + 1, hi)] st t
              | _ => .error .panic
            | (none, some v) =>
                -- two solutions prove the circuit two-valued, anything less nothing
                let t := { t with
                  incomplete := some ("no finite domain for `" ++ name v ++ "`") }
                branches rows fuel (dfs fuel) v [(0, 0), (1, 1)] st t
            | (none, none) => do
                let vals ← (List.finRange n).mapM fun v => do
                  match ← resolve st.toFacts fuel v with
                  | .known x => return x
                  | .lin _ _ _ => .error .panic
                let found ← record project t.toFound vals
                return (st, { t with toFound := found })

end Rows

/-! ### Indexing -/

/-- `BTreeMap<VarId, String>`. -/
structure Inputs where
  entries : List (VarId × String)
  sorted : entries.Pairwise fun e e' => e.1 < e'.1

/-- The value given for `v`. -/
def Inputs.get (inputs : Inputs) (v : VarId) : Option String :=
  (inputs.entries.find? fun e => e.1 = v).map Prod.snd

/-- `modulus_of`. -/
def modulusOf (program : PrimitiveProgram) : Except SolveError ℕ :=
  match parseBigUint program.field.modulusDecimal with
  | none => .error .malformedModulus
  | some q => if q < 2 then .error .malformedModulus else .ok q

/-- The referenced variables, in the order in which the constraints mention them first. -/
def referenced (program : PrimitiveProgram) : List VarId :=
  (program.constraints.flatMap Expression.vars).foldl
    (fun ids v => if v ∈ ids then ids else ids ++ [v]) []

/-- The dense index of a referenced variable. -/
def indexOf (ids : List VarId) (v : VarId) : Option (Fin ids.length) :=
  if h : v ∈ ids then some ⟨ids.idxOf v, List.idxOf_lt_length_of_mem h⟩ else none

/-- The name of the first variable declared with the id, or nothing. -/
def nameOf (program : PrimitiveProgram) (v : VarId) : String :=
  ((program.vars.find? fun var => var.id = v).map Var.name).getD ""

/-- The program and the inputs over dense indices. -/
structure Indexed (p : ℕ) where
  ids : List VarId
  dom : Fin ids.length → Dom p
  rows : List (Row p ids.length)

/-- Every given value must name an input. -/
def checkGiven (program : PrimitiveProgram) : List (VarId × String) → Option String
  | [] => none
  | (id, _) :: inputs =>
      match program.vars.find? fun var => var.id = id with
      | none => some s!"no variable with id {id.val}"
      | some var =>
          if var.role = .derived then some ("`" ++ var.name ++ "` is not an input")
          else checkGiven program inputs

/-- Fix a declared input, if it is referenced; one that is not given is left free, or is
refused. -/
def fixInput (p : ℕ) (ids : List VarId) (inputs : Inputs) (allowFree : Bool)
    (dom : Fin ids.length → Dom p) (var : Var) : Except String (Fin ids.length → Dom p) :=
  if var.role = .derived then .ok dom
  else
    match inputs.get var.id with
    | none => if allowFree then .ok dom else .error ("input `" ++ var.name ++ "` not given")
    | some value =>
        match indexOf ids var.id with
        | some i => .ok (Function.update dom i (.val (fromDecimal p value)))
        | none => .ok dom

/-- Fix the declared inputs. -/
def fixInputs (p : ℕ) (ids : List VarId) (inputs : Inputs) (allowFree : Bool) (vars : List Var) :
    Except String (Fin ids.length → Dom p) :=
  vars.foldlM (fixInput p ids inputs allowFree) fun _ => .free

/-- A constraint with its coefficients reduced into the field. -/
def rowOf (p : ℕ) (ids : List VarId) (e : Expression) : Outcome (Row p ids.length) := do
  let muls ← e.mulTerms.mapM fun t => do
    let left ← Outcome.orPanic (indexOf ids t.left)
    let right ← Outcome.orPanic (indexOf ids t.right)
    return ((t.coeff : ZMod p), left, right)
  let lins ← e.linearTerms.mapM fun t => do
    let var ← Outcome.orPanic (indexOf ids t.var)
    return ((t.coeff : ZMod p), var)
  return ⟨(e.constant : ZMod p), muls, lins⟩

/-- Index the program and fix the inputs, or say why not. -/
def Indexed.new (p : ℕ) (program : PrimitiveProgram) (inputs : Inputs) (allowFree : Bool) :
    Outcome (Except String (Indexed p)) :=
  let ids := referenced program
  match checkGiven program inputs.entries with
  | some why => return .error why
  | none =>
    match fixInputs p ids inputs allowFree program.vars with
    | .error why => return .error why
    | .ok dom => do
        let rows ← program.constraints.mapM (rowOf p ids)
        return .ok ⟨ids, dom, rows⟩

namespace Indexed

variable (ix : Indexed p)

/-- The row of each index. -/
def row (ci : Fin ix.rows.length) : Row p ix.ids.length := ix.rows.get ci

/-- Every row is queued, and nothing is known but the inputs. -/
def start : State p ix.ids.length ix.rows.length where
  dom := ix.dom
  aliasOf := fun _ => none
  deps := fun _ => []
  trail := []
  queue := List.finRange ix.rows.length
  queued := fun _ => true

/-- The whole search. -/
def run (fuel budget : ℕ) (project : Option (List (Fin ix.ids.length)))
    (name : VarId → String) : Outcome (Tally p) := do
  let (_, t) ← dfs ix.row budget project (fun v => name (ix.ids.get v)) fuel ix.start
    ⟨⟨[], []⟩, 0, none, none⟩
  return t

end Indexed

/-! ### Verdicts -/

/-- The outcome of `search_witnesses`. -/
inductive WitnessSearch (p : ℕ)
  /-- No assignment satisfies the constraints. -/
  | none
  /-- Exactly one assignment of the referenced variables satisfies them. -/
  | unique (w : List (VarId × ZMod p))
  /-- Two satisfying assignments differ at `var`. -/
  | multiple (var : VarId) (name : String)
  | inconclusive (why : String)
deriving DecidableEq

/-- The outcome of `search_projection`. -/
inductive Projection (p : ℕ)
  | none
  /-- Every satisfying assignment gives the projected variables these values. -/
  | one (vals : List (ZMod p))
  | many (a b : List (ZMod p))
  | inconclusive (why : String)
deriving DecidableEq

/-- The first place where two assignments differ. -/
def firstDifference (a b : List (ZMod p)) : ℕ :=
  ((List.range a.length).find? fun i => a[i]? ≠ b[i]?).getD 0

/-- `search_witnesses`, once the modulus is known. -/
def witnesses (p fuel : ℕ) (program : PrimitiveProgram) (inputs : Inputs) (budget : ℕ) :
    Outcome (WitnessSearch p) := do
  match ← Indexed.new p program inputs false with
  | .error why => return .inconclusive why
  | .ok ix =>
    let t ← ix.run fuel budget none (nameOf program)
    match t.found with
    | a :: b :: _ =>
        let var ← Outcome.orPanic ix.ids[firstDifference a b]?
        return .multiple var (nameOf program var)
    | found =>
      match t.stuck <|> t.incomplete, found with
      | some why, _ => return .inconclusive why
      | none, [] => return .none
      | none, vals :: _ => return .unique (ix.ids.zip vals)

/-- The indices of the projected variables, or the first one that no constraint mentions. -/
def projectIndices (ids : List VarId) : List VarId → Except VarId (List (Fin ids.length))
  | [] => .ok []
  | v :: vs =>
      match indexOf ids v with
      | none => .error v
      | some i => (i :: ·) <$> projectIndices ids vs

/-- `search_projection`, once the modulus is known. -/
def projections (p fuel : ℕ) (program : PrimitiveProgram) (fixed : Inputs)
    (project : List VarId) (budget : ℕ) : Outcome (Projection p) := do
  match ← Indexed.new p program fixed true with
  | .error why => return .inconclusive why
  | .ok ix =>
    match projectIndices ix.ids project with
    | .error v => return .inconclusive s!"projected var {v.val} is in no constraint"
    | .ok proj =>
      let t ← ix.run fuel budget (some proj) (nameOf program)
      match t.projFound.reverse with
      | b :: a :: _ => return .many a b
      | seen =>
        match t.stuck <|> t.incomplete, seen with
        | some why, _ => return .inconclusive why
        | none, [] => return .none
        | none, vals :: _ => return .one vals

/-- `search_witnesses`. -/
def searchWitnesses (fuel : ℕ) (program : PrimitiveProgram) (inputs : Inputs) (budget : ℕ) :
    Outcome (Except SolveError (Σ p, WitnessSearch p)) :=
  match modulusOf program with
  | .error e => return .error e
  | .ok p => (fun w => .ok ⟨p, w⟩) <$> witnesses p fuel program inputs budget

/-- `search_projection`. -/
def searchProjection (fuel : ℕ) (program : PrimitiveProgram) (fixed : Inputs)
    (project : List VarId) (budget : ℕ) : Outcome (Except SolveError (Σ p, Projection p)) :=
  match modulusOf program with
  | .error e => return .error e
  | .ok p => (fun w => .ok ⟨p, w⟩) <$> projections p fuel program fixed project budget

end XarkCircuit.Search
