import XarkCircuit.Lib.Outcome
import XarkCircuit.Lib.Window
import Mathlib.Data.List.FinRange

/-!
The state of the exhaustive witness search and its elementary moves (`witness_search.rs`).

* `Facts` is what the search knows: a domain for each variable, and for some an affine alias of
  another one. `State` adds the trail that undoes it and the queue of rows to look at again.
* `setDom`, `touch`, `resolve`, `assign` and `narrow` are the moves. Those the source writes as
  `Result<(), Conflict>` return the state together with a `Bool` that is false on a conflict.
* `undo` takes the trail back to a mark.
* Variables are the dense indices `Fin n` and rows `Fin m`. A recursion along aliases is bounded by
  `fuel`.
-/

namespace XarkCircuit.Search

/-- What is known of a variable. -/
inductive Dom (p : ℕ)
  | val (x : ZMod p)
  /-- The residues of `lo, …, hi`, fewer than `p` integers apart. -/
  | range (lo hi : ℤ)
  | free
deriving DecidableEq

/-- What one move changed. -/
inductive Trail (p n : ℕ)
  | dom (v : Fin n) (old : Dom p)
  /-- `v` was aliased to `rep`. -/
  | aliased (v rep : Fin n)

/-- A variable resolved through its aliases: a value, or `a · rep + b`. -/
inductive Resolved (p n : ℕ)
  | known (x : ZMod p)
  | lin (rep : Fin n) (a b : ZMod p)
deriving DecidableEq

/-- A constraint over the dense indices, its coefficients in the field. -/
structure Row (p n : ℕ) where
  konst : ZMod p
  /-- `c · left · right`. -/
  muls : List (ZMod p × Fin n × Fin n)
  /-- `c · var`. -/
  lins : List (ZMod p × Fin n)

namespace Row

variable {p n : ℕ}

/-- The value of a row. -/
def eval (row : Row p n) (x : Fin n → ZMod p) : ZMod p :=
  row.konst + (row.muls.map fun t => t.1 * x t.2.1 * x t.2.2).sum
    + (row.lins.map fun t => t.1 * x t.2).sum

/-- The variables of a row. -/
def vars (row : Row p n) : List (Fin n) :=
  (row.muls.flatMap fun t => [t.2.1, t.2.2]) ++ row.lins.map Prod.snd

end Row

/-- What the search knows of the variables. -/
structure Facts (p n : ℕ) where
  dom : Fin n → Dom p
  /-- `v = a · u + b` for an unknown `u`. -/
  aliasOf : Fin n → Option (Fin n × ZMod p × ZMod p)
  /-- The variables aliased to each variable. -/
  deps : Fin n → List (Fin n)

/-- The facts, how to take them back (the latest change first), and the rows to look at again (the
next one first). -/
structure State (p n m : ℕ) extends Facts p n where
  trail : List (Trail p n)
  queue : List (Fin m)
  queued : Fin m → Bool

variable {p n m : ℕ}

/-! ### Moves -/

section Moves

variable (rows : Fin m → Row p n)

/-- The rows over each variable. -/
def varCons (v : Fin n) : List (Fin m) := (List.finRange m).filter fun ci => v ∈ (rows ci).vars

/-- Queue a row, unless it is. -/
def enqueue (st : State p n m) (ci : Fin m) : State p n m :=
  if st.queued ci then st
  else { st with queued := Function.update st.queued ci true, queue := ci :: st.queue }

/-- Queue the rows over `v` and over everything aliased to it. -/
def touch : ℕ → State p n m → Fin n → Outcome (State p n m)
  | 0, _, _ => .error .outOfFuel
  | fuel + 1, st, v => (st.deps v).foldlM (touch fuel) ((varCons rows v).foldl enqueue st)

/-- Give `v` the domain `d`; a value is passed on to the variables aliased to `v`. -/
def setDom : ℕ → State p n m → Fin n → Dom p → Outcome (State p n m)
  | 0, _, _, _ => .error .outOfFuel
  | fuel + 1, st, v, d => do
      let st := { st with
        dom := Function.update st.dom v d
        trail := .dom v (st.dom v) :: st.trail }
      let st ← touch rows fuel st v
      match d with
      | .val x =>
        (st.deps v).foldlM (fun st d => do
          let (_, a, b) ← Outcome.orPanic (st.aliasOf d)
          match st.dom d with
          | .free => setDom fuel st d (.val (a * x + b))
          | _ => return st) st
      | _ => return st

/-- `v = a · u + b` from here on. -/
def setAlias (fuel : ℕ) (st : State p n m) (v u : Fin n) (a b : ZMod p) : Outcome (State p n m) :=
  touch rows fuel { st with
    aliasOf := Function.update st.aliasOf v (some (u, a, b))
    deps := Function.update st.deps u (st.deps u ++ [v])
    trail := .aliased v u :: st.trail } v

/-- Give `v` the value `x`. -/
def assign (fuel : ℕ) (st : State p n m) (v : Fin n) (x : ZMod p) :
    Outcome (State p n m × Bool) :=
  match st.dom v with
  | .val y => return (st, y = x)
  | .range lo hi =>
      if contains p lo hi x then (·, true) <$> setDom rows fuel st v (.val x)
      else return (st, false)
  | .free => (·, true) <$> setDom rows fuel st v (.val x)

/-- The integer `z` in the field. -/
def fp (p : ℕ) (z : ℤ) : ZMod p := (wrap p z : ℤ)

/-- The end of `narrow`: `v` is one of `lo, …, hi`. -/
def setRange (fuel : ℕ) (st : State p n m) (v : Fin n) (lo hi : ℤ) :
    Outcome (State p n m × Bool) :=
  if hi < lo then return (st, false)
  else if lo = hi then (·, true) <$> setDom rows fuel st v (.val (fp p lo))
  else (·, true) <$> setDom rows fuel st v (.range lo hi)

/-- Narrow `v` to the integers `lo, …, hi`, an interval narrower than `p`. -/
def narrow (fuel : ℕ) (st : State p n m) (v : Fin n) (lo hi : ℤ) : Outcome (State p n m × Bool) :=
  match st.dom v with
  | .val x => return (st, contains p lo hi x)
  | .range a b =>
      match meet p a b lo hi with
      -- two disjoint pieces: the wider domain stays
      | .pieces => return (st, true)
      | .apart => return (st, false)
      | .one l h => if l = a ∧ h = b then return (st, true) else setRange rows fuel st v l h
  | .free => setRange rows fuel st v lo hi

end Moves

/-! ### Resolving -/

/-- The loop of `resolve`: the variable asked for is `a · u + b`. -/
def resolveLoop (f : Facts p n) : ℕ → ZMod p → ZMod p → Fin n → Outcome (Resolved p n)
  | 0, _, _, _ => .error .outOfFuel
  | fuel + 1, a, b, u =>
      match f.dom u with
      | .val x => return .known (a * x + b)
      | _ =>
        match f.aliasOf u with
        | some (w, a2, b2) => resolveLoop f fuel (a * a2) (a * b2 + b) w
        | none => return .lin u a b

/-- `v` in terms of an unknown that has no alias, or its value. -/
def resolve (f : Facts p n) (fuel : ℕ) (v : Fin n) : Outcome (Resolved p n) :=
  match f.aliasOf v with
  | none =>
    match f.dom v with
    | .val x => return .known x
    | _ => return .lin v 1 0
  | some _ => resolveLoop f fuel 1 0 v

/-! ### Undoing -/

/-- Take back one change. -/
def Trail.undo (f : Facts p n) : Trail p n → Facts p n
  | .dom v d => { f with dom := Function.update f.dom v d }
  | .aliased v u =>
      { f with
        aliasOf := Function.update f.aliasOf v none
        deps := Function.update f.deps u (f.deps u).dropLast }

/-- Take back the latest changes until `mark` of them are left. -/
def rewind (mark : ℕ) (f : Facts p n) : List (Trail p n) → Facts p n × List (Trail p n)
  | [] => (f, [])
  | e :: trail =>
      if mark < (e :: trail).length then rewind mark (e.undo f) trail else (f, e :: trail)

/-- Take back the latest changes until `mark` of them are left, and empty the queue. -/
def undo (st : State p n m) (mark : ℕ) : State p n m :=
  let (f, trail) := rewind mark st.toFacts st.trail
  { f with
    trail := trail
    queue := []
    queued := fun ci => if ci ∈ st.queue then false else st.queued ci }

end XarkCircuit.Search
