import XarkCircuit.Lib.SparseForm
import XarkCircuit.Ir.R1cs
import Mathlib.Algebra.Field.ZMod
import Mathlib.Data.List.Dedup

/-!
The R1CS minimizer (`minimize.rs`): linear-variable elimination by a worklist.

* `Lc` is a form with field coefficients; `Lc.ofIr` and `Lc.toIr` go to and from the program's
  forms. The term map of the source (a `BTreeMap` without zeros) is a `SparseForm`.
* `relation` is the linear relation a row imposes when `a` or `b` is a constant, `substSite` puts
  the replacement of a variable into one row.
* `State` is the state of the worklist loop: the rows (`none` once retired), the append-only
  occurrence index, the queue with its membership flags, and the eliminated variables. `process`
  is the body of the loop, `loop` the loop, `run` the whole pass.
-/

namespace XarkCircuit.Minimize

/-! ### Forms over the field -/

/-- A linear combination in reduced form: a constant and the nonzero coefficients. -/
@[ext] structure Lc (F : Type*) [Zero F] where
  k : F
  t : SparseForm VarId F

section Forms

variable {F : Type*} [Field F] [DecidableEq F]

namespace Lc

/-- `Lc::from_ir`: coefficients reduced into the field, a repeated variable accumulated. -/
def ofIr (lc : LinearCombination) : Lc F where
  k := lc.constant
  t := lc.terms.foldl
    (fun t term => if (term.coeff : F) = 0 then t else t.addAt term.var term.coeff) .empty

/-- No variable terms. -/
def isConst (l : Lc F) : Bool := l.t.entries.isEmpty

/-- Multiply by a field element. -/
def scale (l : Lc F) (mul : F) : Lc F := ⟨l.k * mul, l.t.scale mul⟩

/-- `self - other`. -/
def sub (l other : Lc F) : Lc F := ⟨l.k - other.k, l.t.axpy (-1) other.t⟩

end Lc

/-- The three forms of a row `a · b = c`. -/
structure Row (F : Type*) [Zero F] where
  a : Lc F
  b : Lc F
  c : Lc F

/-- The variables of a row, form by form. -/
def Row.vars (r : Row F) : List VarId := r.a.t.vars ++ r.b.t.vars ++ r.c.t.vars

/-- A row with its forms reduced into the field. -/
def Row.ofIr (r : R1csConstraint) : Row F := ⟨.ofIr r.a, .ofIr r.b, .ofIr r.c⟩

/-- Substitute `v → vlc` into one form; the variables that were not in it before come back too.
`none` if `v` is absent. -/
def substForm (lc : Lc F) (v : VarId) (vlc : Lc F) : Option (Lc F × List VarId) :=
  (lc.t.get? v).map fun m =>
    let t := lc.t.erase v
    (⟨lc.k + m * vlc.k, t.axpy m vlc.t⟩, vlc.t.vars.filter fun u => u ∉ t.vars)

/-- Substitute `v → vlc` into the forms of one row, with the variables each form has anew; `none`
if no form had `v`. -/
def substSite (cj : Row F) (v : VarId) (vlc : Lc F) : Option (Row F × List VarId) :=
  let a := substForm cj.a v vlc
  let b := substForm cj.b v vlc
  let c := substForm cj.c v vlc
  if a.isNone ∧ b.isNone ∧ c.isNone then none
  else some (⟨(a.map Prod.fst).getD cj.a, (b.map Prod.fst).getD cj.b, (c.map Prod.fst).getD cj.c⟩,
    (a.map Prod.snd).getD [] ++ (b.map Prod.snd).getD [] ++ (c.map Prod.snd).getD [])

/-- The form a row forces to zero when `a` or `b` is a bare constant. -/
def relation (r : Row F) : Option (Lc F) :=
  if r.a.isConst then some ((r.b.scale r.a.k).sub r.c)
  else if r.b.isConst then some ((r.a.scale r.b.k).sub r.c)
  else none

/-! ### The worklist -/

/-- The state of the worklist loop. -/
structure State (F : Type*) [Zero F] where
  cons : List (Option (Row F))
  occ : VarId → List ℕ
  queue : List ℕ
  inQueue : ℕ → Bool
  eliminated : List VarId

/-- Row `j`, if it is still alive. -/
def State.row? (st : State F) (j : ℕ) : Option (Row F) := (st.cons[j]?).join

/-- Record that row `j` changed: the index learns its new variables, and the row is queued. -/
def noteChanged (st : State F) (j : ℕ) (newVars : List VarId) : State F :=
  let occ := newVars.foldl (fun occ u => Function.update occ u (occ u ++ [j])) st.occ
  if st.inQueue j then { st with occ := occ }
  else { st with
    occ := occ, queue := st.queue ++ [j], inQueue := Function.update st.inQueue j true }

/-- The distinct rows the index lists for `v`, in increasing order. -/
def sites (st : State F) (v : VarId) : List ℕ := ((st.occ v).insertionSort (· ≤ ·)).dedup

/-- The sites of `v` that held it, each with its new row and the variables new to it. -/
def changedSites (cons : List (Option (Row F))) (sites : List ℕ) (v : VarId) (vlc : Lc F) :
    List (ℕ × Row F × List VarId) :=
  sites.filterMap fun j => (cons[j]?).join.bind fun cj => (substSite cj v vlc).map fun r => (j, r)

/-- Retire row `i`, which defines `v`, and substitute `v → vlc` at every site of `v`. -/
def eliminate (st : State F) (i : ℕ) (v : VarId) (vlc : Lc F) : State F :=
  let cons := st.cons.set i none
  let changed := changedSites cons (sites st v) v vlc
  changed.foldl (fun st c => noteChanged st c.1 c.2.2)
    { st with
      cons := changed.foldl (fun cons c => cons.set c.1 (some c.2.1)) cons
      occ := Function.update st.occ v []
      eliminated := v :: st.eliminated }

/-- The replacement of `v` in the relation `rel`, where its coefficient is `coeff`:
`-(rel without v) / coeff`. -/
def replacement (rel : Lc F) (v : VarId) (coeff : F) : Lc F :=
  Lc.scale ⟨rel.k, rel.t.erase v⟩ (-coeff⁻¹)

/-- The body of the loop, for row `i`. -/
def process (isInternal : VarId → Bool) (fill : ℕ) (st : State F) (i : ℕ) : State F :=
  match st.row? i with
  | none => st
  | some c =>
    match relation c with
    | none => st
    | some rel =>
      -- a row without variables is dropped if it reads `0 = 0` and kept if it cannot hold
      if rel.t.entries = [] then
        if rel.k = 0 then { st with cons := st.cons.set i none } else st
      else
        match rel.t.entries.find? fun e => isInternal e.1 with
        | none => st
        | some (v, coeff) =>
          -- the fill-in guard keeps a variable whose replacement is dense
          if fill < (replacement rel v coeff).t.entries.length then st
          else eliminate st i v (replacement rel v coeff)

/-- `while let Some(i) = queue.pop_front()`, for at most `fuel` rounds. -/
def loop (isInternal : VarId → Bool) (fill : ℕ) : ℕ → State F → State F
  | 0, st => st
  | fuel + 1, st =>
    match st.queue with
    | [] => st
    | i :: queue => loop isInternal fill fuel
        (process isInternal fill
          { st with queue := queue, inQueue := Function.update st.inQueue i false } i)

/-- The rows parsed, all queued, with the index of where each variable occurs. -/
def start (rows : List (Row F)) : State F where
  cons := rows.map some
  -- a variable shared by several forms of a row lists the row several times
  occ v := rows.zipIdx.flatMap fun r =>
    ([r.1.a, r.1.b, r.1.c].filter fun l => v ∈ l.t.vars).map fun _ => r.2
  queue := List.range rows.length
  inQueue j := j < rows.length
  eliminated := []

/-- Rounds enough for the loop on `n` rows (`loop_queue`): each of the at most `n` retired rows
puts at most `n` rows back into the queue. -/
def rounds (n : ℕ) : ℕ := n * (n + 1) + n

end Forms

/-! ### The pass -/

section Program

variable (p : ℕ) [Fact p.Prime]

/-- `Lc::to_ir`: the canonical representatives. -/
def Lc.toIr (l : Lc (ZMod p)) : LinearCombination where
  constant := (l.k.val : ℤ)
  terms := l.t.entries.map fun e => ⟨(e.2.val : ℤ), e.1⟩

/-- A row back in the program's form. -/
def Row.toIr (id : ℕ) (r : Row (ZMod p)) : R1csConstraint where
  id := id
  a := r.a.toIr p
  b := r.b.toIr p
  c := r.c.toIr p
  debug := none

/-- Is `v` declared `Internal`? -/
def isInternal (prog : R1csProgram) (v : VarId) : Bool :=
  prog.vars.any fun w => w.id = v && w.visibility = .internal

/-- The state in which the worklist ends. -/
def final (prog : R1csProgram) (fill : ℕ) : State (ZMod p) :=
  loop (isInternal prog) fill (rounds prog.constraints.length)
    (start (prog.constraints.map Row.ofIr))

/-- The variables the pass eliminates, the last one first. -/
def eliminated (prog : R1csProgram) (fill : ℕ) : List VarId := (final p prog fill).eliminated

/-- The rows that survive. -/
def survivors (prog : R1csProgram) (fill : ℕ) : List (Row (ZMod p)) :=
  (final p prog fill).cons.filterMap id

/-- Is `v` in some form of a surviving row? -/
def referenced (prog : R1csProgram) (fill : ℕ) (v : VarId) : Bool :=
  (survivors p prog fill).any fun r => v ∈ r.vars

/-- `run` over the prime field: the same field, every variable that was not eliminated and is an
input or still referenced, and the surviving rows. -/
def run (prog : R1csProgram) (fill : ℕ) : R1csProgram where
  field := prog.field
  vars := (prog.vars.filter fun w => w.id ∉ eliminated p prog fill).filter fun w =>
    w.visibility ≠ .internal || referenced p prog fill w.id
  constraints := (survivors p prog fill).zipIdx.map fun r => r.1.toIr p r.2

/-- `minimize_with_fill`, where the field's modulus parses to the prime `p`; with no modulus the
program comes back unchanged. -/
def minimizeWithFill (prog : R1csProgram) (fill : ℕ) : R1csProgram :=
  match prog.field.modulus with
  | none => prog
  | some _ => run p prog fill

/-- The fill-in guard of `minimize`. -/
def maxFill : ℕ := 2

/-- `minimize`. -/
def minimize (prog : R1csProgram) : R1csProgram := minimizeWithFill p prog maxFill

end Program

end XarkCircuit.Minimize
