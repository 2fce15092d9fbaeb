import XarkCircuit.Decode.Container
import XarkCircuit.Solve.Hint

/-!
The under-constraint analysis, flat (`solver.rs`) and streaming (`function_decode.rs`).

* `univariateR1cs` fixes all variables of a row but one; `univariateR1csRow` does so for every
  variable of the row at once, from one evaluation of its forms.
* `analyzeUnderconstrainedCp` is the flat analysis: the rows that reference each derived variable
  are scanned, stopping at the first that is linear in it.
* `streamUnderconstrained` is the streaming one: each reference is folded into a flag byte, and only
  the variables that the flags leave open are looked at again. The shards' flags are merged in an
  order that is a parameter.
-/

namespace XarkCircuit

open Outcome

section Analyze

variable {p : ℕ}

/-- The field element that a row's `a·b − c` is, as a polynomial `a·v² + b·v + c` in one variable. -/
structure Univariate (F : Type) where
  a : F
  b : F
  c : F
deriving DecidableEq, Repr

/-- The coefficient of `v` in a form, and the value of the rest. -/
def splitLc (lc : LinearCombination) (v : VarId) (x : VarId → ZMod p) : ZMod p × ZMod p :=
  lc.terms.foldl (fun s t => if t.var = v then (s.1 + t.coeff, s.2)
    else (s.1, s.2 + t.coeff * x t.var)) (0, lc.constant)

/-- `univariate_r1cs`. -/
def univariateR1cs (row : R1csRow) (v : VarId) (x : VarId → ZMod p) : Univariate (ZMod p) :=
  let (av, a0) := splitLc row.a v x
  let (bv, b0) := splitLc row.b v x
  let (cv, c0) := splitLc row.c v x
  ⟨av * bv, av * b0 + a0 * bv - cv, a0 * b0 - c0⟩

/-- The value of a form, term by term. -/
def fullLc (lc : LinearCombination) (x : VarId → ZMod p) : ZMod p :=
  lc.terms.foldl (fun acc t => acc + t.coeff * x t.var) lc.constant

/-- What the terms of `v` add up to. -/
def ownLc (lc : LinearCombination) (v : VarId) : ZMod p :=
  lc.terms.foldl (fun own t => if t.var = v then own + t.coeff else own) 0

/-- The distinct variables of a row, in ascending order. -/
def R1csRow.distinctVars (row : R1csRow) : List VarId := (row.vars.insertionSort (· ≤ ·)).dedup

/-- `univariate_r1cs_row`. -/
def univariateR1csRow (row : R1csRow) (x : VarId → ZMod p) : List (VarId × Univariate (ZMod p)) :=
  row.distinctVars.map fun v =>
    let av := ownLc row.a v
    let bv := ownLc row.b v
    let cv := ownLc row.c v
    let a0 := fullLc row.a x - av * x v
    let b0 := fullLc row.b x - bv * x v
    let c0 := fullLc row.c x - cv * x v
    (v, ⟨av * bv, av * b0 + a0 * bv - cv, a0 * b0 - c0⟩)

/-- A derived variable that the rows may not pin. -/
structure UnderConstrained where
  var : VarId
  name : String
  reason : String
deriving DecidableEq, Repr

/-- The reasons for which a variable is listed. -/
inductive Reason
  | unreferenced
  | free
  | twoValued
deriving DecidableEq, Repr

/-- The text of a reason. -/
def Reason.text : Reason → String
  | .unreferenced => "no constraint references this variable"
  | .free => "variable's coefficient is zero in every referencing constraint (free)"
  | .twoValued => "a different value also satisfies all its constraints (two-valued)"

/-- A variable, listed for a reason. -/
def Var.listed (var : Var) (r : Reason) : UnderConstrained := ⟨var.id, var.name, r.text⟩

/-! ### The flat analysis -/

section Flat

variable [Fact p.Prime]

/-- The second root of a row that is quadratic in the variable, `α` being the first. -/
def secondRoot (u : Univariate (ZMod p)) (α : ZMod p) : ZMod p := -u.b * u.a⁻¹ - α

/-- The root test: all rows vanish at `β`. -/
def vanishes (us : List (Univariate (ZMod p))) (β : ZMod p) : Bool :=
  us.all fun u => u.a * β * β + u.b * β + u.c = 0

/-- The loop over the rows of a variable: `none` once a row is linear in it, else whether a row
restricts it, and the second roots. -/
def scanRows (α : ZMod p) : List (Univariate (ZMod p)) → Bool → List (ZMod p) →
    Option (Bool × List (ZMod p))
  | [], restricted, candidates => some (restricted, candidates)
  | u :: us, restricted, candidates =>
      if u.a = 0 ∧ u.b = 0 then scanRows α us restricted candidates
      else if u.a = 0 then none
      else scanRows α us true (candidates ++ [secondRoot u α])

/-- `check_one_var_cp`; the rows come with the reference index already applied. -/
def checkOneVarCp (var : Var) (rows : List R1csRow) (x : VarId → ZMod p) :
    Option UnderConstrained :=
  let cons := rows.filter fun r => var.id ∈ r.vars
  if cons.isEmpty then some (var.listed .unreferenced)
  else
    let us := cons.map fun r => univariateR1cs r var.id x
    match scanRows (x var.id) us false [] with
    | none => none
    | some (restricted, candidates) =>
      if !restricted then some (var.listed .free)
      else if candidates.any fun β => β ≠ x var.id && vanishes us β then
        some (var.listed .twoValued)
      else none

/-- The assignment of a map; what it does not assign reads as zero. -/
def readMap (assign : VarId → Option (ZMod p)) (v : VarId) : ZMod p := (assign v).getD 0

/-- `analyze_underconstrained_cp`. -/
def analyzeUnderconstrainedCp (program : CircuitProgram) (assign : VarId → Option (ZMod p)) :
    List UnderConstrained :=
  (program.vars.filter fun var => var.role = .derived).filterMap fun var =>
    checkOneVarCp var program.constraints (readMap assign)

end Flat

/-! ### The streaming analysis -/

/-- Some row references the variable. -/
def F_SEEN : BitVec 8 := 1

/-- Some row restricts it. -/
def F_RESTRICTED : BitVec 8 := 2

/-- Some row is linear in it. -/
def F_PINNED : BitVec 8 := 4

/-- The bits that one reference adds. -/
def referenceBits (u : Univariate (ZMod p)) : BitVec 8 :=
  F_SEEN ||| if u.a = 0 ∧ u.b = 0 then 0
    else F_RESTRICTED ||| if u.a = 0 then F_PINNED else 0

/-- The flags that `apply_row_flags` ORs in for a row. -/
def rowFlags (x : VarId → ZMod p) (row : R1csRow) : List (VarId × BitVec 8) :=
  (univariateR1csRow row x).map fun u => (u.1, referenceBits u.2)

/-- `fetch_or` on the flag byte of a variable; there is one for each declared variable. -/
def fetchOr (flags : List (BitVec 8)) (e : VarId × BitVec 8) : Outcome (List (BitVec 8)) := do
  let f ← orPanic flags[e.1.val]?
  return flags.set e.1.val (f ||| e.2)

/-- `row_satisfied`. -/
def rowSatisfied (x : VarId → ZMod p) (row : R1csRow) : Bool :=
  row.a.eval x * row.b.eval x = row.c.eval x

/-- The shard of one top item: whether its rows hold, and the flags it ORs in. -/
def classifyItem (defs : List GDef) (n : ℕ) (x : VarId → ZMod p) (checkSat : Bool) (it : CItem) :
    Outcome (Bool × List (VarId × BitVec 8)) := do
  let rows ← expandCVisit defs n .IDENTITY [it]
  return (rows.foldl (fun ok row => ok && (!checkSat || rowSatisfied x row)) true,
    rows.flatMap (rowFlags x))

/-- `classify_and_check`; `merge` is the order in which the shards' flags arrive. -/
def classifyAndCheck (defs : List GDef) (n : ℕ) (top : List CItem) (x : VarId → ZMod p)
    (numVars : ℕ) (checkSat : Bool)
    (merge : List (List (VarId × BitVec 8)) → List (VarId × BitVec 8)) :
    Outcome (List (BitVec 8) × Bool) := do
  let shards ← top.mapM (classifyItem defs n x checkSat)
  let flags ← (merge (shards.map Prod.snd)).foldlM fetchOr (List.replicate numVars 0)
  return (flags, shards.all Prod.fst)

/-- Is the bit set? -/
def hasFlag (f bit : BitVec 8) : Bool := f &&& bit ≠ 0

/-- `select_suspects`: seen and restricted, but never pinned. -/
def selectSuspects (flags : List (BitVec 8)) (vars : List Var) : Outcome (List VarId) :=
  concatM (fun var => do
    if var.role = .derived then
      let f ← orPanic flags[var.id.val]?
      return if hasFlag f F_SEEN && hasFlag f F_RESTRICTED && !hasFlag f F_PINNED then [var.id]
        else []
    else return []) vars

/-- The reductions that the second pass gathers for a suspect. -/
def gathered (rows : List R1csRow) (x : VarId → ZMod p) (suspects : List VarId) (v : VarId) :
    List (Univariate (ZMod p)) :=
  rows.flatMap fun row =>
    if row.vars.any fun u => u ∈ suspects then
      ((univariateR1csRow row x).filter fun u => u.1 = v).map Prod.snd
    else []

section Stream

variable [Fact p.Prime]

/-- `two_valued_from_polys`, for one suspect. -/
def twoValued (us : List (Univariate (ZMod p))) (α : ZMod p) : Bool :=
  let candidates := us.filterMap fun u => if u.a = 0 then none else some (secondRoot u α)
  candidates.any fun β => β ≠ α && vanishes us β

/-- `two_valued_suspects`. -/
def twoValuedSuspects (defs : List GDef) (n : ℕ) (top : List CItem) (x : VarId → ZMod p)
    (suspects : List VarId) : Outcome (List VarId) := do
  let rows ← expandCVisit defs n .IDENTITY top
  return suspects.filter fun v => twoValued (gathered rows x suspects v) (x v)

/-- The verdict of `assemble_underconstrained` on one derived variable with flags `f`. -/
def streamVerdict (keepExtra twoValued : List VarId) (var : Var) (f : BitVec 8) :
    Option UnderConstrained :=
  if !hasFlag f F_SEEN then
    if var.id ∈ keepExtra then some (var.listed .unreferenced) else none
  else if hasFlag f F_PINNED then none
  else if !hasFlag f F_RESTRICTED then some (var.listed .free)
  else if var.id ∈ twoValued then some (var.listed .twoValued)
  else none

/-- `assemble_underconstrained`. -/
def assembleUnderconstrained (flags : List (BitVec 8)) (vars : List Var)
    (keepExtra twoValued : List VarId) : Outcome (List UnderConstrained) :=
  concatM (fun var => do
    if var.role = .derived then
      let f ← orPanic flags[var.id.val]?
      return (streamVerdict keepExtra twoValued var f).toList
    else return []) vars

/-- The second pass, skipped when there is no suspect. -/
def secondPass (defs : List GDef) (n : ℕ) (top : List CItem) (x : VarId → ZMod p)
    (suspects : List VarId) : Outcome (List VarId) :=
  if suspects.isEmpty then .ok [] else twoValuedSuspects defs n top x suspects

/-- `stream_underconstrained`. -/
def streamUnderconstrained (c : Container) (n : ℕ) (assign : DenseAssign p) (checkSat : Bool)
    (merge : List (List (VarId × BitVec 8)) → List (VarId × BitVec 8)) :
    Outcome (Bool × List UnderConstrained) := do
  let x := assign.read
  let r ← classifyAndCheck c.defs n c.topC x c.vars.length checkSat merge
  let suspects ← selectSuspects r.1 c.vars
  let twoValued ← secondPass c.defs n c.topC x suspects
  let out ← assembleUnderconstrained r.1 c.vars c.keepExtra twoValued
  return (r.2, out)

end Stream

end Analyze

end XarkCircuit
