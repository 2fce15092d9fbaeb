import XarkCircuit.Decode.Expand

/-!
A parsed container and the circuit it expands to (`expand_function_blob_inner`).

* `Container` is what the parser of a container hands to the expansion: the header with its
  signature inputs, the templates, the two top streams and the ids that the pruning keeps.
* `Container.keeps` is the pruning rule, `Container.keptVars` the declared variables it leaves, and
  `expandFunction` the full circuit.
-/

namespace XarkCircuit

open Outcome

/-- A circuit: its field, its variables, and the two streams. -/
structure CircuitProgram where
  field : FieldSpec
  vars : List Var
  constraints : List R1csRow
  witnessGen : List (WitnessGen LinearCombination VarId)
deriving DecidableEq, Repr

/-- A parsed container; the first `inputs.length` of its `numVars` variables are the signature
inputs. -/
structure Container where
  field : FieldSpec
  numVars : ℕ
  inputs : List (VarRole × String)
  defs : List GDef
  topC : List CItem
  topW : List WItem
  keepExtra : List VarId
  inputs_le : inputs.length ≤ numVars
deriving DecidableEq, Repr

/-- The variable whose pruning drops an instruction: the first of its outputs. -/
def witnessOut (op : WitnessGen LinearCombination VarId) : VarId := op.outs.head?.getD 0

namespace Container

/-- Is `v` in some form of a row? -/
def referenced (rows : List R1csRow) (v : VarId) : Bool := rows.any fun r => v ∈ r.vars

/-- Pruning keeps the inputs, what a row references and the exceptions. -/
def keeps (c : Container) (rows : List R1csRow) (id : ℕ) : Bool :=
  id < c.inputs.length || referenced rows (Fin.ofNat _ id) || Fin.ofNat _ id ∈ c.keepExtra

/-- A declared variable: a signature input with its role and name, or a derived one. -/
def var (c : Container) (id : ℕ) : Var :=
  match c.inputs[id]? with
  | some (role, name) => ⟨Fin.ofNat _ id, name, role⟩
  | none => ⟨Fin.ofNat _ id, "v" ++ toString id, .derived⟩

/-- The declared variables (`decode_compact`). -/
def vars (c : Container) : List Var := (List.range c.numVars).map c.var

/-- The declared variables that pruning keeps. -/
def keptVars (c : Container) (rows : List R1csRow) : List Var :=
  ((List.range c.numVars).filter (c.keeps rows)).map c.var

end Container

/-- `expand_function_blob_inner` after the parser: both streams expanded, then pruned. -/
def expandFunction (c : Container) (n : ℕ) : Outcome CircuitProgram := do
  let rows ← expandC c.defs n .IDENTITY c.topC
  let ops ← expandW c.defs n .IDENTITY c.topW
  return ⟨c.field, c.keptVars rows, rows, ops.filter fun op => c.keeps rows (witnessOut op)⟩

end XarkCircuit
