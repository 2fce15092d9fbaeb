import XarkCircuit.Ir.LinearCombination
import Mathlib.Data.Fin.VecNotation
import Mathlib.Data.Nat.Prime.Defs

/-!
R1CS rows and programs (`circuit.rs`, `r1cs.rs`).

* `R1csRow` is the bytecode's row `a · b = c`; `R1csConstraint` is the same with an id and debug
  text, as `R1csProgram` holds it.
* `R1csRow.Sat x` is the meaning of a row under an assignment, `R1csProgram.Sat` of all rows.
* `FieldSpec.modulus` is the modulus a field's decimal text parses to.
-/

namespace XarkCircuit

/-- One rank-1 constraint `a · b = c` of the bytecode. -/
structure R1csRow where
  a : LinearCombination
  b : LinearCombination
  c : LinearCombination
  note : Option String
deriving DecidableEq, Repr

/-- The role of a variable in an `R1csProgram`. -/
inductive Visibility where
  | «private» | «public» | internal
deriving DecidableEq, Repr

/-- A declared variable. -/
structure Variable where
  id : VarId
  name : String
  visibility : Visibility
deriving DecidableEq, Repr

/-- Debug text of a constraint. -/
structure DebugInfo where
  sourceSpan : Option String
  note : Option String
deriving DecidableEq, Repr

/-- A constraint `a · b = c` of an `R1csProgram`. -/
structure R1csConstraint where
  id : ℕ
  a : LinearCombination
  b : LinearCombination
  c : LinearCombination
  debug : Option DebugInfo
deriving DecidableEq, Repr

/-- A field, by name and (when known) modulus in decimal. -/
structure FieldSpec where
  name : String
  modulusDecimal : Option String
deriving DecidableEq, Repr

/-- A constraint system over a field. -/
structure R1csProgram where
  field : FieldSpec
  /-- The declared variables. -/
  vars : List Variable
  constraints : List R1csConstraint
deriving DecidableEq, Repr

/-! ### The modulus -/

/-- One character of a decimal number: a digit goes into the sum, an underscore is skipped. -/
def decimalStep (acc : Option ℕ) (ch : Char) : Option ℕ :=
  acc.bind fun n => if ch = '_' then some n else
    if ch.isDigit then some (10 * n + (ch.toNat - '0'.toNat)) else none

/-- The text without one leading `+`, unless another `+` follows. -/
def stripPlus : List Char → List Char
  | '+' :: '+' :: cs => '+' :: '+' :: cs
  | '+' :: cs => cs
  | cs => cs

/-- `BigUint::from_str_radix(s, 10)`: an optional `+`, then at least one digit, with underscores
allowed after the first. -/
def parseBigUint (s : String) : Option ℕ :=
  match stripPlus s.toList with
  | [] => none
  | '_' :: _ => none
  | cs => cs.foldl decimalStep (some 0)

example : parseBigUint "21" = some 21 := by decide

namespace FieldSpec

/-- The modulus the field's text parses to. -/
def modulus (f : FieldSpec) : Option ℕ := f.modulusDecimal.bind parseBigUint

end FieldSpec

/-- The field of seven elements carries the small circuits that illustrate the results. -/
instance fact_prime_seven : Fact (Nat.Prime 7) := ⟨by decide⟩

/-! ### Satisfaction -/

namespace R1csRow

variable {R : Type*} [CommRing R]

/-- The row holds under `x`. -/
def Sat (x : VarId → R) (r : R1csRow) : Prop := r.a.eval x * r.b.eval x = r.c.eval x

/-- The form of a row in matrix `m`: `0` for `a`, `1` for `b`, `2` for `c`. -/
def form (r : R1csRow) : Fin 3 → LinearCombination := ![r.a, r.b, r.c]

/-- The variables of a row, form by form. -/
def vars (r : R1csRow) : List VarId := r.a.vars ++ r.b.vars ++ r.c.vars

lemma mem_vars {r : R1csRow} {v : VarId} :
    v ∈ r.vars ↔ v ∈ r.a.vars ∨ v ∈ r.b.vars ∨ v ∈ r.c.vars := by
  rw [vars, List.mem_append, List.mem_append, or_assoc]

/-- Whether a row holds depends on its variables only. -/
lemma sat_congr (r : R1csRow) {x y : VarId → R} (h : ∀ v ∈ r.vars, x v = y v) :
    r.Sat x ↔ r.Sat y := by
  rw [Sat, Sat, r.a.eval_congr fun v hv => h v (mem_vars.mpr (.inl hv)),
    r.b.eval_congr fun v hv => h v (mem_vars.mpr (.inr (.inl hv))),
    r.c.eval_congr fun v hv => h v (mem_vars.mpr (.inr (.inr hv)))]

instance [DecidableEq R] (x : VarId → R) (r : R1csRow) : Decidable (r.Sat x) :=
  inferInstanceAs (Decidable (r.a.eval x * r.b.eval x = r.c.eval x))

end R1csRow

namespace R1csConstraint

/-- The row of a constraint, without its id and debug text. -/
def row (k : R1csConstraint) : R1csRow := ⟨k.a, k.b, k.c, none⟩

end R1csConstraint

namespace R1csProgram

variable {R : Type*} [CommRing R]

/-- Every row of the program holds under `x`. -/
def Sat (x : VarId → R) (prog : R1csProgram) : Prop := ∀ k ∈ prog.constraints, k.row.Sat x

instance [DecidableEq R] (x : VarId → R) (prog : R1csProgram) : Decidable (prog.Sat x) :=
  inferInstanceAs (Decidable (∀ k ∈ prog.constraints, k.row.Sat x))

/-- The variables the rows mention. -/
def rowVars (prog : R1csProgram) : List VarId := prog.constraints.flatMap fun k => k.row.vars

end R1csProgram

end XarkCircuit
