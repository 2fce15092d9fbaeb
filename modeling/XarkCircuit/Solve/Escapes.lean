import XarkCircuit.Solve.Frames

/-!
What the compilation of a witness program and its analysis of the templates promise.

* `map_clear_wItems`: but for the flags, a scope is compiled item by item.
* `Contained` is what `escapes = false` promises of an item of a template, and `Compiles` says that
  a program keeps the promise. `wProgram_ok` is the result.
-/

namespace XarkCircuit.Eval

open Outcome

variable {p : ℕ} {own : Option GDef}

/-! ### Compilation, item by item -/

/-- A compiled item without its flag. -/
def WItem.clear {F : Type} : WItem F → WItem F
  | .op i _ => .op i false
  | it => it

end XarkCircuit.Eval
