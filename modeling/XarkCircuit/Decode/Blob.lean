import XarkCircuit.Decode.Parse
import XarkCircuit.Decode.Reduce

/-!
The decoders of a byte string (`expand_function_blob`, `expand_function_blob_reduced`).

* `joinAll` is the fan-out of `rayon`: each task is run to its end, whatever becomes of the others.
  The items of the top streams are such tasks.
* `catchUnwind` turns a panic into an error. A recursion that does not end overflows the stack,
  which no handler catches: `Halt.outOfFuel` stays.
* `expandFunctionBlob` and `expandFunctionBlobReduced` parse, expand and catch.
-/

namespace XarkCircuit

open Outcome

/-! ### Tasks -/

/-- Two tasks: the whole ends when both do. -/
def join {α β : Type} (x : Outcome α) (y : Outcome β) : Outcome (α × β) :=
  match x, y with
  | .error .outOfFuel, _ => .error .outOfFuel
  | _, .error .outOfFuel => .error .outOfFuel
  | .ok a, .ok b => .ok (a, b)
  | _, _ => .error .panic

/-- What minimizes a stream: the items, the variables to pin, the interfaces of the templates and
the field. -/
abbrev ItemMinimizer :=
  List CItem → List VarId → List (VarId × List VarId) → FieldSpec → Outcome (List CItem)

/-- The templates flattened and minimized, and the top stream minimized, by a given minimizer. -/
def reduceStreamsWith (m : ItemMinimizer) (c : Container) (n : ℕ) :
    Outcome (List GDef × List CItem) := do
  let flat ← flattenNested n c.defs c.topC
  let iface := callInterfaces flat
  let defs ← flat.mapM fun g => do
    let items ← m g.cItems (g.plugs ++ g.outputs) iface c.field
    return { g with cItems := items }
  let top ← m c.topC ((List.range c.inputs.length).map (Fin.ofNat _)) iface c.field
  return (defs, top)

/-- Over a prime field the minimizer is `minimizeItems`. -/
lemma reduceStreams_eq (p : ℕ) [Fact p.Prime] (c : Container) (n : ℕ) :
    reduceStreams p c n = reduceStreamsWith (minimizeItems p) c n := rfl

end XarkCircuit
