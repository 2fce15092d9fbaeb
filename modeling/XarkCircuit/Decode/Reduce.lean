import XarkCircuit.Decode.Container
import XarkCircuit.Minimize.Model

/-!
The reduced circuit, template by template (`expand_reduced_inner`).

* `flattenNested` inlines the nested calls of each template that the top stream calls.
* `minimizeItems` minimizes the rows of one stream and keeps its calls: the variables it pins are
  the given ones, those of the plug combinations, and the outputs of the calls.
* `reduceStreams` does both for every template and then for the top stream, and `expandReduced`
  expands what is left.
-/

namespace XarkCircuit

open Outcome

/-- Is this a call? -/
def Item.isCall {α : Type} : Item α → Bool
  | .call _ _ _ => true
  | _ => false

lemma isCall_iff {α : Type} {it : Item α} : it.isCall ↔ ∃ d b plugs, it = .call d b plugs := by
  cases it with
  | row r => simp [Item.isCall]
  | rolled rs => simp [Item.isCall]
  | call d b plugs => simp [Item.isCall]

/-- Does the stream call template `d`? -/
def calls (top : List CItem) (d : ℕ) : Bool := top.any fun it => it.callee = some d

/-- One round of `flatten_nested`: the body of a template that the top stream calls, its calls
expanded in place. -/
def flattenDef (n : ℕ) (top : List CItem) (defs : List GDef) (d : ℕ) : Outcome (List GDef) :=
  match defs[d]? with
  | none => .ok defs
  | some g =>
    if calls top d && g.cItems.any Item.isCall then do
      let rows ← expandC defs n .IDENTITY g.cItems
      return defs.set d { g with cItems := [.rolled rows] }
    else .ok defs

/-- `flatten_nested`; a call of a template that does not exist panics. -/
def flattenNested (n : ℕ) (defs : List GDef) (top : List CItem) : Outcome (List GDef) :=
  if top.all fun it => it.callee.all fun d => d < defs.length then
    (List.range defs.length).foldlM (flattenDef n top) defs
  else .error .panic

/-- `call_interfaces`: what a caller pins around a call. -/
def callInterfaces (defs : List GDef) : List (VarId × List VarId) :=
  defs.map fun g => (g.baseVar, g.outputs)

/-- The variables that an item makes its stream pin: those of the plug combinations, and the
outputs of the call as the stream sees them. -/
def itemPins (iface : List (VarId × List VarId)) : CItem → Outcome (List VarId)
  | .call d base plugs => do
      let i ← orPanic iface[d]?
      return plugs.flatMap LinearCombination.vars
        ++ (i.2.filter fun o => i.1 ≤ o).map fun o => base + (o - i.1)
  | _ => .ok []

/-- The rows of a stream as a program that declares its variables, the pinned ones private. -/
def itemsProgram (items : List CItem) (pins : List VarId) (field : FieldSpec) : R1csProgram :=
  let rows : List R1csConstraint :=
    (items.flatMap Item.inline).map fun r => ⟨0, r.a, r.b, r.c, none⟩
  { field := field
    vars := (((rows.flatMap fun k => k.row.vars).insertionSort (· ≤ ·)).dedup).map fun v =>
      ⟨v, "", if v ∈ pins then .private else .internal⟩
    constraints := rows }

/-- No fill-in guard: `usize::MAX`. -/
def usizeMax : ℕ := 2 ^ 64 - 1

section Reduce

variable (p : ℕ) [Fact p.Prime]

/-- `minimize_items`: the minimized rows, then the calls. -/
def minimizeItems (items : List CItem) (basePins : List VarId)
    (iface : List (VarId × List VarId)) (field : FieldSpec) : Outcome (List CItem) := do
  let pins ← concatM (itemPins iface) items
  let reduced := Minimize.minimizeWithFill p (itemsProgram items (basePins ++ pins) field) usizeMax
  return reduced.constraints.map (fun k => .row k.row) ++ items.filter Item.isCall

/-- The templates flattened and minimized, and the top stream minimized. -/
def reduceStreams (c : Container) (n : ℕ) : Outcome (List GDef × List CItem) := do
  let flat ← flattenNested n c.defs c.topC
  let iface := callInterfaces flat
  let defs ← flat.mapM fun g => do
    let items ← minimizeItems p g.cItems (g.plugs ++ g.outputs) iface c.field
    return { g with cItems := items }
  let top ← minimizeItems p c.topC ((List.range c.inputs.length).map (Fin.ofNat _)) iface c.field
  return (defs, top)

/-- `expand_reduced_inner` after the parser. -/
def expandReduced (c : Container) (n : ℕ) : Outcome CircuitProgram := do
  let s ← reduceStreams p c n
  let rows ← expandC s.1 n .IDENTITY s.2
  return ⟨c.field, c.keptVars rows, rows, []⟩

end Reduce

end XarkCircuit
