import XarkCircuit.Decode.Expand
import Mathlib.Algebra.BigOperators.Group.Finset.Basic
import Mathlib.Data.Fin.VecNotation

/-!
Numeric evaluation of templates (`function_decode.rs`, `mod eval`).

* `compile` resolves the variables of each template once: `VRef` is a fresh variable of the call,
  a plug, or a global variable. Consecutive rows are grouped (`items`), and `foldlM_items` says
  that running the groups is running the items.
* `eval` evaluates the three forms of each row, with the plugs of a call evaluated once, and
  `evalItems` does so for a range of the top stream.
* `adjoint` is the transpose of `eval`: it pushes a weight for each row back to the variables, and
  `transposeEval` does so for the whole stream.
-/

namespace XarkCircuit.Eval

open Outcome

/-- A variable as seen from inside a template. -/
inductive VRef
  | internal (o : VarId)
  | plug (i : ℕ)
  | global (id : VarId)
deriving DecidableEq, Repr

/-- A combination with resolved variables. -/
structure Lc (F : Type) where
  k : F
  terms : List (VRef × F)
deriving DecidableEq

/-- A compiled item: neighbouring rows, or a call. -/
inductive Item (F : Type)
  | rows (rs : List (Fin 3 → Lc F))
  | call (d : ℕ) (base : VRef) (plugs : List (Lc F))

/-- The compiled templates, and an entry for each item of the top stream. -/
structure Compiled (F : Type) where
  defs : List (List (Item F))
  top : List (List (Item F))

/-- The base of a call, and the values of its plugs. -/
structure Frame (F : Type) where
  base : VarId
  plugs : List F

/-! ### Compiling -/

section Compile

variable {F : Type} [CommRing F]

/-- What `v` is inside `own`; a repeated plug is its last expression, as in `callSubst`. -/
def resolve (v : VarId) : Option GDef → VRef
  | none => .global v
  | some d =>
      if d.baseVar ≤ v then .internal (v - d.baseVar)
      else
        match rposition v d.plugs with
        | some i => .plug i
        | none => .global v

/-- A combination with resolved variables. -/
def lc (l : LinearCombination) (own : Option GDef) : Lc F where
  k := l.constant
  terms := l.terms.map fun t => (resolve t.var own, (t.coeff : F))

/-- The three forms of a row, `0` for `a`, `1` for `b` and `2` for `c`. -/
def row (r : R1csRow) (own : Option GDef) : Fin 3 → Lc F := ![lc r.a own, lc r.b own, lc r.c own]

/-- Put a row into the group at the end, or begin one. -/
def pushRow (out : List (Item F)) (r : Fin 3 → Lc F) : List (Item F) :=
  match out.getLast? with
  | some (.rows rs) => out.dropLast ++ [.rows (rs ++ [r])]
  | _ => out ++ [.rows [r]]

/-- One item, compiled to the end of `out`. -/
def pushItem (own : Option GDef) (out : List (Item F)) : CItem → List (Item F)
  | .row r => pushRow out (row r own)
  | .rolled rs => rs.foldl (fun out r => pushRow out (row r own)) out
  | .call d base plugs => out ++ [.call d (resolve base own) (plugs.map fun p => lc p own)]

/-- The items of a scope, compiled. -/
def items (src : List CItem) (own : Option GDef) : List (Item F) := src.foldl (pushItem own) []

/-- Templates and top stream, compiled. -/
def compile (defs : List GDef) (top : List CItem) : Compiled F where
  defs := defs.map fun d => items d.cItems (some d)
  top := top.map fun it => items [it] none

omit [CommRing F] in
/-- Running the items that follow a row pushed at the end is running that row last. -/
lemma foldlM_pushRow {σ : Type} {step : σ → Item F → Outcome σ}
    {rowStep : σ → (Fin 3 → Lc F) → Outcome σ}
    (h : ∀ st rs, step st (.rows rs) = rs.foldlM rowStep st) (out : List (Item F))
    (r : Fin 3 → Lc F) (st : σ) :
    (pushRow out r).foldlM step st = out.foldlM step st >>= fun st => rowStep st r := by
  have hnew : (out ++ [Item.rows [r]]).foldlM step st
      = out.foldlM step st >>= fun st => rowStep st r := by
    rw [List.foldlM_append]
    simp only [List.foldlM_cons, List.foldlM_nil, h, bind_pure]
  unfold pushRow
  split
  · next rs hlast =>
    obtain ⟨l, rfl⟩ := List.getLast?_eq_some_iff.mp hlast
    rw [List.dropLast_concat, List.foldlM_append, List.foldlM_append]
    simp only [List.foldlM_cons, List.foldlM_nil, h, bind_pure, List.foldlM_append, bind_assoc]
  · exact hnew

/-- One item of the stream, run row by row. -/
def stepSource {σ : Type} (step : σ → Item F → Outcome σ)
    (rowStep : σ → (Fin 3 → Lc F) → Outcome σ) (own : Option GDef) (st : σ) : CItem → Outcome σ
  | .row r => rowStep st (row r own)
  | .rolled rs => rs.foldlM (fun st r => rowStep st (row r own)) st
  | .call d base plugs => step st (.call d (resolve base own) (plugs.map fun p => lc p own))

/-- **Running the groups is running the items**, for a step that runs a group row by row. -/
lemma foldlM_items {σ : Type} {step : σ → Item F → Outcome σ}
    {rowStep : σ → (Fin 3 → Lc F) → Outcome σ}
    (h : ∀ st rs, step st (.rows rs) = rs.foldlM rowStep st) (own : Option GDef)
    (src : List CItem) (st : σ) :
    (items src own).foldlM step st = src.foldlM (stepSource step rowStep own) st := by
  have hrows : ∀ (rs : List R1csRow) (out : List (Item F)),
      (rs.foldl (fun out r => pushRow out (row r own)) out).foldlM step st
        = out.foldlM step st >>= fun st => rs.foldlM (fun st r => rowStep st (row r own)) st := by
    intro rs
    induction rs with
    | nil => simp
    | cons r rs ih =>
        intro out
        rw [List.foldl_cons, ih, foldlM_pushRow h]
        simp only [List.foldlM_cons, bind_assoc]
  have key : ∀ (src : List CItem) (out : List (Item F)),
      (src.foldl (pushItem own) out).foldlM step st
        = out.foldlM step st >>= fun st => src.foldlM (stepSource step rowStep own) st := by
    intro src
    induction src with
    | nil => simp
    | cons it src ih =>
        intro out
        rw [List.foldl_cons, ih]
        cases it with
        | row r =>
            rw [pushItem, foldlM_pushRow h]
            simp only [List.foldlM_cons, bind_assoc, stepSource]
        | rolled rs =>
            rw [pushItem, hrows]
            simp only [List.foldlM_cons, bind_assoc, stepSource]
        | call d base plugs =>
            rw [pushItem, List.foldlM_append]
            simp only [List.foldlM_cons, List.foldlM_nil, bind_assoc, bind_pure, stepSource]
  rw [items, key, List.foldlM_nil, pure_eq_ok, ok_bind]

end Compile

/-! ### Evaluating -/

section Evaluate

variable {F : Type} [CommRing F]

/-- The value of a variable in a frame, under the assignment `z`. -/
def val (f : Frame F) (z : VarId → F) : VRef → Outcome F
  | .internal o => .ok (z (f.base + o))
  | .plug i => orPanic f.plugs[i]?
  | .global id => .ok (z id)

/-- The value of a combination in a frame. -/
def evalLc (l : Lc F) (f : Frame F) (z : VarId → F) : Outcome F :=
  l.terms.foldlM (fun acc t => do
    let x ← val f z t.1
    return acc + x * t.2) l.k

/-- The base of a call in a frame with base `base`. -/
def childBase (base : VarId) : VRef → Outcome VarId
  | .internal o => .ok (base + o)
  | .global id => .ok id
  -- a call base is always a fresh variable
  | .plug _ => .error .panic

/-- The value of one form of a row, zero if it is not wanted. -/
def evalForm (f : Frame F) (z : VarId → F) (want : Fin 3 → Bool) (r : Fin 3 → Lc F) (m : Fin 3) :
    Outcome F :=
  if want m then evalLc (r m) f z else .ok 0

/-- The values of the three forms of a row. -/
def evalRow (f : Frame F) (z : VarId → F) (want : Fin 3 → Bool) (r : Fin 3 → Lc F) :
    Outcome (Fin 3 → F) := do
  let a ← evalForm f z want r 0
  let b ← evalForm f z want r 1
  let c ← evalForm f z want r 2
  return ![a, b, c]

/-- One compiled item: the values of its rows. -/
def evalItem (c : Compiled F) (inner : List (Item F) → Frame F → Outcome (List (Fin 3 → F)))
    (f : Frame F) (z : VarId → F) (want : Fin 3 → Bool) : Item F → Outcome (List (Fin 3 → F))
  | .rows rs => concatM (fun r => evalRow f z want r >>= fun v => .ok [v]) rs
  | .call d base plugs => do
      let pv ← plugs.mapM fun p => evalLc p f z
      let base ← childBase f.base base
      let body ← orPanic c.defs[d]?
      inner body ⟨base, pv⟩

/-- The values of the rows of compiled items, with calls nested less than the bound. -/
def eval (c : Compiled F) (z : VarId → F) (want : Fin 3 → Bool) :
    ℕ → List (Item F) → Frame F → Outcome (List (Fin 3 → F))
  | 0, _, _ => .error .outOfFuel
  | n + 1, is, f => concatM (evalItem c (eval c z want n) f z want) is

/-- The items of a range; a range that is not one panics. -/
def slice {α : Type} (l : List α) (lo hi : ℕ) : Outcome (List α) :=
  if lo ≤ hi ∧ hi ≤ l.length then .ok ((l.drop lo).take (hi - lo)) else .error .panic

/-- `visit_items`: the rows of a range of the top stream. -/
def visitItems (defs : List GDef) (top : List CItem) (n lo hi : ℕ) : Outcome (List R1csRow) := do
  let is ← slice top lo hi
  expandCVisit defs n .IDENTITY is

/-- `eval_items`: the values of the rows of a range of the top stream. -/
def evalItems (defs : List GDef) (top : List CItem) (n lo hi : ℕ) (z : VarId → F)
    (want : Fin 3 → Bool) : Outcome (List (Fin 3 → F)) := do
  let c := compile defs top
  let is ← slice c.top lo hi
  concatM (fun item => eval c z want n item ⟨0, []⟩) is

end Evaluate

/-! ### The transpose -/

section Adjoint

variable {F : Type} [CommRing F] [DecidableEq F]

/-- A contribution to a column of one of the three matrices; `none` is the constant column. -/
structure Contribution (F : Type) where
  var : Option VarId
  m : Fin 3
  value : F

/-- What the transpose carries along: the weights gathered for this frame's plugs, the next row,
and what was emitted. -/
structure AdjState (F : Type) where
  myAdj : List (Fin 3 → F)
  row : ℕ
  emitted : List (Contribution F)

/-- Emit one contribution. -/
def AdjState.emit (st : AdjState F) (var : Option VarId) (m : Fin 3) (value : F) : AdjState F :=
  { st with emitted := st.emitted ++ [⟨var, m, value⟩] }

/-- Route `v` to one variable: to the column it names, or to the weight of a plug. -/
def routeTerm (m : Fin 3) (base : VarId) (st : AdjState F) (r : VRef) (v : F) :
    Outcome (AdjState F) :=
  match r with
  | .internal o => .ok (st.emit (some (base + o)) m v)
  | .global id => .ok (st.emit (some id) m v)
  | .plug i => do
      let a ← orPanic st.myAdj[i]?
      return { st with myAdj := st.myAdj.set i (Function.update a m (a m + v)) }

/-- Route `s` times a combination of this frame. -/
def route (l : Lc F) (s : F) (m : Fin 3) (base : VarId) (st : AdjState F) :
    Outcome (AdjState F) :=
  let st := if l.k ≠ 0 then st.emit none m (s * l.k) else st
  l.terms.foldlM (fun st t => routeTerm m base st t.1 (s * t.2)) st

/-- Route the weights `s` of the three matrices, each through its form; a zero weight goes
nowhere. -/
def routeEach (ls : Fin 3 → Lc F) (s : Fin 3 → F) (base : VarId) (st : AdjState F) :
    Outcome (AdjState F) :=
  [0, 1, 2].foldlM (fun st m => if s m = 0 then .ok st else route (ls m) (s m) m base st) st

/-- One row: its weight goes to the three forms, a zero weight goes nowhere. -/
def adjointRow (w : List F) (base : VarId) (st : AdjState F) (r : Fin 3 → Lc F) :
    Outcome (AdjState F) := do
  let wr ← orPanic w[st.row]?
  routeEach r (fun _ => wr) base { st with row := st.row + 1 }

/-- One compiled item. The weights a call gathers for its plugs are routed through the plug
expressions. -/
def adjointItem (c : Compiled F) (inner : List (Item F) → VarId → AdjState F → Outcome (AdjState F))
    (w : List F) (base : VarId) (st : AdjState F) : Item F → Outcome (AdjState F)
  | .rows rs => rs.foldlM (adjointRow w base) st
  | .call d cb plugs => do
      let childBase ← childBase base cb
      let body ← orPanic c.defs[d]?
      let child ← inner body childBase
        ⟨List.replicate plugs.length fun _ => 0, st.row, st.emitted⟩
      (plugs.zip child.myAdj).foldlM
        (fun st p => routeEach (fun _ => p.1) p.2 base st)
        ⟨st.myAdj, child.row, child.emitted⟩

/-- `adjoint`, with calls nested less than the bound. -/
def adjoint (c : Compiled F) (w : List F) :
    ℕ → List (Item F) → VarId → AdjState F → Outcome (AdjState F)
  | 0, _, _, _ => .error .outOfFuel
  | n + 1, is, base, st => is.foldlM (fun st it => adjointItem c (adjoint c w n) w base st it) st

/-- `transpose_eval`: the contributions of all rows, weighted by `w`, which has one weight for each
row. -/
def transposeEval (defs : List GDef) (top : List CItem) (n : ℕ) (w : List F) :
    Outcome (List (Contribution F)) := do
  let rows ← visitItems defs top n 0 top.length
  let _ ← if w.length = rows.length then .ok () else (.error .panic : Outcome Unit)
  let c := compile defs top
  let st ← c.top.foldlM (fun st item => do
    let st' ← adjoint c w n item 0 ⟨[], st.row, st.emitted⟩
    return ⟨[], st'.row, st'.emitted⟩) (⟨[], 0, []⟩ : AdjState F)
  return st.emitted

end Adjoint

end XarkCircuit.Eval
