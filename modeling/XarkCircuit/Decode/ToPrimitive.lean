import XarkCircuit.Decode.Container
import XarkCircuit.Ir.Primitive

/-!
Flattening rows to expressions (`circuit.rs`).

* `exprFromR1cs` multiplies a row out; `eval_exprFromR1cs` is its value, `a · b − c`.
* `CircuitProgram.toPrimitive` is the loop over the rows: a row of too many products has its larger
  side named by a fresh variable, whose defining row goes to the end. A fresh id past `u32` panics.
* `Reached` is the invariant of the loop: what it has added so far, and that every expression says
  what its row says wherever the fresh variables have the values of the sides they name.
* `toPrimitive_ok_iff`: the loop returns exactly when the ids it hands out fit in a `u32`.
* `to_primitive_flattens` is the result: exactly then the flattened program accepts what the rows
  accept, with one extension to the fresh variables.
-/

namespace XarkCircuit

open Outcome

/-! ### Multiplying a row out -/

/-- `*linear.entry(var).or_insert(zero) += coeff`, in the order of the variables. -/
def addLin (linear : List (VarId × FieldConst)) (var : VarId) (coeff : FieldConst) :
    List (VarId × FieldConst) :=
  match linear with
  | [] => [(var, coeff)]
  | (u, d) :: linear =>
      if var < u then (var, coeff) :: (u, d) :: linear
      else if var = u then (u, d + coeff) :: linear
      else (u, d) :: addLin linear var coeff

/-- `expr_from_r1cs`: the expression `a · b − c`. -/
def exprFromR1cs (a b c : LinearCombination) (note : Option String) : Expression :=
  let linear := a.terms.foldl (fun linear t => addLin linear t.var (t.coeff * b.constant)) []
  let linear := b.terms.foldl (fun linear t => addLin linear t.var (a.constant * t.coeff)) linear
  let linear := c.terms.foldl (fun linear t => addLin linear t.var (-t.coeff)) linear
  { mulTerms := a.terms.flatMap fun ta => b.terms.filterMap fun tb =>
      if ta.coeff * tb.coeff = 0 then none else some ⟨ta.coeff * tb.coeff, ta.var, tb.var⟩
    linearTerms := (linear.filter fun e => e.2 ≠ 0).map fun e => ⟨e.2, e.1⟩
    constant := a.constant * b.constant + -c.constant
    note := note }

/-- Past this many products, a row is factored through a fresh variable. -/
def maxProducts : ℕ := 4096

/-! ### The loop over the rows -/

/-- `id + 1`; the last `u32` overflows. -/
def succId (v : VarId) : Outcome VarId :=
  if h : v.val + 1 < 2 ^ 32 then .ok ⟨v.val + 1, h⟩ else .error .panic

/-- What the loop has built. -/
structure Flattening where
  next : VarId
  vars : List Var
  witnessGen : List (WitnessGen LinearCombination VarId)
  extra : List Expression
  constraints : List Expression

/-- The fresh variable that names a side. -/
def factorVar (t : VarId) : Var := ⟨t, "$factor" ++ toString t.val, .derived⟩

/-- Is the row factored, not multiplied out? -/
def R1csRow.factored (r : R1csRow) : Bool :=
  maxProducts < r.a.terms.length * r.b.terms.length

/-- The larger side of a row, then the smaller one. -/
def R1csRow.sides (r : R1csRow) : LinearCombination × LinearCombination :=
  if r.b.terms.length ≤ r.a.terms.length then (r.a, r.b) else (r.b, r.a)

/-- The expression of a factored row, where `t` is the larger side. -/
def factoredExpr (t : VarId) (big small c : LinearCombination) (note : Option String) :
    Expression :=
  let tv := LinearCombination.ofVar t
  -- sides that differ only by a constant become a square in the fresh variable
  if small.terms = big.terms then
    exprFromR1cs tv { tv with constant := small.constant + -big.constant } c note
  else exprFromR1cs tv small c note

/-- The closure over the rows. -/
def flattenRow (s : Flattening) (r : R1csRow) : Outcome Flattening :=
  if r.factored then do
    let t := s.next
    let next ← succId t
    return {
      next := next
      vars := s.vars ++ [factorVar t]
      witnessGen := s.witnessGen ++ [.linear t r.sides.1]
      extra := s.extra ++ [exprFromR1cs r.sides.1 .one (.ofVar t) none]
      constraints := s.constraints ++ [factoredExpr t r.sides.1 r.sides.2 r.c r.note] }
  else .ok { s with constraints := s.constraints ++ [exprFromR1cs r.a r.b r.c r.note] }

/-- The first id past the declared ones. -/
def nextId (vars : List Var) : Outcome VarId :=
  vars.foldlM (fun next v => do
    let id ← succId v.id
    return max next id) 0

/-- `CircuitProgram::to_primitive`. -/
def CircuitProgram.toPrimitive (prog : CircuitProgram) : Outcome PrimitiveProgram := do
  let next ← nextId prog.vars
  let s ← prog.constraints.foldlM flattenRow ⟨next, prog.vars, prog.witnessGen, [], []⟩
  return ⟨⟨prog.field.name, prog.field.modulusDecimal.getD ""⟩, s.vars, s.constraints ++ s.extra,
    s.witnessGen⟩

/-! ### Values -/

section Values

variable {R : Type*} [CommRing R] {x : VarId → R}

/-- The value of the map of linear coefficients. -/
def linSum (linear : List (VarId × FieldConst)) (x : VarId → R) : R :=
  (linear.map fun e => (e.2 : R) * x e.1).sum

lemma linSum_addLin (linear : List (VarId × FieldConst)) (v : VarId) (c : FieldConst) :
    linSum (addLin linear v c) x = linSum linear x + c * x v := by
  induction linear with
  | nil => simp [addLin, linSum]
  | cons e linear ih =>
      obtain ⟨u, d⟩ := e
      rw [addLin]
      split_ifs with hlt heq
      · simp only [linSum, List.map_cons, List.sum_cons]
        ring
      · simp only [linSum, List.map_cons, List.sum_cons, heq]
        push_cast
        ring
      · simp only [linSum, List.map_cons, List.sum_cons] at ih ⊢
        rw [ih]
        ring

/-- Adding the terms of a form, each coefficient multiplied by `m`. -/
lemma linSum_foldl (ts : List Term) (f : FieldConst → FieldConst) (m : R)
    (hf : ∀ c, (f c : R) = m * c) (linear : List (VarId × FieldConst)) :
    linSum (ts.foldl (fun linear t => addLin linear t.var (f t.coeff)) linear) x
      = linSum linear x + m * LinearCombination.evalTerms ts x := by
  induction ts generalizing linear with
  | nil => simp
  | cons t ts ih =>
      rw [List.foldl_cons, ih, linSum_addLin, LinearCombination.evalTerms_cons, hf]
      ring

/-- Dropping zero coefficients keeps the value. -/
lemma linSum_filter (linear : List (VarId × FieldConst)) :
    (((linear.filter fun e => e.2 ≠ 0).map fun e => (⟨e.2, e.1⟩ : LinearTerm)).map fun t =>
      (t.coeff : R) * x t.var).sum = linSum linear x := by
  induction linear with
  | nil => rfl
  | cons e linear ih =>
      have hcons : linSum (e :: linear) x = e.2 * x e.1 + linSum linear x := List.sum_cons
      rw [hcons]
      by_cases h : e.2 = 0
      · rw [List.filter_cons_of_neg (by simpa using h), ih, h]
        simp
      · rw [List.filter_cons_of_pos (by simpa using h), List.map_cons, List.map_cons,
          List.sum_cons, ih]

/-- The products of the terms of two forms. -/
lemma sum_products (as bs : List Term) :
    ((as.flatMap fun ta => bs.filterMap fun tb =>
      if ta.coeff * tb.coeff = 0 then none
      else some (⟨ta.coeff * tb.coeff, ta.var, tb.var⟩ : MulTerm)).map fun t =>
        (t.coeff : R) * x t.left * x t.right).sum
      = LinearCombination.evalTerms as x * LinearCombination.evalTerms bs x := by
  have hone : ∀ ta : Term, ((bs.filterMap fun tb =>
      if ta.coeff * tb.coeff = 0 then none
      else some (⟨ta.coeff * tb.coeff, ta.var, tb.var⟩ : MulTerm)).map fun t =>
        (t.coeff : R) * x t.left * x t.right).sum
      = ta.coeff * x ta.var * LinearCombination.evalTerms bs x := by
    intro ta
    induction bs with
    | nil => simp
    | cons tb bs ih =>
        rw [List.filterMap_cons, LinearCombination.evalTerms_cons]
        by_cases h : ta.coeff * tb.coeff = 0
        · have hcast : (ta.coeff : R) * tb.coeff = 0 := by
            rw [← Int.cast_mul, h, Int.cast_zero]
          rw [if_pos h]
          refine ih.trans ?_
          linear_combination -(x ta.var * x tb.var) * hcast
        · rw [if_neg h]
          refine (List.sum_cons).trans ?_
          rw [ih]
          push_cast
          ring
  induction as with
  | nil => simp
  | cons ta as ih =>
      rw [List.flatMap_cons, List.map_append, List.sum_append, ih, hone,
        LinearCombination.evalTerms_cons]
      ring

/-- **The expression of a row** has the value `a · b − c`. -/
lemma eval_exprFromR1cs (a b c : LinearCombination) (note : Option String) :
    (exprFromR1cs a b c note).eval x = a.eval x * b.eval x - c.eval x := by
  have ha := linSum_foldl (x := x) a.terms (fun k => k * b.constant) (b.constant : R)
    (fun k => by push_cast; ring) []
  have hb := linSum_foldl (x := x) b.terms (fun k => a.constant * k) (a.constant : R)
    (fun k => by push_cast; ring)
    (a.terms.foldl (fun linear t => addLin linear t.var (t.coeff * b.constant)) [])
  have hc := linSum_foldl (x := x) c.terms (fun k => -k) (-1 : R) (fun k => by push_cast; ring)
    (b.terms.foldl (fun linear t => addLin linear t.var (a.constant * t.coeff))
      (a.terms.foldl (fun linear t => addLin linear t.var (t.coeff * b.constant)) []))
  have hnil : linSum [] x = 0 := rfl
  rw [exprFromR1cs, Expression.eval]
  simp only
  rw [linSum_filter, sum_products, hc, hb, ha, hnil, LinearCombination.eval,
    LinearCombination.eval, LinearCombination.eval]
  push_cast
  ring

lemma eval_sides (r : R1csRow) :
    r.sides.1.eval x * r.sides.2.eval x = r.a.eval x * r.b.eval x := by
  rw [R1csRow.sides]
  split_ifs
  · rfl
  · exact mul_comm _ _

/-- The expression of a factored row, where the fresh variable has the larger side's value. -/
lemma eval_factoredExpr {t : VarId} {big small : LinearCombination} (ht : x t = big.eval x)
    (c : LinearCombination) (note : Option String) :
    (factoredExpr t big small c note).eval x = big.eval x * small.eval x - c.eval x := by
  rw [factoredExpr]
  split_ifs with hterms
  · have hshift : LinearCombination.eval
        { LinearCombination.ofVar t with constant := small.constant + -big.constant } x
        = small.eval x := by
      have hvar : LinearCombination.evalTerms (LinearCombination.ofVar t).terms x = x t := by
        simp [LinearCombination.ofVar]
      rw [LinearCombination.eval, hvar, ht, LinearCombination.eval, LinearCombination.eval, hterms]
      push_cast
      ring
    rw [eval_exprFromR1cs, LinearCombination.eval_ofVar, hshift, ht]
  · rw [eval_exprFromR1cs, LinearCombination.eval_ofVar, ht]

end Values

/-! ### When the loop returns -/

lemma succId_of_lt {v : VarId} (h : v.val + 1 < 2 ^ 32) : succId v = .ok ⟨v.val + 1, h⟩ := dif_pos h

lemma succId_eq_ok {v w : VarId} : succId v = .ok w ↔ w.val = v.val + 1 := by
  rw [succId]
  split_ifs with h
  · rw [Except.ok.injEq, Fin.ext_iff]
    exact eq_comm
  · refine iff_of_false (by simp) fun hw => h ?_
    rw [← hw]
    exact w.isLt

/-- The first id past the declared ones exists unless the last `u32` is declared. -/
lemma nextId_eq_ok {vars : List Var} {next : VarId} (h : nextId vars = .ok next) :
    (∀ v ∈ vars, v.id.val + 1 ≤ next.val) ∧
      (next = 0 ∨ ∃ v ∈ vars, next.val = v.id.val + 1) := by
  have key : ∀ (vars : List Var) (m next : VarId),
      vars.foldlM (fun next v => succId v.id >>= fun id => (.ok (max next id) : Outcome VarId)) m
        = .ok next →
      m ≤ next ∧ (∀ v ∈ vars, v.id.val + 1 ≤ next.val) ∧
        (next = m ∨ ∃ v ∈ vars, next.val = v.id.val + 1) := by
    intro vars
    induction vars with
    | nil =>
        intro m next h
        cases h
        exact ⟨le_rfl, fun v hv => absurd hv List.not_mem_nil, Or.inl rfl⟩
    | cons v vars ih =>
        intro m next h
        rw [List.foldlM_cons] at h
        obtain ⟨m', hm', h⟩ := bind_eq_ok.mp h
        obtain ⟨id, hid, hm'⟩ := bind_eq_ok.mp hm'
        cases hm'
        have hid := succId_eq_ok.mp hid
        obtain ⟨hle, hall, hmax⟩ := ih _ _ h
        have hidle : id.val ≤ next.val := Fin.le_def.mp ((le_max_right m id).trans hle)
        refine ⟨(le_max_left m id).trans hle, fun w hw => ?_, ?_⟩
        · rcases List.mem_cons.mp hw with rfl | hw
          · omega
          · exact hall w hw
        · rcases hmax with rfl | ⟨w, hw, hnext⟩
          · rcases max_choice m id with hm | hm
            · exact Or.inl hm
            · exact Or.inr ⟨v, List.mem_cons_self, by rw [hm, hid]⟩
          · exact Or.inr ⟨w, List.mem_cons_of_mem _ hw, hnext⟩
  exact ⟨(key vars 0 next h).2.1, (key vars 0 next h).2.2⟩

lemma nextId_ok_iff {vars : List Var} :
    (∃ next, nextId vars = .ok next) ↔ ∀ v ∈ vars, v.id.val + 1 < 2 ^ 32 := by
  constructor
  · rintro ⟨next, h⟩ v hv
    exact ((nextId_eq_ok h).1 v hv).trans_lt next.isLt
  · intro h
    have key : ∀ m : VarId, ∃ next, vars.foldlM (fun next v => succId v.id >>= fun id =>
        (.ok (max next id) : Outcome VarId)) m = .ok next := by
      induction vars with
      | nil => exact fun m => ⟨m, rfl⟩
      | cons v vars ih =>
          intro m
          obtain ⟨next, hnext⟩ := ih (fun w hw => h w (List.mem_cons_of_mem _ hw))
            (max m ⟨v.id.val + 1, h v List.mem_cons_self⟩)
          refine ⟨next, ?_⟩
          rw [List.foldlM_cons, succId_of_lt (h v List.mem_cons_self)]
          exact hnext
    exact key 0

/-- One row needs one more id if it is factored. -/
lemma flattenRow_ok_iff {s : Flattening} {r : R1csRow} :
    (∃ s', flattenRow s r = .ok s') ↔ (r.factored → s.next.val + 1 < 2 ^ 32) := by
  rw [flattenRow]
  split_ifs with h
  · constructor
    · rintro ⟨s', hs⟩ _
      obtain ⟨next, hnext, -⟩ := bind_eq_ok.mp hs
      rw [← succId_eq_ok.mp hnext]
      exact next.isLt
    · intro hlt
      exact ⟨_, bind_eq_ok.mpr ⟨_, succId_of_lt (hlt h), rfl⟩⟩
  · exact iff_of_true ⟨_, rfl⟩ fun h' => absurd h' h

lemma next_flattenRow {s s' : Flattening} {r : R1csRow} (h : flattenRow s r = .ok s') :
    s'.next.val = s.next.val + if r.factored then 1 else 0 := by
  rw [flattenRow] at h
  split_ifs at h ⊢
  · obtain ⟨next, hnext, h⟩ := bind_eq_ok.mp h
    cases h
    exact succId_eq_ok.mp hnext
  · cases h
    rfl

/-- The loop returns exactly when it does not run out of ids. -/
lemma foldlM_flattenRow_ok_iff {rows : List R1csRow} {s : Flattening} :
    (∃ s', rows.foldlM flattenRow s = .ok s') ↔
      s.next.val + (rows.filter R1csRow.factored).length < 2 ^ 32 := by
  induction rows generalizing s with
  | nil => exact iff_of_true ⟨s, rfl⟩ s.next.isLt
  | cons r rows ih =>
      have hstep : (∃ s', (r :: rows).foldlM flattenRow s = .ok s') ↔
          ∃ t, flattenRow s r = .ok t ∧ ∃ s', rows.foldlM flattenRow t = .ok s' := by
        rw [List.foldlM_cons]
        constructor
        · rintro ⟨s', h⟩
          obtain ⟨t, ht, h⟩ := bind_eq_ok.mp h
          exact ⟨t, ht, s', h⟩
        · rintro ⟨t, ht, s', h⟩
          exact ⟨s', bind_eq_ok.mpr ⟨t, ht, h⟩⟩
      have hlen : ((r :: rows).filter R1csRow.factored).length
          = (rows.filter R1csRow.factored).length + if r.factored then 1 else 0 := by
        rw [List.filter_cons]
        split_ifs <;> rfl
      rw [hstep, hlen]
      constructor
      · rintro ⟨t, ht, h⟩
        have hnext := next_flattenRow ht
        have hrest := ih.mp h
        omega
      · intro h
        obtain ⟨t, ht⟩ := (flattenRow_ok_iff (s := s) (r := r)).mpr fun hr => by
          rw [if_pos hr] at h
          omega
        refine ⟨t, ht, ih.mpr ?_⟩
        have hnext := next_flattenRow ht
        omega

/-- The fresh ids fit: a factored row needs one id past the declared ones. -/
def CircuitProgram.FreshFit (prog : CircuitProgram) : Prop :=
  ∀ v ∈ prog.vars, v.id.val + 1 + (prog.constraints.filter R1csRow.factored).length < 2 ^ 32

/-- The rows mention declared variables only. -/
def CircuitProgram.Declared (prog : CircuitProgram) : Prop :=
  ∀ r ∈ prog.constraints, ∀ v ∈ r.vars, v ∈ prog.vars.map Var.id

/-- **The flattening returns exactly when the fresh ids fit.** -/
lemma toPrimitive_ok_iff {prog : CircuitProgram} (hdecl : prog.Declared) :
    (∃ prim, prog.toPrimitive = .ok prim) ↔ prog.FreshFit := by
  have hsplit : (∃ prim, prog.toPrimitive = .ok prim) ↔ ∃ next, nextId prog.vars = .ok next ∧
      next.val + (prog.constraints.filter R1csRow.factored).length < 2 ^ 32 := by
    rw [CircuitProgram.toPrimitive]
    constructor
    · rintro ⟨prim, h⟩
      obtain ⟨next, hnext, h⟩ := bind_eq_ok.mp h
      obtain ⟨s, hs, -⟩ := bind_eq_ok.mp h
      exact ⟨next, hnext, foldlM_flattenRow_ok_iff.mp ⟨s, hs⟩⟩
    · rintro ⟨next, hnext, h⟩
      obtain ⟨s, hs⟩ := (foldlM_flattenRow_ok_iff
        (s := ⟨next, prog.vars, prog.witnessGen, [], []⟩)).mpr h
      exact ⟨_, bind_eq_ok.mpr ⟨next, hnext, bind_eq_ok.mpr ⟨s, hs, rfl⟩⟩⟩
  rw [hsplit]
  constructor
  · rintro ⟨next, hnext, h⟩ v hv
    have hle := (nextId_eq_ok hnext).1 v hv
    omega
  · intro h
    obtain ⟨next, hnext⟩ := nextId_ok_iff.mpr fun v hv => by
      have hv := h v hv
      omega
    refine ⟨next, hnext, ?_⟩
    rcases (nextId_eq_ok hnext).2 with rfl | ⟨v, hv, hmax⟩
    · -- nothing is declared past zero, so no row has a term
      have hnone : prog.vars = [] := by
        refine List.eq_nil_iff_forall_not_mem.mpr fun v hv => ?_
        exact absurd ((nextId_eq_ok hnext).1 v hv) (by simp)
      have hempty : prog.constraints.filter R1csRow.factored = [] := by
        refine List.filter_eq_nil_iff.mpr fun r hr => ?_
        have hterms : r.a.terms = [] := by
          refine List.eq_nil_iff_forall_not_mem.mpr fun t ht => ?_
          have hmem := hdecl r hr t.var
            (R1csRow.mem_vars.mpr (Or.inl (List.mem_map_of_mem ht)))
          rw [hnone] at hmem
          exact absurd hmem List.not_mem_nil
        simp [R1csRow.factored, hterms]
      rw [hempty]
      decide
    · have hv := h v hv
      omega

/-! ### What the loop has built -/

/-- The loop after the rows `done`: `added` are the fresh variables with the sides they name. -/
structure Reached (prog : CircuitProgram) (next₀ : VarId) (done : List R1csRow)
    (added : List (VarId × LinearCombination)) (s : Flattening) : Prop where
  vars : s.vars = prog.vars ++ added.map fun a => factorVar a.1
  witnessGen : s.witnessGen = prog.witnessGen ++ added.map fun a => .linear a.1 a.2
  extra : s.extra = added.map fun a => exprFromR1cs a.2 .one (.ofVar a.1) none
  ids : ∀ a ∈ added, next₀ ≤ a.1 ∧ a.1 < s.next
  next_le : next₀ ≤ s.next
  nodup : (added.map Prod.fst).Nodup
  forms : ∀ a ∈ added, ∃ r ∈ done, ∀ v ∈ a.2.vars, v ∈ r.vars
  rows : List.Forall₂ (fun r e => ∀ (R : Type) [CommRing R] (x : VarId → R),
    (∀ a ∈ added, x a.1 = a.2.eval x) → e.eval x = r.a.eval x * r.b.eval x - r.c.eval x)
    done s.constraints

lemma vars_sides (r : R1csRow) : ∀ v ∈ r.sides.1.vars, v ∈ r.vars := by
  intro v hv
  rw [R1csRow.sides] at hv
  split_ifs at hv
  · exact R1csRow.mem_vars.mpr (Or.inl hv)
  · exact R1csRow.mem_vars.mpr (Or.inr (Or.inl hv))

/-- **The step**: one row more. -/
lemma Reached.step {prog : CircuitProgram} {next₀ : VarId} {done : List R1csRow}
    {added : List (VarId × LinearCombination)} {s s' : Flattening} {r : R1csRow}
    (h : Reached prog next₀ done added s) (hs : flattenRow s r = .ok s') :
    ∃ added', Reached prog next₀ (done ++ [r]) added' s' := by
  rw [flattenRow] at hs
  split_ifs at hs with hr
  · obtain ⟨next, hnext, hs⟩ := bind_eq_ok.mp hs
    cases hs
    have hlt : s.next < next := by
      rw [Fin.lt_def, succId_eq_ok.mp hnext]
      exact Nat.lt_succ_self _
    refine ⟨added ++ [(s.next, r.sides.1)], ?_, ?_, ?_, ?_, h.next_le.trans hlt.le, ?_, ?_, ?_⟩
    · simp [h.vars]
    · simp [h.witnessGen]
    · simp [h.extra]
    · intro a ha
      rcases List.mem_append.mp ha with ha | ha
      · exact ⟨(h.ids a ha).1, (h.ids a ha).2.trans hlt⟩
      · rw [List.mem_singleton.mp ha]
        exact ⟨h.next_le, hlt⟩
    · rw [List.map_append, List.nodup_append]
      refine ⟨h.nodup, by simp, fun v hv w hw => ?_⟩
      obtain ⟨a, ha, rfl⟩ := List.mem_map.mp hv
      rw [List.map_singleton, List.mem_singleton] at hw
      rw [hw]
      exact (h.ids a ha).2.ne
    · intro a ha
      rcases List.mem_append.mp ha with ha | ha
      · obtain ⟨q, hq, hv⟩ := h.forms a ha
        exact ⟨q, List.mem_append_left _ hq, hv⟩
      · rw [List.mem_singleton.mp ha]
        exact ⟨r, by simp, vars_sides r⟩
    · refine List.rel_append (h.rows.imp ?_) (.cons ?_ .nil)
      · intro _ _ he R _ x hx
        exact he R x fun a ha => hx a (List.mem_append_left _ ha)
      intro R _ x hx
      rw [eval_factoredExpr (hx (s.next, r.sides.1) (by simp)), eval_sides]
  · cases hs
    refine ⟨added, h.vars, h.witnessGen, h.extra, h.ids, h.next_le, h.nodup, ?_, ?_⟩
    · intro a ha
      obtain ⟨q, hq, hv⟩ := h.forms a ha
      exact ⟨q, List.mem_append_left _ hq, hv⟩
    · refine List.rel_append h.rows (.cons ?_ .nil)
      intro R _ x _
      exact eval_exprFromR1cs _ _ _ _

/-- **The run**: all rows. -/
lemma Reached.run {prog : CircuitProgram} {next₀ : VarId} {done rows : List R1csRow}
    {added : List (VarId × LinearCombination)} {s s' : Flattening}
    (h : Reached prog next₀ done added s) (hs : rows.foldlM flattenRow s = .ok s') :
    ∃ added', Reached prog next₀ (done ++ rows) added' s' := by
  induction rows generalizing done added s with
  | nil =>
      cases hs
      exact ⟨added, by rwa [List.append_nil]⟩
  | cons r rows ih =>
      rw [List.foldlM_cons] at hs
      obtain ⟨t, ht, hs⟩ := bind_eq_ok.mp hs
      obtain ⟨added', h'⟩ := h.step ht
      obtain ⟨added'', h''⟩ := ih h' hs
      exact ⟨added'', by rwa [List.append_assoc, List.singleton_append] at h''⟩

/-! ### The flattened program -/

/-- The flattened program says what the rows say. `added` are the fresh variables, declared in no
other place, each with the linear instruction that computes it from declared variables; for every
assignment `x` of the declared variables, in every commutative ring:

* the rows hold exactly when some extension makes every expression zero;
* an extension that does so gives each fresh variable what its instruction computes;
* under what the instructions compute, expression `i` is zero exactly when row `i` holds, and the
  others are zero. -/
def CircuitProgram.FlattensTo (prog : CircuitProgram) (prim : PrimitiveProgram) : Prop :=
  ∃ added : List (VarId × LinearCombination),
    prim.vars = prog.vars ++ added.map (fun a => factorVar a.1) ∧
    prim.witnessGen = prog.witnessGen ++ added.map (fun a => .linear a.1 a.2) ∧
    ((added.map Prod.fst).Nodup ∧ ∀ a ∈ added, a.1 ∉ prog.vars.map Var.id ∧
      ∀ v ∈ a.2.vars, v ∈ prog.vars.map Var.id) ∧
    ∀ (R : Type) [CommRing R] (x : VarId → R),
      ((∀ r ∈ prog.constraints, r.Sat x) ↔
        ∃ y : VarId → R, (∀ v ∈ prog.vars.map Var.id, y v = x v) ∧
          ∀ e ∈ prim.constraints, Expression.eval e y = 0) ∧
      ∀ y : VarId → R, (∀ v ∈ prog.vars.map Var.id, y v = x v) →
        ((∀ e ∈ prim.constraints, Expression.eval e y = 0) → ∀ a ∈ added, y a.1 = a.2.eval x) ∧
        ((∀ a ∈ added, y a.1 = a.2.eval x) →
          (∀ (i : ℕ) (r : R1csRow), prog.constraints[i]? = some r →
            ∃ e : Expression, prim.constraints[i]? = some e ∧ (e.eval y = 0 ↔ r.Sat x)) ∧
          ∀ (i : ℕ) (e : Expression), prim.constraints[i]? = some e → prog.constraints.length ≤ i → e.eval y = 0)

/-- A list of pairs with different keys, read as a function. -/
lemma exists_extension {R : Type} (x : VarId → R) {added : List (VarId × LinearCombination)}
    (hnodup : (added.map Prod.fst).Nodup) (val : LinearCombination → R) :
    ∃ y : VarId → R, (∀ v, v ∉ added.map Prod.fst → y v = x v) ∧
      ∀ a ∈ added, y a.1 = val a.2 := by
  induction added with
  | nil => exact ⟨x, fun _ _ => rfl, fun a ha => absurd ha List.not_mem_nil⟩
  | cons a added ih =>
      obtain ⟨hnot, hnodup⟩ := List.nodup_cons.mp hnodup
      obtain ⟨y, hout, hin⟩ := ih hnodup
      refine ⟨Function.update y a.1 (val a.2), fun v hv => ?_, fun b hb => ?_⟩
      · rw [List.map_cons, List.mem_cons, not_or] at hv
        rw [Function.update_of_ne hv.1, hout v hv.2]
      · rcases List.mem_cons.mp hb with rfl | hb
        · rw [Function.update_self]
        · rw [Function.update_of_ne, hin b hb]
          exact ne_of_mem_of_not_mem (List.mem_map_of_mem hb) hnot

/-- What the loop has built at its end flattens the program. -/
lemma Reached.flattens {prog : CircuitProgram} {next₀ : VarId}
    {added : List (VarId × LinearCombination)} {s : Flattening}
    (h : Reached prog next₀ prog.constraints added s) (hdecl : prog.Declared)
    (hfresh : ∀ v ∈ prog.vars, v.id < next₀) (field : PrimitiveField) :
    prog.FlattensTo ⟨field, s.vars, s.constraints ++ s.extra, s.witnessGen⟩ := by
  have hforms : ∀ a ∈ added, ∀ v ∈ a.2.vars, v ∈ prog.vars.map Var.id := by
    intro a ha v hv
    obtain ⟨r, hr, hvars⟩ := h.forms a ha
    exact hdecl r hr v (hvars v hv)
  have hnew : ∀ a ∈ added, a.1 ∉ prog.vars.map Var.id := by
    intro a ha hmem
    obtain ⟨v, hv, he⟩ := List.mem_map.mp hmem
    exact absurd ((hfresh v hv).trans_le (h.ids a ha).1) (he ▸ lt_irrefl _)
  have hlen : prog.constraints.length = s.constraints.length := h.rows.length_eq
  refine ⟨added, h.vars, h.witnessGen, ⟨h.nodup, fun a ha => ⟨hnew a ha, hforms a ha⟩⟩, ?_⟩
  intro R _ x
  -- an extension reads declared variables as `x` does
  have hval : ∀ y : VarId → R, (∀ v ∈ prog.vars.map Var.id, y v = x v) → ∀ a ∈ added,
      a.2.eval y = a.2.eval x := fun y hy a ha =>
    a.2.eval_congr fun v hv => hy v (hforms a ha v hv)
  have hrow : ∀ y : VarId → R, (∀ v ∈ prog.vars.map Var.id, y v = x v) →
      (∀ a ∈ added, y a.1 = a.2.eval x) → ∀ (i : ℕ) (r : R1csRow), prog.constraints[i]? = some r →
        ∃ e : Expression, s.constraints[i]? = some e ∧ (e.eval y = 0 ↔ r.Sat x) := by
    intro y hy hadded i r hr
    obtain ⟨hi, rfl⟩ := List.getElem?_eq_some_iff.mp hr
    have he := (List.forall₂_iff_get.mp h.rows).2 i hi (hlen ▸ hi) R y fun a ha =>
      (hadded a ha).trans (hval y hy a ha).symm
    have hi' : i < s.constraints.length := hlen ▸ hi
    refine ⟨s.constraints[i], List.getElem?_eq_getElem hi', ?_⟩
    have hsat := (prog.constraints[i]).sat_congr (x := y) (y := x) fun v hv =>
      hy v (hdecl _ (List.getElem_mem hi) v hv)
    rw [← hsat, R1csRow.Sat, ← sub_eq_zero (a := _ * _)]
    exact Eq.congr he rfl
  have hextra : ∀ y : VarId → R, (∀ v ∈ prog.vars.map Var.id, y v = x v) →
      ((∀ e ∈ s.extra, e.eval y = 0) ↔ ∀ a ∈ added, y a.1 = a.2.eval x) := by
    intro y hy
    rw [h.extra, List.forall_mem_map]
    refine forall₂_congr fun a ha => ?_
    have hone : LinearCombination.one.eval y = 1 := by simp [LinearCombination.eval, LinearCombination.one]
    rw [eval_exprFromR1cs, hone, mul_one, LinearCombination.eval_ofVar, hval y hy a ha, sub_eq_zero]
    exact eq_comm
  have hall : ∀ y : VarId → R, (∀ v ∈ prog.vars.map Var.id, y v = x v) →
      (∀ a ∈ added, y a.1 = a.2.eval x) →
      ((∀ e ∈ s.constraints, e.eval y = 0) ↔ ∀ r ∈ prog.constraints, r.Sat x) := by
    intro y hy hadded
    constructor
    · intro he r hr
      obtain ⟨i, hi⟩ := List.mem_iff_getElem?.mp hr
      obtain ⟨e, hei, heq⟩ := hrow y hy hadded i r hi
      exact heq.mp (he e (List.mem_of_getElem? hei))
    · intro hr e he
      obtain ⟨i, hi, rfl⟩ := List.mem_iff_getElem.mp he
      have hi' : i < prog.constraints.length := hlen ▸ hi
      have hir : prog.constraints[i]? = some prog.constraints[i] := List.getElem?_eq_getElem hi'
      obtain ⟨e', hei, heq⟩ := hrow y hy hadded i _ hir
      rw [List.getElem?_eq_getElem hi, Option.some.injEq] at hei
      rw [hei]
      exact heq.mpr (hr _ (List.getElem_mem _))
  refine ⟨⟨fun hr => ?_, ?_⟩, fun y hy => ⟨fun he => ?_, fun hadded => ⟨fun i r hr => ?_, ?_⟩⟩⟩
  · obtain ⟨y, hout, hin⟩ := exists_extension x h.nodup fun lc => lc.eval x
    have hy : ∀ v ∈ prog.vars.map Var.id, y v = x v := fun v hv => hout v fun hmem => by
      obtain ⟨a, ha, rfl⟩ := List.mem_map.mp hmem
      exact hnew a ha hv
    refine ⟨y, hy, fun e he => ?_⟩
    rcases List.mem_append.mp he with he | he
    · exact (hall y hy hin).mpr hr e he
    · exact (hextra y hy).mpr hin e he
  · rintro ⟨y, hy, he⟩
    have hadded := (hextra y hy).mp fun e hm => he e (List.mem_append_right _ hm)
    exact (hall y hy hadded).mp fun e hm => he e (List.mem_append_left _ hm)
  · exact (hextra y hy).mp fun e hm => he e (List.mem_append_right _ hm)
  · obtain ⟨e, hei, heq⟩ := hrow y hy hadded i r hr
    obtain ⟨hi, -⟩ := List.getElem?_eq_some_iff.mp hei
    exact ⟨e, (List.getElem?_append_left hi).trans hei, heq⟩
  · intro i e hi hle
    rw [List.getElem?_append_right (hlen ▸ hle)] at hi
    exact (hextra y hy).mpr hadded e (List.mem_of_getElem? hi)

/-- **Flattening preserves the accepted witnesses** of a program whose rows mention declared
variables only, exactly when the ids of the fresh variables fit in a `u32`. -/
theorem to_primitive_flattens (prog : CircuitProgram) (hdecl : prog.Declared) :
    (∃ prim, prog.toPrimitive = .ok prim ∧ prog.FlattensTo prim) ↔ prog.FreshFit := by
  rw [← toPrimitive_ok_iff hdecl]
  refine exists_congr fun prim => and_iff_left_of_imp fun hprim => ?_
  rw [CircuitProgram.toPrimitive] at hprim
  obtain ⟨next, hnext, hprim⟩ := bind_eq_ok.mp hprim
  obtain ⟨s, hs, hprim⟩ := bind_eq_ok.mp hprim
  cases hprim
  have hstart : Reached prog next [] [] ⟨next, prog.vars, prog.witnessGen, [], []⟩ :=
    ⟨by simp, by simp, rfl, fun a ha => absurd ha List.not_mem_nil, le_rfl, List.nodup_nil,
      fun a ha => absurd ha List.not_mem_nil, .nil⟩
  obtain ⟨added, hreached⟩ := hstart.run hs
  refine Reached.flattens hreached hdecl (fun v hv => ?_) _
  exact Fin.lt_def.mpr ((nextId_eq_ok hnext).1 v hv)

/-- A row `l · l = 0` whose side is a variable written 65 times. -/
def bigRow (v : VarId) : R1csRow :=
  ⟨⟨0, List.replicate 65 ⟨1, v⟩⟩, ⟨0, List.replicate 65 ⟨1, v⟩⟩, .zero, none⟩

/-- Two such rows, and a variable two below the last id. -/
def crowdedIds : CircuitProgram where
  field := ⟨"seven", some "7"⟩
  vars := [⟨0, "x", .privateInput⟩, ⟨4294967294, "v4294967294", .derived⟩]
  constraints := [bigRow 0, bigRow 0]
  witnessGen := []

/-- The same rows over one variable. -/
def factoredTwice : CircuitProgram where
  field := ⟨"seven", some "7"⟩
  vars := [⟨0, "x", .privateInput⟩]
  constraints := [bigRow 0, bigRow 0]
  witnessGen := []

lemma declared_bigRow {vars : List Var} (h : 0 ∈ vars.map Var.id) :
    ∀ r ∈ [bigRow 0, bigRow 0], ∀ v ∈ r.vars, v ∈ vars.map Var.id := by
  intro r hr v hv
  have hrow : r = bigRow 0 := by simpa using hr
  have hv : v = 0 := by
    simpa [hrow, bigRow, R1csRow.vars, LinearCombination.vars, LinearCombination.zero] using hv
  rwa [hv]

/-- **The ids run out**: the first fresh variable takes the last id, and the next one overflows. -/
theorem to_primitive_overflows : crowdedIds.Declared ∧
    ¬∃ prim, crowdedIds.toPrimitive = .ok prim ∧ crowdedIds.FlattensTo prim := by
  refine ⟨declared_bigRow (by simp [crowdedIds]), ?_⟩
  rintro ⟨prim, hprim, -⟩
  have hpanic : crowdedIds.toPrimitive = .error .panic := by decide +kernel
  rw [hpanic] at hprim
  cases hprim

theorem to_primitive_flattens_factoredTwice :
    ∃ prim, factoredTwice.toPrimitive = .ok prim ∧ factoredTwice.FlattensTo prim :=
  (to_primitive_flattens factoredTwice (declared_bigRow (by simp [factoredTwice]))).mpr
    (by unfold CircuitProgram.FreshFit; decide +kernel)

end XarkCircuit
