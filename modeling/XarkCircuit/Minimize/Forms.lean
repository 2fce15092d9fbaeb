import XarkCircuit.Minimize.Model

/-!
What the form operations of the minimizer do to values and variables.

* `Lc.eval_ofIr`, `Lc.eval_scale`, `Lc.eval_sub`, `Lc.eval_toIr`: the values.
* `relation_sat`: a row with a relation holds exactly where the relation is zero, and
  `replacement_eval` solves that for the variable that is replaced.
* `substRow`: a row with `v` replaced, and its two facts: `substRow_sat` (same truth wherever `v`
  has the replacement's value) and `mem_vars_substRow` (`v` is gone, and what is new comes from
  the replacement); `mem_newVars` says that what is new is reported to the index.
-/

namespace XarkCircuit.Minimize

variable {F : Type*} [Field F] [DecidableEq F]

/-- The value of a form. -/
def Lc.eval (l : Lc F) (x : VarId → F) : F := l.k + l.t.eval x

/-- The row holds under `x`. -/
def Row.Sat (x : VarId → F) (r : Row F) : Prop := r.a.eval x * r.b.eval x = r.c.eval x

omit [DecidableEq F] in
lemma Row.mem_vars {r : Row F} {v : VarId} :
    v ∈ r.vars ↔ v ∈ r.a.t.vars ∨ v ∈ r.b.t.vars ∨ v ∈ r.c.t.vars := by
  rw [Row.vars, List.mem_append, List.mem_append, or_assoc]

namespace Lc

omit [DecidableEq F] in
lemma eval_congr (l : Lc F) {x y : VarId → F} (h : ∀ v ∈ l.t.vars, x v = y v) :
    l.eval x = l.eval y := by rw [eval, eval, l.t.eval_congr h]

omit [DecidableEq F] in
lemma eval_of_isConst {l : Lc F} (h : l.isConst) (x : VarId → F) : l.eval x = l.k := by
  rw [eval, SparseForm.eval_of_vars_eq_nil (List.isEmpty_iff.mp h), add_zero]

@[simp] lemma eval_scale (l : Lc F) (m : F) (x : VarId → F) :
    (l.scale m).eval x = m * l.eval x := by
  simp only [eval, scale, SparseForm.eval_scale]
  ring

@[simp] lemma eval_sub (l r : Lc F) (x : VarId → F) :
    (l.sub r).eval x = l.eval x - r.eval x := by
  simp only [eval, sub, SparseForm.eval_axpy]
  ring

/-- A program form and its reduction have the same value. -/
@[simp] lemma eval_ofIr (lc : LinearCombination) (x : VarId → F) :
    (ofIr lc).eval x = lc.eval x := by
  have key : ∀ (ts : List Term) (t : SparseForm VarId F),
      (ts.foldl (fun t term => if (term.coeff : F) = 0 then t
        else t.addAt term.var term.coeff) t).eval x
        = t.eval x + LinearCombination.evalTerms ts x := by
    intro ts
    induction ts with
    | nil => simp
    | cons term ts ih =>
        intro t
        rw [List.foldl_cons, ih, LinearCombination.evalTerms_cons]
        split_ifs with h
        · rw [h]; ring
        · rw [SparseForm.eval_addAt]; ring
  simp only [eval, ofIr, key, SparseForm.eval_empty, zero_add, LinearCombination.eval]

/-- The reduction mentions no new variable. -/
lemma mem_vars_ofIr {lc : LinearCombination} {v : VarId} (h : v ∈ (ofIr lc : Lc F).t.vars) :
    v ∈ lc.vars := by
  have key : ∀ (ts : List Term) (t : SparseForm VarId F),
      v ∈ (ts.foldl (fun t term => if (term.coeff : F) = 0 then t
        else t.addAt term.var term.coeff) t).vars → v ∈ t.vars ∨ v ∈ ts.map Term.var := by
    intro ts
    induction ts with
    | nil => exact fun t h => Or.inl h
    | cons term ts ih =>
        intro t h
        rcases ih _ h with h | h
        · dsimp only at h
          split_ifs at h
          · exact Or.inl h
          · rcases SparseForm.mem_vars_addAt h with rfl | h
            · exact Or.inr List.mem_cons_self
            · exact Or.inl h
        · exact Or.inr (List.mem_cons_of_mem _ h)
  rcases key _ _ h with h | h
  · simp [SparseForm.vars, SparseForm.empty] at h
  · exact h

omit [DecidableEq F] in
/-- Taking out the variable `v`, which has coefficient `m`. -/
lemma eval_erase {l : Lc F} {v : VarId} {m : F} (h : l.t.get? v = some m) (x : VarId → F) :
    l.eval x = l.k + (l.t.erase v).eval x + m * x v := by
  rw [eval, SparseForm.eval_erase h, add_assoc]

end Lc

omit [DecidableEq F] in
/-- Whether a row holds depends on its variables only. -/
lemma Row.sat_congr (r : Row F) {x y : VarId → F} (h : ∀ v ∈ r.vars, x v = y v) :
    r.Sat x ↔ r.Sat y := by
  rw [Row.Sat, Row.Sat, r.a.eval_congr fun v hv => h v (Row.mem_vars.mpr (.inl hv)),
    r.b.eval_congr fun v hv => h v (Row.mem_vars.mpr (.inr (.inl hv))),
    r.c.eval_congr fun v hv => h v (Row.mem_vars.mpr (.inr (.inr hv)))]

/-! ### The relation of a row -/

/-- A row with a relation holds exactly where the relation is zero. -/
lemma relation_sat {c : Row F} {rel : Lc F} (h : relation c = some rel) (x : VarId → F) :
    c.Sat x ↔ rel.eval x = 0 := by
  unfold relation at h
  split_ifs at h with ha hb
  · rw [← Option.some.inj h, Lc.eval_sub, Lc.eval_scale, Row.Sat, Lc.eval_of_isConst ha, sub_eq_zero]
  · rw [← Option.some.inj h, Lc.eval_sub, Lc.eval_scale, Row.Sat, Lc.eval_of_isConst hb,
      sub_eq_zero, mul_comm]

/-- The relation mentions only the row's variables. -/
lemma mem_vars_relation {c : Row F} {rel : Lc F} (h : relation c = some rel) {v : VarId}
    (hv : v ∈ rel.t.vars) : v ∈ c.vars := by
  rw [Row.mem_vars]
  unfold relation at h
  split_ifs at h with ha hb
  · rw [← Option.some.inj h] at hv
    rcases SparseForm.mem_vars_axpy hv with hv | hv
    · exact .inr (.inl (SparseForm.mem_vars_scale hv))
    · exact .inr (.inr hv)
  · rw [← Option.some.inj h] at hv
    rcases SparseForm.mem_vars_axpy hv with hv | hv
    · exact .inl (SparseForm.mem_vars_scale hv)
    · exact .inr (.inr hv)

/-- The relation is zero exactly where `v` has the value of its replacement. -/
lemma replacement_eval {rel : Lc F} {v : VarId} {m : F} (h : rel.t.get? v = some m)
    (x : VarId → F) : rel.eval x = 0 ↔ x v = (replacement rel v m).eval x := by
  have hm : m ≠ 0 := rel.t.nonzero _ (SparseForm.get?_eq_some.mp h)
  have hrep : (replacement rel v m).eval x = -m⁻¹ * (rel.k + (rel.t.erase v).eval x) := by
    rw [replacement, Lc.eval_scale, Lc.eval]
  rw [hrep, Lc.eval_erase h]
  have hinv : m * m⁻¹ = 1 := mul_inv_cancel₀ hm
  constructor
  · intro h0
    linear_combination m⁻¹ * h0 - x v * hinv
  · intro hv
    linear_combination m * hv - (rel.k + (rel.t.erase v).eval x) * hinv

/-- The replacement of `v` reads the other variables of the relation. -/
lemma mem_vars_replacement {rel : Lc F} {v u : VarId} {m : F}
    (h : u ∈ (replacement rel v m).t.vars) : u ∈ rel.t.vars ∧ u ≠ v :=
  SparseForm.mem_vars_erase.mp (SparseForm.mem_vars_scale h)

/-! ### One row with a variable replaced -/

/-- The form with `v` replaced. -/
def substLc (v : VarId) (vlc lc : Lc F) : Lc F := ((substForm lc v vlc).map Prod.fst).getD lc

/-- The variables the replacement brings into a form. -/
def newVars (v : VarId) (vlc lc : Lc F) : List VarId :=
  ((substForm lc v vlc).map Prod.snd).getD []

/-- The row with `v` replaced in each form. -/
def substRow (v : VarId) (vlc : Lc F) (r : Row F) : Row F :=
  ⟨substLc v vlc r.a, substLc v vlc r.b, substLc v vlc r.c⟩

/-- The variables the replacement brings into the forms of a row. -/
def newRowVars (v : VarId) (vlc : Lc F) (r : Row F) : List VarId :=
  newVars v vlc r.a ++ newVars v vlc r.b ++ newVars v vlc r.c

lemma substForm_eq_none {lc vlc : Lc F} {v : VarId} :
    substForm lc v vlc = none ↔ v ∉ lc.t.vars := by
  rw [substForm, Option.map_eq_none_iff, SparseForm.get?_eq_none]

lemma substLc_of_notMem {lc vlc : Lc F} {v : VarId} (h : v ∉ lc.t.vars) :
    substLc v vlc lc = lc := by
  rw [substLc, substForm_eq_none.mpr h]; rfl

/-- Where `v` has the value of its replacement, replacing it keeps the value. -/
lemma eval_substLc (lc : Lc F) {vlc : Lc F} {v : VarId} {x : VarId → F} (hx : x v = vlc.eval x) :
    (substLc v vlc lc).eval x = lc.eval x := by
  cases h : lc.t.get? v with
  | none => rw [substLc_of_notMem (SparseForm.get?_eq_none.mp h)]
  | some m =>
      have hs : substLc v vlc lc = ⟨lc.k + m * vlc.k, (lc.t.erase v).axpy m vlc.t⟩ := by
        rw [substLc, substForm, h]; rfl
      rw [hs, Lc.eval_erase h, hx]
      simp only [Lc.eval, SparseForm.eval_axpy]
      ring

/-- After the replacement, `v` is gone and the rest was there or comes from the replacement. -/
lemma mem_vars_substLc {lc vlc : Lc F} {v u : VarId} (hv : v ∉ vlc.t.vars)
    (hu : u ∈ (substLc v vlc lc).t.vars) :
    u ≠ v ∧ (u ∈ lc.t.vars ∨ u ∈ vlc.t.vars ∧ u ∈ newVars v vlc lc) := by
  cases h : lc.t.get? v with
  | none =>
      have hn := SparseForm.get?_eq_none.mp h
      rw [substLc_of_notMem hn] at hu
      exact ⟨fun e => hn (e ▸ hu), .inl hu⟩
  | some m =>
      have hs : substLc v vlc lc = ⟨lc.k + m * vlc.k, (lc.t.erase v).axpy m vlc.t⟩ := by
        rw [substLc, substForm, h]; rfl
      have hnew : newVars v vlc lc = vlc.t.vars.filter fun u => u ∉ (lc.t.erase v).vars := by
        rw [newVars, substForm, h]; rfl
      rw [hs] at hu
      by_cases hold : u ∈ (lc.t.erase v).vars
      · obtain ⟨hl, hne⟩ := SparseForm.mem_vars_erase.mp hold
        exact ⟨hne, .inl hl⟩
      · rcases SparseForm.mem_vars_axpy hu with hu | hu
        · exact absurd hu hold
        · refine ⟨fun e => hv (e ▸ hu), .inr ⟨hu, ?_⟩⟩
          rw [hnew]
          exact List.mem_filter.mpr ⟨hu, by simpa using hold⟩

/-- A row without `v` is left alone by `substSite`. -/
lemma substSite_eq_none {r : Row F} {vlc : Lc F} {v : VarId} :
    substSite r v vlc = none ↔ v ∉ r.vars := by
  rw [Row.mem_vars, substSite]
  simp only [Option.isNone_iff_eq_none, substForm_eq_none, not_or]
  split_ifs with h <;> simp_all

/-- A row with `v` becomes the row with `v` replaced. -/
lemma substSite_eq_some {r : Row F} {vlc : Lc F} {v : VarId} (h : v ∈ r.vars) :
    substSite r v vlc = some (substRow v vlc r, newRowVars v vlc r) := by
  have hn : ¬substSite r v vlc = none := fun e => substSite_eq_none.mp e h
  rw [substSite] at hn ⊢
  split_ifs at hn ⊢ with hc
  · exact absurd rfl hn
  · rfl

lemma substRow_of_notMem {r : Row F} {vlc : Lc F} {v : VarId} (h : v ∉ r.vars) :
    substRow v vlc r = r := by
  rw [Row.mem_vars, not_or, not_or] at h
  rw [substRow, substLc_of_notMem h.1, substLc_of_notMem h.2.1, substLc_of_notMem h.2.2]

/-- Where `v` has the value of its replacement, the row says the same with `v` replaced. -/
lemma substRow_sat (r : Row F) {vlc : Lc F} {v : VarId} {x : VarId → F} (hx : x v = vlc.eval x) :
    (substRow v vlc r).Sat x ↔ r.Sat x := by
  simp only [Row.Sat, substRow, eval_substLc _ hx]

/-- The variables of a row with `v` replaced: never `v`, and anything new comes from the
replacement and is reported. -/
lemma mem_vars_substRow {r : Row F} {vlc : Lc F} {v u : VarId} (hv : v ∉ vlc.t.vars)
    (hu : u ∈ (substRow v vlc r).vars) :
    u ≠ v ∧ (u ∈ r.vars ∨ u ∈ vlc.t.vars ∧ u ∈ newRowVars v vlc r) := by
  simp only [newRowVars, List.mem_append]
  rcases Row.mem_vars.mp hu with hu | hu | hu
  · obtain ⟨hne, h | h⟩ := mem_vars_substLc hv hu
    · exact ⟨hne, .inl (Row.mem_vars.mpr (.inl h))⟩
    · exact ⟨hne, .inr ⟨h.1, .inl (.inl h.2)⟩⟩
  · obtain ⟨hne, h | h⟩ := mem_vars_substLc hv hu
    · exact ⟨hne, .inl (Row.mem_vars.mpr (.inr (.inl h)))⟩
    · exact ⟨hne, .inr ⟨h.1, .inl (.inr h.2)⟩⟩
  · obtain ⟨hne, h | h⟩ := mem_vars_substLc hv hu
    · exact ⟨hne, .inl (Row.mem_vars.mpr (.inr (.inr h)))⟩
    · exact ⟨hne, .inr ⟨h.1, .inr h.2⟩⟩

/-! ### To and from the program's rows -/

@[simp] lemma Row.sat_ofIr (k : R1csConstraint) (x : VarId → F) :
    (Row.ofIr k : Row F).Sat x ↔ k.row.Sat x := by
  simp only [Row.Sat, Row.ofIr, Lc.eval_ofIr, R1csRow.Sat, R1csConstraint.row]

lemma Row.mem_vars_ofIr {k : R1csConstraint} {v : VarId} (h : v ∈ (Row.ofIr k : Row F).vars) :
    v ∈ k.row.vars := by
  rw [R1csRow.mem_vars]
  exact (Row.mem_vars.mp h).imp Lc.mem_vars_ofIr (Or.imp Lc.mem_vars_ofIr Lc.mem_vars_ofIr)

section Prime

variable (p : ℕ) [Fact p.Prime]

/-- The canonical representatives stand for the same field elements. -/
@[simp] lemma Lc.eval_toIr (l : Lc (ZMod p)) (x : VarId → ZMod p) :
    (l.toIr p).eval x = l.eval x := by
  have hval : ∀ c : ZMod p, (((c.val : ℕ) : ℤ) : ZMod p) = c := fun c => by
    rw [Int.cast_natCast, ZMod.natCast_val, ZMod.cast_id]
  simp only [Lc.toIr, LinearCombination.eval, hval, Lc.eval, SparseForm.eval,
    SparseForm.evalEntries, LinearCombination.evalTerms, List.map_map]
  refine congrArg _ (congrArg List.sum (List.map_congr_left fun e _ => ?_))
  simp only [Function.comp_apply, hval]

@[simp] lemma Lc.vars_toIr (l : Lc (ZMod p)) : (l.toIr p).vars = l.t.vars := by
  simp only [Lc.toIr, LinearCombination.vars, SparseForm.vars, List.map_map]
  rfl

@[simp] lemma Row.sat_toIr (id : ℕ) (r : Row (ZMod p)) (x : VarId → ZMod p) :
    (r.toIr p id).row.Sat x ↔ r.Sat x := by
  simp only [Row.Sat, Row.toIr, Lc.eval_toIr, R1csRow.Sat, R1csConstraint.row]

@[simp] lemma Row.vars_toIr (id : ℕ) (r : Row (ZMod p)) : (r.toIr p id).row.vars = r.vars := by
  simp only [Row.toIr, R1csConstraint.row, R1csRow.vars, Lc.vars_toIr, Row.vars]

end Prime

end XarkCircuit.Minimize
