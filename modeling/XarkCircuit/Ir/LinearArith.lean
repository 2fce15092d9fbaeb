import XarkCircuit.Ir.LinearCombination
import Mathlib.Tactic.Abel

/-!
Arithmetic of linear combinations (`impl Add`, `Sub`, `Neg`, and `scale`).

* `add` of two canonical sums merges them; `add_canonical` says that the result is canonical on every
  path, `eval_add` that its value is the sum.
* `neg`, `sub` and `scale` follow. `mem_vars_add` and its like say that no variable is new.
-/

namespace XarkCircuit

namespace LinearCombination

/-- A bare constant. -/
def ofConst (c : FieldConst) : LinearCombination := ⟨c, []⟩

/-- Is this exactly the constant zero? -/
def isZero (l : LinearCombination) : Bool := l.terms.isEmpty && l.constant = 0

/-- The merge loop of `add` with `x` next on the left and `as` behind it, `rest` merging `as` with
what is left on the right. -/
def mergeNext (x : Term) (as : List Term) (rest : List Term → List Term) : List Term → List Term
  | [] => x :: as
  | y :: bs =>
      if x.var = y.var then
        if x.coeff + y.coeff = 0 then rest bs else ⟨x.coeff + y.coeff, x.var⟩ :: rest bs
      else if x.var < y.var then x :: rest (y :: bs)
      else y :: mergeNext x as rest bs

/-- The merge loop of `add`. -/
def mergeTerms : List Term → List Term → List Term
  | [] => fun bs => bs
  | x :: as => mergeNext x as (mergeTerms as)

/-- The terms of a sum of canonical combinations: side by side where they do not interleave. -/
def addTerms (as bs : List Term) : List Term :=
  match as.getLast?, bs.head? with
  | _, none => as
  | none, _ => bs
  | some l, some f => if l.var < f.var then as ++ bs else mergeTerms as bs

/-- `impl Add`. -/
def add (a b : LinearCombination) : LinearCombination :=
  if Canonical a.terms ∧ Canonical b.terms then
    ⟨a.constant + b.constant, addTerms a.terms b.terms⟩
  else simplified ⟨a.constant + b.constant, a.terms ++ b.terms⟩

instance : Add LinearCombination := ⟨add⟩

/-- `impl Neg`. -/
def neg (a : LinearCombination) : LinearCombination :=
  ⟨-a.constant, a.terms.map fun t => ⟨-t.coeff, t.var⟩⟩

instance : Neg LinearCombination := ⟨neg⟩

/-- `impl Sub`. -/
def sub (a b : LinearCombination) : LinearCombination := a + -b

instance : Sub LinearCombination := ⟨sub⟩

/-- `c · l`. -/
def scale (l : LinearCombination) (c : FieldConst) : LinearCombination :=
  simplified ⟨l.constant * c, l.terms.map fun t => ⟨t.coeff * c, t.var⟩⟩

/-! ### Values -/

section Eval

variable {R : Type*} [CommRing R] (x : VarId → R)

lemma evalTerms_mergeTerms (as bs : List Term) :
    evalTerms (mergeTerms as bs) x = evalTerms as x + evalTerms bs x := by
  induction as generalizing bs with
  | nil => simp [mergeTerms]
  | cons u as ih =>
      rw [mergeTerms]
      induction bs with
      | nil => simp [mergeNext]
      | cons w bs ihb =>
          rw [mergeNext]
          split_ifs with hvar hzero hlt
          · have hcancel : (u.coeff : R) * x u.var + (w.coeff : R) * x w.var = 0 := by
              rw [hvar, ← add_mul, ← Int.cast_add, hzero, Int.cast_zero, zero_mul]
            rw [ih, evalTerms_cons, evalTerms_cons]
            linear_combination -hcancel
          · rw [evalTerms_cons, ih, evalTerms_cons, evalTerms_cons, hvar]
            push_cast
            ring
          · rw [evalTerms_cons, ih, evalTerms_cons, evalTerms_cons]
            ring
          · rw [evalTerms_cons, ihb, evalTerms_cons, evalTerms_cons]
            ring

lemma evalTerms_addTerms (as bs : List Term) :
    evalTerms (addTerms as bs) x = evalTerms as x + evalTerms bs x := by
  rw [addTerms]
  split
  · rename_i h
    rw [List.head?_eq_none_iff.mp h, evalTerms_nil, add_zero]
  · rename_i h _
    rw [List.getLast?_eq_none_iff.mp h, evalTerms_nil, zero_add]
  · split_ifs
    · exact evalTerms_append as bs x
    · exact evalTerms_mergeTerms x as bs

/-- **Addition adds the values.** -/
@[simp] theorem eval_add (a b : LinearCombination) : (a + b).eval x = a.eval x + b.eval x := by
  show (add a b).eval x = _
  rw [add]
  split_ifs
  · simp only [eval, evalTerms_addTerms]
    push_cast
    ring
  · rw [eval_simplified]
    simp only [eval, evalTerms_append]
    push_cast
    ring

lemma evalTerms_map_mul (ts : List Term) (c : FieldConst) :
    evalTerms (ts.map fun t => ⟨t.coeff * c, t.var⟩) x = evalTerms ts x * c := by
  induction ts with
  | nil => simp
  | cons t ts ih =>
      rw [List.map_cons, evalTerms_cons, evalTerms_cons, ih]
      push_cast
      ring

@[simp] lemma eval_neg (a : LinearCombination) : (-a).eval x = -a.eval x := by
  show (neg a).eval x = _
  have hterms : (neg a).terms = a.terms.map fun t => ⟨t.coeff * -1, t.var⟩ := by simp [neg]
  rw [eval, hterms, evalTerms_map_mul, eval, neg]
  push_cast
  ring

@[simp] lemma eval_sub (a b : LinearCombination) : (a - b).eval x = a.eval x - b.eval x := by
  show (a + -b).eval x = _
  rw [eval_add, eval_neg, sub_eq_add_neg]

@[simp] lemma eval_scale (a : LinearCombination) (c : FieldConst) :
    (a.scale c).eval x = a.eval x * c := by
  rw [scale, eval_simplified, eval, eval, evalTerms_map_mul]
  push_cast
  ring

@[simp] lemma eval_ofConst (c : FieldConst) : (ofConst c).eval x = c := by simp [eval, ofConst]

@[simp] lemma eval_zero : (zero).eval x = 0 := by simp [eval, zero]

@[simp] lemma eval_one : (one).eval x = 1 := by simp [eval, one]

lemma eval_of_isZero {l : LinearCombination} (h : l.isZero) : l.eval x = 0 := by
  rw [isZero, Bool.and_eq_true, List.isEmpty_iff, decide_eq_true_eq] at h
  rw [eval, h.1, h.2]
  simp

end Eval

/-! ### Variables -/

lemma mem_mergeTerms {as bs : List Term} {t : Term} (h : t ∈ mergeTerms as bs) :
    t.var ∈ as.map Term.var ∨ t.var ∈ bs.map Term.var := by
  induction as generalizing bs with
  | nil => exact Or.inr (List.mem_map_of_mem h)
  | cons u as ih =>
      have htail : ∀ {cs : List Term}, t ∈ mergeTerms as cs →
          t.var ∈ (u :: as).map Term.var ∨ t.var ∈ cs.map Term.var :=
        fun ht => (ih ht).imp_left (List.mem_cons_of_mem _)
      rw [mergeTerms] at h
      induction bs with
      | nil => exact Or.inl (List.mem_map_of_mem h)
      | cons w bs ihb =>
          rw [mergeNext] at h
          split_ifs at h with hvar hzero hlt
          · exact (htail h).imp_right (List.mem_cons_of_mem _)
          · rcases List.mem_cons.mp h with rfl | h
            · exact Or.inl List.mem_cons_self
            · exact (htail h).imp_right (List.mem_cons_of_mem _)
          · rcases List.mem_cons.mp h with rfl | h
            · exact Or.inl List.mem_cons_self
            · exact htail h
          · rcases List.mem_cons.mp h with rfl | h
            · exact Or.inr List.mem_cons_self
            · exact (ihb h).imp_right (List.mem_cons_of_mem _)

lemma mem_addTerms {as bs : List Term} {t : Term} (h : t ∈ addTerms as bs) :
    t.var ∈ as.map Term.var ∨ t.var ∈ bs.map Term.var := by
  rw [addTerms] at h
  split at h
  · exact Or.inl (List.mem_map_of_mem h)
  · exact Or.inr (List.mem_map_of_mem h)
  · split_ifs at h
    · exact (List.mem_append.mp h).imp List.mem_map_of_mem List.mem_map_of_mem
    · exact mem_mergeTerms h

/-- A sum has no new variable. -/
lemma mem_vars_add {a b : LinearCombination} {v : VarId} (h : v ∈ (a + b).vars) :
    v ∈ a.vars ∨ v ∈ b.vars := by
  change v ∈ (add a b).vars at h
  rw [add] at h
  split_ifs at h
  · obtain ⟨t, ht, rfl⟩ := List.mem_map.mp h
    exact mem_addTerms ht
  · have h' := mem_vars_simplified h
    rw [vars, List.map_append] at h'
    exact List.mem_append.mp h'

@[simp] lemma vars_neg (a : LinearCombination) : (-a).vars = a.vars := by
  show (neg a).vars = _
  simp [neg, vars, Function.comp_def]

lemma mem_vars_sub {a b : LinearCombination} {v : VarId} (h : v ∈ (a - b).vars) :
    v ∈ a.vars ∨ v ∈ b.vars := by
  have h' : v ∈ a.vars ∨ v ∈ (-b).vars := mem_vars_add h
  rwa [vars_neg] at h'

lemma mem_vars_scale {a : LinearCombination} {c : FieldConst} {v : VarId}
    (h : v ∈ (a.scale c).vars) : v ∈ a.vars := by
  have h' := mem_vars_simplified h
  simpa [vars, Function.comp_def] using h'

/-! ### Canonical form -/

lemma canonical_nil : Canonical [] := ⟨List.Pairwise.nil, by simp⟩

lemma canonical_ofVar (v : VarId) : Canonical (ofVar v).terms :=
  ⟨List.pairwise_singleton _ _, by simp [ofVar]⟩

lemma Canonical.tail {t : Term} {ts : List Term} (h : Canonical (t :: ts)) : Canonical ts :=
  ⟨(List.pairwise_cons.mp h.1).2, fun u hu => h.2 u (List.mem_cons_of_mem _ hu)⟩

lemma Canonical.lt {t : Term} {ts : List Term} (h : Canonical (t :: ts)) {v : VarId}
    (hv : v ∈ ts.map Term.var) : t.var < v := by
  obtain ⟨u, hu, rfl⟩ := List.mem_map.mp hv
  exact (List.pairwise_cons.mp h.1).1 u hu

lemma Canonical.cons {t : Term} {ts : List Term} (hts : Canonical ts) (ht : t.coeff ≠ 0)
    (hlt : ∀ u ∈ ts, t.var < u.var) : Canonical (t :: ts) := by
  refine ⟨List.pairwise_cons.mpr ⟨hlt, hts.1⟩, fun u hu => ?_⟩
  rcases List.mem_cons.mp hu with rfl | hu
  · exact ht
  · exact hts.2 u hu

lemma canonical_mergeTerms {as bs : List Term} (ha : Canonical as) (hb : Canonical bs) :
    Canonical (mergeTerms as bs) := by
  induction as generalizing bs with
  | nil => exact hb
  | cons u as ih =>
      rw [mergeTerms]
      induction bs with
      | nil => exact ha
      | cons w bs ihb =>
          rw [mergeNext]
          split_ifs with hvar hzero hlt
          · exact ih ha.tail hb.tail
          · refine (ih ha.tail hb.tail).cons hzero fun t ht => ?_
            rcases mem_mergeTerms ht with ht | ht
            · exact ha.lt ht
            · rw [hvar]
              exact hb.lt ht
          · refine (ih ha.tail hb).cons (ha.2 u List.mem_cons_self) fun t ht => ?_
            rcases mem_mergeTerms ht with ht | ht
            · exact ha.lt ht
            · rcases List.mem_cons.mp ht with ht | ht
              · exact ht ▸ hlt
              · exact hlt.trans (hb.lt ht)
          · have hwu : w.var < u.var := lt_of_le_of_ne (not_lt.mp hlt) (Ne.symm hvar)
            refine (ihb hb.tail).cons (hb.2 w List.mem_cons_self) fun t ht => ?_
            have hmem : t.var ∈ (u :: as).map Term.var ∨ t.var ∈ bs.map Term.var :=
              mem_mergeTerms ht
            rcases hmem with ht | ht
            · rcases List.mem_cons.mp ht with ht | ht
              · exact ht ▸ hwu
              · exact hwu.trans (ha.lt ht)
            · exact hb.lt ht

lemma canonical_addTerms {as bs : List Term} (ha : Canonical as) (hb : Canonical bs) :
    Canonical (addTerms as bs) := by
  rw [addTerms]
  split
  · exact ha
  · exact hb
  · rename_i l f hl hf
    split_ifs with hlt
    · -- everything on the left is at most its last variable, everything on the right at least its
      -- first
      have hle : ∀ t ∈ as, t.var ≤ l.var := by
        obtain ⟨init, rfl⟩ := List.getLast?_eq_some_iff.mp hl
        intro t ht
        rcases List.mem_append.mp ht with ht | ht
        · exact ((List.pairwise_append.mp ha.1).2.2 t ht l (List.mem_singleton_self l)).le
        · rw [List.mem_singleton.mp ht]
      have hge : ∀ t ∈ bs, f.var ≤ t.var := by
        cases bs with
        | nil => exact absurd hf (by simp)
        | cons f' bs =>
            obtain rfl := Option.some.inj hf
            intro t ht
            rcases List.mem_cons.mp ht with rfl | ht
            · exact le_rfl
            · exact (hb.lt (List.mem_map_of_mem ht)).le
      refine ⟨List.pairwise_append.mpr ⟨ha.1, hb.1, fun s hs t ht => ?_⟩, fun t ht => ?_⟩
      · exact (hle s hs).trans_lt (hlt.trans_le (hge t ht))
      · exact (List.mem_append.mp ht).elim (ha.2 t) (hb.2 t)
    · exact canonical_mergeTerms ha hb

/-- **A sum is canonical** on every path. -/
theorem canonical_add (a b : LinearCombination) : Canonical (a + b).terms := by
  show Canonical (add a b).terms
  rw [add]
  split_ifs with h
  · exact canonical_addTerms h.1 h.2
  · exact canonical_simplified _

lemma canonical_sub (a b : LinearCombination) : Canonical (a - b).terms := canonical_add a (-b)

lemma canonical_scale (a : LinearCombination) (c : FieldConst) : Canonical (a.scale c).terms :=
  canonical_simplified _

/-- A canonical combination that does not depend on `v` does not mention it. -/
lemma not_mem_vars_of_eval {l : LinearCombination} (hl : Canonical l.terms) {v : VarId}
    (h : l.eval (Function.update (0 : VarId → ℤ) v 1) = l.eval (0 : VarId → ℤ)) : v ∉ l.vars := by
  have hzero : ∀ ts : List Term, evalTerms ts (0 : VarId → ℤ) = 0 := by
    intro ts
    induction ts with
    | nil => rfl
    | cons t ts ih => rw [evalTerms_cons, ih]; simp
  have hcoeff : ∀ ts : List Term, Canonical ts → v ∈ ts.map Term.var →
      evalTerms ts (Function.update (0 : VarId → ℤ) v 1) ≠ 0 := by
    intro ts
    induction ts with
    | nil => exact fun _ hv => absurd hv List.not_mem_nil
    | cons t ts ih =>
        intro hts hv
        rw [evalTerms_cons]
        by_cases htv : t.var = v
        · -- the other terms are at other variables
          have hrest : evalTerms ts (Function.update (0 : VarId → ℤ) v 1) = 0 := by
            rw [← hzero ts]
            refine congrArg List.sum (List.map_congr_left fun u hu => ?_)
            have huv : u.var ≠ v := fun he =>
              (hts.lt (List.mem_map_of_mem hu)).ne (htv.trans he.symm)
            rw [Function.update_of_ne huv]
          rw [hrest, htv, Function.update_self]
          simpa using hts.2 t List.mem_cons_self
        · rw [Function.update_of_ne htv]
          have hv' := (List.mem_cons.mp hv).resolve_left (Ne.symm htv)
          simpa using ih hts.tail hv'
  intro hv
  refine hcoeff l.terms hl hv ?_
  rw [eval, eval, hzero] at h
  simpa using h

end LinearCombination

end XarkCircuit
