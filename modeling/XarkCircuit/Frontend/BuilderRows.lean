import XarkCircuit.Frontend.BuilderSat

/-!
Variables, rows, products and equalities of the builder.

* `Sound.alloc`, `Sound.pushConstraint` and `sat_pushConstraint`: the steps.
* `emitMulVar_spec`: the output is the product, whether the row is new or an older one is reused.
* `emitRequireEq_spec`: the two sides are equal, whether a row is new, merged or left out.
-/

namespace XarkCircuit

open Verifier (rModulus)

namespace Frontend

open LinearCombination Emission Emission.Emitter

namespace Builder

variable {b b' : Builder} {l r o : LinearCombination}

/-! ### Hints of one variable -/

section Hints

variable (fakeGlv : FakeGlv)

/-- A new variable can be given any value computed from older ones. -/
lemma fillable_var {n : ℕ} {v : VarId} (hv : n ≤ v.val) {f : (VarId → Fr) → Fr}
    (hf : ∀ w w', (emitter fakeGlv).Agree n w w' → f w' = f w) :
    (emitter fakeGlv).Fillable n fun w => w v = f w := by
  intro w
  have hagree : (emitter fakeGlv).Agree n w (Function.update w v (f w)) := by
    intro u hu
    have hne : u ≠ v := by
      rintro rfl
      exact absurd hu (not_lt.mpr hv)
    exact Function.update_of_ne hne _ _
  refine ⟨_, hagree, ?_⟩
  change Function.update w v (f w) v = f _
  rw [Function.update_self, hf w _ hagree]

lemma local_var {n m : ℕ} {v : VarId} (hv : v.val < m) (hnm : n ≤ m) {f : (VarId → Fr) → Fr}
    (hf : ∀ w w', (emitter fakeGlv).Agree n w w' → f w' = f w) :
    (emitter fakeGlv).Local m fun w => w v = f w := by
  intro w w' hagree
  change w' v = f w' ↔ w v = f w
  rw [hagree v hv, hf w w' (hagree.mono hnm)]

variable (w : VarId → Fr)

lemma follows_linear (v : VarId) : Follows fakeGlv w (.linear v l) ↔ w v = l.eval w := by
  simp [Follows, execWitnessOp]

lemma follows_inverse (v : VarId) :
    Follows fakeGlv w (.inverse v l) ↔ w v = (l.eval w)⁻¹ := by
  simp [Follows, execWitnessOp]

lemma follows_inverseOrZero (v : VarId) :
    Follows fakeGlv w (.inverseOrZero v l) ↔ w v = (l.eval w)⁻¹ := by
  simp [Follows, execWitnessOp]

lemma follows_bit (v : VarId) (i : U32) :
    Follows fakeGlv w (.bit v l i) ↔ w v = bitOf rModulus (l.eval w) i := by
  simp [Follows, execWitnessOp]

lemma follows_divRem (u v : VarId) (num den : LinearCombination) :
    Follows fakeGlv w (.divRem u v num den) ↔ den.eval w ≠ 0 ∧
      w u = (((num.eval w).val / (den.eval w).val : ℕ) : Fr) ∧
      w v = (((num.eval w).val % (den.eval w).val : ℕ) : Fr) := by
  by_cases h : den.eval w = 0
  · simp [Follows, execWitnessOp, h]
  · simp only [Follows, execWitnessOp, pure_bind, h, if_false, Id.run_pure, Except.ok.injEq,
      exists_eq_left', List.forall_mem_cons, List.not_mem_nil, false_imp_iff, implies_true, and_true,
      ne_eq, not_false_eq_true, true_and]

end Hints

/-- The rule of what appends rows and ops, with the hints in the form `H`. -/
lemma Appends.adds {rows : List R1csConstraint}
    {ops : List (Option (WitnessGen LinearCombination VarId))} {prods : List (ℕ × ℕ × VarId)}
    (h : Appends b b' rows ops prods) (hb : b.Sound) {fakeGlv : FakeGlv}
    {P H Q : (VarId → Fr) → Prop}
    (hH : ∀ w, (∀ op, some op ∈ ops → Follows fakeGlv w op) →
      (∀ d ∈ prods, b'.IsProduct d.2.2 d.2.1 w) → H w)
    (hlocal : (emitter fakeGlv).Local b'.nextVarId H)
    (hfill : (emitter fakeGlv).Fillable b.nextVarId H)
    (hpost : ∀ w, b.Sat w → (∀ c ∈ rows, c.row.Sat w) → Q w)
    (hcomplete : ∀ w, b.Sat w → H w → P w → ∀ c ∈ rows, c.row.Sat w) :
    Emission.Adds (emitter fakeGlv) P b b' H Q := by
  refine Emission.Adds.of_iff h.next_le (h.sat_iff hb) (fun w hw => ?_) hlocal hfill hpost hcomplete
  obtain ⟨hold, hops, hprods⟩ := (h.honest_iff hb fakeGlv w).mp hw
  exact ⟨hold, hH w hops hprods⟩

/-- The rule where there are no hints. -/
lemma Appends.emits_rows {rows : List R1csConstraint} (h : Appends b b' rows [] []) (hb : b.Sound)
    {fakeGlv : FakeGlv} {Q : (VarId → Fr) → Prop} (hQ : ∀ w, (∀ c ∈ rows, c.row.Sat w) ↔ Q w) :
    Emission.Emits (emitter fakeGlv) Q b b' Q :=
  ⟨fun _ => True, h.adds hb (fun _ _ _ => True.intro) (Local.const _ True) (Fillable.trivial _)
    (fun w _ hw => (hQ w).mp hw) (fun w _ _ hw => (hQ w).mpr hw)⟩

/-! ### Variables -/

lemma allocVar_eq_ok (hb : b.Sound) {name : String} {vis : Visibility} {v : VarId}
    (h : b.allocVar name vis = .ok (v, b')) : v.val = b.nextVarId ∧
      b' = { b with nextVarId := b.nextVarId + 1, vars := b.vars ++ [⟨v, name, vis⟩] } := by
  simp only [allocVar, hb.active, Bool.false_eq_true, if_false] at h
  split_ifs at h with hlt
  obtain ⟨rfl, rfl⟩ := Prod.mk.inj (Except.ok.inj h)
  exact ⟨rfl, by rw [hb.active]⟩

/-- What an allocation does. -/
structure Allocated (b : Builder) (v : VarId) (b' : Builder) : Prop where
  val_eq : v.val = b.nextVarId
  next_eq : b'.nextVarId = b.nextVarId + 1
  appends : Appends b b' [] [] []
  sound : b'.Sound
  pending_eq : b'.pendingMul = b.pendingMul
  threshold_eq : b'.matThreshold = b.matThreshold

lemma Allocated.lt {v : VarId} (h : Allocated b v b') : v.val < b'.nextVarId := by
  rw [h.val_eq, h.next_eq]
  exact Nat.lt_succ_self _

lemma Sound.alloc (hb : b.Sound) {name : String} {vis : Visibility} {v : VarId}
    (h : b.allocVar name vis = .ok (v, b')) : Allocated b v b' := by
  obtain ⟨hv, rfl⟩ := allocVar_eq_ok hb h
  have happ : Appends b
      { b with nextVarId := b.nextVarId + 1, vars := b.vars ++ [⟨v, name, vis⟩] } [] [] [] :=
    ⟨(List.append_nil _).symm, (List.append_nil _).symm, (List.append_nil _).symm, rfl,
      Nat.le_succ _, rfl⟩
  refine ⟨hv, rfl, happ, ?_, rfl, rfl⟩
  exact hb.appends happ (hb.toLedger.appends happ fun _ _ _ h => h)
    (fun _ hc => absurd hc List.not_mem_nil) (fun _ _ _ h => .inl h) (fun _ h => .inl h)
    fun _ _ h => .inl h

/-- **A new variable with a hint**, and rows about it. -/
lemma Allocated.adds {v : VarId} (ha : Allocated b v b') (hb : b.Sound) {b'' : Builder}
    {rows : List R1csConstraint} {op : WitnessGen LinearCombination VarId}
    (happ : Appends b' b'' rows [some op] []) {fakeGlv : FakeGlv} {f : (VarId → Fr) → Fr}
    {P Q : (VarId → Fr) → Prop} (hop : ∀ w, Follows fakeGlv w op → w v = f w)
    (hf : ∀ w w', (emitter fakeGlv).Agree b.nextVarId w w' → f w' = f w)
    (hpost : ∀ w, b.Sat w → (∀ c ∈ rows, c.row.Sat w) → Q w)
    (hcomplete : ∀ w, b.Sat w → w v = f w → P w → ∀ c ∈ rows, c.row.Sat w) :
    Emission.Adds (emitter fakeGlv) P b b'' (fun w => w v = f w) Q := by
  have hle := happ.next_le
  refine (ha.appends.trans happ).adds hb (fun w hops _ => hop w (hops op (by simp))) ?_ ?_ hpost
    hcomplete
  · exact local_var fakeGlv (ha.lt.trans_le hle) (ha.appends.next_le.trans hle) hf
  · exact fillable_var fakeGlv ha.val_eq.ge hf

/-! ### Rows -/

lemma oneVar_eq_some {v : VarId} : oneVar l = some v ↔ l = ofVar v := by
  obtain ⟨c, ts⟩ := l
  constructor
  · intro h
    rw [oneVar] at h
    split at h
    · next t ht =>
        split_ifs at h with hone
        obtain ⟨hc, ht1⟩ := hone
        cases h
        obtain rfl : ts = [t] := ht
        obtain rfl : c = 0 := hc
        rw [ofVar, ← ht1]
    · cases h
  · intro h
    rw [h]
    rfl

lemma booleanityVar_eq_some {c : R1csConstraint} {v : VarId} (h : booleanityVar c = some v) :
    c.a = ofVar v ∧ c.b = ofVar v ∧ c.c = ofVar v := by
  simp only [booleanityVar, Option.bind_eq_bind, Option.bind_eq_some_iff] at h
  obtain ⟨u, hu, u', hu', u'', hu'', h⟩ := h
  split_ifs at h with heq
  obtain ⟨rfl, rfl⟩ := heq
  obtain rfl : u = v := Option.some.inj h
  exact ⟨oneVar_eq_some.mp hu, oneVar_eq_some.mp hu', oneVar_eq_some.mp hu''⟩

/-- The row that is pushed. -/
def newRow (b : Builder) (l r o : LinearCombination) : R1csConstraint :=
  ⟨b.nextConstraintId, l, r, o, none⟩

lemma sat_newRow (w : VarId → Fr) :
    (b.newRow l r o).row.Sat w ↔ l.eval w * r.eval w = o.eval w := Iff.rfl

lemma pushConstraint_eq (hb : b.Sound) : b.pushConstraint l r o =
    { b with
      nextConstraintId := b.nextConstraintId + 1
      constraints := b.constraints ++ [b.newRow l r o]
      booleanVars := match booleanityVar (b.newRow l r o) with
        | some v => Function.update b.booleanVars v true
        | none => b.booleanVars } := by
  simp only [pushConstraint, hb.active, Bool.false_eq_true, if_false, newRow]
  cases booleanityVar ⟨b.nextConstraintId, l, r, o, none⟩ <;> rfl

lemma appends_pushConstraint (hb : b.Sound) :
    Appends b (b.pushConstraint l r o) [b.newRow l r o] [] [] := by
  rw [pushConstraint_eq hb]
  exact ⟨rfl, (List.append_nil _).symm, (List.append_nil _).symm, rfl, le_rfl, rfl⟩

@[simp] lemma pushConstraint_nextVarId (hb : b.Sound) :
    (b.pushConstraint l r o).nextVarId = b.nextVarId := by rw [pushConstraint_eq hb]

lemma pushConstraint_pendingMul (hb : b.Sound) :
    (b.pushConstraint l r o).pendingMul = b.pendingMul := by rw [pushConstraint_eq hb]

lemma pushConstraint_boolean (hb : b.Sound) {v : VarId}
    (h : (b.pushConstraint l r o).booleanVars v = true) :
    b.booleanVars v = true ∨ l = ofVar v ∧ r = ofVar v ∧ o = ofVar v := by
  rw [pushConstraint_eq hb] at h
  cases hrow : booleanityVar (b.newRow l r o) with
  | none =>
      simp only [hrow] at h
      exact .inl h
  | some u =>
      simp only [hrow] at h
      by_cases huv : v = u
      · subst huv
        exact .inr (booleanityVar_eq_some hrow)
      · rw [Function.update_of_ne huv] at h
        exact .inl h

lemma sat_pushConstraint (hb : b.Sound) (w : VarId → Fr) :
    (b.pushConstraint l r o).Sat w ↔ b.Sat w ∧ l.eval w * r.eval w = o.eval w := by
  rw [(appends_pushConstraint hb).sat_iff hb]
  simp only [List.forall_mem_singleton, sat_newRow]

/-- **A row** keeps the invariant. -/
lemma Sound.pushConstraint (hb : b.Sound) (hl : l.Below b.nextVarId) (hr : r.Below b.nextVarId)
    (ho : o.Below b.nextVarId) : (b.pushConstraint l r o).Sound := by
  have hledger : (b.pushConstraint l r o).Ledger :=
    hb.toLedger.appends (appends_pushConstraint hb) fun v i k hv => by
      rwa [pushConstraint_pendingMul hb] at hv
  refine hb.appends (appends_pushConstraint hb) hledger ?_ ?_ ?_ ?_
  · rw [pushConstraint_nextVarId hb]
    intro c hc v hv
    rw [List.mem_singleton.mp hc] at hv
    rcases R1csRow.mem_vars.mp hv with hv | hv | hv
    · exact hl v hv
    · exact hr v hv
    · exact ho v hv
  · intro key out i hkey
    rw [pushConstraint_eq hb] at hkey
    exact .inl hkey
  · intro v hv
    rcases pushConstraint_boolean hb hv with hv | ⟨rfl, rfl, rfl⟩
    · exact .inl hv
    · refine .inr fun w hw => isBit_of_mul_self ?_
      simpa using ((sat_pushConstraint hb w).mp hw).2
  · intro top bits htop
    rw [pushConstraint_eq hb] at htop
    exact .inl htop

/-! ### Ops and facts -/

lemma appends_pushWitness (op : Option (WitnessGen LinearCombination VarId)) :
    Appends b (b.pushWitness op) [] [op] [] :=
  ⟨(List.append_nil _).symm, rfl, (List.append_nil _).symm, rfl, le_rfl, rfl⟩

lemma Sound.pushWitness (hb : b.Sound) (op : Option (WitnessGen LinearCombination VarId)) :
    (b.pushWitness op).Sound :=
  hb.appends (appends_pushWitness op) (hb.toLedger.appends (appends_pushWitness op) fun _ _ _ h => h)
    (fun _ hc => absurd hc List.not_mem_nil) (fun _ _ _ h => .inl h) (fun _ h => .inl h)
    fun _ _ h => .inl h

lemma appends_markBoolean (v : VarId) : Appends b (b.markBoolean v) [] [] [] :=
  ⟨(List.append_nil _).symm, (List.append_nil _).symm, (List.append_nil _).symm, rfl, le_rfl, rfl⟩

/-- What the rows prove to be a bit may be remembered as one. -/
lemma Sound.markBoolean (hb : b.Sound) {v : VarId} (hv : ∀ w, b.Sat w → IsBit (w v)) :
    (b.markBoolean v).Sound := by
  refine hb.appends (appends_markBoolean v)
    (hb.toLedger.appends (appends_markBoolean v) fun _ _ _ h => h)
    (fun _ hc => absurd hc List.not_mem_nil) (fun _ _ _ h => .inl h) (fun u hu => ?_)
    fun _ _ h => .inl h
  by_cases huv : u = v
  · subst huv
    exact .inr hv
  · change Function.update b.booleanVars v true u = true at hu
    rw [Function.update_of_ne huv] at hu
    exact .inl hu

/-! ### Pending products -/

lemma consumePending_eq (b : Builder) (l : LinearCombination) : b.consumePending l = b ∨
    ∃ v, b.consumePending l = { b with pendingMul := Function.update b.pendingMul v none } := by
  rw [consumePending]
  cases b.asPendingVar l with
  | none => exact .inl rfl
  | some v => exact .inr ⟨v, rfl⟩

lemma appends_consumePending : Appends b (b.consumePending l) [] [] [] := by
  have happ : ∀ p, Appends b { b with pendingMul := p } [] [] [] := fun p =>
    ⟨(List.append_nil _).symm, (List.append_nil _).symm, (List.append_nil _).symm, rfl, le_rfl, rfl⟩
  rcases consumePending_eq b l with h | ⟨v, h⟩
  · rw [h]
    exact happ b.pendingMul
  · rw [h]
    exact happ _

@[simp] lemma consumePending_nextVarId : (b.consumePending l).nextVarId = b.nextVarId := by
  rcases consumePending_eq b l with h | ⟨v, h⟩ <;> rw [h]

lemma Sound.consumePending (hb : b.Sound) (l : LinearCombination) : (b.consumePending l).Sound := by
  rcases consumePending_eq b l with h | ⟨v, h⟩
  · rwa [h]
  · have happ := appends_consumePending (b := b) (l := l)
    rw [h] at happ ⊢
    refine hb.appends happ (hb.toLedger.appends happ fun u i k hu => ?_)
      (fun _ hc => absurd hc List.not_mem_nil) (fun _ _ _ h => .inl h) (fun _ h => .inl h)
      fun _ _ h => .inl h
    by_cases huv : u = v
    · subst huv
      simp at hu
    · simpa [Function.update_of_ne huv] using hu

lemma emits_consumePending (hb : b.Sound) (fakeGlv : FakeGlv) :
    Emission.Emits (emitter fakeGlv) (fun _ => True) b (b.consumePending l) fun _ => True :=
  appends_consumePending.emits_rows hb fun w => by simp

/-! ### Booleans -/

lemma eval_getLast_mem {l : LinearCombination} {t : Term} (h : l.terms = [t]) (w : VarId → Fr) :
    l.eval w = l.constant + t.coeff * w t.var := by
  rw [eval, h, evalTerms_cons, evalTerms_nil, add_zero]

/-- **What the builder takes for a bit** is one. -/
lemma Sound.isBooleanLc (hb : b.Sound) (h : b.isBooleanLc l = true) {w : VarId → Fr} (hw : b.Sat w) :
    IsBit (l.eval w) := by
  rw [Builder.isBooleanLc] at h
  split at h
  · next hl =>
      rw [eval, hl, evalTerms_nil, add_zero]
      rw [Bool.or_eq_true, decide_eq_true_eq, decide_eq_true_eq] at h
      rcases h with h | h
      · exact .inl (by rw [h]; exact Int.cast_zero)
      · exact .inr (by rw [h]; exact Int.cast_one)
  · next t hl =>
      simp only [Bool.and_eq_true, Bool.or_eq_true, decide_eq_true_eq] at h
      obtain ⟨hvar, hform⟩ := h
      have hbit := hb.boolean w hw t.var hvar
      rw [eval_getLast_mem hl]
      rcases hform with ⟨hc, ht⟩ | ⟨hc, ht⟩
      · rw [hc, ht, Int.cast_zero, Int.cast_one, zero_add, one_mul]
        exact hbit
      · rw [hc, ht, Int.cast_neg, Int.cast_one, neg_one_mul, ← sub_eq_add_neg]
        exact hbit.one_sub
  · split at h
    · next bit bits hlast =>
        obtain ⟨t, -, ht⟩ := Option.bind_eq_some_iff.mp hlast
        have hbit := hb.bits w hw t.var (bit :: bits) ht bit List.mem_cons_self
        rcases Bool.or_eq_true_iff.mp h with h | h
        · have hzero := eval_of_isZero w h
          rw [eval_sub, sub_eq_zero] at hzero
          rwa [hzero]
        · have hzero := eval_of_isZero w h
          rw [eval_sub, eval_add, eval_one] at hzero
          rw [show l.eval w = 1 - bit.eval w by linear_combination hzero]
          exact hbit.one_sub
    · cases h

/-! ### Products -/

section Products

variable {lcHash : LinearCombination → ℕ}

lemma pushProduct_eq (lcHash : LinearCombination → ℕ) (hb : b.Sound) (lhs rhs : LinearCombination) (out : VarId) :
    ∃ booleans, b.pushProduct lcHash lhs rhs out =
      { b with
        nextConstraintId := b.nextConstraintId + 1
        constraints := b.constraints ++ [b.newRow lhs rhs (ofVar out)]
        witnessGen := b.witnessGen ++ [none]
        deferredProducts := b.deferredProducts ++ [(b.witnessGen.length, b.constraints.length, out)]
        pendingMul := Function.update b.pendingMul out (some (b.constraints.length, b.witnessGen.length))
        products := if b.cse then
            Function.update b.products (productKey lcHash lhs rhs) (some (out, b.constraints.length))
          else b.products
        booleanVars := booleans } ∧
      ∀ v, booleans v = true → (b.pushConstraint lhs rhs (ofVar out)).booleanVars v = true ∨
        v = out ∧ b.isBooleanLc lhs = true ∧ b.isBooleanLc rhs = true := by
  refine ⟨(if b.isBooleanLc lhs && b.isBooleanLc rhs then
      (b.pushConstraint lhs rhs (ofVar out)).markBoolean out
    else b.pushConstraint lhs rhs (ofVar out)).booleanVars, ?_, fun v hv => ?_⟩
  · simp only [pushProduct]
    rw [pushConstraint_eq hb]
    cases b.isBooleanLc lhs && b.isBooleanLc rhs <;> simp [Builder.markBoolean, Builder.pushWitness]
  · split_ifs at hv with hboth
    · by_cases hout : v = out
      · exact .inr ⟨hout, Bool.and_eq_true_iff.mp hboth⟩
      · change Function.update (b.pushConstraint lhs rhs (ofVar out)).booleanVars out true v = true
          at hv
        rw [Function.update_of_ne hout] at hv
        exact .inl hv
    · exact .inl hv

lemma appends_pushProduct (lcHash : LinearCombination → ℕ) (hb : b.Sound) (lhs rhs : LinearCombination) (out : VarId) :
    Appends b (b.pushProduct lcHash lhs rhs out) [b.newRow lhs rhs (ofVar out)] [none]
      [(b.witnessGen.length, b.constraints.length, out)] := by
  obtain ⟨booleans, heq, -⟩ := pushProduct_eq lcHash hb lhs rhs out
  rw [heq]
  exact ⟨rfl, rfl, rfl, rfl, le_rfl, rfl⟩

@[simp] lemma pushProduct_nextVarId (lcHash : LinearCombination → ℕ) (hb : b.Sound) (lhs rhs : LinearCombination) (out : VarId) :
    (b.pushProduct lcHash lhs rhs out).nextVarId = b.nextVarId := by
  obtain ⟨booleans, heq, -⟩ := pushProduct_eq lcHash hb lhs rhs out
  rw [heq]

lemma sat_pushProduct (lcHash : LinearCombination → ℕ) (hb : b.Sound) (lhs rhs : LinearCombination) (out : VarId) (w : VarId → Fr) :
    (b.pushProduct lcHash lhs rhs out).Sat w ↔ b.Sat w ∧ lhs.eval w * rhs.eval w = w out := by
  rw [(appends_pushProduct lcHash hb lhs rhs out).sat_iff hb]
  simp only [List.forall_mem_singleton, sat_newRow, eval_ofVar]

/-- The new product has a row, a slot and an output of its own. -/
lemma Ledger.pushProduct (hb : b.Sound) {lhs rhs : LinearCombination} {out : VarId}
    (hout : out.val < b.nextVarId) (hfresh : ∀ d ∈ b.deferredProducts, d.2.2 ≠ out) :
    (b.pushProduct lcHash lhs rhs out).Ledger := by
  obtain ⟨booleans, heq, -⟩ := pushProduct_eq lcHash hb lhs rhs out
  rw [heq]
  constructor
  · rw [List.forall_mem_append, List.length_append]
    refine ⟨fun d hd => Nat.lt_add_right _ (hb.deferred_row d hd), fun d hd => ?_⟩
    rw [List.mem_singleton.mp hd]
    exact Nat.lt_succ_self _
  · rw [List.forall_mem_append]
    refine ⟨fun d hd => ?_, fun d hd => ?_⟩
    · have hslot := hb.deferred_slot d hd
      rw [List.getElem?_append_left (List.getElem?_eq_some_iff.mp hslot).1, hslot]
    · rw [List.mem_singleton.mp hd, List.getElem?_append_right le_rfl, Nat.sub_self]
      rfl
  · rw [List.forall_mem_append]
    refine ⟨hb.deferred_below, fun d hd => ?_⟩
    rwa [List.mem_singleton.mp hd]
  · rw [List.pairwise_append]
    refine ⟨hb.deferred_once, List.pairwise_singleton _ _, fun d hd e he => ?_⟩
    rw [List.mem_singleton.mp he]
    exact ⟨(List.getElem?_eq_some_iff.mp (hb.deferred_slot d hd)).1.ne, hfresh d hd⟩
  · intro v i k hv
    by_cases hvo : v = out
    · simp only [hvo, Function.update_self, Option.some.injEq, Prod.mk.injEq] at hv
      obtain ⟨rfl, -⟩ := hv
      refine ⟨b.newRow lhs rhs (ofVar out), ?_, by rw [hvo]; rfl⟩
      rw [List.getElem?_append_right le_rfl, Nat.sub_self]
      rfl
    · simp only [Function.update_of_ne hvo] at hv
      obtain ⟨c, hc, hcv⟩ := hb.pending_row v i k hv
      exact ⟨c, by rw [List.getElem?_append_left (List.getElem?_eq_some_iff.mp hc).1, hc], hcv⟩
  · intro v i k hv
    by_cases hvo : v = out
    · simp only [hvo, Function.update_self, Option.some.injEq, Prod.mk.injEq] at hv
      obtain ⟨rfl, rfl⟩ := hv
      refine ⟨?_, fun hmem => ?_⟩
      · rw [hvo]
        exact List.mem_append_right _ (List.mem_singleton_self _)
      · obtain ⟨m, hm, hmv⟩ := List.mem_map.mp hmem
        exact hfresh _ (hb.merged_deferred m hm) (hmv.trans hvo)
    · simp only [Function.update_of_ne hvo] at hv
      obtain ⟨hdef, hmem⟩ := hb.pending_deferred v i k hv
      exact ⟨List.mem_append_left _ hdef, hmem⟩
  · exact fun m hm => List.mem_append_left _ (hb.merged_deferred m hm)
  · exact hb.merged_once

/-- **A product** keeps the invariant. -/
lemma Sound.pushProduct (hb : b.Sound) {lhs rhs : LinearCombination} {out : VarId}
    (hl : lhs.Below b.nextVarId) (hr : rhs.Below b.nextVarId) (hout : out.val < b.nextVarId)
    (hfresh : ∀ d ∈ b.deferredProducts, d.2.2 ≠ out) :
    (b.pushProduct lcHash lhs rhs out).Sound := by
  obtain ⟨booleans, heq, hbool⟩ := pushProduct_eq lcHash hb lhs rhs out
  have happ := appends_pushProduct lcHash hb lhs rhs out
  have hsat := sat_pushProduct lcHash hb lhs rhs out
  have hlen : (b.pushProduct lcHash lhs rhs out).constraints.length = b.constraints.length + 1 := by
    rw [happ.constraints, List.length_append, List.length_singleton]
  refine hb.appends happ (Ledger.pushProduct hb hout hfresh) ?_ ?_ ?_ ?_
  · rw [pushProduct_nextVarId lcHash hb]
    intro c hc v hv
    rw [List.mem_singleton.mp hc] at hv
    rcases R1csRow.mem_vars.mp hv with hv | hv | hv
    · exact hl v hv
    · exact hr v hv
    · exact below_ofVar.mpr hout v hv
  · intro key out' i hkey
    rw [heq] at hkey
    dsimp only at hkey
    split_ifs at hkey with hcse
    · by_cases hk : key = productKey lcHash lhs rhs
      · rw [hk, Function.update_self, Option.some.injEq, Prod.mk.injEq] at hkey
        rw [← hkey.2, hlen]
        exact .inr (Nat.lt_succ_self _)
      · rw [Function.update_of_ne hk] at hkey
        exact .inl hkey
    · exact .inl hkey
  · intro v hv
    rw [heq] at hv
    rcases hbool v hv with hv | ⟨rfl, hboth⟩
    · rcases pushConstraint_boolean hb hv with hv | ⟨rfl, rfl, hvo⟩
      · exact .inl hv
      · refine .inr fun w hw => isBit_of_mul_self ?_
        have hrow := ((hsat w).mp hw).2
        have hvar : v = out := by simpa [ofVar] using hvo.symm
        rw [eval_ofVar, ← hvar] at hrow
        exact hrow
    · refine .inr fun w hw => ?_
      obtain ⟨hold, hrow⟩ := (hsat w).mp hw
      rw [← hrow]
      exact (hb.isBooleanLc hboth.1 hold).mul (hb.isBooleanLc hboth.2 hold)
  · intro top bits htop
    rw [heq] at htop
    exact .inl htop

/-- A long combination gets a name. -/
lemma materialize_spec (hb : b.Sound) (hl : l.Below b.nextVarId) {l' : LinearCombination}
    (h : b.materialize l = .ok (l', b')) (fakeGlv : FakeGlv) :
    b'.Sound ∧ l'.Below b'.nextVarId ∧
      Emission.Emits (emitter fakeGlv) (fun _ => True) b b' fun w => l'.eval w = l.eval w := by
  rw [materialize] at h
  split_ifs at h with hlong
  · obtain ⟨rfl, rfl⟩ := Prod.mk.inj (Except.ok.inj h)
    refine ⟨hb, hl, (Emission.Emits.refl b).weaken (fun _ _ h => h) fun _ _ _ => rfl⟩
  · obtain ⟨⟨v, b₁⟩, hv, h⟩ := Outcome.bind_eq_ok.mp h
    obtain ⟨rfl, rfl⟩ := Prod.mk.inj (Except.ok.inj h)
    have halloc := hb.alloc hv
    have hle := halloc.appends.next_le
    have hb₁ := halloc.sound
    have hb₂ := hb₁.pushWitness (some (.linear v l))
    have hl₁ : l.Below b₁.nextVarId := hl.mono hle
    have hv₁ : (ofVar v).Below b₁.nextVarId := below_ofVar.mpr halloc.lt
    have happ := (appends_pushWitness (some (.linear v l))).trans
      (appends_pushConstraint (l := l - ofVar v) (r := one) (o := zero) hb₂)
    have hb₃ : ((b₁.pushWitness (some (.linear v l))).pushEqual l (ofVar v)).Sound :=
      hb₂.pushConstraint (hl₁.sub hv₁) Below.one Below.zero
    have hnext : ((b₁.pushWitness (some (.linear v l))).pushEqual l (ofVar v)).nextVarId
        = b₁.nextVarId := pushConstraint_nextVarId hb₂
    have hrow : ∀ w : VarId → Fr, (∀ c ∈ [] ++ [(b₁.pushWitness (some (.linear v l))).newRow
        (l - ofVar v) one zero], c.row.Sat w) ↔ w v = l.eval w := by
      intro w
      simp only [List.nil_append, List.forall_mem_singleton, sat_newRow, eval_sub, eval_ofVar,
        eval_one, mul_one, eval_zero, sub_eq_zero]
      exact eq_comm
    refine ⟨hb₃, ?_, ?_⟩
    · rw [hnext]
      exact hv₁
    · refine ⟨_, halloc.adds hb happ (fun w => (follows_linear fakeGlv w v).mp)
        (fun w w' hagree => local_eval fakeGlv hl hagree) (fun w _ hrows => ?_)
        fun w _ hH _ => (hrow w).mpr hH⟩
      rw [eval_ofVar]
      exact (hrow w).mp hrows

/-- A new product. -/
lemma newProduct_spec (lcHash : LinearCombination → ℕ) (hb : b.Sound) {lhs rhs : LinearCombination} (hl : lhs.Below b.nextVarId)
    (hr : rhs.Below b.nextVarId) {out : VarId} (h : b.allocInternal = .ok (out, b'))
    (fakeGlv : FakeGlv) :
    (b'.pushProduct lcHash lhs rhs out).Sound ∧
      Emission.Emits (emitter fakeGlv) (fun _ => True) b (b'.pushProduct lcHash lhs rhs out)
        fun w => w out = lhs.eval w * rhs.eval w := by
  have halloc := hb.alloc h
  have hle := halloc.appends.next_le
  have hb' := halloc.sound
  have happ := halloc.appends.trans (appends_pushProduct lcHash hb' lhs rhs out)
  have hnext := pushProduct_nextVarId lcHash hb' lhs rhs out
  have hlocal : ∀ w w', (emitter fakeGlv).Agree b.nextVarId w w' →
      lhs.eval w' * rhs.eval w' = lhs.eval w * rhs.eval w := fun w w' hagree => by
    rw [local_eval fakeGlv hl hagree, local_eval fakeGlv hr hagree]
  have hrow : ∀ w : VarId → Fr, (∀ c ∈ [] ++ [b'.newRow lhs rhs (ofVar out)], c.row.Sat w) ↔
      w out = lhs.eval w * rhs.eval w := by
    intro w
    rw [List.nil_append, List.forall_mem_singleton, sat_newRow, eval_ofVar]
    exact eq_comm
  have hfresh : ∀ d ∈ b'.deferredProducts, d.2.2 ≠ out := by
    intro d hd hdo
    rw [halloc.appends.deferredProducts, List.append_nil] at hd
    exact (hb.deferred_below d hd).ne (by rw [hdo, halloc.val_eq])
  refine ⟨hb'.pushProduct (hl.mono hle) (hr.mono hle) halloc.lt hfresh, ?_⟩
  refine ⟨fun w => w out = lhs.eval w * rhs.eval w, happ.adds hb ?_ ?_ ?_ ?_ ?_⟩
  · intro w _ hprods
    obtain ⟨c, hc, hval⟩ := hprods _ (List.mem_singleton_self _)
    rw [(appends_pushProduct lcHash hb' lhs rhs out).constraints,
      List.getElem?_append_right le_rfl, Nat.sub_self] at hc
    obtain rfl := Option.some.inj hc
    exact hval
  · exact local_var fakeGlv (hnext ▸ halloc.lt) (hnext ▸ hle) hlocal
  · exact fillable_var fakeGlv halloc.val_eq.ge hlocal
  · exact fun w _ hrows => (hrow w).mp hrows
  · exact fun w _ hH _ => (hrow w).mpr hH

/-- A product that is constrained already. -/
lemma reuse_spec (hb : b.Sound) {lhs rhs : LinearCombination} {out : VarId}
    (h : b.reuse lcHash lhs rhs = .ok (some out)) : out.val < b.nextVarId ∧
      ∀ w, b.Sat w → w out = lhs.eval w * rhs.eval w := by
  rw [reuse] at h
  by_cases hoff : (b.witnessOnly || !b.cse) = true
  · rw [if_pos hoff] at h
    cases h
  rw [if_neg hoff] at h
  split at h
  · cases h
  · next u i _ =>
      obtain ⟨c, hc, h⟩ := Outcome.bind_eq_ok.mp h
      have hrow : b.constraints[i]? = some c := by
        cases hget : b.constraints[i]? with
        | none => rw [hget] at hc; cases hc
        | some c' => rw [hget] at hc; rw [Except.ok.inj hc]
      have hmem := List.mem_of_getElem? hrow
      have hsome := Except.ok.inj h
      split_ifs at hsome with hcond
      obtain rfl : u = out := Option.some.inj hsome
      obtain ⟨-, -, hoperands, hout⟩ := hcond
      refine ⟨hb.row_below c hmem u ?_, fun w hw => ?_⟩
      · refine R1csRow.mem_vars.mpr (.inr (.inr ?_))
        change u ∈ c.c.vars
        rw [hout]
        exact List.mem_singleton_self u
      · have hsat : c.a.eval w * c.b.eval w = c.c.eval w := hw.1 c hmem
        rw [hout, eval_ofVar] at hsat
        rcases hoperands with ⟨ha, hb⟩ | ⟨ha, hb⟩
        · rw [← hsat, ha, hb]
        · rw [← hsat, ha, hb, mul_comm]

/-- **A product** is the product of its operands. -/
lemma emitMulVar_spec (hb : b.Sound) {lhs rhs : LinearCombination} (hl : lhs.Below b.nextVarId)
    (hr : rhs.Below b.nextVarId) {out : VarId} (h : b.emitMulVar lcHash lhs rhs = .ok (out, b'))
    (fakeGlv : FakeGlv) : b'.Sound ∧ out.val < b'.nextVarId ∧
      Emission.Emits (emitter fakeGlv) (fun _ => True) b b' fun w => w out = lhs.eval w * rhs.eval w := by
  obtain ⟨⟨l', b₁⟩, h₁, h⟩ := Outcome.bind_eq_ok.mp h
  obtain ⟨⟨r', b₂⟩, h₂, h⟩ := Outcome.bind_eq_ok.mp h
  obtain ⟨found, h₃, h⟩ := Outcome.bind_eq_ok.mp h
  obtain ⟨hb₁, hl', he₁⟩ := materialize_spec hb hl h₁ fakeGlv
  obtain ⟨hb₂, hr', he₂⟩ := materialize_spec hb₁ (hr.mono he₁.next_le) h₂ fakeGlv
  have hl₂ := hl'.mono he₂.next_le
  have hnames : Emission.Emits (emitter fakeGlv) (fun _ => True) b b₂ fun w =>
      l'.eval w * r'.eval w = lhs.eval w * rhs.eval w :=
    he₁.seq he₂ (fun _ h => h) (fun _ h _ _ => h) fun w _ hw₁ hw₂ => by rw [hw₁, hw₂]
  cases found with
  | some u =>
      obtain ⟨rfl, rfl⟩ := Prod.mk.inj (Except.ok.inj h)
      obtain ⟨hout, hval⟩ := reuse_spec hb₂ h₃
      exact ⟨hb₂, hout, hnames.weaken (fun _ _ h => h) fun w hw hw' => (hval w hw).trans hw'⟩
  | none =>
      obtain ⟨⟨u, b₃⟩, h₄, h⟩ := Outcome.bind_eq_ok.mp h
      have halloc := hb₂.alloc h₄
      dsimp only at h
      rw [halloc.sound.active, if_neg Bool.false_ne_true] at h
      obtain ⟨rfl, rfl⟩ := Prod.mk.inj (Except.ok.inj h)
      obtain ⟨hb₄, he₄⟩ := newProduct_spec lcHash hb₂ hl₂ hr' h₄ fakeGlv
      refine ⟨hb₄, ?_, ?_⟩
      · rw [pushProduct_nextVarId lcHash halloc.sound]
        exact halloc.lt
      · exact hnames.seq he₄ (fun _ h => h) (fun _ h _ _ => h) fun w _ hw hw' => hw'.trans hw

lemma canonical_emitMul {lhs rhs out : LinearCombination}
    (h : b.emitMul lcHash lhs rhs = .ok (out, b')) : Canonical out.terms := by
  obtain ⟨⟨v, b₁⟩, -, h⟩ := Outcome.bind_eq_ok.mp h
  obtain ⟨rfl, rfl⟩ := Prod.mk.inj (Except.ok.inj h)
  exact canonical_ofVar v

lemma emitMul_spec (hb : b.Sound) {lhs rhs : LinearCombination} (hl : lhs.Below b.nextVarId)
    (hr : rhs.Below b.nextVarId) {out : LinearCombination}
    (h : b.emitMul lcHash lhs rhs = .ok (out, b')) (fakeGlv : FakeGlv) :
    b'.Sound ∧ out.Below b'.nextVarId ∧
      Emission.Emits (emitter fakeGlv) (fun _ => True) b b'
        fun w => out.eval w = lhs.eval w * rhs.eval w := by
  obtain ⟨⟨v, b₁⟩, h₁, h⟩ := Outcome.bind_eq_ok.mp h
  obtain ⟨rfl, rfl⟩ := Prod.mk.inj (Except.ok.inj h)
  obtain ⟨hb₁, hv, he⟩ := emitMulVar_spec hb hl hr h₁ fakeGlv
  refine ⟨hb₁, below_ofVar.mpr hv, he.weaken (fun _ _ h => h) fun w _ hw => ?_⟩
  rw [eval_ofVar, hw]

/-! ### Equalities -/

lemma asPendingVar_eq_some {v : VarId} (h : b.asPendingVar l = some v) :
    l = ofVar v ∧ ∃ i k, b.pendingMul v = some (i, k) := by
  rw [asPendingVar, Option.filter_eq_some_iff] at h
  obtain ⟨hone, hpending⟩ := h
  obtain ⟨⟨i, k⟩, hik⟩ := Option.isSome_iff_exists.mp hpending
  exact ⟨oneVar_eq_some.mp hone, i, k, hik⟩

/-- A row that outputs its target. -/
structure MergedRow (b : Builder) (v : VarId) (i k : ℕ) (c : R1csConstraint)
    (target : LinearCombination) (b' : Builder) : Prop where
  row : b.constraints[i]? = some c
  out : c.c = ofVar v
  pendingRow : b.pendingMul v = some (i, k)
  constraints : b'.constraints = b.constraints.set i { c with c := target.simplified }
  merged : b'.merged = b.merged ++ [(v, k, i)]
  pending : b'.pendingMul = Function.update b.pendingMul v none
  next : b'.nextVarId = b.nextVarId
  witnessOnly : b'.witnessOnly = b.witnessOnly
  witnessGen : b'.witnessGen = b.witnessGen
  deferredProducts : b'.deferredProducts = b.deferredProducts
  products : b'.products = b.products
  computedBits : b'.computedBits = b.computedBits
  boolean : ∀ u, b'.booleanVars u = true → b.booleanVars u = true ∨
    c.a = ofVar u ∧ c.b = ofVar u ∧ target.simplified = ofVar u

lemma mergedRow_of_mergeMul (hb : b.Sound) {v : VarId} {i k : ℕ}
    (hv : b.pendingMul v = some (i, k)) {target : LinearCombination}
    (h : b.mergeMul v target = .ok b') : ∃ c, MergedRow b v i k c target b' := by
  obtain ⟨c, hc, hcv⟩ := hb.pending_row v i k hv
  simp only [mergeMul, hv, hc, Outcome.orPanic_some, Outcome.ok_bind] at h
  refine ⟨c, ?_⟩
  cases hrow : booleanityVar { c with c := target.simplified } with
  | none =>
      simp only [hrow] at h
      obtain rfl := Except.ok.inj h
      exact ⟨hc, hcv, hv, rfl, rfl, rfl, rfl, rfl, rfl, rfl, rfl, rfl, fun u hu => .inl hu⟩
  | some u' =>
      simp only [hrow] at h
      obtain rfl := Except.ok.inj h
      refine ⟨hc, hcv, hv, rfl, rfl, rfl, rfl, rfl, rfl, rfl, rfl, rfl, fun u hu => ?_⟩
      by_cases huu : u = u'
      · exact .inr (huu ▸ booleanityVar_eq_some hrow)
      · change Function.update b.booleanVars u' true u = true at hu
        rw [Function.update_of_ne huu] at hu
        exact .inl hu

namespace MergedRow

variable {v : VarId} {i k : ℕ} {c : R1csConstraint} {target : LinearCombination}

lemma mem (h : MergedRow b v i k c target b') : c ∈ b.constraints := List.mem_of_getElem? h.row

lemma lt (h : MergedRow b v i k c target b') : i < b.constraints.length :=
  (List.getElem?_eq_some_iff.mp h.row).1

lemma length_eq (h : MergedRow b v i k c target b') :
    b'.constraints.length = b.constraints.length := by rw [h.constraints, List.length_set]

/-- The row keeps its operands. -/
lemma isProduct (h : MergedRow b v i k c target b') (out : VarId) (j : ℕ) (w : VarId → Fr) :
    b'.IsProduct out j w ↔ b.IsProduct out j w := by
  have hi := h.lt
  rw [IsProduct, IsProduct, h.constraints, List.getElem?_set]
  split_ifs with hij
  · subst hij
    rw [h.row]
    simp
  · rfl

/-- The other rows stay, and this one says what its product is. -/
lemma rows_iff (h : MergedRow b v i k c target b') (w : VarId → Fr) :
    (∀ c' ∈ b'.constraints, c'.row.Sat w) ∧ w v = c.a.eval w * c.b.eval w ↔
      (∀ c' ∈ b.constraints, c'.row.Sat w) ∧ w v = target.eval w := by
  rw [h.constraints]
  constructor
  · rintro ⟨hall, hvw⟩
    have htarget : c.a.eval w * c.b.eval w = target.simplified.eval w :=
      hall { c with c := target.simplified } (List.mem_set h.lt _)
    rw [eval_simplified] at htarget
    refine ⟨fun c' hc' => ?_, hvw.trans htarget⟩
    obtain ⟨j, hj, rfl⟩ := List.mem_iff_getElem.mp hc'
    by_cases hij : i = j
    · subst hij
      rw [(List.getElem?_eq_some_iff.mp h.row).2]
      change c.a.eval w * c.b.eval w = c.c.eval w
      rw [h.out, eval_ofVar, hvw]
    · refine hall _ (List.mem_iff_getElem.mpr ⟨j, by rwa [List.length_set], ?_⟩)
      rw [List.getElem_set_ne hij]
  · rintro ⟨hall, hvw⟩
    have hold : c.a.eval w * c.b.eval w = c.c.eval w := hall c h.mem
    rw [h.out, eval_ofVar] at hold
    refine ⟨fun c' hc' => ?_, hold.symm⟩
    rcases List.mem_or_eq_of_mem_set hc' with hc' | rfl
    · exact hall c' hc'
    · change c.a.eval w * c.b.eval w = target.simplified.eval w
      rw [eval_simplified, hold, hvw]

/-- **A merged row**: its product is the target. -/
lemma sat_iff (h : MergedRow b v i k c target b') (w : VarId → Fr) :
    b'.Sat w ↔ b.Sat w ∧ w v = target.eval w := by
  have hnew : b'.IsProduct v i w ↔ w v = c.a.eval w * c.b.eval w := by
    rw [h.isProduct, IsProduct, h.row]
    simp
  have hrest : (∀ m ∈ b.merged, b'.IsProduct m.1 m.2.2 w)
      ↔ ∀ m ∈ b.merged, b.IsProduct m.1 m.2.2 w :=
    forall₂_congr fun m _ => h.isProduct _ _ w
  rw [Sat, Sat, h.merged, List.forall_mem_append, List.forall_mem_singleton, hnew, hrest,
    ← and_assoc, and_right_comm, h.rows_iff, and_right_comm]

lemma pending_of_pending (h : MergedRow b v i k c target b') {u : VarId} {j m : ℕ}
    (hu : b'.pendingMul u = some (j, m)) : u ≠ v ∧ b.pendingMul u = some (j, m) := by
  rw [h.pending] at hu
  have hne : u ≠ v := by
    rintro rfl
    simp at hu
  rw [Function.update_of_ne hne] at hu
  exact ⟨hne, hu⟩

/-- The merged product is no longer pending, and no other pending product has this row. -/
lemma ledger (h : MergedRow b v i k c target b') (hb : b.Ledger) : b'.Ledger := by
  obtain ⟨hdeferred, hnew⟩ := hb.pending_deferred v i k h.pendingRow
  constructor
  · rw [h.length_eq, h.deferredProducts]
    exact hb.deferred_row
  · rw [h.witnessGen, h.deferredProducts]
    exact hb.deferred_slot
  · rw [h.next, h.deferredProducts]
    exact hb.deferred_below
  · rw [h.deferredProducts]
    exact hb.deferred_once
  · intro u j m hu
    obtain ⟨hne, hu⟩ := h.pending_of_pending hu
    obtain ⟨c', hc', hcu⟩ := hb.pending_row u j m hu
    have hij : i ≠ j := by
      rintro rfl
      rw [h.row] at hc'
      obtain rfl := Option.some.inj hc'
      rw [h.out] at hcu
      exact hne (by simpa [ofVar] using hcu.symm)
    exact ⟨c', by rw [h.constraints, List.getElem?_set_ne hij, hc'], hcu⟩
  · intro u j m hu
    obtain ⟨hne, hu⟩ := h.pending_of_pending hu
    obtain ⟨hdef, hmem⟩ := hb.pending_deferred u j m hu
    rw [h.deferredProducts, h.merged, List.map_append, List.mem_append]
    refine ⟨hdef, not_or.mpr ⟨hmem, fun hv => hne ?_⟩⟩
    exact List.mem_singleton.mp hv
  · rw [h.merged, h.deferredProducts, List.forall_mem_append, List.forall_mem_singleton]
    exact ⟨hb.merged_deferred, hdeferred⟩
  · rw [h.merged, List.map_append, List.nodup_append]
    refine ⟨hb.merged_once, List.nodup_singleton _, fun u hu u' hu' => ?_⟩
    rw [List.mem_singleton.mp hu']
    rintro rfl
    exact hnew hu

/-- A merge keeps the invariant. -/
lemma sound (h : MergedRow b v i k c target b') (hb : b.Sound) (ht : target.Below b.nextVarId) :
    b'.Sound := by
  refine ⟨h.ledger hb.toLedger, ?_, ?_, ?_, ?_, ?_, ?_, ?_⟩
  · rw [h.witnessOnly, hb.active]
  · intro c' hc' u hu
    rw [h.next]
    rw [h.constraints] at hc'
    rcases List.mem_or_eq_of_mem_set hc' with hc' | rfl
    · exact hb.row_below c' hc' u hu
    · rcases R1csRow.mem_vars.mp hu with hu | hu | hu
      · exact hb.row_below c h.mem u (R1csRow.mem_vars.mpr (.inl hu))
      · exact hb.row_below c h.mem u (R1csRow.mem_vars.mpr (.inr (.inl hu)))
      · exact ht.simplified u hu
  · rw [h.length_eq, h.products]
    exact hb.product_row
  · rw [h.computedBits, h.next]
    exact hb.bits_below
  · intro w hw u hu
    rcases h.boolean u hu with hu | ⟨ha, hcb, htu⟩
    · exact hb.boolean w ((h.sat_iff w).mp hw).1 u hu
    · have hrow : c.a.eval w * c.b.eval w = target.simplified.eval w :=
        hw.1 { c with c := target.simplified } (by rw [h.constraints]; exact List.mem_set h.lt _)
      rw [ha, hcb, htu, eval_ofVar] at hrow
      exact isBit_of_mul_self hrow
  · intro w hw
    rw [h.computedBits]
    exact hb.bits w ((h.sat_iff w).mp hw).1
  · rw [h.computedBits]
    exact hb.bits_form

lemma emits (h : MergedRow b v i k c target b') (fakeGlv : FakeGlv) :
    Emission.Emits (emitter fakeGlv) (fun w => w v = target.eval w) b b' fun w => w v = target.eval w := by
  refine ⟨fun _ => True, Emission.Adds.of_iff h.next.ge h.sat_iff (fun w hw => ⟨?_, True.intro⟩)
    (Local.const _ True) (Fillable.trivial _) (fun _ _ h => h) fun _ _ _ h => h⟩
  obtain ⟨hops, hprods⟩ := hw
  rw [h.witnessGen] at hops
  rw [h.deferredProducts] at hprods
  exact ⟨hops, fun d hd => (h.isProduct _ _ w).mp (hprods d hd)⟩

end MergedRow

/-- **An equality** holds, in whichever form it is emitted. -/
lemma emitRequireEq_spec (hb : b.Sound) {lhs rhs : LinearCombination} (hl : lhs.Below b.nextVarId)
    (hr : rhs.Below b.nextVarId) (h : b.emitRequireEq lhs rhs = .ok b') (fakeGlv : FakeGlv) :
    b'.Sound ∧ b'.nextVarId = b.nextVarId ∧
      Emission.Emits (emitter fakeGlv) (fun w => lhs.eval w = rhs.eval w) b b'
        fun w => lhs.eval w = rhs.eval w := by
  have hmerge : ∀ {v : VarId} {l target : LinearCombination}, b.asPendingVar l = some v →
      target.Below b.nextVarId → b.mergeMul v target = .ok b' → b'.Sound ∧
        b'.nextVarId = b.nextVarId ∧ Emission.Emits (emitter fakeGlv) (fun w => l.eval w = target.eval w) b b'
          fun w => l.eval w = target.eval w := by
    intro v l target hv ht hm
    obtain ⟨rfl, i, k, hik⟩ := asPendingVar_eq_some hv
    obtain ⟨c, hc⟩ := mergedRow_of_mergeMul hb hik hm
    refine ⟨hc.sound hb ht, hc.next, (hc.emits fakeGlv).weaken (fun w _ hw => ?_) fun w _ hw => ?_⟩
    · rwa [eval_ofVar] at hw
    · rwa [eval_ofVar]
  rw [emitRequireEq, hb.active, if_neg Bool.false_ne_true] at h
  split at h
  · next v hv => exact hmerge (Option.filter_eq_some_iff.mp hv).1 hr h
  · split at h
    · next v hv =>
        obtain ⟨hb', hnext, he⟩ := hmerge (Option.filter_eq_some_iff.mp hv).1 hl h
        exact ⟨hb', hnext, he.weaken (fun _ _ hw => hw.symm) fun _ _ hw => hw.symm⟩
    · dsimp only at h
      split_ifs at h with hzero
      · obtain rfl := Except.ok.inj h
        refine ⟨hb, rfl, (Emission.Emits.refl b).weaken (fun _ _ _ => True.intro) fun w _ _ => ?_⟩
        have hdiff := eval_of_isZero w hzero
        rwa [eval_sub, sub_eq_zero] at hdiff
      · obtain rfl := Except.ok.inj h
        have hbelow : ((lhs - rhs) - zero).Below b.nextVarId := (hl.sub hr).sub Below.zero
        refine ⟨hb.pushConstraint hbelow Below.one Below.zero, pushConstraint_nextVarId hb, ?_⟩
        refine (appends_pushConstraint hb).emits_rows hb fun w => ?_
        simp only [List.forall_mem_singleton, sat_newRow, eval_sub, eval_one, mul_one, eval_zero,
          sub_zero, sub_eq_zero]

end Products

end Builder

end Frontend

end XarkCircuit
