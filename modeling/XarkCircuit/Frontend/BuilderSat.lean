import XarkCircuit.Frontend.Builder
import XarkCircuit.Lib.Emission
import XarkCircuit.Solve.Hint
import XarkCircuit.Verifier.ScalarOrder

/-!
What the rows of a builder say, and its invariant.

* `Builder.Sat` is the meaning of the rows. A product whose row was given to an equality still is the
  product: its own row comes back if anything reads it. `Builder.Honest` is the meaning of the ops.
* `Builder.Sound` is the invariant: pending products have their rows, and what the builder remembers as
  a bit is one in every assignment that satisfies the rows.
* `Appends` is the shape of most emissions; `Sound.appends` keeps the invariant.
-/

namespace XarkCircuit

open Verifier (rModulus)

/-- Every variable is below `n`. -/
def LinearCombination.Below (n : ℕ) (l : LinearCombination) : Prop := ∀ v ∈ l.vars, v.val < n

namespace LinearCombination

variable {n : ℕ} {l r : LinearCombination}

lemma Below.mono {m : ℕ} (h : l.Below m) (hmn : m ≤ n) : l.Below n :=
  fun v hv => (h v hv).trans_le hmn

lemma Below.add (hl : l.Below n) (hr : r.Below n) : (l + r).Below n :=
  fun v hv => (mem_vars_add hv).elim (hl v) (hr v)

lemma Below.sub (hl : l.Below n) (hr : r.Below n) : (l - r).Below n :=
  fun v hv => (mem_vars_sub hv).elim (hl v) (hr v)

lemma Below.scale (hl : l.Below n) (c : FieldConst) : (l.scale c).Below n :=
  fun v hv => hl v (mem_vars_scale hv)

lemma Below.simplified (hl : l.Below n) : l.simplified.Below n :=
  fun v hv => hl v (mem_vars_simplified hv)

lemma Below.ofConst (c : FieldConst) : (ofConst c).Below n := fun _ hv => absurd hv List.not_mem_nil

lemma Below.zero : zero.Below n := fun _ hv => absurd hv List.not_mem_nil

lemma Below.one : one.Below n := fun _ hv => absurd hv List.not_mem_nil

lemma below_ofVar {v : VarId} : (ofVar v).Below n ↔ v.val < n := by simp [Below, vars, ofVar]

lemma eval_of_isConstant {R : Type*} [CommRing R] (h : l.isConstant = true) (x : VarId → R) :
    l.eval x = (l.constant : R) := by
  rw [eval, List.isEmpty_iff.mp h, evalTerms_nil, add_zero]

/-- A combination that mentions a variable depends on one. -/
lemma isConstant_simplified (h : l.isConstant = true) (hr : ∀ x : VarId → ℤ, r.eval x = l.eval x) :
    r.simplified.isConstant = true := by
  refine List.isEmpty_iff.mpr (List.eq_nil_iff_forall_not_mem.mpr fun t ht => ?_)
  refine not_mem_vars_of_eval (canonical_simplified r) (v := t.var) ?_ (List.mem_map_of_mem ht)
  rw [eval_simplified, eval_simplified, hr, hr, eval_of_isConstant h, eval_of_isConstant h]

end LinearCombination

namespace Frontend

open LinearCombination Emission

/-- The scalar field. -/
abbrev Fr := ZMod rModulus

/-- Zero or one. -/
def IsBit (x : Fr) : Prop := x = 0 ∨ x = 1

lemma isBit_of_mul_self {x : Fr} (h : x * x = x) : IsBit x := by
  have hfactor : x * (x - 1) = 0 := by rw [mul_sub, h, mul_one, sub_self]
  exact (mul_eq_zero.mp hfactor).imp_right sub_eq_zero.mp

lemma IsBit.mul {x y : Fr} (hx : IsBit x) (hy : IsBit y) : IsBit (x * y) := by
  rcases hx with rfl | rfl
  · exact .inl (zero_mul y)
  · rwa [one_mul]

lemma IsBit.one_sub {x : Fr} (hx : IsBit x) : IsBit (1 - x) := by
  rcases hx with rfl | rfl
  · exact .inr (sub_zero 1)
  · exact .inl (sub_self 1)

section Hints

variable (fakeGlv : FakeGlv)

/-- An op's outputs have the values that it computes from what it reads. -/
def Follows (w : VarId → Fr) (op : WitnessGen LinearCombination VarId) : Prop :=
  ∃ outs, (execWitnessOp (m := Id) rModulus fakeGlv (fun l => pure (l.eval w)) op).run = .ok outs ∧
    ∀ o ∈ outs, w o.1 = o.2

end Hints

namespace Builder

/-! ### The meaning of a builder -/

/-- `out` is the product of the operands in row `i`. -/
def IsProduct (b : Builder) (out : VarId) (i : ℕ) (w : VarId → Fr) : Prop :=
  ∃ c, b.constraints[i]? = some c ∧ w out = c.a.eval w * c.b.eval w

/-- The rows hold, and a merged product is the product. -/
def Sat (b : Builder) (w : VarId → Fr) : Prop :=
  (∀ c ∈ b.constraints, c.row.Sat w) ∧ ∀ m ∈ b.merged, b.IsProduct m.1 m.2.2 w

/-- Every variable with an op has the value of the op. -/
def Honest (fakeGlv : FakeGlv) (b : Builder) (w : VarId → Fr) : Prop :=
  (∀ op, some op ∈ b.witnessGen → Follows fakeGlv w op) ∧
    ∀ d ∈ b.deferredProducts, b.IsProduct d.2.2 d.2.1 w

/-- What a builder emits. -/
def emitter (fakeGlv : FakeGlv) : Emitter Builder VarId Fr where
  id := Fin.val
  next := nextVarId
  Sat := Sat
  Honest := Honest fakeGlv

/-- The products: each has a row, an empty slot for its op and an output of its own. It is pending or
merged or neither. -/
structure Ledger (b : Builder) : Prop where
  deferred_row : ∀ d ∈ b.deferredProducts, d.2.1 < b.constraints.length
  deferred_slot : ∀ d ∈ b.deferredProducts, b.witnessGen[d.1]? = some none
  deferred_below : ∀ d ∈ b.deferredProducts, d.2.2.val < b.nextVarId
  deferred_once : b.deferredProducts.Pairwise fun d e => d.1 ≠ e.1 ∧ d.2.2 ≠ e.2.2
  pending_row : ∀ v i k, b.pendingMul v = some (i, k) →
    ∃ c, b.constraints[i]? = some c ∧ c.c = ofVar v
  pending_deferred : ∀ v i k, b.pendingMul v = some (i, k) →
    (k, i, v) ∈ b.deferredProducts ∧ v ∉ b.merged.map Prod.fst
  merged_deferred : ∀ m ∈ b.merged, (m.2.1, m.2.2, m.1) ∈ b.deferredProducts
  merged_once : (b.merged.map Prod.fst).Nodup

lemma Ledger.merged_row {b : Builder} (h : b.Ledger) {m : VarId × ℕ × ℕ} (hm : m ∈ b.merged) :
    m.1.val < b.nextVarId ∧ m.2.2 < b.constraints.length :=
  ⟨h.deferred_below _ (h.merged_deferred m hm), h.deferred_row _ (h.merged_deferred m hm)⟩

/-- No bit is a constant, and the last term of bit 0 is the top bit's, which is taken off. -/
def BitForm (bits : List LinearCombination) : Prop :=
  (∀ l ∈ bits, l.isConstant = false) ∧ ∀ l ∈ bits.head?, ∀ t ∈ l.terms.getLast?, t.coeff < 0

/-- The invariant. -/
structure Sound (b : Builder) : Prop extends Ledger b where
  active : b.witnessOnly = false
  row_below : ∀ c ∈ b.constraints, ∀ v ∈ c.row.vars, v.val < b.nextVarId
  product_row : ∀ key out i, b.products key = some (out, i) → i < b.constraints.length
  bits_below : ∀ top bits, b.computedBits top = some bits → ∀ l ∈ bits, l.Below b.nextVarId
  boolean : ∀ w, b.Sat w → ∀ v, b.booleanVars v = true → IsBit (w v)
  bits : ∀ w, b.Sat w → ∀ top bits, b.computedBits top = some bits → ∀ l ∈ bits, IsBit (l.eval w)
  bits_form : ∀ top bits, b.computedBits top = some bits → BitForm bits

/-- The rows say nothing of a variable that is not allocated. -/
lemma Sound.local_sat {b : Builder} (hb : b.Sound) (fakeGlv : FakeGlv) :
    (emitter fakeGlv).Local b.nextVarId b.Sat := by
  intro w w' hagree
  refine and_congr (forall₂_congr fun c hc => ?_) (forall₂_congr fun m hm => ?_)
  · exact c.row.sat_congr fun v hv => hagree v (hb.row_below c hc v hv)
  · refine exists_congr fun c => and_congr_right fun hc => ?_
    have hmem : c ∈ b.constraints := List.mem_of_getElem? hc
    have heval : ∀ l : LinearCombination, (∀ v ∈ l.vars, v ∈ c.row.vars) → l.eval w' = l.eval w :=
      fun l hl => l.eval_congr fun v hv => hagree v (hb.row_below c hmem v (hl v hv))
    have ha := heval c.a fun v hv => R1csRow.mem_vars.mpr (.inl hv)
    have hbb := heval c.b fun v hv => R1csRow.mem_vars.mpr (.inr (.inl hv))
    rw [hagree m.1 (hb.merged_row hm).1, ha, hbb]

lemma local_eval (fakeGlv : FakeGlv) {n : ℕ} {l : LinearCombination} (hl : l.Below n)
    {w w' : VarId → Fr} (h : (emitter fakeGlv).Agree n w w') : l.eval w' = l.eval w :=
  l.eval_congr fun v hv => h v (hl v hv)

/-! ### Rows and ops that are appended -/

/-- `b'` has more rows, ops and products. -/
structure Appends (b b' : Builder) (rows : List R1csConstraint)
    (ops : List (Option (WitnessGen LinearCombination VarId))) (products : List (ℕ × ℕ × VarId)) :
    Prop where
  constraints : b'.constraints = b.constraints ++ rows
  witnessGen : b'.witnessGen = b.witnessGen ++ ops
  deferredProducts : b'.deferredProducts = b.deferredProducts ++ products
  merged : b'.merged = b.merged
  next_le : b.nextVarId ≤ b'.nextVarId
  active : b'.witnessOnly = b.witnessOnly

variable {b b' b'' : Builder} {rows rows' : List R1csConstraint}
  {ops ops' : List (Option (WitnessGen LinearCombination VarId))}
  {prods prods' : List (ℕ × ℕ × VarId)}

lemma Appends.refl (b : Builder) : Appends b b [] [] [] :=
  ⟨(List.append_nil _).symm, (List.append_nil _).symm, (List.append_nil _).symm, rfl, le_rfl, rfl⟩

lemma Appends.trans (h : Appends b b' rows ops prods) (h' : Appends b' b'' rows' ops' prods') :
    Appends b b'' (rows ++ rows') (ops ++ ops') (prods ++ prods') where
  constraints := by rw [h'.constraints, h.constraints, List.append_assoc]
  witnessGen := by rw [h'.witnessGen, h.witnessGen, List.append_assoc]
  deferredProducts := by rw [h'.deferredProducts, h.deferredProducts, List.append_assoc]
  merged := h'.merged.trans h.merged
  next_le := h.next_le.trans h'.next_le
  active := h'.active.trans h.active

lemma Appends.isProduct (h : Appends b b' rows ops prods) {out : VarId} {i : ℕ}
    (hi : i < b.constraints.length) (w : VarId → Fr) :
    b'.IsProduct out i w ↔ b.IsProduct out i w := by
  rw [IsProduct, IsProduct, h.constraints, List.getElem?_append_left hi]

/-- The new rows are what is new. -/
lemma Appends.sat_iff (h : Appends b b' rows ops prods) (hb : b.Sound) (w : VarId → Fr) :
    b'.Sat w ↔ b.Sat w ∧ ∀ c ∈ rows, c.row.Sat w := by
  have hmerged : (∀ m ∈ b'.merged, b'.IsProduct m.1 m.2.2 w)
      ↔ ∀ m ∈ b.merged, b.IsProduct m.1 m.2.2 w := by
    rw [h.merged]
    exact forall₂_congr fun m hm => h.isProduct (hb.merged_row hm).2 w
  rw [Sat, Sat, hmerged, h.constraints, List.forall_mem_append]
  tauto

lemma Appends.honest_iff (h : Appends b b' rows ops prods) (hb : b.Sound) (fakeGlv : FakeGlv)
    (w : VarId → Fr) : b'.Honest fakeGlv w ↔ b.Honest fakeGlv w ∧
      (∀ op, some op ∈ ops → Follows fakeGlv w op) ∧ ∀ d ∈ prods, b'.IsProduct d.2.2 d.2.1 w := by
  have hold : (∀ d ∈ b.deferredProducts, b'.IsProduct d.2.2 d.2.1 w)
      ↔ ∀ d ∈ b.deferredProducts, b.IsProduct d.2.2 d.2.1 w :=
    forall₂_congr fun d hd => h.isProduct (hb.deferred_row d hd) w
  rw [Honest, Honest, h.witnessGen, h.deferredProducts, List.forall_mem_append, hold]
  simp only [List.mem_append, or_imp, forall_and]
  tauto

lemma Appends.getElem?_constraints (h : Appends b b' rows ops prods) {i : ℕ} {c : R1csConstraint}
    (hc : b.constraints[i]? = some c) : b'.constraints[i]? = some c := by
  rw [h.constraints, List.getElem?_append_left (List.getElem?_eq_some_iff.mp hc).1, hc]

/-- The products stay. -/
lemma Ledger.appends (hb : b.Ledger) (h : Appends b b' rows ops [])
    (hpending : ∀ v i k, b'.pendingMul v = some (i, k) → b.pendingMul v = some (i, k)) :
    b'.Ledger := by
  have hprods : b'.deferredProducts = b.deferredProducts := by
    rw [h.deferredProducts, List.append_nil]
  constructor
  · intro d hd
    rw [hprods] at hd
    rw [h.constraints, List.length_append]
    exact Nat.lt_add_right _ (hb.deferred_row d hd)
  · intro d hd
    rw [hprods] at hd
    have hslot := hb.deferred_slot d hd
    rw [h.witnessGen, List.getElem?_append_left (List.getElem?_eq_some_iff.mp hslot).1, hslot]
  · intro d hd
    rw [hprods] at hd
    exact (hb.deferred_below d hd).trans_le h.next_le
  · rw [hprods]
    exact hb.deferred_once
  · intro v i k hv
    obtain ⟨c, hc, hcv⟩ := hb.pending_row v i k (hpending v i k hv)
    exact ⟨c, h.getElem?_constraints hc, hcv⟩
  · intro v i k hv
    rw [hprods, h.merged]
    exact hb.pending_deferred v i k (hpending v i k hv)
  · rw [hprods, h.merged]
    exact hb.merged_deferred
  · rw [h.merged]
    exact hb.merged_once

/-- **The invariant is kept** by what appends rows, if it learns only what they prove. -/
lemma Sound.appends (hb : b.Sound) (h : Appends b b' rows ops prods) (hledger : b'.Ledger)
    (hrows : ∀ c ∈ rows, ∀ v ∈ c.row.vars, v.val < b'.nextVarId)
    (hproducts : ∀ key out i, b'.products key = some (out, i) → b.products key = some (out, i) ∨
      i < b'.constraints.length)
    (hboolean : ∀ v, b'.booleanVars v = true → b.booleanVars v = true ∨
      ∀ w, b'.Sat w → IsBit (w v))
    (hbits : ∀ top bits, b'.computedBits top = some bits → b.computedBits top = some bits ∨
      (∀ l ∈ bits, l.Below b'.nextVarId ∧ ∀ w, b'.Sat w → IsBit (l.eval w)) ∧ BitForm bits) :
    b'.Sound := by
  have hlen : b.constraints.length ≤ b'.constraints.length := by
    rw [h.constraints, List.length_append]
    omega
  have hsat : ∀ w, b'.Sat w → b.Sat w := fun w hw => ((h.sat_iff hb w).mp hw).1
  refine ⟨hledger, ?_, ?_, ?_, ?_, ?_, ?_, ?_⟩
  · rw [h.active, hb.active]
  · intro c hc v hv
    rw [h.constraints, List.mem_append] at hc
    rcases hc with hc | hc
    · exact (hb.row_below c hc v hv).trans_le h.next_le
    · exact hrows c hc v hv
  · intro key out i hkey
    rcases hproducts key out i hkey with hkey | hi
    · exact (hb.product_row key out i hkey).trans_le hlen
    · exact hi
  · intro top bits htop l hl
    rcases hbits top bits htop with htop | hnew
    · exact (hb.bits_below top bits htop l hl).mono h.next_le
    · exact (hnew.1 l hl).1
  · intro w hw v hv
    rcases hboolean v hv with hv | hv
    · exact hb.boolean w (hsat w hw) v hv
    · exact hv w hw
  · intro w hw top bits htop l hl
    rcases hbits top bits htop with htop | hnew
    · exact hb.bits w (hsat w hw) top bits htop l hl
    · exact (hnew.1 l hl).2 w hw
  · intro top bits htop
    rcases hbits top bits htop with htop | hnew
    · exact hb.bits_form top bits htop
    · exact hnew.2

end Builder

end Frontend

end XarkCircuit
