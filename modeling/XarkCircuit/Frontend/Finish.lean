import XarkCircuit.Frontend.BuilderOps

/-!
The end of a build (`fill_products`, and the revival in `output.rs`).

* `fillProducts` gives every product that was not merged its op.
* `reviveMerged` gives a merged product that a row still mentions a row of its own, and its op.
* `finish_rows`: the rows that come out say what the builder said. `finish_ops`: so do the ops, if none
  of them touches a product that is dropped.
-/

namespace XarkCircuit

open Verifier (rModulus)

namespace Frontend

open LinearCombination Emission Emission.Emitter

namespace Builder

/-! ### The passes -/

section Passes

/-- The ops, with empty slots. -/
abbrev Slots := List (Option (WitnessGen LinearCombination VarId))

/-- An op for a slot. -/
def setSlot (gen : Slots) (i : ℕ) (op : WitnessGen LinearCombination VarId) : Outcome Slots :=
  if i < gen.length then .ok (gen.set i (some op)) else .error .panic

/-- The op of a product, from the operands in its row. -/
def placeProduct (rows : List R1csConstraint) (gen : Slots) (d : ℕ × ℕ × VarId) : Outcome Slots := do
  let c ← Outcome.orPanic rows[d.2.1]?
  setSlot gen d.1 (.product d.2.2 c.a c.b)

/-- The op of every product that was not merged. -/
def fillProducts (b : Builder) : Outcome Builder := do
  let gen ← (b.deferredProducts.filter fun d => (b.merged.lookup d.2.2).isNone).foldlM
    (placeProduct b.constraints) b.witnessGen
  return { b with witnessGen := gen, deferredProducts := [] }

/-- Does a row mention the variable? -/
def referenced (b : Builder) (v : VarId) : Bool := b.constraints.any fun c => v ∈ c.row.vars

/-- The row `a · b = out`, of the operands of `c`. -/
def mulRow (id : ℕ) (c : R1csConstraint) (out : VarId) : R1csConstraint :=
  ⟨id, c.a, c.b, ofVar out, none⟩

/-- A row and the op of a merged product. -/
def reviveProduct (b : Builder) (m : VarId × ℕ × ℕ) : Outcome Builder := do
  let c ← Outcome.orPanic b.constraints[m.2.2]?
  let gen ← placeProduct b.constraints b.witnessGen (m.2.1, m.2.2, m.1)
  return { b with
    nextConstraintId := b.nextConstraintId + 1
    constraints := b.constraints ++ [mulRow b.nextConstraintId c m.1]
    witnessGen := gen }

/-- The merged products that a row mentions, by their outputs. -/
def toRevive (b : Builder) : List (VarId × ℕ × ℕ) :=
  (b.merged.filter fun m => b.referenced m.1).mergeSort fun m n => m.1 ≤ n.1

def reviveMerged (b : Builder) : Outcome Builder :=
  b.toRevive.foldlM reviveProduct { b with merged := [] }

/-- `finish`, up to the numbering of the variables. -/
def finish (b : Builder) : Outcome Builder := do
  let b ← b.fillProducts
  b.reviveMerged

end Passes

variable {b b' f : Builder} {fakeGlv : FakeGlv} {lcHash : LinearCombination → ℕ}

/-! ### Slots -/

/-- `op` is that of the product `d`. -/
def IsOpOf (rows : List R1csConstraint) (d : ℕ × ℕ × VarId)
    (op : WitnessGen LinearCombination VarId) : Prop :=
  ∃ c, rows[d.2.1]? = some c ∧ op = .product d.2.2 c.a c.b

lemma mem_set_of_none {gen : Slots} {i : ℕ} (hslot : gen[i]? = some none)
    {op op' : WitnessGen LinearCombination VarId} :
    some op' ∈ gen.set i (some op) ↔ some op' ∈ gen ∨ op' = op := by
  constructor
  · intro h
    rcases List.mem_or_eq_of_mem_set h with h | h
    · exact .inl h
    · exact .inr (Option.some.inj h)
  · rintro (h | rfl)
    · obtain ⟨j, hj⟩ := List.mem_iff_getElem?.mp h
      refine List.mem_iff_getElem?.mpr ⟨j, ?_⟩
      have hij : i ≠ j := by
        rintro rfl
        rw [hslot] at hj
        cases hj
      rw [List.getElem?_set_ne hij, hj]
    · exact List.mem_set (List.getElem?_eq_some_iff.mp hslot).1 _

/-- **Empty slots are filled**, each with the op of its product, and the others stay. -/
lemma placeProducts {rows : List R1csConstraint} (gen : Slots) (ds : List (ℕ × ℕ × VarId))
    (hrow : ∀ d ∈ ds, d.2.1 < rows.length) (hslot : ∀ d ∈ ds, gen[d.1]? = some none)
    (honce : ds.Pairwise fun d e => d.1 ≠ e.1) :
    ∃ gen', ds.foldlM (placeProduct rows) gen = .ok gen' ∧
      (∀ op, some op ∈ gen' ↔ some op ∈ gen ∨ ∃ d ∈ ds, IsOpOf rows d op) ∧
      ∀ i, (∀ d ∈ ds, d.1 ≠ i) → gen'[i]? = gen[i]? := by
  induction ds generalizing gen with
  | nil => exact ⟨gen, rfl, fun op => by simp, fun _ _ => rfl⟩
  | cons d ds ih =>
      rw [List.forall_mem_cons] at hrow hslot
      obtain ⟨hne, honce⟩ := List.pairwise_cons.mp honce
      have hplace : placeProduct rows gen d
          = .ok (gen.set d.1 (some (.product d.2.2 rows[d.2.1].a rows[d.2.1].b))) := by
        rw [placeProduct, List.getElem?_eq_getElem hrow.1, Outcome.orPanic_some, Outcome.ok_bind,
          setSlot, if_pos (List.getElem?_eq_some_iff.mp hslot.1).1]
      obtain ⟨gen', hgen', hmem, hkept⟩ := ih
        (gen.set d.1 (some (.product d.2.2 rows[d.2.1].a rows[d.2.1].b))) hrow.2
        (fun e he => by rw [List.getElem?_set_ne (hne e he), hslot.2 e he]) honce
      have hop : ∀ op, IsOpOf rows d op ↔ op = .product d.2.2 rows[d.2.1].a rows[d.2.1].b := by
        intro op
        rw [IsOpOf, List.getElem?_eq_getElem hrow.1]
        simp
      refine ⟨gen', ?_, fun op => ?_, fun i hi => ?_⟩
      · rw [List.foldlM_cons, hplace, Outcome.ok_bind, hgen']
      · rw [hmem, mem_set_of_none hslot.1, List.exists_mem_cons_iff, hop, or_assoc]
      · rw [List.forall_mem_cons] at hi
        rw [hkept i hi.2, List.getElem?_set_ne hi.1]

lemma isNone_lookup {ms : List (VarId × ℕ × ℕ)} {v : VarId} :
    (ms.lookup v).isNone = true ↔ v ∉ ms.map Prod.fst := by
  rw [Option.isNone_iff_eq_none, List.lookup_eq_none_iff, List.mem_map]
  constructor
  · rintro h ⟨m, hm, rfl⟩
    simpa using h m hm
  · intro h m hm
    have hne : v ≠ m.1 := fun hv => h ⟨m, hm, hv.symm⟩
    simpa using hne

lemma Ledger.deferred_inj (hb : b.Ledger) {d e : ℕ × ℕ × VarId} (hd : d ∈ b.deferredProducts)
    (he : e ∈ b.deferredProducts) (h : d.1 = e.1 ∨ d.2.2 = e.2.2) : d = e := by
  by_contra hne
  have hsymm : Std.Symm fun d e : ℕ × ℕ × VarId => d.1 ≠ e.1 ∧ d.2.2 ≠ e.2.2 :=
    ⟨fun _ _ h => ⟨h.1.symm, h.2.symm⟩⟩
  obtain ⟨h₁, h₂⟩ := hb.deferred_once.forall hd he hne
  exact h.elim h₁ h₂

/-- The ops of the products that were not merged. -/
lemma fillProducts_spec (hb : b.Ledger) : ∃ gen,
    b.fillProducts = .ok { b with witnessGen := gen, deferredProducts := [] } ∧
      (∀ op, some op ∈ gen ↔ some op ∈ b.witnessGen ∨ ∃ d ∈ b.deferredProducts,
        d.2.2 ∉ b.merged.map Prod.fst ∧ IsOpOf b.constraints d op) ∧
      ∀ m ∈ b.merged, gen[m.2.1]? = some none := by
  have hmem : ∀ d, d ∈ b.deferredProducts.filter (fun d => (b.merged.lookup d.2.2).isNone) ↔
      d ∈ b.deferredProducts ∧ d.2.2 ∉ b.merged.map Prod.fst := by
    intro d
    rw [List.mem_filter, isNone_lookup]
  obtain ⟨gen, hgen, hops, hkept⟩ := placeProducts b.witnessGen
    (b.deferredProducts.filter fun d => (b.merged.lookup d.2.2).isNone)
    (fun d hd => hb.deferred_row d ((hmem d).mp hd).1)
    (fun d hd => hb.deferred_slot d ((hmem d).mp hd).1)
    ((hb.deferred_once.imp fun h => h.1).filter _)
  refine ⟨gen, ?_, fun op => ?_, fun m hm => ?_⟩
  · rw [fillProducts, hgen, Outcome.ok_bind]
    rfl
  · rw [hops]
    simp only [hmem, and_assoc]
  · have hdef := hb.merged_deferred m hm
    rw [hkept m.2.1 fun d hd hslot => ?_, hb.deferred_slot _ hdef]
    obtain ⟨hd, hout⟩ := (hmem d).mp hd
    obtain rfl := hb.deferred_inj hd hdef (.inl hslot)
    exact hout (List.mem_map_of_mem hm)

/-! ### Revival -/

/-- The rows and ops of products that come back. -/
lemma reviveProducts (ms : List (VarId × ℕ × ℕ)) (hrow : ∀ m ∈ ms, m.2.2 < b.constraints.length)
    (hslot : ∀ m ∈ ms, b.witnessGen[m.2.1]? = some none)
    (honce : ms.Pairwise fun m n => m.2.1 ≠ n.2.1) :
    ∃ b' rows, ms.foldlM reviveProduct b = .ok b' ∧ b'.constraints = b.constraints ++ rows ∧
      (∀ w, (∀ c ∈ rows, c.row.Sat w) ↔ ∀ m ∈ ms, b.IsProduct m.1 m.2.2 w) ∧
      ∀ op, some op ∈ b'.witnessGen ↔ some op ∈ b.witnessGen ∨
        ∃ m ∈ ms, IsOpOf b.constraints (m.2.1, m.2.2, m.1) op := by
  induction ms generalizing b with
  | nil => exact ⟨b, [], rfl, (List.append_nil _).symm, fun w => by simp, fun op => by simp⟩
  | cons m ms ih =>
      rw [List.forall_mem_cons] at hrow hslot
      obtain ⟨hne, honce⟩ := List.pairwise_cons.mp honce
      obtain ⟨gen, hgen, hops, hkept⟩ := placeProducts b.witnessGen [(m.2.1, m.2.2, m.1)]
        (by simpa using hrow.1) (by simpa using hslot.1) (List.pairwise_singleton _ _)
      simp only [List.foldlM_cons, List.foldlM_nil, Outcome.pure_eq_ok, Outcome.bind_ok] at hgen
      simp only [List.mem_singleton, exists_eq_left, forall_eq] at hops hkept
      have hget := List.getElem?_eq_getElem hrow.1
      have hstep : reviveProduct b m = .ok { b with
          nextConstraintId := b.nextConstraintId + 1
          constraints := b.constraints ++ [mulRow b.nextConstraintId b.constraints[m.2.2] m.1]
          witnessGen := gen } := by
        rw [reviveProduct, hget, Outcome.orPanic_some, Outcome.ok_bind, hgen, Outcome.ok_bind]
        rfl
      obtain ⟨b', rows, hb', hrows, hsat, hops'⟩ := ih (b := { b with
          nextConstraintId := b.nextConstraintId + 1
          constraints := b.constraints ++ [mulRow b.nextConstraintId b.constraints[m.2.2] m.1]
          witnessGen := gen })
        (fun n hn => by
          rw [List.length_append]
          exact Nat.lt_add_right _ (hrow.2 n hn))
        (fun n hn => by rw [hkept _ (hne n hn), hslot.2 n hn]) honce
      -- the older rows are where they were
      have hold : ∀ n ∈ ms, (b.constraints ++ [mulRow b.nextConstraintId b.constraints[m.2.2]
          m.1])[n.2.2]? = b.constraints[n.2.2]? :=
        fun n hn => List.getElem?_append_left (hrow.2 n hn)
      refine ⟨b', mulRow b.nextConstraintId b.constraints[m.2.2] m.1 :: rows, ?_, ?_, fun w => ?_,
        fun op => ?_⟩
      · rw [List.foldlM_cons, hstep, Outcome.ok_bind, hb']
      · rw [hrows, List.append_assoc]
        rfl
      · rw [List.forall_mem_cons, hsat, List.forall_mem_cons]
        refine and_congr ?_ (forall₂_congr fun n hn => ?_)
        · rw [IsProduct, hget]
          simp only [Option.some.injEq, exists_eq_left']
          change _ * _ = (ofVar m.1).eval w ↔ _
          rw [eval_ofVar]
          exact eq_comm
        · rw [IsProduct, IsProduct]
          dsimp only
          rw [hold n hn]
      · rw [hops', hops, List.exists_mem_cons_iff, or_assoc]
        refine or_congr_right (or_congr_right (exists_congr fun n => and_congr_right fun hn => ?_))
        rw [IsOpOf, IsOpOf]
        dsimp only
        rw [hold n hn]

/-! ### What comes out -/

/-- A merged product that no row mentions. -/
def Dropped (b : Builder) (v : VarId) : Prop :=
  v ∈ b.merged.map Prod.fst ∧ b.referenced v = false

lemma referenced_of_mem {c : R1csConstraint} (hc : c ∈ b.constraints) {v : VarId}
    (hv : v ∈ c.row.vars) : b.referenced v = true :=
  List.any_eq_true.mpr ⟨c, hc, decide_eq_true hv⟩

lemma mem_toRevive {m : VarId × ℕ × ℕ} :
    m ∈ b.toRevive ↔ m ∈ b.merged ∧ b.referenced m.1 = true := by
  rw [toRevive, List.mem_mergeSort, List.mem_filter]

/-- **A build ends**: with the rows that are there and those of the products that come back, and with
the op of every product that is not dropped. -/
lemma finish_spec (hb : b.Sound) : ∃ f rows, b.finish = .ok f ∧ f.constraints = b.constraints ++ rows ∧
    (∀ w, (∀ c ∈ rows, c.row.Sat w) ↔
      ∀ m ∈ b.merged, b.referenced m.1 = true → b.IsProduct m.1 m.2.2 w) ∧
    ∀ op, some op ∈ f.witnessGen ↔ some op ∈ b.witnessGen ∨
      ∃ d ∈ b.deferredProducts, ¬ b.Dropped d.2.2 ∧ IsOpOf b.constraints d op := by
  obtain ⟨gen, hfill, hgen, hslot⟩ := fillProducts_spec hb.toLedger
  have hperm : b.toRevive.Perm (b.merged.filter fun m => b.referenced m.1) := List.mergeSort_perm _ _
  -- products with one slot are one product
  have honce : b.toRevive.Pairwise fun m n => m.2.1 ≠ n.2.1 := by
    have hnodup : b.toRevive.Nodup := hperm.nodup_iff.mpr (hb.merged_once.of_map.filter _)
    refine hnodup.imp_of_mem fun {m n} hm hn hne hslots => hne ?_
    have heq := hb.deferred_inj (hb.merged_deferred m (mem_toRevive.mp hm).1)
      (hb.merged_deferred n (mem_toRevive.mp hn).1) (.inl hslots)
    simp only [Prod.mk.injEq] at heq
    exact Prod.ext heq.2.2 (Prod.ext heq.1 heq.2.1)
  obtain ⟨f, rows, hf, hrows, hsat, hops⟩ := reviveProducts
    (b := { b with witnessGen := gen, deferredProducts := [], merged := [] }) b.toRevive
    (fun m hm => (hb.merged_row (mem_toRevive.mp hm).1).2)
    (fun m hm => hslot m (mem_toRevive.mp hm).1) honce
  refine ⟨f, rows, ?_, hrows, fun w => ?_, fun op => ?_⟩
  · rw [finish, hfill, Outcome.ok_bind]
    exact hf
  · rw [hsat]
    simp only [mem_toRevive, and_imp]
    rfl
  · rw [hops, hgen, or_assoc]
    refine or_congr_right ⟨?_, ?_⟩
    · rintro (⟨d, hd, hout, hop⟩ | ⟨m, hm, hop⟩)
      · exact ⟨d, hd, fun hdrop => hout hdrop.1, hop⟩
      · obtain ⟨hmem, href⟩ := mem_toRevive.mp hm
        refine ⟨_, hb.merged_deferred m hmem, fun hdrop => ?_, hop⟩
        exact Bool.false_ne_true (hdrop.2.symm.trans href)
    · rintro ⟨d, hd, hdrop, hop⟩
      by_cases hout : d.2.2 ∈ b.merged.map Prod.fst
      · obtain ⟨m, hm, hmd⟩ := List.mem_map.mp hout
        have heq := hb.deferred_inj (hb.merged_deferred m hm) hd (.inr hmd)
        refine .inr ⟨m, mem_toRevive.mpr ⟨hm, ?_⟩, heq ▸ hop⟩
        rw [hmd]
        exact Bool.of_not_eq_false fun href => hdrop ⟨hout, href⟩
      · exact .inl ⟨d, hd, hout, hop⟩

/-! ### The meaning of what comes out -/

lemma lookup_of_mem {ms : List (VarId × ℕ × ℕ)} (h : (ms.map Prod.fst).Nodup)
    {m : VarId × ℕ × ℕ} (hm : m ∈ ms) : ms.lookup m.1 = some m.2 := by
  induction ms with
  | nil => exact absurd hm List.not_mem_nil
  | cons n ms ih =>
      obtain ⟨hn, h⟩ := List.nodup_cons.mp h
      rcases List.mem_cons.mp hm with rfl | hm
      · exact List.lookup_cons_self
      · have hne : m.1 ≠ n.1 := fun heq => hn (heq ▸ List.mem_map_of_mem hm)
        rw [List.lookup_cons, beq_false_of_ne hne]
        exact ih h hm

/-- `w`, with the products that are dropped. -/
def restored (b : Builder) (w : VarId → Fr) (v : VarId) : Fr :=
  if b.referenced v then w v
  else ((b.merged.lookup v).bind fun m => b.constraints[m.2]?).elim (w v)
    fun c => c.a.eval w * c.b.eval w

lemma restored_of_not_dropped {w : VarId → Fr} {v : VarId} (h : ¬ b.Dropped v) :
    b.restored w v = w v := by
  rw [restored]
  split_ifs with href
  · rfl
  · have hout : v ∉ b.merged.map Prod.fst := fun hout => h ⟨hout, Bool.eq_false_of_not_eq_true href⟩
    rw [Option.isNone_iff_eq_none.mp (isNone_lookup.mpr hout)]
    rfl

/-- The rows mention no product that is dropped. -/
lemma eval_restored {c : R1csConstraint} (hc : c ∈ b.constraints) (w : VarId → Fr)
    {l : LinearCombination} (hl : ∀ v ∈ l.vars, v ∈ c.row.vars) : l.eval (b.restored w) = l.eval w :=
  l.eval_congr fun v hv => restored_of_not_dropped fun hdrop =>
    Bool.false_ne_true (hdrop.2.symm.trans (referenced_of_mem hc (hl v hv)))

lemma isProduct_restored (hb : b.Sound) (w : VarId → Fr) {m : VarId × ℕ × ℕ} (hm : m ∈ b.merged)
    (h : b.referenced m.1 = true → b.IsProduct m.1 m.2.2 w) :
    b.IsProduct m.1 m.2.2 (b.restored w) := by
  have hlt := (hb.merged_row hm).2
  have hrow : b.constraints[m.2.2]? = some b.constraints[m.2.2] := List.getElem?_eq_getElem hlt
  have hmem := List.getElem_mem hlt
  have ha : b.constraints[m.2.2].a.eval (b.restored w) = b.constraints[m.2.2].a.eval w :=
    eval_restored hmem w fun v hv => R1csRow.mem_vars.mpr (.inl hv)
  have hbb : b.constraints[m.2.2].b.eval (b.restored w) = b.constraints[m.2.2].b.eval w :=
    eval_restored hmem w fun v hv => R1csRow.mem_vars.mpr (.inr (.inl hv))
  refine ⟨_, hrow, ?_⟩
  rw [ha, hbb, restored]
  split_ifs with href
  · obtain ⟨c, hc, hval⟩ := h href
    rw [hrow] at hc
    rw [hval, Option.some.inj hc]
  · rw [lookup_of_mem hb.merged_once hm, Option.bind_some, hrow]
    rfl

lemma sat_restored (hb : b.Sound) {w : VarId → Fr} (hrows : ∀ c ∈ b.constraints, c.row.Sat w)
    (hprods : ∀ m ∈ b.merged, b.referenced m.1 = true → b.IsProduct m.1 m.2.2 w) :
    b.Sat (b.restored w) := by
  refine ⟨fun c hc => ?_, fun m hm => isProduct_restored hb w hm (hprods m hm)⟩
  refine (c.row.sat_congr fun v hv => restored_of_not_dropped fun hdrop => ?_).mpr (hrows c hc)
  exact Bool.false_ne_true (hdrop.2.symm.trans (referenced_of_mem hc hv))

/-- The rows of a finished build, under the invariant. -/
lemma finished_rows (hb : b.Sound) : ∃ f, b.finish = .ok f ∧ ∀ w,
    (∀ c ∈ f.constraints, c.row.Sat w) ↔
      ∃ w', (∀ v, ¬ b.Dropped v → w' v = w v) ∧ b.Sat w' := by
  obtain ⟨f, rows, hf, hrows, hsat, -⟩ := finish_spec hb
  refine ⟨f, hf, fun w => ?_⟩
  rw [hrows, List.forall_mem_append, hsat]
  constructor
  · rintro ⟨hold, hprods⟩
    exact ⟨b.restored w, fun v => restored_of_not_dropped, sat_restored hb hold hprods⟩
  · rintro ⟨w', hagree, hall, hmerged⟩
    have hkept : ∀ c ∈ b.constraints, ∀ v ∈ c.row.vars, w v = w' v := fun c hc v hv =>
      (hagree v fun hdrop => Bool.false_ne_true
        (hdrop.2.symm.trans (referenced_of_mem hc hv))).symm
    refine ⟨fun c hc => (c.row.sat_congr (hkept c hc)).mpr (hall c hc), fun m hm href => ?_⟩
    obtain ⟨c, hc, hval⟩ := hmerged m hm
    have hmem := List.mem_of_getElem? hc
    refine ⟨c, hc, ?_⟩
    rw [← hagree m.1 fun hdrop => Bool.false_ne_true (hdrop.2.symm.trans href), hval,
      c.a.eval_congr fun v hv => hkept c hmem v (R1csRow.mem_vars.mpr (.inl hv)),
      c.b.eval_congr fun v hv => hkept c hmem v (R1csRow.mem_vars.mpr (.inr (.inl hv)))]

/-- **The rows of a finished build** hold of an assignment exactly where everything that was emitted,
each merged product included, holds of one that agrees with it on all but the products that are
dropped. -/
theorem finish_rows (h : Reached lcHash b) : ∃ f, b.finish = .ok f ∧ ∀ w,
    (∀ c ∈ f.constraints, c.row.Sat w) ↔
      ∃ w', (∀ v, ¬ b.Dropped v → w' v = w v) ∧ b.Sat w' :=
  finished_rows h.sound

/-- An input whose square, a merged product, is nine. -/
def squareIsNine : Outcome Builder := do
  let (x, b) ← (Builder.new true 4).bindInput "x" .public
  let (y, b) ← b.emitMul (fun _ => 0) (ofVar x) (ofVar x)
  b.emitRequireEq y (ofConst 9)

lemma reached_squareIsNine (h : squareIsNine = .ok b) : Reached (fun _ => 0) b := by
  obtain ⟨⟨x, b₁⟩, h₁, h⟩ := Outcome.bind_eq_ok.mp h
  obtain ⟨⟨y, b₂⟩, h₂, h⟩ := Outcome.bind_eq_ok.mp h
  obtain ⟨hb₁, -, hx, -⟩ := bindInput_spec (Sound.new true 4) h₁ fun _ _ _ => none
  have hvar : (ofVar x).Below b₁.nextVarId := below_ofVar.mpr hx
  obtain ⟨-, hy, -⟩ := emitMul_spec hb₁ hvar hvar h₂ fun _ _ _ => none
  exact ⟨true, 4, ((Relation.ReflTransGen.single (.bindInput h₁)).tail (.emitMul hvar hvar h₂)).tail
    (.emitRequireEq hy (Below.ofConst 9) h)⟩

theorem finish_rows_squareIsNine : ∃ b, squareIsNine = .ok b ∧ ∃ f, b.finish = .ok f ∧ ∀ w,
    (∀ c ∈ f.constraints, c.row.Sat w) ↔
      ∃ w', (∀ v, ¬ b.Dropped v → w' v = w v) ∧ b.Sat w' :=
  ⟨_, rfl, finish_rows (reached_squareIsNine rfl)⟩

end Builder

end Frontend

end XarkCircuit
