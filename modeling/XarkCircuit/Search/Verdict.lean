import XarkCircuit.Search.DfsSound

/-!
The verdicts of the witness search are true.

* `Extends` and `Satisfies` say what a solution of a program is; `WitnessSearch.Holds` and
  `Projection.Holds` what each verdict claims.
* `Indexed.new_spec`: the indexed rows and domains have the solutions of the program that extend
  the inputs.
* `search_sound` (**the verdicts are true**).
-/

namespace XarkCircuit.Search

/-! ### What the verdicts claim -/

/-- `x` gives the inputs their values. -/
def Extends (p : ℕ) (inputs : Inputs) (x : VarId → ZMod p) : Prop :=
  ∀ e ∈ inputs.entries, x e.1 = fromDecimal p e.2

/-- `x` satisfies the constraints. -/
def Satisfies {p : ℕ} (program : PrimitiveProgram) (x : VarId → ZMod p) : Prop :=
  ∀ e ∈ program.constraints, e.eval x = 0

/-- Some constraint mentions `v`. -/
def Mentions (program : PrimitiveProgram) (v : VarId) : Prop :=
  ∃ e ∈ program.constraints, v ∈ e.vars

/-- The claim of a verdict of `searchWitnesses`. -/
def WitnessSearch.Holds {p : ℕ} (program : PrimitiveProgram) (inputs : Inputs) :
    WitnessSearch p → Prop
  | .none => ∀ x : VarId → ZMod p, Extends p inputs x → ¬ Satisfies program x
  | .unique w =>
      (∀ v, (∃ y, (v, y) ∈ w) ↔ Mentions program v) ∧
        (∃ x, Extends p inputs x ∧ Satisfies program x) ∧
        ∀ x, Extends p inputs x → (Satisfies program x ↔ ∀ e ∈ w, x e.1 = e.2)
  | .multiple var _ => ∃ x y : VarId → ZMod p, (Extends p inputs x ∧ Satisfies program x) ∧
      (Extends p inputs y ∧ Satisfies program y) ∧ x var ≠ y var
  | .inconclusive _ => True

/-- The claim of a verdict of `searchProjection`. -/
def Projection.Holds {p : ℕ} (program : PrimitiveProgram) (fixed : Inputs) (project : List VarId) :
    Projection p → Prop
  | .none => ∀ x : VarId → ZMod p, Extends p fixed x → ¬ Satisfies program x
  | .one vals =>
      (∃ x, Extends p fixed x ∧ Satisfies program x) ∧
        ∀ x, Extends p fixed x → Satisfies program x → project.map x = vals
  | .many a b => a ≠ b ∧ ∃ x y : VarId → ZMod p, (Extends p fixed x ∧ Satisfies program x) ∧
      (Extends p fixed y ∧ Satisfies program y) ∧ project.map x = a ∧ project.map y = b
  | .inconclusive _ => True

/-! ### Indexing -/

section Index

variable {p : ℕ} {ids : List VarId}

lemma mem_referenced {program : PrimitiveProgram} {v : VarId} :
    v ∈ referenced program ↔ Mentions program v := by
  have hfold : ∀ vs ids : List VarId,
      v ∈ vs.foldl (fun ids v => if v ∈ ids then ids else ids ++ [v]) ids ↔ v ∈ ids ∨ v ∈ vs := by
    intro vs
    induction vs with
    | nil => simp
    | cons w vs ih =>
        intro ids
        rw [List.foldl_cons, ih, List.mem_cons]
        split_ifs with hw
        · constructor
          · exact fun h => h.imp_right Or.inr
          · rintro (h | rfl | h)
            · exact Or.inl h
            · exact Or.inl hw
            · exact Or.inr h
        · rw [List.mem_append, List.mem_singleton, or_assoc]
  rw [referenced, hfold, Mentions, List.mem_flatMap]
  simp

lemma nodup_referenced (program : PrimitiveProgram) : (referenced program).Nodup := by
  have hfold : ∀ vs ids : List VarId, ids.Nodup →
      (vs.foldl (fun ids v => if v ∈ ids then ids else ids ++ [v]) ids).Nodup := by
    intro vs
    induction vs with
    | nil => exact fun ids h => h
    | cons w vs ih =>
        intro ids h
        rw [List.foldl_cons]
        split_ifs with hw
        · exact ih ids h
        · refine ih _ (List.nodup_append.mpr ⟨h, List.nodup_singleton w, fun a ha b hb => ?_⟩)
          rw [List.mem_singleton.mp hb]
          exact fun hab => hw (hab ▸ ha)
  exact hfold _ [] List.nodup_nil

lemma get_of_indexOf {v : VarId} {i : Fin ids.length} (h : indexOf ids v = some i) :
    ids.get i = v := by
  rw [indexOf] at h
  split_ifs at h with hv
  obtain rfl := Option.some.inj h
  exact List.getElem_idxOf _

lemma indexOf_get (hnodup : ids.Nodup) (i : Fin ids.length) : indexOf ids (ids.get i) = some i := by
  rw [indexOf, dif_pos (List.get_mem ids i)]
  exact congrArg some (Fin.ext (hnodup.idxOf_getElem i.val i.isLt))

/-- The assignment of the dense indices. -/
def dense (ids : List VarId) (x : VarId → ZMod p) (i : Fin ids.length) : ZMod p := x (ids.get i)

/-- An assignment with the given dense part, and the inputs elsewhere. -/
def undense (ids : List VarId) (inputs : Inputs) (y : Fin ids.length → ZMod p) (v : VarId) :
    ZMod p :=
  match indexOf ids v with
  | some i => y i
  | none => fromDecimal p ((inputs.get v).getD "")

lemma dense_undense (hnodup : ids.Nodup) (inputs : Inputs) (y : Fin ids.length → ZMod p) :
    dense ids (undense ids inputs y) = y := by
  funext i
  rw [dense, undense, indexOf_get hnodup]

/-- The value of each entry is found. -/
lemma Inputs.get_of_mem (inputs : Inputs) {e : VarId × String} (he : e ∈ inputs.entries) :
    inputs.get e.1 = some e.2 := by
  have hfind : ∀ es : List (VarId × String), es.Pairwise (fun e e' => e.1 < e'.1) → e ∈ es →
      es.find? (fun e' => e'.1 = e.1) = some e := by
    intro es
    induction es with
    | nil => exact fun _ h => absurd h List.not_mem_nil
    | cons e₀ es ih =>
        intro hsorted hmem
        obtain ⟨hhd, htl⟩ := List.pairwise_cons.mp hsorted
        rcases List.mem_cons.mp hmem with rfl | hmem
        · exact List.find?_cons_of_pos (by simp)
        · rw [List.find?_cons_of_neg (by simpa using (hhd e hmem).ne)]
          exact ih htl hmem
  rw [Inputs.get, hfind _ inputs.sorted he, Option.map_some]

lemma Inputs.mem_of_get (inputs : Inputs) {v : VarId} {s : String} (h : inputs.get v = some s) :
    (v, s) ∈ inputs.entries := by
  obtain ⟨e, he, rfl⟩ := Option.map_eq_some_iff.mp h
  have hkey : e.1 = v := by simpa using List.find?_some he
  exact hkey ▸ List.mem_of_find?_eq_some he

/-! ### Rows -/

/-- Reading a list of terms. -/
lemma mapM_forall₂ {α β : Type} {f : α → Outcome β} {l : List α} {l' : List β}
    (h : l.mapM f = .ok l') : List.Forall₂ (fun a b => f a = .ok b) l l' := by
  induction l generalizing l' with
  | nil =>
      obtain rfl := Except.ok.inj h
      exact .nil
  | cons a l ih =>
      rw [List.mapM_cons] at h
      obtain ⟨b, hb, h⟩ := Outcome.bind_eq_ok.mp h
      obtain ⟨bs, hbs, h⟩ := Outcome.bind_eq_ok.mp h
      obtain rfl := Except.ok.inj h
      exact .cons hb (ih hbs)

/-- Terms read one by one keep their sum. -/
lemma sum_eq_of_forall₂ {α β : Type} {R : α → β → Prop} {f : α → ZMod p} {g : β → ZMod p}
    {l : List α} {l' : List β} (h : List.Forall₂ R l l') (hfg : ∀ a b, R a b → g b = f a) :
    (l'.map g).sum = (l.map f).sum := by
  induction h with
  | nil => rfl
  | cons hab _ ih =>
      rw [List.map_cons, List.map_cons, List.sum_cons, List.sum_cons, ih, hfg _ _ hab]

lemma orPanic_indexOf {v : VarId} {i : Fin ids.length}
    (h : Outcome.orPanic (indexOf ids v) = .ok i) : ids.get i = v := by
  cases hi : indexOf ids v with
  | none => rw [hi] at h; exact absurd h (by simp)
  | some j =>
      rw [hi, Outcome.orPanic_some, Except.ok.injEq] at h
      exact h ▸ get_of_indexOf hi

/-- An indexed row has the value of its expression. -/
lemma eval_rowOf {e : Expression} {row : Row p ids.length} (h : rowOf p ids e = .ok row)
    (x : VarId → ZMod p) : row.eval (dense ids x) = e.eval x := by
  obtain ⟨muls, hmuls, h⟩ := Outcome.bind_eq_ok.mp h
  obtain ⟨lins, hlins, h⟩ := Outcome.bind_eq_ok.mp h
  obtain rfl := Except.ok.inj h
  have hm : (muls.map fun t => t.1 * dense ids x t.2.1 * dense ids x t.2.2).sum
      = (e.mulTerms.map fun t => (t.coeff : ZMod p) * x t.left * x t.right).sum := by
    refine sum_eq_of_forall₂ (mapM_forall₂ hmuls) fun t t' ht => ?_
    obtain ⟨l, hl, ht⟩ := Outcome.bind_eq_ok.mp ht
    obtain ⟨r, hr, ht⟩ := Outcome.bind_eq_ok.mp ht
    obtain rfl := Except.ok.inj ht
    dsimp only [dense]
    rw [orPanic_indexOf hl, orPanic_indexOf hr]
  have hl : (lins.map fun t => t.1 * dense ids x t.2).sum
      = (e.linearTerms.map fun t => (t.coeff : ZMod p) * x t.var).sum := by
    refine sum_eq_of_forall₂ (mapM_forall₂ hlins) fun t t' ht => ?_
    obtain ⟨i, hi, ht⟩ := Outcome.bind_eq_ok.mp ht
    obtain rfl := Except.ok.inj ht
    dsimp only [dense]
    rw [orPanic_indexOf hi]
  rw [Row.eval, Expression.eval, hm, hl]
  ring

/-! ### The inputs -/

/-- The fixed domains hold the given values of the declared inputs, and nothing else. -/
structure FixesInputs (ids : List VarId) (inputs : Inputs) (vars : List Var)
    (dom : Fin ids.length → Dom p) : Prop where
  given : ∀ i, dom i = .free ∨
    ∃ s, inputs.get (ids.get i) = some s ∧ dom i = .val (fromDecimal p s)
  fixed : ∀ var ∈ vars, var.role ≠ .derived → ∀ s, inputs.get var.id = some s →
    ∀ i, ids.get i = var.id → dom i = .val (fromDecimal p s)

lemma fixInput_spec {inputs : Inputs} {allowFree : Bool} {vars : List Var} {var : Var}
    {dom dom' : Fin ids.length → Dom p} (hnodup : ids.Nodup)
    (hfix : FixesInputs ids inputs vars dom)
    (h : fixInput p ids inputs allowFree dom var = .ok dom') :
    FixesInputs ids inputs (vars ++ [var]) dom' := by
  -- a variable that the step leaves alone
  have hskip : (var.role ≠ .derived → ∀ s, inputs.get var.id = some s →
      ∀ i : Fin ids.length, ids.get i ≠ var.id) → FixesInputs ids inputs (vars ++ [var]) dom := by
    refine fun hno => ⟨hfix.given, fun var' hvar' hrole s hs i hi => ?_⟩
    rcases List.mem_append.mp hvar' with hvar' | hvar'
    · exact hfix.fixed var' hvar' hrole s hs i hi
    · obtain rfl := List.mem_singleton.mp hvar'
      exact absurd hi (hno hrole s hs i)
  unfold fixInput at h
  by_cases hrole : var.role = .derived
  · rw [if_pos hrole] at h
    obtain rfl := Except.ok.inj h
    exact hskip fun hne => absurd hrole hne
  rw [if_neg hrole] at h
  cases hget : inputs.get var.id with
  | none =>
      rw [hget] at h
      dsimp only at h
      split_ifs at h
      obtain rfl := Except.ok.inj h
      exact hskip fun _ s hs => absurd (hget.symm.trans hs) (by simp)
  | some value =>
      rw [hget] at h
      dsimp only at h
      cases hindex : indexOf ids var.id with
      | none =>
          rw [hindex] at h
          obtain rfl := Except.ok.inj h
          refine hskip fun _ _ _ i hi => ?_
          rw [← hi, indexOf_get hnodup] at hindex
          exact absurd hindex (by simp)
      | some j =>
          rw [hindex] at h
          obtain rfl := Except.ok.inj h
          have hj := get_of_indexOf hindex
          refine ⟨fun i => ?_, fun var' hvar' hrole' s hs i hi => ?_⟩
          · by_cases hij : i = j
            · rw [hij, Function.update_self, hj]
              exact Or.inr ⟨value, hget, rfl⟩
            · rw [Function.update_of_ne hij]
              exact hfix.given i
          · by_cases hij : i = j
            · have hid : var'.id = var.id := by rw [← hi, hij, hj]
              rw [hid, hget, Option.some.injEq] at hs
              rw [hij, Function.update_self, hs]
            · rw [Function.update_of_ne hij]
              rcases List.mem_append.mp hvar' with hvar' | hvar'
              · exact hfix.fixed var' hvar' hrole' s hs i hi
              · rw [List.mem_singleton.mp hvar', ← hj] at hi
                exact absurd ((List.nodup_iff_injective_get.mp hnodup) hi) hij

lemma fixInputs_spec {inputs : Inputs} {allowFree : Bool} {vars : List Var}
    {dom : Fin ids.length → Dom p} (hnodup : ids.Nodup)
    (h : fixInputs p ids inputs allowFree vars = .ok dom) : FixesInputs ids inputs vars dom := by
  have hloop : ∀ (vars done : List Var) (dom₀ dom : Fin ids.length → Dom p),
      FixesInputs ids inputs done dom₀ →
      vars.foldlM (fixInput p ids inputs allowFree) dom₀ = .ok dom →
      FixesInputs ids inputs (done ++ vars) dom := by
    intro vars
    induction vars with
    | nil =>
        intro done dom₀ dom h₀ h
        obtain rfl := Except.ok.inj h
        rwa [List.append_nil]
    | cons var vars ih =>
        intro done dom₀ dom h₀ h
        rw [List.foldlM_cons] at h
        cases h₁ : fixInput p ids inputs allowFree dom₀ var with
        | error e => rw [h₁] at h; exact absurd h (by simp [bind, Except.bind])
        | ok dom₁ =>
            rw [h₁] at h
            have hrest := ih (done ++ [var]) dom₁ dom (fixInput_spec hnodup h₀ h₁) h
            rwa [List.append_assoc, List.singleton_append] at hrest
  exact hloop vars [] _ dom ⟨fun _ => Or.inl rfl, by simp⟩ h

/-- Every given value names a declared input. -/
lemma checkGiven_spec {program : PrimitiveProgram} {es : List (VarId × String)}
    (h : checkGiven program es = none) :
    ∀ e ∈ es, ∃ var ∈ program.vars, var.id = e.1 ∧ var.role ≠ .derived := by
  induction es with
  | nil => simp
  | cons e es ih =>
      rw [checkGiven] at h
      cases hfind : program.vars.find? fun var => var.id = e.1 with
      | none => rw [hfind] at h; exact absurd h (by simp)
      | some var =>
          rw [hfind] at h
          dsimp only at h
          split_ifs at h with hrole
          intro e' he'
          rcases List.mem_cons.mp he' with rfl | he'
          · exact ⟨var, List.mem_of_find?_eq_some hfind, by simpa using List.find?_some hfind,
              hrole⟩
          · exact ih h e' he'

/-! ### The whole problem -/

/-- The rows and the domains of `ix` say of the dense indices what the constraints and the inputs
say of the variables. -/
structure Indexes (program : PrimitiveProgram) (inputs : Inputs) (ix : Indexed p) : Prop where
  nodup : ix.ids.Nodup
  mem : ∀ v, v ∈ ix.ids ↔ Mentions program v
  ok : ∀ v, ix.dom v = .free ∨ ∃ y, ix.dom v = .val y
  sat : ∀ x : VarId → ZMod p, Sat ix.row (dense ix.ids x) ↔ Satisfies program x
  indexed : ∀ x : VarId → ZMod p, Extends p inputs x → ix.start.Respects (dense ix.ids x)
  named : ∀ y, ix.start.Respects y → ∃ x : VarId → ZMod p, dense ix.ids x = y ∧ Extends p inputs x

/-- The indexed rows hold where the constraints do. -/
lemma sat_iff {program : PrimitiveProgram} {dom : Fin ids.length → Dom p}
    {rows : List (Row p ids.length)} (h : program.constraints.mapM (rowOf p ids) = .ok rows)
    (x : VarId → ZMod p) :
    Sat (Indexed.row ⟨ids, dom, rows⟩) (dense ids x) ↔ Satisfies program x := by
  have hrows := mapM_forall₂ h
  constructor
  · intro hsat e he
    obtain ⟨i, rfl⟩ := List.get_of_mem he
    have hi : i.val < rows.length := hrows.length_eq ▸ i.isLt
    rw [← eval_rowOf (hrows.get i.isLt hi)]
    exact hsat ⟨i.val, hi⟩
  · intro hsat ci
    have hci : ci.val < program.constraints.length := by
      rw [hrows.length_eq]
      exact ci.isLt
    exact (eval_rowOf (hrows.get hci ci.isLt) x).trans (hsat _ (List.get_mem _ ⟨ci.val, hci⟩))

/-- **Indexing** keeps the problem. -/
theorem Indexed.new_spec {program : PrimitiveProgram} {inputs : Inputs} {allowFree : Bool}
    {ix : Indexed p} (h : Indexed.new p program inputs allowFree = .ok (.ok ix)) :
    Indexes program inputs ix := by
  have hnodup := nodup_referenced program
  unfold Indexed.new at h
  cases hgiven : checkGiven program inputs.entries with
  | some why => rw [hgiven] at h; exact absurd (Except.ok.inj h) (by simp)
  | none =>
  rw [hgiven] at h
  dsimp only at h
  cases hfixed : fixInputs p (referenced program) inputs allowFree program.vars with
  | error why => rw [hfixed] at h; exact absurd (Except.ok.inj h) (by simp)
  | ok dom =>
  rw [hfixed] at h
  obtain ⟨rows, hrows, h⟩ := Outcome.bind_eq_ok.mp h
  obtain rfl := Except.ok.inj (Except.ok.inj h)
  have hfix := fixInputs_spec hnodup hfixed
  refine ⟨hnodup, fun v => mem_referenced, fun v => ?_, sat_iff hrows, fun x hx => ⟨fun i => ?_, ?_⟩,
    fun y hy => ⟨undense _ inputs y, dense_undense hnodup inputs y, fun e he => ?_⟩⟩
  · exact (hfix.given v).imp_right fun ⟨s, _, hs⟩ => ⟨_, hs⟩
  · show (dom i).Mem (x _)
    rcases hfix.given i with hfree | ⟨s, hs, hval⟩
    · rw [hfree]
      trivial
    · rw [hval]
      exact hx _ (inputs.mem_of_get hs)
  · exact fun v u a b hal => absurd hal (by simp [Indexed.start])
  · have hget := inputs.get_of_mem he
    rw [undense]
    cases hindex : indexOf (referenced program) e.1 with
    | none => rw [hget]; rfl
    | some i =>
        obtain ⟨var, hvar, hid, hrole⟩ := checkGiven_spec hgiven e he
        have hdom := hfix.fixed var hvar hrole e.2 (by rw [hid, hget]) i
          (by rw [get_of_indexOf hindex, hid])
        have hmem : (dom i).Mem (y i) := hy.dom i
        rwa [hdom] at hmem

end Index

/-! ### What the search finds -/

section Run

variable {p : ℕ} [Fact p.Prime] {program : PrimitiveProgram} {inputs : Inputs} {ix : Indexed p}
  {fuel budget : ℕ}

omit [Fact p.Prime] in
lemma Indexes.start_ok (h : Indexes program inputs ix) : ix.start.Ok := by
  refine ⟨⟨fun v lo hi hdom => ?_, ?_, ?_, ?_⟩, fun ci _ => List.mem_finRange ci⟩
  · rcases h.ok v with hv | ⟨y, hv⟩
    · exact absurd (hv.symm.trans hdom) (by simp)
    · exact absurd (hv.symm.trans hdom) (by simp)
  · exact fun v u a b hal => absurd hal (by simp [Indexed.start])
  · exact fun v u hmem => absurd hmem (by simp [Indexed.start])
  · exact fun v u a b hal => absurd hal (by simp [Indexed.start])

/-- The assignments recorded by a run are solutions, and all of them unless the run stopped or only
sampled. -/
lemma run_spec (h : Indexes program inputs ix) {project : Option (List (Fin ix.ids.length))}
    {name : VarId → String} {t : Tally p} (hrun : ix.run fuel budget project name = .ok t) :
    Explored project (fun y => ∃ x : VarId → ZMod p, dense ix.ids x = y ∧ Extends p inputs x ∧
      Satisfies program x) ⟨⟨[], []⟩, 0, none, none⟩ t := by
  obtain ⟨r, hdfs, hr⟩ := Outcome.bind_eq_ok.mp hrun
  obtain rfl := Except.ok.inj hr
  have hall : Settled ix.row ix.start := fun ci => Or.inl rfl
  refine (dfs_spec h.start_ok hall hdfs).explored.widen (fun y hy => ?_) ?_
  · obtain ⟨x, rfl, hx⟩ := h.named y hy.1
    exact ⟨x, rfl, hx, (h.sat x).mp hy.2⟩
  · rintro - - y ⟨x, rfl, hx, hsat⟩
    exact ⟨h.indexed x hx, (h.sat x).mpr hsat⟩

omit [Fact p.Prime] in
lemma foldl_recorded_none {n : ℕ} (xs : List (Fin n → ZMod p)) (t : Found p) :
    xs.foldl (recorded none) t = { t with found := t.found ++ xs.map List.ofFn } := by
  induction xs generalizing t with
  | nil => simp
  | cons x xs ih => rw [List.foldl_cons, ih]; simp [recorded]

/-- What is recorded of the projections of some assignments. -/
structure Projected {n : ℕ} (proj : List (Fin n)) (xs : List (Fin n → ZMod p)) (t : Found p) :
    Prop where
  found : t.found = []
  covers : ∀ x ∈ xs, proj.map x ∈ t.projFound
  images : ∀ vals ∈ t.projFound, ∃ x ∈ xs, proj.map x = vals
  differ : ∀ a l, t.projFound = a :: l → a ∉ l

omit [Fact p.Prime] in
lemma projected_foldl {n : ℕ} (proj : List (Fin n)) (xs : List (Fin n → ZMod p)) :
    Projected proj xs (xs.foldl (recorded (some proj)) ⟨[], []⟩) := by
  induction xs using List.reverseRecOn with
  | nil => exact ⟨rfl, by simp, by simp, by simp⟩
  | append_singleton xs x ih =>
      rw [List.foldl_append, List.foldl_cons, List.foldl_nil]
      generalize xs.foldl (recorded (some proj)) ⟨[], []⟩ = t at ih
      rw [recorded]
      split_ifs with hhead
      · refine ⟨ih.found, fun y hy => ?_, fun vals hvals => ?_, fun a l hal => ?_⟩
        · refine List.mem_append.mpr ((List.mem_append.mp hy).imp (ih.covers y) fun hy => ?_)
          rw [List.mem_singleton.mp hy]
          exact List.mem_singleton_self _
        · rcases List.mem_append.mp hvals with hvals | hvals
          · obtain ⟨y, hy, rfl⟩ := ih.images vals hvals
            exact ⟨y, List.mem_append_left _ hy, rfl⟩
          · exact ⟨x, List.mem_append_right _ (List.mem_singleton_self _),
              (List.mem_singleton.mp hvals).symm⟩
        · cases hpf : t.projFound with
          | nil =>
              dsimp only at hal
              rw [hpf, List.nil_append] at hal
              rw [← (List.cons.inj hal).2]
              exact List.not_mem_nil
          | cons b l' =>
              dsimp only at hal
              rw [hpf, List.cons_append] at hal
              obtain ⟨rfl, rfl⟩ := List.cons.inj hal
              rw [hpf] at hhead
              intro hmem
              rcases List.mem_append.mp hmem with hmem | hmem
              · exact ih.differ b l' hpf hmem
              · exact hhead (congrArg some (List.mem_singleton.mp hmem))
      · refine ⟨ih.found, fun y hy => ?_, fun vals hvals => ?_, ih.differ⟩
        · rcases List.mem_append.mp hy with hy | hy
          · exact ih.covers y hy
          · rw [List.mem_singleton.mp hy]
            exact List.mem_of_mem_head? (not_not.mp hhead)
        · obtain ⟨y, hy, rfl⟩ := ih.images vals hvals
          exact ⟨y, List.mem_append_left _ hy, rfl⟩

/-! ### The verdicts -/

omit [Fact p.Prime] in
/-- Two different lists of one length differ at the first difference. -/
lemma firstDifference_spec {a b : List (ZMod p)} (hlen : a.length = b.length) (hne : a ≠ b) :
    a[firstDifference a b]? ≠ b[firstDifference a b]? := by
  cases hfind : (List.range a.length).find? fun i => a[i]? ≠ b[i]? with
  | some i =>
      have hi := List.find?_some hfind
      rw [firstDifference, hfind, Option.getD_some]
      simpa using hi
  | none =>
      refine absurd (List.ext_getElem? fun i => ?_) hne
      by_cases hi : i < a.length
      · simpa using List.find?_eq_none.mp hfind i (List.mem_range.mpr hi)
      · rw [List.getElem?_eq_none (not_lt.mp hi), List.getElem?_eq_none (hlen ▸ not_lt.mp hi)]

omit [Fact p.Prime] in
/-- A run that stopped neither early nor on two finds. -/
lemma done_eq_false {t : Tally p} (hfound : t.found.length < 2) (hproj : t.projFound.length < 2)
    (hstuck : t.stuck = none) : t.done = false := by
  simp [Tally.done, hstuck, hfound, hproj]

omit [Fact p.Prime] in
lemma mem_zip_ofFn {ids : List VarId} {y : Fin ids.length → ZMod p} {e : VarId × ZMod p} :
    e ∈ ids.zip (List.ofFn y) ↔ ∃ i, e = (ids.get i, y i) := by
  rw [List.mem_iff_getElem]
  constructor
  · rintro ⟨i, hi, rfl⟩
    have hlt : i < ids.length := by simpa using hi
    exact ⟨⟨i, hlt⟩, by simp⟩
  · rintro ⟨i, rfl⟩
    exact ⟨i.val, by simp, by simp⟩

/-- **A verdict of `search_witnesses`** is true. -/
theorem witnesses_sound {w : WitnessSearch p}
    (h : witnesses p fuel program inputs budget = .ok w) : w.Holds program inputs := by
  obtain ⟨r, hnew, h⟩ := Outcome.bind_eq_ok.mp h
  cases r with
  | error why =>
      obtain rfl := Except.ok.inj h
      trivial
  | ok ix =>
  have hix := Indexed.new_spec hnew
  obtain ⟨t, hrun, h⟩ := Outcome.bind_eq_ok.mp h
  obtain ⟨⟨ys, hnodup, hys, hfound, hall⟩, -, -⟩ := run_spec hix hrun
  rw [foldl_recorded_none] at hfound
  have hf : t.found = ys.map List.ofFn := by rw [hfound]; rfl
  have hpf : t.projFound = [] := by rw [hfound]
  rw [hf] at h
  have hdone : ys.length < 2 → (t.stuck <|> t.incomplete) = none →
      ∀ x : VarId → ZMod p, Extends p inputs x → Satisfies program x → dense ix.ids x ∈ ys := by
    intro hlen hnone x hx hsat
    obtain ⟨hstuck, hinc⟩ := (Option.orElse_eq_none _ _).mp hnone
    refine hall (done_eq_false ?_ ?_ hstuck) hinc _ ⟨x, rfl, hx, hsat⟩
    · rwa [hf, List.length_map]
    · rw [hpf]
      exact Nat.zero_lt_two
  match ys, hnodup, hys, hdone, h with
  | [], _, _, hdone, h =>
      cases hwhy : t.stuck <|> t.incomplete with
      | some why =>
          rw [hwhy] at h
          obtain rfl := Except.ok.inj h
          trivial
      | none =>
          rw [hwhy] at h
          obtain rfl := Except.ok.inj h
          exact fun x hx hsat => absurd (hdone Nat.zero_lt_two hwhy x hx hsat) List.not_mem_nil
  | [y], _, hys, hdone, h =>
      cases hwhy : t.stuck <|> t.incomplete with
      | some why =>
          rw [hwhy] at h
          obtain rfl := Except.ok.inj h
          trivial
      | none =>
          rw [hwhy] at h
          obtain rfl := Except.ok.inj h
          obtain ⟨x₀, rfl, hext, hsat⟩ := hys y (List.mem_singleton_self y)
          refine ⟨fun v => ?_, ⟨x₀, hext, hsat⟩, fun x hx => ⟨fun hx' e he => ?_, fun hw => ?_⟩⟩
          · rw [← hix.mem, List.mem_iff_get]
            constructor
            · rintro ⟨z, hz⟩
              obtain ⟨i, hi⟩ := mem_zip_ofFn.mp hz
              exact ⟨i, (congrArg Prod.fst hi).symm⟩
            · rintro ⟨i, rfl⟩
              exact ⟨_, mem_zip_ofFn.mpr ⟨i, rfl⟩⟩
          · obtain ⟨i, rfl⟩ := mem_zip_ofFn.mp he
            exact congrFun (List.mem_singleton.mp (hdone Nat.one_lt_two hwhy x hx hx')) i
          · have hdense : dense ix.ids x = dense ix.ids x₀ :=
              funext fun i => hw _ (mem_zip_ofFn.mpr ⟨i, rfl⟩)
            rw [← hix.sat, hdense, hix.sat]
            exact hsat
  | y :: y' :: ys, hnodup, hys, _, h =>
      obtain ⟨var, hvar, h⟩ := Outcome.bind_eq_ok.mp h
      obtain rfl := Except.ok.inj h
      obtain ⟨x, rfl, hx⟩ := hys y List.mem_cons_self
      obtain ⟨x', rfl, hx'⟩ := hys y' (List.mem_cons_of_mem _ List.mem_cons_self)
      have hne : List.ofFn (dense ix.ids x) ≠ List.ofFn (dense ix.ids x') := fun heq =>
        (List.nodup_cons.mp hnodup).1 (List.ofFn_injective heq ▸ List.mem_cons_self)
      refine ⟨x, x', hx, hx', fun heq => ?_⟩
      refine firstDifference_spec (by simp) hne ?_
      generalize firstDifference (List.ofFn (dense ix.ids x)) _ = i at hvar ⊢
      cases hi : ix.ids[i]? with
      | none => rw [hi] at hvar; exact absurd hvar (by simp)
      | some v =>
          rw [hi, Outcome.orPanic_some, Except.ok.injEq] at hvar
          subst hvar
          obtain ⟨hlt, rfl⟩ := List.getElem?_eq_some_iff.mp hi
          simp [dense, hlt, heq]

omit [Fact p.Prime] in
/-- The projected indices are those of the projected variables. -/
lemma map_of_projectIndices {ids : List VarId} {project : List VarId}
    {proj : List (Fin ids.length)} (h : projectIndices ids project = .ok proj)
    (x : VarId → ZMod p) : proj.map (dense ids x) = project.map x := by
  induction project generalizing proj with
  | nil =>
      obtain rfl := Except.ok.inj h
      rfl
  | cons v vs ih =>
      rw [projectIndices] at h
      cases hindex : indexOf ids v with
      | none => rw [hindex] at h; exact absurd h (by simp)
      | some i =>
          rw [hindex] at h
          cases hrest : projectIndices ids vs with
          | error w => rw [hrest] at h; exact absurd h (by simp [Functor.map, Except.map])
          | ok is =>
              rw [hrest] at h
              obtain rfl := Except.ok.inj h
              rw [List.map_cons, List.map_cons, ih hrest, dense, get_of_indexOf hindex]

/-- **A verdict of `search_projection`** is true. -/
theorem projections_sound {project : List VarId} {w : Projection p}
    (h : projections p fuel program inputs project budget = .ok w) :
    w.Holds program inputs project := by
  obtain ⟨r, hnew, h⟩ := Outcome.bind_eq_ok.mp h
  cases r with
  | error why =>
      obtain rfl := Except.ok.inj h
      trivial
  | ok ix =>
  have hix := Indexed.new_spec hnew
  dsimp only at h
  cases hproj : projectIndices ix.ids project with
  | error v =>
      rw [hproj] at h
      obtain rfl := Except.ok.inj h
      trivial
  | ok proj =>
  rw [hproj] at h
  obtain ⟨t, hrun, h⟩ := Outcome.bind_eq_ok.mp h
  obtain ⟨⟨ys, -, hys, hfound, hall⟩, -, hfew⟩ := run_spec hix hrun
  have hlen : t.projFound.length ≤ 2 := hfew (Nat.zero_le 2)
  have hseen := hfound ▸ projected_foldl proj ys
  -- what was seen are projections of solutions
  have himage : ∀ vals ∈ t.projFound, ∃ x : VarId → ZMod p,
      (Extends p inputs x ∧ Satisfies program x) ∧ project.map x = vals := by
    intro vals hvals
    obtain ⟨y, hy, rfl⟩ := hseen.images vals hvals
    obtain ⟨x, rfl, hx⟩ := hys y hy
    exact ⟨x, hx, (map_of_projectIndices hproj x).symm⟩
  have hdone : t.projFound.length < 2 → (t.stuck <|> t.incomplete) = none →
      ∀ x : VarId → ZMod p, Extends p inputs x → Satisfies program x →
        project.map x ∈ t.projFound := by
    intro hlt hnone x hx hsat
    obtain ⟨hstuck, hinc⟩ := (Option.orElse_eq_none _ _).mp hnone
    have hfound0 : t.found.length < 2 := by
      rw [hseen.found]
      exact Nat.zero_lt_two
    rw [← map_of_projectIndices hproj x]
    exact hseen.covers _ (hall (done_eq_false hfound0 hlt hstuck) hinc _ ⟨x, rfl, hx, hsat⟩)
  have hdiffer := hseen.differ
  generalize t.projFound = seen at h hlen himage hdone hdiffer
  match seen, hlen, himage, hdone, hdiffer, h with
  | [], _, _, hdone, _, h =>
      cases hwhy : t.stuck <|> t.incomplete with
      | some why =>
          rw [hwhy] at h
          obtain rfl := Except.ok.inj h
          trivial
      | none =>
          rw [hwhy] at h
          obtain rfl := Except.ok.inj h
          exact fun x hx hsat => absurd (hdone Nat.zero_lt_two hwhy x hx hsat) List.not_mem_nil
  | [vals], _, himage, hdone, _, h =>
      cases hwhy : t.stuck <|> t.incomplete with
      | some why =>
          rw [hwhy] at h
          obtain rfl := Except.ok.inj h
          trivial
      | none =>
          rw [hwhy] at h
          obtain rfl := Except.ok.inj h
          obtain ⟨x, hx, -⟩ := himage vals (List.mem_singleton_self vals)
          exact ⟨⟨x, hx⟩, fun x hx hsat =>
            List.mem_singleton.mp (hdone Nat.one_lt_two hwhy x hx hsat)⟩
  | [a, b], _, himage, _, hdiffer, h =>
      obtain rfl := Except.ok.inj h
      obtain ⟨x, hx, hax⟩ := himage a List.mem_cons_self
      obtain ⟨y, hy, hby⟩ := himage b (List.mem_cons_of_mem _ (List.mem_singleton_self b))
      exact ⟨fun hab => hdiffer a [b] rfl (List.mem_singleton.mpr hab), x, y, hx, hy, hax, hby⟩
  | a :: b :: c :: l, hlen, _, _, _, _ => exact absurd hlen (by simp)

end Run

/-- **The verdicts are true** over a prime field. -/
theorem search_sound {p : ℕ} [Fact p.Prime] (program : PrimitiveProgram) (fuel budget : ℕ) :
    (∀ inputs w, searchWitnesses fuel program inputs budget = .ok (.ok ⟨p, w⟩) →
        w.Holds program inputs) ∧
      ∀ fixed project w, searchProjection fuel program fixed project budget = .ok (.ok ⟨p, w⟩) →
        w.Holds program fixed project := by
  constructor
  · intro inputs w h
    rw [searchWitnesses] at h
    cases hq : modulusOf program with
    | error e => rw [hq] at h; exact absurd (Except.ok.inj h) (by simp)
    | ok q =>
        rw [hq] at h
        obtain ⟨w', hw', h⟩ := Outcome.map_eq_ok.mp h
        obtain ⟨rfl, h⟩ := Sigma.mk.inj_iff.mp (Except.ok.inj h)
        obtain rfl := eq_of_heq h
        exact witnesses_sound hw'
  · intro fixed project w h
    rw [searchProjection] at h
    cases hq : modulusOf program with
    | error e => rw [hq] at h; exact absurd (Except.ok.inj h) (by simp)
    | ok q =>
        rw [hq] at h
        obtain ⟨w', hw', h⟩ := Outcome.map_eq_ok.mp h
        obtain ⟨rfl, h⟩ := Sigma.mk.inj_iff.mp (Except.ok.inj h)
        obtain rfl := eq_of_heq h
        exact projections_sound hw'

/-- `y` is zero or one, and `z = x + 2y`. -/
def offsetByBit : PrimitiveProgram where
  field := ⟨"seven", "7"⟩
  vars := [⟨1, "x", .publicInput⟩, ⟨2, "y", .derived⟩, ⟨3, "z", .derived⟩]
  constraints := [⟨[⟨1, 2, 2⟩], [⟨-1, 2⟩], 0, none⟩, ⟨[], [⟨1, 3⟩, ⟨-2, 2⟩, ⟨-1, 1⟩], 0, none⟩]
  witnessGen := []

/-- `x` is four. -/
def offsetInput : Inputs := ⟨[(1, "4")], List.pairwise_singleton _ _⟩

theorem search_sound_offsetByBit :
    (WitnessSearch.multiple 2 "y" : WitnessSearch 7).Holds offsetByBit offsetInput ∧
      (Projection.many [4] [6] : Projection 7).Holds offsetByBit offsetInput [3] ∧
      (Projection.one [4] : Projection 7).Holds offsetByBit offsetInput [1] :=
  have sound := search_sound (p := 7) offsetByBit 20 20
  ⟨sound.1 offsetInput _ (by decide +kernel), sound.2 offsetInput [3] _ (by decide +kernel),
    sound.2 offsetInput [1] _ (by decide +kernel)⟩

end XarkCircuit.Search
