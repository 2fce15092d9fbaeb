import XarkCircuit.Decode.Reduce
import XarkCircuit.Decode.Meaning
import XarkCircuit.Minimize.Sound

/-!
What flattening and minimizing the streams of a circuit keep.

* `Minimized` says what minimizing one stream does: the eliminated variables are none of those that
  are pinned, and values for the others extend to them.
* `Recast` relates templates whose bodies were rewritten but kept their face and their own
  variables, and `flattenNested_ok` and `reduceStreams_ok` what both passes keep.
* `ReducedStreams` is the result: for each template that the top stream calls, the rows left of its
  body, and those left of the top stream.
-/

namespace XarkCircuit

open Outcome Elimination

/-! ### Minimizing one stream -/

section Minimize

variable {p : ℕ}

/-- Every row written in the stream holds. -/
def InlineHold (items : List CItem) (x : VarId → ZMod p) : Prop :=
  ∀ it ∈ items, ∀ r ∈ it.inline, r.Sat x

/-- A row written in the stream mentions `v`. -/
def Mentions (items : List CItem) (v : VarId) : Prop :=
  ∃ it ∈ items, ∃ r ∈ it.inline, v ∈ r.vars

/-- What minimizing a stream leaves: `rows`, with the variables `elim` eliminated. -/
structure Minimized (p : ℕ) (items : List CItem) (rows : List R1csRow) (pinned : VarId → Prop)
    (elim : List VarId) : Prop where
  sound : ∀ x : VarId → ZMod p, InlineHold items x → ∀ r ∈ rows, r.Sat x
  complete : ∀ x : VarId → ZMod p, (∀ r ∈ rows, r.Sat x) →
    ∃ y : VarId → ZMod p, (∀ v, v ∉ elim → y v = x v) ∧ InlineHold items y
  vars : ∀ r ∈ rows, ∀ v ∈ r.vars, Mentions items v ∧ v ∉ elim
  unpinned : ∀ v ∈ elim, Mentions items v ∧ ¬pinned v

lemma sat_itemsProgram (items : List CItem) (pins : List VarId) (field : FieldSpec)
    (x : VarId → ZMod p) : (itemsProgram items pins field).Sat x ↔ InlineHold items x := by
  simp only [R1csProgram.Sat, itemsProgram, List.forall_mem_map, InlineHold]
  constructor
  · exact fun h it hit r hr => h r (List.mem_flatMap.mpr ⟨it, hit, hr⟩)
  · intro h r hr
    obtain ⟨it, hit, hr⟩ := List.mem_flatMap.mp hr
    exact h it hit r hr

lemma mem_rowVars_itemsProgram {items : List CItem} {pins : List VarId} {field : FieldSpec}
    {v : VarId} : v ∈ (itemsProgram items pins field).rowVars ↔ Mentions items v := by
  simp only [R1csProgram.rowVars, itemsProgram, List.mem_flatMap, List.mem_map, Mentions]
  constructor
  · rintro ⟨_, ⟨r, ⟨it, hit, hr⟩, rfl⟩, hv⟩
    exact ⟨it, hit, r, hr, hv⟩
  · rintro ⟨it, hit, r, hr, hv⟩
    exact ⟨_, ⟨r, ⟨it, hit, hr⟩, rfl⟩, hv⟩

/-- A pinned variable is not declared internal. -/
lemma not_isInternal_itemsProgram {items : List CItem} {pins : List VarId} {field : FieldSpec}
    {v : VarId} (h : Minimize.isInternal (itemsProgram items pins field) v) : v ∉ pins := by
  intro hv
  obtain ⟨w, hw, hvis⟩ := List.any_eq_true.mp h
  obtain ⟨u, -, rfl⟩ := List.mem_map.mp hw
  obtain ⟨hid, hvis⟩ := Bool.and_eq_true_iff.mp hvis
  obtain rfl := of_decide_eq_true hid
  rw [if_pos hv] at hvis
  exact absurd hvis (by simp)

/-- Is `v` an output of a call of `items`, or in a plug combination of one? -/
def PinnedByCalls (iface : List (VarId × List VarId)) (items : List CItem) (v : VarId) : Prop :=
  ∃ d b plugs, (.call d b plugs : CItem) ∈ items ∧
    ((∃ l ∈ plugs, v ∈ l.vars) ∨ ∃ i, iface[d]? = some i ∧ ∃ o ∈ i.2, i.1 ≤ o ∧ v = b + (o - i.1))

lemma mem_itemPins {iface : List (VarId × List VarId)} {items : List CItem} {pins : List VarId}
    (h : concatM (itemPins iface) items = .ok pins) {v : VarId} (hv : PinnedByCalls iface items v) :
    v ∈ pins := by
  induction items generalizing pins with
  | nil =>
      obtain ⟨d, b, plugs, hmem, -⟩ := hv
      exact absurd hmem List.not_mem_nil
  | cons it items ih =>
      rw [concatM_cons] at h
      obtain ⟨bs, hbs, h⟩ := bind_eq_ok.mp h
      obtain ⟨rest, hrest, h⟩ := bind_eq_ok.mp h
      obtain rfl := Except.ok.inj h
      obtain ⟨d, b, plugs, hmem, hv⟩ := hv
      rcases List.mem_cons.mp hmem with rfl | hmem
      · refine List.mem_append.mpr (Or.inl ?_)
        obtain ⟨i, hi, hbs⟩ := bind_eq_ok.mp hbs
        obtain rfl := Except.ok.inj hbs
        rcases hv with ⟨l, hl, hv⟩ | ⟨i', hi', o, ho, hle, rfl⟩
        · exact List.mem_append.mpr (Or.inl (List.mem_flatMap.mpr ⟨l, hl, hv⟩))
        · rw [hi', orPanic_some] at hi
          obtain rfl := Except.ok.inj hi
          refine List.mem_append.mpr (Or.inr (List.mem_map.mpr ⟨o, ?_, rfl⟩))
          exact List.mem_filter.mpr ⟨ho, decide_eq_true hle⟩
      · exact List.mem_append.mpr (Or.inr (ih hrest ⟨d, b, plugs, hmem, hv⟩))

variable [Fact p.Prime]

/-- **Minimizing one stream.** -/
lemma minimizeItems_ok {items out : List CItem} {basePins : List VarId}
    {iface : List (VarId × List VarId)} {field : FieldSpec} (hmod : field.modulus = some p)
    (h : minimizeItems p items basePins iface field = .ok out) :
    ∃ rows elim, out = rows.map .row ++ items.filter Item.isCall ∧
      Minimized p items rows (fun v => v ∈ basePins ∨ PinnedByCalls iface items v) elim := by
  obtain ⟨pins, hpins, h⟩ := bind_eq_ok.mp h
  set prog := itemsProgram items (basePins ++ pins) field with hprog
  have hout := (Except.ok.inj h).symm
  rw [Minimize.minimizeWithFill_eq p (show prog.field.modulus = some p from hmod)] at hout
  obtain ⟨⟨ds, hds, hred⟩, helim⟩ := Minimize.run_reduces p prog usizeMax
  refine ⟨(Minimize.run p prog usizeMax).constraints.map R1csConstraint.row,
    Minimize.eliminated p prog usizeMax, by rw [hout, List.map_map]; rfl, ?_, ?_, ?_, ?_⟩
  · intro x hx r hr
    obtain ⟨k, hk, rfl⟩ := List.mem_map.mp hr
    exact hred.sound ((sat_itemsProgram items _ field x).mpr hx) k hk
  · intro x hx
    have hx' : (Minimize.run p prog usizeMax).Sat x := fun k hk => hx _ (List.mem_map_of_mem hk)
    obtain ⟨y, ⟨hyx, hy⟩, -⟩ := hred.existsUnique_extension hx'
    rw [hds] at hyx
    exact ⟨y, hyx, (sat_itemsProgram items _ field y).mp hy⟩
  · intro r hr v hv
    obtain ⟨k, hk, rfl⟩ := List.mem_map.mp hr
    obtain ⟨hmem, hnot⟩ := Minimize.mem_rowVars_run p (List.mem_flatMap.mpr ⟨k, hk, hv⟩)
    exact ⟨mem_rowVars_itemsProgram.mp hmem, hnot⟩
  · intro v hv
    obtain ⟨hint, hmem⟩ := helim v hv
    have hnot := not_isInternal_itemsProgram hint
    rw [List.mem_append, not_or] at hnot
    exact ⟨mem_rowVars_itemsProgram.mp hmem, fun hpin => hpin.elim hnot.1 fun hc =>
      hnot.2 (mem_itemPins hpins hc)⟩

/-- Minimizing panics on no stream whose calls exist. -/
lemma exists_minimizeItems {items : List CItem} (iface : List (VarId × List VarId))
    (h : ∀ it ∈ items, ∀ d, it.callee = some d → d < iface.length) (basePins : List VarId)
    (field : FieldSpec) : ∃ out, minimizeItems p items basePins iface field = .ok out := by
  have hone : ∀ it ∈ items, ∃ pins, itemPins iface it = .ok pins := by
    intro it hit
    cases it with
    | row r => exact ⟨[], rfl⟩
    | rolled rs => exact ⟨[], rfl⟩
    | call d b plugs =>
        have hd := h _ hit d rfl
        exact ⟨_, by rw [itemPins, List.getElem?_eq_getElem hd, orPanic_some, ok_bind]; rfl⟩
  choose! f hf using hone
  rw [minimizeItems, concatM_eq_ok hf]
  exact ⟨_, rfl⟩

end Minimize

/-! ### Rewritten bodies -/

/-- `g'` is the template `g` with another body, which makes no new calls and keeps to the same
variables. -/
structure Recast (k : ℕ) (g g' : GDef) : Prop where
  baseVar : g'.baseVar = g.baseVar
  plugs : g'.plugs = g.plugs
  outputs : g'.outputs = g.outputs
  calls : ∀ it ∈ g'.cItems, it.isCall → it ∈ g.cItems
  rows : ∀ it ∈ g'.cItems, ∀ r ∈ it.inline, ∀ v ∈ r.vars, Own k g v

/-- Every template rewritten. -/
structure RecastAll (size : ℕ → ℕ) (defs defs' : List GDef) : Prop where
  length : defs'.length = defs.length
  recast : ∀ (d : ℕ) g g', defs[d]? = some g → defs'[d]? = some g' → Recast (size d) g g'

section Recast

variable {size : ℕ → ℕ} {defs defs' : List GDef} {top top' : List CItem}

lemma callee_eq_some {it : CItem} {d : ℕ} : it.callee = some d ↔ ∃ b plugs, it = .call d b plugs := by
  cases it with
  | row r => simp [Item.callee]
  | rolled rs => simp [Item.callee]
  | call d' b plugs => simp [Item.callee]

lemma LocalItem.own_of_mem {k : ℕ} {g : GDef} (h : ∀ it ∈ g.cItems, LocalItem size k g it) :
    ∀ it ∈ g.cItems, ∀ r ∈ it.inline, ∀ v ∈ r.vars, Own k g v := fun it hit => (h it hit).rows

lemma RecastAll.exists_old (h : RecastAll size defs defs') {d : ℕ} {g' : GDef}
    (hg' : defs'[d]? = some g') : ∃ g, defs[d]? = some g ∧ Recast (size d) g g' := by
  have hlt : d < defs.length := h.length ▸ (List.getElem?_eq_some_iff.mp hg').1
  exact ⟨defs[d], List.getElem?_eq_getElem hlt, h.recast d _ g' (List.getElem?_eq_getElem hlt) hg'⟩

lemma RecastAll.exists_new (h : RecastAll size defs defs') {d : ℕ} {g : GDef}
    (hg : defs[d]? = some g) : ∃ g', defs'[d]? = some g' ∧ Recast (size d) g g' := by
  have hlt : d < defs'.length := h.length ▸ (List.getElem?_eq_some_iff.mp hg).1
  exact ⟨defs'[d], List.getElem?_eq_getElem hlt, h.recast d g _ hg (List.getElem?_eq_getElem hlt)⟩

/-- A call that was in order still is. -/
lemma RecastAll.callOk (h : RecastAll size defs defs') {own own' : Option GDef} {it : CItem}
    (hown : ∀ v, NotPlug own v → NotPlug own' v) (hok : CallOk defs own it) :
    CallOk defs' own' it := by
  cases it with
  | row r => trivial
  | rolled rs => trivial
  | call d b plugs =>
      obtain ⟨⟨g, hg, hlen⟩, hb⟩ := hok
      obtain ⟨g', hg', hre⟩ := h.exists_new hg
      exact ⟨⟨g', hg', by rw [hre.plugs, hlen]⟩, hown b hb⟩

lemma Recast.notPlug {k : ℕ} {g g' : GDef} (h : Recast k g g') {v : VarId}
    (hv : NotPlug (some g) v) : NotPlug (some g') v := by
  intro g'' hg''
  obtain rfl := Option.some.inj hg''
  rw [h.baseVar, h.plugs]
  exact hv g rfl

lemma callOk_of_not_isCall {own : Option GDef} {it : CItem} (h : ¬it.isCall) :
    CallOk defs own it := by
  cases it with
  | row r => trivial
  | rolled rs => trivial
  | call d b plugs => exact absurd rfl h

lemma RecastAll.wellFormed (h : RecastAll size defs defs') (hwf : WellFormed GDef.cItems defs top)
    (htop : ∀ it ∈ top', it.isCall → it ∈ top) : WellFormed GDef.cItems defs' top' where
  calls own hown it hit := by
    by_cases hcall : it.isCall
    · cases own with
      | none =>
          exact h.callOk (fun _ hv => hv)
            (hwf.calls none (fun g hg => absurd hg (by simp)) it (htop it hit hcall))
      | some g' =>
          obtain ⟨d, hd⟩ := List.mem_iff_getElem?.mp (hown g' rfl)
          obtain ⟨g, hg, hre⟩ := h.exists_old hd
          exact h.callOk (fun _ => hre.notPlug) (hwf.calls (some g) (fun g'' hg'' => by
            obtain rfl := Option.some.inj hg''
            exact List.mem_of_getElem? hg) it (hre.calls it hit hcall))
    · exact callOk_of_not_isCall hcall
  acyclic := by
    obtain ⟨rank, hrank⟩ := hwf.acyclic
    refine ⟨rank, fun i g' hg' it hit j hj => ?_⟩
    obtain ⟨g, hg, hre⟩ := h.exists_old hg'
    obtain ⟨b, plugs, rfl⟩ := callee_eq_some.mp hj
    exact hrank i g hg _ (hre.calls _ hit rfl) j hj

lemma Recast.own {k : ℕ} {g g' : GDef} (h : Recast k g g') {v : VarId} :
    Own k g' v ↔ Own k g v := by rw [Own, Own, h.baseVar, h.plugs]

lemma RecastAll.localDefs (h : RecastAll size defs defs') (hloc : LocalDefs size defs) :
    LocalDefs size defs' where
  fits d g' hg' := by
    obtain ⟨g, hg, hre⟩ := h.exists_old hg'
    rw [hre.baseVar]
    exact hloc.fits d g hg
  items d g' hg' it hit := by
    obtain ⟨g, hg, hre⟩ := h.exists_old hg'
    have hold : ∀ e b plugs, it = .call e b plugs → LocalItem size (size d) g it := by
      rintro e b plugs rfl
      exact hloc.items d g hg _ (hre.calls _ hit rfl)
    refine ⟨fun r hr v hv => hre.own.mpr (hre.rows it hit r hr v hv), fun e b plugs hcall => ?_,
      fun e b plugs hcall l hl v hv =>
        hre.own.mpr ((hold e b plugs hcall).plugs e b plugs hcall l hl v hv)⟩
    rw [hre.baseVar]
    exact (hold e b plugs hcall).base e b plugs hcall
  arity d g' hg' it hit := by
    obtain ⟨g, hg, hre⟩ := h.exists_old hg'
    by_cases hcall : it.isCall
    · exact h.callOk (fun _ => hre.notPlug) (hloc.arity d g hg it (hre.calls it hit hcall))
    · exact callOk_of_not_isCall hcall

lemma RecastAll.refl (hloc : LocalDefs size defs) : RecastAll size defs defs where
  length := rfl
  recast d g g' hg hg' := by
    obtain rfl := Option.some.inj (hg.symm.trans hg')
    exact ⟨rfl, rfl, rfl, fun _ hit _ => hit, LocalItem.own_of_mem (hloc.items d g hg)⟩

lemma RecastAll.trans {defs'' : List GDef} (h : RecastAll size defs defs')
    (h' : RecastAll size defs' defs'') : RecastAll size defs defs'' where
  length := h'.length.trans h.length
  recast d g g'' hg hg'' := by
    obtain ⟨g', hg', hre'⟩ := h'.exists_old hg''
    have hre := h.recast d g g' hg hg'
    exact ⟨hre'.baseVar.trans hre.baseVar, hre'.plugs.trans hre.plugs,
      hre'.outputs.trans hre.outputs, fun it hit hc => hre.calls it (hre'.calls it hit hc) hc,
      fun it hit r hr v hv => hre.own.mp (hre'.rows it hit r hr v hv)⟩

/-- One template rewritten. -/
lemma recastAll_set (hloc : LocalDefs size defs) {d : ℕ} {g g' : GDef} (hg : defs[d]? = some g)
    (hre : Recast (size d) g g') : RecastAll size defs (defs.set d g') where
  length := List.length_set
  recast e h h' hh hh' := by
    by_cases hde : d = e
    · subst hde
      obtain rfl := Option.some.inj (hg.symm.trans hh)
      rw [List.getElem?_set_self (List.getElem?_eq_some_iff.mp hg).1] at hh'
      obtain rfl := Option.some.inj hh'
      exact hre
    · rw [List.getElem?_set_ne hde] at hh'
      exact (RecastAll.refl hloc).recast e h h' hh hh'

/-- A stream whose calls are in order expands. -/
lemma WellFormed.exists_expandC (h : WellFormed GDef.cItems defs top) :
    ∃ N rows, ∀ n, N ≤ n → expandC defs n .IDENTITY top = .ok rows := by
  have key : ∀ s, InScope none s →
      Expands (fun s r => .ok (substRow s r)) GDef.cItems defs s (scopeItems GDef.cItems top none) :=
    h.expands (fun _ _ s _ _ _ r _ => ⟨substRow s r, rfl⟩) fun g hg => absurd hg (by simp)
  exact key .IDENTITY rfl

/-- The body of a template is a stream of its own. -/
lemma WellFormed.body (h : WellFormed GDef.cItems defs top) {d : ℕ} {g : GDef}
    (hg : defs[d]? = some g) : WellFormed GDef.cItems defs g.cItems where
  calls own hown it hit := by
    cases own with
    | some g' => exact h.calls (some g') hown it hit
    | none =>
        have hok := h.calls (some g) (fun g' hg' => Option.some.inj hg' ▸ List.mem_of_getElem? hg)
          it hit
        cases it with
        | row r => trivial
        | rolled rs => trivial
        | call e b plugs => exact ⟨hok.1, by simp [NotPlug]⟩
  acyclic := h.acyclic

end Recast

/-! ### Flattening -/

section Flatten

variable {F : Type} [CommRing F] {size : ℕ → ℕ} {defs flat : List GDef} {top : List CItem}

/-- Writing a body as the rows of its expansion changes no meaning. -/
lemma holds_set {d : ℕ} {g : GDef} {rows : List R1csRow} (hg : flat[d]? = some g)
    (hrows : ∀ y : VarId → F, (∀ r ∈ rows, r.Sat y) ↔ AllHold flat g.cItems y) {it : CItem}
    {y : VarId → F} :
    Holds (flat.set d { g with cItems := [.rolled rows] }) it y ↔ Holds flat it y := by
  have hself : (flat.set d { g with cItems := [.rolled rows] })[d]?
      = some { g with cItems := [.rolled rows] } :=
    List.getElem?_set_self (List.getElem?_eq_some_iff.mp hg).1
  constructor
  · intro h
    induction h with
    | row h => exact .row h
    | rolled h => exact .rolled h
    | @call e base plugs y g' hg' h ih =>
        by_cases hde : d = e
        · subst hde
          obtain rfl := Option.some.inj (hself.symm.trans hg')
          exact .call hg ((hrows _).mp (holds_rolled.mp (h _ List.mem_cons_self)))
        · rw [List.getElem?_set_ne hde] at hg'
          exact .call hg' ih
  · intro h
    induction h with
    | row h => exact .row h
    | rolled h => exact .rolled h
    | @call e base plugs y g' hg' h ih =>
        by_cases hde : d = e
        · subst hde
          obtain rfl := Option.some.inj (hg.symm.trans hg')
          refine .call hself fun it hit => ?_
          obtain rfl := List.mem_singleton.mp hit
          exact .rolled ((hrows _).mpr h)
        · refine .call ?_ ih
          rwa [List.getElem?_set_ne hde]

/-- What flattening keeps: the faces and the meaning of the templates; the first `k` templates that
the top stream calls make no calls. -/
structure Flattened (F : Type) [CommRing F] (size : ℕ → ℕ) (defs : List GDef) (top : List CItem)
    (k : ℕ) (flat : List GDef) : Prop where
  recast : RecastAll size defs flat
  meaning : ∀ it (y : VarId → F), Holds flat it y ↔ Holds defs it y
  body : ∀ (d : ℕ) g f, defs[d]? = some g → flat[d]? = some f →
    ∀ y : VarId → F, AllHold flat f.cItems y ↔ AllHold defs g.cItems y
  noCalls : ∀ d < k, calls top d → ∀ g, flat[d]? = some g → ∀ it ∈ g.cItems, ¬it.isCall

/-- One round of `flatten_nested`. -/
lemma flattenDef_ok (hloc : LocalDefs size defs) (hwf : WellFormed GDef.cItems defs top) {k : ℕ}
    (h : Flattened F size defs top k flat) :
    ∃ N flat', Flattened F size defs top (k + 1) flat' ∧
      ∀ n, N ≤ n → flattenDef n top flat k = .ok flat' := by
  have hlt : ∀ {d}, d < k + 1 → d ≠ k → d < k := fun h hne => by omega
  cases hk : flat[k]? with
  | none =>
      refine ⟨0, flat, ⟨h.recast, h.meaning, h.body, fun d hd hc g hg => ?_⟩, fun n _ => ?_⟩
      · refine h.noCalls d (hlt hd ?_) hc g hg
        rintro rfl
        rw [hk] at hg
        exact absurd hg (by simp)
      · rw [flattenDef, hk]
  | some g =>
      by_cases hcond : calls top k && g.cItems.any Item.isCall
      · have hwf' : WellFormed GDef.cItems flat top := h.recast.wellFormed hwf fun _ hit _ => hit
        have hloc' := h.recast.localDefs hloc
        obtain ⟨N, rows, hrows⟩ := (hwf'.body hk).exists_expandC
        have hplaced : ∀ it ∈ g.cItems, Placed size flat .IDENTITY it := fun it hit =>
          placed_IDENTITY (hloc'.arity k g hk it hit)
        have hsat : ∀ y : VarId → F, (∀ r ∈ rows, r.Sat y) ↔ AllHold flat g.cItems y :=
          sat_expandC hloc' hplaced (hrows N le_rfl)
        have hre : Recast (size k) g { g with cItems := [.rolled rows] } := by
          refine ⟨rfl, rfl, rfl, fun it hit hc => ?_, fun it hit r hr v hv => ?_⟩
          · obtain rfl := List.mem_singleton.mp hit
            exact absurd hc (by simp [Item.isCall])
          · obtain rfl := List.mem_singleton.mp hit
            exact mem_vars_expandC hloc' (fun it hit => ⟨hloc'.items k g hk it hit, hplaced it hit⟩)
              (hloc'.fits k g hk) (sends_IDENTITY _) (hrows N le_rfl) hr hv
        refine ⟨N, flat.set k { g with cItems := [.rolled rows] },
          ⟨h.recast.trans (recastAll_set hloc' hk hre), fun it y => ?_, fun d g' f hg' hf y => ?_,
            fun d hd hc g' hg' it hit => ?_⟩, fun n hn => ?_⟩
        · rw [holds_set hk hsat, h.meaning]
        · by_cases hdk : k = d
          · subst hdk
            rw [List.getElem?_set_self (List.getElem?_eq_some_iff.mp hk).1] at hf
            obtain rfl := Option.some.inj hf
            rw [← h.body k g' g hg' hk y, ← hsat, AllHold, List.forall_mem_singleton, holds_rolled]
          · rw [List.getElem?_set_ne hdk] at hf
            rw [← h.body d g' f hg' hf y]
            exact forall₂_congr fun it _ => holds_set hk hsat
        · by_cases hdk : k = d
          · subst hdk
            rw [List.getElem?_set_self (List.getElem?_eq_some_iff.mp hk).1] at hg'
            obtain rfl := Option.some.inj hg'
            obtain rfl := List.mem_singleton.mp hit
            exact Bool.false_ne_true
          · rw [List.getElem?_set_ne hdk] at hg'
            exact h.noCalls d (hlt hd (Ne.symm hdk)) hc g' hg' it hit
        · rw [flattenDef, hk]
          dsimp only
          rw [if_pos hcond, hrows n hn]
          rfl
      · refine ⟨0, flat, ⟨h.recast, h.meaning, h.body, fun d hd hc g' hg' it hit => ?_⟩, fun n _ => ?_⟩
        · by_cases hdk : d = k
          · subst hdk
            obtain rfl := Option.some.inj (hk.symm.trans hg')
            rw [hc, Bool.true_and, Bool.not_eq_true, List.any_eq_false] at hcond
            exact hcond it hit
          · exact h.noCalls d (hlt hd hdk) hc g' hg' it hit
        · rw [flattenDef, hk]
          dsimp only
          rw [if_neg hcond]

/-- **Flattening** ends, and keeps the meaning of every call. -/
lemma flattenNested_ok (hloc : LocalDefs size defs) (hwf : WellFormed GDef.cItems defs top) :
    ∃ N flat, Flattened F size defs top defs.length flat ∧
      ∀ n, N ≤ n → flattenNested n defs top = .ok flat := by
  have hrounds : ∀ k, ∃ N flat, Flattened F size defs top k flat ∧
      ∀ n, N ≤ n → (List.range k).foldlM (flattenDef n top) defs = .ok flat := by
    intro k
    induction k with
    | zero =>
        refine ⟨0, defs, ⟨RecastAll.refl hloc, fun _ _ => Iff.rfl, fun d g f hg hf y => ?_,
          fun d hd => absurd hd (Nat.not_lt_zero d)⟩, fun n _ => rfl⟩
        rw [Option.some.inj (hg.symm.trans hf)]
    | succ k ih =>
        obtain ⟨N, flat, hflat, hN⟩ := ih
        obtain ⟨M, flat', hflat', hM⟩ := flattenDef_ok hloc hwf hflat
        refine ⟨max N M, flat', hflat', fun n hn => ?_⟩
        rw [List.range_succ, List.foldlM_append, hN n (by omega), ok_bind, List.foldlM_cons,
          hM n (by omega)]
        rfl
  obtain ⟨N, flat, hflat, hN⟩ := hrounds defs.length
  refine ⟨N, flat, hflat, fun n hn => ?_⟩
  have hall : (top.all fun it => it.callee.all fun d => d < defs.length) = true := by
    refine List.all_eq_true.mpr fun it hit => ?_
    have hok := hwf.calls none (fun g hg => absurd hg (by simp)) it hit
    cases it with
    | row r => rfl
    | rolled rs => rfl
    | call d b plugs =>
        obtain ⟨⟨g, hg, -⟩, -⟩ := hok
        simpa [Item.callee] using (List.getElem?_eq_some_iff.mp hg).1
  rw [flattenNested, if_pos hall]
  exact hN n hn

end Flatten

/-! ### The reduced streams -/

section Streams

variable {p : ℕ} {size : ℕ → ℕ} {c : Container}

/-- What is left of a template that the top stream calls: `rows`, with the variables `elim` of its
body eliminated, all fresh and no outputs. -/
structure ReducedDef (p : ℕ) (size : ℕ → ℕ) (defs : List GDef) (d : ℕ) (g : GDef)
    (rows : List R1csRow) (elim : List VarId) : Prop where
  sound : ∀ y : VarId → ZMod p, AllHold defs g.cItems y → ∀ r ∈ rows, r.Sat y
  complete : ∀ y : VarId → ZMod p, (∀ r ∈ rows, r.Sat y) →
    ∃ z : VarId → ZMod p, (∀ v, v ∉ elim → z v = y v) ∧ AllHold defs g.cItems z
  vars : ∀ r ∈ rows, ∀ v ∈ r.vars, Own (size d) g v
  fresh : ∀ v ∈ elim, g.baseVar ≤ v ∧ v.val < g.baseVar.val + size d
  unread : ∀ v ∈ elim, v ∉ g.plugs ∧ v ∉ g.outputs

/-- The streams that both passes leave. -/
structure ReducedStreams (p : ℕ) (size : ℕ → ℕ) (c : Container) (defs : List GDef)
    (top : List CItem) : Prop where
  recast : RecastAll size c.defs defs
  defs : ∀ d, calls c.topC d → ∀ g, c.defs[d]? = some g → ∃ g' rows elim, defs[d]? = some g' ∧
    g'.cItems = rows.map .row ∧ ReducedDef p size c.defs d g rows elim
  top : ∃ rows elim, top = rows.map .row ++ c.topC.filter Item.isCall ∧
    Minimized p c.topC rows (fun v => v.val < c.inputs.length ∨
      PinnedByCalls (callInterfaces c.defs) c.topC v) elim

lemma callInterfaces_recast {defs defs' : List GDef} (h : RecastAll size defs defs') :
    callInterfaces defs' = callInterfaces defs := by
  refine List.ext_getElem? fun d => ?_
  rw [callInterfaces, callInterfaces, List.getElem?_map, List.getElem?_map]
  cases hg : defs[d]? with
  | none =>
      have hlen := h.length
      rw [List.getElem?_eq_none (by have := List.getElem?_eq_none_iff.mp hg; omega)]
  | some g =>
      obtain ⟨g', hg', hre⟩ := h.exists_new hg
      rw [hg', Option.map_some, Option.map_some, hre.baseVar, hre.outputs]

/-- A body without calls holds where its rows do. -/
lemma allHold_of_noCalls {F : Type} [CommRing F] {defs : List GDef} {items : List CItem}
    (h : ∀ it ∈ items, ¬it.isCall) (y : VarId → F) :
    AllHold defs items y ↔ ∀ it ∈ items, ∀ r ∈ it.inline, r.Sat y := by
  refine forall₂_congr fun it hit => ?_
  cases it with
  | row r => rw [holds_row, Item.inline, List.forall_mem_singleton]
  | rolled rs => rw [holds_rolled, Item.inline]
  | call d b plugs => exact absurd rfl (h _ hit)

/-- The minimized body of a template without calls. -/
lemma reducedDef_of_minimized {flat : List GDef} {d : ℕ} {g f : GDef} {rows : List R1csRow}
    {elim : List VarId} (hre : Recast (size d) g f) (hno : ∀ it ∈ f.cItems, ¬it.isCall)
    (hmean : ∀ (y : VarId → ZMod p), AllHold flat f.cItems y ↔ AllHold c.defs g.cItems y)
    {iface : List (VarId × List VarId)}
    (h : Minimized p f.cItems rows
      (fun v => v ∈ f.plugs ++ f.outputs ∨ PinnedByCalls iface f.cItems v) elim) :
    ReducedDef p size c.defs d g rows elim := by
  have hown : ∀ v, Mentions f.cItems v → Own (size d) g v := by
    rintro v ⟨it, hit, r, hr, hv⟩
    exact hre.rows it hit r hr v hv
  have hinline : ∀ y : VarId → ZMod p, InlineHold f.cItems y ↔ AllHold c.defs g.cItems y :=
    fun y => by rw [← hmean, allHold_of_noCalls hno]; rfl
  have hpins : ∀ v ∈ elim, v ∉ g.plugs ∧ v ∉ g.outputs := by
    intro v hv
    have hnot := (h.unpinned v hv).2
    rw [not_or, List.mem_append, not_or, hre.plugs, hre.outputs] at hnot
    exact hnot.1
  refine ⟨fun y hy => h.sound y ((hinline y).mpr hy), fun y hy => ?_,
    fun r hr v hv => hown v (h.vars r hr v hv).1, fun v hv => ?_, hpins⟩
  · obtain ⟨z, hz, hzy⟩ := h.complete y hy
    exact ⟨z, hz, (hinline z).mp hzy⟩
  · have hv' := hown v (h.unpinned v hv).1
    exact ⟨not_lt.mp fun hlt => (hpins v hv).1 (hv'.1 hlt), hv'.2⟩

variable [Fact p.Prime]

/-- Rewriting every template of a list. -/
lemma mapM_minimize {flat : List GDef} (iface : List (VarId × List VarId)) {field : FieldSpec}
    (hmod : field.modulus = some p)
    (h : ∀ g ∈ flat, ∀ it ∈ g.cItems, ∀ d, it.callee = some d → d < iface.length) :
    ∃ defs, (flat.mapM fun g => do
        let items ← minimizeItems p g.cItems (g.plugs ++ g.outputs) iface field
        return { g with cItems := items }) = .ok defs ∧
      List.Forall₂ (fun g g' => ∃ rows elim,
        g' = { g with cItems := rows.map .row ++ g.cItems.filter Item.isCall } ∧
        Minimized p g.cItems rows
          (fun v => v ∈ g.plugs ++ g.outputs ∨ PinnedByCalls iface g.cItems v) elim) flat defs := by
  induction flat with
  | nil => exact ⟨[], rfl, .nil⟩
  | cons g flat ih =>
      obtain ⟨defs, hdefs, hall⟩ := ih fun g' hg' => h g' (List.mem_cons_of_mem _ hg')
      obtain ⟨out, hout⟩ := exists_minimizeItems (p := p) iface (h g List.mem_cons_self)
        (g.plugs ++ g.outputs) field
      obtain ⟨rows, elim, rfl, hmin⟩ := minimizeItems_ok hmod hout
      refine ⟨_, ?_, .cons ⟨rows, elim, rfl, hmin⟩ hall⟩
      rw [List.mapM_cons, hout, ok_bind, pure_eq_ok, ok_bind, hdefs, ok_bind, pure_eq_ok]

omit [Fact p.Prime] in
/-- Minimized bodies make no new calls and keep to the same variables. -/
lemma recastAll_minimized {flat defs : List GDef} {iface : List (VarId × List VarId)}
    (hloc : LocalDefs size flat)
    (h : List.Forall₂ (fun g g' => ∃ rows elim,
        g' = { g with cItems := rows.map .row ++ g.cItems.filter Item.isCall } ∧
        Minimized p g.cItems rows
          (fun v => v ∈ g.plugs ++ g.outputs ∨ PinnedByCalls iface g.cItems v) elim) flat defs) :
    RecastAll size flat defs where
  length := h.length_eq.symm
  recast d g g' hg hg' := by
    obtain ⟨g'', hg'', rows, elim, rfl, hmin⟩ := exists_of_forall₂ h hg
    obtain rfl := Option.some.inj (hg''.symm.trans hg')
    refine ⟨rfl, rfl, rfl, fun it hit hc => ?_, fun it hit r hr v hv => ?_⟩
    · rcases List.mem_append.mp hit with hit | hit
      · obtain ⟨r, -, rfl⟩ := List.mem_map.mp hit
        exact absurd hc (by simp [Item.isCall])
      · exact (List.mem_filter.mp hit).1
    · rcases List.mem_append.mp hit with hit | hit
      · obtain ⟨r', hr', rfl⟩ := List.mem_map.mp hit
        obtain rfl := List.mem_singleton.mp hr
        obtain ⟨it', hit', r₀, hr₀, hv₀⟩ := (hmin.vars r hr' v hv).1
        exact (hloc.items d g hg it' hit').rows r₀ hr₀ v hv₀
      · obtain ⟨e, b, plugs, rfl⟩ := isCall_iff.mp (List.mem_filter.mp hit).2
        exact absurd hr List.not_mem_nil

/-- **Both passes end**, with streams that are reduced. -/
lemma reduceStreams_ok (hmod : c.field.modulus = some p) (hloc : LocalDefs size c.defs)
    (hwf : WellFormed GDef.cItems c.defs c.topC) :
    ∃ N defs top, ReducedStreams p size c defs top ∧
      ∀ n, N ≤ n → reduceStreams p c n = .ok (defs, top) := by
  obtain ⟨N, flat, hflat, hN⟩ := flattenNested_ok (F := ZMod p) hloc hwf
  have hiface := callInterfaces_recast hflat.recast
  have hlen : (callInterfaces c.defs).length = c.defs.length := List.length_map _
  have hwf' : WellFormed GDef.cItems flat c.topC := hflat.recast.wellFormed hwf fun _ hit _ => hit
  obtain ⟨defs, hdefs, hall⟩ := mapM_minimize (p := p) (callInterfaces flat) hmod (fun g hg it hit d hd => by
    obtain ⟨g', hg'⟩ := (hwf'.calls (some g) (fun g' hg' => Option.some.inj hg' ▸ hg) it
      hit).exists_def hd
    rw [hiface, hlen, ← hflat.recast.length]
    exact (List.getElem?_eq_some_iff.mp hg').1)
  have htopCalls : ∀ it ∈ c.topC, ∀ d, it.callee = some d → d < (callInterfaces flat).length := by
    intro it hit d hd
    obtain ⟨g, hg⟩ := (hwf.calls none (fun g hg => absurd hg (by simp)) it hit).exists_def hd
    rw [hiface, hlen]
    exact (List.getElem?_eq_some_iff.mp hg).1
  obtain ⟨top, htop⟩ := exists_minimizeItems (p := p) _ htopCalls
    ((List.range c.inputs.length).map (Fin.ofNat _)) c.field
  have hre := recastAll_minimized (hflat.recast.localDefs hloc) hall
  refine ⟨N, defs, top, ⟨hflat.recast.trans hre, fun d hd g hg => ?_, ?_⟩, fun n hn => ?_⟩
  · obtain ⟨f, hf, hrf⟩ := hflat.recast.exists_new hg
    obtain ⟨g', hg', rows, elim, rfl, hmin⟩ := exists_of_forall₂ hall hf
    have hno : ∀ it ∈ f.cItems, ¬it.isCall := fun it hit =>
      hflat.noCalls d (List.getElem?_eq_some_iff.mp hg).1 hd f hf it hit
    refine ⟨_, rows, elim, hg', ?_, reducedDef_of_minimized hrf hno (hflat.body d g f hg hf) hmin⟩
    have hnil : f.cItems.filter Item.isCall = [] := List.filter_eq_nil_iff.mpr hno
    dsimp only
    rw [hnil, List.append_nil]
  · obtain ⟨rows, elim, rfl, hmin⟩ := minimizeItems_ok hmod htop
    refine ⟨rows, elim, rfl, hmin.sound, hmin.complete, hmin.vars, fun v hv => ?_⟩
    obtain ⟨hmem, hnot⟩ := hmin.unpinned v hv
    rw [hiface] at hnot
    refine ⟨hmem, fun hpin => hnot (hpin.imp_left fun hlt => ?_)⟩
    exact List.mem_map.mpr ⟨v.val, List.mem_range.mpr hlt, Fin.ofNat_val_eq_self v⟩
  · rw [reduceStreams, hN n hn, ok_bind]
    dsimp only
    rw [hdefs, ok_bind, htop]
    rfl

end Streams

end XarkCircuit
