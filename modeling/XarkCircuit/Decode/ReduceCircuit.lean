import XarkCircuit.Decode.ReduceSound

/-!
The reduction of a circuit, template by template, is sound and complete.

* `Encoded` is the shape of the containers that the encoder writes: bodies keep to their own
  variables, the calls of the top stream own disjoint blocks, and what is read of a block from
  outside is an output.
* `reduction_sound_complete`: inputs extend to an assignment of the full expansion exactly when they
  extend to one of the reduced circuit, provided that the plugs of a call read outputs of the call
  at most. `reduction_of_own_plug` shows that the proviso is needed.
-/

namespace XarkCircuit

open Outcome Elimination

/-! ### Encoded containers -/

/-- `v` is one of the `k` variables from `b` on. -/
def InBlock (b : VarId) (k : ℕ) (v : VarId) : Prop := b ≤ v ∧ v.val < b.val + k

/-- `v` is an output of the call of template `d` with base `b`, as the caller sees it. -/
def IsOutput (defs : List GDef) (d : ℕ) (b v : VarId) : Prop :=
  ∃ g, defs[d]? = some g ∧ ∃ o ∈ g.outputs, g.baseVar ≤ o ∧ v = b + (o - g.baseVar)

/-- A row of the item, or a row that it expands to, mentions `v`. -/
def Reads (defs : List GDef) (it : CItem) (v : VarId) : Prop :=
  (∃ r ∈ it.inline, v ∈ r.vars) ∨
    ∃ n rows, expandC defs n .IDENTITY [it] = .ok rows ∧ ∃ r ∈ rows, v ∈ r.vars

/-- The containers that the encoder writes, where a call of template `d` has `size d` fresh
variables. -/
structure Encoded (size : ℕ → ℕ) (c : Container) : Prop where
  wf : WellFormed GDef.cItems c.defs c.topC
  fits : ∀ (d : ℕ) g, c.defs[d]? = some g → g.baseVar.val + size d ≤ 2 ^ 32
  /-- A body mentions its plugs and its own fresh variables only. -/
  items : ∀ (d : ℕ) g, c.defs[d]? = some g → ∀ it ∈ g.cItems, LocalItem size (size d) g it
  room : ∀ d b plugs, .call d b plugs ∈ c.topC → b.val + size d ≤ 2 ^ 32
  /-- The blocks of the calls contain no input. -/
  inputs : ∀ d b plugs, .call d b plugs ∈ c.topC → ∀ v, InBlock b (size d) v →
    c.inputs.length ≤ v.val
  /-- Different calls own disjoint blocks. -/
  disjoint : ∀ (i j : ℕ) d b plugs d' b' plugs', c.topC[i]? = some (.call d b plugs) →
    c.topC[j]? = some (.call d' b' plugs') → i ≠ j → ∀ v, InBlock b (size d) v →
      ¬InBlock b' (size d') v
  /-- What rows outside a call read of its block is among its outputs. -/
  outputs : ∀ (i j : ℕ) it d b plugs, c.topC[i]? = some it → c.topC[j]? = some (.call d b plugs) →
    i ≠ j → ∀ v, Reads c.defs it v → InBlock b (size d) v → IsOutput c.defs d b v

/-- What the plug combinations of a call read of its own block is among its outputs. -/
def PlugsReadOutputs (size : ℕ → ℕ) (c : Container) : Prop :=
  ∀ d b plugs, .call d b plugs ∈ c.topC → ∀ l ∈ plugs, ∀ v ∈ l.vars, InBlock b (size d) v →
    IsOutput c.defs d b v

section Glue

variable {p : ℕ} {size : ℕ → ℕ} {c : Container}

lemma Encoded.localDefs (h : Encoded size c) : LocalDefs size c.defs where
  fits := h.fits
  items := h.items
  arity _ g hg it hit := h.wf.calls (some g)
    (fun _ hg' => Option.some.inj hg' ▸ List.mem_of_getElem? hg) it hit

lemma Encoded.callOk (h : Encoded size c) {it : CItem} (hit : it ∈ c.topC) :
    CallOk c.defs none it := h.wf.calls none (fun g hg => absurd hg (by simp)) it hit

/-- A fresh variable of the body is in the block of the call. -/
lemma inBlock_shift {g : GDef} {b v : VarId} {k : ℕ} (hroom : b.val + k ≤ 2 ^ 32)
    (hle : g.baseVar ≤ v) (hlt : v.val < g.baseVar.val + k) :
    InBlock b k (b + (v - g.baseVar)) := by
  have hval := shift_val hle hlt hroom le_rfl
  have hle' : g.baseVar.val ≤ v.val := hle
  exact ⟨show b.val ≤ (b + (v - g.baseVar)).val by omega, by omega⟩

/-- A variable of the body that is not an output goes to none. -/
lemma not_isOutput_shift {defs : List GDef} {d : ℕ} {g : GDef} (hg : defs[d]? = some g)
    {b v : VarId} (hv : v ∉ g.outputs) : ¬IsOutput defs d b (b + (v - g.baseVar)) := by
  rintro ⟨g', hg', o, ho, -, heq⟩
  obtain rfl := Option.some.inj (hg.symm.trans hg')
  obtain rfl := sub_left_injective (add_right_injective b heq)
  exact hv ho

lemma view_recast {F : Type} [CommRing F] {k : ℕ} {g g' : GDef} (h : Recast k g g') (b : VarId)
    (plugs : List LinearCombination) (y : VarId → F) : view g' b plugs y = view g b plugs y := by
  rw [view, view, callSubst, callSubst, h.baseVar, h.plugs]

/-- The variables that the reduction eliminates inside a call, as the caller sees them. -/
def Hidden (g : GDef) (b : VarId) (elim : List VarId) (u : VarId) : Prop :=
  ∃ v ∈ elim, u = b + (v - g.baseVar)

/-- What eliminates inside a body is a block variable that is no output. -/
lemma hidden_spec {d : ℕ} {g : GDef} {rows : List R1csRow} {elim : List VarId}
    (h : ReducedDef p size c.defs d g rows elim) (hg : c.defs[d]? = some g) {b u : VarId}
    (hroom : b.val + size d ≤ 2 ^ 32) (hu : Hidden g b elim u) :
    InBlock b (size d) u ∧ ¬IsOutput c.defs d b u := by
  obtain ⟨v, hv, rfl⟩ := hu
  obtain ⟨hle, hlt⟩ := h.fresh v hv
  exact ⟨inBlock_shift hroom hle hlt, not_isOutput_shift hg (h.unread v hv).2⟩

/-- **One call, completed**: an assignment under which the reduced body holds is changed on the
variables eliminated inside, so that the body holds. -/
lemma exists_completed {d : ℕ} {g : GDef} {rows : List R1csRow} {elim : List VarId}
    (hloc : LocalDefs size c.defs) (hg : c.defs[d]? = some g)
    (h : ReducedDef p size c.defs d g rows elim) {b : VarId} {plugs : List LinearCombination}
    (hlen : g.plugs.length = plugs.length)
    (hplugs : ∀ l ∈ plugs, ∀ u ∈ l.vars, ¬Hidden g b elim u) {x : VarId → ZMod p}
    (hx : ∀ r ∈ rows, r.Sat (view g b plugs x)) :
    ∃ y : VarId → ZMod p, (∀ u, ¬Hidden g b elim u → y u = x u) ∧
      Holds c.defs (.call d b plugs) y := by
  obtain ⟨z, hz, hzhold⟩ := h.complete _ hx
  -- the caller's name of a fresh variable, taken back
  let inside (u : VarId) : VarId := u - b + g.baseVar
  have hinside : ∀ v, inside (b + (v - g.baseVar)) = v := fun v => by
    show b + (v - g.baseVar) - b + g.baseVar = v
    rw [add_sub_cancel_left, sub_add_cancel]
  have houtside : ∀ u, inside u ∈ elim → Hidden g b elim u := fun u hu => by
    refine ⟨inside u, hu, ?_⟩
    show u = b + (u - b + g.baseVar - g.baseVar)
    rw [add_sub_cancel_right, add_sub_cancel]
  refine ⟨fun u => if inside u ∈ elim then z (inside u) else x u, fun u hu => ?_,
    (holds_call hg).mpr ?_⟩
  · exact if_neg fun hmem => hu (houtside u hmem)
  · refine (allHold_congr hloc hg fun v hv => ?_).mp hzhold
    by_cases hlt : v < g.baseVar
    · -- a plug: its combination mentions nothing that has changed
      obtain ⟨l, hl, heval⟩ := view_plug (F := ZMod p) b hlen hlt (hv.1 hlt)
      have hnot : v ∉ elim := fun hmem => (h.unread v hmem).1 (hv.1 hlt)
      rw [hz v hnot, heval, heval]
      refine l.eval_congr fun u hu => ?_
      exact (if_neg fun hmem => hplugs l hl u hu (houtside u hmem)).symm
    · have hle := not_lt.mp hlt
      rw [view_fresh hle, hinside]
      split_ifs with hmem
      · rfl
      · rw [hz v hmem, view_fresh hle]

/-- The item expands, its rows hold exactly where it does, and it reads what they mention. -/
lemma Encoded.exists_rows (h : Encoded size c) {it : CItem} (hit : it ∈ c.topC) :
    ∃ rows : List R1csRow, (∀ x : VarId → ZMod p, (∀ r ∈ rows, r.Sat x) ↔ Holds c.defs it x) ∧
      ∀ r ∈ rows, ∀ v ∈ r.vars, Reads c.defs it v := by
  have hwf : WellFormed GDef.cItems c.defs [it] := h.wf.sub fun it' hit' =>
    List.mem_singleton.mp hit' ▸ hit
  obtain ⟨N, rows, hN⟩ := hwf.exists_expandC
  refine ⟨rows, fun x => ?_, fun r hr v hv => Or.inr ⟨N, rows, hN N le_rfl, r, hr, hv⟩⟩
  rw [sat_expandC h.localDefs (fun it' hit' => by
    rw [List.mem_singleton.mp hit']
    exact placed_IDENTITY (h.callOk hit)) (hN N le_rfl) x]
  exact List.forall_mem_singleton

/-- What the full circuit means: every item of the top stream holds. -/
lemma Encoded.sat_full (h : Encoded size c) {n : ℕ} {rows : List R1csRow}
    (hrows : expandC c.defs n .IDENTITY c.topC = .ok rows) (x : VarId → ZMod p) :
    (∀ r ∈ rows, r.Sat x) ↔ AllHold c.defs c.topC x :=
  sat_expandC h.localDefs (fun _ hit => placed_IDENTITY (h.callOk hit)) hrows x

/-- A template that the top stream calls, with what is left of its body. -/
structure CallData (p : ℕ) (size : ℕ → ℕ) (c : Container) (defs : List GDef) (d : ℕ) where
  g : GDef
  rows : List R1csRow
  elim : List VarId
  get : c.defs[d]? = some g
  reduced : ReducedDef p size c.defs d g rows elim
  holds : ∀ (b : VarId) plugs (x : VarId → ZMod p), Holds defs (.call d b plugs) x ↔
    ∀ r ∈ rows, r.Sat (view g b plugs x)

lemma ReducedStreams.exists_callData {defs : List GDef} {top : List CItem}
    (hred : ReducedStreams p size c defs top) (h : Encoded size c) {d : ℕ} {b : VarId}
    {plugs : List LinearCombination} (hit : .call d b plugs ∈ c.topC) :
    Nonempty (CallData p size c defs d) := by
  obtain ⟨⟨g, hg, -⟩, -⟩ := h.callOk hit
  have hcalls : calls c.topC d := List.any_eq_true.mpr ⟨_, hit, by simp [Item.callee]⟩
  obtain ⟨g', rows, elim, hg', hitems, hdef⟩ := hred.defs d hcalls g hg
  refine ⟨⟨g, rows, elim, hg, hdef, fun b plugs x => ?_⟩⟩
  rw [holds_call hg', view_recast (hred.recast.recast d g g' hg hg'), hitems, AllHold,
    List.forall_mem_map]
  exact forall₂_congr fun r _ => holds_row

/-- What the reduced circuit means. -/
lemma ReducedStreams.sat_reduced {defs : List GDef} {top : List CItem}
    (hred : ReducedStreams p size c defs top) (h : Encoded size c) {n : ℕ} {rows : List R1csRow}
    (hrows : expandC defs n .IDENTITY top = .ok rows) (x : VarId → ZMod p) :
    (∀ r ∈ rows, r.Sat x) ↔ AllHold defs top x := by
  obtain ⟨rows', elim, rfl, -⟩ := hred.top
  refine sat_expandC (hred.recast.localDefs h.localDefs) (fun it hit => ?_) hrows x
  by_cases hcall : it.isCall
  · rcases List.mem_append.mp hit with hit | hit
    · obtain ⟨r, -, rfl⟩ := List.mem_map.mp hit
      exact absurd hcall (by simp [Item.isCall])
    · exact placed_IDENTITY (hred.recast.callOk (fun _ hv => hv)
        (h.callOk (List.mem_filter.mp hit).1))
  · exact placed_IDENTITY (@callOk_of_not_isCall _ none _ hcall)

/-- **Soundness**: an assignment of the full circuit is one of the reduced circuit. -/
lemma ReducedStreams.sound {defs : List GDef} {top : List CItem}
    (hred : ReducedStreams p size c defs top) (h : Encoded size c) {x : VarId → ZMod p}
    (hx : AllHold c.defs c.topC x) : AllHold defs top x := by
  obtain ⟨rows, elim, rfl, hmin⟩ := hred.top
  intro it hit
  rcases List.mem_append.mp hit with hit | hit
  · obtain ⟨r, hr, rfl⟩ := List.mem_map.mp hit
    refine .row (hmin.sound x (fun it hit r hr => ?_) r hr)
    have hhold := hx it hit
    cases it with
    | row r' =>
        obtain rfl := List.mem_singleton.mp hr
        exact holds_row.mp hhold
    | rolled rs => exact holds_rolled.mp hhold r hr
    | call d b plugs => exact absurd hr List.not_mem_nil
  · obtain ⟨hmem, hcall⟩ := List.mem_filter.mp hit
    obtain ⟨d, b, plugs, rfl⟩ := isCall_iff.mp hcall
    obtain ⟨D⟩ := hred.exists_callData h hmem
    exact (D.holds b plugs x).mpr (D.reduced.sound _ ((holds_call D.get).mp (hx _ hmem)))

/-- Changing the variables that the top stream has eliminated changes nothing for a call. -/
lemma ReducedStreams.holds_of_agree {defs : List GDef} {rows : List R1csRow} {elim : List VarId}
    (h : Encoded size c) (hmin : Minimized p c.topC rows (fun v => v.val < c.inputs.length ∨
      PinnedByCalls (callInterfaces c.defs) c.topC v) elim) {d : ℕ} {b : VarId}
    {plugs : List LinearCombination} (hmem : .call d b plugs ∈ c.topC)
    (D : CallData p size c defs d) {x y : VarId → ZMod p} (hxy : ∀ v, v ∉ elim → y v = x v)
    (hx : ∀ r ∈ D.rows, r.Sat (view D.g b plugs x)) : ∀ r ∈ D.rows, r.Sat (view D.g b plugs y) := by
  obtain ⟨⟨g, hg, hlen⟩, -⟩ := h.callOk hmem
  obtain rfl := Option.some.inj (hg.symm.trans D.get)
  intro r hr
  refine (R1csRow.sat_congr r fun v hv => ?_).mp (hx r hr)
  have hown := D.reduced.vars r hr v hv
  by_cases hlt : v < D.g.baseVar
  · obtain ⟨l, hl, heval⟩ := view_plug (F := ZMod p) b hlen hlt (hown.1 hlt)
    rw [heval, heval]
    refine l.eval_congr fun u hu => (hxy u fun hmem' => ?_).symm
    exact (hmin.unpinned u hmem').2 (Or.inr ⟨d, b, plugs, hmem, Or.inl ⟨l, hl, hu⟩⟩)
  · have hle := not_lt.mp hlt
    rw [view_fresh hle, view_fresh hle]
    refine (hxy _ fun hmem' => ?_).symm
    -- a row of the top stream reads it, so it is an output of the call, and pinned
    obtain ⟨⟨it, hit, r', hr', hv'⟩, hnot⟩ := hmin.unpinned _ hmem'
    obtain ⟨i, hi⟩ := List.mem_iff_getElem?.mp hit
    obtain ⟨j, hj⟩ := List.mem_iff_getElem?.mp hmem
    have hne : i ≠ j := by
      rintro rfl
      obtain rfl := Option.some.inj (hi.symm.trans hj)
      exact absurd hr' List.not_mem_nil
    obtain ⟨g, hg, o, ho, hbase, heq⟩ := h.outputs i j it d b plugs hi hj hne _
      (Or.inl ⟨r', hr', hv'⟩) (inBlock_shift (h.room d b plugs hmem) hle hown.2)
    refine hnot (Or.inr ⟨d, b, plugs, hmem, Or.inr ⟨(g.baseVar, g.outputs), ?_, o, ho, hbase, heq⟩⟩)
    rw [callInterfaces, List.getElem?_map, hg, Option.map_some]

/-- **Completeness**: an assignment of the reduced circuit is one of the full circuit but for
variables that are no inputs. -/
lemma ReducedStreams.complete {defs : List GDef} {top : List CItem}
    (hred : ReducedStreams p size c defs top) (h : Encoded size c)
    (hplugs : PlugsReadOutputs size c) {x : VarId → ZMod p} (hx : AllHold defs top x) :
    ∃ z : VarId → ZMod p, (∀ v : VarId, v.val < c.inputs.length → z v = x v) ∧
      AllHold c.defs c.topC z := by
  obtain ⟨rows, elim, rfl, hmin⟩ := hred.top
  obtain ⟨x₁, hx₁, hinline⟩ := hmin.complete x fun r hr =>
    holds_row.mp (hx _ (List.mem_append.mpr (Or.inl (List.mem_map_of_mem hr))))
  have hdata : ∀ d b plugs, .call d b plugs ∈ c.topC → Nonempty (CallData p size c defs d) :=
    fun d b plugs hit => hred.exists_callData h hit
  have hchoose : ∀ d, ∃ D : Option (CallData p size c defs d),
      ∀ b plugs, .call d b plugs ∈ c.topC → D.isSome := by
    intro d
    by_cases hd : Nonempty (CallData p size c defs d)
    · exact ⟨some hd.some, fun _ _ _ => rfl⟩
    · exact ⟨none, fun b plugs hit => absurd (hdata d b plugs hit) hd⟩
  choose D hD using hchoose
  -- what each item of the top stream may change, and what it asks for
  let W (i : ℕ) : Set VarId := {u | ∃ d b plugs E, c.topC[i]? = some (.call d b plugs) ∧
    D d = some E ∧ Hidden E.g b E.elim u}
  let A (i : ℕ) : Set (VarId → ZMod p) := {y | ∀ it, c.topC[i]? = some it → Holds c.defs it y}
  have hW : ∀ i d b plugs, c.topC[i]? = some (.call d b plugs) → ∀ u ∈ W i,
      InBlock b (size d) u ∧ ¬IsOutput c.defs d b u := by
    rintro i d b plugs hi u ⟨d', b', plugs', E, hi', -, hu⟩
    obtain ⟨rfl, rfl, rfl⟩ := Item.call.inj (Option.some.inj (hi.symm.trans hi'))
    exact hidden_spec E.reduced E.get (h.room d b plugs (List.mem_of_getElem? hi)) hu
  have hcall : ∀ i u, u ∈ W i → ∃ d b plugs, c.topC[i]? = some (.call d b plugs) := by
    rintro i u ⟨d, b, plugs, E, hi, -⟩
    exact ⟨d, b, plugs, hi⟩
  have hext : ∀ i, ∃ y ∈ A i, ∀ v, v ∉ W i → y v = x₁ v := by
    intro i
    cases hi : c.topC[i]? with
    | none => exact ⟨x₁, fun it hit => absurd hit (by simp [hi]), fun _ _ => rfl⟩
    | some it =>
        have hmem := List.mem_of_getElem? hi
        have hone : ∀ {y : VarId → ZMod p}, Holds c.defs it y → y ∈ A i := fun hy it' hit' => by
          obtain rfl := Option.some.inj (hi.symm.trans hit')
          exact hy
        cases it with
        | row r => exact ⟨x₁, hone (.row (hinline _ hmem r List.mem_cons_self)), fun _ _ => rfl⟩
        | rolled rs => exact ⟨x₁, hone (.rolled (hinline _ hmem)), fun _ _ => rfl⟩
        | call d b plugs =>
            obtain ⟨E, hE⟩ := Option.isSome_iff_exists.mp (hD d b plugs hmem)
            obtain ⟨⟨g, hg, hlen⟩, -⟩ := h.callOk hmem
            obtain rfl := Option.some.inj (hg.symm.trans E.get)
            have hhold := (E.holds b plugs x).mp (hx _ (List.mem_append.mpr (Or.inr
              (List.mem_filter.mpr ⟨hmem, rfl⟩))))
            have hkeep := ReducedStreams.holds_of_agree h hmin hmem E hx₁ hhold
            have hroom := h.room d b plugs hmem
            obtain ⟨y, hy, hyhold⟩ := exists_completed h.localDefs E.get E.reduced hlen
              (fun l hl u hu hhid => by
                obtain ⟨hin, hout⟩ := hidden_spec E.reduced E.get hroom hhid
                exact hout (hplugs d b plugs hmem l hl u hu hin)) hkeep
            refine ⟨y, hone hyhold, fun u hu => hy u fun hhid => hu ?_⟩
            exact ⟨d, b, plugs, E, hi, hE, hhid⟩
  have hdisj : ∀ i j, i ≠ j → ∀ u, u ∈ W i → u ∉ W j := by
    intro i j hij u hui huj
    obtain ⟨d, b, plugs, hi⟩ := hcall i u hui
    obtain ⟨d', b', plugs', hj⟩ := hcall j u huj
    exact h.disjoint i j d b plugs d' b' plugs' hi hj hij u (hW i d b plugs hi u hui).1
      (hW j d' b' plugs' hj u huj).1
  have hloc : ∀ i, ∀ y ∈ A i, ∀ z, (∀ v, (∀ j, j ≠ i → v ∉ W j) → z v = y v) → z ∈ A i := by
    intro i y hy z hzy it hi
    obtain ⟨rows', hsat, hreads⟩ := h.exists_rows (p := p) (List.mem_of_getElem? hi)
    rw [← hsat]
    intro r hr
    refine (R1csRow.sat_congr r fun v hv => ?_).mp ((hsat y).mpr (hy it hi) r hr)
    refine (hzy v fun j hji hvj => ?_).symm
    obtain ⟨d, b, plugs, hj⟩ := hcall j v hvj
    obtain ⟨hin, hout⟩ := hW j d b plugs hj v hvj
    exact hout (h.outputs i j it d b plugs hi hj (Ne.symm hji) v (hreads r hr v hv) hin)
  obtain ⟨z, hzx, hz⟩ := exists_glued hext hdisj hloc
  refine ⟨z, fun v hv => ?_, fun it hit => ?_⟩
  · rw [hzx v, hx₁ v fun hmem => (hmin.unpinned v hmem).2 (Or.inl hv)]
    intro i hvi
    obtain ⟨d, b, plugs, hi⟩ := hcall i v hvi
    have := h.inputs d b plugs (List.mem_of_getElem? hi) v (hW i d b plugs hi v hvi).1
    omega
  · obtain ⟨i, hi⟩ := List.mem_iff_getElem?.mp hit
    exact hz i it hi

/-- **The reduction of a circuit is sound and complete.** Once the bound on the depth of the calls
is large enough, the full expansion and the reduction end, and values of the inputs extend to an
assignment of the one exactly when they extend to an assignment of the other. -/
theorem reduction_sound_complete [Fact p.Prime] (hmod : c.field.modulus = some p)
    (h : Encoded size c) (hplugs : PlugsReadOutputs size c) :
    ∃ N full reduced, (∀ n, N ≤ n → expandC c.defs n .IDENTITY c.topC = .ok full ∧
        expandReduced p c n = .ok reduced) ∧
      ∀ a : VarId → ZMod p,
        (∃ x : VarId → ZMod p, (∀ v : VarId, v.val < c.inputs.length → x v = a v) ∧
          ∀ r ∈ full, r.Sat x) ↔
        ∃ x : VarId → ZMod p, (∀ v : VarId, v.val < c.inputs.length → x v = a v) ∧
          ∀ r ∈ reduced.constraints, r.Sat x := by
  obtain ⟨N, full, hfull⟩ := h.wf.exists_expandC
  obtain ⟨M, defs, top, hred, hstreams⟩ := reduceStreams_ok hmod h.localDefs h.wf
  obtain ⟨rows, elim, htop, -⟩ := hred.top
  have hwf : WellFormed GDef.cItems defs top := hred.recast.wellFormed h.wf fun it hit hc => by
    rw [htop] at hit
    rcases List.mem_append.mp hit with hit | hit
    · obtain ⟨r, -, rfl⟩ := List.mem_map.mp hit
      exact absurd hc (by simp [Item.isCall])
    · exact (List.mem_filter.mp hit).1
  obtain ⟨K, reduced, hreduced⟩ := hwf.exists_expandC
  refine ⟨max N (max M K), full, ⟨c.field, c.keptVars reduced, reduced, []⟩,
    fun n hn => ⟨hfull n (by omega), ?_⟩, fun a => ?_⟩
  · rw [expandReduced, hstreams n (by omega), ok_bind, hreduced n (by omega)]
    rfl
  · constructor
    · rintro ⟨x, hxa, hx⟩
      refine ⟨x, hxa, (hred.sat_reduced h (hreduced K le_rfl) x).mpr ?_⟩
      exact hred.sound h ((h.sat_full (hfull N le_rfl) x).mp hx)
    · rintro ⟨x, hxa, hx⟩
      obtain ⟨z, hzx, hz⟩ := hred.complete h hplugs
        ((hred.sat_reduced h (hreduced K le_rfl) x).mp hx)
      exact ⟨z, fun v hv => (hzx v hv).trans (hxa v hv),
        (h.sat_full (hfull N le_rfl) z).mpr hz⟩

end Glue

/-! ### A circuit where it fails, and one where it applies -/

/-- A template whose fresh variable equals its plug. -/
def equalDef (outputs : List VarId) : GDef :=
  ⟨1, [0], outputs, [.row ⟨.ofVar 1, .one, .ofVar 0, none⟩], []⟩

/-- The template called with its own fresh variable plus one: the plug combination reads the block
of its call. -/
def ownPlug : Container where
  field := ⟨"seven", some "7"⟩
  numVars := 2
  inputs := []
  defs := [equalDef []]
  topC := [.call 0 1 [⟨1, [⟨1, 1⟩]⟩]]
  topW := []
  keepExtra := []
  inputs_le := by decide

/-- The template called with an input plus one. -/
def inputPlug : Container where
  field := ⟨"seven", some "7"⟩
  numVars := 2
  inputs := [(.publicInput, "x")]
  defs := [equalDef [1]]
  topC := [.call 0 1 [⟨1, [⟨1, 0⟩]⟩], .row ⟨.ofVar 1, .ofVar 1, .ofVar 0, none⟩]
  topW := []
  keepExtra := []
  inputs_le := by decide

lemma localItem_equalDef (outputs : List VarId) {it : CItem} (hit : it ∈ (equalDef outputs).cItems) :
    LocalItem (fun _ => 1) 1 (equalDef outputs) it := by
  obtain rfl := List.mem_singleton.mp hit
  refine ⟨fun r hr v hv => ?_, fun d b plugs h => absurd h (by simp),
    fun d b plugs h => absurd h (by simp)⟩
  obtain rfl := List.mem_singleton.mp hr
  simp only [R1csRow.vars, LinearCombination.vars, LinearCombination.ofVar, LinearCombination.one,
    List.map_cons, List.map_nil, List.append_nil, List.mem_append, List.mem_singleton] at hv
  rcases hv with rfl | rfl
  · exact ⟨fun h => absurd h (by simp [equalDef]), by simp [equalDef]⟩
  · exact ⟨fun _ => List.mem_cons_self, by simp [equalDef]⟩

/-- Top streams of rows and calls of the one template. -/
lemma wellFormed_equalDef {outputs : List VarId} {top : List CItem}
    (htop : ∀ it ∈ top, CallOk [equalDef outputs] none it) :
    WellFormed GDef.cItems [equalDef outputs] top where
  calls own hown it hit := by
    cases own with
    | none => exact htop it hit
    | some g =>
        obtain rfl := List.mem_singleton.mp (hown g rfl)
        obtain rfl := List.mem_singleton.mp hit
        trivial
  acyclic := by
    refine ⟨fun _ => 0, fun i g hg it hit j hj => ?_⟩
    obtain rfl := List.mem_singleton.mp (List.mem_of_getElem? hg)
    obtain rfl := List.mem_singleton.mp hit
    exact absurd hj (by simp [Item.callee])

lemma encoded_ownPlug : Encoded (fun _ => 1) ownPlug := by
  have htop : ∀ d b plugs, (.call d b plugs : CItem) ∈ ownPlug.topC →
      d = 0 ∧ b = 1 ∧ plugs = [⟨1, [⟨1, 1⟩]⟩] := fun d b plugs h =>
    Item.call.inj (List.mem_singleton.mp h)
  have hone : ∀ (i : ℕ) it, ownPlug.topC[i]? = some it → i = 0 := by
    intro i it h
    have := (List.getElem?_eq_some_iff.mp h).1
    simp only [ownPlug, List.length_singleton] at this
    omega
  refine ⟨wellFormed_equalDef fun it hit => ?_, fun d g hg => ?_, fun d g hg it hit => ?_,
    fun d b plugs h => ?_, fun d b plugs h v hv => Nat.zero_le _,
    fun i j d b plugs d' b' plugs' hi hj hij => absurd ((hone i _ hi).trans (hone j _ hj).symm) hij,
    fun i j it d b plugs hi hj hij => absurd ((hone i _ hi).trans (hone j _ hj).symm) hij⟩
  · obtain rfl := List.mem_singleton.mp hit
    exact ⟨⟨_, rfl, rfl⟩, by simp [NotPlug]⟩
  · obtain rfl := List.mem_singleton.mp (List.mem_of_getElem? hg)
    decide
  · obtain rfl := List.mem_singleton.mp (List.mem_of_getElem? hg)
    exact localItem_equalDef [] hit
  · obtain ⟨-, rfl, -⟩ := htop d b plugs h
    decide

/-- **The proviso is needed**: the reduction of `ownPlug` has no row, its full expansion cannot be
satisfied. -/
theorem reduction_of_own_plug : Encoded (fun _ => 1) ownPlug ∧ ∃ full reduced,
    expandC ownPlug.defs 3 .IDENTITY ownPlug.topC = .ok full ∧
    expandReduced 7 ownPlug 3 = .ok reduced ∧
    (¬∃ x : VarId → ZMod 7, ∀ r ∈ full, r.Sat x) ∧
    ∃ x : VarId → ZMod 7, ∀ r ∈ reduced.constraints, r.Sat x := by
  refine ⟨encoded_ownPlug, [⟨.ofVar 1, .one, ⟨1, [⟨1, 1⟩]⟩, none⟩], ⟨⟨"seven", some "7"⟩, [], [], []⟩,
    by decide +kernel, by decide +kernel, ?_, fun _ => 0, fun r hr => absurd hr List.not_mem_nil⟩
  rintro ⟨x, hx⟩
  have h := hx _ List.mem_cons_self
  simp [R1csRow.Sat, LinearCombination.eval, LinearCombination.evalTerms, LinearCombination.ofVar,
    LinearCombination.one] at h

lemma encoded_inputPlug : Encoded (fun _ => 1) inputPlug := by
  have htop : ∀ d b plugs, (.call d b plugs : CItem) ∈ inputPlug.topC →
      d = 0 ∧ b = 1 ∧ plugs = [⟨1, [⟨1, 0⟩]⟩] := by
    intro d b plugs h
    rcases List.mem_cons.mp h with h | h
    · exact Item.call.inj h
    · exact absurd (List.mem_singleton.mp h) (by simp)
  have hzero : ∀ (j : ℕ) d b plugs, inputPlug.topC[j]? = some (.call d b plugs) → j = 0 := by
    intro j d b plugs h
    match j with
    | 0 => rfl
    | 1 => exact absurd h (by simp [inputPlug])
    | j + 2 => exact absurd h (by simp [inputPlug])
  have hblock : ∀ v, InBlock 1 1 v → v = 1 := by
    rintro v ⟨hle, hlt⟩
    have hle' : 1 ≤ v.val := hle
    exact Fin.ext (show v.val = 1 by
      have hlt' : v.val < 1 + 1 := hlt
      omega)
  refine ⟨wellFormed_equalDef fun it hit => ?_, fun d g hg => ?_, fun d g hg it hit => ?_,
    fun d b plugs h => ?_, fun d b plugs h v hv => ?_,
    fun i j d b plugs d' b' plugs' hi hj hij => ?_, fun i j it d b plugs hi hj hij v _ hv => ?_⟩
  · rcases List.mem_cons.mp hit with rfl | hit
    · exact ⟨⟨_, rfl, rfl⟩, by simp [NotPlug]⟩
    · obtain rfl := List.mem_singleton.mp hit
      trivial
  · obtain rfl := List.mem_singleton.mp (List.mem_of_getElem? hg)
    decide
  · obtain rfl := List.mem_singleton.mp (List.mem_of_getElem? hg)
    exact localItem_equalDef [1] hit
  · obtain ⟨-, rfl, -⟩ := htop d b plugs h
    decide
  · obtain ⟨-, rfl, -⟩ := htop d b plugs h
    rw [hblock v hv]
    decide
  · exact absurd ((hzero i _ _ _ hi).trans (hzero j _ _ _ hj).symm) hij
  · obtain ⟨rfl, rfl, -⟩ := htop d b plugs (List.mem_of_getElem? hj)
    exact ⟨_, rfl, 1, List.mem_cons_self, le_rfl, (hblock v hv).trans (by decide)⟩

theorem reduction_sound_complete_inputPlug :
    ∃ N full reduced, (∀ n, N ≤ n → expandC inputPlug.defs n .IDENTITY inputPlug.topC = .ok full ∧
        expandReduced 7 inputPlug n = .ok reduced) ∧
      ∀ a : VarId → ZMod 7,
        (∃ x : VarId → ZMod 7, (∀ v : VarId, v.val < 1 → x v = a v) ∧ ∀ r ∈ full, r.Sat x) ↔
        ∃ x : VarId → ZMod 7, (∀ v : VarId, v.val < 1 → x v = a v) ∧
          ∀ r ∈ reduced.constraints, r.Sat x := by
  refine reduction_sound_complete (by decide) encoded_inputPlug fun d b plugs h l hl v hv hin => ?_
  rcases List.mem_cons.mp h with h | h
  · obtain ⟨rfl, rfl, rfl⟩ := Item.call.inj h
    obtain rfl := List.mem_singleton.mp hl
    obtain rfl := List.mem_singleton.mp hv
    exact absurd hin.1 (by decide)
  · exact absurd (List.mem_singleton.mp h) (by simp)

end XarkCircuit
