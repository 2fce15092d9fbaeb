import XarkCircuit.Decode.Expand
import Mathlib.Algebra.Group.Fin.Basic

/-!
What a stream of constraints means, without expanding it.

* `Holds defs it y`: the item holds under `y`, a call when the body of its template does under the
  assignment that the call makes the body see.
* `Own`: the variables a body may mention, its plugs and the block of its fresh variables, and
  `LocalDefs`: every body keeps to its own. `holds_congr` says that then a body sees nothing else.
* `sat_expandC` is the result: the rows of an expansion hold under `x` exactly when the items hold
  under what `x` looks like from inside.
-/

namespace XarkCircuit

open Outcome

/-! ### Meaning -/

section Meaning

variable {F : Type} [CommRing F]

/-- What the body of a template sees of `y` when it is called with `base` and `plugs`. -/
def view (g : GDef) (base : VarId) (plugs : List LinearCombination) (y : VarId → F) : VarId → F :=
  (callSubst g base plugs).pull 1 y

/-- The item holds under `y`. -/
inductive Holds (defs : List GDef) : CItem → (VarId → F) → Prop
  | row {r : R1csRow} {y : VarId → F} (h : r.Sat y) : Holds defs (.row r) y
  | rolled {rs : List R1csRow} {y : VarId → F} (h : ∀ r ∈ rs, r.Sat y) : Holds defs (.rolled rs) y
  | call {d : ℕ} {base : VarId} {plugs : List LinearCombination} {y : VarId → F} {g : GDef}
      (hg : defs[d]? = some g) (h : ∀ it ∈ g.cItems, Holds defs it (view g base plugs y)) :
      Holds defs (.call d base plugs) y

/-- Every item of the stream holds. -/
def AllHold (defs : List GDef) (items : List CItem) (y : VarId → F) : Prop :=
  ∀ it ∈ items, Holds defs it y

variable {defs : List GDef} {y : VarId → F}

@[simp] lemma holds_row {r : R1csRow} : Holds defs (.row r) y ↔ r.Sat y :=
  ⟨fun h => by cases h; assumption, .row⟩

@[simp] lemma holds_rolled {rs : List R1csRow} :
    Holds defs (.rolled rs) y ↔ ∀ r ∈ rs, r.Sat y :=
  ⟨fun h => by cases h; assumption, .rolled⟩

lemma holds_call {d : ℕ} {g : GDef} (hg : defs[d]? = some g) {base : VarId}
    {plugs : List LinearCombination} :
    Holds defs (.call d base plugs) y ↔ AllHold defs g.cItems (view g base plugs y) := by
  refine ⟨fun h => ?_, .call hg⟩
  cases h with
  | call hg' h =>
      obtain rfl := Option.some.inj (hg.symm.trans hg')
      exact h

/-- A substituted row holds where the row does, seen through the substitution. -/
lemma sat_substRow (r : R1csRow) (s : Subst) (x : VarId → F) :
    (substRow s r).Sat x ↔ r.Sat (s.pull 1 x) := by
  simp only [R1csRow.Sat, substRow, eval_substLc]

end Meaning

/-! ### Bodies that keep to their own -/

/-- The variables a body may mention: below the base only plugs, and from the base on the `k` fresh
variables of the call. -/
def Own (k : ℕ) (g : GDef) (v : VarId) : Prop :=
  (v < g.baseVar → v ∈ g.plugs) ∧ v.val < g.baseVar.val + k

/-- An item that keeps to the variables of its body: its rows and plug combinations mention no
others, and the fresh variables of a call are fresh variables of the body. -/
structure LocalItem (size : ℕ → ℕ) (k : ℕ) (g : GDef) (it : CItem) : Prop where
  rows : ∀ r ∈ it.inline, ∀ v ∈ r.vars, Own k g v
  base : ∀ d b plugs, it = .call d b plugs →
    g.baseVar ≤ b ∧ b.val + size d ≤ g.baseVar.val + k
  plugs : ∀ d b plugs, it = .call d b plugs → ∀ l ∈ plugs, ∀ v ∈ l.vars, Own k g v

/-- Every body keeps to its own variables; template `d` has `size d` fresh ones. -/
structure LocalDefs (size : ℕ → ℕ) (defs : List GDef) : Prop where
  fits : ∀ (d : ℕ) g, defs[d]? = some g → g.baseVar.val + size d ≤ 2 ^ 32
  items : ∀ (d : ℕ) g, defs[d]? = some g → ∀ it ∈ g.cItems, LocalItem size (size d) g it
  /-- A call passes one combination for each plug. -/
  arity : ∀ (d : ℕ) g, defs[d]? = some g → ∀ it ∈ g.cItems, CallOk defs (some g) it

section Local

variable {F : Type} [CommRing F] {size : ℕ → ℕ} {defs : List GDef}

/-- A plug stands for one of the combinations passed. -/
lemma get_callSubst_plug {g : GDef} (base : VarId) {plugs : List LinearCombination}
    (hlen : g.plugs.length = plugs.length) {v : VarId} (hlt : v < g.baseVar) (hv : v ∈ g.plugs) :
    ∃ (i : ℕ) (l : LinearCombination), rposition v g.plugs = some i ∧ plugs[i]? = some l ∧
      (callSubst g base plugs).get v = .lc l := by
  cases hr : rposition v g.plugs with
  | none => exact absurd hv (rposition_eq_none.mp hr)
  | some i =>
      have hi : i < plugs.length := hlen ▸ rposition_lt hr
      refine ⟨i, plugs[i], rfl, List.getElem?_eq_getElem hi, ?_⟩
      rw [get_callSubst g base hlen, if_neg (not_le.mpr hlt), hr, Option.bind_some,
        List.getElem?_eq_getElem hi, Option.map_some, Option.getD_some]

lemma get_callSubst_fresh {g : GDef} {base : VarId} {plugs : List LinearCombination} {v : VarId}
    (hle : g.baseVar ≤ v) : (callSubst g base plugs).get v = .var (base + (v - g.baseVar)) := by
  simp [Subst.get, callSubst, hle]

/-- A fresh variable, seen from inside. -/
lemma view_fresh {g : GDef} {base : VarId} {plugs : List LinearCombination} {v : VarId}
    (hle : g.baseVar ≤ v) (y : VarId → F) : view g base plugs y v = y (base + (v - g.baseVar)) :=
  Subst.pull_of_var (get_callSubst_fresh hle) 1 y

/-- A plug, seen from inside. -/
lemma view_plug {g : GDef} (base : VarId) {plugs : List LinearCombination}
    (hlen : g.plugs.length = plugs.length) {v : VarId} (hlt : v < g.baseVar) (hv : v ∈ g.plugs) :
    ∃ l ∈ plugs, ∀ y : VarId → F, view g base plugs y v = l.eval y := by
  obtain ⟨i, l, -, hl, hget⟩ := get_callSubst_plug base hlen hlt hv
  exact ⟨l, List.mem_of_getElem? hl, fun y => by
    rw [view, Subst.pull_of_lc hget, LinearCombination.dot_one]⟩

/-- The value of a shifted variable inside a block does not wrap. -/
lemma shift_val {base v : VarId} {b : VarId} {k m : ℕ} (hv : b ≤ v) (hk : v.val < b.val + k)
    (hm : base.val + k ≤ m) (hm' : m ≤ 2 ^ 32) : (base + (v - b)).val = base.val + (v.val - b.val) := by
  have hsub : (v - b).val = v.val - b.val := Fin.sub_val_of_le hv
  rw [Fin.val_add, hsub, Nat.mod_eq_of_lt]
  have hle : b.val ≤ v.val := hv
  omega

/-- What a call of an item sees depends on what the item's body may mention. -/
lemma view_congr {g g' : GDef} {k d : ℕ} {base : VarId} {plugs : List LinearCombination}
    (hit : LocalItem size k g (.call d base plugs)) (hk : g.baseVar.val + k ≤ 2 ^ 32)
    (hlen : g'.plugs.length = plugs.length) {y y' : VarId → F} (h : ∀ v, Own k g v → y v = y' v)
    {v : VarId} (hv : Own (size d) g' v) : view g' base plugs y v = view g' base plugs y' v := by
  obtain ⟨hbase, hroom⟩ := hit.base d base plugs rfl
  have hbase' : g.baseVar.val ≤ base.val := hbase
  by_cases hlt : v < g'.baseVar
  · obtain ⟨l, hl, heval⟩ := view_plug (F := F) base hlen hlt (hv.1 hlt)
    rw [heval y, heval y']
    exact l.eval_congr fun u hu => h u (hit.plugs d base plugs rfl l hl u hu)
  · rw [view_fresh (not_lt.mp hlt), view_fresh (not_lt.mp hlt)]
    have hval := shift_val (not_lt.mp hlt) hv.2 (hroom.trans hk) le_rfl
    have hle : g'.baseVar.val ≤ v.val := not_lt.mp hlt
    have hlt' := hv.2
    refine h _ ⟨fun hcontra => ?_, by omega⟩
    have : (base + (v - g'.baseVar)).val < g.baseVar.val := hcontra
    omega

/-- **A body sees nothing but its own.** -/
lemma holds_congr (hloc : LocalDefs size defs) {it : CItem} {y : VarId → F}
    (h : Holds defs it y) : ∀ {g : GDef} {k : ℕ}, LocalItem size k g it →
      CallOk defs (some g) it → g.baseVar.val + k ≤ 2 ^ 32 →
      ∀ {y' : VarId → F}, (∀ v, Own k g v → y v = y' v) → Holds defs it y' := by
  induction h with
  | row h =>
      intro g k hit _ _ y' hy
      exact .row ((R1csRow.sat_congr _ fun v hv => hy v (hit.rows _ List.mem_cons_self v hv)).mp h)
  | rolled h =>
      intro g k hit _ _ y' hy
      exact .rolled fun r hr =>
        (R1csRow.sat_congr r fun v hv => hy v (hit.rows r hr v hv)).mp (h r hr)
  | call hg _ ih =>
      intro g k hit hok hk y' hy
      obtain ⟨⟨g', hg', hlen⟩, -⟩ := hok
      obtain rfl := Option.some.inj (hg.symm.trans hg')
      refine .call hg fun it' hit' => ?_
      exact ih it' hit' (hloc.items _ _ hg it' hit') (hloc.arity _ _ hg it' hit') (hloc.fits _ _ hg)
        fun v hv => view_congr hit hk hlen hy hv

lemma allHold_congr (hloc : LocalDefs size defs) {d : ℕ} {g : GDef} (hg : defs[d]? = some g)
    {y y' : VarId → F} (h : ∀ v, Own (size d) g v → y v = y' v) :
    AllHold defs g.cItems y ↔ AllHold defs g.cItems y' := by
  have hone : ∀ {y y' : VarId → F}, (∀ v, Own (size d) g v → y v = y' v) →
      AllHold defs g.cItems y → AllHold defs g.cItems y' := fun hy hall it hit =>
    holds_congr hloc (hall it hit) (hloc.items d g hg it hit) (hloc.arity d g hg it hit)
      (hloc.fits d g hg) hy
  exact ⟨hone h, hone fun v hv => (h v hv).symm⟩

/-! ### Expansion keeps the meaning -/

/-- A substitution that moves the block of a call as a whole. -/
structure Placed (size : ℕ → ℕ) (defs : List GDef) (s : Subst) (it : CItem) : Prop where
  arity : ∀ d b plugs, it = .call d b plugs → ∀ g, defs[d]? = some g →
    g.plugs.length = plugs.length
  shifts : ∀ d b plugs, it = .call d b plugs → ∃ B, s.get b = .var B ∧
    ∀ off : VarId, off.val < size d → s.get (b + off) = .var (B + off)

lemma placed_IDENTITY {own : Option GDef} {it : CItem} (h : CallOk defs own it) :
    Placed size defs .IDENTITY it where
  arity d b plugs hit g hg := by
    subst hit
    obtain ⟨⟨g', hg', hlen⟩, -⟩ := h
    obtain rfl := Option.some.inj (hg.symm.trans hg')
    exact hlen
  shifts d b plugs _ := ⟨b, rfl, fun _ _ => rfl⟩

lemma placed_callSubst {g : GDef} {k : ℕ} {it : CItem} (hit : LocalItem size k g it)
    (hk : g.baseVar.val + k ≤ 2 ^ 32) (hok : CallOk defs (some g) it) (base : VarId)
    (plugs : List LinearCombination) : Placed size defs (callSubst g base plugs) it where
  arity := (@placed_IDENTITY size _ _ _ hok).arity
  shifts d b ls h := by
    obtain ⟨hb, hroom⟩ := hit.base d b ls h
    refine ⟨base + (b - g.baseVar), get_callSubst_fresh hb, fun off hoff => ?_⟩
    have hval : (b + off).val = b.val + off.val := by
      rw [Fin.val_add, Nat.mod_eq_of_lt (by omega)]
    have hle : g.baseVar ≤ b + off := by
      have hb' : g.baseVar.val ≤ b.val := hb
      show g.baseVar.val ≤ (b + off).val
      omega
    rw [get_callSubst_fresh hle]
    rw [add_sub_right_comm, add_assoc]

lemma view_of_placed {s : Subst} {d : ℕ} {b B : VarId} {plugs : List LinearCombination}
    (hs : Placed size defs s (.call d b plugs)) (hB : s.get b = .var B) {g : GDef}
    (hg : defs[d]? = some g) (x : VarId → F) {v : VarId} (hv : Own (size d) g v) :
    (callSubst g B (plugs.map fun l => substLc l s)).pull 1 x v
      = view g b plugs (s.pull 1 x) v := by
  have hlen := hs.arity d b plugs rfl g hg
  by_cases hlt : v < g.baseVar
  · obtain ⟨i, l, hi, hl, hget⟩ := get_callSubst_plug b hlen hlt (hv.1 hlt)
    obtain ⟨i', l', hi', hl', hget'⟩ := get_callSubst_plug B
      (hlen.trans (List.length_map (f := fun l => substLc l s)).symm) hlt (hv.1 hlt)
    obtain rfl := Option.some.inj (hi.symm.trans hi')
    rw [List.getElem?_map, hl, Option.map_some, Option.some.injEq] at hl'
    rw [Subst.pull_of_lc hget', view, Subst.pull_of_lc hget, ← hl', dot_substLc]
  · have hle := not_lt.mp hlt
    obtain ⟨B', hB', hshift⟩ := hs.shifts d b plugs rfl
    obtain rfl := Image.var.inj (hB.symm.trans hB')
    have hoff : (v - g.baseVar).val < size d := by
      have hle' : g.baseVar.val ≤ v.val := hle
      have := hv.2
      rw [Fin.sub_val_of_le hle]
      omega
    rw [Subst.pull_of_var (get_callSubst_fresh hle), view_fresh hle,
      Subst.pull_of_var (hshift _ hoff)]

/-- What the expansion of a call has found. -/
lemma expandItem_call {s : Subst} {d : ℕ} {b : VarId} {plugs : List LinearCombination}
    (hs : Placed size defs s (.call d b plugs))
    {inner : Subst → List CItem → Outcome (List R1csRow)} {rows : List R1csRow}
    (h : expandItem (fun s r => .ok (substRow s r)) GDef.cItems defs inner s (.call d b plugs)
      = .ok rows) :
    ∃ g, defs[d]? = some g ∧ ∃ B, s.get b = .var B ∧
      inner (callSubst g B (plugs.map fun l => substLc l s)) g.cItems = .ok rows := by
  obtain ⟨g, hg, h⟩ := bind_eq_ok.mp h
  obtain ⟨B, hB, h⟩ := bind_eq_ok.mp h
  obtain ⟨B', hB', -⟩ := hs.shifts d b plugs rfl
  refine ⟨g, ?_, B, ?_, h⟩
  · cases hd : defs[d]? with
    | none => rw [hd] at hg; exact absurd hg (by simp)
    | some g' => rw [hd] at hg; exact congrArg some (Except.ok.inj hg)
  · rw [substOut, hB'] at hB
    rw [hB', Except.ok.inj hB]

/-- **Expansion keeps the meaning**: the rows of an expansion hold under `x` exactly when the items
hold under what `x` looks like through the substitution. -/
theorem sat_expandC (hloc : LocalDefs size defs) {n : ℕ} {s : Subst} {items : List CItem}
    {rows : List R1csRow} (hitems : ∀ it ∈ items, Placed size defs s it)
    (h : expandC defs n s items = .ok rows) (x : VarId → F) :
    (∀ r ∈ rows, r.Sat x) ↔ AllHold defs items (s.pull 1 x) := by
  induction n generalizing s items rows with
  | zero => exact absurd h (by simp [expandC, expand])
  | succ n ih =>
      have hitem : ∀ it rs, Placed size defs s it →
          expandItem (fun s r => .ok (substRow s r)) GDef.cItems defs (expandC defs n) s it = .ok rs →
          ((∀ r ∈ rs, r.Sat x) ↔ Holds defs it (s.pull 1 x)) := by
        intro it rs hit hrs
        cases it with
        | row r =>
            obtain rfl := Except.ok.inj hrs
            rw [List.forall_mem_singleton, sat_substRow, holds_row]
        | rolled rs' =>
            have hrows := hrs.symm.trans (concatM_eq_ok (g := fun r => [substRow s r])
              fun r _ => rfl)
            obtain rfl := Except.ok.inj hrows
            simp only [List.mem_flatMap, List.mem_singleton, holds_rolled]
            exact ⟨fun h r hr => (sat_substRow r s x).mp (h _ ⟨r, hr, rfl⟩), by
              rintro h _ ⟨r, hr, rfl⟩
              exact (sat_substRow r s x).mpr (h r hr)⟩
        | call d b plugs =>
            obtain ⟨g, hg', B, hBB, hrs⟩ := expandItem_call hit hrs
            rw [holds_call hg', ih (fun it' hit' => placed_callSubst (hloc.items d g hg' it' hit')
              (hloc.fits d g hg') (hloc.arity d g hg' it' hit') _ _) hrs]
            exact allHold_congr hloc hg' fun v hv => view_of_placed hit hBB hg' x hv
      rw [expandC, expand_succ] at h
      clear ih
      induction items generalizing rows with
      | nil =>
          obtain rfl := Except.ok.inj h
          exact ⟨fun _ _ hit => absurd hit List.not_mem_nil, fun _ _ hr => absurd hr List.not_mem_nil⟩
      | cons it items ihi =>
          rw [concatM_cons] at h
          obtain ⟨bs, hbs, h⟩ := bind_eq_ok.mp h
          obtain ⟨rest, hrest, h⟩ := bind_eq_ok.mp h
          obtain rfl := Except.ok.inj h
          have hhead := hitem it bs (hitems it List.mem_cons_self) hbs
          have htail := ihi (fun it' hit' => hitems it' (List.mem_cons_of_mem _ hit')) hrest
          have hcons : AllHold defs (it :: items) (s.pull 1 x)
              ↔ Holds defs it (s.pull 1 x) ∧ AllHold defs items (s.pull 1 x) := List.forall_mem_cons
          exact List.forall_mem_append.trans ((and_congr hhead htail).trans hcons.symm)

/-! ### The variables of an expansion -/

/-- `s` sends the variables of `P` into `Q`. -/
def Sends (s : Subst) (P Q : VarId → Prop) : Prop := ∀ v, P v →
  (∀ w, s.get v = .var w → Q w) ∧ ∀ l, s.get v = .lc l → ∀ w ∈ l.vars, Q w

lemma sends_IDENTITY (P : VarId → Prop) : Sends .IDENTITY P P := fun v hv =>
  ⟨fun w hw => Image.var.inj hw ▸ hv, fun l hl => absurd hl (by simp [Subst.IDENTITY, Subst.get])⟩

/-- A substituted combination mentions what its variables are sent to. -/
lemma Sends.mem_vars_substLc {s : Subst} {P Q : VarId → Prop} (h : Sends s P Q)
    {l : LinearCombination} (hl : ∀ v ∈ l.vars, P v) {w : VarId} (hw : w ∈ (substLc l s).vars) :
    Q w := by
  have key : ∀ (ts : List Term) (acc : LinearCombination), (∀ t ∈ ts, P t.var) →
      (∀ w ∈ acc.vars, Q w) → ∀ w ∈ (ts.foldl (substTerm s) acc).vars, Q w := by
    intro ts
    induction ts with
    | nil => exact fun acc _ hacc => hacc
    | cons t ts ih =>
        intro acc hts hacc
        refine ih _ (fun t' ht' => hts t' (List.mem_cons_of_mem _ ht')) fun w hw => ?_
        obtain ⟨hvar, hlc⟩ := h t.var (hts t List.mem_cons_self)
        rw [substTerm] at hw
        cases hget : s.get t.var with
        | var u =>
            rw [hget] at hw
            simp only [LinearCombination.vars, List.map_append, List.map_cons, List.map_nil,
              List.mem_append, List.mem_singleton] at hw
            rcases hw with hw | rfl
            · exact hacc w hw
            · exact hvar w hget
        | lc q =>
            rw [hget] at hw
            simp only [LinearCombination.vars, List.map_append, List.map_map, List.mem_append] at hw
            rcases hw with hw | hw
            · exact hacc w hw
            · exact hlc q hget w hw
  refine key l.terms ⟨l.constant, []⟩ (fun t ht => hl _ (List.mem_map_of_mem ht))
    (fun w hw => absurd hw List.not_mem_nil) w ?_
  exact LinearCombination.mem_vars_simplified hw

lemma Sends.mem_vars_substRow {s : Subst} {P Q : VarId → Prop} (h : Sends s P Q) {r : R1csRow}
    (hr : ∀ v ∈ r.vars, P v) {w : VarId} (hw : w ∈ (substRow s r).vars) : Q w := by
  rcases R1csRow.mem_vars.mp hw with hw | hw | hw
  · exact h.mem_vars_substLc (fun v hv => hr v (R1csRow.mem_vars.mpr (.inl hv))) hw
  · exact h.mem_vars_substLc (fun v hv => hr v (R1csRow.mem_vars.mpr (.inr (.inl hv)))) hw
  · exact h.mem_vars_substLc (fun v hv => hr v (R1csRow.mem_vars.mpr (.inr (.inr hv)))) hw

/-- The substitution of a call sends the callee's own variables where the caller's own go. -/
lemma Sends.callSubst {s : Subst} {g g' : GDef} {k d : ℕ} {b B : VarId}
    {plugs : List LinearCombination} {Q : VarId → Prop} (h : Sends s (Own k g) Q)
    (hit : LocalItem size k g (.call d b plugs)) (hk : g.baseVar.val + k ≤ 2 ^ 32)
    (hs : Placed size defs s (.call d b plugs)) (hB : s.get b = .var B)
    (hlen : g'.plugs.length = plugs.length) :
    Sends (callSubst g' B (plugs.map fun l => substLc l s)) (Own (size d) g') Q := by
  intro v hv
  by_cases hlt : v < g'.baseVar
  · obtain ⟨i, l, -, hl, hget⟩ := get_callSubst_plug B
      (hlen.trans (List.length_map (f := fun l => substLc l s)).symm) hlt (hv.1 hlt)
    rw [hget]
    refine ⟨fun w hw => absurd hw (by simp), fun l' hl' w hw => ?_⟩
    obtain rfl := Image.lc.inj hl'
    obtain ⟨l₀, hl₀, rfl⟩ := List.mem_map.mp (List.mem_of_getElem? hl)
    exact h.mem_vars_substLc (hit.plugs d b plugs rfl l₀ hl₀) hw
  · have hle := not_lt.mp hlt
    rw [get_callSubst_fresh hle]
    refine ⟨fun w hw => ?_, fun l hl => absurd hl (by simp)⟩
    obtain rfl := Image.var.inj hw
    obtain ⟨hb, hroom⟩ := hit.base d b plugs rfl
    obtain ⟨B', hB', hshift⟩ := hs.shifts d b plugs rfl
    obtain rfl := Image.var.inj (hB.symm.trans hB')
    have hle' : g'.baseVar.val ≤ v.val := hle
    have hb' : g.baseVar.val ≤ b.val := hb
    have hvk := hv.2
    have hoff : (v - g'.baseVar).val = v.val - g'.baseVar.val := Fin.sub_val_of_le hle
    have hval := shift_val hle hv.2 (hroom.trans hk) le_rfl
    refine (h _ ⟨fun hcontra => ?_, ?_⟩).1 _ (hshift (v - g'.baseVar) (by omega))
    · have : (b + (v - g'.baseVar)).val < g.baseVar.val := hcontra
      omega
    · omega

/-- **The rows of an expansion** mention what the scope's own variables are sent to. -/
lemma mem_vars_expandC (hloc : LocalDefs size defs) {n : ℕ} {s : Subst} {g : GDef} {k : ℕ}
    {items : List CItem} {rows : List R1csRow} {Q : VarId → Prop}
    (hitems : ∀ it ∈ items, LocalItem size k g it ∧ Placed size defs s it)
    (hk : g.baseVar.val + k ≤ 2 ^ 32) (hs : Sends s (Own k g) Q)
    (h : expandC defs n s items = .ok rows) {r : R1csRow} (hr : r ∈ rows) {w : VarId}
    (hw : w ∈ r.vars) : Q w := by
  induction n generalizing s g k items rows with
  | zero => exact absurd h (by simp [expandC, expand])
  | succ n ih =>
      rw [expandC, expand_succ] at h
      obtain ⟨it, hit, rs, hrs, hr⟩ := mem_of_concatM h hr
      obtain ⟨hlocal, hplaced⟩ := hitems it hit
      cases it with
      | row r' =>
          obtain rfl := Except.ok.inj hrs
          obtain rfl := List.mem_singleton.mp hr
          exact hs.mem_vars_substRow (hlocal.rows r' List.mem_cons_self) hw
      | rolled rs' =>
          obtain ⟨r', hr', cs, hcs, hr⟩ := mem_of_concatM hrs hr
          obtain rfl := Except.ok.inj hcs
          obtain rfl := List.mem_singleton.mp hr
          exact hs.mem_vars_substRow (hlocal.rows r' hr') hw
      | call d b plugs =>
          obtain ⟨g', hg', B, hB, hrs⟩ := expandItem_call hplaced hrs
          refine ih (fun it' hit' => ⟨hloc.items d g' hg' it' hit', ?_⟩) (hloc.fits d g' hg')
            (hs.callSubst hlocal hk hplaced hB (hplaced.arity d b plugs rfl g' hg')) hrs hr
          exact placed_callSubst (hloc.items d g' hg' it' hit') (hloc.fits d g' hg')
            (hloc.arity d g' hg' it' hit') _ _

end Local

end XarkCircuit
