import XarkCircuit.Lib.Elimination
import XarkCircuit.Minimize.Forms
import Mathlib.Data.List.Perm.Subperm

/-!
The minimizer preserves satisfiability exactly.

* `Live st` is the set of assignments of the rows alive in a state. `Inv` is what every round
  keeps: the index covers every occurrence in a live row, no live row mentions an eliminated
  variable, every eliminated variable is internal, and the original set of assignments reduces
  (`Elimination.Reduces`) to the live one by the definitions made so far.
* `eliminate_cons`: under coverage, eliminating `v` retires row `i` and replaces `v` in every
  other row, whatever stale entries the index holds. With it, `Inv.process` is the step and
  `Inv.loop` the run.
* `loop_queue`: the loop ends by emptying its queue, within the rounds `run` allows.
* `minimize_satisfiability` is the result for `minimize_with_fill`.
-/

namespace XarkCircuit.Minimize

open Elimination

variable {F : Type*} [Field F] [DecidableEq F]

/-- The assignments under which every live row holds. -/
def Live (st : State F) : Set (VarId → F) := {x | ∀ j c, st.row? j = some c → c.Sat x}

/-- The definition that an elimination `v := vlc` makes. -/
def asDef (v : VarId) (vlc : Lc F) : Def VarId F := (v, vlc.eval)

/-- The invariant of the worklist loop, `S` the assignments of the original rows. -/
structure Inv (isInternal : VarId → Bool) (names : List VarId) (S : Set (VarId → F))
    (st : State F) : Prop where
  covered : ∀ j c, st.row? j = some c → ∀ v ∈ c.vars, j ∈ st.occ v
  gone : ∀ j c, st.row? j = some c → ∀ v ∈ c.vars, v ∉ st.eliminated
  internal : ∀ v ∈ st.eliminated, isInternal v
  known : ∀ j c, st.row? j = some c → ∀ v ∈ c.vars, v ∈ names
  eliminated : ∀ v ∈ st.eliminated, v ∈ names
  reduces : ∃ ds, vars ds = st.eliminated ∧ Reduces S ds (Live st)

/-! ### Reading the state -/

omit [DecidableEq F] in
lemma row?_set (cons : List (Option (Row F))) (i j : ℕ) (o : Option (Row F)) :
    ((cons.set i o)[j]?).join = if i = j then (if i < cons.length then o else none)
      else (cons[j]?).join := by
  rw [List.getElem?_set]
  split_ifs <;> rfl

omit [DecidableEq F] in
lemma lt_of_row? {cons : List (Option (Row F))} {j : ℕ} {c : Row F}
    (h : (cons[j]?).join = some c) : j < cons.length := by
  by_contra hlt
  rw [List.getElem?_eq_none (not_lt.mp hlt)] at h
  simp at h

omit [DecidableEq F] in
/-- A form whose value ignores the variables it does not mention. -/
lemma Lc.ignores {l : Lc F} {v : VarId} (h : v ∉ l.t.vars) : Ignores l.eval v := fun _ _ =>
  l.eval_congr fun _ hu => Function.update_of_ne (by rintro rfl; exact h hu) _ _

omit [DecidableEq F] in
/-- The live set reads no variable that no live row mentions. -/
lemma Live.ignores {st : State F} {v : VarId}
    (h : ∀ j c, st.row? j = some c → v ∉ c.vars) : Ignores (· ∈ Live st) v := by
  refine fun x a => propext (forall_congr' fun j => forall_congr' fun c =>
    forall_congr' fun hc => c.sat_congr fun u hu => ?_)
  exact Function.update_of_ne (by rintro rfl; exact h j c hc hu) _ _

/-! ### Coverage: what elimination does to the rows -/

omit [DecidableEq F] in
/-- Writing values that depend on the index only: each listed index has its value, and the other
rows are as they were. -/
lemma getElem?_foldl_set (g : ℕ → Row F) (ch : List (ℕ × Row F × List VarId))
    (hch : ∀ c ∈ ch, c.2.1 = g c.1) (cons : List (Option (Row F))) (j : ℕ) :
    ((ch.foldl (fun cons c => cons.set c.1 (some c.2.1)) cons)[j]?).join
      = if j ∈ ch.map Prod.fst ∧ j < cons.length then some (g j) else (cons[j]?).join := by
  induction ch generalizing cons with
  | nil => simp
  | cons c ch ih =>
      rw [List.foldl_cons, ih (fun d hd => hch d (List.mem_cons_of_mem _ hd)), List.length_set,
        row?_set, hch c List.mem_cons_self, List.map_cons]
      by_cases hj : c.1 = j
      · subst hj
        by_cases hlt : c.1 < cons.length
        · simp [hlt]
        · simp [hlt]
      · have hmem : j ∈ c.1 :: ch.map Prod.fst ↔ j ∈ ch.map Prod.fst := by
          rw [List.mem_cons, or_iff_right (Ne.symm hj)]
        rw [if_neg hj]
        simp only [hmem]

omit [DecidableEq F] in
lemma noteChanged_cons (st : State F) (j : ℕ) (us : List VarId) :
    (noteChanged st j us).cons = st.cons := by
  unfold noteChanged; split <;> rfl

omit [DecidableEq F] in
lemma noteChanged_eliminated (st : State F) (j : ℕ) (us : List VarId) :
    (noteChanged st j us).eliminated = st.eliminated := by
  unfold noteChanged; split <;> rfl

omit [DecidableEq F] in
lemma mem_addOcc {us : List VarId} {j k : ℕ} {occ : VarId → List ℕ} {u : VarId} :
    k ∈ us.foldl (fun occ u => Function.update occ u (occ u ++ [j])) occ u ↔
      k ∈ occ u ∨ k = j ∧ u ∈ us := by
  induction us generalizing occ with
  | nil => simp
  | cons w us ih =>
      rw [List.foldl_cons, ih]
      by_cases h : u = w
      · subst h
        simp only [Function.update_self, List.mem_append, List.mem_cons, true_or, and_true]
        tauto
      · rw [Function.update_of_ne h, List.mem_cons]
        tauto

omit [DecidableEq F] in
/-- The index only grows, and learns every variable that a changed row has anew. -/
lemma mem_occ_foldl_noteChanged {ch : List (ℕ × Row F × List VarId)} {st : State F} {k : ℕ}
    {u : VarId} : k ∈ (ch.foldl (fun st c => noteChanged st c.1 c.2.2) st).occ u ↔
      k ∈ st.occ u ∨ ∃ c ∈ ch, c.1 = k ∧ u ∈ c.2.2 := by
  induction ch generalizing st with
  | nil => simp
  | cons c ch ih =>
      have hocc : (noteChanged st c.1 c.2.2).occ
          = c.2.2.foldl (fun occ u => Function.update occ u (occ u ++ [c.1])) st.occ := by
        unfold noteChanged; split <;> rfl
      rw [List.foldl_cons, ih, hocc, mem_addOcc]
      simp only [List.mem_cons, exists_eq_or_imp, or_assoc]
      constructor
      · rintro (h | ⟨rfl, h⟩ | h)
        exacts [.inl h, .inr (.inl ⟨rfl, h⟩), .inr (.inr h)]
      · rintro (h | ⟨rfl, h⟩ | h)
        exacts [.inl h, .inr (.inl ⟨rfl, h⟩), .inr (.inr h)]

omit [DecidableEq F] in
lemma foldl_noteChanged_cons (ch : List (ℕ × Row F × List VarId)) (st : State F) :
    (ch.foldl (fun st c => noteChanged st c.1 c.2.2) st).cons = st.cons := by
  induction ch generalizing st with
  | nil => rfl
  | cons c ch ih => rw [List.foldl_cons, ih, noteChanged_cons]

omit [DecidableEq F] in
lemma foldl_noteChanged_eliminated (ch : List (ℕ × Row F × List VarId)) (st : State F) :
    (ch.foldl (fun st c => noteChanged st c.1 c.2.2) st).eliminated = st.eliminated := by
  induction ch generalizing st with
  | nil => rfl
  | cons c ch ih => rw [List.foldl_cons, ih, noteChanged_eliminated]

omit [DecidableEq F] in
lemma mem_sites {st : State F} {v : VarId} {j : ℕ} : j ∈ sites st v ↔ j ∈ st.occ v := by
  rw [sites, List.mem_dedup, (List.perm_insertionSort (· ≤ ·) (st.occ v)).mem_iff]

/-- The changed sites are the listed live rows that mention `v`, with `v` replaced. -/
lemma mem_changedSites {cons : List (Option (Row F))} {js : List ℕ} {v : VarId} {vlc : Lc F}
    {c : ℕ × Row F × List VarId} : c ∈ changedSites cons js v vlc ↔
      c.1 ∈ js ∧ ∃ r, (cons[c.1]?).join = some r ∧ v ∈ r.vars ∧
        c.2 = (substRow v vlc r, newRowVars v vlc r) := by
  simp only [changedSites, List.mem_filterMap, Option.bind_eq_some_iff, Option.map_eq_some_iff]
  constructor
  · rintro ⟨j, hj, r, hr, o, ho, rfl⟩
    have hv : v ∈ r.vars := by
      by_contra hn
      rw [substSite_eq_none.mpr hn] at ho
      simp at ho
    rw [substSite_eq_some hv, Option.some.injEq] at ho
    exact ⟨hj, r, hr, hv, ho.symm⟩
  · rintro ⟨hj, r, hr, hv, hc⟩
    exact ⟨c.1, hj, r, hr, c.2, by rw [substSite_eq_some hv, hc], rfl⟩

/-- **Elimination reaches every occurrence**: under coverage, row `i` is retired and every other
live row has `v` replaced. -/
lemma eliminate_row? {st : State F} (i : ℕ) {v : VarId} (vlc : Lc F)
    (hcov : ∀ j c, st.row? j = some c → v ∈ c.vars → j ∈ st.occ v) (j : ℕ) :
    (eliminate st i v vlc).row? j
      = if i = j then none else (st.row? j).map (substRow v vlc) := by
  -- the rows once `i` is retired
  set cons := st.cons.set i none with hcons
  have hset : ∀ k, (cons[k]?).join = if i = k then none else st.row? k := by
    intro k
    rw [hcons, row?_set]
    split_ifs <;> rfl
  have hrow : (eliminate st i v vlc).row? j
      = (((changedSites cons (sites st v) v vlc).foldl
          (fun cons c => cons.set c.1 (some c.2.1)) cons)[j]?).join := by
    rw [State.row?, eliminate, foldl_noteChanged_cons]
  let g : ℕ → Row F := fun k => ((cons[k]?).join.map (substRow v vlc)).getD
    ⟨⟨0, .empty⟩, ⟨0, .empty⟩, ⟨0, .empty⟩⟩
  have hg : ∀ c ∈ changedSites cons (sites st v) v vlc, c.2.1 = g c.1 := by
    intro c hc
    obtain ⟨-, r, hr, -, hcr⟩ := mem_changedSites.mp hc
    simp only [g, hr, hcr, Option.map_some, Option.getD_some]
  rw [hrow, getElem?_foldl_set g _ hg]
  by_cases hij : i = j
  · have hnone : (cons[j]?).join = none := by rw [hset, if_pos hij]
    have hnot : j ∉ (changedSites cons (sites st v) v vlc).map Prod.fst := by
      rw [List.mem_map]
      rintro ⟨c, hc, rfl⟩
      obtain ⟨-, r, hr, -⟩ := mem_changedSites.mp hc
      rw [hnone] at hr
      simp at hr
    rw [if_pos hij, if_neg (fun h => hnot h.1), hnone]
  · rw [if_neg hij]
    have hj : (cons[j]?).join = st.row? j := by rw [hset, if_neg hij]
    cases hr : st.row? j with
    | none =>
        have hnot : j ∉ (changedSites cons (sites st v) v vlc).map Prod.fst := by
          rw [List.mem_map]
          rintro ⟨c, hc, rfl⟩
          obtain ⟨-, r, hr', -⟩ := mem_changedSites.mp hc
          rw [hj, hr] at hr'
          simp at hr'
        rw [if_neg (fun h => hnot h.1), hj, hr, Option.map_none]
    | some r =>
        rw [hr] at hj
        by_cases hv : v ∈ r.vars
        · have hmem : j ∈ (changedSites cons (sites st v) v vlc).map Prod.fst :=
            List.mem_map.mpr ⟨(j, substRow v vlc r, newRowVars v vlc r),
              mem_changedSites.mpr ⟨mem_sites.mpr (hcov j r hr hv), r, hj, hv, rfl⟩, rfl⟩
          rw [if_pos ⟨hmem, lt_of_row? hj⟩, Option.map_some]
          simp only [g, hj, Option.map_some, Option.getD_some]
        · have hnot : j ∉ (changedSites cons (sites st v) v vlc).map Prod.fst := by
            rw [List.mem_map]
            rintro ⟨c, hc, rfl⟩
            obtain ⟨-, r', hr', hv', -⟩ := mem_changedSites.mp hc
            rw [hj, Option.some.injEq] at hr'
            exact hv (hr' ▸ hv')
          rw [if_neg (fun h => hnot h.1), hj, Option.map_some, substRow_of_notMem hv]

lemma eliminate_eliminated (st : State F) (i : ℕ) (v : VarId) (vlc : Lc F) :
    (eliminate st i v vlc).eliminated = v :: st.eliminated := by
  rw [eliminate, foldl_noteChanged_eliminated]

/-- The index after an elimination: what it held for another variable, and the rows that have
gained the variable. -/
lemma mem_eliminate_occ {st : State F} {i j : ℕ} {v u : VarId} {vlc : Lc F} (hu : u ≠ v)
    (h : j ∈ st.occ u ∨ ∃ r, st.row? j = some r ∧ i ≠ j ∧ j ∈ st.occ v ∧ v ∈ r.vars ∧
      u ∈ newRowVars v vlc r) : j ∈ (eliminate st i v vlc).occ u := by
  have hold : Function.update st.occ v [] u = st.occ u := Function.update_of_ne hu _ _
  rw [eliminate, mem_occ_foldl_noteChanged]
  dsimp only
  rw [hold]
  rcases h with h | ⟨r, hr, hij, hocc, hv, hnew⟩
  · exact Or.inl h
  · refine Or.inr ⟨(j, substRow v vlc r, newRowVars v vlc r), mem_changedSites.mpr
      ⟨mem_sites.mpr hocc, r, ?_, hv, rfl⟩, rfl, hnew⟩
    rw [row?_set, if_neg hij]
    exact hr

/-! ### The invariant -/

namespace Inv

variable {isInternal : VarId → Bool} {names : List VarId} {S : Set (VarId → F)} {st : State F}

omit [DecidableEq F] in
/-- The queue plays no part in the invariant. -/
lemma of_queue (h : Inv isInternal names S st) (queue : List ℕ) (inQueue : ℕ → Bool) :
    Inv isInternal names S { st with queue := queue, inQueue := inQueue } :=
  ⟨h.covered, h.gone, h.internal, h.known, h.eliminated, h.reduces⟩

omit [DecidableEq F] in
/-- Dropping a row that holds everywhere. -/
lemma drop (h : Inv isInternal names S st) {i : ℕ} {c : Row F} (hc : st.row? i = some c)
    (htriv : ∀ x, c.Sat x) :
    Inv isInternal names S { st with cons := st.cons.set i none } := by
  have hrow : ∀ j d, ({ st with cons := st.cons.set i none } : State F).row? j = some d →
      st.row? j = some d := by
    intro j d hd
    rw [State.row?, row?_set] at hd
    split_ifs at hd
    · exact hd
  obtain ⟨ds, hds, hred⟩ := h.reduces
  refine ⟨fun j d hd => h.covered j d (hrow j d hd), fun j d hd => h.gone j d (hrow j d hd),
    h.internal, fun j d hd => h.known j d (hrow j d hd), h.eliminated, ds, hds,
    hred.congr fun x => ⟨fun hx j d hd => ?_, fun hx j d hd => hx j d (hrow j d hd)⟩⟩
  by_cases hij : i = j
  · subst hij
    rw [hc, Option.some.injEq] at hd
    exact hd ▸ htriv x
  · refine hx j d ?_
    rw [State.row?, row?_set, if_neg hij]
    exact hd

/-- Eliminating an internal variable by the row that defines it. -/
lemma eliminate (h : Inv isInternal names S st) {i : ℕ} {c : Row F} {rel : Lc F} {v : VarId}
    {m : F} (hc : st.row? i = some c) (hrel : relation c = some rel) (hm : rel.t.get? v = some m)
    (hint : isInternal v) :
    Inv isInternal names S (Minimize.eliminate st i v (replacement rel v m)) := by
  set vlc := replacement rel v m with hvlc
  have hvc : v ∈ c.vars := mem_vars_relation hrel
    (SparseForm.mem_vars.mpr ⟨_, SparseForm.get?_eq_some.mp hm, rfl⟩)
  -- the replacement reads the other variables of row `i`
  have hreads : ∀ u ∈ vlc.t.vars, u ∈ c.vars ∧ u ≠ v := fun u hu =>
    ⟨mem_vars_relation hrel (mem_vars_replacement hu).1, (mem_vars_replacement hu).2⟩
  have hvv : v ∉ vlc.t.vars := fun hv => (hreads v hv).2 rfl
  have hrow := eliminate_row? i vlc fun j d hd => h.covered j d hd v
  -- a live row after the step is a live row before it with `v` replaced
  have hback : ∀ j d, (Minimize.eliminate st i v vlc).row? j = some d →
      ∃ r, st.row? j = some r ∧ i ≠ j ∧ d = substRow v vlc r := by
    intro j d hd
    rw [hrow] at hd
    split_ifs at hd with hij
    obtain ⟨r, hr, rfl⟩ := Option.map_eq_some_iff.mp hd
    exact ⟨r, hr, hij, rfl⟩
  have hvars : ∀ j d, (Minimize.eliminate st i v vlc).row? j = some d → ∀ u ∈ d.vars,
      u ≠ v ∧ u ∉ st.eliminated ∧ u ∈ names := by
    intro j d hd u hu
    obtain ⟨r, hr, -, rfl⟩ := hback j d hd
    obtain ⟨hne, hur | ⟨huv, -⟩⟩ := mem_vars_substRow hvv hu
    · exact ⟨hne, h.gone j r hr u hur, h.known j r hr u hur⟩
    · exact ⟨hne, h.gone i c hc u (hreads u huv).1, h.known i c hc u (hreads u huv).1⟩
  have hvnew : v ∉ st.eliminated := h.gone i c hc v hvc
  refine ⟨fun j d hd u hu => ?_, fun j d hd u hu => ?_, ?_,
    fun j d hd u hu => (hvars j d hd u hu).2.2, ?_, ?_⟩
  · obtain ⟨r, hr, hij, rfl⟩ := hback j d hd
    refine mem_eliminate_occ (hvars j _ hd u hu).1 ?_
    obtain ⟨-, hur | ⟨-, hun⟩⟩ := mem_vars_substRow hvv hu
    · exact .inl (h.covered j r hr u hur)
    · by_cases hv : v ∈ r.vars
      · exact .inr ⟨r, hr, hij, h.covered j r hr v hv, hv, hun⟩
      · rw [substRow_of_notMem hv] at hu
        exact .inl (h.covered j r hr u hu)
  · rw [eliminate_eliminated]
    obtain ⟨hne, hgone, -⟩ := hvars j d hd u hu
    exact fun hm => (List.mem_cons.mp hm).elim hne hgone
  · rw [eliminate_eliminated]
    exact fun u hu => (List.mem_cons.mp hu).elim (fun e => e ▸ hint) (h.internal u)
  · rw [eliminate_eliminated]
    exact fun u hu => (List.mem_cons.mp hu).elim (fun e => e ▸ h.known i c hc v hvc)
      (h.eliminated u)
  · obtain ⟨ds, hds, hred⟩ := h.reduces
    refine ⟨asDef v vlc :: ds, by rw [eliminate_eliminated, vars_cons, hds]; rfl,
      hred.push (hds ▸ hvnew) ?_ (fun x => ?_) ?_⟩
    · intro u hu
      refine Lc.ignores fun hmem => ?_
      rcases List.mem_cons.mp hu with rfl | hu
      · exact hvv hmem
      · exact h.gone i c hc u (hreads u hmem).1 (hds ▸ hu)
    · have hdef : c.Sat x ↔ x v = vlc.eval x :=
        (relation_sat hrel x).trans (replacement_eval hm x)
      constructor
      · intro hx
        have hxv := hdef.mp (hx i c hc)
        refine ⟨fun j d hd => ?_, hxv⟩
        obtain ⟨r, hr, -, rfl⟩ := hback j d hd
        exact (substRow_sat r hxv).mpr (hx j r hr)
      · rintro ⟨hx, hxv⟩ j r hr
        by_cases hij : i = j
        · subst hij
          rw [hc, Option.some.injEq] at hr
          exact hr ▸ hdef.mpr hxv
        · refine (substRow_sat r hxv).mp (hx j _ ?_)
          rw [hrow, if_neg hij, hr, Option.map_some]
    · intro u hu
      refine Live.ignores fun j d hd hmem => ?_
      obtain ⟨hne, hgone, -⟩ := hvars j d hd u hmem
      rw [hds] at hu
      exact (List.mem_cons.mp hu).elim hne hgone

/-- **The step**: one round of the loop keeps the invariant. -/
lemma process (h : Inv isInternal names S st) (fill i : ℕ) :
    Inv isInternal names S (process isInternal fill st i) := by
  unfold Minimize.process
  split
  · exact h
  · next c hc =>
    split
    · exact h
    · next rel hrel =>
      split_ifs with hnil hk
      · refine h.drop hc fun x => ?_
        rw [relation_sat hrel, Lc.eval, SparseForm.eval_of_vars_eq_nil hnil, hk, add_zero]
      · exact h
      · split
        · exact h
        · next v m hfind =>
          split_ifs
          · exact h
          · exact h.eliminate hc hrel
              (SparseForm.get?_eq_some.mpr (List.mem_of_find?_eq_some hfind))
              (by simpa using List.find?_some hfind)

/-- **The run**: the loop keeps the invariant, however many rounds it makes. -/
lemma loop (h : Inv isInternal names S st) (fill fuel : ℕ) :
    Inv isInternal names S (loop isInternal fill fuel st) := by
  induction fuel generalizing st with
  | zero => exact h
  | succ fuel ih =>
      rw [Minimize.loop]
      split
      · exact h
      · exact ih ((h.of_queue _ _).process fill _)

end Inv

/-! ### The loop ends -/

/-- The rows of a state that are alive. -/
def liveRows (st : State F) : Finset ℕ :=
  (Finset.range st.cons.length).filter fun j => (st.row? j).isSome

/-- What is left to do: a retired row may put every row back into the queue. -/
def work (st : State F) : ℕ := (liveRows st).card * (st.cons.length + 1) + st.queue.length

omit [DecidableEq F] in
lemma mem_liveRows {st : State F} {j : ℕ} : j ∈ liveRows st ↔ (st.row? j).isSome := by
  rw [liveRows, Finset.mem_filter, Finset.mem_range, and_iff_right_iff_imp]
  intro h
  obtain ⟨c, hc⟩ := Option.isSome_iff_exists.mp h
  exact lt_of_row? hc

omit [DecidableEq F] in
lemma length_foldl_set (ch : List (ℕ × Row F × List VarId)) (cons : List (Option (Row F))) :
    (ch.foldl (fun cons c => cons.set c.1 (some c.2.1)) cons).length = cons.length := by
  induction ch generalizing cons with
  | nil => rfl
  | cons c ch ih => rw [List.foldl_cons, ih, List.length_set]

lemma length_eliminate (st : State F) (i : ℕ) (v : VarId) (vlc : Lc F) :
    (eliminate st i v vlc).cons.length = st.cons.length := by
  rw [eliminate, foldl_noteChanged_cons]
  dsimp only
  rw [length_foldl_set, List.length_set]

omit [DecidableEq F] in
lemma length_queue_foldl_noteChanged (ch : List (ℕ × Row F × List VarId)) (st : State F) :
    (ch.foldl (fun st c => noteChanged st c.1 c.2.2) st).queue.length
      ≤ st.queue.length + ch.length := by
  induction ch generalizing st with
  | nil => exact le_rfl
  | cons c ch ih =>
      have hstep : (noteChanged st c.1 c.2.2).queue.length ≤ st.queue.length + 1 := by
        unfold noteChanged
        split
        · exact Nat.le_succ _
        · exact (List.length_append).le
      have hrest := ih (noteChanged st c.1 c.2.2)
      rw [List.foldl_cons, List.length_cons]
      omega

/-- A row is changed once at most. -/
lemma length_changedSites_le (cons : List (Option (Row F))) {js : List ℕ} (hjs : js.Nodup)
    (v : VarId) (vlc : Lc F) : (changedSites cons js v vlc).length ≤ cons.length := by
  have hnodup : ((changedSites cons js v vlc).map Prod.fst).Nodup := by
    rw [changedSites, List.map_filterMap]
    refine hjs.filterMap fun j k m hj hk => ?_
    have hfst : ∀ {j}, m ∈ ((cons[j]?).join.bind fun cj =>
        (substSite cj v vlc).map fun r => (j, r)).map Prod.fst → m = j := by
      intro j hm
      obtain ⟨c, hc, rfl⟩ := Option.mem_map.mp hm
      obtain ⟨r, -, hr⟩ := Option.bind_eq_some_iff.mp hc
      obtain ⟨o, -, rfl⟩ := Option.map_eq_some_iff.mp hr
      rfl
    exact (hfst hj).symm.trans (hfst hk)
  have hsub : ((changedSites cons js v vlc).map Prod.fst).toFinset ⊆ Finset.range cons.length := by
    intro j hj
    obtain ⟨c, hc, rfl⟩ := List.mem_map.mp (List.mem_toFinset.mp hj)
    obtain ⟨-, r, hr, -⟩ := mem_changedSites.mp hc
    exact Finset.mem_range.mpr (lt_of_row? hr)
  have hcard := Finset.card_le_card hsub
  rwa [List.toFinset_card_of_nodup hnodup, List.length_map, Finset.card_range] at hcard

namespace Inv

variable {isInternal : VarId → Bool} {names : List VarId} {S : Set (VarId → F)} {st : State F}

/-- An elimination pays for the rows it puts back with the row it retires. -/
lemma work_eliminate (h : Inv isInternal names S st) {i : ℕ} {c : Row F}
    (hc : st.row? i = some c) (v : VarId) (vlc : Lc F) :
    work (Minimize.eliminate st i v vlc) < work st := by
  have hrow := eliminate_row? i vlc fun j d hd => h.covered j d hd v
  have hlive : liveRows (Minimize.eliminate st i v vlc) ⊂ liveRows st := by
    refine Finset.ssubset_iff_subset_ne.mpr ⟨fun j hj => ?_, fun he => ?_⟩
    · rw [mem_liveRows, hrow] at hj
      rw [mem_liveRows]
      split_ifs at hj
      · simp at hj
      · simpa using hj
    · have hi : i ∈ liveRows (Minimize.eliminate st i v vlc) := by
        rw [he, mem_liveRows, hc]
        rfl
      rw [mem_liveRows, hrow, if_pos rfl] at hi
      simp at hi
  have hcard := Finset.card_lt_card hlive
  have hqueue : (Minimize.eliminate st i v vlc).queue.length
      ≤ st.queue.length + st.cons.length := by
    refine (length_queue_foldl_noteChanged _ _).trans (Nat.add_le_add_left ?_ _)
    exact (length_changedSites_le _ (List.nodup_dedup _) _ _).trans List.length_set.le
  rw [work, work, length_eliminate]
  have hmul := Nat.mul_le_mul_right (st.cons.length + 1) hcard
  rw [Nat.succ_mul] at hmul
  omega

/-- A round never leaves more work than it finds. -/
lemma work_process (h : Inv isInternal names S st) (fill i : ℕ) :
    work (Minimize.process isInternal fill st i) ≤ work st := by
  unfold Minimize.process
  split
  · exact le_rfl
  · next c hc =>
    split
    · exact le_rfl
    · next rel hrel =>
      split_ifs
      · -- a dropped row leaves the queue as it is
        have hsub : liveRows { st with cons := st.cons.set i none } ⊆ liveRows st := by
          intro j hj
          rw [mem_liveRows, State.row?, row?_set] at hj
          rw [mem_liveRows]
          split_ifs at hj
          · simp at hj
          · simp at hj
          · exact hj
        rw [work, work, List.length_set]
        exact Nat.add_le_add_right (Nat.mul_le_mul_right _ (Finset.card_le_card hsub)) _
      · exact le_rfl
      · split
        · exact le_rfl
        · split_ifs
          · exact le_rfl
          · exact (h.work_eliminate hc _ _).le

/-- **The loop ends by emptying its queue** when it may make as many rounds as there is work. -/
lemma loop_queue (h : Inv isInternal names S st) (fill : ℕ) {fuel : ℕ} (hf : work st ≤ fuel) :
    (Minimize.loop isInternal fill fuel st).queue = [] := by
  induction fuel generalizing st with
  | zero =>
      have hlen : st.queue.length = 0 := by
        have : st.queue.length ≤ work st := Nat.le_add_left _ _
        omega
      exact List.length_eq_zero_iff.mp hlen
  | succ fuel ih =>
      rw [Minimize.loop]
      split
      · assumption
      · next i queue hq =>
        have hpop := h.of_queue queue (Function.update st.inQueue i false)
        refine ih (hpop.process fill i) ((hpop.work_process fill i).trans ?_)
        have hwork : work { st with queue := queue, inQueue := Function.update st.inQueue i false }
            + 1 = work st := by
          rw [work, work, hq, List.length_cons]
          rfl
        omega

end Inv

/-! ### From the program to the program -/

section Program

variable (p : ℕ) [Fact p.Prime]

/-- The invariant holds where the loop starts. -/
lemma inv_start (prog : R1csProgram) : Inv (isInternal prog) prog.rowVars
    {x : VarId → ZMod p | prog.Sat x} (start (prog.constraints.map Row.ofIr)) := by
  have hrow : ∀ j c, (start (prog.constraints.map (Row.ofIr (F := ZMod p)))).row? j = some c ↔
      ∃ k, prog.constraints[j]? = some k ∧ Row.ofIr k = c := by
    intro j c
    simp only [State.row?, start, List.getElem?_map, Option.join_eq_some_iff,
      Option.map_eq_some_iff]
    constructor
    · rintro ⟨r, ⟨k, hk, rfl⟩, hr⟩
      exact ⟨k, hk, Option.some.inj hr⟩
    · rintro ⟨k, hk, rfl⟩
      exact ⟨_, ⟨k, hk, rfl⟩, rfl⟩
  refine ⟨fun j c hc v hv => ?_, fun _ _ _ _ _ => List.not_mem_nil,
    fun v hv => absurd hv List.not_mem_nil, fun j c hc v hv => ?_,
    fun v hv => absurd hv List.not_mem_nil, [], rfl, (Reduces.refl _).congr fun x => ?_⟩
  · have hjc : (prog.constraints.map Row.ofIr)[j]? = some c := by
      obtain ⟨k, hk, rfl⟩ := (hrow j c).mp hc
      rw [List.getElem?_map, hk, Option.map_some]
    refine List.mem_flatMap.mpr ⟨(c, j), List.mem_zipIdx_iff_getElem?.mpr hjc, ?_⟩
    simp only [List.mem_map, List.mem_filter, List.mem_cons, List.not_mem_nil, or_false]
    rcases Row.mem_vars.mp hv with h | h | h
    exacts [⟨c.a, ⟨.inl rfl, by simpa using h⟩, trivial⟩,
      ⟨c.b, ⟨.inr (.inl rfl), by simpa using h⟩, trivial⟩,
      ⟨c.c, ⟨.inr (.inr rfl), by simpa using h⟩, trivial⟩]
  · obtain ⟨k, hk, rfl⟩ := (hrow j c).mp hc
    exact List.mem_flatMap.mpr ⟨k, List.mem_of_getElem? hk, Row.mem_vars_ofIr hv⟩
  · constructor
    · intro hx k hk
      obtain ⟨j, hj⟩ := List.mem_iff_getElem?.mp hk
      exact (Row.sat_ofIr k x).mp (hx j _ ((hrow j _).mpr ⟨k, hj, rfl⟩))
    · intro hx j c hc
      obtain ⟨k, hk, rfl⟩ := (hrow j c).mp hc
      exact (Row.sat_ofIr k x).mpr (hx k (List.mem_of_getElem? hk))

lemma work_start (prog : R1csProgram) :
    work (start (F := ZMod p) (prog.constraints.map Row.ofIr))
      ≤ rounds prog.constraints.length := by
  have hlen : (start (F := ZMod p) (prog.constraints.map Row.ofIr)).cons.length
      = prog.constraints.length := by simp [start]
  have hqueue : (start (F := ZMod p) (prog.constraints.map Row.ofIr)).queue.length
      = prog.constraints.length := by simp [start]
  have hcard : (liveRows (start (F := ZMod p) (prog.constraints.map Row.ofIr))).card
      ≤ prog.constraints.length := by
    rw [liveRows, hlen]
    exact (Finset.card_filter_le _ _).trans (Finset.card_range _).le
  rw [work, rounds, hlen, hqueue]
  exact Nat.add_le_add_right (Nat.mul_le_mul_right _ hcard) _

/-- The invariant where the loop ends. -/
lemma inv_final (prog : R1csProgram) (fill : ℕ) : Inv (isInternal prog) prog.rowVars
    {x : VarId → ZMod p | prog.Sat x} (final p prog fill) :=
  (inv_start p prog).loop fill _

/-- The pass ends with an empty queue. -/
theorem final_queue (prog : R1csProgram) (fill : ℕ) : (final p prog fill).queue = [] :=
  (inv_start p prog).loop_queue fill (work_start p prog)

/-- The rows of the result hold exactly where the surviving rows do. -/
lemma run_sat (prog : R1csProgram) (fill : ℕ) (x : VarId → ZMod p) :
    (run p prog fill).Sat x ↔ x ∈ Live (final p prog fill) := by
  have hmem : ∀ c, c ∈ survivors p prog fill ↔ ∃ j, (final p prog fill).row? j = some c := by
    intro c
    simp only [survivors, List.mem_filterMap, id, State.row?, Option.join_eq_some_iff]
    constructor
    · rintro ⟨o, ho, rfl⟩
      exact List.mem_iff_getElem?.mp ho
    · rintro ⟨j, hj⟩
      exact ⟨some c, List.mem_iff_getElem?.mpr ⟨j, hj⟩, rfl⟩
  have hsat : (run p prog fill).Sat x ↔ ∀ c ∈ survivors p prog fill, c.Sat x := by
    simp only [R1csProgram.Sat, run, List.forall_mem_map, Row.sat_toIr]
    constructor
    · intro h c hc
      obtain ⟨j, hj⟩ := List.mem_iff_getElem?.mp hc
      exact h (c, j) (List.mem_zipIdx_iff_getElem?.mpr hj)
    · intro h r hr
      exact h r.1 (List.mem_of_getElem? (List.mem_zipIdx_iff_getElem?.mp hr))
  rw [hsat]
  constructor
  · exact fun h j c hc => h c ((hmem c).mpr ⟨j, hc⟩)
  · intro h c hc
    obtain ⟨j, hj⟩ := (hmem c).mp hc
    exact h j c hj

/-- The rows of the result mention variables of the program's rows that were not eliminated. -/
lemma mem_rowVars_run {prog : R1csProgram} {fill : ℕ} {v : VarId}
    (h : v ∈ (run p prog fill).rowVars) : v ∈ prog.rowVars ∧ v ∉ eliminated p prog fill := by
  obtain ⟨k, hk, hv⟩ := List.mem_flatMap.mp h
  obtain ⟨r, hr, rfl⟩ := List.mem_map.mp hk
  rw [Row.vars_toIr] at hv
  have hmem := List.mem_of_getElem? (List.mem_zipIdx_iff_getElem?.mp hr)
  obtain ⟨o, ho, ho'⟩ := List.mem_filterMap.mp hmem
  obtain ⟨j, hj⟩ := List.mem_iff_getElem?.mp ho
  have hrow : (final p prog fill).row? j = some r.1 := by
    rw [State.row?, hj]
    exact ho'
  exact ⟨(inv_final p prog fill).known j _ hrow v hv, (inv_final p prog fill).gone j _ hrow v hv⟩

/-- **The pass reduces the program**: its assignments are those of the result that satisfy the
definitions of the eliminated variables, all internal variables of the program's rows. -/
theorem run_reduces (prog : R1csProgram) (fill : ℕ) :
    (∃ ds, vars ds = eliminated p prog fill ∧
      Reduces {x : VarId → ZMod p | prog.Sat x} ds {x | (run p prog fill).Sat x}) ∧
    ∀ v ∈ eliminated p prog fill, isInternal prog v ∧ v ∈ prog.rowVars := by
  have h := inv_final p prog fill
  obtain ⟨ds, hds, hred⟩ := h.reduces
  exact ⟨⟨ds, hds, hred.congr (run_sat p prog fill)⟩,
    fun v hv => ⟨h.internal v hv, h.eliminated v hv⟩⟩

lemma minimizeWithFill_eq {prog : R1csProgram} (hmod : prog.field.modulus = some p) (fill : ℕ) :
    minimizeWithFill p prog fill = run p prog fill := by rw [minimizeWithFill, hmod]

/-- A variable declared once has one visibility. -/
lemma not_isInternal {prog : R1csProgram} (hids : (prog.vars.map Variable.id).Nodup)
    {w : Variable} (hw : w ∈ prog.vars) (hvis : w.visibility ≠ .internal) :
    isInternal prog w.id = false := by
  rw [isInternal, List.any_eq_false]
  intro u hu hc
  simp only [Bool.and_eq_true, decide_eq_true_eq] at hc
  exact hvis (List.inj_on_of_nodup_map hids hu hw hc.1 ▸ hc.2)

/-- **Minimization preserves satisfiability exactly.** For a program over the prime `p` that
declares each variable once, and any fill bound: public and private variables are kept, every
assignment of the program satisfies the result, and every assignment of the result has exactly
one extension to the eliminated variables that satisfies the program. -/
theorem minimize_satisfiability (prog : R1csProgram) (fill : ℕ)
    (hmod : prog.field.modulus = some p) (hids : (prog.vars.map Variable.id).Nodup) :
    (∀ w ∈ prog.vars, w.visibility ≠ .internal →
      w ∈ (minimizeWithFill p prog fill).vars ∧ w.id ∉ eliminated p prog fill) ∧
    (∀ x : VarId → ZMod p, prog.Sat x → (minimizeWithFill p prog fill).Sat x) ∧
    ∀ x : VarId → ZMod p, (minimizeWithFill p prog fill).Sat x →
      ∃! y : VarId → ZMod p, (∀ v, v ∉ eliminated p prog fill → y v = x v) ∧ prog.Sat y := by
  obtain ⟨⟨ds, hds, hred⟩, helim⟩ := run_reduces p prog fill
  rw [minimizeWithFill_eq p hmod]
  refine ⟨fun w hw hvis => ?_, fun x hx => hred.sound hx, fun x hx => ?_⟩
  · have hkept : w.id ∉ eliminated p prog fill := fun hm => by
      have hint := (helim w.id hm).1
      rw [not_isInternal hids hw hvis] at hint
      exact Bool.false_ne_true hint
    refine ⟨?_, hkept⟩
    simp only [run, List.mem_filter, hw, hkept, hvis, not_false_eq_true, decide_true, ne_eq,
      Bool.true_or, and_self]
  · rw [← hds]
    exact hred.existsUnique_extension hx

end Program

/-- Two rows over the field of seven elements: `x · x = t` and `(t + 1) · 1 = y` with `x` public,
`y` private and `t` internal. -/
def squarePlusOne : R1csProgram where
  field := ⟨"seven", some "7"⟩
  vars := [⟨0, "x", .public⟩, ⟨1, "y", .private⟩, ⟨2, "t", .internal⟩]
  constraints := [⟨0, .ofVar 0, .ofVar 0, .ofVar 2, none⟩,
    ⟨1, ⟨1, [⟨1, 2⟩]⟩, .one, .ofVar 1, none⟩]

theorem minimize_satisfiability_squarePlusOne :
    eliminated 7 squarePlusOne 5 = [2] ∧
    ∃! y : VarId → ZMod 7, (∀ v, v ∉ eliminated 7 squarePlusOne 5 → y v = 3) ∧
      squarePlusOne.Sat y :=
  ⟨by decide +kernel, (minimize_satisfiability 7 squarePlusOne 5 (by decide) (by decide)).2.2
    (fun _ => 3) (by decide +kernel)⟩

end XarkCircuit.Minimize
