import XarkCircuit.Minimize.Sound

/-!
The minimizer ends at its fixpoint.

* `Settled` says that a row leaves nothing to do: its relation, if it has one, is not `0 = 0`, and
  every internal variable in it has a replacement past the fill-in guard.
* `Watch` is the invariant that carries it: a live row that is not queued is settled, and the
  membership flags are honest. A round pops a row, which `process` settles or retires, and every
  row that an elimination changes is queued again (`Watch.process`).
* `ofIr_toIr`: a surviving row and the program's row it becomes are the same in reduced form.
* `minimize_fixpoint` is the result: the loop ends, the surviving rows are settled, and in every
  state on the way each live row is listed at all its variables, none of them eliminated.
-/

namespace XarkCircuit.Minimize

section Forms

variable {F : Type*} [Field F] [DecidableEq F]

/-! ### Rows that leave nothing to do -/

/-- The relation of a row is not `0 = 0`, and its internal variables are past the fill-in guard. -/
def Settled (isInternal : VarId → Bool) (fill : ℕ) (c : Row F) : Prop :=
  ∀ rel, relation c = some rel → ¬(rel.t.vars = [] ∧ rel.k = 0) ∧
    ∀ v ∈ rel.t.vars, isInternal v → fill + 1 < rel.t.vars.length

/-- The replacement of a variable has the other variables of the relation. -/
lemma length_replacement {rel : Lc F} {v : VarId} {m : F} (h : rel.t.get? v = some m) :
    (replacement rel v m).t.entries.length + 1 = rel.t.vars.length := by
  have hmem := SparseForm.get?_eq_some.mp h
  have hm : -m⁻¹ ≠ 0 := neg_ne_zero.mpr (inv_ne_zero (rel.t.nonzero _ hmem))
  have hscale := SparseForm.length_entries_scale (rel.t.erase v) hm
  have herase := SparseForm.length_entries_erase (SparseForm.mem_vars.mpr ⟨_, hmem, rfl⟩)
  have hrep : (replacement rel v m).t = (rel.t.erase v).scale (-m⁻¹) := rfl
  rw [hrep, hscale, herase, SparseForm.vars, List.length_map]

/-! ### The queue -/

omit [DecidableEq F] in
/-- What an elimination does to the queue: the old rows stay, the changed ones join, and the flags
stay honest. -/
lemma foldl_noteChanged_queue (ch : List (ℕ × Row F × List VarId)) (st : State F)
    (hflag : ∀ j, st.inQueue j → j ∈ st.queue) :
    let st' := ch.foldl (fun st c => noteChanged st c.1 c.2.2) st
    (∀ j, st'.inQueue j → j ∈ st'.queue) ∧ (∀ j ∈ st.queue, j ∈ st'.queue) ∧
      ∀ c ∈ ch, c.1 ∈ st'.queue := by
  induction ch generalizing st with
  | nil => exact ⟨hflag, fun _ h => h, fun c hc => absurd hc List.not_mem_nil⟩
  | cons c ch ih =>
      have hstep : (∀ j, (noteChanged st c.1 c.2.2).inQueue j →
          j ∈ (noteChanged st c.1 c.2.2).queue) ∧
          (∀ j ∈ st.queue, j ∈ (noteChanged st c.1 c.2.2).queue) ∧
          c.1 ∈ (noteChanged st c.1 c.2.2).queue := by
        unfold noteChanged
        split
        · next h => exact ⟨hflag, fun _ h => h, hflag c.1 h⟩
        · refine ⟨fun j hj => ?_, fun j hj => List.mem_append_left _ hj, by simp⟩
          by_cases hjc : j = c.1
          · simp [hjc]
          · dsimp only at hj
            rw [Function.update_of_ne hjc] at hj
            exact List.mem_append_left _ (hflag j hj)
      obtain ⟨hflag', hold, hnew⟩ := ih _ hstep.1
      refine ⟨hflag', fun j hj => hold j (hstep.2.1 j hj), fun d hd => ?_⟩
      rcases List.mem_cons.mp hd with rfl | hd
      · exact hold _ hstep.2.2
      · exact hnew d hd

/-- The flags are honest, and a live row that is not queued (nor the popped row `i`) is settled. -/
structure Watch (isInternal : VarId → Bool) (fill : ℕ) (popped : Option ℕ) (st : State F) :
    Prop where
  flags : ∀ j, st.inQueue j → j ∈ st.queue
  settled : ∀ j c, st.row? j = some c → j ∉ st.queue → popped ≠ some j →
    Settled isInternal fill c

namespace Watch

variable {isInternal : VarId → Bool} {fill : ℕ} {names : List VarId} {S : Set (VarId → F)}
  {st : State F} {i : ℕ}

omit [DecidableEq F] in
/-- Popping a row: it is on its own until it is processed. -/
lemma pop [DecidableEq F] {queue : List ℕ} (h : Watch isInternal fill none st)
    (hq : st.queue = i :: queue) :
    Watch isInternal fill (some i)
      { st with queue := queue, inQueue := Function.update st.inQueue i false } := by
  refine ⟨fun j hj => ?_, fun j c hc hj hp => ?_⟩
  · have hji : j ≠ i := by
      rintro rfl
      simp at hj
    have hmem := h.flags j (by simpa [Function.update_of_ne hji] using hj)
    rw [hq] at hmem
    exact (List.mem_cons.mp hmem).resolve_left hji
  · refine h.settled j c hc ?_ (by simp)
    rw [hq, List.mem_cons, not_or]
    exact ⟨fun e => hp (congrArg some e.symm), hj⟩

/-- A popped row that is settled or retired stays out of the queue. -/
lemma done (h : Watch isInternal fill (some i) st)
    (hi : ∀ c, st.row? i = some c → Settled isInternal fill c) :
    Watch isInternal fill none st := by
  refine ⟨h.flags, fun j c hc hj _ => ?_⟩
  by_cases hij : i = j
  · exact hi c (hij ▸ hc)
  · exact h.settled j c hc hj fun e => hij (Option.some.inj e)

/-- Dropping the popped row. -/
lemma drop (h : Watch isInternal fill (some i) st) :
    Watch isInternal fill none { st with cons := st.cons.set i none } := by
  refine ⟨h.flags, fun j c hc hj _ => ?_⟩
  rw [State.row?, row?_set] at hc
  split_ifs at hc with hij
  exact h.settled j c hc hj fun e => hij (Option.some.inj e)

/-- An elimination queues every row that it changes. -/
lemma eliminate (h : Watch isInternal fill (some i) st) (hinv : Inv isInternal names S st)
    (v : VarId) (vlc : Lc F) :
    Watch isInternal fill none (Minimize.eliminate st i v vlc) := by
  have hrow := eliminate_row? i vlc fun j d hd => hinv.covered j d hd v
  obtain ⟨hflags, hold, hnew⟩ := foldl_noteChanged_queue
    (changedSites (st.cons.set i none) (sites st v) v vlc)
    { st with
      cons := (changedSites (st.cons.set i none) (sites st v) v vlc).foldl
        (fun cons c => cons.set c.1 (some c.2.1)) (st.cons.set i none)
      occ := Function.update st.occ v []
      eliminated := v :: st.eliminated } h.flags
  refine ⟨hflags, fun j c hc hj _ => ?_⟩
  rw [hrow] at hc
  split_ifs at hc with hij
  obtain ⟨r, hr, rfl⟩ := Option.map_eq_some_iff.mp hc
  by_cases hv : v ∈ r.vars
  · -- the row was changed, so it is queued
    refine absurd ?_ hj
    refine hnew (j, substRow v vlc r, newRowVars v vlc r) (mem_changedSites.mpr
      ⟨mem_sites.mpr (hinv.covered j r hr v hv), r, ?_, hv, rfl⟩)
    rw [row?_set, if_neg hij]
    exact hr
  · rw [substRow_of_notMem hv]
    exact h.settled j r hr (fun hm => hj (hold j hm)) fun e => hij (Option.some.inj e)

/-- **The step**: processing the popped row settles it, retires it, or queues what it changes. -/
lemma process (h : Watch isInternal fill (some i) st) (hinv : Inv isInternal names S st) :
    Watch isInternal fill none (Minimize.process isInternal fill st i) := by
  unfold Minimize.process
  split
  · next hnone => exact h.done fun c hc => by rw [hnone] at hc; cases hc
  · next c hc =>
    have hi : Settled isInternal fill c → Watch isInternal fill none st := fun hs =>
      h.done fun d hd => by
        rw [hc] at hd
        cases hd
        exact hs
    split
    · next hrel => exact hi fun rel h' => by rw [hrel] at h'; cases h'
    · next rel hrel =>
      split_ifs with hnil hk
      · exact h.drop
      · refine hi fun rel' h' => ?_
        rw [hrel] at h'
        cases h'
        refine ⟨fun hz => hk hz.2, fun v hv => ?_⟩
        rw [SparseForm.vars, hnil] at hv
        exact absurd hv List.not_mem_nil
      · have hvars : rel.t.vars ≠ [] := fun he => hnil (List.map_eq_nil_iff.mp he)
        split
        · next hfind =>
          refine hi fun rel' h' => ?_
          rw [hrel] at h'
          cases h'
          refine ⟨fun hz => hvars hz.1, fun v hv hint => ?_⟩
          obtain ⟨e, he, rfl⟩ := SparseForm.mem_vars.mp hv
          exact absurd hint (List.find?_eq_none.mp hfind e he)
        · next v m hfind =>
          have hm := SparseForm.get?_eq_some.mpr (List.mem_of_find?_eq_some hfind)
          split_ifs with hfill
          · refine hi fun rel' h' => ?_
            rw [hrel] at h'
            cases h'
            have hlen := length_replacement hm
            exact ⟨fun hz => hvars hz.1, fun _ _ _ => by omega⟩
          · exact h.eliminate hinv v _

/-- **The run**: the loop keeps the watch, however many rounds it makes. -/
lemma loop (h : Watch isInternal fill none st) (hinv : Inv isInternal names S st) (fuel : ℕ) :
    Watch isInternal fill none (loop isInternal fill fuel st) := by
  induction fuel generalizing st with
  | zero => exact h
  | succ fuel ih =>
      rw [Minimize.loop]
      split
      · exact h
      · next i queue hq =>
        have hpop := hinv.of_queue queue (Function.update st.inQueue i false)
        exact ih ((h.pop hq).process hpop) (hpop.process fill i)

end Watch

/-- More rounds change nothing once the queue is empty. -/
lemma loop_add (isInternal : VarId → Bool) (fill fuel extra : ℕ) (st : State F)
    (h : (loop isInternal fill fuel st).queue = []) :
    loop isInternal fill (fuel + extra) st = loop isInternal fill fuel st := by
  induction fuel generalizing st with
  | zero =>
      rw [loop] at h
      cases extra with
      | zero => rfl
      | succ extra =>
          rw [Nat.zero_add, loop, loop]
          simp only [h]
  | succ fuel ih =>
      rw [Nat.add_right_comm, loop, loop]
      rw [loop] at h
      split
      · rfl
      · next i queue hq =>
        rw [hq] at h
        exact ih _ h

end Forms

/-! ### Back to the program's rows -/

section Program

variable (p : ℕ) [Fact p.Prime]

/-- A form in the program's terms, reduced again, is the form. -/
lemma Lc.ofIr_toIr (l : Lc (ZMod p)) : Lc.ofIr (l.toIr p) = l := by
  have key : ∀ (es : List (VarId × ZMod p)) (acc : SparseForm VarId (ZMod p)),
      (acc.entries ++ es).Pairwise (fun e d => e.1 < d.1) → (∀ e ∈ es, e.2 ≠ 0) →
      ((es.map fun e => (⟨(e.2.val : ℤ), e.1⟩ : Term)).foldl
        (fun t term => if (term.coeff : ZMod p) = 0 then t
          else t.addAt term.var term.coeff) acc).entries = acc.entries ++ es := by
    intro es
    induction es with
    | nil => exact fun acc _ _ => (List.append_nil _).symm
    | cons e es ih =>
        intro acc hsort hne
        have hval : (((e.2.val : ℤ) : ZMod p)) = e.2 := by simp
        have hlt : ∀ d ∈ acc.entries, d.1 < e.1 := fun d hd =>
          (List.pairwise_append.mp hsort).2.2 d hd e List.mem_cons_self
        have hadd : (acc.addAt e.1 e.2).entries = acc.entries ++ [e] :=
          SparseForm.addEntry_of_lt (hne e List.mem_cons_self) hlt
        rw [List.map_cons, List.foldl_cons]
        simp only [hval]
        rw [if_neg (hne e List.mem_cons_self), ih, hadd, List.append_assoc, List.singleton_append]
        · rwa [hadd, List.append_assoc, List.singleton_append]
        · exact fun d hd => hne d (List.mem_cons_of_mem _ hd)
  refine Lc.ext ?_ (SparseForm.ext ?_)
  · simp [Lc.ofIr, Lc.toIr]
  · exact key l.t.entries .empty l.t.sorted l.t.nonzero

lemma Row.ofIr_toIr (id : ℕ) (r : Row (ZMod p)) : Row.ofIr (r.toIr p id) = r := by
  rw [Row.ofIr, Row.toIr]
  simp only [Lc.ofIr_toIr]

/-- The watch where the loop starts: every row is queued. -/
lemma watch_start (prog : R1csProgram) (fill : ℕ) :
    Watch (isInternal prog) fill none
      (start (F := ZMod p) (prog.constraints.map Row.ofIr)) := by
  refine ⟨fun j hj => ?_, fun j c hc hj _ => absurd ?_ hj⟩
  · exact List.mem_range.mpr (of_decide_eq_true hj)
  · have hlt := lt_of_row? hc
    rw [start, List.length_map] at hlt
    exact List.mem_range.mpr hlt

/-- The rows of the result are the surviving rows. -/
lemma exists_row_of_mem_run {prog : R1csProgram} {fill : ℕ} {k : R1csConstraint}
    (hk : k ∈ (run p prog fill).constraints) : ∃ j, (final p prog fill).row? j = some (Row.ofIr k) := by
  obtain ⟨r, hr, rfl⟩ := List.mem_map.mp hk
  have hmem := List.mem_of_getElem? (List.mem_zipIdx_iff_getElem?.mp hr)
  obtain ⟨o, ho, ho'⟩ := List.mem_filterMap.mp hmem
  obtain ⟨j, hj⟩ := List.mem_iff_getElem?.mp ho
  refine ⟨j, ?_⟩
  rw [State.row?, hj, Row.ofIr_toIr]
  exact ho'

/-- **The minimizer ends, at its fixpoint.** From some number of rounds on the queue is empty and
nothing changes; no row of the result with a constant side reads `0 = 0`, and none mentions an
internal variable linearly in a relation of at most `fill + 1` variables. In every state on the way
the index lists each live row at each of its variables, and no live row has an eliminated one. -/
theorem minimize_fixpoint (prog : R1csProgram) (fill : ℕ)
    (hmod : prog.field.modulus = some p) :
    (∃ n, ∀ fuel ≥ n, loop (isInternal prog) fill fuel (start (prog.constraints.map Row.ofIr))
        = final p prog fill ∧ (final p prog fill).queue = []) ∧
    (∀ k ∈ (minimizeWithFill p prog fill).constraints, ∀ rel : Lc (ZMod p),
      relation (Row.ofIr k) = some rel → ¬(rel.t.vars = [] ∧ rel.k = 0) ∧
        ∀ v ∈ rel.t.vars, isInternal prog v → ¬rel.t.vars.length ≤ fill + 1) ∧
    ∀ fuel, ∀ st : State (ZMod p),
      loop (isInternal prog) fill fuel (start (prog.constraints.map Row.ofIr)) = st →
      ∀ j c, st.row? j = some c → ∀ v ∈ c.vars, j ∈ sites st v ∧ v ∉ st.eliminated := by
  have hinv := inv_start p prog
  have hqueue := final_queue p prog fill
  refine ⟨⟨rounds prog.constraints.length, fun fuel hfuel => ⟨?_, hqueue⟩⟩, ?_, ?_⟩
  · obtain ⟨extra, rfl⟩ := Nat.exists_eq_add_of_le hfuel
    exact loop_add _ _ _ extra _ hqueue
  · rw [minimizeWithFill_eq p hmod]
    intro k hk rel hrel
    obtain ⟨j, hj⟩ := exists_row_of_mem_run p hk
    have hwatch := (watch_start p prog fill).loop hinv (rounds prog.constraints.length)
    have hsettled : Settled (isInternal prog) fill (Row.ofIr k : Row (ZMod p)) := by
      refine hwatch.settled j _ hj ?_ (by simp)
      have hempty : (loop (isInternal prog) fill (rounds prog.constraints.length)
          (start (F := ZMod p) (prog.constraints.map Row.ofIr))).queue = [] := hqueue
      rw [hempty]
      exact List.not_mem_nil
    obtain ⟨hzero, hfill⟩ := hsettled rel hrel
    exact ⟨hzero, fun v hv hint => not_le.mpr (hfill v hv hint)⟩
  · rintro fuel st rfl j c hc v hv
    have h := hinv.loop fill fuel
    exact ⟨mem_sites.mpr (h.covered j c hc v hv), h.gone j c hc v hv⟩

end Program

theorem minimize_fixpoint_squarePlusOne :
    eliminated 7 squarePlusOne 5 = [2] ∧
    ∀ k ∈ (minimizeWithFill 7 squarePlusOne 5).constraints, ∀ rel : Lc (ZMod 7),
      relation (Row.ofIr k : Row (ZMod 7)) = some rel → ¬(rel.t.vars = [] ∧ rel.k = 0) ∧
        ∀ v ∈ rel.t.vars, isInternal squarePlusOne v → ¬rel.t.vars.length ≤ 5 + 1 :=
  ⟨by decide +kernel, (minimize_fixpoint 7 squarePlusOne 5 (by decide)).2.1⟩

end XarkCircuit.Minimize
