import XarkCircuit.Search.ProcessSound
import XarkCircuit.Search.Dfs

/-!
What the search finds.

* `Settled`: every row is queued, has an unknown, or holds. `propagate_spec`: propagation keeps
  every solution, and with an empty queue every row has an unknown or holds.
* `undo_eq`: taking the trail back to a mark restores the state of the mark.
* `Explored project Q t t'`: between the tallies, distinct solutions of `Q` were recorded, and all
  of them unless the search stopped or only sampled. `branches_spec` adds up disjoint windows and
  `dfs_spec` is the statement for the whole search.
-/

namespace XarkCircuit.Search

variable {p n m : ℕ} {rows : Fin m → Row p n} {fuel : ℕ}

/-- Every row holds. -/
def Sat (rows : Fin m → Row p n) (x : Fin n → ZMod p) : Prop := ∀ ci, (rows ci).eval x = 0

/-- Every row is queued, has an unknown, or holds. -/
def Settled (rows : Fin m → Row p n) (st : State p n m) : Prop :=
  ∀ ci, st.queued ci = true ∨ (∃ v ∈ (rows ci).vars, st.Open v) ∨
    ∀ x, st.Respects x → (rows ci).eval x = 0

lemma Advance.settled_row {st st' : State p n m} (h : Advance rows st st') {ci : Fin m}
    (hrow : st.queued ci = true ∨ (∃ v ∈ (rows ci).vars, st.Open v) ∨
      ∀ x, st.Respects x → (rows ci).eval x = 0) :
    st'.queued ci = true ∨ (∃ v ∈ (rows ci).vars, st'.Open v) ∨
      ∀ x, st'.Respects x → (rows ci).eval x = 0 := by
  rcases hrow with hq | ⟨v, hv, hopen⟩ | hholds
  · exact Or.inl (h.queued ci hq)
  · rcases h.opens v hopen with hopen | hq
    · exact Or.inr (Or.inl ⟨v, hv, hopen⟩)
    · exact Or.inl (hq ci (mem_varCons.mpr hv))
  · exact Or.inr (Or.inr fun x hx => hholds x (h.refines x hx))

lemma Advance.settled {st st' : State p n m} (h : Advance rows st st') (hs : Settled rows st) :
    Settled rows st' := fun ci => h.settled_row (hs ci)

/-! ### Leaves -/

/-- A value that follows from the facts alone. -/
inductive Facts.HasValue (f : Facts p n) : Fin n → ZMod p → Prop
  | val {v y} (h : f.dom v = .val y) : HasValue f v y
  | aliased {v u a b y} (h : f.aliasOf v = some (u, a, b)) (hv : ∀ z, f.dom v ≠ .val z)
      (hu : HasValue f u y) : HasValue f v (a * y + b)

lemma Facts.HasValue.unique {f : Facts p n} {v : Fin n} {y z : ZMod p} (h : f.HasValue v y)
    (h' : f.HasValue v z) : y = z := by
  induction h generalizing z with
  | val hdom =>
      cases h' with
      | val hdom' => exact Dom.val.inj (hdom.symm.trans hdom')
      | aliased _ hv _ => exact absurd hdom (hv _)
  | aliased hal hv _ ih =>
      cases h' with
      | val hdom' => exact absurd hdom' (hv _)
      | aliased hal' _ hu' =>
          have heq := hal.symm.trans hal'
          rw [Option.some.injEq, Prod.mk.injEq, Prod.mk.injEq] at heq
          obtain ⟨rfl, rfl, rfl⟩ := heq
          rw [ih hu']

lemma hasValue_of_resolveLoop {f : Facts p n} {a b y : ZMod p} {u : Fin n}
    (h : resolveLoop f fuel a b u = .ok (.known y)) : ∃ z, f.HasValue u z ∧ y = a * z + b := by
  induction fuel generalizing a b u with
  | zero => exact absurd h (by simp [resolveLoop])
  | succ fuel ih =>
      rw [resolveLoop] at h
      split at h
      · rename_i z hdom
        obtain rfl := Resolved.known.inj (Except.ok.inj h)
        exact ⟨z, .val hdom, rfl⟩
      · rename_i hdom
        split at h
        · rename_i w a2 b2 hal
          obtain ⟨z, hz, rfl⟩ := ih h
          exact ⟨a2 * z + b2, .aliased hal hdom hz, by ring⟩
        · exact absurd (Except.ok.inj h) (by simp)

lemma hasValue_of_resolve {f : Facts p n} {v : Fin n} {y : ZMod p}
    (h : resolve f fuel v = .ok (.known y)) : f.HasValue v y := by
  rw [resolve] at h
  split at h
  · split at h
    · rename_i z hdom
      obtain rfl := Resolved.known.inj (Except.ok.inj h)
      exact .val hdom
    · exact absurd (Except.ok.inj h) (by simp)
  · obtain ⟨z, hz, rfl⟩ := hasValue_of_resolveLoop h
    rw [one_mul, add_zero]
    exact hz

/-- When every variable has a value, the values are the one assignment that respects the facts. -/
lemma respects_iff_of_hasValue {f : Facts p n} (hok : f.Ok) {y : Fin n → ZMod p}
    (h : ∀ v, f.HasValue v (y v)) (hrange : ∀ v lo hi, f.dom v ≠ .range lo hi) {x : Fin n → ZMod p} :
    f.Respects x ↔ x = y := by
  constructor
  · intro hx
    funext v
    have hval : ∀ v z, f.HasValue v z → x v = z := by
      intro v z hz
      induction hz with
      | @val v z hdom =>
          have hmem := hx.dom v
          rwa [hdom] at hmem
      | aliased hal _ _ ih => rw [hx.aliasOf _ _ _ _ hal, ih]
    exact hval v _ (h v)
  · rintro rfl
    refine ⟨fun v => ?_, fun v u a b hal => ?_⟩
    · cases hdom : f.dom v with
      | val z => exact (h v).unique (.val hdom)
      | range lo hi => exact absurd hdom (hrange v lo hi)
      | free => trivial
    · rcases hok.dom_aliased v u a b hal with hfree | ⟨z, hu, hv⟩
      · exact (h v).unique (.aliased hal (by simp [hfree]) (h u))
      · rw [(h v).unique (.val hv), (h u).unique (.val hu)]

/-- The value of a variable at a leaf. -/
def valueOf (f : Facts p n) (fuel : ℕ) (v : Fin n) : ZMod p :=
  match resolve f fuel v with
  | .ok (.known y) => y
  | _ => 0

/-- A leaf resolves every variable to its value. -/
lemma mapM_resolve {f : Facts p n} {vs : List (Fin n)} {vals : List (ZMod p)}
    (h : (vs.mapM fun v => do
      match ← resolve f fuel v with
      | .known x => return x
      | .lin _ _ _ => .error .panic) = (.ok vals : Outcome (List (ZMod p)))) :
    vals = vs.map (valueOf f fuel) ∧ ∀ v ∈ vs, f.HasValue v (valueOf f fuel v) := by
  induction vs generalizing vals with
  | nil =>
      obtain rfl := Except.ok.inj h
      exact ⟨rfl, by simp⟩
  | cons v vs ih =>
      rw [List.mapM_cons] at h
      obtain ⟨y, hy, h⟩ := Outcome.bind_eq_ok.mp h
      obtain ⟨ys, hys, h⟩ := Outcome.bind_eq_ok.mp h
      obtain rfl := Except.ok.inj h
      obtain ⟨hvals, hall⟩ := ih hys
      obtain ⟨r, hr, hy⟩ := Outcome.bind_eq_ok.mp hy
      cases r with
      | lin u a b => exact absurd hy (by simp)
      | known z =>
          obtain rfl := Except.ok.inj hy
          have hvalue : valueOf f fuel v = z := by rw [valueOf, hr]
          refine ⟨by rw [List.map_cons, hvalue, hvals], fun w hw => ?_⟩
          rcases List.mem_cons.mp hw with rfl | hw
          · rw [hvalue]
            exact hasValue_of_resolve hr
          · exact hall w hw

/-- What is picked, and what it means that nothing is. -/
lemma pick_spec (f : Facts p n) :
    ((pick f).1 = none → ∀ v lo hi, f.dom v ≠ .range lo hi) ∧
      (∀ v, (pick f).2 = some v → f.dom v = .free ∧ f.aliasOf v = none) ∧
      ((pick f).2 = none → ∀ v, f.dom v = .free → f.aliasOf v ≠ none) := by
  have hfold : ∀ l : List (Fin n),
      let acc := l.foldl (pickStep f) (none, none)
      (acc.1 = none → ∀ v ∈ l, ∀ lo hi, f.dom v ≠ .range lo hi) ∧
        (∀ v, acc.2 = some v → f.dom v = .free ∧ f.aliasOf v = none) ∧
        (acc.2 = none → ∀ v ∈ l, f.dom v = .free → f.aliasOf v ≠ none) := by
    intro l
    induction l using List.reverseRecOn with
    | nil => simp
    | append_singleton l v ih =>
        dsimp only at ih ⊢
        rw [List.foldl_append, List.foldl_cons, List.foldl_nil]
        generalize l.foldl (pickStep f) (none, none) = acc at ih
        obtain ⟨hr, hf, hn⟩ := ih
        unfold pickStep
        cases hdom : f.dom v with
        | val y =>
            refine ⟨fun hp w hw lo hi => ?_, hf, fun hp w hw hfree => ?_⟩
            · rcases List.mem_append.mp hw with hw | hw
              · exact hr hp w hw lo hi
              · simp [List.mem_singleton.mp hw, hdom]
            · rcases List.mem_append.mp hw with hw | hw
              · exact hn hp w hw hfree
              · rw [List.mem_singleton.mp hw, hdom] at hfree
                exact absurd hfree (by simp)
        | range lo hi =>
            dsimp only
            refine ⟨fun hp => ?_, hf, fun hp w hw hfree => ?_⟩
            · split_ifs at hp with hall
              rw [hp] at hall
              exact absurd rfl hall
            · rcases List.mem_append.mp hw with hw | hw
              · exact hn hp w hw hfree
              · rw [List.mem_singleton.mp hw, hdom] at hfree
                exact absurd hfree (by simp)
        | free =>
            dsimp only
            split_ifs with hal
            · refine ⟨fun hp w hw lo hi => ?_, fun w hw => ?_, by simp⟩
              · rcases List.mem_append.mp hw with hw | hw
                · exact hr hp w hw lo hi
                · simp [List.mem_singleton.mp hw, hdom]
              · obtain rfl := Option.some.inj hw
                exact ⟨hdom, by simpa using hal⟩
            · refine ⟨fun hp w hw lo hi => ?_, hf, fun hp w hw hfree => ?_⟩
              · rcases List.mem_append.mp hw with hw | hw
                · exact hr hp w hw lo hi
                · simp [List.mem_singleton.mp hw, hdom]
              · rcases List.mem_append.mp hw with hw | hw
                · exact hn hp w hw hfree
                · rw [List.mem_singleton.mp hw]
                  simpa using hal
  have h := hfold (List.finRange n)
  exact ⟨fun hp v => h.1 hp v (List.mem_finRange v), h.2.1,
    fun hp v => h.2.2 hp v (List.mem_finRange v)⟩

section Field

variable [Fact p.Prime]

/-! ### Propagation -/

/-- What propagation comes to. -/
structure Propagated (rows : Fin m → Row p n) (st : State p n m) (r : State p n m × Bool) :
    Prop where
  ok : r.1.Ok
  undoes : Undoes st r.1
  refines : ∀ x, r.1.Respects x → st.Respects x
  queue : r.2 = true → r.1.queue = []
  settled : r.2 = true → Settled rows r.1
  sound : r.2 = true → ∀ x, st.Respects x → Sat rows x → r.1.Respects x
  conflict : r.2 = false → ∀ x, st.Respects x → ¬ Sat rows x

/-- The state with the next row taken off the queue. -/
def State.pop (st : State p n m) (ci : Fin m) (queue : List (Fin m)) : State p n m :=
  { st with queue := queue, queued := Function.update st.queued ci false }

omit [Fact p.Prime] in
lemma pop_ok {st : State p n m} {ci : Fin m} {queue : List (Fin m)} (hok : st.Ok)
    (hq : st.queue = ci :: queue) : (st.pop ci queue).Ok := by
  refine ⟨hok.toOk, fun cj hcj => ?_⟩
  by_cases hne : cj = ci
  · rw [hne, State.pop] at hcj
    exact absurd hcj (by simp)
  · have hqueued : st.queued cj = true := by simpa [State.pop, hne] using hcj
    exact (List.mem_cons.mp (hq ▸ hok.queue cj hqueued)).resolve_left hne

/-- **Propagation** keeps every solution. It ends with an empty queue, or with a conflict when
there is no solution. -/
theorem propagate_spec {st : State p n m} {r : State p n m × Bool} (hok : st.Ok)
    (hs : Settled rows st) (h : propagate rows fuel st = .ok r) : Propagated rows st r := by
  induction fuel generalizing st with
  | zero => exact absurd h (by simp [propagate])
  | succ fuel ih =>
      rw [propagate] at h
      cases hq : st.queue with
      | nil =>
          rw [hq] at h
          obtain rfl := Except.ok.inj h
          exact ⟨hok, .refl st, fun _ h => h, fun _ => hq, fun _ => hs, fun _ _ h _ => h, by simp⟩
      | cons ci queue =>
          rw [hq] at h
          obtain ⟨⟨st₂, ok⟩, hproc, h⟩ := Outcome.bind_eq_ok.mp h
          obtain ⟨hded, hdone⟩ := process_spec (pop_ok hok hq) hproc
          have hadv : Advance rows (st.pop ci queue) st₂ := hded.advance
          have hundo : Undoes st st₂ := hadv.undoes
          cases ok with
          | false =>
              obtain rfl := Except.ok.inj h
              exact ⟨hadv.ok, hundo, hadv.refines, by simp, by simp, by simp,
                fun _ x hx hsat => hded.conflict rfl x hx (hsat ci)⟩
          | true =>
              -- the row itself is accounted for now, the others were before
              have hs₂ : Settled rows st₂ := by
                intro cj
                by_cases hne : cj = ci
                · rw [hne]
                  rcases hdone rfl with hopen | hholds
                  · exact hadv.settled_row (Or.inr (Or.inl hopen))
                  · exact hadv.settled_row (Or.inr (Or.inr hholds))
                · refine hadv.settled_row ((hs cj).imp_left fun hqueued => ?_)
                  simpa [State.pop, hne] using hqueued
              have hrest := ih hadv.ok hs₂ h
              exact ⟨hrest.ok, hundo.trans hrest.undoes,
                fun x hx => hadv.refines x (hrest.refines x hx), hrest.queue, hrest.settled,
                fun hr x hx hsat => hrest.sound hr x (hded.sound rfl x hx (hsat ci)) hsat,
                fun hr x hx hsat => hrest.conflict hr x (hded.sound rfl x hx (hsat ci)) hsat⟩

/-! ### Undoing -/

omit [Fact p.Prime] in
lemma rewind_append (f : Facts p n) (ext trail : List (Trail p n)) :
    rewind trail.length f (ext ++ trail) = (ext.foldl Trail.undo f, trail) := by
  induction ext generalizing f with
  | nil =>
      cases trail with
      | nil => rfl
      | cons e trail => simp [rewind]
  | cons e ext ih =>
      rw [List.cons_append, rewind, if_pos (by simp), ih, List.foldl_cons]

omit [Fact p.Prime] in
/-- **Undoing** restores the state of the mark, when nothing was queued there. -/
theorem undo_eq {st st' : State p n m} (hempty : st.queue = [])
    (hnone : ∀ ci, st.queued ci = false) (h : Undoes st st')
    (hq : ∀ ci, st'.queued ci = true → ci ∈ st'.queue) : undo st' st.trail.length = st := by
  obtain ⟨ext, htrail, hfacts⟩ := h
  have hqueued : (fun ci => if ci ∈ st'.queue then false else st'.queued ci) = st.queued := by
    funext ci
    rw [hnone ci]
    split_ifs with hmem
    · rfl
    · exact Bool.eq_false_iff.mpr fun hci => hmem (hq ci hci)
  rw [undo, htrail, rewind_append, hfacts, hqueued]
  dsimp only
  rw [← hempty]

/-! ### What is recorded -/

/-- The results of recording an assignment. -/
def recorded (project : Option (List (Fin n))) (t : Found p) (x : Fin n → ZMod p) : Found p :=
  match project with
  | some proj =>
      if t.projFound.head? ≠ some (proj.map x) then
        { t with projFound := t.projFound ++ [proj.map x] }
      else t
  | none => { t with found := t.found ++ [List.ofFn x] }

omit [Fact p.Prime] in
lemma record_ofFn (project : Option (List (Fin n))) (t : Found p) (x : Fin n → ZMod p) :
    record project t (List.ofFn x) = .ok (recorded project t x) := by
  cases project with
  | none => rfl
  | some proj =>
      have hvals : (proj.mapM fun i => Outcome.orPanic (List.ofFn x)[i.val]?)
          = (.ok (proj.map x) : Outcome (List (ZMod p))) := by
        induction proj with
        | nil => rfl
        | cons i proj ih =>
            rw [List.mapM_cons, ih, List.getElem?_ofFn]
            simp
      rw [record, hvals, recorded]
      dsimp only [Outcome.ok_bind]
      split_ifs <;> rfl

/-- Between the tallies distinct solutions of `Q` were recorded, and all of them unless the search
is done or only sampled. -/
structure Explored (project : Option (List (Fin n))) (Q : (Fin n → ZMod p) → Prop)
    (t t' : Tally p) : Prop where
  solutions : ∃ xs : List (Fin n → ZMod p), xs.Nodup ∧ (∀ x ∈ xs, Q x) ∧
    t'.toFound = xs.foldl (recorded project) t.toFound ∧
    (t'.done = false → t'.incomplete = none → ∀ x, Q x → x ∈ xs)
  incomplete : t.incomplete ≠ none → t'.incomplete ≠ none
  bounded : t.projFound.length ≤ 2 → t'.projFound.length ≤ 2

section Explored

variable {project : Option (List (Fin n))} {Q Q' : (Fin n → ZMod p) → Prop} {t t' t'' : Tally p}

omit [Fact p.Prime] in
/-- Nothing was recorded: the search is done, or there is nothing to find. -/
lemma Explored.nothing (hfound : t'.toFound = t.toFound)
    (hinc : t.incomplete ≠ none → t'.incomplete ≠ none)
    (h : t'.done = false → t'.incomplete = none → ∀ x, ¬ Q x) : Explored project Q t t' :=
  ⟨⟨[], List.nodup_nil, by simp, hfound, fun hd hi x hx => absurd hx (h hd hi x)⟩, hinc,
    by rw [hfound]; exact fun h => h⟩

omit [Fact p.Prime] in
/-- More was to be found, but the search is done or only sampled. -/
lemma Explored.widen (h : Explored project Q t t') (hQ : ∀ x, Q x → Q' x)
    (hall : t'.done = false → t'.incomplete = none → ∀ x, Q' x → Q x) :
    Explored project Q' t t' := by
  obtain ⟨⟨xs, hnodup, hxs, hfound, hcomplete⟩, hinc, hbound⟩ := h
  exact ⟨⟨xs, hnodup, fun x hx => hQ x (hxs x hx), hfound,
    fun hd hi x hx => hcomplete hd hi x (hall hd hi x hx)⟩, hinc, hbound⟩

omit [Fact p.Prime] in
/-- One search after another, for disjoint solutions. -/
lemma Explored.union (h : Explored project Q t t') (h' : Explored project Q' t' t'')
    (hdone : t'.done = false) (hdisj : ∀ x, Q x → ¬ Q' x) :
    Explored project (fun x => Q x ∨ Q' x) t t'' := by
  obtain ⟨⟨xs, hnodup, hxs, hfound, hcomplete⟩, hinc, hbound⟩ := h
  obtain ⟨⟨ys, hnodup', hys, hfound', hcomplete'⟩, hinc', hbound'⟩ := h'
  refine ⟨⟨xs ++ ys, ?_, fun x hx => ?_, ?_, fun hd hi x hx => ?_⟩, fun h => hinc' (hinc h),
    fun h => hbound' (hbound h)⟩
  · exact List.nodup_append.mpr ⟨hnodup, hnodup', fun x hx y hy hxy =>
      hdisj x (hxs x hx) (hxy ▸ hys y hy)⟩
  · exact (List.mem_append.mp hx).imp (hxs x) (hys x)
  · rw [hfound', hfound, List.foldl_append]
  · have hi' : t'.incomplete = none := by
      by_contra hne
      exact hinc' hne hi
    exact List.mem_append.mpr (hx.imp (hcomplete hdone hi' x) (hcomplete' hd hi x))

end Explored

/-! ### Branches -/

/-- What the search below a state comes to. -/
structure Searched (rows : Fin m → Row p n) (project : Option (List (Fin n))) (st : State p n m)
    (t : Tally p) (r : State p n m × Tally p) : Prop where
  undoes : Undoes st r.1
  queue : ∀ ci, r.1.queued ci = true → ci ∈ r.1.queue
  explored : Explored project (fun x => st.Respects x ∧ Sat rows x) t r.2

section Branches

variable {project : Option (List (Fin n))} {st : State p n m} {v : Fin n}
  {search : State p n m → Tally p → Outcome (State p n m × Tally p)}

/-- Searching below a window finds what lies in it, and restores the state. -/
lemma branch_spec {a b : ℤ} {t : Tally p} {r : State p n m × Tally p} (hok : st.Ok)
    (hs : Settled rows st) (hempty : st.queue = []) (hal : st.aliasOf v = none)
    (hsearch : ∀ st₁ t r, st₁.Ok → Settled rows st₁ → search st₁ t = .ok r →
      Searched rows project st₁ t r)
    (hwide : b - a < p)
    (hin : ∀ r, narrow rows fuel st v a b = .ok r → r.2 = true →
      ∀ x, r.1.Respects x → Window p a b (x v))
    (h : branch rows fuel search v a b st t = .ok r) :
    r.1 = st ∧ Explored project
      (fun x => (st.Respects x ∧ Sat rows x) ∧ Window p a b (x v)) t r.2 := by
  have hnone : ∀ ci, st.queued ci = false := fun ci => by
    by_contra hne
    have hmem := hok.queue ci (by simpa using hne)
    rw [hempty] at hmem
    exact List.not_mem_nil hmem
  obtain ⟨⟨st₁, ok⟩, hnarrow, h⟩ := Outcome.bind_eq_ok.mp h
  have hded := (narrow_spec hok hal hwide hnarrow).1
  have hundo : Undoes st st₁ := hded.advance.undoes
  cases ok with
  | false =>
      obtain rfl := Except.ok.inj h
      exact ⟨undo_eq hempty hnone hundo hded.advance.ok.queue,
        .nothing rfl (fun h => h) fun _ _ x hx => hded.conflict rfl x hx.1.1 hx.2⟩
  | true =>
      obtain ⟨⟨st₂, t₂⟩, hsub, h⟩ := Outcome.bind_eq_ok.mp h
      obtain rfl := Except.ok.inj h
      have hbelow := hsearch st₁ t _ hded.advance.ok (hded.advance.settled hs) hsub
      refine ⟨undo_eq hempty hnone (hundo.trans hbelow.undoes) hbelow.queue,
        hbelow.explored.widen (fun x hx => ?_) fun _ _ x hx => ?_⟩
      · exact ⟨⟨hded.advance.refines x hx.1, hx.2⟩, hin _ hnarrow rfl x hx.1⟩
      · exact ⟨hded.sound rfl x hx.1.1 hx.2, hx.1.2⟩

/-- **Searching below disjoint windows** finds what lies in one of them, and restores the state. -/
theorem branches_spec {windows : List (ℤ × ℤ)} {t : Tally p} {r : State p n m × Tally p}
    (hok : st.Ok) (hs : Settled rows st) (hempty : st.queue = []) (hal : st.aliasOf v = none)
    (hsearch : ∀ st₁ t r, st₁.Ok → Settled rows st₁ → search st₁ t = .ok r →
      Searched rows project st₁ t r)
    (hwide : ∀ w ∈ windows, w.2 - w.1 < p)
    (hin : ∀ w ∈ windows, ∀ r, narrow rows fuel st v w.1 w.2 = .ok r → r.2 = true →
      ∀ x, r.1.Respects x → Window p w.1 w.2 (x v))
    (hdisj : windows.Pairwise fun w w' => ∀ y : ZMod p, Window p w.1 w.2 y → ¬ Window p w'.1 w'.2 y)
    (h : branches rows fuel search v windows st t = .ok r) :
    r.1 = st ∧ Explored project
      (fun x => (st.Respects x ∧ Sat rows x) ∧ ∃ w ∈ windows, Window p w.1 w.2 (x v)) t r.2 := by
  induction windows generalizing t with
  | nil =>
      obtain rfl := Except.ok.inj h
      exact ⟨rfl, .nothing rfl (fun h => h) fun _ _ x hx => by simpa using hx.2⟩
  | cons w windows ih =>
      obtain ⟨⟨st₁, t₁⟩, hone, hcont⟩ := Outcome.bind_eq_ok.mp h
      obtain ⟨hst, hexp⟩ := branch_spec hok hs hempty hal hsearch (hwide w List.mem_cons_self)
        (hin w List.mem_cons_self) hone
      obtain ⟨hdw, hdws⟩ := List.pairwise_cons.mp hdisj
      dsimp only at hst hexp hcont
      subst hst
      split_ifs at hcont with hd
      · obtain rfl := Except.ok.inj hcont
        refine ⟨rfl, hexp.widen (fun x hx => ⟨hx.1, w, List.mem_cons_self, hx.2⟩) fun hd' => ?_⟩
        exact absurd (hd.symm.trans hd') (by simp)
      · obtain ⟨hr, hrest⟩ := ih (fun w' hw' => hwide w' (List.mem_cons_of_mem _ hw'))
          (fun w' hw' => hin w' (List.mem_cons_of_mem _ hw')) hdws hcont
        refine ⟨hr, (hexp.union hrest (by simpa using hd) fun x hx hx' => ?_).widen
          (fun x hx => ?_) fun _ _ x hx => ?_⟩
        · obtain ⟨w', hw', hxw'⟩ := hx'.2
          exact hdw w' hw' (x v) hx.2 hxw'
        · rcases hx with ⟨hx, hxw⟩ | ⟨hx, w', hw', hxw'⟩
          · exact ⟨hx, w, List.mem_cons_self, hxw⟩
          · exact ⟨hx, w', List.mem_cons_of_mem _ hw', hxw'⟩
        · obtain ⟨hx, w', hw', hxw'⟩ := hx
          rcases List.mem_cons.mp hw' with rfl | hw'
          · exact Or.inl ⟨hx, hxw'⟩
          · exact Or.inr ⟨hx, w', hw', hxw'⟩

end Branches

/-! ### The whole search -/

omit [Fact p.Prime] in
/-- Halves of a window narrower than `p` have no residue in common. -/
lemma windows_disjoint {lo mid mid' hi : ℤ} (hmid : mid < mid') (hwide : hi - lo < p) (y : ZMod p)
    (h : Window p lo mid y) : ¬ Window p mid' hi y := by
  rintro ⟨z', hlo', hhi', hz'⟩
  obtain ⟨z, hlo, hhi, hz⟩ := h
  have heq : z = z' := eq_of_cast_eq (hz.trans hz'.symm) (by omega) (by omega)
  omega

section Dfs

variable {budget : ℕ} {project : Option (List (Fin n))} {name : Fin n → String}

omit [Fact p.Prime] in
/-- At a leaf every variable has its value, and the rows hold. -/
lemma leaf_spec {st : State p n m} {t : Tally p} {vals : List (ZMod p)} {found : Found p}
    (hok : st.Ok) (hs : Settled rows st) (hempty : st.queue = [])
    (hpick : pick st.toFacts = (none, none)) (hdone : t.done = false)
    (hvals : ((List.finRange n).mapM fun v => do
      match ← resolve st.toFacts fuel v with
      | .known x => return x
      | .lin _ _ _ => .error .panic) = (.ok vals : Outcome (List (ZMod p))))
    (hfound : record project t.toFound vals = .ok found) :
    Explored project (fun x => st.Respects x ∧ Sat rows x) t { t with toFound := found } := by
  obtain ⟨hrange, -, hfree⟩ := pick_spec st.toFacts
  rw [hpick] at hrange hfree
  obtain ⟨rfl, hvalue⟩ := mapM_resolve hvals
  have hiff : ∀ x, st.Respects x ↔ x = valueOf st.toFacts fuel := fun x =>
    respects_iff_of_hasValue hok.toOk (fun v => hvalue v (List.mem_finRange v)) (hrange rfl)
  have hsat : Sat rows (valueOf st.toFacts fuel) := by
    intro ci
    rcases hs ci with hq | ⟨v, -, u, -, hal, hopen⟩ | hholds
    · have hmem := hok.queue ci hq
      rw [hempty] at hmem
      exact absurd hmem List.not_mem_nil
    · cases hdom : st.dom u with
      | val y => exact absurd hdom (hopen y)
      | range lo hi => exact absurd hdom (hrange rfl u lo hi)
      | free => exact absurd hal (hfree rfl u hdom)
    · exact hholds _ ((hiff _).mpr rfl)
  rw [← List.ofFn_eq_map, record_ofFn, Except.ok.injEq] at hfound
  refine ⟨⟨[valueOf st.toFacts fuel], List.nodup_singleton _, fun x hx => ?_, hfound.symm,
    fun _ _ x hx => List.mem_singleton.mpr ((hiff x).mp hx.1)⟩, fun h => h, fun _ => ?_⟩
  · rw [List.mem_singleton.mp hx]
    exact ⟨(hiff _).mpr rfl, hsat⟩
  · have hfew : t.projFound.length < 2 := by
      simp only [Tally.done, Bool.or_eq_false_iff, decide_eq_false_iff_not, not_le] at hdone
      exact hdone.1.2
    show found.projFound.length ≤ 2
    rw [← hfound]
    unfold recorded
    cases project with
    | none => exact hfew.le
    | some proj =>
        dsimp only
        split_ifs
        · rw [List.length_append, List.length_singleton]
          omega
        · exact hfew.le

section Split

variable {st : State p n m} {t : Tally p} {r : State p n m × Tally p} {v : Fin n}
  {search : State p n m → Tally p → Outcome (State p n m × Tally p)}

/-- Searching both halves of a window finds everything. -/
lemma split_spec {lo hi : ℤ} (hok : st.Ok) (hs : Settled rows st) (hempty : st.queue = [])
    (hsearch : ∀ st₁ t r, st₁.Ok → Settled rows st₁ → search st₁ t = .ok r →
      Searched rows project st₁ t r)
    (hdom : st.dom v = .range lo hi)
    (h : branches rows fuel search v
      [(lo, floorDiv (lo + hi) 2), (floorDiv (lo + hi) 2 + 1, hi)] st t = .ok r) :
    r.1 = st ∧ Explored project (fun x => st.Respects x ∧ Sat rows x) t r.2 := by
  have hal : st.aliasOf v = none := by
    cases hal : st.aliasOf v with
    | none => rfl
    | some w =>
        obtain ⟨u, a, b⟩ := w
        rcases hok.dom_aliased v u a b hal with hfree | ⟨y, -, hval⟩
        · rw [hdom] at hfree
          exact absurd hfree (by simp)
        · rw [hdom] at hval
          exact absurd hval (by simp)
  obtain ⟨hlt, hwide⟩ := hok.range v lo hi hdom
  obtain ⟨hmid, hmid'⟩ := floorDiv_pos (a := lo + hi) (b := 2) (by norm_num)
  generalize floorDiv (lo + hi) 2 = mid at h hmid hmid'
  have hnarrower : ∀ w ∈ [(lo, mid), (mid + 1, hi)], w.2 - w.1 < (p : ℤ) := by
    intro w hw
    rcases List.mem_cons.mp hw with rfl | hw
    · show mid - lo < p
      omega
    · rw [List.mem_singleton.mp hw]
      show hi - (mid + 1) < p
      omega
  have hin : ∀ w ∈ [(lo, mid), (mid + 1, hi)], ∀ r, narrow rows fuel st v w.1 w.2 = .ok r →
      r.2 = true → ∀ x, r.1.Respects x → Window p w.1 w.2 (x v) := by
    intro w hw r hnarrow hr x hx
    rcases List.mem_cons.mp hw with rfl | hw
    · exact narrow_range hok hal hdom le_rfl (by omega) (by omega) hnarrow hr hx
    · rw [List.mem_singleton.mp hw] at hnarrow ⊢
      exact narrow_range hok hal hdom (by omega) (by omega) le_rfl hnarrow hr hx
  have hdisj : [(lo, mid), (mid + 1, hi)].Pairwise fun w w' =>
      ∀ y : ZMod p, Window p w.1 w.2 y → ¬ Window p w'.1 w'.2 y :=
    List.pairwise_pair.mpr (windows_disjoint (lt_add_one mid) hwide)
  obtain ⟨hr, hexp⟩ := branches_spec hok hs hempty hal hsearch hnarrower hin hdisj h
  refine ⟨hr, hexp.widen (fun x hx => hx.1) fun _ _ x hx => ⟨hx, ?_⟩⟩
  have hmem := hx.1.dom v
  rw [hdom] at hmem
  obtain ⟨z, hlo, hhi, hz⟩ := hmem
  by_cases hzm : z ≤ mid
  · exact ⟨_, List.mem_cons_self, z, hlo, hzm, hz⟩
  · exact ⟨_, List.mem_cons_of_mem _ (List.mem_singleton_self _), z, by omega, hhi, hz⟩

/-- Sampling finds solutions, but not all of them. -/
lemma sample_spec (hok : st.Ok) (hs : Settled rows st) (hempty : st.queue = [])
    (hsearch : ∀ st₁ t r, st₁.Ok → Settled rows st₁ → search st₁ t = .ok r →
      Searched rows project st₁ t r)
    (hdom : st.dom v = .free) (hal : st.aliasOf v = none) (hinc : t.incomplete ≠ none)
    (h : branches rows fuel search v [(0, 0), (1, 1)] st t = .ok r) :
    r.1 = st ∧ Explored project (fun x => st.Respects x ∧ Sat rows x) t r.2 := by
  have hp : 1 < p := (Fact.out : p.Prime).one_lt
  have hnarrower : ∀ w ∈ ([(0, 0), (1, 1)] : List (ℤ × ℤ)), w.2 - w.1 < (p : ℤ) := by
    simp only [List.mem_cons, List.not_mem_nil, or_false, forall_eq_or_imp, forall_eq]
    omega
  have hin : ∀ w ∈ ([(0, 0), (1, 1)] : List (ℤ × ℤ)), ∀ r,
      narrow rows fuel st v w.1 w.2 = .ok r → r.2 = true →
      ∀ x, r.1.Respects x → Window p w.1 w.2 (x v) :=
    fun w hw r hnarrow hr x hx => narrow_free hok hal hdom (hnarrower w hw) hnarrow hr hx
  have hdisj : ([(0, 0), (1, 1)] : List (ℤ × ℤ)).Pairwise fun w w' =>
      ∀ y : ZMod p, Window p w.1 w.2 y → ¬ Window p w'.1 w'.2 y :=
    List.pairwise_pair.mpr (windows_disjoint zero_lt_one (by omega))
  obtain ⟨hr, hexp⟩ := branches_spec hok hs hempty hal hsearch hnarrower hin hdisj h
  exact ⟨hr, hexp.widen (fun x hx => hx.1) fun _ hi => absurd hi (hexp.incomplete hinc)⟩

end Split

/-- **The search finds every solution**, unless it stops early or only samples, and it records
nothing else, and nothing twice. -/
theorem dfs_spec {st : State p n m} {t : Tally p} {r : State p n m × Tally p} (hok : st.Ok)
    (hs : Settled rows st) (h : dfs rows budget project name fuel st t = .ok r) :
    Searched rows project st t r := by
  induction fuel generalizing st t r with
  | zero => exact absurd h (by simp [dfs])
  | succ fuel ih =>
      rw [dfs] at h
      split_ifs at h with hd
      · obtain rfl := Except.ok.inj h
        exact ⟨.refl st, hok.queue, .nothing rfl (fun h => h) fun hd' =>
          absurd (hd.symm.trans hd') (by simp)⟩
      dsimp only at h
      split_ifs at h with hbudget
      · obtain rfl := Except.ok.inj h
        refine ⟨.refl st, hok.queue, .nothing rfl (fun h => h) fun hd' => ?_⟩
        exact absurd hd' (by simp [Tally.done])
      obtain ⟨⟨st₁, ok⟩, hprop, hcont⟩ := Outcome.bind_eq_ok.mp h
      have hp := propagate_spec hok hs hprop
      cases ok with
      | false =>
          obtain rfl := Except.ok.inj hcont
          exact ⟨hp.undoes, hp.ok.queue, .nothing rfl (fun h => h) fun _ _ x hx =>
            hp.conflict rfl x hx.1 hx.2⟩
      | true =>
          have hempty : st₁.queue = [] := hp.queue rfl
          have hs₁ : Settled rows st₁ := hp.settled rfl
          -- what is found below the propagated state is what is found below `st`
          have hfinish : ∀ t₁ : Tally p, t₁.toFound = t.toFound →
              (t.incomplete ≠ none → t₁.incomplete ≠ none) → r.1 = st₁ →
              Explored project (fun x => st₁.Respects x ∧ Sat rows x) t₁ r.2 →
              Searched rows project st t r := by
            intro t₁ hfound hinc hr hexp
            refine ⟨by rw [hr]; exact hp.undoes, by rw [hr]; exact hp.ok.queue, ?_⟩
            have hwide : Explored project (fun x => st.Respects x ∧ Sat rows x) t₁ r.2 :=
              hexp.widen (fun x hx => ⟨hp.refines x hx.1, hx.2⟩)
                fun _ _ x hx => ⟨hp.sound rfl x hx.1 hx.2, hx.2⟩
            exact ⟨by rw [← hfound]; exact hwide.solutions, fun h => hwide.incomplete (hinc h),
              by rw [← hfound]; exact hwide.bounded⟩
          have hsearch : ∀ st₂ t₂ r₂, st₂.Ok → Settled rows st₂ →
              dfs rows budget project name fuel st₂ t₂ = .ok r₂ →
              Searched rows project st₂ t₂ r₂ := fun st₂ t₂ r₂ h₁ h₂ h₃ => ih h₁ h₂ h₃
          rw [if_neg (by simp)] at hcont
          cases hpick : pick st₁.toFacts with
          | mk split sample =>
          rw [hpick] at hcont
          match split, sample, hpick with
          | some (v, w), _, _ =>
              dsimp only at hcont
              cases hdom : st₁.dom v with
              | val y => rw [hdom] at hcont; exact absurd hcont (by simp)
              | free => rw [hdom] at hcont; exact absurd hcont (by simp)
              | range lo hi =>
                  rw [hdom] at hcont
                  have hsplit := split_spec hp.ok hs₁ hempty hsearch hdom hcont
                  exact hfinish { t with nodes := t.nodes + 1 } rfl (fun h => h) hsplit.1 hsplit.2
          | none, some v, hpick =>
              obtain ⟨-, hsample, -⟩ := pick_spec st₁.toFacts
              obtain ⟨hfree, hal⟩ := hsample v (by rw [hpick])
              have hsampled := sample_spec hp.ok hs₁ hempty hsearch hfree hal (by simp) hcont
              exact hfinish { t with
                nodes := t.nodes + 1
                incomplete := some ("no finite domain for `" ++ name v ++ "`") }
                rfl (fun _ => by simp) hsampled.1 hsampled.2
          | none, none, hpick =>
              obtain ⟨vals, hvals, hcont⟩ := Outcome.bind_eq_ok.mp hcont
              obtain ⟨found, hfound, hcont⟩ := Outcome.bind_eq_ok.mp hcont
              obtain rfl := Except.ok.inj hcont
              have hdone : t.done = false := by simpa using hd
              exact hfinish { t with nodes := t.nodes + 1 } rfl (fun h => h) rfl
                (leaf_spec hp.ok hs₁ hempty hpick hdone hvals hfound)

end Dfs

end Field

end XarkCircuit.Search
