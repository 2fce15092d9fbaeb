import XarkCircuit.Search.State
import Mathlib.Logic.Relation

/-!
What the moves of the search do to its facts.

* `Facts.Respects x`: the assignment `x` agrees with everything the facts say.
* `Facts.Open v`: following aliases from `v` ends at a variable without a value.
* `Facts.Ok` and `State.Ok` are the invariants of the state: windows are proper and narrower than
  `p`, aliases and dependents mirror each other, an aliased variable has a value only through its
  alias, and what is queued is in the queue.
* `Advance` is what every move keeps: the invariants, that the trail leads back, that no
  assignment is gained, and that the rows of a variable that is no longer open are queued.
* `setDom_spec`, `setAlias_advance`, `assign_spec` and `narrow_spec` say it of each move, together
  with the assignments that a move keeps (`Deduces`).
-/

namespace XarkCircuit.Search

variable {p n m : ℕ}

/-! ### The meaning of the facts -/

/-- `x` is in the domain. -/
def Dom.Mem : Dom p → ZMod p → Prop
  | .val y, x => x = y
  | .range lo hi, x => Window p lo hi x
  | .free, _ => True

namespace Facts

/-- `x` agrees with the facts. -/
structure Respects (f : Facts p n) (x : Fin n → ZMod p) : Prop where
  dom : ∀ v, (f.dom v).Mem (x v)
  aliasOf : ∀ v u a b, f.aliasOf v = some (u, a, b) → x v = a * x u + b

/-- Following aliases leads from `v` to `u`. -/
def Leads (f : Facts p n) : Fin n → Fin n → Prop :=
  Relation.ReflTransGen fun v u => ∃ a b, f.aliasOf v = some (u, a, b)

/-- Following aliases from `v` ends at a variable without a value. -/
def Open (f : Facts p n) (v : Fin n) : Prop :=
  ∃ u, f.Leads v u ∧ f.aliasOf u = none ∧ ∀ x, f.dom u ≠ .val x

/-- The invariants of the facts. -/
structure Ok (f : Facts p n) : Prop where
  range : ∀ v lo hi, f.dom v = .range lo hi → lo < hi ∧ hi - lo < p
  mem_deps : ∀ v u a b, f.aliasOf v = some (u, a, b) → v ∈ f.deps u
  aliased : ∀ v u, v ∈ f.deps u → ∃ a b, f.aliasOf v = some (u, a, b)
  dom_aliased : ∀ v u a b, f.aliasOf v = some (u, a, b) →
    f.dom v = .free ∨ ∃ y, f.dom u = .val y ∧ f.dom v = .val (a * y + b)

lemma Leads.of_aliasOf_eq {f g : Facts p n} (h : g.aliasOf = f.aliasOf) {v u : Fin n}
    (hl : f.Leads v u) : g.Leads v u := by rwa [Leads, h]

end Facts

/-- The facts, and what is queued is in the queue. -/
structure State.Ok (st : State p n m) : Prop extends st.toFacts.Ok where
  queue : ∀ ci, st.queued ci = true → ci ∈ st.queue

/-- Taking back what the trail of `st'` has over that of `st` leads back to the facts of `st`. -/
def Undoes (st st' : State p n m) : Prop :=
  ∃ ext, st'.trail = ext ++ st.trail ∧ ext.foldl Trail.undo st'.toFacts = st.toFacts

lemma Undoes.refl (st : State p n m) : Undoes st st := ⟨[], rfl, rfl⟩

lemma Undoes.trans {st₁ st₂ st₃ : State p n m} (h₁ : Undoes st₁ st₂) (h₂ : Undoes st₂ st₃) :
    Undoes st₁ st₃ := by
  obtain ⟨ext₁, ht₁, hf₁⟩ := h₁
  obtain ⟨ext₂, ht₂, hf₂⟩ := h₂
  exact ⟨ext₂ ++ ext₁, by rw [ht₂, ht₁, List.append_assoc], by rw [List.foldl_append, hf₂, hf₁]⟩

/-! ### Queueing rows -/

/-- Nothing changed but that more rows are queued. -/
structure Requeued (st st' : State p n m) : Prop where
  facts : st'.toFacts = st.toFacts
  trail : st'.trail = st.trail
  queued : ∀ ci, st.queued ci = true → st'.queued ci = true
  queue : (∀ ci, st.queued ci = true → ci ∈ st.queue) → ∀ ci, st'.queued ci = true → ci ∈ st'.queue

lemma Requeued.refl (st : State p n m) : Requeued st st := ⟨rfl, rfl, fun _ h => h, fun h => h⟩

lemma Requeued.trans {st₁ st₂ st₃ : State p n m} (h₁ : Requeued st₁ st₂)
    (h₂ : Requeued st₂ st₃) : Requeued st₁ st₃ :=
  ⟨h₂.facts.trans h₁.facts, h₂.trail.trans h₁.trail, fun ci h => h₂.queued ci (h₁.queued ci h),
    fun h => h₂.queue (h₁.queue h)⟩

lemma Requeued.undoes {st st' : State p n m} (h : Requeued st st') : Undoes st st' :=
  ⟨[], h.trail, h.facts⟩

lemma requeued_enqueue (st : State p n m) (ci : Fin m) : Requeued st (enqueue st ci) := by
  rw [enqueue]
  split_ifs with h
  · exact .refl st
  · refine ⟨rfl, rfl, fun cj hcj => ?_, fun hq cj => ?_⟩
    · by_cases hc : cj = ci
      · simp [hc]
      · simpa [hc] using hcj
    · by_cases hc : cj = ci
      · simp [hc]
      · simpa [hc] using hq cj

lemma queued_enqueue (st : State p n m) (ci : Fin m) : (enqueue st ci).queued ci = true := by
  rw [enqueue]
  split_ifs with h
  · exact h
  · exact Function.update_self ci true st.queued

lemma requeued_foldl (st : State p n m) (cis : List (Fin m)) :
    Requeued st (cis.foldl enqueue st) ∧ ∀ ci ∈ cis, (cis.foldl enqueue st).queued ci = true := by
  induction cis generalizing st with
  | nil => exact ⟨.refl st, by simp⟩
  | cons ci cis ih =>
      obtain ⟨hre, hq⟩ := ih (enqueue st ci)
      refine ⟨(requeued_enqueue st ci).trans hre, fun cj hcj => ?_⟩
      rcases List.mem_cons.mp hcj with rfl | hcj
      · exact hre.queued _ (queued_enqueue st cj)
      · exact hq cj hcj

variable {rows : Fin m → Row p n}

lemma mem_varCons {v : Fin n} {ci : Fin m} : ci ∈ varCons rows v ↔ v ∈ (rows ci).vars := by
  simp [varCons]

/-- **Touching** a variable queues its rows and those of everything that leads to it. -/
theorem touch_spec {fuel : ℕ} {st st' : State p n m} {v : Fin n}
    (hmem : ∀ w u a b, st.aliasOf w = some (u, a, b) → w ∈ st.deps u)
    (h : touch rows fuel st v = .ok st') :
    Requeued st st' ∧
      ∀ w, st.Leads w v → ∀ ci ∈ varCons rows w, st'.queued ci = true := by
  induction fuel generalizing st st' v with
  | zero => exact absurd h (by simp [touch])
  | succ fuel ih =>
      rw [touch] at h
      obtain ⟨hrows, hq⟩ := requeued_foldl st (varCons rows v)
      have hsame : ∀ st₁ d st₂, d ∈ st.deps v →
          Requeued ((varCons rows v).foldl enqueue st) st₁ → touch rows fuel st₁ d = .ok st₂ →
          Requeued st₁ st₂ := by
        intro st₁ d st₂ _ h₁ htouch
        refine (ih ?_ htouch).1
        rw [(hrows.trans h₁).facts]
        exact hmem
      obtain ⟨hre, hturn⟩ := Outcome.foldlM_rel Requeued.refl Requeued.trans hsame h
      refine ⟨hrows.trans hre, fun w hw ci hci => ?_⟩
      -- the last alias on the way from `w` is that of a dependent of `v`
      rcases Relation.ReflTransGen.cases_tail hw with rfl | ⟨d, hwd, a, b, hd⟩
      · exact hre.queued ci (hq ci hci)
      · obtain ⟨st₁, st₂, h₁, htouch, h₂⟩ := hturn d (hmem d v a b hd)
        have hfacts : st₁.toFacts = st.toFacts := (hrows.trans h₁).facts
        refine h₂.queued ci ((ih ?_ htouch).2 w ?_ ci hci)
        · rw [hfacts]
          exact hmem
        · rw [hfacts]
          exact hwd

/-! ### Passing a value on -/

/-- Only variables without a domain got one: a value, through their alias. -/
structure Passes (st st' : State p n m) : Prop where
  aliasOf : st'.aliasOf = st.aliasOf
  deps : st'.deps = st.deps
  dom : ∀ v, st'.dom v = st.dom v ∨ st.dom v = .free ∧ ∃ u a b y,
    st.aliasOf v = some (u, a, b) ∧ st'.dom u = .val y ∧ st'.dom v = .val (a * y + b)
  sound : ∀ x, st.Respects x → st'.Respects x
  undoes : Undoes st st'
  queued : ∀ ci, st.queued ci = true → st'.queued ci = true
  queue : (∀ ci, st.queued ci = true → ci ∈ st.queue) → ∀ ci, st'.queued ci = true → ci ∈ st'.queue

lemma Passes.dom_eq {st st' : State p n m} (h : Passes st st') {v : Fin n}
    (hv : st.dom v ≠ .free) : st'.dom v = st.dom v :=
  (h.dom v).resolve_right fun hfree => hv hfree.1

lemma Passes.refl (st : State p n m) : Passes st st :=
  ⟨rfl, rfl, fun _ => Or.inl rfl, fun _ h => h, .refl st, fun _ h => h, fun h => h⟩

lemma Passes.trans {st₁ st₂ st₃ : State p n m} (h₁ : Passes st₁ st₂) (h₂ : Passes st₂ st₃) :
    Passes st₁ st₃ := by
  refine ⟨h₂.aliasOf.trans h₁.aliasOf, h₂.deps.trans h₁.deps, fun v => ?_,
    fun x hx => h₂.sound x (h₁.sound x hx), h₁.undoes.trans h₂.undoes,
    fun ci h => h₂.queued ci (h₁.queued ci h), fun h => h₂.queue (h₁.queue h)⟩
  rcases h₁.dom v with hv | ⟨hfree, u, a, b, y, hal, hu, hv⟩
  · rw [← hv, ← h₁.aliasOf]
    exact h₂.dom v
  · refine Or.inr ⟨hfree, u, a, b, y, hal, ?_, ?_⟩
    · rw [h₂.dom_eq (by rw [hu]; simp), hu]
    · rw [h₂.dom_eq (by rw [hv]; simp), hv]

lemma Requeued.passes {st st' : State p n m} (h : Requeued st st') : Passes st st' := by
  have hfacts := h.facts
  exact ⟨by rw [hfacts], by rw [hfacts], fun v => Or.inl (by rw [hfacts]),
    fun x hx => by rwa [hfacts], h.undoes, h.queued, h.queue⟩

/-- Passing values on keeps the invariants. -/
lemma Passes.ok {st st' : State p n m} (h : Passes st st') (hok : st.toFacts.Ok) :
    st'.toFacts.Ok where
  range v lo hi hv := by
    rcases h.dom v with hsame | ⟨-, u, a, b, y, -, -, hval⟩
    · exact hok.range v lo hi (hsame ▸ hv)
    · rw [hval] at hv
      exact absurd hv (by simp)
  mem_deps v u a b hv := by
    rw [h.aliasOf] at hv
    rw [h.deps]
    exact hok.mem_deps v u a b hv
  aliased v u hv := by
    rw [h.deps] at hv
    rw [h.aliasOf]
    exact hok.aliased v u hv
  dom_aliased v u a b hv := by
    rw [h.aliasOf] at hv
    rcases h.dom v with hsame | ⟨-, u', a', b', y, hal, hu, hval⟩
    · rcases hok.dom_aliased v u a b hv with hfree | ⟨y, hu, hy⟩
      · exact Or.inl (hsame.trans hfree)
      · exact Or.inr ⟨y, by rw [h.dom_eq (by rw [hu]; simp), hu], hsame.trans hy⟩
    · rw [hv, Option.some.injEq, Prod.mk.injEq, Prod.mk.injEq] at hal
      obtain ⟨rfl, rfl, rfl⟩ := hal
      exact Or.inr ⟨y, hu, hval⟩

/-- The state with the domain of `v` replaced. -/
def State.withDom (st : State p n m) (v : Fin n) (d : Dom p) : State p n m :=
  { st with
    dom := Function.update st.dom v d
    trail := .dom v (st.dom v) :: st.trail }

lemma withDom_self (st : State p n m) (v : Fin n) (d : Dom p) : (st.withDom v d).dom v = d := by
  simp [State.withDom]

lemma withDom_of_ne (st : State p n m) {v w : Fin n} (d : Dom p) (h : w ≠ v) :
    (st.withDom v d).dom w = st.dom w := by
  simp [State.withDom, h]

lemma undoes_withDom (st : State p n m) (v : Fin n) (d : Dom p) : Undoes st (st.withDom v d) := by
  refine ⟨[.dom v (st.dom v)], rfl, ?_⟩
  simp [State.withDom, Trail.undo]

/-- The loop at the end of `set`, over the dependents of `v`. -/
def passOn (rows : Fin m → Row p n) (fuel : ℕ) (x : ZMod p) (st : State p n m) (d : Fin n) :
    Outcome (State p n m) := do
  let (_, a, b) ← Outcome.orPanic (st.aliasOf d)
  match st.dom d with
  | .free => setDom rows fuel st d (.val (a * x + b))
  | _ => return st

lemma setDom_succ {fuel : ℕ} {st : State p n m} {v : Fin n} {d : Dom p} :
    setDom rows (fuel + 1) st v d = touch rows fuel (st.withDom v d) v >>= fun st =>
      match d with
      | .val x => (st.deps v).foldlM (passOn rows fuel x) st
      | _ => .ok st := rfl

/-- Setting a variable that is aliased to one with a value passes values on. -/
lemma setDom_passes {fuel : ℕ} {st st' : State p n m} {v u : Fin n} {a b y : ZMod p}
    (hok : st.toFacts.Ok) (hal : st.aliasOf v = some (u, a, b)) (hv : st.dom v = .free)
    (hu : st.dom u = .val y) (h : setDom rows fuel st v (.val (a * y + b)) = .ok st') :
    Passes st st' := by
  induction fuel generalizing st st' v u a b y with
  | zero => exact absurd h (by simp [setDom])
  | succ fuel ih =>
      rw [setDom_succ] at h
      obtain ⟨st₁, htouch, h⟩ := Outcome.bind_eq_ok.mp h
      have hne : u ≠ v := fun huv => by rw [huv, hv] at hu; exact absurd hu (by simp)
      have hself := withDom_self st v (.val (a * y + b))
      have hother : ∀ w ≠ v, (st.withDom v (.val (a * y + b))).dom w = st.dom w :=
        fun w hw => withDom_of_ne st _ hw
      have hset : Passes st (st.withDom v (.val (a * y + b))) := by
        refine ⟨rfl, rfl, fun w => ?_, fun x hx => ⟨fun w => ?_, hx.aliasOf⟩,
          undoes_withDom st v _, fun _ h => h, fun h => h⟩
        · by_cases hw : w = v
          · rw [hw]
            exact Or.inr ⟨hv, u, a, b, y, hal, by rw [hother u hne, hu], hself⟩
          · exact Or.inl (hother w hw)
        · by_cases hw : w = v
          · have hxu : x u = y := by simpa [hu, Dom.Mem] using hx.dom u
            rw [hw, hself]
            exact (hx.aliasOf v u a b hal).trans (by rw [hxu])
          · rw [hother w hw]
            exact hx.dom w
      have htouched : Passes (st.withDom v (.val (a * y + b))) st₁ :=
        (touch_spec (by exact hok.mem_deps) htouch).1.passes
      have hst₁ : Passes st st₁ := hset.trans htouched
      have hv₁ : st₁.dom v = .val (a * y + b) := by
        rw [htouched.dom_eq (by rw [hself]; simp), hself]
      refine hst₁.trans (Outcome.foldlM_rel Passes.refl Passes.trans ?_ h).1
      intro st₂ d st₃ hd h₂ hstep
      obtain ⟨a', b', hal'⟩ := hok.aliased d v (by rwa [hst₁.deps] at hd)
      have hal₂ : st₂.aliasOf d = some (v, a', b') := by rw [h₂.aliasOf, hst₁.aliasOf, hal']
      rw [passOn, hal₂, Outcome.orPanic_some, Outcome.ok_bind] at hstep
      cases hd₂ : st₂.dom d with
      | free =>
          rw [hd₂] at hstep
          refine ih ((hst₁.trans h₂).ok hok) hal₂ hd₂ ?_ hstep
          rw [h₂.dom_eq (by rw [hv₁]; simp), hv₁]
      | val x => rw [hd₂] at hstep; exact Except.ok.inj hstep ▸ .refl st₂
      | range lo hi => rw [hd₂] at hstep; exact Except.ok.inj hstep ▸ .refl st₂

/-! ### The moves -/

/-- What every move keeps. -/
structure Advance (rows : Fin m → Row p n) (st st' : State p n m) : Prop where
  ok : st'.Ok
  undoes : Undoes st st'
  refines : ∀ x, st'.Respects x → st.Respects x
  queued : ∀ ci, st.queued ci = true → st'.queued ci = true
  opens : ∀ v, st.Open v → st'.Open v ∨ ∀ ci ∈ varCons rows v, st'.queued ci = true

lemma Advance.refl {st : State p n m} (hok : st.Ok) : Advance rows st st :=
  ⟨hok, .refl st, fun _ h => h, fun _ h => h, fun _ h => Or.inl h⟩

lemma Advance.trans {st₁ st₂ st₃ : State p n m} (h₁ : Advance rows st₁ st₂)
    (h₂ : Advance rows st₂ st₃) : Advance rows st₁ st₃ := by
  refine ⟨h₂.ok, h₁.undoes.trans h₂.undoes, fun x h => h₁.refines x (h₂.refines x h),
    fun ci h => h₂.queued ci (h₁.queued ci h), fun v hv => ?_⟩
  rcases h₁.opens v hv with hv | hq
  · exact h₂.opens v hv
  · exact Or.inr fun ci hci => h₂.queued ci (hq ci hci)

/-- A domain with fewer than `p` integers, more than one. -/
def Dom.Proper (d : Dom p) : Prop := ∀ lo hi, d = .range lo hi → lo < hi ∧ hi - lo < p

/-- A variable without alias and value may get any domain. -/
lemma withDom_ok {st : State p n m} (hok : st.toFacts.Ok) {v : Fin n} {d : Dom p}
    (hal : st.aliasOf v = none) (hv : ∀ x, st.dom v ≠ .val x) (hd : d.Proper) :
    (st.withDom v d).toFacts.Ok where
  range w lo hi hw := by
    by_cases hwv : w = v
    · rw [hwv, withDom_self] at hw
      exact hd lo hi hw
    · rw [withDom_of_ne st d hwv] at hw
      exact hok.range w lo hi hw
  mem_deps := hok.mem_deps
  aliased := hok.aliased
  dom_aliased w u a b hw := by
    have hw' : st.aliasOf w = some (u, a, b) := hw
    have hwv : w ≠ v := fun h => by rw [h, hal] at hw'; exact absurd hw' (by simp)
    rw [withDom_of_ne st d hwv]
    rcases hok.dom_aliased w u a b hw with hfree | ⟨y, hu, hy⟩
    · exact Or.inl hfree
    · have huv : u ≠ v := fun h => hv y (h ▸ hu)
      exact Or.inr ⟨y, (withDom_of_ne st d huv).trans hu, hy⟩

/-- **Setting** a variable without alias and value: it gets the domain, what is aliased to it gets
its value, and the rows of all of them are queued. -/
theorem setDom_spec {fuel : ℕ} {st st' : State p n m} {v : Fin n} {d : Dom p} (hok : st.toFacts.Ok)
    (hal : st.aliasOf v = none) (hv : ∀ x, st.dom v ≠ .val x) (hd : d.Proper)
    (h : setDom rows fuel st v d = .ok st') :
    Passes (st.withDom v d) st' ∧
      ∀ w, st.Leads w v → ∀ ci ∈ varCons rows w, st'.queued ci = true := by
  cases fuel with
  | zero => exact absurd h (by simp [setDom])
  | succ fuel =>
      rw [setDom_succ] at h
      obtain ⟨st₁, htouch, h⟩ := Outcome.bind_eq_ok.mp h
      have hokd : (st.withDom v d).toFacts.Ok := withDom_ok hok hal hv hd
      obtain ⟨hre, hq⟩ := touch_spec hokd.mem_deps htouch
      have hpass : Passes st₁ st' := by
        cases d with
        | free => exact Except.ok.inj h ▸ .refl st₁
        | range lo hi => exact Except.ok.inj h ▸ .refl st₁
        | val x =>
            refine (Outcome.foldlM_rel Passes.refl Passes.trans ?_ h).1
            intro st₂ e st₃ he h₂ hstep
            have hst₂ := hre.passes.trans h₂
            obtain ⟨a, b, hale⟩ := hok.aliased e v (by rwa [hre.passes.deps] at he)
            have hal₂ : st₂.aliasOf e = some (v, a, b) := by rw [hst₂.aliasOf]; exact hale
            have hself := withDom_self st v (.val x)
            rw [passOn, hal₂, Outcome.orPanic_some, Outcome.ok_bind] at hstep
            cases he₂ : st₂.dom e with
            | free =>
                rw [he₂] at hstep
                refine setDom_passes (hst₂.ok hokd) hal₂ he₂ ?_ hstep
                rw [hst₂.dom_eq (by rw [hself]; simp), hself]
            | val y => rw [he₂] at hstep; exact Except.ok.inj hstep ▸ .refl st₂
            | range lo hi => rw [he₂] at hstep; exact Except.ok.inj hstep ▸ .refl st₂
      exact ⟨hre.passes.trans hpass, fun w hw ci hci => hpass.queued ci (hq w hw ci hci)⟩

section SetDom

variable {fuel : ℕ} {st st' : State p n m} {v : Fin n} {d : Dom p}

/-- A variable without alias gets its domain only directly. -/
lemma setDom_dom (hok : st.toFacts.Ok) (hal : st.aliasOf v = none) (hv : ∀ x, st.dom v ≠ .val x)
    (hd : d.Proper) (h : setDom rows fuel st v d = .ok st') {w : Fin n}
    (hw : st.aliasOf w = none) : st'.dom w = (st.withDom v d).dom w := by
  rcases (setDom_spec hok hal hv hd h).1.dom w with hsame | ⟨-, u, a, b, y, hal', -⟩
  · exact hsame
  · exact absurd (hw.symm.trans hal') (by simp)

lemma setDom_aliasOf (hok : st.toFacts.Ok) (hal : st.aliasOf v = none)
    (hv : ∀ x, st.dom v ≠ .val x) (hd : d.Proper) (h : setDom rows fuel st v d = .ok st') :
    st'.aliasOf = st.aliasOf := (setDom_spec hok hal hv hd h).1.aliasOf

/-- Setting a variable to a part of its domain is a move. -/
lemma setDom_advance (hok : st.Ok) (hal : st.aliasOf v = none) (hv : ∀ x, st.dom v ≠ .val x)
    (hd : d.Proper) (hsub : ∀ y, d.Mem y → (st.dom v).Mem y)
    (h : setDom rows fuel st v d = .ok st') : Advance rows st st' := by
  obtain ⟨hpass, hq⟩ := setDom_spec hok.toOk hal hv hd h
  have hdom : ∀ w, st.aliasOf w = none → st'.dom w = (st.withDom v d).dom w :=
    fun w hw => setDom_dom hok.toOk hal hv hd h hw
  refine ⟨⟨hpass.ok (withDom_ok hok.toOk hal hv hd), hpass.queue hok.queue⟩,
    (undoes_withDom st v d).trans hpass.undoes, fun x hx => ⟨fun w => ?_, fun w u a b hw => ?_⟩,
    hpass.queued, ?_⟩
  · by_cases hwv : w = v
    · rw [hwv]
      refine hsub _ ?_
      rw [← withDom_self st v d, ← hdom v hal]
      exact hx.dom v
    · have hsame := withDom_of_ne st d hwv
      rcases hpass.dom w with hw | ⟨hfree, -⟩
      · rw [← hsame, ← hw]
        exact hx.dom w
      · rw [← hsame, hfree]
        trivial
  · exact hx.aliasOf w u a b (by rw [hpass.aliasOf]; exact hw)
  · rintro w ⟨u, hwu, hu, hopen⟩
    by_cases huv : u = v
    · exact Or.inr (hq w (huv ▸ hwu))
    · refine Or.inl ⟨u, hwu.of_aliasOf_eq hpass.aliasOf, by rw [hpass.aliasOf]; exact hu,
        fun x => ?_⟩
      rw [hdom u hu, withDom_of_ne st d huv]
      exact hopen x

/-- Setting a variable keeps the assignments in its new domain. -/
lemma setDom_sound (hok : st.toFacts.Ok) (hal : st.aliasOf v = none)
    (hv : ∀ x, st.dom v ≠ .val x) (hd : d.Proper) (h : setDom rows fuel st v d = .ok st')
    {x : Fin n → ZMod p} (hx : st.Respects x) (hxv : d.Mem (x v)) : st'.Respects x := by
  refine (setDom_spec hok hal hv hd h).1.sound x ⟨fun w => ?_, hx.aliasOf⟩
  by_cases hwv : w = v
  · rw [hwv, withDom_self]
    exact hxv
  · rw [withDom_of_ne st d hwv]
    exact hx.dom w

end SetDom

/-! ### Aliases -/

/-- The state with `v = a · u + b`. -/
def State.withAlias (st : State p n m) (v u : Fin n) (a b : ZMod p) : State p n m :=
  { st with
    aliasOf := Function.update st.aliasOf v (some (u, a, b))
    deps := Function.update st.deps u (st.deps u ++ [v])
    trail := .aliased v u :: st.trail }

section SetAlias

variable {fuel : ℕ} {st st' : State p n m} {v u : Fin n} {a b : ZMod p}

lemma withAlias_self : (st.withAlias v u a b).aliasOf v = some (u, a, b) := by
  simp [State.withAlias]

lemma withAlias_of_ne {w : Fin n} (h : w ≠ v) :
    (st.withAlias v u a b).aliasOf w = st.aliasOf w := by
  simp [State.withAlias, h]

lemma mem_withAlias_deps {w r : Fin n} :
    w ∈ (st.withAlias v u a b).deps r ↔ w ∈ st.deps r ∨ r = u ∧ w = v := by
  by_cases hr : r = u
  · simp [State.withAlias, hr]
  · simp [State.withAlias, hr]

/-- An unknown without alias may be aliased. -/
lemma withAlias_ok (hok : st.toFacts.Ok) (hal : st.aliasOf v = none) (hv : st.dom v = .free) :
    (st.withAlias v u a b).toFacts.Ok where
  range := hok.range
  mem_deps w r c d hw := by
    rw [mem_withAlias_deps]
    by_cases hwv : w = v
    · rw [hwv, withAlias_self, Option.some.injEq, Prod.mk.injEq] at hw
      exact Or.inr ⟨hw.1.symm, hwv⟩
    · rw [withAlias_of_ne hwv] at hw
      exact Or.inl (hok.mem_deps w r c d hw)
  aliased w r hw := by
    rcases mem_withAlias_deps.mp hw with hw | ⟨rfl, rfl⟩
    · obtain ⟨c, d, hcd⟩ := hok.aliased w r hw
      have hwv : w ≠ v := fun h => by rw [h, hal] at hcd; exact absurd hcd (by simp)
      exact ⟨c, d, (withAlias_of_ne hwv).trans hcd⟩
    · exact ⟨a, b, withAlias_self⟩
  dom_aliased w r c d hw := by
    by_cases hwv : w = v
    · exact Or.inl (hwv ▸ hv)
    · rw [withAlias_of_ne hwv] at hw
      exact hok.dom_aliased w r c d hw

lemma undoes_withAlias (hal : st.aliasOf v = none) : Undoes st (st.withAlias v u a b) := by
  refine ⟨[.aliased v u], rfl, ?_⟩
  have hnone : Function.update st.aliasOf v none = st.aliasOf := by
    rw [← hal, Function.update_eq_self]
  simp [State.withAlias, Trail.undo, hnone]

/-- The old ways are still there. -/
lemma Facts.Leads.withAlias (hal : st.aliasOf v = none) {w r : Fin n} (h : st.Leads w r) :
    (st.withAlias v u a b).Leads w r := by
  induction h with
  | refl => exact .refl
  | @tail w₁ w₂ _ hstep ih =>
      obtain ⟨c, d, hcd⟩ := hstep
      have hne : w₁ ≠ v := fun h => by rw [h, hal] at hcd; exact absurd hcd (by simp)
      exact ih.tail ⟨c, d, (withAlias_of_ne hne).trans hcd⟩

/-- Aliasing an unknown to another one is a move. -/
lemma setAlias_advance (hok : st.Ok) (hal : st.aliasOf v = none) (hv : st.dom v = .free)
    (hu : st.aliasOf u = none) (hopen : ∀ x, st.dom u ≠ .val x) (huv : u ≠ v)
    (h : setAlias rows fuel st v u a b = .ok st') : Advance rows st st' := by
  have hok' : (st.withAlias v u a b).toFacts.Ok := withAlias_ok hok.toOk hal hv
  have hre : Requeued (st.withAlias v u a b) st' := (touch_spec hok'.mem_deps h).1
  refine ⟨⟨hre.passes.ok hok', hre.queue hok.queue⟩,
    (undoes_withAlias hal).trans hre.undoes, fun x hx => ?_, hre.queued, ?_⟩
  · rw [hre.facts] at hx
    refine ⟨hx.dom, fun w r c d hw => hx.aliasOf w r c d ?_⟩
    have hne : w ≠ v := fun h => by rw [h, hal] at hw; exact absurd hw (by simp)
    exact (withAlias_of_ne hne).trans hw
  · rintro w ⟨r, hwr, hr, hopenr⟩
    refine Or.inl ?_
    rw [hre.facts]
    by_cases hrv : r = v
    · exact ⟨u, (hrv ▸ hwr.withAlias hal).tail ⟨a, b, withAlias_self⟩,
        (withAlias_of_ne huv).trans hu, hopen⟩
    · exact ⟨r, hwr.withAlias hal, (withAlias_of_ne hrv).trans hr, hopenr⟩

lemma setAlias_sound (hok : st.toFacts.Ok) (hal : st.aliasOf v = none) (hv : st.dom v = .free)
    (h : setAlias rows fuel st v u a b = .ok st') {x : Fin n → ZMod p} (hx : st.Respects x)
    (hxv : x v = a * x u + b) : st'.Respects x := by
  have hok' : (st.withAlias v u a b).toFacts.Ok := withAlias_ok hok hal hv
  rw [(touch_spec hok'.mem_deps h).1.facts]
  refine ⟨hx.dom, fun w r c d hw => ?_⟩
  by_cases hwv : w = v
  · rw [hwv, withAlias_self, Option.some.injEq, Prod.mk.injEq, Prod.mk.injEq] at hw
    obtain ⟨rfl, rfl, rfl⟩ := hw
    exact hwv ▸ hxv
  · rw [withAlias_of_ne hwv] at hw
    exact hx.aliasOf w r c d hw

end SetAlias

/-! ### Deductions -/

/-- What a step may conclude from `P`, with `true` for no conflict. -/
structure Deduces (rows : Fin m → Row p n) (st : State p n m) (P : (Fin n → ZMod p) → Prop)
    (r : State p n m × Bool) : Prop where
  advance : Advance rows st r.1
  sound : r.2 = true → ∀ x, st.Respects x → P x → r.1.Respects x
  conflict : r.2 = false → ∀ x, st.Respects x → ¬ P x

section Deduces

variable {st : State p n m} {P Q : (Fin n → ZMod p) → Prop}

/-- Nothing is concluded. -/
lemma Deduces.pass (hok : st.Ok) : Deduces rows st P (st, true) :=
  ⟨.refl hok, fun _ _ h _ => h, by simp⟩

/-- A conflict without a move. -/
lemma Deduces.fail (hok : st.Ok) (h : ∀ x, st.Respects x → ¬ P x) :
    Deduces rows st P (st, false) :=
  ⟨.refl hok, by simp, fun _ => h⟩

lemma Deduces.mono {r : State p n m × Bool} (h : Deduces rows st Q r)
    (hPQ : ∀ x, st.Respects x → P x → Q x) : Deduces rows st P r :=
  ⟨h.advance, fun hr x hx hP => h.sound hr x hx (hPQ x hx hP),
    fun hr x hx hP => h.conflict hr x hx (hPQ x hx hP)⟩

/-- A conclusion after another. -/
lemma Deduces.andThen {st' : State p n m} {r : State p n m × Bool}
    (h : Deduces rows st P (st', true)) (h' : Deduces rows st' P r) : Deduces rows st P r :=
  ⟨h.advance.trans h'.advance, fun hr x hx hP => h'.sound hr x (h.sound rfl x hx hP) hP,
    fun hr x hx hP => h'.conflict hr x (h.sound rfl x hx hP) hP⟩

end Deduces

/-- The facts after a move that set at most `v`, for the variables without alias. -/
def Frame (v : Fin n) (st st' : State p n m) : Prop :=
  st'.aliasOf = st.aliasOf ∧ ∀ w ≠ v, st.aliasOf w = none → st'.dom w = st.dom w

section Narrow

variable [NeZero p] {fuel : ℕ} {st : State p n m} {v : Fin n} {r : State p n m × Bool}

@[simp] lemma fp_eq (z : ℤ) : fp p z = z := cast_wrap (Nat.pos_of_ne_zero (NeZero.ne p)) z

omit [NeZero p] in
/-- Setting a variable, as the end of a step. -/
lemma deduces_setDom {d : Dom p} {P : (Fin n → ZMod p) → Prop} (hok : st.Ok)
    (hal : st.aliasOf v = none) (hv : ∀ x, st.dom v ≠ .val x) (hd : d.Proper)
    (hsub : ∀ y, d.Mem y → (st.dom v).Mem y) (hP : ∀ x, st.Respects x → P x → d.Mem (x v))
    (h : (·, true) <$> setDom rows fuel st v d = .ok r) : Deduces rows st P r := by
  obtain ⟨st', hset, rfl⟩ := Outcome.map_eq_ok.mp h
  exact ⟨setDom_advance hok hal hv hd hsub hset,
    fun _ x hx hPx => setDom_sound hok.toOk hal hv hd hset hx (hP x hx hPx), by simp⟩

/-- `assign` concludes from `v = x`. -/
theorem assign_spec {y : ZMod p} (hok : st.Ok) (hal : st.aliasOf v = none)
    (h : assign rows fuel st v y = .ok r) : Deduces rows st (fun x => x v = y) r := by
  unfold assign at h
  cases hdom : st.dom v with
  | val y' =>
      rw [hdom] at h
      obtain rfl := Except.ok.inj h
      have hval : ∀ x, st.Respects x → x v = y' := fun x hx => by
        simpa [hdom, Dom.Mem] using hx.dom v
      by_cases hy : y' = y
      · rw [decide_eq_true hy]
        exact .pass hok
      · rw [decide_eq_false hy]
        exact .fail hok fun x hx hxv => hy ((hval x hx).symm.trans hxv)
  | range lo hi =>
      rw [hdom] at h
      dsimp only at h
      split_ifs at h with hc
      · refine deduces_setDom (d := .val y) hok hal (by simp [hdom])
          (fun lo hi h => absurd h (by simp)) ?_ (fun x _ hxv => hxv) h
        rintro z rfl
        rw [hdom]
        exact contains_iff.mp hc
      · obtain rfl := Except.ok.inj h
        refine .fail hok fun x hx hxv => hc ?_
        have hmem := hx.dom v
        rw [hdom, hxv] at hmem
        exact contains_iff.mpr hmem
  | free =>
      rw [hdom] at h
      exact deduces_setDom (d := .val y) hok hal (by simp [hdom])
        (fun lo hi h => absurd h (by simp)) (fun z _ => by rw [hdom]; trivial)
        (fun x _ hxv => hxv) h

/-- `setRange` concludes from `v` being one of `lo, …, hi`, which then holds. -/
lemma setRange_spec {lo hi : ℤ} (hok : st.Ok) (hal : st.aliasOf v = none)
    (hv : ∀ x, st.dom v ≠ .val x) (hlt : hi - lo < p)
    (hsub : ∀ y, Window p lo hi y → (st.dom v).Mem y)
    (h : setRange rows fuel st v lo hi = .ok r) :
    Deduces rows st (fun x => Window p lo hi (x v)) r ∧ Frame v st r.1 ∧
      (r.2 = true → ∀ x, r.1.Respects x → Window p lo hi (x v)) := by
  have hset : ∀ d : Dom p, d.Proper → (∀ y, d.Mem y ↔ Window p lo hi y) →
      (·, true) <$> setDom rows fuel st v d = .ok r →
      Deduces rows st (fun x => Window p lo hi (x v)) r ∧ Frame v st r.1 ∧
        (r.2 = true → ∀ x, r.1.Respects x → Window p lo hi (x v)) := by
    intro d hd hmem hmap
    refine ⟨deduces_setDom hok hal hv hd (fun y hy => hsub y ((hmem y).mp hy))
      (fun x _ hx => (hmem _).mpr hx) hmap, ?_⟩
    obtain ⟨st', hset, rfl⟩ := Outcome.map_eq_ok.mp hmap
    refine ⟨⟨setDom_aliasOf hok.toOk hal hv hd hset, fun w hw hwal => ?_⟩, fun _ x hx => ?_⟩
    · rw [setDom_dom hok.toOk hal hv hd hset hwal, withDom_of_ne st d hw]
    · have hxv := hx.dom v
      rw [setDom_dom hok.toOk hal hv hd hset hal, withDom_self] at hxv
      exact (hmem _).mp hxv
  unfold setRange at h
  split_ifs at h with hempty hone
  · obtain rfl := Except.ok.inj h
    refine ⟨.fail hok fun x _ hx => ?_, ⟨rfl, fun _ _ _ => rfl⟩, by simp⟩
    obtain ⟨z, hlo, hhi, -⟩ := hx
    omega
  · refine hset _ (fun lo hi h => absurd h (by simp)) (fun y => ?_) h
    subst hone
    rw [Dom.Mem, fp_eq, window_self]
  · refine hset _ (fun l k hlk => ?_) (fun y => Iff.rfl) h
    obtain ⟨rfl, rfl⟩ := Dom.range.inj hlk
    omega

/-- **Narrowing** concludes from `v` being one of `lo, …, hi`, and sets no other variable without
alias. -/
theorem narrow_spec {lo hi : ℤ} (hok : st.Ok) (hal : st.aliasOf v = none) (hlt : hi - lo < p)
    (h : narrow rows fuel st v lo hi = .ok r) :
    Deduces rows st (fun x => Window p lo hi (x v)) r ∧ Frame v st r.1 := by
  have hsame : Frame v st st := ⟨rfl, fun _ _ _ => rfl⟩
  unfold narrow at h
  cases hdom : st.dom v with
  | val y =>
      rw [hdom] at h
      obtain rfl := Except.ok.inj h
      refine ⟨?_, hsame⟩
      have hval : ∀ x, st.Respects x → x v = y := fun x hx => by
        simpa [hdom, Dom.Mem] using hx.dom v
      by_cases hc : contains p lo hi y = true
      · rw [hc]
        exact .pass hok
      · rw [Bool.not_eq_true] at hc
        rw [hc]
        refine .fail hok fun x hx hw => ?_
        rw [hval x hx, ← contains_iff, hc] at hw
        exact absurd hw (by simp)
  | range a b =>
      rw [hdom] at h
      dsimp only at h
      have hab := hok.range v a b hdom
      have hmem : ∀ x, st.Respects x → Window p a b (x v) := fun x hx => by
        simpa [hdom, Dom.Mem] using hx.dom v
      cases hm : meet p a b lo hi with
      | pieces =>
          rw [hm] at h
          obtain rfl := Except.ok.inj h
          exact ⟨.pass hok, hsame⟩
      | apart =>
          rw [hm] at h
          obtain rfl := Except.ok.inj h
          exact ⟨.fail hok fun x hx hw => meet_ne_apart hab.2 hlt (hmem x hx) hw hm, hsame⟩
      | one l k =>
          rw [hm] at h
          dsimp only at h
          obtain ⟨hal', hkb, hlk⟩ := meet_one_le hm
          split_ifs at h with heq
          · obtain rfl := Except.ok.inj h
            exact ⟨.pass hok, hsame⟩
          · obtain ⟨hded, hframe, -⟩ := setRange_spec hok hal (by simp [hdom]) (by omega)
              (fun y hy => by rw [hdom]; exact hy.mono hal' hkb) h
            exact ⟨hded.mono fun x hx hw => window_of_meet_eq_one hab.2 hlt hm (hmem x hx) hw,
              hframe⟩
  | free =>
      rw [hdom] at h
      obtain ⟨hded, hframe, -⟩ := setRange_spec hok hal (by simp [hdom]) hlt
        (fun y _ => by rw [hdom]; trivial) h
      exact ⟨hded, hframe⟩

/-- A variable without domain that was narrowed lies in its window. -/
lemma narrow_free {lo hi : ℤ} (hok : st.Ok) (hal : st.aliasOf v = none) (hdom : st.dom v = .free)
    (hlt : hi - lo < p) (h : narrow rows fuel st v lo hi = .ok r) (hr : r.2 = true)
    {x : Fin n → ZMod p} (hx : r.1.Respects x) : Window p lo hi (x v) := by
  rw [narrow, hdom] at h
  exact (setRange_spec hok hal (by simp [hdom]) hlt (fun y _ => by rw [hdom]; trivial) h).2.2 hr
    x hx

/-- A variable narrowed to a part of its window lies in it. -/
lemma narrow_range {a b lo hi : ℤ} (hok : st.Ok) (hal : st.aliasOf v = none)
    (hdom : st.dom v = .range a b) (hlo : a ≤ lo) (hle : lo ≤ hi) (hhi : hi ≤ b)
    (h : narrow rows fuel st v lo hi = .ok r) (hr : r.2 = true) {x : Fin n → ZMod p}
    (hx : r.1.Respects x) : Window p lo hi (x v) := by
  have hab := (hok.range v a b hdom).2
  rw [narrow, hdom] at h
  dsimp only at h
  rw [meet_of_le hab hlo hle hhi] at h
  dsimp only at h
  split_ifs at h with heq
  · obtain rfl := Except.ok.inj h
    have hxv := hx.dom v
    rwa [hdom, ← heq.1, ← heq.2] at hxv
  · exact (setRange_spec hok hal (by simp [hdom]) (by omega)
      (fun y hy => by rw [hdom]; exact hy.mono hlo hhi) h).2.2 hr x hx

end Narrow

end XarkCircuit.Search
