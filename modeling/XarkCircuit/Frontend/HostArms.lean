import XarkCircuit.Frontend.HostSound

/-!
Branches on a witness: arms, requirements and selects.

* `guard_spec`: the conjunction of the open arms, made when it is needed, is their product.
* `requireEq_spec`: an equality is forced where the arms are taken, and nothing is forced elsewhere.
* `muxBySym_spec`: a select, remembered or new, is the chosen value.
-/

namespace XarkCircuit

namespace Frontend

open LinearCombination Emission Emission.Emitter
open Verifier (rModulus)

namespace Host

open Builder (gateOf)

variable {h h' : Host} {b b' : Builder} {fakeGlv : FakeGlv} {lcHash : LinearCombination → ℕ}
  {x y out : LinearCombination}

lemma orPanic_eq_ok {α : Type} {o : Option α} {a : α} (h : Outcome.orPanic o = .ok a) : o = some a := by
  cases o with
  | none => cases h
  | some c => exact congrArg some (Except.ok.inj h)

lemma lift_eq_ok {α : Type} {o : Outcome α} {a : α} (h : lift o = .ok a) : o = .ok a := by
  cases o with
  | ok b => rw [Except.ok.inj h]
  | error e => cases h

/-! ### The conjunction of the arms -/

/-- The arms at the innermost, and what is known of their conjunction. -/
lemma guardOf_spec (fakeGlv : FakeGlv) {gs gs' : List (LinearCombination × Option LinearCombination)}
    {g : Option LinearCombination} (hb : b.Sound) (hgs : GuardsHold b gs)
    (h : guardOf lcHash gs b = .ok (g, gs', b')) :
    b'.Sound ∧ GuardsHold b' gs' ∧ gs'.map Prod.fst = gs.map Prod.fst ∧
      (∀ l ∈ g, l.Below b'.nextVarId) ∧ (g = none → gs = []) ∧
      Emission.Emits (Builder.emitter fakeGlv) (fun _ => True) b b'
        fun w => gateOf g w = armProduct (gs.map Prod.fst) w := by
  induction gs generalizing g gs' b' with
  | nil =>
      obtain ⟨rfl, hrest⟩ := Prod.mk.inj (Except.ok.inj h)
      obtain ⟨rfl, rfl⟩ := Prod.mk.inj hrest
      refine ⟨hb, hgs, rfl, fun l hl => (by cases hl), fun _ => rfl, ?_⟩
      exact (Emission.Emits.refl b).weaken (fun _ _ hw => hw) fun w _ _ => rfl
  | cons arm outer ih =>
      obtain ⟨lit, known⟩ := arm
      obtain ⟨hlit, hknown, houter⟩ := hgs
      cases known with
      | some k =>
          obtain ⟨rfl, hrest⟩ := Prod.mk.inj (Except.ok.inj h)
          obtain ⟨rfl, rfl⟩ := Prod.mk.inj hrest
          obtain ⟨hk, hval⟩ := hknown k rfl
          refine ⟨hb, ⟨hlit, hknown, houter⟩, rfl, fun l hl => ?_, fun hnone => (by cases hnone), ?_⟩
          · rwa [← Option.mem_some.mp hl]
          · exact (Emission.Emits.refl b).weaken (fun _ _ hw => hw) fun w hw _ => hval w hw
      | none =>
          rw [guardOf] at h
          obtain ⟨⟨parent, outer', b₁⟩, h₁, h⟩ := Outcome.bind_eq_ok.mp h
          obtain ⟨hb₁, houter', hfst, hparent, hempty, he⟩ := ih houter h₁
          cases parent with
          | none =>
              obtain ⟨rfl, hrest⟩ := Prod.mk.inj (Except.ok.inj h)
              obtain ⟨rfl, rfl⟩ := Prod.mk.inj hrest
              have hone : ∀ w : VarId → Fr,
                  lit.eval w = armProduct (lit :: outer'.map Prod.fst) w := by
                intro w
                rw [hfst, hempty rfl]
                exact (mul_one _).symm
              have hlit₁ := hlit.mono he.next_le
              refine ⟨hb₁, ⟨hlit₁, fun k hk => ?_, houter'⟩, congrArg (lit :: ·) hfst, fun l hl => ?_,
                fun hnone => (by cases hnone), he.weaken (fun _ _ hw => hw) fun w _ _ => ?_⟩
              · rw [← Option.mem_some.mp hk]
                exact ⟨hlit₁, fun w _ => hone w⟩
              · rwa [← Option.mem_some.mp hl]
              · rw [hfst] at hone
                exact hone w
          | some parent =>
              obtain ⟨⟨m, b₂⟩, h₂, h⟩ := Outcome.bind_eq_ok.mp h
              obtain ⟨rfl, hrest⟩ := Prod.mk.inj (Except.ok.inj h)
              obtain ⟨rfl, rfl⟩ := Prod.mk.inj hrest
              obtain ⟨hbc, hnextc, hc⟩ := emits_consume₂ fakeGlv hb₁ parent lit
              have hlit₁ := hlit.mono he.next_le
              obtain ⟨hb₂, hm, e₂⟩ := Builder.emitMul_spec hbc (hnextc.symm ▸ hparent parent rfl)
                (hnextc.symm ▸ hlit₁) h₂ fakeGlv
              have e₁₂ := hc.seq e₂ (P := fun _ => True)
                (Q := fun w => m.eval w = parent.eval w * lit.eval w)
                (fun _ hw => hw) (fun _ hw _ _ => hw) fun _ _ _ hw => hw
              -- the product of the outer conjunction and of the condition
              have hall := he.seq e₁₂ (P := fun _ => True)
                (Q := fun w => m.eval w = armProduct (lit :: outer.map Prod.fst) w)
                (fun _ hw => hw) (fun _ hw _ _ => hw) fun w _ hparent hmul => by
                  rw [hmul, mul_comm]
                  exact congrArg (lit.eval w * ·) hparent
              refine ⟨hb₂, ⟨hlit₁.mono e₁₂.next_le, fun k hk => ?_, ?_⟩, congrArg (lit :: ·) hfst,
                fun l hl => ?_, fun hnone => (by cases hnone), hall⟩
              · rw [← Option.mem_some.mp hk, hfst]
                exact ⟨hm, fun w hw => hall.post hw⟩
              · exact houter'.grow e₁₂.next_le fun w hw => e₁₂.mono hw
              · rwa [← Option.mem_some.mp hl]

lemma guard_spec (fakeGlv : FakeGlv) {g : Option LinearCombination} (hh : h.Sound)
    (hg : h.guard lcHash = .ok (g, h')) : (∀ l ∈ g, l.Below h'.b.nextVarId) ∧
      (g = none → h.guards = []) ∧ h'.wires = h.wires ∧
      Performs fakeGlv h (fun _ => True) h' fun _ w => gateOf g w = h.gate w := by
  obtain ⟨⟨g', gs, b'⟩, hof, hg⟩ := Outcome.bind_eq_ok.mp hg
  obtain ⟨rfl, rfl⟩ := Prod.mk.inj (Except.ok.inj hg)
  obtain ⟨hb', hgs, hfst, hbelow, hempty, he⟩ :=
    guardOf_spec fakeGlv hh.builder hh.guards hof
  have hgrown := hh.grow hb' he.next_le fun w hw => he.mono hw
  exact ⟨hbelow, hempty, rfl, { hgrown with guards := hgs }, hfst, List.prefix_rfl, rfl,
    .of_emits he⟩

lemma guard_of_nil {g : Option LinearCombination} (hnil : h.guards = [])
    (hg : h.guard lcHash = .ok (g, h')) : g = none := by
  rw [guard, hnil] at hg
  exact (Prod.mk.inj (Except.ok.inj hg)).1.symm

/-! ### Requirements -/

/-- **A requirement of an arm** binds where the arm is taken. -/
lemma requireGated_spec (fakeGlv : FakeGlv) (hh : h.Sound) (hx : x.Below h.b.nextVarId) (hy : y.Below h.b.nextVarId)
    (hreq : h.requireGated lcHash x y = .ok h') :
    Performs fakeGlv h (fun w => h.gate w ≠ 0 → x.eval w = y.eval w) h'
      fun _ w => h.gate w ≠ 0 → x.eval w = y.eval w := by
  obtain ⟨⟨g, h₁⟩, hg, hreq⟩ := Outcome.bind_eq_ok.mp hreq
  obtain ⟨hbelow, hempty, -, p₁⟩ := guard_spec fakeGlv hh hg
  have hx₁ := hx.mono p₁.le
  have hy₁ := hy.mono p₁.le
  cases g with
  | none =>
      obtain ⟨b', hb', hreq⟩ := Outcome.bind_eq_ok.mp hreq
      obtain rfl := Except.ok.inj hreq
      obtain ⟨hsound, -, he⟩ := Builder.emitRequireEq_spec p₁.sound.builder hx₁ hy₁ hb' fakeGlv
      have hopen : ∀ w, h.gate w ≠ 0 := fun w => by
        rw [gate, hempty rfl]
        exact one_ne_zero
      exact p₁.seq (Performs.of_builder p₁.sound hsound (.of_emits he)) (fun _ _ => True.intro)
        (fun w hw _ _ _ => hw (hopen w)) fun _ w _ _ hw _ => hw
  | some g =>
      obtain rfl := Except.ok.inj hreq
      obtain ⟨hsound, -, he⟩ :=
        Builder.emitRequireEqGated_spec p₁.sound.builder (hbelow g rfl) hx₁ hy₁ fakeGlv
      refine p₁.seq (Performs.of_builder p₁.sound hsound (.of_emits he)) (fun _ _ => True.intro)
        (fun w hw _ hgate _ hne => hw ?_) fun _ w _ hgate hw hne => hw ?_
      · rwa [← hgate]
      · rwa [← hgate] at hne

/-- **`require_eq`.** -/
lemma requireEq_spec (fakeGlv : FakeGlv) (hh : h.Sound) (hx : x.Below h.b.nextVarId) (hy : y.Below h.b.nextVarId)
    (hreq : h.requireEq lcHash x y = .ok h') :
    Performs fakeGlv h (fun w => h.gate w ≠ 0 → x.eval w = y.eval w) h'
      fun _ w => h.gate w ≠ 0 → x.eval w = y.eval w := by
  rw [requireEq] at hreq
  split_ifs at hreq with hdiff
  · cases hreq
  · exact requireGated_spec fakeGlv hh hx hy (lift_eq_ok hreq)

lemma bind_spec (fakeGlv : FakeGlv) (hh : h.Sound) (hx : x.Below h.b.nextVarId) (hbind : h.bind lcHash x = .ok h') :
    Performs fakeGlv h (fun _ => True) h' fun _ _ => True := by
  rw [bind] at hbind
  split_ifs at hbind with hconst
  · obtain rfl := Except.ok.inj hbind
    exact .pure hh fun _ _ _ => True.intro
  · obtain ⟨⟨m, b'⟩, hm, hbind⟩ := Outcome.bind_eq_ok.mp hbind
    obtain rfl := Except.ok.inj hbind
    obtain ⟨hb', -, he⟩ := Builder.emitMul_spec hh.builder hx hx hm fakeGlv
    exact .of_builder hh hb' (.of_emits (he.weaken (fun _ _ hw => hw) fun _ _ _ => True.intro))

/-! ### Arms -/

lemma Sound.armBegin {id : ℕ} {value : Bool} (hh : h.Sound) (harm : h.armBegin id value = .ok h') :
    ∃ c, h.wires[id]? = some c ∧ h'.Sound ∧ h'.b = h.b ∧ h'.wires = h.wires ∧
      ∀ w, h'.gate w = (if value then c.eval w else 1 - c.eval w) * h.gate w := by
  obtain ⟨c, hc, harm⟩ := Outcome.bind_eq_ok.mp harm
  have hc := orPanic_eq_ok hc
  obtain rfl := Except.ok.inj harm
  have hbelow := hh.wires c (List.mem_of_getElem? hc)
  refine ⟨c, hc, { hh with guards := ⟨?_, fun k hk => (by cases hk), hh.guards⟩ }, rfl, rfl, fun w => ?_⟩
  · split_ifs
    · exact hbelow
    · exact Below.one.sub hbelow
  · cases value with
    | true => exact List.prod_cons
    | false =>
        change (one - c).eval w * _ = _
        rw [eval_sub, eval_one]
        rfl

lemma Sound.armEnd (hh : h.Sound) : h.armEnd.Sound := by
  have hgs : GuardsHold h.b h.guards.tail := by
    have hall := hh.guards
    cases hcase : h.guards with
    | nil => exact True.intro
    | cons arm outer =>
        rw [hcase] at hall
        exact hall.2.2
  exact { hh with guards := hgs }

/-! ### Selects -/

lemma Sound.remember_mux (hh : h.Sound) {id : ℕ} {t e l c : LinearCombination}
    (hl : l.Below h.b.nextVarId ∧ Canonical l.terms) (hc : h.wires[id]? = some c)
    (hval : ∀ w, h.b.Sat w → l.eval w = e.eval w + c.eval w * (t.eval w - e.eval w)) :
    Sound { h with muxes := Function.update h.muxes (id, t, e) (some l) } :=
  { hh with
    muxes := fun id' t' e' l' hl' => by
      change Function.update h.muxes (id, t, e) (some l) (id', t', e') = some l' at hl'
      by_cases hkey : (id', t', e') = (id, t, e)
      · obtain ⟨rfl, rfl, rfl⟩ : id' = id ∧ t' = t ∧ e' = e := by simpa using hkey
        rw [Function.update_self] at hl'
        obtain rfl := Option.some.inj hl'
        exact ⟨hl, c, hc, hval⟩
      · rw [Function.update_of_ne hkey] at hl'
        exact hh.muxes id' t' e' l' hl' }

/-- **A select** has the value that its condition chooses. -/
lemma muxBySym_spec (fakeGlv : FakeGlv) {id : ℕ} {c t e : LinearCombination} (hh : h.Sound) (ht : t.Below h.b.nextVarId)
    (he : e.Below h.b.nextVarId) (hc : h.wires[id]? = some c)
    (hmux : h.muxBySym lcHash id t e = .ok (out, h')) :
    Computes fakeGlv h out h' fun w => e.eval w + c.eval w * (t.eval w - e.eval w) := by
  dsimp only [muxBySym] at hmux
  split at hmux
  next heq =>
    obtain ⟨rfl, rfl⟩ := Prod.mk.inj (Except.ok.inj hmux)
    refine ⟨ht.simplified, .pure hh fun _ w _ => ?_⟩
    have hsame : t.eval w = e.eval w := by rw [← eval_simplified t, heq, eval_simplified]
    rw [eval_simplified, hsame, sub_self, mul_zero, add_zero]
  next hne =>
    split at hmux
    next l hl =>
      obtain ⟨rfl, rfl⟩ := Prod.mk.inj (Except.ok.inj hmux)
      obtain ⟨⟨hbelow, -⟩, c', hc', hval⟩ := hh.muxes _ _ _ _ hl
      obtain rfl : c = c' := Option.some.inj (hc.symm.trans hc')
      refine ⟨hbelow, .pure hh fun _ w hw => ?_⟩
      rw [hval w hw, eval_simplified, eval_simplified]
    next =>
      obtain ⟨c', hc', hmux⟩ := Outcome.bind_eq_ok.mp hmux
      obtain rfl : c = c' := Option.some.inj (hc.symm.trans (orPanic_eq_ok hc'))
      obtain ⟨⟨m, b'⟩, hm, hmux⟩ := Outcome.bind_eq_ok.mp hmux
      obtain ⟨hb', hmbelow, hemits⟩ := Builder.emitMul_spec hh.builder
        (hh.wires c (List.mem_of_getElem? hc)) (ht.simplified.sub he.simplified) hm fakeGlv
      have hactive : b'.witnessOnly = false := hb'.active
      simp only [hactive, Bool.not_false, if_true] at hmux
      obtain ⟨rfl, rfl⟩ := Prod.mk.inj (Except.ok.inj hmux)
      have hout : (e.simplified + m).Below b'.nextVarId := (he.simplified.mono hemits.next_le).add hmbelow
      have hperf := Performs.of_builder hh hb' (.of_emits (hemits.weaken
        (Q := fun w => (e.simplified + m).eval w
          = e.eval w + c.eval w * (t.eval w - e.eval w)) (fun _ _ hw => hw) fun w _ hw => by
            rw [eval_add, hw, eval_sub, eval_simplified, eval_simplified]))
      refine ⟨hout, hperf.sound.remember_mux ⟨hout, canonical_add _ _⟩ hc fun w hw => ?_, hperf.arms, hperf.wires,
        hperf.inputs, hperf.realizes⟩
      rw [eval_simplified, eval_simplified]
      exact hperf.realizes.emits.post hw

lemma canonical_muxBySym {id : ℕ} {t e : LinearCombination} (hh : h.Sound)
    (hmux : h.muxBySym lcHash id t e = .ok (out, h')) : Canonical out.terms := by
  dsimp only [muxBySym] at hmux
  split at hmux
  next =>
    obtain ⟨rfl, rfl⟩ := Prod.mk.inj (Except.ok.inj hmux)
    exact canonical_simplified t
  next =>
    split at hmux
    next l hl =>
      obtain ⟨rfl, rfl⟩ := Prod.mk.inj (Except.ok.inj hmux)
      exact (hh.muxes _ _ _ _ hl).1.2
    next =>
      obtain ⟨c, -, hmux⟩ := Outcome.bind_eq_ok.mp hmux
      obtain ⟨⟨m, b'⟩, -, hmux⟩ := Outcome.bind_eq_ok.mp hmux
      obtain ⟨rfl, rfl⟩ := Prod.mk.inj (Except.ok.inj hmux)
      exact canonical_add _ _

end Host

end Frontend

end XarkCircuit
