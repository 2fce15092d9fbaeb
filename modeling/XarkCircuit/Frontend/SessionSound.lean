import XarkCircuit.Frontend.Session

/-!
The rows of a session are its calls.

* `Session.Sound` is the invariant: what is held is of the builder's variables, an integer is one of its
  register, and the condition of an arm is a bit.
* `Simulates` is the meaning of a call for the rows: they force `Call.Rel`, and whoever follows the
  hints satisfies them where `Call.Can`. `Call.simulates` is the step.
* `runAll_spec`: a sequence of calls, by induction.
-/

namespace XarkCircuit

namespace Frontend

open LinearCombination Emission
open Frontend.Host (Performs orPanic_eq_ok lift_eq_ok)
open Verifier (rModulus)

variable {fakeGlv : FakeGlv} {lcHash : LinearCombination → ℕ}

namespace Session

/-- The invariant. -/
structure Sound (st : Session) : Prop where
  host : st.h.Sound
  settled : st.h.Settled
  fields : ∀ l ∈ st.fields, l.Below st.h.b.nextVarId
  ints : ∀ v ∈ st.ints, v.1 ≤ 64 ∧ v.2.Fits st.h v.1
  arms : ∀ g ∈ st.h.guards, ∀ w, st.h.b.Sat w → IsBit (g.1.eval w)

variable {st st' : Session} {w : VarId → Fr} {i reg : ℕ}

lemma field_ok (hst : st.Sound) {l : LinearCombination} (hl : st.field i = .ok l) :
    l.Below st.h.b.nextVarId ∧ ∀ w, (st.values w).field i = l.eval w := by
  have hget := orPanic_eq_ok (lift_eq_ok hl)
  refine ⟨hst.fields l (List.mem_of_getElem? hget), fun w => ?_⟩
  rw [Values.field, values, List.getElem?_map, hget]
  rfl

lemma int_ok (hst : st.Sound) {v : IntVal} (hv : st.int i reg = .ok v) :
    v.Fits st.h reg ∧ ∀ w, (st.values w).int i = v.value st.h.wires w := by
  obtain ⟨r, hr, hv⟩ := Succeeding.bind_eq_ok.mp hv
  have hget := orPanic_eq_ok (lift_eq_ok hr)
  split_ifs at hv with hle
  swap
  · cases hv
  obtain rfl := Except.ok.inj hv
  refine ⟨(hst.ints r (List.mem_of_getElem? hget)).2.wider hle, fun w => ?_⟩
  rw [Values.int, values, List.getElem?_map, hget]
  rfl

/-- A condition is a bit of its wire. -/
lemma cond_ok (hst : st.Sound) {id : ℕ} (hid : st.cond i = .ok id) : ∃ l, st.h.wires[id]? = some l ∧
    ∀ w, st.h.b.Sat w → IsBit (l.eval w) ∧ (st.values w).int i = (l.eval w).val := by
  obtain ⟨v, hv, hid⟩ := Succeeding.bind_eq_ok.mp hid
  obtain ⟨hfits, hval⟩ := int_ok hst hv
  cases v with
  | const b => cases hid
  | ite c t e => cases hid
  | wire id' width =>
      obtain rfl := Except.ok.inj hid
      obtain ⟨hwidth, l, hl, hlt⟩ := hfits
      refine ⟨l, hl, fun w hw => ⟨?_, ?_⟩⟩
      · rw [isBit_iff_val_lt]
        exact (hlt w hw (hst.settled.ranges w)).trans_le (Nat.pow_le_pow_right (by norm_num) hwidth)
      · rw [hval, IntVal.value, hl]
        rfl

/-- **The gate** is one where every arm is taken, and zero elsewhere. -/
lemma gate_spec (hst : st.Sound) (hw : st.h.b.Sat w) :
    IsBit (st.h.gate w) ∧ (st.h.gate w = 1 ↔ (st.values w).Taken) := by
  have harms : ∀ gs : List (LinearCombination × Option LinearCombination),
      (∀ g ∈ gs, IsBit (g.1.eval w)) → IsBit (Host.armProduct (gs.map Prod.fst) w) ∧
        (Host.armProduct (gs.map Prod.fst) w = 1 ↔
          ∀ a ∈ gs.map fun g => decide (g.1.eval w = 1), a = true) := by
    intro gs hgs
    induction gs with
    | nil => exact ⟨.inr rfl, fun _ a ha => absurd ha List.not_mem_nil, fun _ => rfl⟩
    | cons g gs ih =>
        rw [List.forall_mem_cons] at hgs
        obtain ⟨hbit, hiff⟩ := ih hgs.2
        have hcons : Host.armProduct ((g :: gs).map Prod.fst) w
            = g.1.eval w * Host.armProduct (gs.map Prod.fst) w := List.prod_cons
        rw [hcons, List.map_cons, List.forall_mem_cons, decide_eq_true_eq, ← hiff]
        rcases hgs.1 with hzero | hone
        · rw [hzero, zero_mul]
          exact ⟨.inl rfl, fun h => absurd h zero_ne_one, fun h => absurd h.1 zero_ne_one⟩
        · rw [hone, one_mul]
          exact ⟨hbit, fun h => ⟨rfl, h⟩, fun h => h.2⟩
  exact harms st.h.guards fun g hg => hst.arms g hg w hw

lemma taken_iff (hst : st.Sound) (hw : st.h.b.Sat w) : (st.values w).Taken ↔ st.h.gate w ≠ 0 := by
  obtain ⟨hbit, hiff⟩ := gate_spec hst hw
  rw [← hiff]
  rcases hbit with hzero | hone
  · rw [hzero]
    exact ⟨fun h => absurd h zero_ne_one, fun h => absurd rfl h⟩
  · rw [hone]
    exact ⟨fun _ => one_ne_zero, fun _ => rfl⟩

end Session

/-- The rows that a call adds are the call: they force its meaning, and whoever follows the hints
satisfies them where it does not fail. -/
def Simulates (fakeGlv : FakeGlv) (P : Values → Prop) (st st' : Session)
    (Q : Bool → Values → Values → Prop) : Prop :=
  st'.Sound ∧ Emission.Realizes (Builder.emitter fakeGlv) (fun w => P (st.values w)) st.h.b st'.h.b
    fun honest w => Q honest (st.values w) (st'.values w)

variable {st st' : Session} {h' : Host} {fields : List LinearCombination} {ints : List (ℕ × IntVal)}
  {P : (VarId → Fr) → Prop} {Q : Bool → (VarId → Fr) → Prop}

/-- What is held after an operation. -/
lemma values_push (hst : st.Sound) (hp : Performs fakeGlv st.h P h' Q) (w : VarId → Fr) :
    (st.push h' fields ints).values w = (st.values w).push (fields.map fun l => l.eval w)
      (ints.map fun v => v.2.value h'.wires w) := by
  have hints : st.ints.map (fun v => v.2.value h'.wires w) = st.ints.map fun v => v.2.value st.h.wires w :=
    List.map_congr_left fun v hv => hp.value_eq (hst.ints v hv).2 w
  have harms : h'.guards.map (fun g => decide (g.1.eval w = 1))
      = st.h.guards.map fun g => decide (g.1.eval w = 1) := by
    have heq := congrArg (List.map fun l : LinearCombination => decide (l.eval w = 1)) hp.arms
    rwa [List.map_map, List.map_map] at heq
  rw [Session.values, Session.push, Session.values, Values.push, List.map_append, List.map_append, hints,
    harms]

lemma sound_push (hst : st.Sound) (hp : Performs fakeGlv st.h P h' Q)
    (hfields : ∀ l ∈ fields, l.Below h'.b.nextVarId)
    (hints : ∀ v ∈ ints, v.1 ≤ 64 ∧ v.2.Fits h' v.1) : (st.push h' fields ints).Sound where
  host := hp.sound
  settled := hp.settled hst.settled
  fields := fun l hl => (List.mem_append.mp hl).elim (fun hl => (hst.fields l hl).mono hp.le) (hfields l)
  ints := fun v hv => (List.mem_append.mp hv).elim
    (fun hv => ⟨(hst.ints v hv).1, hp.fits (hst.ints v hv).2⟩) (hints v)
  arms := fun g hg w hw => by
    have hmem : g.1 ∈ st.h.guards.map Prod.fst := hp.arms ▸ List.mem_map_of_mem hg
    obtain ⟨g', hg', hsame⟩ := List.mem_map.mp hmem
    rw [← hsame]
    exact hst.arms g' hg' w (hp.realizes.mono hw)

/-- **An operation as a call.** -/
lemma Host.Performs.simulates {Pv : Values → Prop} {Qv : Bool → Values → Values → Prop} (hst : st.Sound)
    (hp : Performs fakeGlv st.h P h' Q) (hfields : ∀ l ∈ fields, l.Below h'.b.nextVarId)
    (hints : ∀ v ∈ ints, v.1 ≤ 64 ∧ v.2.Fits h' v.1)
    (hP : ∀ w, st.h.b.Sat w → Pv (st.values w) → P w)
    (hQ : ∀ honest w, h'.b.Sat w → Q honest w → Qv honest (st.values w)
      ((st.values w).push (fields.map fun l => l.eval w) (ints.map fun v => v.2.value h'.wires w))) :
    Simulates fakeGlv Pv st (st.push h' fields ints) Qv := by
  refine ⟨sound_push hst hp hfields hints, hp.realizes.weaken hP fun honest w hw hpost => ?_⟩
  rw [values_push hst hp]
  exact hQ honest w hw hpost

/-- A call that returns a field element. -/
lemma Host.Computes.simulates {Pv : Values → Prop} {out : LinearCombination} {g : (VarId → Fr) → Fr}
    {f : Values → Fr} (hst : st.Sound) (hc : Host.Computes fakeGlv st.h out h' g)
    (hg : ∀ w, st.h.b.Sat w → g w = f (st.values w)) :
    Simulates fakeGlv Pv st (st.push h' [out] []) fun _ s s' => s' = s.push [f s] [] := by
  refine hc.performs.simulates hst (List.forall_mem_singleton.mpr hc.below)
    (fun _ hv => absurd hv List.not_mem_nil) (fun _ _ _ => True.intro) fun _ w hw hval => ?_
  rw [List.map_singleton, hval, hg w (hc.performs.realizes.mono hw), List.map_nil]

/-- A call that returns an integer. -/
lemma Host.Yields.simulates {Pv : Values → Prop} {v : IntVal} {reg : ℕ} {g : (VarId → Fr) → ℕ}
    {f : Values → ℕ} (hst : st.Sound) (hreg : reg ≤ 64)
    (hy : Host.Yields fakeGlv st.h reg (fun _ => True) v h' g)
    (hg : ∀ w, st.h.b.Sat w → g w = f (st.values w)) :
    Simulates fakeGlv Pv st (st.push h' [] [(reg, v)]) fun _ s s' => s' = s.push [] [f s] := by
  refine hy.performs.simulates hst (fun _ hl => absurd hl List.not_mem_nil)
    (List.forall_mem_singleton.mpr ⟨hreg, hy.fits⟩) (fun _ _ _ => True.intro) fun _ w hw hval => ?_
  rw [List.map_singleton, hval, hg w (hy.performs.realizes.mono hw), List.map_nil]

/-- A call that only adds rows. -/
lemma Host.Performs.simulates_nil {Pv : Values → Prop} {Qv : Values → Prop} (hst : st.Sound)
    (hp : Performs fakeGlv st.h P h' Q) (hP : ∀ w, st.h.b.Sat w → Pv (st.values w) → P w)
    (hQ : ∀ honest w, st.h.b.Sat w → Q honest w → Qv (st.values w)) :
    Simulates fakeGlv Pv st (st.push h' [] []) fun _ s s' => s' = s ∧ Qv s := by
  refine hp.simulates hst (fun _ hl => absurd hl List.not_mem_nil) (fun _ hv => absurd hv List.not_mem_nil)
    hP fun honest w hw hpost => ⟨?_, hQ honest w (hp.realizes.mono hw) hpost⟩
  rw [List.map_nil, List.map_nil, Values.push, List.append_nil, List.append_nil]

lemma regWidth_eq (wide : Bool) : regWidth wide = 32 ∨ regWidth wide = 64 := by
  cases wide
  · exact .inl rfl
  · exact .inr rfl

lemma regWidth_le (wide : Bool) : regWidth wide ≤ 64 := by
  cases wide <;> decide

open Session

/-! ### Field elements -/

namespace Call

variable {x y n c : ℕ}

lemma simulates_const {k : FieldConst} (hst : st.Sound) (hrun : (const k).run lcHash st = .ok st') :
    Simulates fakeGlv (const k).Can st st' (const k).Rel := by
  obtain rfl := Except.ok.inj hrun
  exact Host.Computes.simulates (g := fun _ => (k : Fr)) hst
    ⟨Below.ofConst k, .pure hst.host fun _ w _ => eval_ofConst w k⟩ fun _ _ => rfl

lemma simulates_add {negY : Bool} (hst : st.Sound) (hrun : (add x y negY).run lcHash st = .ok st') :
    Simulates fakeGlv (add x y negY).Can st st' (add x y negY).Rel := by
  obtain ⟨lx, hx, hrun⟩ := Succeeding.bind_eq_ok.mp hrun
  obtain ⟨ly, hy, hrun⟩ := Succeeding.bind_eq_ok.mp hrun
  obtain rfl := Except.ok.inj hrun
  obtain ⟨hx, hxv⟩ := field_ok hst hx
  obtain ⟨hy, hyv⟩ := field_ok hst hy
  exact (Host.add_spec hst.host hx hy negY).simulates hst fun w _ => by rw [hxv, hyv]

lemma simulates_neg (hst : st.Sound) (hrun : (neg x).run lcHash st = .ok st') :
    Simulates fakeGlv (neg x).Can st st' (neg x).Rel := by
  obtain ⟨lx, hx, hrun⟩ := Succeeding.bind_eq_ok.mp hrun
  obtain rfl := Except.ok.inj hrun
  obtain ⟨hx, hxv⟩ := field_ok hst hx
  exact (Host.neg_spec hst.host hx).simulates hst fun w _ => by rw [hxv]

lemma simulates_mul (hst : st.Sound) (hrun : (mul x y).run lcHash st = .ok st') :
    Simulates fakeGlv (mul x y).Can st st' (mul x y).Rel := by
  obtain ⟨lx, hx, hrun⟩ := Succeeding.bind_eq_ok.mp hrun
  obtain ⟨ly, hy, hrun⟩ := Succeeding.bind_eq_ok.mp hrun
  obtain ⟨r, hr, hrun⟩ := Succeeding.bind_eq_ok.mp hrun
  obtain rfl := Except.ok.inj hrun
  obtain ⟨hx, hxv⟩ := field_ok hst hx
  obtain ⟨hy, hyv⟩ := field_ok hst hy
  exact (Host.mul_spec hst.host hx hy (lift_eq_ok hr)).simulates hst fun w _ => by rw [hxv, hyv]

lemma simulates_pow (hst : st.Sound) (hrun : (pow x n).run lcHash st = .ok st') :
    Simulates fakeGlv (pow x n).Can st st' (pow x n).Rel := by
  obtain ⟨lx, hx, hrun⟩ := Succeeding.bind_eq_ok.mp hrun
  obtain ⟨r, hr, hrun⟩ := Succeeding.bind_eq_ok.mp hrun
  obtain rfl := Except.ok.inj hrun
  obtain ⟨hx, hxv⟩ := field_ok hst hx
  exact (Host.pow_spec hst.host hx (lift_eq_ok hr)).simulates hst fun w _ => by rw [hxv]

lemma simulates_xorOr {isXor : Bool} (hst : st.Sound) (hrun : (xorOr isXor x y).run lcHash st = .ok st') :
    Simulates fakeGlv (xorOr isXor x y).Can st st' (xorOr isXor x y).Rel := by
  obtain ⟨lx, hx, hrun⟩ := Succeeding.bind_eq_ok.mp hrun
  obtain ⟨ly, hy, hrun⟩ := Succeeding.bind_eq_ok.mp hrun
  obtain ⟨r, hr, hrun⟩ := Succeeding.bind_eq_ok.mp hrun
  obtain rfl := Except.ok.inj hrun
  obtain ⟨hx, hxv⟩ := field_ok hst hx
  obtain ⟨hy, hyv⟩ := field_ok hst hy
  exact (Host.xorOr_spec hst.host hx hy (lift_eq_ok hr)).simulates hst fun w _ => by rw [hxv, hyv]

lemma simulates_mux {t e : ℕ} (hst : st.Sound) (hrun : (mux c t e).run lcHash st = .ok st') :
    Simulates fakeGlv (mux c t e).Can st st' (mux c t e).Rel := by
  obtain ⟨id, hid, hrun⟩ := Succeeding.bind_eq_ok.mp hrun
  obtain ⟨lt, ht, hrun⟩ := Succeeding.bind_eq_ok.mp hrun
  obtain ⟨le, he, hrun⟩ := Succeeding.bind_eq_ok.mp hrun
  obtain ⟨r, hr, hrun⟩ := Succeeding.bind_eq_ok.mp hrun
  obtain rfl := Except.ok.inj hrun
  obtain ⟨lc, hlc, hc⟩ := cond_ok hst hid
  obtain ⟨ht, htv⟩ := field_ok hst ht
  obtain ⟨he, hev⟩ := field_ok hst he
  refine (Host.muxBySym_spec fakeGlv hst.host ht he hlc (lift_eq_ok hr)).simulates hst
    (f := fun s => if s.int c = 1 then s.field t else s.field e) fun w hw => ?_
  obtain ⟨hbit, hval⟩ := hc w hw
  rw [htv, hev, hval]
  rcases hbit with hzero | hone
  · rw [hzero, zero_mul, add_zero, ZMod.val_zero, if_neg zero_ne_one]
  · rw [hone, one_mul, add_sub_cancel, ZMod.val_one, if_pos rfl]

lemma simulates_boolToField (hst : st.Sound) (hrun : (boolToField c).run lcHash st = .ok st') :
    Simulates fakeGlv (boolToField c).Can st st' (boolToField c).Rel := by
  obtain ⟨v, hv, hrun⟩ := Succeeding.bind_eq_ok.mp hrun
  obtain ⟨r, hr, hrun⟩ := Succeeding.bind_eq_ok.mp hrun
  obtain rfl := Except.ok.inj hrun
  obtain ⟨hfits, hval⟩ := int_ok hst hv
  have hc := Host.intLc_spec fakeGlv hst.host hst.settled hfits (lift_eq_ok hr)
  refine Host.Computes.simulates (g := fun w => (v.value st.h.wires w : Fr)) hst ⟨Host.below_putField hc.below,
    hc.performs.weaken (fun _ _ hw => hw) fun _ w _ hw => ?_⟩ fun w _ => by rw [hval]
  rw [hc.performs.sound.eval_putField, hw]

/-! ### Wires of field elements -/

lemma getElem?_last (h : Host) (l : LinearCombination) (width : ℕ) :
    (h.newWire l width).wires[(h.newWire l width).wires.length - 1]? = some l := by
  have hlen : (h.newWire l width).wires.length - 1 = h.wires.length := by
    change (h.wires ++ [l]).length - 1 = _
    rw [List.length_append, List.length_singleton, Nat.add_sub_cancel]
  rw [hlen]
  exact List.getElem?_concat_length

/-- A call that returns the last wire. -/
lemma simulates_wire {Pv : Values → Prop} {Qv : Bool → Values → Values → Prop} {l : LinearCombination}
    {width : ℕ} (hst : st.Sound) (hp : Performs fakeGlv st.h P h' Q) (hwidth : width ≤ 64)
    (hl : h'.wires[h'.wires.length - 1]? = some l)
    (hlt : ∀ w, h'.b.Sat w → (l.eval w).val < 2 ^ width)
    (hP : ∀ w, st.h.b.Sat w → Pv (st.values w) → P w)
    (hQ : ∀ honest w, h'.b.Sat w → Q honest w →
      Qv honest (st.values w) ((st.values w).push [] [(l.eval w).val])) :
    Simulates fakeGlv Pv st (st.push h' [] [(width, .wire (h'.wires.length - 1) width)]) Qv := by
  refine hp.simulates hst (fun _ hl => absurd hl List.not_mem_nil) (List.forall_mem_singleton.mpr
    ⟨hwidth, le_rfl, l, hl, fun w hw _ => hlt w hw⟩) hP fun honest w hw hpost => ?_
  rw [List.map_nil, List.map_singleton, IntVal.value, hl]
  exact hQ honest w hw hpost

lemma simulates_eq (hst : st.Sound) (hrun : (eq x y).run lcHash st = .ok st') :
    Simulates fakeGlv (eq x y).Can st st' (eq x y).Rel := by
  obtain ⟨lx, hx, hrun⟩ := Succeeding.bind_eq_ok.mp hrun
  obtain ⟨ly, hy, hrun⟩ := Succeeding.bind_eq_ok.mp hrun
  obtain ⟨⟨out, h'⟩, hr, hrun⟩ := Succeeding.bind_eq_ok.mp hrun
  obtain rfl := Except.ok.inj hrun
  obtain ⟨hx, hxv⟩ := field_ok hst hx
  obtain ⟨hy, hyv⟩ := field_ok hst hy
  have hc := Host.eq_spec fakeGlv hst.host hx hy (lift_eq_ok hr)
  have hwire : h'.wires[h'.wires.length - 1]? = some out := by
    obtain ⟨⟨l, b'⟩, -, hr⟩ := Outcome.bind_eq_ok.mp (lift_eq_ok hr)
    obtain ⟨rfl, rfl⟩ := Prod.mk.inj (Except.ok.inj hr)
    exact getElem?_last _ _ _
  have hval : ∀ w, out.eval w = (if lx.eval w = ly.eval w then 1 else 0) →
      (out.eval w).val = if (st.values w).field x = (st.values w).field y then 1 else 0 := by
    intro w hw
    rw [hw, hxv, hyv]
    split_ifs
    · exact ZMod.val_one _
    · exact ZMod.val_zero
  refine simulates_wire hst hc.performs (by norm_num) hwire (fun w hw => ?_) (fun _ _ _ => True.intro)
    fun _ w _ hpost => congrArg (fun z => (st.values w).push [] [z]) (hval w hpost)
  rw [hval w (hc.performs.realizes.emits.post hw)]
  split_ifs <;> norm_num

lemma simulates_ult (hst : st.Sound) (hrun : (ult n x y).run lcHash st = .ok st') :
    Simulates fakeGlv (ult n x y).Can st st' (ult n x y).Rel := by
  obtain ⟨lx, hx, hrun⟩ := Succeeding.bind_eq_ok.mp hrun
  obtain ⟨ly, hy, hrun⟩ := Succeeding.bind_eq_ok.mp hrun
  obtain ⟨⟨out, h'⟩, hr, hrun⟩ := Succeeding.bind_eq_ok.mp hrun
  obtain rfl := Except.ok.inj hrun
  obtain ⟨hx, hxv⟩ := field_ok hst hx
  obtain ⟨hy, hyv⟩ := field_ok hst hy
  obtain ⟨-, p⟩ := Host.ult_spec fakeGlv hst.host hx hy hr
  have hwire : h'.wires[h'.wires.length - 1]? = some out := by
    obtain ⟨⟨g, h₁⟩, -, hr⟩ := Succeeding.bind_eq_ok.mp hr
    obtain ⟨res, -, hr⟩ := Succeeding.bind_eq_ok.mp hr
    cases res with
    | error message => cases hr
    | ok res =>
        obtain ⟨rfl, rfl⟩ := Prod.mk.inj (Except.ok.inj hr)
        exact getElem?_last _ _ _
  refine simulates_wire hst p (by norm_num) hwire (fun w hw => (p.realizes.emits.post hw).1.val_lt)
    (fun w hw hcan => ?_) fun _ w hw hpost => ?_
  · obtain ⟨hbit, hgate⟩ := gate_spec hst hw
    exact ⟨hbit, fun hone => by rw [← hxv, ← hyv]; exact hcan (hgate.mp hone)⟩
  · refine ⟨_, rfl, Nat.lt_succ_iff.mp hpost.1.val_lt, fun htaken hxn hyn => ?_⟩
    have hone := (gate_spec hst (p.realizes.mono hw)).2.mpr htaken
    rw [hxv] at hxn ⊢
    rw [hyv] at hyn ⊢
    rw [hpost.2.1 hone hxn hyn, Bits.borrow]
    split_ifs
    · exact ZMod.val_one _
    · exact ZMod.val_zero

lemma simulates_fieldToUint (hst : st.Sound) (hrun : (fieldToUint x n).run lcHash st = .ok st') :
    Simulates fakeGlv (fieldToUint x n).Can st st' (fieldToUint x n).Rel := by
  obtain ⟨lx, hx, hrun⟩ := Succeeding.bind_eq_ok.mp hrun
  obtain ⟨⟨out, h'⟩, hr, hrun⟩ := Succeeding.bind_eq_ok.mp hrun
  obtain rfl := Except.ok.inj hrun
  obtain ⟨hx, hxv⟩ := field_ok hst hx
  obtain ⟨-, p⟩ := Host.fieldToUint_spec fakeGlv hst.host hx hr
  by_cases hzero : n = 0
  · subst hzero
    refine p.simulates hst (fun _ hl => absurd hl List.not_mem_nil) (List.forall_mem_singleton.mpr
      ⟨Nat.zero_le _, Nat.two_pow_pos 0⟩) (fun _ _ _ hne => absurd rfl hne) fun _ w _ _ => ?_
    exact ⟨rfl, fun hne => absurd rfl hne⟩
  · simp only [if_neg hzero] at p ⊢
    rw [Host.fieldToUint, if_neg hzero] at hr
    split_ifs at hr with hwide
    · cases hr
    obtain ⟨⟨bits, h₁⟩, -, hr⟩ := Succeeding.bind_eq_ok.mp hr
    obtain ⟨rfl, rfl⟩ := Prod.mk.inj (Except.ok.inj hr)
    refine simulates_wire hst p (not_lt.mp hwide) (getElem?_last _ _ _) (fun w hw => ?_)
      (fun w _ hcan hne => hxv w ▸ hcan hne) fun _ w _ hpost => ?_
    · obtain ⟨hlt, hval⟩ := p.realizes.emits.post hw
      rwa [hval]
    · refine ⟨?_, fun _ => hxv w ▸ hpost.1⟩
      rw [if_neg hzero, hxv, hpost.2]

/-! ### Bits and hints -/

lemma simulates_toBits (hst : st.Sound) (hrun : (toBits x n).run lcHash st = .ok st') :
    Simulates fakeGlv (toBits x n).Can st st' (toBits x n).Rel := by
  obtain ⟨lx, hx, hrun⟩ := Succeeding.bind_eq_ok.mp hrun
  obtain ⟨⟨bits, h'⟩, hr, hrun⟩ := Succeeding.bind_eq_ok.mp hrun
  obtain rfl := Except.ok.inj hrun
  obtain ⟨hx, hxv⟩ := field_ok hst hx
  obtain ⟨hbelow, p⟩ := Host.toBits_spec fakeGlv hst.host hx hr
  refine p.simulates hst hbelow (fun _ hv => absurd hv List.not_mem_nil) (fun w hw hcan => ?_)
    fun _ w hw hpost => ?_
  · obtain ⟨hbit, hgate⟩ := gate_spec hst hw
    exact ⟨hbit, fun hone => hxv w ▸ hcan (hgate.mp hone)⟩
  · obtain ⟨hlen, hbits, hval⟩ := hpost
    refine ⟨_, rfl, (List.length_map _).trans hlen, ?_, fun htaken => ?_⟩
    · exact List.forall_mem_map.mpr hbits
    · have hone := (gate_spec hst (p.realizes.mono hw)).2.mpr htaken
      rw [hxv]
      exact hval hone

lemma simulates_advice (hst : st.Sound) (hrun : advice.run lcHash st = .ok st') :
    Simulates fakeGlv advice.Can st st' advice.Rel := by
  obtain ⟨⟨out, h'⟩, hr, hrun⟩ := Succeeding.bind_eq_ok.mp hrun
  obtain rfl := Except.ok.inj hrun
  obtain ⟨hbelow, p⟩ := Host.advice_spec fakeGlv hst.host (lift_eq_ok hr)
  refine p.simulates hst (List.forall_mem_singleton.mpr hbelow) (fun _ hv => absurd hv List.not_mem_nil)
    (fun w hw hcan => (gate_spec hst hw).2.mpr hcan) fun _ w hw hpost => ⟨_, rfl, fun hdead => ?_⟩
  exact hpost fun hone => hdead ((gate_spec hst (p.realizes.mono hw)).2.mp hone)

lemma simulates_hintInverse {orZero : Bool} (hst : st.Sound)
    (hrun : (hintInverse orZero x).run lcHash st = .ok st') :
    Simulates fakeGlv (hintInverse orZero x).Can st st' (hintInverse orZero x).Rel := by
  obtain ⟨lx, hx, hrun⟩ := Succeeding.bind_eq_ok.mp hrun
  obtain ⟨⟨out, h'⟩, hr, hrun⟩ := Succeeding.bind_eq_ok.mp hrun
  obtain rfl := Except.ok.inj hrun
  obtain ⟨hx, hxv⟩ := field_ok hst hx
  obtain ⟨hbelow, p⟩ := Host.hintInverse_spec fakeGlv hst.host hx (lift_eq_ok hr)
  refine p.simulates hst (List.forall_mem_singleton.mpr hbelow) (fun _ hv => absurd hv List.not_mem_nil)
    (fun w hw _ => (gate_spec hst hw).1) fun honest w hw hpost => ⟨_, rfl, fun hhonest htaken => ?_⟩
  rw [hxv]
  exact hpost.2 hhonest ((gate_spec hst (p.realizes.mono hw)).2.mpr htaken)

lemma simulates_hintBit {i : U32} (hst : st.Sound) (hrun : (hintBit x i).run lcHash st = .ok st') :
    Simulates fakeGlv (hintBit x i).Can st st' (hintBit x i).Rel := by
  obtain ⟨lx, hx, hrun⟩ := Succeeding.bind_eq_ok.mp hrun
  obtain ⟨⟨out, h'⟩, hr, hrun⟩ := Succeeding.bind_eq_ok.mp hrun
  obtain rfl := Except.ok.inj hrun
  obtain ⟨hx, hxv⟩ := field_ok hst hx
  obtain ⟨hbelow, p⟩ := Host.hintBit_spec fakeGlv hst.host hx (lift_eq_ok hr)
  refine p.simulates hst (List.forall_mem_singleton.mpr hbelow) (fun _ hv => absurd hv List.not_mem_nil)
    (fun w hw _ => (gate_spec hst hw).1) fun honest w hw hpost => ⟨_, rfl, fun hhonest htaken => ?_⟩
  rw [hxv]
  rcases hpost with hval | hval
  · exact hval
  · exact hval.2 hhonest ((gate_spec hst (p.realizes.mono hw)).2.mpr htaken)

lemma simulates_hintDivRem {num den : ℕ} (hst : st.Sound)
    (hrun : (hintDivRem num den).run lcHash st = .ok st') :
    Simulates fakeGlv (hintDivRem num den).Can st st' (hintDivRem num den).Rel := by
  obtain ⟨lx, hx, hrun⟩ := Succeeding.bind_eq_ok.mp hrun
  obtain ⟨ly, hy, hrun⟩ := Succeeding.bind_eq_ok.mp hrun
  obtain ⟨⟨⟨q, r⟩, h'⟩, hr, hrun⟩ := Succeeding.bind_eq_ok.mp hrun
  obtain rfl := Except.ok.inj hrun
  obtain ⟨hx, hxv⟩ := field_ok hst hx
  obtain ⟨hy, hyv⟩ := field_ok hst hy
  obtain ⟨hq, hrem, p⟩ := Host.hintDivRem_spec fakeGlv hst.host hx hy (lift_eq_ok hr)
  refine p.simulates hst (List.forall_mem_cons.mpr ⟨hq, List.forall_mem_singleton.mpr hrem⟩)
    (fun _ hv => absurd hv List.not_mem_nil) (fun w hw _ => (gate_spec hst hw).1)
    fun honest w hw hpost => ⟨_, _, rfl, fun hhonest htaken => ?_⟩
  have hone := (gate_spec hst (p.realizes.mono hw)).2.mpr htaken
  rw [hxv, hyv]
  exact ⟨hpost.1.2 hhonest hone, hpost.2.2 hhonest hone⟩

/-! ### Requirements and arms -/

lemma simulates_requireEq (hst : st.Sound) (hrun : (requireEq x y).run lcHash st = .ok st') :
    Simulates fakeGlv (requireEq x y).Can st st' (requireEq x y).Rel := by
  obtain ⟨lx, hx, hrun⟩ := Succeeding.bind_eq_ok.mp hrun
  obtain ⟨ly, hy, hrun⟩ := Succeeding.bind_eq_ok.mp hrun
  obtain ⟨h', hr, hrun⟩ := Succeeding.bind_eq_ok.mp hrun
  obtain rfl := Except.ok.inj hrun
  obtain ⟨hx, hxv⟩ := field_ok hst hx
  obtain ⟨hy, hyv⟩ := field_ok hst hy
  refine (Host.requireEq_spec fakeGlv hst.host hx hy hr).simulates_nil hst (fun w hw hcan hopen => ?_)
    fun _ w hw hpost htaken => ?_
  · rw [← hxv, ← hyv]
    exact hcan ((taken_iff hst hw).mpr hopen)
  · rw [hxv, hyv]
    exact hpost ((taken_iff hst hw).mp htaken)

lemma simulates_bind (hst : st.Sound) (hrun : (Call.bind x).run lcHash st = .ok st') :
    Simulates fakeGlv (Call.bind x).Can st st' (Call.bind x).Rel := by
  obtain ⟨lx, hx, hrun⟩ := Succeeding.bind_eq_ok.mp hrun
  obtain ⟨h', hr, hrun⟩ := Succeeding.bind_eq_ok.mp hrun
  obtain rfl := Except.ok.inj hrun
  obtain ⟨hx, -⟩ := field_ok hst hx
  obtain ⟨hsound, hrealizes⟩ : Simulates fakeGlv (Call.bind x).Can st (st.push h' [] [])
      fun _ s s' => s' = s ∧ True :=
    (Host.bind_spec fakeGlv hst.host hx (lift_eq_ok hr)).simulates_nil hst (fun _ _ _ => True.intro)
      fun _ _ _ _ => True.intro
  exact ⟨hsound, hrealizes.weaken (fun _ _ hw => hw) fun _ _ _ hw => hw.1⟩

lemma simulates_requireCond {value : Bool} (hst : st.Sound)
    (hrun : (requireCond c value).run lcHash st = .ok st') :
    Simulates fakeGlv (requireCond c value).Can st st' (requireCond c value).Rel := by
  obtain ⟨id, hid, hrun⟩ := Succeeding.bind_eq_ok.mp hrun
  obtain ⟨h', hr, hrun⟩ := Succeeding.bind_eq_ok.mp hrun
  obtain rfl := Except.ok.inj hrun
  obtain ⟨l, hl, hc⟩ := cond_ok hst hid
  have hvalue : ∀ w, st.h.b.Sat w → (l.eval w = Host.bitValue value ↔
      (st.values w).int c = value.toNat) := by
    intro w hw
    obtain ⟨hbit, hval⟩ := hc w hw
    rw [hval]
    rcases hbit with hzero | hone
    · rw [hzero, ZMod.val_zero]
      cases value <;> simp [Host.bitValue]
    · rw [hone, ZMod.val_one]
      cases value <;> simp [Host.bitValue]
  refine (Host.requireCond_spec fakeGlv hst.host hl (lift_eq_ok hr)).simulates_nil hst
    (fun w hw hcan hopen => ?_) fun _ w hw hpost htaken => ?_
  · exact (hvalue w hw).mpr (hcan ((taken_iff hst hw).mpr hopen))
  · exact (hvalue w hw).mp (hpost ((taken_iff hst hw).mp htaken))

/-- A change of the open arms. -/
lemma simulates_arms {guards : List (LinearCombination × Option LinearCombination)}
    {f : Values → List Bool} {Pv : Values → Prop} (hst : st.Sound)
    (hh : Host.Sound { st.h with guards := guards })
    (hbits : ∀ g ∈ guards, ∀ w, st.h.b.Sat w → IsBit (g.1.eval w))
    (hf : ∀ w, st.h.b.Sat w → guards.map (fun g => decide (g.1.eval w = 1)) = f (st.values w)) :
    Simulates fakeGlv Pv st (st.push { st.h with guards := guards } [] []) fun _ s s' =>
      s' = { s with arms := f s } := by
  refine ⟨⟨hh, hst.settled, ?_, ?_, hbits⟩, Realizes.pure fun _ w hw => ?_⟩
  · intro l hl
    rw [Session.push, List.append_nil] at hl
    exact hst.fields l hl
  · intro v hv
    rw [Session.push, List.append_nil, List.append_nil] at hv
    have hfits : v.2.Fits { st.h with guards := guards } v.1 ∧
        v.2.value st.h.wires (fun _ => 0) = v.2.value st.h.wires fun _ => 0 :=
      (hst.ints v hv).2.grow List.prefix_rfl fun _ hw hr => ⟨hw, hr⟩
    exact ⟨(hst.ints v hv).1, hfits.1⟩
  · rw [Session.push, List.append_nil, List.append_nil]
    exact congrArg (Values.mk (st.values w).fields (st.values w).ints) (hf w hw)

lemma simulates_armBegin {value : Bool} (hst : st.Sound)
    (hrun : (armBegin c value).run lcHash st = .ok st') :
    Simulates fakeGlv (armBegin c value).Can st st' (armBegin c value).Rel := by
  obtain ⟨id, hid, hrun⟩ := Succeeding.bind_eq_ok.mp hrun
  obtain ⟨h', hr, hrun⟩ := Succeeding.bind_eq_ok.mp hrun
  obtain rfl := Except.ok.inj hrun
  obtain ⟨l, hl, hc⟩ := cond_ok hst hid
  obtain ⟨-, -, hsound, -⟩ := hst.host.armBegin (lift_eq_ok hr)
  obtain ⟨l', hl', hr⟩ := Outcome.bind_eq_ok.mp (lift_eq_ok hr)
  obtain rfl := Option.some.inj (hl.symm.trans (orPanic_eq_ok hl'))
  obtain rfl := Except.ok.inj hr
  have hlit : ∀ w, st.h.b.Sat w → IsBit ((if value then l else one - l : LinearCombination).eval w) ∧
      ((if value then l else one - l : LinearCombination).eval w = 1 ↔
        (st.values w).int c = value.toNat) := by
    intro w hw
    obtain ⟨hbit, hval⟩ := hc w hw
    rw [hval]
    cases value with
    | true =>
        refine ⟨hbit, ?_⟩
        rcases hbit with hzero | hone
        · simp [hzero]
        · simp [hone, ZMod.val_one]
    | false =>
        have heval : (one - l).eval w = 1 - l.eval w := by rw [eval_sub, eval_one]
        refine ⟨heval ▸ hbit.one_sub, ?_⟩
        rcases hbit with hzero | hone
        · simp [heval, hzero]
        · simp [heval, hone, ZMod.val_one]
  refine simulates_arms (f := fun s => decide (s.int c = value.toNat) :: s.arms) hst hsound
    (List.forall_mem_cons.mpr ⟨fun w hw => (hlit w hw).1, hst.arms⟩) fun w hw => ?_
  rw [List.map_cons, decide_eq_decide.mpr (hlit w hw).2]
  rfl

lemma simulates_armEnd (hst : st.Sound) (hrun : armEnd.run lcHash st = .ok st') :
    Simulates fakeGlv armEnd.Can st st' armEnd.Rel := by
  obtain rfl := Except.ok.inj hrun
  exact simulates_arms (f := fun s => s.arms.tail) hst hst.host.armEnd (fun g hg => hst.arms g (List.mem_of_mem_tail hg))
    fun w _ => List.map_tail

/-! ### Integers -/

lemma simulates_number {k : ℕ} {wide : Bool} (hst : st.Sound)
    (hrun : (number k wide).run lcHash st = .ok st') :
    Simulates fakeGlv (number k wide).Can st st' (number k wide).Rel := by
  dsimp only [run] at hrun
  split_ifs at hrun with hk
  swap
  · cases hrun
  obtain rfl := Except.ok.inj hrun
  exact (Host.Yields.pure (f := fun _ => k) (v := .const k) hst.host hk fun _ _ => rfl).simulates hst
    (regWidth_le wide) fun _ _ => rfl

lemma simulates_intBin {o : Bin} {wide : Bool} {a b : ℕ} (hst : st.Sound)
    (hrun : (intBin o wide a b).run lcHash st = .ok st') :
    Simulates fakeGlv (intBin o wide a b).Can st st' (intBin o wide a b).Rel := by
  obtain ⟨va, ha, hrun⟩ := Succeeding.bind_eq_ok.mp hrun
  obtain ⟨vb, hb, hrun⟩ := Succeeding.bind_eq_ok.mp hrun
  obtain ⟨r, hr, hrun⟩ := Succeeding.bind_eq_ok.mp hrun
  obtain rfl := Except.ok.inj hrun
  obtain ⟨ha, hav⟩ := int_ok hst ha
  obtain ⟨hb, hbv⟩ := int_ok hst hb
  have hop := Host.intBin_spec fakeGlv hst.host hst.settled (regWidth_eq wide) ha hb hr
  refine hop.performs.simulates hst (fun _ hl => absurd hl List.not_mem_nil)
    (List.forall_mem_singleton.mpr ⟨regWidth_le wide, hop.fits⟩) (fun w hw hcan => ?_)
    fun _ w hw hpost => ?_
  · obtain ⟨hbit, hgate⟩ := gate_spec hst hw
    refine ⟨hbit, ?_⟩
    by_cases hlive : Host.divides o = true → (st.values w).Taken
    · rw [Host.binValue_live fun hdiv => hgate.mpr (hlive hdiv), Option.isSome_map, ← hav, ← hbv]
      exact hcan hlive
    · push Not at hlive
      refine Host.binValue_dead (fun hone => hlive.2 (hgate.mp hone)) hlive.1 (Host.intBin_unsigned hr)
        (hb.value_lt_reg hw (hst.settled.ranges w)) fun k hk => ?_
      rw [IntVal.konst_eq_some hk]
      rfl
  · refine ⟨_, rfl, hop.fits.value_lt_reg hw ((hop.performs.settled hst.settled).ranges w),
      fun hopen => ?_⟩
    have hgate := (gate_spec hst (hop.performs.realizes.mono hw)).2
    rw [Host.binValue_live fun hdiv => hgate.mpr (hopen hdiv), ← hav, ← hbv] at hpost
    obtain ⟨z, hz, hval⟩ := Option.map_eq_some_iff.mp hpost
    refine hz.trans (congrArg some ?_)
    change z = BitVec.ofNat (regWidth wide) (r.1.value r.2.wires w)
    rw [← hval, BitVec.ofNat_toNat, BitVec.setWidth_eq]

lemma simulates_intCmp {o : Cmp} {wide : Bool} {a b : ℕ} (hst : st.Sound)
    (hplain : (intCmp o wide a b).Plain lcHash st)
    (hrun : (intCmp o wide a b).run lcHash st = .ok st') :
    Simulates fakeGlv (intCmp o wide a b).Can st st' (intCmp o wide a b).Rel := by
  obtain ⟨va, ha', hrun⟩ := Succeeding.bind_eq_ok.mp hrun
  obtain ⟨vb, hb', hrun⟩ := Succeeding.bind_eq_ok.mp hrun
  obtain ⟨r, hr, hrun⟩ := Succeeding.bind_eq_ok.mp hrun
  obtain rfl := Except.ok.inj hrun
  obtain ⟨ha, hav⟩ := int_ok hst ha'
  obtain ⟨hb, hbv⟩ := int_ok hst hb'
  exact (Host.intCmp_spec fakeGlv hst.host hst.settled (regWidth_eq wide) ha hb
    (fun ho => hplain ho va vb ha' hb') hr).simulates hst (by norm_num) fun w _ => by rw [hav, hbv]

lemma simulates_intNot (hst : st.Sound) (hrun : (intNot c).run lcHash st = .ok st') :
    Simulates fakeGlv (intNot c).Can st st' (intNot c).Rel := by
  obtain ⟨v, hv, hrun⟩ := Succeeding.bind_eq_ok.mp hrun
  obtain ⟨r, hr, hrun⟩ := Succeeding.bind_eq_ok.mp hrun
  obtain rfl := Except.ok.inj hrun
  obtain ⟨hv, hval⟩ := int_ok hst hv
  exact (Host.intNot_spec fakeGlv hst.host hst.settled hv (lift_eq_ok hr)).simulates hst (by norm_num)
    fun w _ => by rw [hval]

lemma simulates_boolOp {o : BoolOp} {a b : ℕ} (hst : st.Sound)
    (hrun : (boolOp o a b).run lcHash st = .ok st') :
    Simulates fakeGlv (boolOp o a b).Can st st' (boolOp o a b).Rel := by
  obtain ⟨va, ha, hrun⟩ := Succeeding.bind_eq_ok.mp hrun
  obtain ⟨vb, hb, hrun⟩ := Succeeding.bind_eq_ok.mp hrun
  obtain ⟨r, hr, hrun⟩ := Succeeding.bind_eq_ok.mp hrun
  obtain rfl := Except.ok.inj hrun
  obtain ⟨ha, hav⟩ := int_ok hst ha
  obtain ⟨hb, hbv⟩ := int_ok hst hb
  exact (Host.boolOp_spec fakeGlv hst.host hst.settled ha hb (lift_eq_ok hr)).simulates hst (by norm_num)
    fun w _ => by rw [hav, hbv]

lemma simulates_intTrunc {a : ℕ} {wide : Bool} (hst : st.Sound)
    (hrun : (intTrunc a wide).run lcHash st = .ok st') :
    Simulates fakeGlv (intTrunc a wide).Can st st' (intTrunc a wide).Rel := by
  obtain ⟨v, hv, hrun⟩ := Succeeding.bind_eq_ok.mp hrun
  obtain ⟨r, hr, hrun⟩ := Succeeding.bind_eq_ok.mp hrun
  obtain rfl := Except.ok.inj hrun
  obtain ⟨hv, hval⟩ := int_ok hst hv
  exact (Host.intTrunc_spec fakeGlv hst.host hst.settled (by norm_num) hv (regWidth_eq wide) hr).simulates
    hst (regWidth_le wide) fun w _ => by rw [hval]

lemma simulates_signExtend {a width : ℕ} {wide : Bool} (hst : st.Sound)
    (hrun : (signExtend a width wide).run lcHash st = .ok st') :
    Simulates fakeGlv (signExtend a width wide).Can st st' (signExtend a width wide).Rel := by
  dsimp only [run] at hrun
  split_ifs at hrun with hwidth
  swap
  · cases hrun
  obtain ⟨v, hv, hrun⟩ := Succeeding.bind_eq_ok.mp hrun
  obtain ⟨r, hr, hrun⟩ := Succeeding.bind_eq_ok.mp hrun
  obtain rfl := Except.ok.inj hrun
  obtain ⟨hv, hval⟩ := int_ok hst hv
  exact (Host.signExtend_spec fakeGlv hst.host hst.settled (regWidth_eq wide) hwidth.1 hwidth.2 hv
    hr).simulates hst (regWidth_le wide) fun w _ => by rw [hval]

lemma simulates_select {t e : ℕ} {wide : Bool} (hst : st.Sound)
    (hrun : (select c t e wide).run lcHash st = .ok st') :
    Simulates fakeGlv (select c t e wide).Can st st' (select c t e wide).Rel := by
  obtain ⟨id, hid, hrun⟩ := Succeeding.bind_eq_ok.mp hrun
  obtain ⟨vt, ht, hrun⟩ := Succeeding.bind_eq_ok.mp hrun
  obtain ⟨ve, he, hrun⟩ := Succeeding.bind_eq_ok.mp hrun
  obtain rfl := Except.ok.inj hrun
  obtain ⟨l, hl, hc⟩ := cond_ok hst hid
  obtain ⟨ht, htv⟩ := int_ok hst ht
  obtain ⟨he, hev⟩ := int_ok hst he
  refine (Host.Yields.pure (f := fun w => if l.eval w = 1 then vt.value st.h.wires w
    else ve.value st.h.wires w) hst.host ?_ fun w hw => ?_).simulates hst (regWidth_le wide)
    (f := fun s => if s.int c = 1 then s.int t else s.int e) fun w hw => ?_
  · rw [IntVal.mkIte]
    split_ifs
    · exact ht
    · exact ⟨⟨l, hl, fun w hw _ => (hc w hw).1⟩, ht, he⟩
  · rw [IntVal.mkIte]
    split_ifs with hsame hone hone
    · rfl
    · rw [hsame]
    · rw [IntVal.value, hl, Option.getD_some, if_pos hone]
    · rw [IntVal.value, hl, Option.getD_some, if_neg hone]
  · obtain ⟨hbit, hval⟩ := hc w hw
    rw [htv, hev, hval]
    rcases hbit with hzero | hone
    · rw [hzero, ZMod.val_zero, if_neg zero_ne_one, if_neg zero_ne_one]
    · rw [hone, ZMod.val_one, if_pos rfl, if_pos rfl]

/-! ### Runs -/

/-- **The step**: the rows that a call adds are the call. -/
lemma simulates (fakeGlv : FakeGlv) (call : Call) (hst : st.Sound) (hplain : call.Plain lcHash st)
    (hrun : call.run lcHash st = .ok st') : Simulates fakeGlv call.Can st st' call.Rel := by
  cases call with
  | const k => exact simulates_const hst hrun
  | add x y negY => exact simulates_add hst hrun
  | neg x => exact simulates_neg hst hrun
  | mul x y => exact simulates_mul hst hrun
  | pow x n => exact simulates_pow hst hrun
  | xorOr isXor x y => exact simulates_xorOr hst hrun
  | eq x y => exact simulates_eq hst hrun
  | ult n x y => exact simulates_ult hst hrun
  | toBits x n => exact simulates_toBits hst hrun
  | fieldToUint x n => exact simulates_fieldToUint hst hrun
  | boolToField c => exact simulates_boolToField hst hrun
  | advice => exact simulates_advice hst hrun
  | hintInverse orZero x => exact simulates_hintInverse hst hrun
  | hintBit x i => exact simulates_hintBit hst hrun
  | hintDivRem num den => exact simulates_hintDivRem hst hrun
  | requireEq x y => exact simulates_requireEq hst hrun
  | bind x => exact simulates_bind hst hrun
  | mux c t e => exact simulates_mux hst hrun
  | number k wide => exact simulates_number hst hrun
  | intBin o wide a b => exact simulates_intBin hst hrun
  | intCmp o wide a b => exact simulates_intCmp hst hplain hrun
  | intNot c => exact simulates_intNot hst hrun
  | boolOp o a b => exact simulates_boolOp hst hrun
  | intTrunc a wide => exact simulates_intTrunc hst hrun
  | signExtend a width wide => exact simulates_signExtend hst hrun
  | select c t e wide => exact simulates_select hst hrun
  | requireCond c value => exact simulates_requireCond hst hrun
  | armBegin c value => exact simulates_armBegin hst hrun
  | armEnd => exact simulates_armEnd hst hrun

end Call

end Frontend

end XarkCircuit
