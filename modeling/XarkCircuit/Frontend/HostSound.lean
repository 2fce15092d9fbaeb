import XarkCircuit.Frontend.KnownBits

/-!
What the operations of the host emit.

* `Host.Sound` is the invariant: whatever is remembered is proven by the rows.
* `Performs` is the meaning of an operation: the invariant is kept, and rows and hints are added for
  a postcondition. `Performs.seq` is the rule of a sequence.
* In an arm, `gate` is one where the arm is taken and zero where it is not. A requirement of an arm
  binds where it is taken.
-/

namespace XarkCircuit

namespace Frontend

open LinearCombination Emission Emission.Emitter
open Verifier (rModulus)

lemma isBit_iff_val_lt (x : Fr) : IsBit x ↔ x.val < 2 ^ 1 := by
  constructor
  · rintro (rfl | rfl)
    · rw [ZMod.val_zero]
      norm_num
    · rw [ZMod.val_one_eq_one_mod]
      norm_num [rModulus]
  · intro hx
    have hcast : ((x.val : ℕ) : Fr) = x := ZMod.natCast_zmod_val x
    rcases Nat.le_one_iff_eq_zero_or_eq_one.mp (Nat.lt_succ_iff.mp hx) with h | h
    · exact .inl (by rw [← hcast, h, Nat.cast_zero])
    · exact .inr (by rw [← hcast, h, Nat.cast_one])

lemma IsBit.val_lt {x : Fr} (hx : IsBit x) : x.val < 2 ^ 1 := (isBit_iff_val_lt x).mp hx

namespace Host

/-! ### The invariant -/

/-- The product of the conditions of arms. -/
def armProduct (lits : List LinearCombination) (w : VarId → Fr) : Fr :=
  (lits.map fun l => l.eval w).prod

/-- The conjunctions that were made are those of the arms. -/
def GuardsHold (b : Builder) : List (LinearCombination × Option LinearCombination) → Prop
  | [] => True
  | (lit, g) :: outer =>
      lit.Below b.nextVarId ∧
      (∀ g' ∈ g, g'.Below b.nextVarId ∧ ∀ w, b.Sat w →
        g'.eval w = armProduct (lit :: outer.map Prod.fst) w) ∧
      GuardsHold b outer

/-- The integer inputs whose range is still to be checked are in range. -/
def Ranges (h : Host) (w : VarId → Fr) : Prop := ∀ u ∈ h.uintInputs, (w u.1).val < 2 ^ u.2

/-- A comparison of unsigned numbers. -/
def unsignedCmp (o : Cmp) (x y : ℕ) : Option Bool :=
  match o with
  | .eq => some (x = y)
  | .ne => some (x ≠ y)
  | .ltU => some (x < y)
  | .gtU => some (y < x)
  | .leU => some (x ≤ y)
  | .geU => some (y ≤ x)
  | _ => none

/-- The invariant. -/
structure Sound (h : Host) : Prop where
  builder : h.b.Sound
  modulus : ∀ p ∈ h.reduce, p = rModulus
  guards : GuardsHold h.b h.guards
  cache : ∀ x n bits, h.bitCache (x, n) = some bits → (∀ l ∈ bits, l.Below h.b.nextVarId) ∧
    ∀ w, h.b.Sat w → AreBits bits n (x.eval w) w
  cache_open : ∀ x n bits, h.bitCache (x, n) = some bits → x.isConstant = false →
    ∀ l ∈ bits, l.isConstant = false
  muxes : ∀ id t e l, h.muxes (id, t, e) = some l → (l.Below h.b.nextVarId ∧ Canonical l.terms) ∧
    ∃ c, h.wires[id]? = some c ∧ ∀ w, h.b.Sat w →
      l.eval w = e.eval w + c.eval w * (t.eval w - e.eval w)
  wires : ∀ l ∈ h.wires, l.Below h.b.nextVarId
  canonical : ∀ l ∈ h.wires, Canonical l.terms
  widths : ∀ v n, h.varWidth v = some n → ∀ w, h.b.Sat w → h.Ranges w → (w v).val < 2 ^ n
  bounds : ∀ v m, h.varMax v = some m → ∀ w, h.b.Sat w → h.Ranges w → (w v).val ≤ m
  facts : ∀ id o x y, h.cmpFacts id = some (o, x, y) → ∃ c, h.wires[id]? = some c ∧
    ∀ w, h.b.Sat w → h.Ranges w → ∀ v, unsignedCmp o (x.eval w).val (y.eval w).val = some v →
      c.eval w = if v then 1 else 0
  uintInputs : ∀ u ∈ h.uintInputs, u.1.val < h.b.nextVarId
  pendingHi : ∀ l ∈ h.pendingHi, l.Below h.b.nextVarId

/-- The conjunction of the open arms. -/
def gate (h : Host) (w : VarId → Fr) : Fr := armProduct (h.guards.map Prod.fst) w

variable {h h₁ h' : Host} {b b' : Builder} {fakeGlv : FakeGlv} {lcHash : LinearCombination → ℕ}

lemma GuardsHold.grow {gs : List (LinearCombination × Option LinearCombination)}
    (hg : GuardsHold b gs) (hle : b.nextVarId ≤ b'.nextVarId) (hsat : ∀ w, b'.Sat w → b.Sat w) :
    GuardsHold b' gs := by
  induction gs with
  | nil => exact True.intro
  | cons g outer ih =>
      obtain ⟨hlit, hconj, houter⟩ := hg
      exact ⟨hlit.mono hle, fun g' hg' => ⟨(hconj g' hg').1.mono hle,
        fun w hw => (hconj g' hg').2 w (hsat w hw)⟩, ih houter⟩

lemma GuardsHold.below {gs : List (LinearCombination × Option LinearCombination)}
    (hg : GuardsHold b gs) : ∀ l ∈ gs.map Prod.fst, l.Below b.nextVarId := by
  induction gs with
  | nil => exact fun _ hl => absurd hl List.not_mem_nil
  | cons g outer ih =>
      rw [List.map_cons, List.forall_mem_cons]
      exact ⟨hg.1, ih hg.2.2⟩

/-- What is remembered stays true when the builder goes on. -/
lemma Sound.grow (hh : h.Sound) (hb' : b'.Sound) (hle : h.b.nextVarId ≤ b'.nextVarId)
    (hsat : ∀ w, b'.Sat w → h.b.Sat w) : Sound { h with b := b' } where
  builder := hb'
  modulus := hh.modulus
  guards := hh.guards.grow hle hsat
  cache := fun x n bits hbits =>
    ⟨fun l hl => ((hh.cache x n bits hbits).1 l hl).mono hle,
      fun w hw => (hh.cache x n bits hbits).2 w (hsat w hw)⟩
  cache_open := hh.cache_open
  muxes := fun id t e l hl => by
    obtain ⟨hl, c, hc, hval⟩ := hh.muxes id t e l hl
    exact ⟨⟨hl.1.mono hle, hl.2⟩, c, hc, fun w hw => hval w (hsat w hw)⟩
  wires := fun l hl => (hh.wires l hl).mono hle
  canonical := hh.canonical
  widths := fun v n hv w hw => hh.widths v n hv w (hsat w hw)
  bounds := fun v m hv w hw => hh.bounds v m hv w (hsat w hw)
  facts := fun id o x y hid => by
    obtain ⟨c, hc, hval⟩ := hh.facts id o x y hid
    exact ⟨c, hc, fun w hw => hval w (hsat w hw)⟩
  uintInputs := fun u hu => (hh.uintInputs u hu).trans_le hle
  pendingHi := fun l hl => (hh.pendingHi l hl).mono hle

/-! ### Operations -/

/-- An operation takes `h` to `h'`: the invariant is kept and the arms stay; what is added forces
`Q false`, and gives `Q true` to whoever follows the hints, which satisfy it from `P`. -/
structure Performs (fakeGlv : FakeGlv) (h : Host) (P : (VarId → Fr) → Prop) (h' : Host)
    (Q : Bool → (VarId → Fr) → Prop) : Prop where
  sound : h'.Sound
  arms : h'.guards.map Prod.fst = h.guards.map Prod.fst
  wires : h.wires <+: h'.wires
  inputs : h'.uintInputs = h.uintInputs
  realizes : Realizes (Builder.emitter fakeGlv) P h.b h'.b Q

variable {P P₁ P₂ : (VarId → Fr) → Prop} {Q Q₁ Q₂ : Bool → (VarId → Fr) → Prop}

lemma Performs.le (hp : Performs fakeGlv h P h' Q) : h.b.nextVarId ≤ h'.b.nextVarId :=
  hp.realizes.next_le

lemma Performs.gate_eq (hp : Performs fakeGlv h P h' Q) (w : VarId → Fr) : h'.gate w = h.gate w := by
  rw [gate, gate, hp.arms]

/-- Nothing is emitted. -/
lemma Performs.pure (hh : h.Sound) (hQ : ∀ honest w, h.b.Sat w → Q honest w) :
    Performs fakeGlv h P h Q :=
  ⟨hh, rfl, List.prefix_rfl, rfl, Realizes.pure hQ⟩

/-- **The rule of a sequence.** -/
lemma Performs.seq (hp₁ : Performs fakeGlv h P₁ h₁ Q₁) (hp₂ : Performs fakeGlv h₁ P₂ h' Q₂)
    (hP : ∀ w, P w → P₁ w)
    (hP₂ : ∀ w, P w → h₁.b.Sat w → Q₁ false w → Q₁ true w → P₂ w)
    (hQ : ∀ honest w, h'.b.Sat w → Q₁ honest w → Q₂ honest w → Q honest w) :
    Performs fakeGlv h P h' Q :=
  ⟨hp₂.sound, hp₂.arms.trans hp₁.arms, hp₁.wires.trans hp₂.wires, hp₂.inputs.trans hp₁.inputs,
    hp₁.realizes.seq hp₂.realizes hP hP₂ hQ⟩

lemma Performs.weaken (hp : Performs fakeGlv h P₁ h' Q₁) (hP : ∀ w, h.b.Sat w → P w → P₁ w)
    (hQ : ∀ honest w, h'.b.Sat w → Q₁ honest w → Q honest w) : Performs fakeGlv h P h' Q :=
  ⟨hp.sound, hp.arms, hp.wires, hp.inputs, hp.realizes.weaken hP hQ⟩

/-- What the builder emits. -/
lemma Performs.of_builder (hh : h.Sound) (hb' : b'.Sound)
    (hr : Realizes (Builder.emitter fakeGlv) P h.b b' Q) : Performs fakeGlv h P { h with b := b' } Q :=
  ⟨hh.grow hb' hr.next_le fun _ => hr.mono, rfl, List.prefix_rfl, rfl, hr⟩

lemma getElem?_newWire {id width : ℕ} {l c : LinearCombination} (hc : h.wires[id]? = some c) :
    (h.newWire l width).wires[id]? = some c :=
  (List.getElem?_append_left (List.getElem?_eq_some_iff.mp hc).1).trans hc

lemma varWidth_newWire {l : LinearCombination} {v : VarId} {n width : ℕ}
    (hv : (h.newWire l width).varWidth v = some n) :
    h.varWidth v = some n ∨ (l = ofVar v ∧ n = width) := by
  unfold Host.newWire at hv
  cases hone : Builder.oneVar l with
  | none =>
      simp only [hone] at hv
      exact .inl hv
  | some u =>
      simp only [hone] at hv
      by_cases huv : v = u
      · subst huv
        rw [Function.update_self] at hv
        have hmin := Option.some.inj hv
        rcases min_choice ((h.varWidth v).getD width) width with hleft | hright
        · cases hold : h.varWidth v with
          | none => exact .inr ⟨Builder.oneVar_eq_some.mp hone, by rw [← hmin, hleft, hold]; rfl⟩
          | some m => exact .inl (by rw [← hmin, hleft, hold]; rfl)
        · exact .inr ⟨Builder.oneVar_eq_some.mp hone, by rw [← hmin, hright]⟩
      · rw [Function.update_of_ne huv] at hv
        exact .inl hv

/-- A new wire of a value in its width. -/
lemma Sound.newWire (hh : h.Sound) {l : LinearCombination} {width : ℕ} (hl : l.Below h.b.nextVarId)
    (hcanon : Canonical l.terms)
    (hrange : ∀ w, h.b.Sat w → h.Ranges w → (l.eval w).val < 2 ^ width) :
    (h.newWire l width).Sound where
  builder := hh.builder
  modulus := hh.modulus
  guards := hh.guards
  cache := hh.cache
  cache_open := hh.cache_open
  muxes := fun id t e m hm => by
    obtain ⟨hm, c, hc, hval⟩ := hh.muxes id t e m hm
    exact ⟨hm, c, getElem?_newWire hc, hval⟩
  wires := fun m hm => by
    rcases List.mem_append.mp hm with hm | hm
    · exact hh.wires m hm
    · rwa [List.mem_singleton.mp hm]
  canonical := fun m hm => by
    rcases List.mem_append.mp hm with hm | hm
    · exact hh.canonical m hm
    · rwa [List.mem_singleton.mp hm]
  widths := fun v n hv w hw hr => by
    rcases varWidth_newWire hv with hold | ⟨rfl, rfl⟩
    · exact hh.widths v n hold w hw hr
    · have hnew := hrange w hw hr
      rwa [eval_ofVar] at hnew
  bounds := hh.bounds
  facts := fun id o x y hid => by
    obtain ⟨c, hc, hval⟩ := hh.facts id o x y hid
    exact ⟨c, getElem?_newWire hc, hval⟩
  uintInputs := hh.uintInputs
  pendingHi := hh.pendingHi

lemma Performs.newWire (hp : Performs fakeGlv h P h' Q) {l : LinearCombination} {width : ℕ}
    (hl : l.Below h'.b.nextVarId) (hcanon : Canonical l.terms)
    (hrange : ∀ w, h'.b.Sat w → h'.Ranges w → Q false w → (l.eval w).val < 2 ^ width) :
    Performs fakeGlv h P (h'.newWire l width) Q where
  sound := hp.sound.newWire hl hcanon fun w hw hr => hrange w hw hr (hp.realizes.emits.post hw)
  arms := hp.arms
  wires := hp.wires.trans (List.prefix_append _ _)
  inputs := hp.inputs
  realizes := hp.realizes

lemma Sound.eval_putField (hh : h.Sound) (l : LinearCombination) (w : VarId → Fr) :
    (h.putField l).eval w = l.eval w := eval_reduceLc hh.modulus l w

lemma below_putField {n : ℕ} {l : LinearCombination} (hl : l.Below n) : (h.putField l).Below n :=
  below_reduceLc hl

/-! ### Values -/

/-- An operation returns a combination that has the value of `f`. -/
structure Computes (fakeGlv : FakeGlv) (h : Host) (out : LinearCombination) (h' : Host)
    (f : (VarId → Fr) → Fr) : Prop where
  below : out.Below h'.b.nextVarId
  performs : Performs fakeGlv h (fun _ => True) h' fun _ w => out.eval w = f w

variable {x y out : LinearCombination} {f : (VarId → Fr) → Fr}

lemma Computes.of_emits (hh : h.Sound) (hb' : b'.Sound) (hout : out.Below b'.nextVarId)
    (he : Emission.Emits (Builder.emitter fakeGlv) (fun _ => True) h.b b' fun w => out.eval w = f w) :
    Computes fakeGlv h out { h with b := b' } f :=
  ⟨hout, .of_builder hh hb' (.of_emits he)⟩

/-- What is stored has the same value. -/
lemma Computes.putField (hc : Computes fakeGlv h out h' f) (hh : h.Sound) :
    Computes fakeGlv h (h.putField out) h' f :=
  ⟨below_putField hc.below, hc.performs.weaken (fun _ _ hw => hw) fun _ w _ hval => by
    rw [hh.eval_putField, hval]⟩

lemma Computes.newWire (hc : Computes fakeGlv h out h' f) (hcanon : Canonical out.terms) {width : ℕ}
    (hrange : ∀ w, h'.b.Sat w → h'.Ranges w → (f w).val < 2 ^ width) :
    Computes fakeGlv h out (h'.newWire out width) f := by
  refine ⟨hc.below, hc.performs.newWire hc.below hcanon fun w hw hr hval => ?_⟩
  rw [hval]
  exact hrange w hw hr

lemma emits_consume (fakeGlv : FakeGlv) (hb : b.Sound) (l : LinearCombination) : (b.consumePending l).Sound ∧
    (b.consumePending l).nextVarId = b.nextVarId ∧
    Emission.Emits (Builder.emitter fakeGlv) (fun _ => True) b (b.consumePending l) fun _ => True :=
  ⟨hb.consumePending l, Builder.consumePending_nextVarId, Builder.emits_consumePending hb fakeGlv⟩

lemma emits_consume₂ (fakeGlv : FakeGlv) (hb : b.Sound) (x y : LinearCombination) :
    ((b.consumePending x).consumePending y).Sound ∧
    ((b.consumePending x).consumePending y).nextVarId = b.nextVarId ∧
    Emission.Emits (Builder.emitter fakeGlv) (fun _ => True) b ((b.consumePending x).consumePending y)
      fun _ => True := by
  obtain ⟨hb₁, hn₁, e₁⟩ := emits_consume fakeGlv hb x
  obtain ⟨hb₂, hn₂, e₂⟩ := emits_consume fakeGlv hb₁ y
  exact ⟨hb₂, hn₂.trans hn₁, e₁.seq e₂ (fun _ hw => hw) (fun _ hw _ _ => hw) fun _ _ _ hw => hw⟩

/-- Nothing is emitted, but a product may be consumed. -/
lemma Computes.of_consumed (hh : h.Sound)
    (hb' : b'.Sound ∧ b'.nextVarId = h.b.nextVarId ∧
      Emission.Emits (Builder.emitter fakeGlv) (fun _ => True) h.b b' fun _ => True)
    (hout : out.Below h.b.nextVarId) (hval : ∀ w, out.eval w = f w) :
    Computes fakeGlv h out { h with b := b' } f :=
  .of_emits hh hb'.1 (hb'.2.1.symm ▸ hout) (hb'.2.2.weaken (fun _ _ hw => hw) fun w _ _ => hval w)

/-- What is emitted after a product is consumed. -/
lemma Computes.after_consumed (hh : h.Sound) {b₁ : Builder}
    (hb₁ : b₁.Sound ∧ b₁.nextVarId = h.b.nextVarId ∧
      Emission.Emits (Builder.emitter fakeGlv) (fun _ => True) h.b b₁ fun _ => True)
    (he : b'.Sound ∧ out.Below b'.nextVarId ∧
      Emission.Emits (Builder.emitter fakeGlv) (fun _ => True) b₁ b' fun w => out.eval w = f w) :
    Computes fakeGlv h out { h with b := b' } f :=
  .of_emits hh he.1 he.2.1 (hb₁.2.2.seq he.2.2 (fun _ hw => hw) (fun _ hw _ _ => hw)
    fun _ _ _ hw => hw)

/-! ### Arithmetic -/

lemma mergeLc_eq_lc (x y : LinearCombination) (negB : Bool) :
    (XarkCircuit.Host.mergeLc x.constant x.terms y.constant y.terms negB).1
      = if negB then x - y else x + y :=
  XarkCircuit.Host.mergeLc_eq x.constant x.terms y.constant y.terms negB

lemma add_spec (hh : h.Sound) (hx : x.Below h.b.nextVarId) (hy : y.Below h.b.nextVarId)
    (negB : Bool) : Computes fakeGlv h (h.add x y negB).1 (h.add x y negB).2
      fun w => if negB then x.eval w - y.eval w else x.eval w + y.eval w := by
  have hmerge := mergeLc_eq_lc x y negB
  have hout : Computes fakeGlv h
      (XarkCircuit.Host.mergeLc x.constant x.terms y.constant y.terms negB).1 (h.add x y negB).2
      fun w => if negB then x.eval w - y.eval w else x.eval w + y.eval w := by
    refine .of_consumed hh (emits_consume₂ fakeGlv hh.builder x y) ?_ fun w => ?_
    · rw [hmerge]
      split_ifs
      · exact hx.sub hy
      · exact hx.add hy
    · rw [hmerge]
      split_ifs
      · exact eval_sub w x y
      · exact eval_add w x y
  by_cases hput : ((XarkCircuit.Host.mergeLc x.constant x.terms y.constant y.terms negB).2 ||
      (isRaw x || isRaw y)) = true
  · have heq : (h.add x y negB).1 = h.putField
        (XarkCircuit.Host.mergeLc x.constant x.terms y.constant y.terms negB).1 := if_pos hput
    rw [heq]
    exact hout.putField hh
  · have heq : (h.add x y negB).1 =
        (XarkCircuit.Host.mergeLc x.constant x.terms y.constant y.terms negB).1 := if_neg hput
    rwa [heq]

lemma neg_spec (hh : h.Sound) (hx : x.Below h.b.nextVarId) :
    Computes fakeGlv h (h.neg x).1 (h.neg x).2 fun w => -x.eval w :=
  (Computes.of_consumed hh (emits_consume fakeGlv hh.builder x) (fun v hv => hx v (vars_neg x ▸ hv)) fun w =>
    eval_neg w x).putField hh

lemma mul_spec {lcHash : LinearCombination → ℕ} (hh : h.Sound) (hx : x.Below h.b.nextVarId)
    (hy : y.Below h.b.nextVarId) (hmul : h.mul lcHash x y = .ok (out, h')) :
    Computes fakeGlv h out h' fun w => x.eval w * y.eval w := by
  rw [mul] at hmul
  split_ifs at hmul with hxc hyc
  · obtain ⟨rfl, rfl⟩ := Prod.mk.inj (Except.ok.inj hmul)
    refine (Computes.of_consumed hh (emits_consume fakeGlv hh.builder y) (hy.scale x.constant)
      fun w => ?_).putField hh
    rw [eval_scale, eval_of_isConstant hxc, mul_comm]
  · obtain ⟨rfl, rfl⟩ := Prod.mk.inj (Except.ok.inj hmul)
    refine (Computes.of_consumed hh (emits_consume fakeGlv hh.builder x) (hx.scale y.constant)
      fun w => ?_).putField hh
    rw [eval_scale, eval_of_isConstant hyc]
  · obtain ⟨⟨v, b'⟩, hv, hmul⟩ := Outcome.bind_eq_ok.mp hmul
    obtain ⟨rfl, rfl⟩ := Prod.mk.inj (Except.ok.inj hmul)
    have hb₁ := emits_consume₂ fakeGlv hh.builder x y
    obtain ⟨hb', hvlt, he⟩ := Builder.emitMulVar_spec hb₁.1 (hb₁.2.1.symm ▸ hx) (hb₁.2.1.symm ▸ hy)
      hv fakeGlv
    refine .after_consumed hh hb₁ ⟨hb', below_ofVar.mpr hvlt, he.weaken (fun _ _ hw => hw) ?_⟩
    intro w _ hw
    rw [eval_ofVar, hw]

lemma pow_spec {n : ℕ} (hh : h.Sound) (hx : x.Below h.b.nextVarId)
    (hpow : h.pow lcHash x n = .ok (out, h')) :
    Computes fakeGlv h out h' fun w => x.eval w ^ n := by
  have hb₁ := emits_consume fakeGlv hh.builder x
  have hemitted : ∀ {r : LinearCombination × Builder},
      (h.b.consumePending x).emitPow lcHash x n = .ok r →
      Computes fakeGlv h (h.putField r.1) { h with b := r.2 } fun w => x.eval w ^ n := by
    intro r hr
    obtain ⟨hb', hout, he⟩ := Builder.emitPow_spec hb₁.1 (hb₁.2.1.symm ▸ hx) hr fakeGlv
    exact (Computes.after_consumed hh hb₁ ⟨hb', hout, he⟩).putField hh
  unfold pow at hpow
  split at hpow
  next p hp hconst =>
    obtain ⟨rfl, rfl⟩ := Prod.mk.inj (Except.ok.inj hpow)
    refine (Computes.of_consumed hh hb₁ (Below.ofConst _) fun w => ?_).putField hh
    rw [eval_ofConst, eval_of_isConstant hconst, hh.modulus p (Option.mem_def.mpr hp),
      ZMod.intCast_mod, Int.cast_pow, ZMod.intCast_mod]
  next =>
    obtain ⟨r, hr, hpow⟩ := Outcome.bind_eq_ok.mp hpow
    obtain ⟨rfl, rfl⟩ := Prod.mk.inj (Except.ok.inj hpow)
    exact hemitted hr

/-- Exclusive or, and or, of field elements. -/
def xorOrValue (isXor : Bool) (x y : Fr) : Fr :=
  if isXor then x + y - (x * y + x * y) else x + y - x * y

lemma xorOrValue_comm (isXor : Bool) (x y : Fr) : xorOrValue isXor x y = xorOrValue isXor y x := by
  rw [xorOrValue, xorOrValue]
  split_ifs <;> ring

/-- With a constant it is linear. -/
lemma eval_xorOr_const (isXor : Bool) (v : LinearCombination) (k : FieldConst) (w : VarId → Fr) :
    (⟨(v.scale (if isXor then 1 + k * -2 else 1 + -k)).constant + k,
      (v.scale (if isXor then 1 + k * -2 else 1 + -k)).terms⟩ : LinearCombination).eval w
      = xorOrValue isXor (v.eval w) k := by
  have hshift : ∀ l : LinearCombination,
      (⟨l.constant + k, l.terms⟩ : LinearCombination).eval w = l.eval w + k := by
    intro l
    rw [eval, eval]
    push_cast
    ring
  rw [hshift, eval_scale, xorOrValue]
  split_ifs
  · push_cast
    ring
  · push_cast
    ring

lemma xorOr_spec {isXor : Bool} (hh : h.Sound) (hx : x.Below h.b.nextVarId)
    (hy : y.Below h.b.nextVarId) (hop : h.xorOr isXor x y = .ok (out, h')) :
    Computes fakeGlv h out h' fun w => xorOrValue isXor (x.eval w) (y.eval w) := by
  have hfold : ∀ {v : LinearCombination} {k : FieldConst}, v.Below h.b.nextVarId →
      Computes fakeGlv h (h.putField ⟨(v.scale (if isXor then 1 + k * -2 else 1 + -k)).constant + k,
          (v.scale (if isXor then 1 + k * -2 else 1 + -k)).terms⟩)
        { h with b := h.b.consumePending v } fun w => xorOrValue isXor (v.eval w) k := by
    intro v k hv
    refine (Computes.of_consumed hh (emits_consume fakeGlv hh.builder v) ?_
      fun w => eval_xorOr_const isXor v k w).putField hh
    exact hv.scale _
  rw [xorOr] at hop
  by_cases hyc : y.isConstant = true
  · rw [if_pos hyc] at hop
    obtain ⟨rfl, rfl⟩ := Prod.mk.inj (Except.ok.inj hop)
    have hout := hfold (k := y.constant) hx
    exact ⟨hout.below, hout.performs.weaken (fun _ _ hw => hw) fun _ w _ hw => by
      rw [hw, eval_of_isConstant hyc]⟩
  rw [if_neg hyc] at hop
  by_cases hxc : x.isConstant = true
  · rw [if_pos hxc] at hop
    obtain ⟨rfl, rfl⟩ := Prod.mk.inj (Except.ok.inj hop)
    have hout := hfold (k := x.constant) hy
    exact ⟨hout.below, hout.performs.weaken (fun _ _ hw => hw) fun _ w _ hw => by
      rw [hw, eval_of_isConstant hxc, xorOrValue_comm]⟩
  rw [if_neg hxc] at hop
  cases isXor with
  | true =>
      obtain ⟨⟨v, b'⟩, hv, hop⟩ := Outcome.bind_eq_ok.mp hop
      obtain ⟨rfl, rfl⟩ := Prod.mk.inj (Except.ok.inj hop)
      obtain ⟨hb', hout, he⟩ := Builder.emitXor_spec hh.builder hx hy hv fakeGlv
      exact (Computes.of_emits hh hb' hout he).putField hh
  | false =>
      obtain ⟨⟨v, b'⟩, hv, hop⟩ := Outcome.bind_eq_ok.mp hop
      obtain ⟨rfl, rfl⟩ := Prod.mk.inj (Except.ok.inj hop)
      obtain ⟨hb', hout, he⟩ := Builder.emitOr_spec hh.builder hx hy hv fakeGlv
      exact (Computes.of_emits hh hb' hout he).putField hh

lemma eq_spec (fakeGlv : FakeGlv) (hh : h.Sound) (hx : x.Below h.b.nextVarId) (hy : y.Below h.b.nextVarId)
    (heq : h.eq lcHash x y = .ok (out, h')) :
    Computes fakeGlv h out h' fun w => if x.eval w = y.eval w then 1 else 0 := by
  obtain ⟨⟨l, b'⟩, hl, heq⟩ := Outcome.bind_eq_ok.mp heq
  obtain ⟨rfl, rfl⟩ := Prod.mk.inj (Except.ok.inj heq)
  obtain ⟨hb', hout, he⟩ := Builder.emitIsZero_spec hh.builder (hx.sub hy) hl fakeGlv
  simp only [eval_sub, sub_eq_zero] at he
  refine (Computes.of_emits hh hb' hout he).newWire (Builder.canonical_emitIsZero hl) fun w _ _ =>
    IsBit.val_lt ?_
  exact (ite_eq_or_eq _ _ _).symm

/-- The negation of a bit. -/
lemma not_spec (hh : h.Sound) (hx : x.Below h.b.nextVarId)
    (hbit : ∀ w, h.b.Sat w → h.Ranges w → (x.eval w).val < 2 ^ 1) :
    Computes fakeGlv h (h.not x).1 (h.not x).2 fun w => 1 - x.eval w := by
  have heval : ∀ w : VarId → Fr, (one - x).eval w = 1 - x.eval w := fun w =>
    (eval_sub w one x).trans (congrArg (· - _) (eval_one w))
  have hsame : Computes fakeGlv h (one - x) h fun w => 1 - x.eval w :=
    ⟨Below.one.sub hx, .pure hh fun _ w _ => heval w⟩
  refine hsame.newWire (canonical_sub one x) fun w hw hr => ?_
  exact ((isBit_iff_val_lt _).mpr (hbit w hw hr)).one_sub.val_lt

end Host

end Frontend

end XarkCircuit
