import XarkCircuit.Frontend.IntegerBounds

/-!
What the operations on integers compute.

* `IntVal.value` is the value of an operand; `IntVal.Fits` says that it is one of a register.
* `Yields` is the meaning of an operation: an operand of the register with the value of a function.
* `intLc_spec`: the combination of an operand. `intResult_spec`: a value, modulo the register.
* `intBin_spec`: an operation is that of the concrete interpreter, in every arm.
-/

namespace XarkCircuit

namespace Frontend

open LinearCombination
open Verifier (rModulus)

/-! ### Operands -/

namespace IntVal

/-- The value, of the wires. -/
def value (wires : List LinearCombination) (w : VarId → Fr) : IntVal → ℕ
  | const b => b
  | wire id _ => ((wires[id]?.getD zero).eval w).val
  | ite cond t e =>
      if (wires[cond]?.getD zero).eval w = 1 then t.value wires w else e.value wires w

/-- The operand is one of a register: it is below `2 ^ reg`, and a wire is below its width. -/
def Fits (h : Host) (reg : ℕ) : IntVal → Prop
  | const b => b < 2 ^ reg
  | wire id width => width ≤ reg ∧ ∃ l, h.wires[id]? = some l ∧
      ∀ w, h.b.Sat w → h.Ranges w → (l.eval w).val < 2 ^ width
  | ite cond t e => (∃ l, h.wires[cond]? = some l ∧
      ∀ w, h.b.Sat w → h.Ranges w → IsBit (l.eval w)) ∧ t.Fits h reg ∧ e.Fits h reg

variable {h h' : Host} {reg : ℕ} {v : IntVal} {w : VarId → Fr}

lemma Fits.width_le (hv : v.Fits h reg) : v.intWidth ≤ reg := by
  induction v with
  | const b => exact Nat.size_le.mpr hv
  | wire id width => exact hv.1
  | ite cond t e iht ihe => exact max_le (iht hv.2.1) (ihe hv.2.2)

/-- **The width bounds the value.** -/
lemma Fits.value_lt (hv : v.Fits h reg) (hw : h.b.Sat w) (hr : h.Ranges w) :
    v.value h.wires w < 2 ^ v.intWidth := by
  induction v with
  | const b => exact Nat.lt_size_self b
  | wire id width =>
      obtain ⟨-, l, hl, hlt⟩ := hv
      rw [value, hl]
      exact hlt w hw hr
  | ite cond t e iht ihe =>
      rw [value]
      split_ifs
      · exact (iht hv.2.1).trans_le (Nat.pow_le_pow_right (by norm_num) (le_max_left _ _))
      · exact (ihe hv.2.2).trans_le (Nat.pow_le_pow_right (by norm_num) (le_max_right _ _))

lemma Fits.value_lt_reg (hv : v.Fits h reg) (hw : h.b.Sat w) (hr : h.Ranges w) :
    v.value h.wires w < 2 ^ reg :=
  (hv.value_lt hw hr).trans_le (Nat.pow_le_pow_right (by norm_num) hv.width_le)

lemma getElem?_of_prefix {ws ws' : List LinearCombination} (hws : ws <+: ws') {id : ℕ}
    {l : LinearCombination} (hl : ws[id]? = some l) : ws'[id]? = some l := by
  obtain ⟨rest, rfl⟩ := hws
  exact (List.getElem?_append_left (List.getElem?_eq_some_iff.mp hl).1).trans hl

/-- An operand stays one when there are more wires and rows. -/
lemma Fits.grow (hv : v.Fits h reg) (hws : h.wires <+: h'.wires)
    (hsat : ∀ w, h'.b.Sat w → h'.Ranges w → h.b.Sat w ∧ h.Ranges w) :
    v.Fits h' reg ∧ v.value h'.wires w = v.value h.wires w := by
  induction v with
  | const b => exact ⟨hv, rfl⟩
  | wire id width =>
      obtain ⟨hle, l, hl, hlt⟩ := hv
      have hl' := getElem?_of_prefix hws hl
      refine ⟨⟨hle, l, hl', fun w hw hr => hlt w (hsat w hw hr).1 (hsat w hw hr).2⟩, ?_⟩
      rw [value, value, hl, hl']
  | ite cond t e iht ihe =>
      obtain ⟨⟨l, hl, hbit⟩, ht, he⟩ := hv
      have hl' := getElem?_of_prefix hws hl
      refine ⟨⟨⟨l, hl', fun w hw hr => hbit w (hsat w hw hr).1 (hsat w hw hr).2⟩,
        (iht ht).1, (ihe he).1⟩, ?_⟩
      rw [value, value, hl, hl', (iht ht).2, (ihe he).2]

lemma Fits.wider {reg' : ℕ} (hv : v.Fits h reg) (hle : reg ≤ reg') : v.Fits h reg' := by
  induction v with
  | const b => exact hv.trans_le (Nat.pow_le_pow_right (by norm_num) hle)
  | wire id width => exact ⟨hv.1.trans hle, hv.2⟩
  | ite cond t e iht ihe => exact ⟨hv.1, iht hv.2.1, ihe hv.2.2⟩

lemma konst_eq_some {c : ℕ} (hc : v.konst = some c) : v = const c := by
  cases v with
  | const b => exact congrArg const (Option.some.inj hc)
  | wire id width => cases hc
  | ite cond t e => cases hc

end IntVal

namespace Host

variable {h h₁ h' : Host} {b b' : Builder} {fakeGlv : FakeGlv} {lcHash : LinearCombination → ℕ}
  {x y l out : LinearCombination} {reg width : ℕ} {v a : IntVal} {w : VarId → Fr}
  {P P₁ P₂ : (VarId → Fr) → Prop} {Q Q₁ : Bool → (VarId → Fr) → Prop} {f : (VarId → Fr) → ℕ}

lemma Performs.settled (hp : Performs fakeGlv h P h' Q) (hs : h.Settled) : h'.Settled :=
  hp.inputs.trans hs

lemma Performs.ranges (hp : Performs fakeGlv h P h' Q) (hr : h'.Ranges w) : h.Ranges w := by
  rw [Ranges] at hr ⊢
  rwa [← hp.inputs]

/-- The operands of before. -/
lemma Performs.fits (hp : Performs fakeGlv h P h' Q) (hv : v.Fits h reg) : v.Fits h' reg :=
  (hv.grow (w := fun _ => 0) hp.wires fun _ hw hr => ⟨hp.realizes.mono hw, hp.ranges hr⟩).1

lemma Performs.value_eq (hp : Performs fakeGlv h P h' Q) (hv : v.Fits h reg) (w : VarId → Fr) :
    v.value h'.wires w = v.value h.wires w :=
  (hv.grow hp.wires fun _ hw hr => ⟨hp.realizes.mono hw, hp.ranges hr⟩).2

/-- **The combination of an operand** has its value. -/
lemma intLc_spec (fakeGlv : FakeGlv) (hh : h.Sound) (hs : h.Settled) (hv : v.Fits h reg)
    (hop : intLc lcHash v h = .ok (l, h')) :
    Computes fakeGlv h l h' fun w => (v.value h.wires w : Fr) := by
  induction v generalizing h l h' with
  | const b =>
      obtain ⟨rfl, rfl⟩ := Prod.mk.inj (Except.ok.inj hop)
      refine ⟨Below.ofConst _, .pure hh fun _ w _ => ?_⟩
      rw [eval_ofConst, Int.cast_natCast]
      rfl
  | wire id width =>
      obtain ⟨-, l', hl', hlt⟩ := hv
      obtain ⟨l'', hl'', hop⟩ := Outcome.bind_eq_ok.mp hop
      obtain ⟨rfl, rfl⟩ := Prod.mk.inj (Except.ok.inj hop)
      obtain rfl := Option.some.inj (hl'.symm.trans (orPanic_eq_ok hl''))
      refine ⟨hh.wires l' (List.mem_of_getElem? hl'), .pure hh fun _ w hw => ?_⟩
      rw [IntVal.value, hl']
      exact (ZMod.natCast_zmod_val _).symm
  | ite cond t e iht ihe =>
      obtain ⟨⟨c, hc, hbit⟩, ht, he⟩ := hv
      obtain ⟨⟨lt, h₁⟩, h₁op, hop⟩ := Outcome.bind_eq_ok.mp hop
      obtain ⟨⟨le, h₂⟩, h₂op, hop⟩ := Outcome.bind_eq_ok.mp hop
      obtain ⟨hlt, p₁⟩ := iht hh hs ht h₁op
      obtain ⟨hle, p₂⟩ := ihe p₁.sound (p₁.settled hs) (p₁.fits he) h₂op
      have hc₂ := IntVal.getElem?_of_prefix (p₁.wires.trans p₂.wires) hc
      obtain ⟨hl, p₃⟩ := muxBySym_spec fakeGlv p₂.sound (hlt.mono p₂.le) hle hc₂ hop
      refine ⟨hl, (p₁.seq p₂ (P := fun _ => True)
        (Q := fun _ w => lt.eval w = (t.value h.wires w : Fr) ∧ le.eval w = (e.value h.wires w : Fr))
        (fun _ hw => hw) (fun _ hw _ _ _ => hw) fun _ w _ hlt hle => ⟨hlt, ?_⟩).seq p₃
        (fun _ hw => hw) (fun _ hw _ _ _ => hw) fun _ w hw hval hl => ?_⟩
      · rw [hle, p₁.value_eq he]
      · have hsat := p₁.realizes.mono (p₂.realizes.mono (p₃.realizes.mono hw))
        rw [hl, hval.1, hval.2, IntVal.value, hc, Option.getD_some]
        rcases hbit w hsat (hs.ranges w) with hzero | hone
        · rw [hzero, zero_mul, add_zero, if_neg zero_ne_one]
        · rw [hone, one_mul, add_sub_cancel, if_pos rfl]

lemma canonical_intLc (hh : h.Sound) (hs : h.Settled) (hv : v.Fits h reg)
    (hop : intLc lcHash v h = .ok (l, h')) : Canonical l.terms := by
  cases v with
  | const b =>
      obtain ⟨rfl, rfl⟩ := Prod.mk.inj (Except.ok.inj hop)
      exact canonical_nil
  | wire id width =>
      obtain ⟨l', hl', hop⟩ := Outcome.bind_eq_ok.mp hop
      obtain ⟨rfl, rfl⟩ := Prod.mk.inj (Except.ok.inj hop)
      exact hh.canonical l' (List.mem_of_getElem? (orPanic_eq_ok hl'))
  | ite cond t e =>
      obtain ⟨⟨lt, h₁⟩, h₁op, hop⟩ := Outcome.bind_eq_ok.mp hop
      obtain ⟨⟨le, h₂⟩, h₂op, hop⟩ := Outcome.bind_eq_ok.mp hop
      have c₁ := intLc_spec (fun _ _ _ => none) hh hs hv.2.1 h₁op
      have c₂ := intLc_spec (fun _ _ _ => none) c₁.performs.sound (c₁.performs.settled hs)
        (c₁.performs.fits hv.2.2) h₂op
      exact canonical_muxBySym c₂.performs.sound hop

/-- A combination below `2 ^ width`. -/
structure Number (h : Host) (l : LinearCombination) (width : ℕ) : Prop where
  below : l.Below h.b.nextVarId
  canonical : Canonical l.terms
  lt : ∀ w, h.b.Sat w → (l.eval w).val < 2 ^ width

lemma Number.after (hl : h.Number l width) (hp : Performs fakeGlv h P h' Q) : h'.Number l width :=
  ⟨hl.below.mono hp.le, hl.canonical, fun w hw => hl.lt w (hp.realizes.mono hw)⟩

lemma Number.wider {n : ℕ} (hl : h.Number l width) (hn : width ≤ n) : h.Number l n :=
  ⟨hl.below, hl.canonical, fun w hw =>
    (hl.lt w hw).trans_le (Nat.pow_le_pow_right (by norm_num) hn)⟩

/-- An operand with its combination. -/
structure Operand (h : Host) (reg : ℕ) (v : IntVal) (l : LinearCombination) : Prop where
  fits : v.Fits h reg
  number : h.Number l v.intWidth
  value : ∀ w, h.b.Sat w → (l.eval w).val = v.value h.wires w

lemma Operand.after (hv : h.Operand reg v l) (hp : Performs fakeGlv h P h' Q) : h'.Operand reg v l :=
  ⟨hp.fits hv.fits, hv.number.after hp, fun w hw => by
    rw [hv.value w (hp.realizes.mono hw), hp.value_eq hv.fits]⟩

lemma Operand.konst {c : ℕ} (hv : h.Operand reg v l) (hc : v.konst = some c) (hw : h.b.Sat w) :
    (l.eval w).val = c := by
  rw [hv.value w hw, IntVal.konst_eq_some hc]
  rfl

/-- **An operand is made a combination** of its value. -/
lemma operand_spec (fakeGlv : FakeGlv) (hh : h.Sound) (hs : h.Settled) (hreg : reg ≤ 128)
    (hv : v.Fits h reg) (hop : intLc lcHash v h = .ok (l, h')) :
    h'.Operand reg v l ∧ Performs fakeGlv h P h' fun _ _ => True := by
  have hc := intLc_spec fakeGlv hh hs hv hop
  have hp := hc.performs
  have hval : ∀ w, h'.b.Sat w → (l.eval w).val = v.value h'.wires w := fun w hw => by
    rw [hp.realizes.emits.post hw, hp.value_eq hv, ZMod.val_natCast_of_lt]
    exact (hv.value_lt_reg (hp.realizes.mono hw) (hs.ranges w)).trans (two_pow_lt_rModulus hreg)
  refine ⟨⟨hp.fits hv, ⟨hc.below, canonical_intLc hh hs hv hop, fun w hw => ?_⟩, hval⟩,
    hp.weaken (fun _ _ _ => True.intro) fun _ _ _ _ => True.intro⟩
  rw [hval w hw]
  exact (hp.fits hv).value_lt hw ((hp.settled hs).ranges w)

/-! ### Results -/

/-- An operation returns an operand of the register with the value of `f`. -/
structure Yields (fakeGlv : FakeGlv) (h : Host) (reg : ℕ) (P : (VarId → Fr) → Prop) (v : IntVal)
    (h' : Host) (f : (VarId → Fr) → ℕ) : Prop where
  fits : v.Fits h' reg
  performs : Performs fakeGlv h P h' fun _ w => v.value h'.wires w = f w

/-- An operand that is there already. -/
lemma Yields.pure (hh : h.Sound) (hv : v.Fits h reg)
    (hf : ∀ w, h.b.Sat w → v.value h.wires w = f w) : Yields fakeGlv h reg P v h f :=
  ⟨hv, .pure hh fun _ w hw => hf w hw⟩

lemma Yields.weaken {g : (VarId → Fr) → ℕ} (hy : Yields fakeGlv h reg P₁ v h' f)
    (hP : ∀ w, h.b.Sat w → P w → P₁ w) (hf : ∀ w, h'.b.Sat w → f w = g w) :
    Yields fakeGlv h reg P v h' g :=
  ⟨hy.fits, hy.performs.weaken hP fun _ w hw hval => hval.trans (hf w hw)⟩

/-- A new wire of a value in its width. -/
lemma Performs.intWire (hp : Performs fakeGlv h P h' Q)
    (hl : l.Below h'.b.nextVarId) (hcanon : Canonical l.terms) (hwidth : width ≤ reg)
    (hval : ∀ honest w, h'.b.Sat w → Q honest w → (l.eval w).val = f w)
    (hlt : ∀ w, h'.b.Sat w → Q false w → f w < 2 ^ width) :
    Yields fakeGlv h reg P (h'.intWire l width).1 (h'.intWire l width).2 f := by
  have hget : (h'.newWire l width).wires[h'.wires.length]? = some l :=
    (List.getElem?_append_right le_rfl).trans (by rw [Nat.sub_self]; rfl)
  have hrange : ∀ w, h'.b.Sat w → Q false w → (l.eval w).val < 2 ^ width := fun w hw hq => by
    rw [hval false w hw hq]
    exact hlt w hw hq
  refine ⟨⟨hwidth, l, hget, fun w hw _ => hrange w hw (hp.realizes.emits.post hw)⟩,
    (hp.newWire hl hcanon fun w hw _ hq => hrange w hw hq).weaken (fun _ _ hw => hw) fun honest w hw hq => ?_⟩
  change ((((h'.newWire l width).wires[h'.wires.length]?).getD zero).eval w).val = f w
  rw [hget]
  exact hval honest w hw hq

lemma Sound.lcBits (hh : h.Sound) (hs : h.Settled) (hw : h.b.Sat w)
    (hlt : (l.eval w).val < 2 ^ width) : (l.eval w).val < 2 ^ min width ((h.lcBits l).getD width) := by
  cases hbits : h.lcBits l with
  | none => rwa [Option.getD_none, min_self]
  | some n =>
      obtain ⟨m, hm, rfl⟩ := Option.map_eq_some_iff.mp hbits
      have hle := (hh.lcMax hs hm).2 w hw
      rw [Option.getD_some]
      rcases min_choice width m.size with hmin | hmin
      · rwa [hmin]
      · rw [hmin]
        exact hle.trans_lt (Nat.lt_size_self m)

/-- A constant in range is not negative. -/
lemma val_of_asI64 {c : ℤ} (hwidth : width ≤ 253) (hconst : l.isConstant = true)
    (hc : asI64 l.constant = some c) (hlt : (l.eval w).val < 2 ^ width) :
    0 ≤ c ∧ ((l.eval w).val : ℤ) = c ∧ c < 2 ^ 63 := by
  obtain ⟨hfits, hval⟩ := asI64_eq_some.mp hc
  rw [hval] at hfits
  obtain ⟨hlow, hhigh⟩ := hfits
  rw [eval_of_isConstant hconst, hval] at hlt ⊢
  have h63 : (2 : ℕ) ^ 63 + 2 ^ 253 < rModulus := by norm_num [rModulus]
  have hpow : (2 : ℕ) ^ width ≤ 2 ^ 253 := Nat.pow_le_pow_right (by norm_num) hwidth
  by_cases hneg : c < 0
  · obtain ⟨n, hn⟩ := Int.eq_ofNat_of_zero_le (a := c + rModulus) (by omega)
    have hcast : (c : Fr) = ((n : ℕ) : Fr) := by
      have hsum := congrArg (Int.cast : ℤ → Fr) hn
      rw [Int.cast_add, Int.cast_natCast, ZMod.natCast_self, add_zero, Int.cast_natCast] at hsum
      exact hsum
    rw [hcast, ZMod.val_natCast_of_lt (by omega)] at hlt
    omega
  · obtain ⟨n, hn⟩ := Int.eq_ofNat_of_zero_le (not_lt.mp hneg)
    rw [hn, Int.cast_natCast, ZMod.val_natCast_of_lt (by omega)]
    exact ⟨Int.natCast_nonneg n, rfl, by omega⟩

/-- **A value in a register** is the value modulo its size. -/
lemma intResult_spec (fakeGlv : FakeGlv) (hh : h.Sound) (hs : h.Settled) (hl : h.Number l width)
    (hreg : reg = 32 ∨ reg = 64) (hwidth : width ≤ 253)
    (hop : intResult lcHash h l width reg = .ok (v, h')) :
    Yields fakeGlv h reg P v h' fun w => (l.eval w).val % 2 ^ reg := by
  rw [intResult] at hop
  split at hop
  next c hc =>
    obtain ⟨rfl, rfl⟩ := Prod.mk.inj (Except.ok.inj hop)
    split_ifs at hc with hconst
    refine .pure hh ?_ fun w hw => ?_
    · rcases hreg with rfl | rfl
      · rw [if_pos rfl]
        exact Nat.mod_lt _ (by norm_num)
      · rw [if_neg (by norm_num)]
        change (c % 2 ^ 64).toNat < 2 ^ 64
        omega
    · obtain ⟨h0, hval, hupper⟩ := val_of_asI64 hwidth hconst hc (hl.lt w hw)
      have hsame : (c % 2 ^ 64).toNat = (l.eval w).val := by omega
      rw [hsame]
      rcases hreg with rfl | rfl
      · rw [if_pos rfl]
        rfl
      · rw [if_neg (by norm_num)]
        exact (Nat.mod_eq_of_lt (show (l.eval w).val < 2 ^ 64 by omega)).symm
  next =>
    have hmin : ∀ w, h.b.Sat w → (l.eval w).val < 2 ^ min width ((h.lcBits l).getD width) :=
      fun w hw => hh.lcBits hs hw (hl.lt w hw)
    dsimp only at hop
    split_ifs at hop with hfits
    · obtain ⟨rfl, rfl⟩ := Prod.mk.inj (Except.ok.inj hop)
      have hsmall : ∀ w, h.b.Sat w → (l.eval w).val % 2 ^ reg = (l.eval w).val := fun w hw =>
        Nat.mod_eq_of_lt ((hmin w hw).trans_le (Nat.pow_le_pow_right (by norm_num) hfits))
      refine Performs.intWire (Q := fun _ _ => True) (.pure hh fun _ _ _ => True.intro) hl.below hl.canonical
        hfits
        (fun _ w hw _ => (hsmall w hw).symm) fun w hw _ => ?_
      rw [hsmall w hw]
      exact hmin w hw
    · split at hop
      next low high hsplit =>
        obtain ⟨rfl, rfl⟩ := Prod.mk.inj (Except.ok.inj hop)
        obtain ⟨hlow, -, hparts⟩ := hh.splitLc hs hl.below hsplit
        exact Performs.intWire (Q := fun _ _ => True) (.pure hh fun _ _ _ => True.intro) hlow
          (canonical_splitLc hsplit).1 le_rfl
          (fun _ w hw _ => (hparts w hw).1) fun w hw _ => Nat.mod_lt _ (Nat.two_pow_pos reg)
      next =>
        obtain ⟨⟨bits, h₁⟩, hbits, hop⟩ := Succeeding.bind_eq_ok.mp hop
        obtain ⟨rfl, rfl⟩ := Prod.mk.inj (Except.ok.inj hop)
        obtain ⟨hbelow, p⟩ := bitsOf_spec fakeGlv hh hl.below ((min_le_left _ _).trans hwidth) hbits
        refine (p.weaken (P := P) (fun w hw _ => hmin w hw) fun _ _ _ hw => hw).intWire
          (below_recompose fun l hl => hbelow l (List.mem_of_mem_take hl)) (canonical_recompose _) le_rfl
          (fun _ w hw hbits => ?_) fun w hw _ => Nat.mod_lt _ (Nat.two_pow_pos reg)
        rw [recompose_of_areBits (hbits.split (not_le.mp hfits).le).1]
        exact ZMod.val_natCast_of_lt ((Nat.mod_le _ _).trans_lt (ZMod.val_lt _))

/-- An operation that ends with its value in a register. -/
lemma Performs.intResult (hp : Performs fakeGlv h P h₁ Q) (hs : h.Settled) (hl : h₁.Number l width)
    (hreg : reg = 32 ∨ reg = 64) (hwidth : width ≤ 253)
    (hop : intResult lcHash h₁ l width reg = .ok (v, h'))
    (hf : ∀ honest w, h₁.b.Sat w → Q honest w → (l.eval w).val % 2 ^ reg = f w) :
    Yields fakeGlv h reg P v h' f := by
  have hy := intResult_spec (P := fun _ => True) fakeGlv hp.sound (hp.settled hs) hl hreg hwidth hop
  refine ⟨hy.fits, hp.seq hy.performs (fun _ hw => hw) (fun _ _ _ _ _ => True.intro)
    fun honest w hw hq hval => ?_⟩
  rw [hval, hf honest w (hy.performs.realizes.mono hw) hq]

end Host

end Frontend

end XarkCircuit
