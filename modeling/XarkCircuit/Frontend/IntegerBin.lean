import XarkCircuit.Frontend.IntegerOps

/-!
An operation on integers is that of the concrete interpreter.

* `divide_spec`: a quotient and a remainder where the arm is taken, and zero where it is not.
* `intBin_spec`: each operation, in every arm, has the value that the interpreter computes on concrete
  operands; a division binds where its arm is taken, and there the divisor is not zero.
-/

namespace XarkCircuit

namespace Frontend

open LinearCombination Emission
open Verifier (rModulus)

namespace Host

variable {h h₁ h' : Host} {b b' : Builder} {fakeGlv : FakeGlv} {lcHash : LinearCombination → ℕ}
  {la lb l out : LinearCombination} {reg n : ℕ} {v a c : IntVal} {w : VarId → Fr}

/-! ### Division -/

lemma divisor_spec {g : Option LinearCombination} (hg : ∀ l ∈ g, l.Below n) (konst : Option ℕ)
    (hl : l.Below n) : (divisor g konst l).Below n ∧
      ∀ w, Builder.gateOf g w = 1 → (divisor g konst l).eval w = l.eval w := by
  cases g with
  | none => exact ⟨hl, fun _ _ => rfl⟩
  | some g =>
      cases konst with
      | some k => exact ⟨hl, fun _ _ => rfl⟩
      | none =>
          refine ⟨(hl.add Below.one).sub (hg g rfl), fun w hone => ?_⟩
          change g.eval w = 1 at hone
          change (l + one - g).eval w = _
          rw [eval_sub, eval_add, eval_one, hone, add_sub_cancel_right]

/-- The product of the quotient and the divisor. -/
lemma quotientProduct_spec {q : VarId} {prod : LinearCombination} (fakeGlv : FakeGlv) (hh : h.Sound)
    (hq : q.val < h.b.nextVarId) (hc : h.Operand reg c lb)
    (hop : quotientProduct lcHash h.b c.konst (ofVar q) lb = .ok (prod, b')) :
    prod.Below b'.nextVarId ∧ Performs fakeGlv h (fun _ => True) { h with b := b' }
      fun _ w => prod.eval w = w q * lb.eval w := by
  have hql := below_ofVar.mpr hq
  cases hk : c.konst with
  | some k =>
      rw [hk] at hop
      obtain ⟨rfl, rfl⟩ := Prod.mk.inj (Except.ok.inj hop)
      refine ⟨hql.scale _, .pure hh fun _ w hw => ?_⟩
      rw [eval_scale, eval_ofVar, ← hc.konst hk hw, Int.cast_natCast, ZMod.natCast_zmod_val]
  | none =>
      rw [hk] at hop
      obtain ⟨hbc, hnext, ec⟩ := emits_consume fakeGlv hh.builder lb
      obtain ⟨hb', hprod, he⟩ := Builder.emitMul_spec hbc (hnext.symm ▸ hql)
        (hnext.symm ▸ hc.number.below) hop fakeGlv
      refine ⟨hprod, .of_builder hh hb' (.of_emits (ec.seq he (fun _ hw => hw) (fun _ hw _ _ => hw)
        fun w _ _ hw => ?_))⟩
      rw [hw, eval_ofVar]

/-- What the rows of a division say: the remainder is below the divisor, and the product is the rest. -/
lemma divisionRows_spec {q r : VarId} {lt prod : LinearCombination} {b₁ b₂ : Builder} {h₂ h₃ : Host}
    (fakeGlv : FakeGlv) (hh : h.Sound) (hq : q.val < h.b.nextVarId) (hr : r.val < h.b.nextVarId)
    (ha : h.Operand reg a la) (hc : h.Operand reg c lb)
    (hlt : h.b.emitLessThanGated lcHash n (ofVar r) lb none = .ok (.ok (lt, b₁)))
    (hless : Host.requireGated lcHash { h with b := b₁ } lt one = .ok h₂)
    (hprod : quotientProduct lcHash h₂.b c.konst (ofVar q) lb = .ok (prod, b₂))
    (hsum : Host.requireGated lcHash { h₂ with b := b₂.consumePending la } (prod + ofVar r) la = .ok h₃) :
    Performs fakeGlv h (fun w => ((w r).val < 2 ^ n ∧ (lb.eval w).val < 2 ^ n) ∧
        (h.gate w ≠ 0 → (w r).val < (lb.eval w).val ∧ w q * lb.eval w + w r = la.eval w)) h₃
      fun _ w => (w r).val < 2 ^ n → (lb.eval w).val < 2 ^ n → h.gate w ≠ 0 →
        (w r).val < (lb.eval w).val ∧ w q * lb.eval w + w r = la.eval w := by
  obtain ⟨hb₁, hltBelow, e₁⟩ := Builder.emitLessThanGated_spec hh.builder (below_ofVar.mpr hr)
    hc.number.below (fun g hg => absurd hg (Option.not_mem_none g)) hlt fakeGlv
  have p₁ := Performs.of_builder hh hb₁ (.of_emits e₁)
  have p₂ := requireGated_spec fakeGlv p₁.sound hltBelow Below.one hless
  have hle₂ : h.b.nextVarId ≤ h₂.b.nextVarId := p₁.le.trans p₂.le
  obtain ⟨hprodBelow, p₃⟩ := quotientProduct_spec fakeGlv p₂.sound (hq.trans_le hle₂)
    ((hc.after p₁).after p₂) hprod
  obtain ⟨hbc, hnext, ec⟩ := emits_consume fakeGlv p₃.sound.builder la
  have p₄ := Performs.of_builder p₃.sound hbc (.of_emits ec)
  have hle₄ : h.b.nextVarId ≤ (b₂.consumePending la).nextVarId := hle₂.trans (p₃.le.trans p₄.le)
  have p₅ := requireGated_spec fakeGlv p₄.sound ((hprodBelow.mono p₄.le).add
    (below_ofVar.mpr (hr.trans_le hle₄))) (ha.number.below.mono hle₄) hsum
  have hgate : ∀ w, Host.gate { h₂ with b := b₂.consumePending la } w = h.gate w :=
    fun w => p₂.gate_eq w
  -- the comparison, and then the product
  have hless := p₁.seq p₂ (P := fun w => ((w r).val < 2 ^ n ∧ (lb.eval w).val < 2 ^ n) ∧
      (h.gate w ≠ 0 → (w r).val < (lb.eval w).val ∧ w q * lb.eval w + w r = la.eval w))
    (Q := fun _ w => (w r).val < 2 ^ n → (lb.eval w).val < 2 ^ n → h.gate w ≠ 0 →
      (w r).val < (lb.eval w).val) (fun w hw => ?_) (fun w hw _ hval _ hopen => ?_)
    fun _ w _ hval hone hr hb hopen => ?_
  · have hproduct := p₃.seq (p₄.seq p₅ (P := fun w => h.gate w ≠ 0 → (prod + ofVar r).eval w = la.eval w)
        (Q := fun _ w => h.gate w ≠ 0 → (prod + ofVar r).eval w = la.eval w) (fun _ _ => True.intro)
        (fun w hw _ _ _ => by rwa [hgate]) fun _ w _ _ hw => by rwa [hgate] at hw)
      (P := fun w => h.gate w ≠ 0 → w q * lb.eval w + w r = la.eval w)
      (Q := fun _ w => h.gate w ≠ 0 → w q * lb.eval w + w r = la.eval w) (fun _ _ => True.intro)
      (fun w hw _ hval _ hopen => ?_) fun _ w _ hval hw hopen => ?_
    · exact hless.seq hproduct (fun _ hw => hw) (fun w hw _ _ _ hopen => (hw.2 hopen).2)
        fun _ w _ hlt hsum hr hb hopen => ⟨hlt hr hb hopen, hsum hopen⟩
    · rw [eval_add, hval, eval_ofVar]
      exact hw hopen
    · have hsum := hw hopen
      rwa [eval_add, hval, eval_ofVar] at hsum
  · rw [eval_ofVar]
    exact ⟨.inr rfl, fun _ => hw.1⟩
  · rw [eval_ofVar] at hval
    rw [hval.2.1 rfl hw.1.1 hw.1.2, eval_one, Bits.borrow, if_pos (hw.2 hopen).1]
  · rw [eval_ofVar] at hval
    have hone := hone hopen
    rw [hval.2.1 rfl hr hb, eval_one, Bits.borrow] at hone
    by_contra hle
    rw [if_neg hle] at hone
    exact zero_ne_one hone

/-- A hint of an arm, in a register. -/
lemma Performs.armResult {P : (VarId → Fr) → Prop} {D : (VarId → Fr) → Prop} {f : (VarId → Fr) → ℕ}
    {z : VarId} {width : ℕ}
    (hp : Performs fakeGlv h P h₁ fun _ w => (h.gate w ≠ 1 → w z = 0) ∧
      (h.gate w = 1 → D w ∧ (w z).val = f w)) (hs : h.Settled) (hz : z.val < h₁.b.nextVarId)
    (hreg : reg = 32 ∨ reg = 64) (hwidth : width ≤ reg) (hf : ∀ w, h.b.Sat w → D w → f w < 2 ^ width)
    (hop : Host.intResult lcHash h₁ (ofVar z) width reg = .ok (v, h')) :
    v.Fits h' reg ∧ Performs fakeGlv h P h' fun _ w => (h.gate w ≠ 1 → v.value h'.wires w = 0) ∧
      (h.gate w = 1 → D w ∧ v.value h'.wires w = f w) := by
  have hlt : ∀ w, h₁.b.Sat w → (w z).val < 2 ^ width := by
    intro w hw
    have hpost := hp.realizes.emits.post hw
    by_cases hone : h.gate w = 1
    · rw [(hpost.2 hone).2]
      exact hf w (hp.realizes.mono hw) (hpost.2 hone).1
    · rw [hpost.1 hone, ZMod.val_zero]
      exact Nat.two_pow_pos width
  have hy := intResult_spec (P := fun _ => True) fakeGlv hp.sound (hp.settled hs)
    ⟨below_ofVar.mpr hz, canonical_ofVar z, fun w hw => (eval_ofVar z w).symm ▸ hlt w hw⟩ hreg (by omega) hop
  refine ⟨hy.fits, hp.seq hy.performs (fun _ hw => hw) (fun _ _ _ _ _ => True.intro)
    fun honest w hw hpost hval => ?_⟩
  rw [hval, eval_ofVar, Nat.mod_eq_of_lt ((hlt w (hy.performs.realizes.mono hw)).trans_le
    (Nat.pow_le_pow_right (by norm_num) hwidth))]
  exact ⟨fun hdead => by rw [hpost.1 hdead, ZMod.val_zero], hpost.2⟩

/-- **A division.** Where the arm is taken, the divisor is not zero and the quotient and the remainder
are those of the division; elsewhere they are zero. -/
lemma divide_spec {div : Bool} (fakeGlv : FakeGlv) (hh : h.Sound) (hs : h.Settled)
    (hreg : reg = 32 ∨ reg = 64) (ha : h.Operand reg a la) (hc : h.Operand reg c lb)
    (hop : divide lcHash h div reg la a.intWidth c lb c.intWidth = .ok (v, h')) :
    v.Fits h' reg ∧ Performs fakeGlv h
      (fun w => IsBit (h.gate w) ∧ (h.gate w = 1 → c.value h.wires w ≠ 0)) h' fun _ w =>
        (h.gate w ≠ 1 → v.value h'.wires w = 0) ∧ (h.gate w = 1 → c.value h.wires w ≠ 0 ∧
          v.value h'.wires w = if div then a.value h.wires w / c.value h.wires w
            else a.value h.wires w % c.value h.wires w) := by
  have hwa := ha.width_le hreg
  have hwc := hc.width_le hreg
  obtain ⟨⟨g, h₁⟩, hg, hop⟩ := Succeeding.bind_eq_ok.mp hop
  obtain ⟨⟨num, b₁⟩, hnum, hop⟩ := Succeeding.bind_eq_ok.mp hop
  obtain ⟨⟨q, b₂⟩, hq, hop⟩ := Succeeding.bind_eq_ok.mp hop
  obtain ⟨⟨r, b₃⟩, hr, hop⟩ := Succeeding.bind_eq_ok.mp hop
  obtain ⟨⟨qb, h₂⟩, hqb, hop⟩ := Succeeding.bind_eq_ok.mp hop
  obtain ⟨⟨rb, h₃⟩, hrb, hop⟩ := Succeeding.bind_eq_ok.mp hop
  obtain ⟨res, hres, hop⟩ := Succeeding.bind_eq_ok.mp hop
  cases res with
  | error message => cases hop
  | ok res =>
  obtain ⟨lt, b₄⟩ := res
  obtain ⟨h₄, hless, hop⟩ := Succeeding.bind_eq_ok.mp hop
  obtain ⟨⟨prod, b₅⟩, hprod, hop⟩ := Succeeding.bind_eq_ok.mp hop
  obtain ⟨h₅, hsum, hop⟩ := Succeeding.bind_eq_ok.mp hop
  obtain ⟨hgBelow, -, -, p₁⟩ := guard_spec fakeGlv hh (lift_eq_ok hg)
  obtain ⟨hb₁, hnumBelow, e₁⟩ := Builder.gateInput_spec p₁.sound.builder hgBelow
    (ha.after p₁).number.below (lift_eq_ok hnum) fakeGlv
  have p₂ := Performs.of_builder p₁.sound hb₁ (.of_emits e₁)
  have hg₂ : ∀ l ∈ g, l.Below b₁.nextVarId := fun l hl => (hgBelow l hl).mono p₂.le
  obtain ⟨hden, hdenval⟩ := divisor_spec hg₂ c.konst ((hc.after p₁).after p₂).number.below
  obtain ⟨hqlt, hrlt, p₃⟩ := quotient_spec fakeGlv p₂.sound hg₂ hnumBelow hden (by omega) (by omega)
    (lift_eq_ok hq) (lift_eq_ok hr) hqb hrb
  have hgate : ∀ w, h₃.gate w = h.gate w := fun w => (p₃.gate_eq w).trans (p₁.gate_eq w)
  have ha₃ := ((ha.after p₁).after p₂).after p₃
  have hc₃ := ((hc.after p₁).after p₂).after p₃
  have p₄ := divisionRows_spec fakeGlv p₃.sound hqlt hrlt ha₃ hc₃ (lift_eq_ok hres)
    (lift_eq_ok hless) (lift_eq_ok hprod) (lift_eq_ok hsum)
  simp only [hgate] at p₄
  have hlt : ∀ w, h.b.Sat w → (la.eval w).val < 2 ^ a.intWidth ∧ (lb.eval w).val < 2 ^ c.intWidth ∧
      (la.eval w).val = a.value h.wires w ∧ (lb.eval w).val = c.value h.wires w := fun w hw =>
    ⟨ha.number.lt w hw, hc.number.lt w hw, ha.value w hw, hc.value w hw⟩
  have p₁₂ := p₁.seq p₂ (P := fun w => IsBit (h.gate w) ∧ (h.gate w = 1 → c.value h.wires w ≠ 0))
    (Q := fun _ w => Builder.gateOf g w = h.gate w ∧ num.eval w = h.gate w * la.eval w)
    (fun _ _ => True.intro) (fun _ _ _ _ _ => True.intro) fun _ w _ hval hnum =>
      ⟨hval, by rw [hnum, Builder.gated, hval]⟩
  -- where the arm is taken the hint is the division of the operands, elsewhere that of zero
  have p₁₃ := p₁₂.seq p₃ (P := fun w => IsBit (h.gate w) ∧ (h.gate w = 1 → c.value h.wires w ≠ 0))
    (Q := fun honest w => (h.gate w ≠ 1 → w q = 0 ∧ w r = 0) ∧ (w r).val < 2 ^ max c.intWidth 1 ∧
      (w q).val < 2 ^ max a.intWidth 1 ∧ (honest = true → h.gate w = 1 →
        (w q).val = (la.eval w).val / (lb.eval w).val ∧ (w r).val = (la.eval w).val % (lb.eval w).val))
    (fun _ hw => hw) (fun w hw hsat hval _ => ?_) fun honest w _ hval hhint => ?_
  · have p₁₄ := p₁₃.seq p₄ (P := fun w => IsBit (h.gate w) ∧ (h.gate w = 1 → c.value h.wires w ≠ 0))
      (Q := fun _ w => (h.gate w ≠ 1 → w q = 0 ∧ w r = 0) ∧ (h.gate w = 1 →
        (w r).val < (lb.eval w).val ∧ (w q).val = (la.eval w).val / (lb.eval w).val ∧
          (w r).val = (la.eval w).val % (lb.eval w).val)) (fun _ hw => hw)
      (fun w hw hsat _ hhint => ?_) fun _ w hsat hhint hrows => ?_
    · have hrlt₅ : r.val < h₅.b.nextVarId := hrlt.trans_le p₄.le
      have hqlt₅ : q.val < h₅.b.nextVarId := hqlt.trans_le p₄.le
      cases div with
      | true =>
          have hq := p₁₄.weaken (Q := fun _ w => (h.gate w ≠ 1 → w q = 0) ∧ (h.gate w = 1 →
            c.value h.wires w ≠ 0 ∧ (w q).val = a.value h.wires w / c.value h.wires w))
            (fun _ _ hw => hw) fun _ w hsat hw => ⟨fun hdead => (hw.1 hdead).1, fun hone => ?_⟩
          · exact hq.armResult hs hqlt₅ hreg ha.fits.width_le (fun w hw _ =>
              (Nat.div_le_self _ _).trans_lt ((hlt w hw).2.2.1 ▸ (hlt w hw).1)) hop
          · obtain ⟨-, -, hva, hvb⟩ := hlt w (p₁₄.realizes.mono hsat)
            obtain ⟨hless, hquot, -⟩ := hw.2 hone
            rw [← hva, ← hvb]
            exact ⟨by omega, hquot⟩
      | false =>
          have hr := p₁₄.weaken (Q := fun _ w => (h.gate w ≠ 1 → w r = 0) ∧ (h.gate w = 1 →
            c.value h.wires w ≠ 0 ∧ (w r).val = a.value h.wires w % c.value h.wires w))
            (fun _ _ hw => hw) fun _ w hsat hw => ⟨fun hdead => (hw.1 hdead).2, fun hone => ?_⟩
          · exact hr.armResult hs hrlt₅ hreg hc.fits.width_le (fun w hw hne =>
              (Nat.mod_lt _ (Nat.pos_of_ne_zero hne)).trans ((hlt w hw).2.2.2 ▸ (hlt w hw).2.1)) hop
          · obtain ⟨-, -, hva, hvb⟩ := hlt w (p₁₄.realizes.mono hsat)
            obtain ⟨hless, -, hrem⟩ := hw.2 hone
            rw [← hva, ← hvb]
            exact ⟨by omega, hrem⟩
    · obtain ⟨-, hlb, -, hvb⟩ := hlt w (p₁₃.realizes.mono hsat)
      refine ⟨⟨hhint.2.1, hlb.trans_le (Nat.pow_le_pow_right (by norm_num) (le_max_left _ _))⟩,
        fun hopen => ?_⟩
      have hone := hw.1.resolve_left hopen
      obtain ⟨hquot, hrem⟩ := hhint.2.2.2 rfl hone
      refine ⟨?_, rows_of_div hquot hrem⟩
      rw [hrem]
      exact Nat.mod_lt _ (Nat.pos_of_ne_zero (hvb ▸ hw.2 hone))
    · obtain ⟨-, hlb, -, -⟩ := hlt w (p₁₃.realizes.mono (p₄.realizes.mono hsat))
      refine ⟨hhint.1, fun hone => ?_⟩
      obtain ⟨hless, hsum⟩ := hrows hhint.2.1
        (hlb.trans_le (Nat.pow_le_pow_right (by norm_num) (le_max_left _ _))) (hone ▸ one_ne_zero)
      exact ⟨hless, div_of_rows hhint.2.2.1 hlb.le hless (by omega) hsum⟩
  · obtain ⟨hla, hlb, hva, hvb⟩ := hlt w (p₁₂.realizes.mono hsat)
    rw [hval.1, hval.2]
    rcases hw.1 with hzero | hone
    · rw [hzero, zero_mul, ZMod.val_zero, Nat.zero_div, Nat.zero_mod]
      exact ⟨fun _ => ⟨rfl, rfl⟩, Nat.two_pow_pos _, Nat.two_pow_pos _⟩
    · rw [hone, one_mul, hdenval w (hval.1.trans hone)]
      refine ⟨fun hne => absurd rfl hne, ?_, ?_⟩
      · exact (Nat.div_le_self _ _).trans_lt
          (hla.trans_le (Nat.pow_le_pow_right (by norm_num) (le_max_left _ _)))
      · exact (Nat.mod_lt _ (Nat.pos_of_ne_zero (hvb ▸ hw.2 hone))).trans
          (hlb.trans_le (Nat.pow_le_pow_right (by norm_num) (le_max_left _ _)))
  · rw [hval.1] at hhint
    refine ⟨hhint.1, hhint.2.2.1, hhint.2.1, fun hhonest hone => ?_⟩
    have hquot := hhint.2.2.2 hhonest
    rwa [hval.2, hone, one_mul, hdenval w (hval.1.trans hone)] at hquot

/-! ### The concrete interpreter -/

/-- The operations that divide. -/
def divides : Bin → Bool
  | .divS | .divU | .remS | .remU => true
  | _ => false

/-- The value of an operation on numbers; a trap is `none`. A division in an arm that is not taken is
zero, unless it is by a constant power of two. -/
def binValue (o : Bin) (reg : ℕ) (konst : Option ℕ) (taken : Prop) [Decidable taken] (s t : ℕ) :
    Option ℕ :=
  if (divides o ∧ ∀ k ∈ konst, ¬k.isPowerOfTwo) ∧ ¬taken then some 0
  else (concreteBin o (BitVec.ofNat reg s) (BitVec.ofNat reg t)).map BitVec.toNat

/-- An operation returns an operand of the register with the value of `f`, and can be satisfied where
`f` has one. -/
structure Returns (fakeGlv : FakeGlv) (h : Host) (reg : ℕ) (v : IntVal) (h' : Host)
    (f : (VarId → Fr) → Option ℕ) : Prop where
  fits : v.Fits h' reg
  performs : Performs fakeGlv h (fun w => IsBit (h.gate w) ∧ (f w).isSome = true) h'
    fun _ w => f w = some (v.value h'.wires w)

lemma eq_ofNat {x : BitVec reg} {s : ℕ} (hx : x.toNat = s % 2 ^ reg) : x = BitVec.ofNat reg s :=
  BitVec.eq_of_toNat_eq (hx.trans (BitVec.toNat_ofNat s reg).symm)

lemma ofNat_mod_two_pow (reg s : ℕ) : BitVec.ofNat reg (s % 2 ^ reg) = BitVec.ofNat reg s :=
  eq_ofNat (by rw [BitVec.toNat_ofNat, Nat.mod_mod])

lemma ofNat_sub {s t : ℕ} (ht : t < 2 ^ reg) :
    BitVec.ofNat reg s - BitVec.ofNat reg t = BitVec.ofNat reg (s + 2 ^ reg - t) := by
  rw [BitVec.ofNat_sub_ofNat, Nat.mod_eq_of_lt ht]
  congr 1
  omega

lemma ofNat_eq_zero {t : ℕ} (ht : t < 2 ^ reg) : BitVec.ofNat reg t = 0 ↔ t = 0 := by
  rw [← BitVec.toNat_inj, BitVec.toNat_ofNat, Nat.mod_eq_of_lt ht]
  rfl

lemma ofNat_shiftLeft (s k : ℕ) : BitVec.ofNat reg s <<< k = BitVec.ofNat reg (s * 2 ^ k) := by
  refine eq_ofNat ?_
  rw [BitVec.toNat_shiftLeft, BitVec.toNat_ofNat, Nat.shiftLeft_eq, Nat.mod_mul_mod]

lemma ofNat_ushiftRight {s : ℕ} (hs : s < 2 ^ reg) (k : ℕ) : BitVec.ofNat reg s >>> k = BitVec.ofNat reg (s / 2 ^ k) := by
  refine eq_ofNat ?_
  rw [BitVec.toNat_ushiftRight, BitVec.toNat_ofNat, Nat.mod_eq_of_lt hs, Nat.shiftRight_eq_div_pow,
    Nat.mod_eq_of_lt ((Nat.div_le_self s _).trans_lt hs)]

lemma ofNat_udiv {s t : ℕ} (hs : s < 2 ^ reg) (ht : t < 2 ^ reg) :
    BitVec.ofNat reg s / BitVec.ofNat reg t = BitVec.ofNat reg (s / t) := by
  rw [BitVec.udiv_def, BitVec.toNat_ofNat, BitVec.toNat_ofNat, Nat.mod_eq_of_lt hs, Nat.mod_eq_of_lt ht]

lemma ofNat_umod {s t : ℕ} (hs : s < 2 ^ reg) (ht : t < 2 ^ reg) :
    BitVec.ofNat reg s % BitVec.ofNat reg t = BitVec.ofNat reg (s % t) := by
  refine eq_ofNat ?_
  rw [BitVec.toNat_umod, BitVec.toNat_ofNat, BitVec.toNat_ofNat, Nat.mod_eq_of_lt hs, Nat.mod_eq_of_lt ht,
    Nat.mod_eq_of_lt ((Nat.mod_le s t).trans_lt hs)]

lemma binValue_eq {o : Bin} {konst : Option ℕ} {taken : Prop} [Decidable taken] {s t z : ℕ}
    (hdiv : divides o = true → ∃ k ∈ konst, k.isPowerOfTwo) (hz : z < 2 ^ reg)
    (hval : concreteBin o (BitVec.ofNat reg s) (BitVec.ofNat reg t) = some (BitVec.ofNat reg z)) :
    binValue o reg konst taken s t = some z := by
  rw [binValue, if_neg, hval, Option.map_some, BitVec.toNat_ofNat, Nat.mod_eq_of_lt hz]
  rintro ⟨⟨hd, hall⟩, -⟩
  obtain ⟨k, hk, hpow⟩ := hdiv hd
  exact hall k hk hpow

lemma binValue_live {o : Bin} {konst : Option ℕ} {taken : Prop} [Decidable taken] {s t : ℕ}
    (hlive : divides o = true → taken) : binValue o reg konst taken s t
      = (concreteBin o (BitVec.ofNat reg s) (BitVec.ofNat reg t)).map BitVec.toNat :=
  if_neg fun hdead => hdead.2 (hlive hdead.1.1)

/-- In an arm that is not taken a division of unsigned numbers does not fail. -/
lemma binValue_dead {o : Bin} {konst : Option ℕ} {taken : Prop} [Decidable taken] {s t : ℕ}
    (hdead : ¬taken) (hdiv : divides o = true) (hsigned : o ≠ .divS ∧ o ≠ .remS) (ht : t < 2 ^ reg)
    (hkonst : ∀ k ∈ konst, k = t) : (binValue o reg konst taken s t).isSome = true := by
  rw [binValue]
  split_ifs with hzero
  · rfl
  · have hpow : ∃ k ∈ konst, k.isPowerOfTwo := by
      by_contra hnone
      push Not at hnone
      exact hzero ⟨⟨hdiv, hnone⟩, hdead⟩
    obtain ⟨k, hk, e, rfl⟩ := hpow
    have hne : ¬BitVec.ofNat reg t = 0 := fun h =>
      (Nat.two_pow_pos e).ne' ((hkonst _ hk).trans ((ofNat_eq_zero ht).mp h))
    rw [Option.isSome_map]
    cases o with
    | divU => exact (congrArg Option.isSome (if_neg hne)).trans rfl
    | remU => exact (congrArg Option.isSome (if_neg hne)).trans rfl
    | divS => exact absurd rfl hsigned.1
    | remS => exact absurd rfl hsigned.2
    | _ => cases hdiv

/-- An operation whose value does not depend on the arms. -/
lemma Yields.returns {f : (VarId → Fr) → ℕ} {o : Bin} (hy : Yields fakeGlv h reg (fun _ => True) v h' f)
    (hs : h.Settled) (hdiv : divides o = true → ∃ k ∈ c.konst, k.isPowerOfTwo)
    (hval : ∀ w, h.b.Sat w → concreteBin o (BitVec.ofNat reg (a.value h.wires w))
      (BitVec.ofNat reg (c.value h.wires w)) = some (BitVec.ofNat reg (f w))) :
    Returns fakeGlv h reg v h' fun w =>
      binValue o reg c.konst (h.gate w = 1) (a.value h.wires w) (c.value h.wires w) := by
  refine ⟨hy.fits, hy.performs.weaken (fun _ _ _ => True.intro) fun _ w hw hvalue => ?_⟩
  have hlt := hy.fits.value_lt_reg hw ((hy.performs.settled hs).ranges w)
  rw [hvalue] at hlt ⊢
  exact binValue_eq hdiv hlt (hval w (hy.performs.realizes.mono hw))

/-- An operation after the operands are made. -/
lemma Returns.after {f g : (VarId → Fr) → Option ℕ} (hr : Returns fakeGlv h₁ reg v h' f)
    (hp : Performs fakeGlv h (fun _ => True) h₁ fun _ _ => True) (hfg : ∀ w, f w = g w) :
    Returns fakeGlv h reg v h' g := by
  refine ⟨hr.fits, hp.seq hr.performs (fun _ _ => True.intro) (fun w hw _ _ _ => ?_)
    fun _ w _ _ hw => (hfg w).symm.trans hw⟩
  rwa [hp.gate_eq, hfg]

/-- A shift to the left by a constant. -/
lemma shiftLeftConst_spec {k : ℕ} (fakeGlv : FakeGlv) (hh : h.Sound) (hs : h.Settled)
    (hreg : reg = 32 ∨ reg = 64) (hk : k < reg) (ha : h.Operand reg a la)
    (hop : intResult lcHash h (la.scale (2 ^ k)) (a.intWidth + k) reg = .ok (v, h')) :
    Yields fakeGlv h reg (fun _ => True) v h' fun w => a.value h.wires w * 2 ^ k % 2 ^ reg := by
  have hwidth := ha.width_le hreg
  have hval : ∀ w, h.b.Sat w → a.value h.wires w * 2 ^ k < 2 ^ (a.intWidth + k) ∧
      ((la.scale (2 ^ k)).eval w).val = a.value h.wires w * 2 ^ k := by
    intro w hw
    have hlt : a.value h.wires w * 2 ^ k < 2 ^ (a.intWidth + k) := by
      rw [pow_add]
      exact Nat.mul_lt_mul_of_pos_right (ha.value w hw ▸ ha.number.lt w hw) (Nat.two_pow_pos k)
    have hcast : (la.scale (2 ^ k)).eval w = ((a.value h.wires w * 2 ^ k : ℕ) : Fr) := by
      rw [eval_scale, ← ha.value w hw]
      push_cast
      rw [ZMod.natCast_zmod_val]
    exact ⟨hlt, by rw [hcast, ZMod.val_natCast_of_lt (hlt.trans_le (two_pow_le (by omega)))]⟩
  have hnumber : h.Number (la.scale (2 ^ k)) (a.intWidth + k) :=
    ⟨ha.number.below.scale _, canonical_scale _ _, fun w hw => (hval w hw).2 ▸ (hval w hw).1⟩
  have hy := intResult_spec (P := fun _ => True) fakeGlv hh hs hnumber hreg (by omega) hop
  refine hy.weaken (fun _ _ hw => hw) fun w hw => ?_
  rw [(hval w (hy.performs.realizes.mono hw)).2]

/-- A difference; with zero it is the operand. -/
lemma intSub_spec (fakeGlv : FakeGlv) (hh : h.Sound) (hreg : reg = 32 ∨ reg = 64)
    (ha : h.Operand reg a la) (hc : h.Operand reg c lb)
    (hop : h.b.emitWrappingSub lcHash reg la lb = .ok (out, b')) :
    Yields fakeGlv h reg (fun _ => True) (Host.intWire { h with b := b' } out reg).1
      (Host.intWire { h with b := b' } out reg).2 fun w =>
        (a.value h.wires w + 2 ^ reg - c.value h.wires w) % 2 ^ reg := by
  obtain ⟨hb', hout, he⟩ := Builder.emitWrappingSub_spec hh.builder ha.number.below hc.number.below
    (by omega) hop fakeGlv
  have hlt : ∀ w, h.b.Sat w → (la.eval w).val < 2 ^ reg ∧ (lb.eval w).val < 2 ^ reg := fun w hw =>
    ⟨(ha.number.wider ha.fits.width_le).lt w hw, (hc.number.wider hc.fits.width_le).lt w hw⟩
  have hp := Performs.of_builder hh hb' (.of_emits (he.weaken (P := fun _ => True)
    (fun w hw _ => hlt w hw) fun w hw hval => hval))
  refine Performs.intWire hp hout (Builder.canonical_emitWrappingSub hop) le_rfl (fun _ w hw hval => ?_)
    fun w _ _ => Nat.mod_lt _ (Nat.two_pow_pos reg)
  have hsat := hp.realizes.mono hw
  rw [hval (hlt w hsat).1 (hlt w hsat).2, ha.value w hsat, hc.value w hsat]

/-- A shift or a rotation by a constant amount. -/
lemma amount_eq_ok {k : ℕ} (hk : amount c reg = .ok k) : ∃ s, c = .const s ∧ k = s % reg := by
  rw [amount] at hk
  cases hkonst : c.konst with
  | none =>
      rw [hkonst] at hk
      cases hk
  | some s =>
      rw [hkonst] at hk
      exact ⟨s, IntVal.konst_eq_some hkonst, (Except.ok.inj hk).symm⟩

/-- The amount of a shift, in a register. -/
lemma toNat_amount {s : ℕ} (hs : s < 2 ^ reg) : (BitVec.ofNat reg s).toNat % reg = s % reg := by
  rw [BitVec.toNat_ofNat, Nat.mod_eq_of_lt hs]

/-- The interpreter divides by what is not zero. -/
lemma concreteBin_div {o : Bin} {div : Bool} {s t : ℕ} (hs : s < 2 ^ reg) (ht : t < 2 ^ reg) (hne : t ≠ 0)
    (ho : o = if div then .divU else .remU) :
    concreteBin o (BitVec.ofNat reg s) (BitVec.ofNat reg t)
      = some (BitVec.ofNat reg (if div then s / t else s % t)) := by
  have hnot : BitVec.ofNat reg t ≠ 0 := fun hzero => hne ((ofNat_eq_zero ht).mp hzero)
  rw [ho]
  cases div with
  | true =>
      refine (if_neg hnot).trans (congrArg some ?_)
      rw [ofNat_udiv hs ht, if_pos rfl]
  | false =>
      refine (if_neg hnot).trans (congrArg some ?_)
      rw [ofNat_umod hs ht, if_neg Bool.false_ne_true]

/-- A division by a constant power of two. -/
lemma divConst_spec {div : Bool} {k : ℕ} (fakeGlv : FakeGlv) (hh : h.Sound) (hs : h.Settled)
    (hreg : reg = 32 ∨ reg = 64) (ha : h.Operand reg a la) (hc : h.Operand reg c lb)
    (hk : c.konst = some k) (hpow : k.isPowerOfTwo)
    (hop : divPow2 lcHash h div reg (trailingZeros k) la a.intWidth = .ok (v, h')) :
    Yields fakeGlv h reg (fun _ => True) v h' (fun w => if div then a.value h.wires w / c.value h.wires w
      else a.value h.wires w % c.value h.wires w) ∧ ∀ w, c.value h.wires w ≠ 0 := by
  obtain rfl := IntVal.konst_eq_some hk
  obtain ⟨e, rfl⟩ := hpow
  have he : e < reg := (Nat.pow_lt_pow_iff_right (by norm_num)).mp hc.fits
  rw [trailingZeros_two_pow (by omega)] at hop
  exact ⟨divPow2_spec fakeGlv hh hs hreg (by omega) ha hop, fun w => (Nat.two_pow_pos e).ne'⟩

/-- A division, as an operation. -/
lemma divide_returns {o : Bin} {div : Bool} (fakeGlv : FakeGlv) (hh : h.Sound) (hs : h.Settled)
    (hreg : reg = 32 ∨ reg = 64) (ha : h.Operand reg a la) (hc : h.Operand reg c lb)
    (ho : o = if div then .divU else .remU) (hkonst : ∀ k ∈ c.konst, ¬k.isPowerOfTwo)
    (hop : divide lcHash h div reg la a.intWidth c lb c.intWidth = .ok (v, h')) :
    Returns fakeGlv h reg v h' fun w =>
      binValue o reg c.konst (h.gate w = 1) (a.value h.wires w) (c.value h.wires w) := by
  obtain ⟨hfits, hp⟩ := divide_spec fakeGlv hh hs hreg ha hc hop
  have hdiv : divides o = true := by
    rw [ho]
    cases div <;> rfl
  have hlt : ∀ w, h.b.Sat w → a.value h.wires w < 2 ^ reg ∧ c.value h.wires w < 2 ^ reg := fun w hw =>
    ⟨ha.fits.value_lt_reg hw (hs.ranges w), hc.fits.value_lt_reg hw (hs.ranges w)⟩
  have hvalue : ∀ w, h.b.Sat w → h.gate w = 1 → c.value h.wires w ≠ 0 →
      binValue o reg c.konst (h.gate w = 1) (a.value h.wires w) (c.value h.wires w)
        = some (if div then a.value h.wires w / c.value h.wires w
            else a.value h.wires w % c.value h.wires w) := by
    intro w hw hone hne
    obtain ⟨hla, hlb⟩ := hlt w hw
    have hq : (if div then a.value h.wires w / c.value h.wires w
        else a.value h.wires w % c.value h.wires w) < 2 ^ reg := by
      split_ifs
      · exact (Nat.div_le_self _ _).trans_lt hla
      · exact (Nat.mod_le _ _).trans_lt hla
    rw [binValue, if_neg fun hdead => hdead.2 hone, concreteBin_div hla hlb hne ho, Option.map_some,
      BitVec.toNat_ofNat, Nat.mod_eq_of_lt hq]
  have htrap : ∀ w, h.gate w = 1 → c.value h.wires w = 0 →
      binValue o reg c.konst (h.gate w = 1) (a.value h.wires w) (c.value h.wires w) = none := by
    intro w hone hzero
    have hconcrete : concreteBin o (BitVec.ofNat reg (a.value h.wires w)) (0 : BitVec reg) = none := by
      rw [ho]
      cases div <;> simp [concreteBin]
    rw [binValue, if_neg fun hdead => hdead.2 hone, hzero]
    exact congrArg (Option.map BitVec.toNat) hconcrete
  have hdead : ∀ w, h.gate w ≠ 1 →
      binValue o reg c.konst (h.gate w = 1) (a.value h.wires w) (c.value h.wires w) = some 0 :=
    fun w hne => if_pos ⟨⟨hdiv, hkonst⟩, hne⟩
  refine ⟨hfits, hp.weaken (fun w hw hP => ⟨hP.1, fun hone hzero => ?_⟩) fun _ w hw hpost => ?_⟩
  · have hsome := hP.2
    rw [htrap w hone hzero] at hsome
    cases hsome
  · by_cases hone : h.gate w = 1
    · obtain ⟨hne, hval⟩ := hpost.2 hone
      rw [hvalue w (hp.realizes.mono hw) hone hne, hval]
    · rw [hdead w hone, hpost.1 hone]

/-- A division, by a constant or not. -/
lemma intDiv_spec {o : Bin} {div : Bool} (fakeGlv : FakeGlv) (hh : h.Sound) (hs : h.Settled)
    (hreg : reg = 32 ∨ reg = 64) (ha : h.Operand reg a la) (hc : h.Operand reg c lb)
    (ho : o = if div then .divU else .remU)
    (hop : intDiv lcHash h div reg la a.intWidth c lb c.intWidth = .ok (v, h')) :
    Returns fakeGlv h reg v h' fun w =>
      binValue o reg c.konst (h.gate w = 1) (a.value h.wires w) (c.value h.wires w) := by
  rw [intDiv] at hop
  cases hkonst : c.konst with
  | none =>
      rw [hkonst] at hop
      rw [← hkonst]
      exact divide_returns fakeGlv hh hs hreg ha hc ho (fun k hk => absurd (hkonst.symm.trans hk) nofun) hop
  | some k =>
      rw [hkonst] at hop
      rw [← hkonst]
      dsimp only at hop
      split_ifs at hop with hpow hzero
      · obtain ⟨hy, hne⟩ := divConst_spec fakeGlv hh hs hreg ha hc hkonst hpow hop
        refine hy.returns hs (fun _ => ⟨k, hkonst, hpow⟩) fun w hw => ?_
        exact concreteBin_div (ha.fits.value_lt_reg hw (hs.ranges w)) (hc.fits.value_lt_reg hw (hs.ranges w))
          (hne w) ho
      · cases hop
      · exact divide_returns fakeGlv hh hs hreg ha hc ho (fun k' hk' => by
          obtain rfl := Option.some.inj (hkonst.symm.trans hk')
          exact hpow) hop

/-- A division of signed numbers is refused. -/
lemma intBin_unsigned {o : Bin} {r : IntVal × Host} (hop : intBin lcHash h o reg a c = .ok r) :
    o ≠ .divS ∧ o ≠ .remS := by
  obtain ⟨pa, -, hop⟩ := Succeeding.bind_eq_ok.mp hop
  obtain ⟨pb, -, hop⟩ := Succeeding.bind_eq_ok.mp hop
  constructor <;> rintro rfl <;> cases hop

/-- **An operation on integers** is that of the concrete interpreter, in every arm. -/
lemma intBin_spec {o : Bin} (fakeGlv : FakeGlv) (hh : h.Sound) (hs : h.Settled)
    (hreg : reg = 32 ∨ reg = 64) (ha : a.Fits h reg) (hc : c.Fits h reg)
    (hop : intBin lcHash h o reg a c = .ok (v, h')) :
    Returns fakeGlv h reg v h' fun w =>
      binValue o reg c.konst (h.gate w = 1) (a.value h.wires w) (c.value h.wires w) := by
  obtain ⟨⟨la, h₁⟩, hla, hop⟩ := Succeeding.bind_eq_ok.mp hop
  obtain ⟨⟨lb, h₂⟩, hlb, hop⟩ := Succeeding.bind_eq_ok.mp hop
  obtain ⟨oa, p₁⟩ := operand_spec (P := fun _ => True) fakeGlv hh hs (by omega) ha (lift_eq_ok hla)
  obtain ⟨oc, p₂⟩ := operand_spec (P := fun _ => True) fakeGlv p₁.sound (p₁.settled hs) (by omega)
    (p₁.fits hc) (lift_eq_ok hlb)
  have hs₂ := p₂.settled (p₁.settled hs)
  have hh₂ := p₂.sound
  replace oa := oa.after p₂
  have hboth : Performs fakeGlv h (fun _ => True) h₂ fun _ _ => True :=
    p₁.seq p₂ (fun _ hw => hw) (fun _ hw _ _ _ => hw) fun _ _ _ _ hw => hw
  refine Returns.after (f := fun w => binValue o reg c.konst (h₂.gate w = 1) (a.value h₂.wires w)
    (c.value h₂.wires w)) ?_ hboth fun w => by
      simp only [hboth.gate_eq, hboth.value_eq ha, hboth.value_eq hc]
  have hlt : ∀ w, h₂.b.Sat w → a.value h₂.wires w < 2 ^ reg ∧ c.value h₂.wires w < 2 ^ reg := fun w hw =>
    ⟨oa.fits.value_lt_reg hw (hs₂.ranges w), oc.fits.value_lt_reg hw (hs₂.ranges w)⟩
  have hwa := oa.width_le hreg
  have hwc := oc.width_le hreg
  have hpos : 0 < reg := by omega
  have hnot : ∀ {o : Bin}, divides o = false → divides o = true → ∃ k ∈ c.konst, k.isPowerOfTwo :=
    fun hfalse htrue => absurd (hfalse.symm.trans htrue) Bool.false_ne_true
  cases o with
  | add =>
      have hy := intResult_spec (P := fun _ => True) fakeGlv hh₂ hs₂ (oa.number.add oc.number (by omega) (by omega))
        hreg (by omega) hop
      refine hy.returns hs₂ (hnot rfl) fun w hw => ?_
      rw [oa.number.val_add oc.number (by omega) (by omega) hw, oa.value w hw, oc.value w hw,
        ofNat_mod_two_pow, BitVec.ofNat_add]
      rfl
  | sub =>
      dsimp only at hop
      split_ifs at hop with hzero
      · obtain ⟨rfl, rfl⟩ := Prod.mk.inj (Except.ok.inj hop)
        refine (Yields.pure (f := fun w => a.value h₂.wires w) hh₂ oa.fits fun _ _ => rfl).returns hs₂
          (hnot rfl) fun w _ => ?_
        rw [IntVal.konst_eq_some hzero]
        exact congrArg some (BitVec.sub_zero _)
      · obtain ⟨⟨r, bu⟩, hr, hop⟩ := Succeeding.bind_eq_ok.mp hop
        obtain ⟨rfl, rfl⟩ := Prod.mk.inj (Except.ok.inj hop)
        refine (intSub_spec fakeGlv hh₂ hreg oa oc (lift_eq_ok hr)).returns hs₂ (hnot rfl) fun w hw => ?_
        rw [ofNat_mod_two_pow, ← ofNat_sub (hlt w hw).2]
        rfl
  | mul =>
      refine (intMul_spec fakeGlv hh₂ hs₂ hreg oa oc hop).returns hs₂ (hnot rfl) fun w _ => ?_
      rw [ofNat_mod_two_pow, BitVec.ofNat_mul]
      rfl
  | and =>
      refine (bitwise_spec fakeGlv hh₂ hs₂ hreg oa oc hop).returns hs₂ (hnot rfl) fun w _ => ?_
      exact congrArg some BitVec.ofNat_and.symm
  | or =>
      refine (bitwise_spec fakeGlv hh₂ hs₂ hreg oa oc hop).returns hs₂ (hnot rfl) fun w _ => ?_
      exact congrArg some BitVec.ofNat_or.symm
  | xor =>
      refine (bitwise_spec fakeGlv hh₂ hs₂ hreg oa oc hop).returns hs₂ (hnot rfl) fun w _ => ?_
      exact congrArg some BitVec.ofNat_xor.symm
  | shl =>
      dsimp only at hop
      split_ifs at hop
      · refine (shiftByWire_spec fakeGlv hh₂ hs₂ hreg oa oc hop).returns hs₂ (hnot rfl) fun w hw => ?_
        rw [if_pos rfl, ofNat_mod_two_pow, ← ofNat_shiftLeft, concreteBin, toNat_amount (hlt w hw).2]
      · obtain ⟨k, hk, hop⟩ := Succeeding.bind_eq_ok.mp hop
        obtain ⟨s, rfl, rfl⟩ := amount_eq_ok hk
        refine (shiftLeftConst_spec fakeGlv hh₂ hs₂ hreg (Nat.mod_lt _ hpos) oa hop).returns hs₂ (hnot rfl)
          fun w hw => ?_
        rw [ofNat_mod_two_pow, ← ofNat_shiftLeft, concreteBin, toNat_amount (hlt w hw).2]
        rfl
  | shrU =>
      dsimp only at hop
      split_ifs at hop
      · refine (shiftByWire_spec fakeGlv hh₂ hs₂ hreg oa oc hop).returns hs₂ (hnot rfl) fun w hw => ?_
        rw [if_neg Bool.false_ne_true, ← ofNat_ushiftRight (hlt w hw).1, concreteBin,
          toNat_amount (hlt w hw).2]
      · obtain ⟨k, hk, hop⟩ := Succeeding.bind_eq_ok.mp hop
        obtain ⟨s, rfl, rfl⟩ := amount_eq_ok hk
        refine (shiftRight_spec fakeGlv hh₂ hs₂ hreg (Nat.mod_lt _ hpos) oa hop).returns hs₂ (hnot rfl)
          fun w hw => ?_
        rw [shiftedRight, Bool.false_and, if_neg Bool.false_ne_true, Nat.add_zero,
          ← ofNat_ushiftRight (hlt w hw).1, concreteBin, toNat_amount (hlt w hw).2]
        rfl
  | shrS =>
      obtain ⟨k, hk, hop⟩ := Succeeding.bind_eq_ok.mp hop
      obtain ⟨s, rfl, rfl⟩ := amount_eq_ok hk
      have hamount := Nat.mod_lt s hpos
      refine (shiftRight_spec fakeGlv hh₂ hs₂ hreg hamount oa hop).returns hs₂ (hnot rfl) fun w hw => ?_
      have hsign := toNat_sshiftRight hamount (hlt w hw).1
      refine (congrArg (fun k => some ((BitVec.ofNat reg (a.value h₂.wires w)).sshiftRight k))
        (toNat_amount (hlt w hw).2)).trans (congrArg some (eq_ofNat ?_))
      rw [shiftedRight, Bool.true_and, ← hsign, Nat.mod_eq_of_lt (BitVec.isLt _)]
      rfl
  | rotl =>
      obtain ⟨k, hk, hop⟩ := Succeeding.bind_eq_ok.mp hop
      obtain ⟨s, rfl, rfl⟩ := amount_eq_ok hk
      refine (rotate_spec fakeGlv hh₂ hs₂ hreg (Nat.mod_lt _ hpos) oa hop).returns hs₂ (hnot rfl) fun w hw => ?_
      rw [if_pos rfl, concreteBin, toNat_amount (hlt w hw).2, BitVec.ofNat_toNat, BitVec.setWidth_eq]
      rfl
  | rotr =>
      obtain ⟨k, hk, hop⟩ := Succeeding.bind_eq_ok.mp hop
      obtain ⟨s, rfl, rfl⟩ := amount_eq_ok hk
      refine (rotate_spec fakeGlv hh₂ hs₂ hreg (Nat.mod_lt _ hpos) oa hop).returns hs₂ (hnot rfl) fun w hw => ?_
      rw [if_neg Bool.false_ne_true, concreteBin, toNat_amount (hlt w hw).2, BitVec.ofNat_toNat,
        BitVec.setWidth_eq]
      rfl
  | divU => exact intDiv_spec fakeGlv hh₂ hs₂ hreg oa oc rfl hop
  | remU => exact intDiv_spec fakeGlv hh₂ hs₂ hreg oa oc rfl hop
  | divS => cases hop
  | remS => cases hop

end Host

end Frontend

end XarkCircuit
