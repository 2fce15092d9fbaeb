import XarkCircuit.Frontend.IntegerSound
import Mathlib.Data.Nat.Bitwise

/-!
Each operation on integers, as it is emitted.

* `bitwise_spec`: bit by bit, by a mask or by a sum. `twoPow_spec` and `shiftByWire_spec`: a shift by a
  witness amount. `shiftRight_spec`, `rotate_spec` and `divPow2_spec` move bits.
* `divide_spec`: a quotient and a remainder, which are zero in an arm that is not taken.

The operands are numbers of a register, and a value is stated as a number.
-/

namespace XarkCircuit

namespace Frontend

open LinearCombination Emission
open Verifier (rModulus)

variable {bits xs ys : List LinearCombination} {m n : ℕ} {x y : Fr} {w : VarId → Fr}

lemma two_pow_le (hn : n ≤ 253) : 2 ^ n ≤ rModulus :=
  (Nat.pow_le_pow_right (by norm_num) hn).trans (by norm_num [rModulus])

/-- A number with these bits. -/
lemma areBits_natCast {z : ℕ} (hn : n ≤ 253) (hz : z < 2 ^ n)
    (hbits : values bits w = (List.range n).map fun i => Bits.bitOf z i) : AreBits bits n (z : Fr) w := by
  have hval : ((z : ℕ) : Fr).val = z := ZMod.val_natCast_of_lt (hz.trans_le (two_pow_le hn))
  refine ⟨hval.trans_lt hz, ?_⟩
  rw [hbits, bitList, hval]

lemma AreBits.val_recompose (hbits : AreBits bits n x w) : ((Host.recompose bits).eval w).val = x.val := by
  rw [Host.recompose_of_areBits hbits]

lemma AreBits.eval_getElem? {i : ℕ} (hbits : AreBits bits n x w) (hi : i < n) (hl : bits[i]? = some l) :
    l.eval w = Bits.bitOf x.val i := by
  have hget := congrArg (fun ls => ls[i]?) hbits.2
  rw [values, List.getElem?_map, hl, bitList, List.getElem?_map, List.getElem?_range hi] at hget
  exact Option.some.inj hget

/-- The bits of two numbers, one above the other. -/
lemma AreBits.append (hmn : m + n ≤ 253) (hx : AreBits xs m x w) (hy : AreBits ys n y w) :
    AreBits (xs ++ ys) (m + n) ((2 ^ m * y.val + x.val : ℕ) : Fr) w := by
  refine areBits_natCast hmn ?_ ?_
  · have hstep : 2 ^ m * (y.val + 1) ≤ 2 ^ m * 2 ^ n := Nat.mul_le_mul_left _ hy.1
    rw [pow_add]
    have hlow := hx.1
    rw [Nat.mul_succ] at hstep
    omega
  · rw [values, List.map_append, ← values, ← values, hx.2, hy.2, List.range_add, List.map_append,
      List.map_map]
    refine congrArg₂ _ (List.map_congr_left fun i hi => ?_) (List.map_congr_left fun i _ => ?_)
    · rw [Bits.bitOf, Bits.bitOf, Nat.testBit_two_pow_mul_add _ hx.1, if_pos (List.mem_range.mp hi)]
    · simp only [Function.comp_apply, Bits.bitOf, Nat.testBit_two_pow_mul_add _ hx.1,
        Nat.not_lt.mpr (Nat.le_add_right m i), if_false, Nat.add_sub_cancel_left]

namespace Host

variable {h h₁ h' : Host} {b b' : Builder} {fakeGlv : FakeGlv} {lcHash : LinearCombination → ℕ}
  {la lb l out : LinearCombination} {reg wa wb : ℕ} {v a c : IntVal} {o : BoolOp}
  {P : (VarId → Fr) → Prop}

/-! ### Bits -/

/-- The operation on bits. -/
def boolValue (o : BoolOp) (s t : Fr) : Fr :=
  match o with
  | .and => s * t
  | .or => s + t - s * t
  | .xor => s + t - (s * t + s * t)

/-- The operation on numbers. -/
def natBool (o : BoolOp) (s t : ℕ) : ℕ :=
  match o with
  | .and => s &&& t
  | .or => s ||| t
  | .xor => s ^^^ t

lemma boolValue_bitOf (o : BoolOp) (s t i : ℕ) :
    boolValue o (Bits.bitOf s i) (Bits.bitOf t i) = Bits.bitOf (natBool o s t) i := by
  cases o with
  | and =>
      simp only [boolValue, natBool, Bits.bitOf, Nat.testBit_and]
      cases s.testBit i <;> cases t.testBit i <;> simp
  | or =>
      simp only [boolValue, natBool, Bits.bitOf, Nat.testBit_or]
      cases s.testBit i <;> cases t.testBit i <;> simp
  | xor =>
      simp only [boolValue, natBool, Bits.bitOf, Nat.testBit_xor]
      cases s.testBit i <;> cases t.testBit i <;> simp

lemma natBool_lt (o : BoolOp) {s t : ℕ} (hs : s < 2 ^ n) (ht : t < 2 ^ n) : natBool o s t < 2 ^ n := by
  cases o with
  | and => exact Nat.and_lt_two_pow s ht
  | or => exact Nat.or_lt_two_pow hs ht
  | xor => exact Nat.xor_lt_two_pow hs ht

lemma areBits_natBool (hn : n ≤ 253) (hx : AreBits xs n x w) (hy : AreBits ys n y w)
    (hbits : values bits w = List.zipWith (boolValue o) (values xs w) (values ys w)) :
    AreBits bits n (natBool o x.val y.val : ℕ) w := by
  refine areBits_natCast hn (natBool_lt o hx.1 hy.1) ?_
  rw [hbits, hx.2, hy.2, bitList, bitList, List.zipWith_map, List.zipWith_self]
  exact List.map_congr_left fun i _ => boolValue_bitOf o x.val y.val i

lemma bitOp_spec {s t : LinearCombination} (fakeGlv : FakeGlv) (hb : b.Sound) (hs : s.Below b.nextVarId)
    (ht : t.Below b.nextVarId) (hsc : s.isConstant = true → s.constant = 0 ∨ s.constant = 1)
    (htc : t.isConstant = true → t.constant = 0 ∨ t.constant = 1)
    (hop : bitOp lcHash o s t b = .ok (out, b')) : b'.Sound ∧ out.Below b'.nextVarId ∧
      Emission.Emits (Builder.emitter fakeGlv) (fun _ => True) b b'
        fun w => out.eval w = boolValue o (s.eval w) (t.eval w) := by
  have hfold : ∀ {z : LinearCombination}, z.Below b.nextVarId →
      (∀ w : VarId → Fr, z.eval w = boolValue o (s.eval w) (t.eval w)) → (.ok (z, b) : Outcome _) = .ok (out, b') →
      b'.Sound ∧ out.Below b'.nextVarId ∧ Emission.Emits (Builder.emitter fakeGlv) (fun _ => True) b b'
        fun w => out.eval w = boolValue o (s.eval w) (t.eval w) := by
    intro z hz hval hok
    obtain ⟨rfl, rfl⟩ := Prod.mk.inj (Except.ok.inj hok)
    exact ⟨hb, hz, (Emission.Emits.refl b).weaken (fun _ _ hw => hw) fun w _ _ => hval w⟩
  have hse : s.isConstant = true → ∀ w : VarId → Fr, s.eval w = s.constant :=
    fun hconst w => eval_of_isConstant hconst w
  have hte : t.isConstant = true → ∀ w : VarId → Fr, t.eval w = t.constant :=
    fun hconst w => eval_of_isConstant hconst w
  have hnot : ∀ l : LinearCombination, ∀ w : VarId → Fr, (one - l).eval w = 1 - l.eval w :=
    fun l w => by rw [eval_sub, eval_one]
  unfold bitOp at hop
  by_cases hs₀ : s.isConstant = true
  · rw [if_pos hs₀] at hop
    have hsw := hse hs₀
    rcases hsc hs₀ with hzero | hone
    · simp only [hzero, decide_true] at hop
      rw [hzero] at hsw
      cases o with
      | and => exact hfold Below.zero (fun w => by simp [hsw, boolValue]) hop
      | or => exact hfold ht (fun w => by simp [hsw, boolValue]) hop
      | xor => exact hfold ht (fun w => by simp [hsw, boolValue]) hop
    · simp only [hone, one_ne_zero, decide_false] at hop
      rw [hone] at hsw
      cases hlast : (t.isConstant && decide (t.constant = 0)) with
      | true =>
          rw [Bool.and_eq_true, decide_eq_true_eq] at hlast
          have htw := hte hlast.1
          rw [hlast.2] at htw
          simp only [hlast, decide_true, Bool.and_self, if_true] at hop
          cases o with
          | and => exact hfold Below.zero (fun w => by simp [htw, boolValue]) hop
          | or => exact hfold hs (fun w => by simp [htw, boolValue]) hop
          | xor => exact hfold hs (fun w => by simp [htw, boolValue]) hop
      | false =>
          simp only [hlast, Bool.false_eq_true, if_false] at hop
          cases o with
          | and => exact hfold ht (fun w => by simp [hsw, boolValue]) hop
          | or => exact hfold Below.one (fun w => by simp [hsw, boolValue]) hop
          | xor => exact hfold (Below.one.sub ht) (fun w => by
              rw [hnot, hsw, boolValue, Int.cast_one]
              ring) hop
  rw [if_neg hs₀] at hop
  by_cases ht₀ : t.isConstant = true
  · rw [if_pos ht₀] at hop
    have htw := hte ht₀
    rcases htc ht₀ with hzero | hone
    · simp only [hzero, decide_true] at hop
      rw [hzero] at htw
      cases o with
      | and => exact hfold Below.zero (fun w => by simp [htw, boolValue]) hop
      | or => exact hfold hs (fun w => by simp [htw, boolValue]) hop
      | xor => exact hfold hs (fun w => by simp [htw, boolValue]) hop
    · simp only [hone, one_ne_zero, decide_false] at hop
      rw [hone] at htw
      cases o with
      | and => exact hfold hs (fun w => by simp [htw, boolValue]) hop
      | or => exact hfold Below.one (fun w => by simp [htw, boolValue]) hop
      | xor => exact hfold (Below.one.sub hs) (fun w => by
          rw [hnot, htw, boolValue, Int.cast_one]
          ring) hop
  · rw [if_neg ht₀] at hop
    cases o with
    | and => exact Builder.emitMul_spec hb hs ht hop fakeGlv
    | or => exact Builder.emitOr_spec hb hs ht hop fakeGlv
    | xor => exact Builder.emitXor_spec hb hs ht hop fakeGlv

lemma bitOps_spec (fakeGlv : FakeGlv) (hb : b.Sound) (hxs : ∀ l ∈ xs, l.Below b.nextVarId)
    (hys : ∀ l ∈ ys, l.Below b.nextVarId)
    (hxc : ∀ l ∈ xs, l.isConstant = true → l.constant = 0 ∨ l.constant = 1)
    (hyc : ∀ l ∈ ys, l.isConstant = true → l.constant = 0 ∨ l.constant = 1)
    (hop : bitOps lcHash o xs ys b = .ok (bits, b')) : b'.Sound ∧ (∀ l ∈ bits, l.Below b'.nextVarId) ∧
      Emission.Emits (Builder.emitter fakeGlv) (fun _ => True) b b'
        fun w => values bits w = List.zipWith (boolValue o) (values xs w) (values ys w) := by
  induction xs generalizing ys bits b with
  | nil =>
      obtain ⟨rfl, rfl⟩ := Prod.mk.inj (Except.ok.inj hop)
      exact ⟨hb, fun l hl => absurd hl List.not_mem_nil,
        (Emission.Emits.refl b).weaken (fun _ _ hw => hw) fun w _ _ => rfl⟩
  | cons x xs ih =>
      cases ys with
      | nil =>
          obtain ⟨rfl, rfl⟩ := Prod.mk.inj (Except.ok.inj hop)
          exact ⟨hb, fun l hl => absurd hl List.not_mem_nil,
            (Emission.Emits.refl b).weaken (fun _ _ hw => hw) fun w _ _ => rfl⟩
      | cons y ys =>
          rw [List.forall_mem_cons] at hxs hys hxc hyc
          obtain ⟨⟨out, b₁⟩, h₁, hop⟩ := Outcome.bind_eq_ok.mp hop
          obtain ⟨⟨outs, b₂⟩, h₂, hop⟩ := Outcome.bind_eq_ok.mp hop
          obtain ⟨rfl, rfl⟩ := Prod.mk.inj (Except.ok.inj hop)
          obtain ⟨hb₁, hout, e₁⟩ := bitOp_spec fakeGlv hb hxs.1 hys.1 hxc.1 hyc.1 h₁
          obtain ⟨hb₂, houts, e₂⟩ := ih hb₁ (fun l hl => (hxs.2 l hl).mono e₁.next_le)
            (fun l hl => (hys.2 l hl).mono e₁.next_le) hxc.2 hyc.2 h₂
          refine ⟨hb₂, List.forall_mem_cons.mpr ⟨hout.mono e₂.next_le, houts⟩,
            e₁.seq e₂ (fun _ hw => hw) (fun _ hw _ _ => hw) fun w _ hhead htail => ?_⟩
          exact congrArg₂ List.cons hhead htail

/-! ### Sums and products -/

lemma Number.val_add (hx : h.Number la m) (hy : h.Number lb n) (hm : m ≤ 252) (hn : n ≤ 252)
    (hw : h.b.Sat w) : ((la + lb).eval w).val = (la.eval w).val + (lb.eval w).val := by
  rw [eval_add, ZMod.val_add_of_lt]
  have hx := (hx.lt w hw).trans_le (Nat.pow_le_pow_right (by norm_num) hm)
  have hy := (hy.lt w hw).trans_le (Nat.pow_le_pow_right (by norm_num) hn)
  have htwo := two_pow_le (n := 253) le_rfl
  omega

lemma Number.add (hx : h.Number la m) (hy : h.Number lb n) (hm : m ≤ 252) (hn : n ≤ 252) :
    h.Number (la + lb) (max m n + 1) := by
  refine ⟨hx.below.add hy.below, canonical_add la lb, fun w hw => ?_⟩
  have hx' := (hx.wider (le_max_left m n)).lt w hw
  have hy' := (hy.wider (le_max_right m n)).lt w hw
  rw [hx.val_add hy hm hn hw, pow_succ]
  omega

lemma val_mul_of_lt {s t : Fr} (hs : s.val < 2 ^ m) (ht : t.val < 2 ^ n) (hmn : m + n ≤ 253) :
    (s * t).val = s.val * t.val ∧ (s * t).val < 2 ^ (m + n) := by
  have hprod : s.val * t.val < 2 ^ (m + n) := by
    rw [pow_add]
    exact Nat.mul_lt_mul'' hs ht
  have hval : (s * t).val = s.val * t.val := ZMod.val_mul_of_lt (hprod.trans_le (two_pow_le hmn))
  exact ⟨hval, hval ▸ hprod⟩

lemma Operand.width_le (ha : h.Operand reg a la) (hreg : reg = 32 ∨ reg = 64) : a.intWidth ≤ 64 := by
  have hle := ha.fits.width_le
  omega

/-! ### Bit by bit -/

lemma maskWidth_spec {mask k : ℕ} (hk : maskWidth mask = some k) : k ≤ 63 ∧ mask = 2 ^ k - 1 := by
  rw [maskWidth] at hk
  split_ifs at hk with hcond
  obtain ⟨hlt, e, he⟩ := hcond
  have hle : e ≤ 63 := by
    rw [he] at hlt
    exact Nat.lt_succ_iff.mp ((Nat.pow_lt_pow_iff_right (by norm_num)).mp hlt)
  rw [he, trailingZeros_two_pow hle] at hk
  obtain rfl := Option.some.inj hk
  exact ⟨hle, by omega⟩

/-- The bits of a mask are the low bits of the other operand. -/
lemma masked_spec (ha : h.Operand reg a la) (hc : h.Operand reg c lb) {k : ℕ}
    (hk : (c.konst.or a.konst).bind maskWidth = some k) (hw : h.b.Sat w) :
    natBool .and (a.value h.wires w) (c.value h.wires w)
      = (((if c.konst.isSome then (la, a.intWidth) else (lb, c.intWidth)).1).eval w).val % 2 ^ k := by
  obtain ⟨mask, hmask, hk⟩ := Option.bind_eq_some_iff.mp hk
  obtain ⟨-, rfl⟩ := maskWidth_spec hk
  cases hkonst : c.konst with
  | some d =>
      rw [hkonst, Option.some_or] at hmask
      obtain rfl := Option.some.inj hmask
      rw [Option.isSome_some, if_pos rfl, ← hc.value w hw, hc.konst hkonst hw, ha.value w hw]
      exact Nat.and_two_pow_sub_one_eq_mod _ _
  | none =>
      rw [hkonst, Option.none_or] at hmask
      rw [Option.isSome_none, if_neg Bool.false_ne_true, ← ha.value w hw, ha.konst hmask hw,
        hc.value w hw]
      exact (Nat.and_comm _ _).trans (Nat.and_two_pow_sub_one_eq_mod _ _)

/-- **An operation bit by bit.** -/
lemma bitwise_spec (fakeGlv : FakeGlv) (hh : h.Sound) (hs : h.Settled) (hreg : reg = 32 ∨ reg = 64)
    (ha : h.Operand reg a la) (hc : h.Operand reg c lb)
    (hop : bitwise lcHash h o reg a la a.intWidth c lb c.intWidth = .ok (v, h')) :
    Yields fakeGlv h reg P v h' fun w => natBool o (a.value h.wires w) (c.value h.wires w) := by
  have hwa := ha.width_le hreg
  have hwc := hc.width_le hreg
  have hmax : max a.intWidth c.intWidth ≤ reg := max_le ha.fits.width_le hc.fits.width_le
  have hlt : ∀ w, h.b.Sat w →
      natBool o (a.value h.wires w) (c.value h.wires w) < 2 ^ max a.intWidth c.intWidth := by
    intro w hw
    rw [← ha.value w hw, ← hc.value w hw]
    exact natBool_lt o ((ha.number.wider (le_max_left _ _)).lt w hw)
      ((hc.number.wider (le_max_right _ _)).lt w hw)
  have hsmall : ∀ w, h.b.Sat w → natBool o (a.value h.wires w) (c.value h.wires w) % 2 ^ reg
      = natBool o (a.value h.wires w) (c.value h.wires w) := fun w hw =>
    Nat.mod_eq_of_lt ((hlt w hw).trans_le (Nat.pow_le_pow_right (by norm_num) hmax))
  dsimp only [bitwise] at hop
  by_cases hdis : (decide (o ≠ .and) && h.disjoint la lb) = true
  · -- the sum has the bits of both
    rw [if_pos hdis] at hop
    rw [Bool.and_eq_true, decide_eq_true_eq] at hdis
    have hsum : ∀ w, h.b.Sat w → ((la + lb).eval w).val
        = natBool o (a.value h.wires w) (c.value h.wires w) := by
      intro w hw
      rw [ha.number.val_add hc.number (by omega) (by omega) hw, ← ha.value w hw, ← hc.value w hw]
      obtain ⟨hor, hxor⟩ := hh.disjoint hs hdis.2 hw
      cases o with
      | and => exact absurd rfl hdis.1
      | or => exact hor.symm
      | xor => exact hxor.symm
    refine Performs.intResult (Q := fun _ _ => True) (.pure hh fun _ _ _ => True.intro) hs
      ⟨ha.number.below.add hc.number.below, canonical_add _ _,
        fun w hw => (hsum w hw).trans_lt (hlt w hw)⟩ hreg (by omega) hop fun _ w hw _ => ?_
    rw [hsum w hw, hsmall w hw]
  rw [if_neg hdis] at hop
  split at hop
  next k low hlow =>
    -- a mask takes the low bits
    obtain ⟨k', hmask, hmap⟩ := Option.bind_eq_some_iff.mp hlow
    obtain ⟨⟨low', high⟩, hsplit, heq⟩ := Option.map_eq_some_iff.mp hmap
    obtain ⟨rfl, rfl⟩ := Prod.mk.inj heq
    split_ifs at hmask with hand
    subst hand
    have hx : h.Number (if c.konst.isSome then (la, a.intWidth) else (lb, c.intWidth)).1
        (if c.konst.isSome then (la, a.intWidth) else (lb, c.intWidth)).2 := by
      split_ifs
      · exact ha.number
      · exact hc.number
    have hx253 : (if c.konst.isSome then (la, a.intWidth) else (lb, c.intWidth)).2 ≤ 253 := by
      split_ifs
      · exact hwa.trans (by norm_num)
      · exact hwc.trans (by norm_num)
    obtain ⟨hbelow, -, hparts⟩ := hh.splitLc hs hx.below hsplit
    refine Performs.intResult (Q := fun _ _ => True) (.pure hh fun _ _ _ => True.intro) hs
      ⟨hbelow, (canonical_splitLc hsplit).1, fun w hw => ?_⟩ hreg ((min_le_right _ _).trans hx253) hop
      fun _ w hw _ => ?_
    · rw [(hparts w hw).1]
      rcases min_choice k' (if c.konst.isSome then (la, a.intWidth) else (lb, c.intWidth)).2 with
        hmin | hmin
      · rw [hmin]
        exact Nat.mod_lt _ (Nat.two_pow_pos k')
      · rw [hmin]
        exact (Nat.mod_le _ _).trans_lt (hx.lt w hw)
    · rw [(hparts w hw).1, ← masked_spec ha hc hmask hw]
      exact hsmall w hw
  next =>
    have hn : min (max a.intWidth c.intWidth) reg = max a.intWidth c.intWidth := min_eq_left hmax
    rw [hn] at hop
    obtain ⟨⟨ba, h₁⟩, hba, hop⟩ := Succeeding.bind_eq_ok.mp hop
    obtain ⟨⟨bb, h₂⟩, hbb, hop⟩ := Succeeding.bind_eq_ok.mp hop
    obtain ⟨⟨outs, b'⟩, hout, hop⟩ := Succeeding.bind_eq_ok.mp hop
    obtain ⟨hbelow₁, p₁⟩ := bitsOf_spec fakeGlv hh ha.number.below (by omega) hba
    have hc₁ := hc.after p₁
    obtain ⟨hbelow₂, p₂⟩ := bitsOf_spec fakeGlv p₁.sound hc₁.number.below (by omega) hbb
    obtain ⟨hb', hbelow, he⟩ := bitOps_spec fakeGlv p₂.sound.builder
      (fun l hl => (hbelow₁ l hl).mono p₂.le) hbelow₂
      (bitsOf_plain hh ha.number.below ha.number.canonical hba)
      (bitsOf_plain p₁.sound hc₁.number.below hc₁.number.canonical hbb) (lift_eq_ok hout)
    have p₃ := Performs.of_builder p₂.sound hb' (.of_emits he)
    have p₀ := p₁.weaken (P := P) (fun w hw _ => (ha.number.wider (le_max_left _ _)).lt w hw)
      fun _ _ _ hw => hw
    have hall := (p₀.seq p₂ (P := P) (Q := fun _ w => AreBits ba (max a.intWidth c.intWidth) (la.eval w) w ∧
        AreBits bb (max a.intWidth c.intWidth) (lb.eval w) w) (fun _ hw => hw)
      (fun w _ hw _ _ => (hc₁.number.wider (le_max_right _ _)).lt w hw)
      fun _ _ _ hba hbb => ⟨hba, hbb⟩).seq p₃ (P := P) (Q := fun _ w => ((recompose outs).eval w).val
        = natBool o (a.value h.wires w) (c.value h.wires w)) (fun _ hw => hw)
      (fun _ _ _ _ _ => True.intro) fun _ w hw hbits hvalues => ?_
    · have hrange : (if o = .and then min a.intWidth c.intWidth else max a.intWidth c.intWidth) ≤ 253 := by
        split_ifs <;> omega
      refine hall.intResult hs ⟨below_recompose hbelow, canonical_recompose _, fun w hw => ?_⟩ hreg hrange
        hop fun _ w hw hval => ?_
      · have hsat := hall.realizes.mono hw
        rw [hall.realizes.emits.post hw]
        split_ifs with hand
        · subst hand
          rw [← ha.value w hsat, ← hc.value w hsat]
          rcases min_choice a.intWidth c.intWidth with hmin | hmin
          · rw [hmin, natBool, Nat.and_comm]
            exact Nat.and_lt_two_pow _ (ha.number.lt w hsat)
          · rw [hmin]
            exact Nat.and_lt_two_pow _ (hc.number.lt w hsat)
        · exact hlt w hsat
      · rw [hval]
        exact hsmall w (hall.realizes.mono hw)
    · have hsat := p₁.realizes.mono (p₂.realizes.mono (p₃.realizes.mono hw))
      rw [(areBits_natBool (by omega) hbits.1 hbits.2 hvalues).val_recompose, ZMod.val_natCast_of_lt,
        ha.value w hsat, hc.value w hsat]
      exact (natBool_lt o hbits.1.1 hbits.2.1).trans_le (two_pow_le (by omega))

/-! ### Products -/

/-- A product in a register. -/
lemma Performs.product (hp : Performs fakeGlv h P h₁ fun _ w => l.eval w = la.eval w * lb.eval w)
    (hs : h.Settled) (ha : h.Number la wa) (hb : h.Number lb wb) (hwidth : wa + wb ≤ 253)
    (hl : l.Below h₁.b.nextVarId) (hcanon : Canonical l.terms) (hreg : reg = 32 ∨ reg = 64)
    (hop : Host.intResult lcHash h₁ l (wa + wb) reg = .ok (v, h')) :
    Yields fakeGlv h reg P v h' fun w => (la.eval w).val * (lb.eval w).val % 2 ^ reg := by
  have hmul : ∀ w, h₁.b.Sat w → _ := fun w hw =>
    val_mul_of_lt (ha.lt w (hp.realizes.mono hw)) (hb.lt w (hp.realizes.mono hw)) hwidth
  refine hp.intResult hs ⟨hl, hcanon, fun w hw => ?_⟩ hreg hwidth hop fun _ w hw hval => ?_
  · rw [hp.realizes.emits.post hw]
    exact (hmul w hw).2
  · rw [hval, (hmul w hw).1]

lemma emitMul_number (fakeGlv : FakeGlv) {x : LinearCombination} (hh : h.Sound) (hl : l.Below h.b.nextVarId)
    (hx : x.Below h.b.nextVarId)
    (hop : ((h.b.consumePending l).consumePending x).emitMul lcHash l x = .ok (out, b')) :
    out.Below b'.nextVarId ∧ Performs fakeGlv h P { h with b := b' }
      fun _ w => out.eval w = l.eval w * x.eval w := by
  have hb₁ := emits_consume₂ fakeGlv hh.builder l x
  obtain ⟨hb', hout, he⟩ := Builder.emitMul_spec hb₁.1 (hb₁.2.1.symm ▸ hl) (hb₁.2.1.symm ▸ hx) hop fakeGlv
  have hc := Computes.after_consumed hh hb₁ ⟨hb', hout, he⟩
  exact ⟨hc.below, hc.performs.weaken (fun _ _ _ => True.intro) fun _ _ _ hw => hw⟩

/-- **A product**; with a constant it is linear. -/
lemma intMul_spec (fakeGlv : FakeGlv) (hh : h.Sound) (hs : h.Settled) (hreg : reg = 32 ∨ reg = 64)
    (ha : h.Operand reg a la) (hc : h.Operand reg c lb)
    (hop : intMul lcHash h reg a la a.intWidth c lb c.intWidth = .ok (v, h')) :
    Yields fakeGlv h reg P v h' fun w => a.value h.wires w * c.value h.wires w % 2 ^ reg := by
  have hwa := ha.width_le hreg
  have hwc := hc.width_le hreg
  have hvalue : Yields fakeGlv h reg P v h' (fun w => (la.eval w).val * (lb.eval w).val % 2 ^ reg) →
      Yields fakeGlv h reg P v h' fun w => a.value h.wires w * c.value h.wires w % 2 ^ reg := fun hy =>
    ⟨hy.fits, hy.performs.weaken (fun _ _ hw => hw) fun _ w hw hval => by
      rw [hval, ha.value w (hy.performs.realizes.mono hw), hc.value w (hy.performs.realizes.mono hw)]⟩
  have hscale : ∀ {k : ℕ} {x y : LinearCombination}, (∀ w, h.b.Sat w → (x.eval w).val = k) →
      ∀ w, h.b.Sat w → (y.scale k).eval w = x.eval w * y.eval w := by
    intro k x y hx w hw
    rw [eval_scale, ← hx w hw, mul_comm, Int.cast_natCast, ZMod.natCast_zmod_val]
  refine hvalue ?_
  rw [intMul.eq_def] at hop
  split at hop
  next k hk =>
    exact Performs.product (.pure hh fun _ => hscale fun w => ha.konst hk) hs ha.number hc.number
      (by omega) (hc.number.below.scale _) (canonical_scale _ _) hreg hop
  next k hk hk' =>
    refine Performs.product (.pure hh fun _ w hw => ?_) hs ha.number hc.number
      (by omega) (ha.number.below.scale _) (canonical_scale _ _) hreg hop
    rw [hscale (fun w => hc.konst hk') w hw, mul_comm]
  next =>
    obtain ⟨⟨out, b'⟩, hout, hop⟩ := Succeeding.bind_eq_ok.mp hop
    obtain ⟨hbelow, hp⟩ := emitMul_number fakeGlv (P := P) hh ha.number.below hc.number.below
      (lift_eq_ok hout)
    exact hp.product hs ha.number hc.number (by omega) hbelow
      (Builder.canonical_emitMul (lift_eq_ok hout)) hreg hop

/-! ### Shifts by a witness amount -/

/-- The factor of bit `i` of the amount. -/
def twoPowFactor (i : ℕ) (bit : Fr) : Fr := 1 + bit * (2 ^ 2 ^ i - 1)

lemma prod_twoPowFactor (k n i : ℕ) :
    ((((List.range' i n).map fun j => (Bits.bitOf k j : Fr)).zipIdx i).map fun f =>
      twoPowFactor f.2 f.1).prod = 2 ^ (2 ^ i * (k / 2 ^ i % 2 ^ n)) := by
  induction n generalizing i with
  | zero => simp [Nat.mod_one]
  | succ n ih =>
      have hfactor : twoPowFactor i (Bits.bitOf k i) = 2 ^ (2 ^ i * (k / 2 ^ i % 2)) := by
        rw [twoPowFactor, Bits.bitOf, Nat.testBit_eq_decide_div_mod_eq]
        rcases Nat.mod_two_eq_zero_or_one (k / 2 ^ i) with hbit | hbit
        · simp [hbit]
        · simp [hbit]
      rw [List.range'_succ, List.map_cons, List.zipIdx_cons, List.map_cons, List.prod_cons, ih, hfactor,
        ← pow_add, pow_succ' 2 n, Nat.mod_mul, Nat.div_div_eq_div_mul, ← pow_succ, pow_succ' 2 i]
      congr 1
      ring

lemma twoPowLoop_spec {p : LinearCombination} {i : ℕ} (fakeGlv : FakeGlv) (hb : b.Sound)
    (hbits : ∀ l ∈ bits, l.Below b.nextVarId) (hp : p.Below b.nextVarId)
    (hop : (bits.zipIdx i).foldlM (twoPowStep lcHash) (p, b) = .ok (out, b')) :
    b'.Sound ∧ out.Below b'.nextVarId ∧ Emission.Emits (Builder.emitter fakeGlv) (fun _ => True) b b'
      fun w => out.eval w
        = p.eval w * (((values bits w).zipIdx i).map fun f => twoPowFactor f.2 f.1).prod := by
  induction bits generalizing p i b with
  | nil =>
      obtain ⟨rfl, rfl⟩ := Prod.mk.inj (Except.ok.inj hop)
      refine ⟨hb, hp, (Emission.Emits.refl b).weaken (fun _ _ hw => hw) fun w _ _ => ?_⟩
      exact (mul_one _).symm
  | cons l bits ih =>
      rw [List.forall_mem_cons] at hbits
      rw [List.zipIdx_cons, List.foldlM_cons] at hop
      obtain ⟨⟨p₁, b₁⟩, h₁, hop⟩ := Outcome.bind_eq_ok.mp hop
      have hf : (one + l.scale (2 ^ 2 ^ i - 1)).Below b.nextVarId := Below.one.add (hbits.1.scale _)
      have hfactor : ∀ w : VarId → Fr,
          (one + l.scale (2 ^ 2 ^ i - 1)).eval w = twoPowFactor i (l.eval w) := by
        intro w
        rw [eval_add, eval_one, eval_scale, twoPowFactor]
        push_cast
        rfl
      have hstep : b₁.Sound ∧ p₁.Below b₁.nextVarId ∧
          Emission.Emits (Builder.emitter fakeGlv) (fun _ => True) b b₁
            fun w => p₁.eval w = p.eval w * twoPowFactor i (l.eval w) := by
        dsimp only [twoPowStep] at h₁
        split_ifs at h₁ with hconst
        · obtain ⟨rfl, rfl⟩ := Prod.mk.inj (Except.ok.inj h₁)
          refine ⟨hb, hf.scale _, (Emission.Emits.refl b).weaken (fun _ _ hw => hw) fun w _ _ => ?_⟩
          rw [eval_scale, hfactor, eval_of_isConstant hconst, mul_comm]
        · obtain ⟨hbc, hnext, ec⟩ := emits_consume fakeGlv hb p
          obtain ⟨hb₁, hp₁, e₁⟩ := Builder.emitMul_spec hbc (hnext.symm ▸ hp) (hnext.symm ▸ hf) h₁ fakeGlv
          refine ⟨hb₁, hp₁, ec.seq e₁ (fun _ hw => hw) (fun _ hw _ _ => hw) fun w _ _ hw => ?_⟩
          rw [hw, hfactor]
      obtain ⟨hb₁, hp₁, e₁⟩ := hstep
      obtain ⟨hb', hout, e'⟩ := ih hb₁ (fun l hl => (hbits.2 l hl).mono e₁.next_le) hp₁ hop
      refine ⟨hb', hout, e₁.seq e' (fun _ hw => hw) (fun _ hw _ _ => hw) fun w _ hp hw => ?_⟩
      have hcons : values (l :: bits) w = l.eval w :: values bits w := rfl
      rw [hw, hp, hcons, List.zipIdx_cons, List.map_cons, List.prod_cons, mul_assoc]

/-- **The power of two** of a number. -/
lemma twoPow_spec (fakeGlv : FakeGlv) (hb : b.Sound) (hbits : ∀ l ∈ bits, l.Below b.nextVarId)
    (hop : twoPow lcHash b bits = .ok (out, b')) : b'.Sound ∧ out.Below b'.nextVarId ∧
      Emission.Emits (Builder.emitter fakeGlv) (fun _ => True) b b'
        fun w => ∀ x, AreBits bits n x w → out.eval w = 2 ^ x.val := by
  obtain ⟨hb', hout, he⟩ := twoPowLoop_spec fakeGlv hb hbits Below.one hop
  refine ⟨hb', hout, he.weaken (fun _ _ hw => hw) fun w _ hw x hx => ?_⟩
  have hprod := prod_twoPowFactor x.val n 0
  rw [pow_zero, one_mul, Nat.div_one, Nat.mod_eq_of_lt hx.1, ← List.range_eq_range'] at hprod
  rw [hw, eval_one, one_mul, hx.2]
  exact hprod

/-- The factor of a shift. -/
lemma shiftAmount_spec {lg : ℕ} {p : LinearCombination} (fakeGlv : FakeGlv) (hh : h.Sound)
    (hreg : reg = 32 ∨ reg = 64) (hlg : 2 ^ lg = reg) (hc : h.Operand reg c lb)
    (hbits : h.bitsOf lcHash lb (max c.intWidth lg) = .ok (bits, h₁))
    (hop : twoPow lcHash h₁.b (bits.take lg) = .ok (p, b')) :
    p.Below b'.nextVarId ∧ Performs fakeGlv h P { h₁ with b := b' }
      fun _ w => p.eval w = ((2 ^ (c.value h.wires w % reg) : ℕ) : Fr) := by
  have hlt : lg < reg := hlg ▸ Nat.lt_two_pow_self
  have hwidth : max c.intWidth lg ≤ 253 := by
    have hwc := hc.width_le hreg
    omega
  obtain ⟨hbelow, p₁⟩ := bitsOf_spec fakeGlv hh hc.number.below hwidth hbits
  obtain ⟨hb', hp, he⟩ := twoPow_spec (n := lg) fakeGlv p₁.sound.builder
    (fun l hl => hbelow l (List.mem_of_mem_take hl)) hop
  have p₀ := p₁.weaken (P := P) (fun w hw _ => (hc.number.wider (le_max_left _ _)).lt w hw)
    fun _ _ _ hw => hw
  refine ⟨hp, p₀.seq (Performs.of_builder p₁.sound hb' (.of_emits he)) (fun _ hw => hw)
    (fun _ _ _ _ _ => True.intro) fun _ w hw hareBits hval => ?_⟩
  have hlow := (hareBits.split (le_max_right _ _)).1
  rw [hval _ hlow, ZMod.val_natCast_of_lt ((Nat.mod_le _ _).trans_lt (ZMod.val_lt _)), hlg,
    hc.value w (p₁.realizes.mono (he.mono hw)), Nat.cast_pow, Nat.cast_ofNat]

lemma val_shiftAmount {k : ℕ} (hreg : reg = 32 ∨ reg = 64) :
    ((2 ^ (k % reg) : ℕ) : Fr).val = 2 ^ (k % reg) ∧ 2 ^ (k % reg) ≤ 2 ^ (reg - 1) := by
  have hlt : k % reg < reg := Nat.mod_lt _ (by omega)
  refine ⟨ZMod.val_natCast_of_lt (two_pow_lt_rModulus (by omega)), ?_⟩
  exact Nat.pow_le_pow_right (by norm_num) (by omega)

/-- **A quotient and a remainder** are those of the division. -/
lemma div_of_rows {s d q r : Fr} (hq : q.val < 2 ^ m) (hd : d.val ≤ 2 ^ n) (hr : r.val < d.val)
    (hmn : m + n ≤ 252) (heq : q * d + r = s) : q.val = s.val / d.val ∧ r.val = s.val % d.val := by
  have hprod : q.val * d.val + r.val < 2 ^ 253 := by
    have hstep : (q.val + 1) * d.val ≤ 2 ^ m * 2 ^ n := Nat.mul_le_mul hq hd
    have hpow : 2 ^ m * 2 ^ n ≤ 2 ^ 252 := by
      rw [← pow_add]
      exact Nat.pow_le_pow_right (by norm_num) hmn
    rw [Nat.succ_mul] at hstep
    omega
  have hs : s.val = d.val * q.val + r.val := by
    have hcast : s = ((d.val * q.val + r.val : ℕ) : Fr) := by
      rw [← heq]
      push_cast
      rw [ZMod.natCast_zmod_val, ZMod.natCast_zmod_val, ZMod.natCast_zmod_val, mul_comm]
    rw [hcast, ZMod.val_natCast_of_lt]
    rw [mul_comm]
    exact hprod.trans_le (two_pow_le le_rfl)
  have hunique := (Nat.div_mod_unique (a := s.val) (b := d.val) (c := r.val) (d := q.val) (by omega)).mpr
    ⟨by omega, hr⟩
  exact ⟨hunique.1.symm, hunique.2.symm⟩

lemma rows_of_div {s d q r : Fr} (hq : q.val = s.val / d.val) (hr : r.val = s.val % d.val) :
    q * d + r = s := by
  have hcast : ((d.val * q.val + r.val : ℕ) : Fr) = (s.val : ℕ) := by rw [hq, hr, Nat.div_add_mod]
  push_cast at hcast
  rwa [ZMod.natCast_zmod_val, ZMod.natCast_zmod_val, ZMod.natCast_zmod_val, ZMod.natCast_zmod_val,
    mul_comm] at hcast

lemma shiftLeft_spec {p : LinearCombination} {k : (VarId → Fr) → ℕ} (hreg : reg = 32 ∨ reg = 64)
    (hs : h.Settled) (ha : h.Operand reg a la) (hp : p.Below h₁.b.nextVarId)
    (p₁ : Performs fakeGlv h P h₁ fun _ w => p.eval w = ((2 ^ (k w % reg) : ℕ) : Fr))
    (hmul : ((h₁.b.consumePending la).consumePending p).emitMul lcHash la p = .ok (l, b'))
    (hop : intResult lcHash { h₁ with b := b' } l (a.intWidth + reg - 1) reg = .ok (v, h')) :
    Yields fakeGlv h reg P v h' fun w => a.value h.wires w * 2 ^ (k w % reg) % 2 ^ reg := by
  have hwa := ha.width_le hreg
  have ha₁ := ha.after p₁
  obtain ⟨hl, p₂⟩ := emitMul_number fakeGlv (P := fun _ => True) p₁.sound ha₁.number.below hp hmul
  have hall := p₁.seq p₂ (P := P) (Q := fun _ w => l.eval w = la.eval w * ((2 ^ (k w % reg) : ℕ) : Fr))
    (fun _ hw => hw) (fun _ _ _ _ _ => True.intro) fun _ w _ hp hl => by rw [hl, hp]
  have hval : ∀ w, h.b.Sat w → (la.eval w * ((2 ^ (k w % reg) : ℕ) : Fr)).val
      = a.value h.wires w * 2 ^ (k w % reg) ∧
      a.value h.wires w * 2 ^ (k w % reg) < 2 ^ (a.intWidth + reg - 1) := by
    intro w hw
    obtain ⟨hpow, hle⟩ := val_shiftAmount (k := k w) hreg
    have hlt := ha.number.lt w hw
    rw [ha.value w hw] at hlt
    have hprod : a.value h.wires w * 2 ^ (k w % reg) < 2 ^ (a.intWidth + reg - 1) := by
      rw [Nat.add_sub_assoc (by omega), pow_add]
      exact Nat.mul_lt_mul_of_lt_of_le hlt hle (Nat.two_pow_pos _)
    refine ⟨?_, hprod⟩
    rw [ZMod.val_mul_of_lt, hpow, ha.value w hw]
    rw [hpow, ha.value w hw]
    exact hprod.trans_le (two_pow_le (by omega))
  refine hall.intResult hs ⟨hl, Builder.canonical_emitMul hmul, fun w hw => ?_⟩ hreg (by omega) hop
    fun _ w hw hprod => ?_
  · rw [hall.realizes.emits.post hw, (hval w (hall.realizes.mono hw)).1]
    exact (hval w (hall.realizes.mono hw)).2
  · rw [hprod, (hval w (hall.realizes.mono hw)).1]

/-! ### Quotients -/

lemma consumePending_pushWitness (b : Builder) (op : Option (WitnessGen LinearCombination VarId))
    (l : LinearCombination) : (b.pushWitness op).consumePending l = (b.consumePending l).pushWitness op := by
  have hsame : (b.pushWitness op).asPendingVar l = b.asPendingVar l := rfl
  rw [Builder.consumePending, Builder.consumePending, hsame]
  cases b.asPendingVar l with
  | none => rfl
  | some v => rfl

lemma pushConstraint_pushWitness (b : Builder) (op : Option (WitnessGen LinearCombination VarId))
    (s t u : LinearCombination) :
    (b.pushWitness op).pushConstraint s t u = (b.pushConstraint s t u).pushWitness op := by
  unfold Builder.pushConstraint
  cases hactive : b.witnessOnly with
  | true => simp [Builder.pushWitness, hactive]
  | false =>
      have hsame : (b.pushWitness op).nextConstraintId = b.nextConstraintId := rfl
      simp only [hsame]
      cases Builder.booleanityVar ⟨b.nextConstraintId, s, t, u, none⟩ with
      | none => simp [Builder.pushWitness, hactive]
      | some v => simp [Builder.pushWitness, Builder.markBoolean, hactive]

/-- Rows and ops are emitted in any order. -/
lemma pinDeadTo_pushWitness (op : Option (WitnessGen LinearCombination VarId))
    (g : Option LinearCombination) (u : VarId) (z : FieldConst) :
    (b.pushWitness op).pinDeadTo g u z = (b.pinDeadTo g u z).pushWitness op := by
  cases g with
  | none => rfl
  | some g =>
      change (b.pushWitness op).emitRequireEqGated (one - g) (ofVar u) (ofConst z)
        = (b.emitRequireEqGated (one - g) (ofVar u) (ofConst z)).pushWitness op
      rw [Builder.emitRequireEqGated, Builder.emitRequireEqGated, consumePending_pushWitness,
        consumePending_pushWitness, consumePending_pushWitness]
      split_ifs
      · rfl
      · exact pushConstraint_pushWitness _ op _ _ _

/-- **The hint of a quotient and a remainder**, with their bits: zero in an arm that is not taken. -/
lemma quotient_spec {num den : LinearCombination} {g : Option LinearCombination} {q r : VarId}
    {b₁ b₂ : Builder} {h₂ : Host} (fakeGlv : FakeGlv) (hh : h.Sound) (hg : ∀ l ∈ g, l.Below h.b.nextVarId)
    (hnum : num.Below h.b.nextVarId) (hden : den.Below h.b.nextVarId) (hm : m ≤ 253) (hn : n ≤ 253)
    (hq : h.b.allocAdvice = .ok (q, b₁)) (hr : b₁.allocAdvice = .ok (r, b₂))
    (hqb : Host.bitsOf lcHash { h with
      b := ((b₂.pushWitness (some (.divRem q r num den))).pinDeadTo g q 0).pinDeadTo g r 0 } (ofVar q) m
      = .ok (xs, h₁))
    (hrb : h₁.bitsOf lcHash (ofVar r) n = .ok (ys, h₂)) :
    q.val < h₂.b.nextVarId ∧ r.val < h₂.b.nextVarId ∧
      Performs fakeGlv h (fun w => (Builder.gateOf g w ≠ 1 → (num.eval w).val / (den.eval w).val = 0 ∧
          (num.eval w).val % (den.eval w).val = 0) ∧ (num.eval w).val / (den.eval w).val < 2 ^ m ∧
          (num.eval w).val % (den.eval w).val < 2 ^ n) h₂ fun honest w =>
        (Builder.gateOf g w ≠ 1 → w q = 0 ∧ w r = 0) ∧ (w q).val < 2 ^ m ∧ (w r).val < 2 ^ n ∧
          (honest = true → (w q).val = (num.eval w).val / (den.eval w).val ∧
            (w r).val = (num.eval w).val % (den.eval w).val) := by
  rw [pinDeadTo_pushWitness, pinDeadTo_pushWitness] at hqb
  have hau := hh.builder.alloc hq
  have hav := hau.sound.alloc hr
  obtain ⟨hb', hnext, hhint⟩ := Builder.hintPair_spec hh.builder hau hav hg (.divRem q r num den)
    (fun w => (((num.eval w).val / (den.eval w).val : ℕ) : Fr))
    (fun w => (((num.eval w).val % (den.eval w).val : ℕ) : Fr))
    (fun w hw => ((Builder.follows_divRem fakeGlv w q r num den).mp hw).2)
    (fun w w' hagree => by
      rw [Builder.local_eval fakeGlv hnum hagree, Builder.local_eval fakeGlv hden hagree])
    fun w w' hagree => by
      rw [Builder.local_eval fakeGlv hnum hagree, Builder.local_eval fakeGlv hden hagree]
  have p₁ := Performs.of_builder hh hb' hhint
  have hqlt : q.val < b₂.nextVarId := hau.lt.trans_le hav.appends.next_le
  have hval : ∀ w : VarId → Fr,
      (((num.eval w).val / (den.eval w).val : ℕ) : Fr).val = (num.eval w).val / (den.eval w).val ∧
      (((num.eval w).val % (den.eval w).val : ℕ) : Fr).val = (num.eval w).val % (den.eval w).val := fun w =>
    ⟨ZMod.val_natCast_of_lt ((Nat.div_le_self _ _).trans_lt (ZMod.val_lt _)),
      ZMod.val_natCast_of_lt ((Nat.mod_le _ _).trans_lt (ZMod.val_lt _))⟩
  obtain ⟨-, p₂⟩ := bitsOf_spec fakeGlv p₁.sound (below_ofVar.mpr (hnext.symm ▸ hqlt)) hm hqb
  obtain ⟨-, p₃⟩ := bitsOf_spec fakeGlv p₂.sound
    (below_ofVar.mpr ((hnext.symm ▸ hav.lt : r.val < _).trans_le p₂.le)) hn hrb
  refine ⟨(hnext.symm ▸ hqlt : q.val < _).trans_le (p₂.le.trans p₃.le),
    (hnext.symm ▸ hav.lt : r.val < _).trans_le (p₂.le.trans p₃.le), ?_⟩
  have p₁₂ := p₁.seq p₂ (P := fun w => (Builder.gateOf g w ≠ 1 → (num.eval w).val / (den.eval w).val = 0 ∧
      (num.eval w).val % (den.eval w).val = 0) ∧ (num.eval w).val / (den.eval w).val < 2 ^ m ∧
      (num.eval w).val % (den.eval w).val < 2 ^ n) (Q := fun honest w =>
    ((Builder.gateOf g w ≠ 1 → w q = 0 ∧ w r = 0) ∧
      (honest = true → (w q).val = (num.eval w).val / (den.eval w).val ∧
        (w r).val = (num.eval w).val % (den.eval w).val)) ∧ (w q).val < 2 ^ m)
    (fun w hw hdead => ?_) (fun w hw _ _ hhint => ?_) fun honest w _ hhint hbits => ?_
  · refine p₁₂.seq p₃ (fun _ hw => hw) (fun w hw _ _ hhint => ?_) fun honest w _ hhint hbits => ?_
    · rw [eval_ofVar, (hhint.1.2 rfl).2]
      exact hw.2.2
    · have hlt := hbits.1
      rw [eval_ofVar] at hlt
      exact ⟨hhint.1.1, hhint.2, hlt, hhint.1.2⟩
  · rw [(hw.1 hdead).1, (hw.1 hdead).2, Nat.cast_zero]
    exact ⟨rfl, rfl⟩
  · rw [eval_ofVar, (hhint.2 rfl).1, (hval w).1]
    exact hw.2.1
  · have hlt := hbits.1
    rw [eval_ofVar] at hlt
    refine ⟨⟨hhint.1, fun hhonest => ?_⟩, hlt⟩
    rw [(hhint.2 hhonest).1, (hhint.2 hhonest).2]
    exact hval w

/-- A comparison that is required. -/
lemma requireLess_spec {s d lt : LinearCombination} {b₁ b₂ : Builder} (fakeGlv : FakeGlv) (hh : h.Sound)
    (hs : s.Below h.b.nextVarId) (hd : d.Below h.b.nextVarId)
    (hlt : h.b.emitLessThanGated lcHash n s d none = .ok (.ok (lt, b₁)))
    (hreq : b₁.emitRequireEq lt one = .ok b₂) :
    Performs fakeGlv h (fun w => (s.eval w).val < 2 ^ n ∧ (d.eval w).val < 2 ^ n ∧
        (s.eval w).val < (d.eval w).val) { h with b := b₂ } fun _ w =>
      (s.eval w).val < 2 ^ n → (d.eval w).val < 2 ^ n → (s.eval w).val < (d.eval w).val := by
  obtain ⟨hb₁, hbelow, e₁⟩ := Builder.emitLessThanGated_spec hh.builder hs hd
    (fun g hg => absurd hg (Option.not_mem_none g)) hlt fakeGlv
  obtain ⟨hb₂, -, e₂⟩ := Builder.emitRequireEq_spec hb₁ hbelow Below.one hreq fakeGlv
  refine .of_builder hh hb₂ (.of_emits (e₁.seq e₂
    (fun w hw => ⟨.inr rfl, fun _ => ⟨hw.1, hw.2.1⟩⟩) (fun w hw _ hval => ?_) fun w _ hval hone hs hd => ?_))
  · rw [hval.2.1 rfl hw.1 hw.2.1, eval_one, Bits.borrow, if_pos hw.2.2]
  · rw [hval.2.1 rfl hs hd, eval_one, Bits.borrow] at hone
    by_contra hle
    rw [if_neg hle] at hone
    exact zero_ne_one hone

/-- **A shift to the right by a witness amount**: the quotient by the power of two. -/
lemma shiftRightByWire_spec {p lt prod : LinearCombination} {k : (VarId → Fr) → ℕ} {q r : VarId}
    {b₁ b₂ b₃ b₄ b₅ b₆ : Builder} {h₂ h₃ : Host} (hreg : reg = 32 ∨ reg = 64) (hs : h.Settled)
    (ha : h.Operand reg a la) (hp : p.Below h₁.b.nextVarId)
    (p₁ : Performs fakeGlv h P h₁ fun _ w => p.eval w = ((2 ^ (k w % reg) : ℕ) : Fr))
    (hq : h₁.b.allocAdvice = .ok (q, b₁)) (hr : b₁.allocAdvice = .ok (r, b₂))
    (hqb : Host.bitsOf lcHash { h₁ with b := b₂.pushWitness (some (.divRem q r la p)) } (ofVar q)
      (max a.intWidth 1) = .ok (xs, h₂))
    (hrb : h₂.bitsOf lcHash (ofVar r) (max a.intWidth 1) = .ok (ys, h₃))
    (hlt : h₃.b.emitLessThanGated lcHash (max a.intWidth reg) (ofVar r) p none = .ok (.ok (lt, b₃)))
    (hone : b₃.emitRequireEq lt one = .ok b₄)
    (hprod : (b₄.consumePending p).emitMul lcHash (ofVar q) p = .ok (prod, b₅))
    (hsum : (b₅.consumePending la).emitRequireEq (prod + ofVar r) la = .ok b₆)
    (hop : intResult lcHash { h₃ with b := b₆ } (ofVar q) a.intWidth reg = .ok (v, h')) :
    Yields fakeGlv h reg P v h' fun w => a.value h.wires w / 2 ^ (k w % reg) := by
  have hwa := ha.width_le hreg
  have hmax : max a.intWidth reg = reg := max_eq_right ha.fits.width_le
  rw [hmax] at hlt
  have ha₁ := ha.after p₁
  obtain ⟨hqlt, hrlt, p₂⟩ := quotient_spec fakeGlv p₁.sound (g := none)
    (fun g hg => absurd hg (Option.not_mem_none g)) ha₁.number.below hp (by omega) (by omega) hq hr hqb hrb
  have hp₃ := hp.mono p₂.le
  have p₃ := requireLess_spec fakeGlv p₂.sound (below_ofVar.mpr hrlt) hp₃ hlt hone
  have hle₄ : h₃.b.nextVarId ≤ b₄.nextVarId := p₃.le
  obtain ⟨hbc, hnextc, ec⟩ := emits_consume fakeGlv p₃.sound.builder p
  obtain ⟨hb₅, hprodBelow, e₅⟩ := Builder.emitMul_spec hbc
    (hnextc.symm ▸ below_ofVar.mpr (hqlt.trans_le hle₄)) (hnextc.symm ▸ hp₃.mono hle₄) hprod fakeGlv
  have hle₅ : b₄.nextVarId ≤ b₅.nextVarId := hnextc ▸ e₅.next_le
  obtain ⟨hbc', hnextc', ec'⟩ := emits_consume fakeGlv hb₅ la
  have hla₅ : la.Below b₅.nextVarId := ((ha₁.number.below.mono p₂.le).mono hle₄).mono hle₅
  obtain ⟨hb₆, -, e₆⟩ := Builder.emitRequireEq_spec hbc'
    (hnextc'.symm ▸ hprodBelow.add (below_ofVar.mpr (hrlt.trans_le (hle₄.trans hle₅))))
    (hnextc'.symm ▸ hla₅) hsum fakeGlv
  have hrows := ec.seq (e₅.seq (ec'.seq e₆
      (P := fun w => (prod + ofVar r).eval w = la.eval w)
      (Q := fun w => (prod + ofVar r).eval w = la.eval w) (fun _ _ => True.intro)
      (fun _ hw _ _ => hw) fun _ _ _ hw => hw)
    (P := fun w => w q * p.eval w + w r = la.eval w) (Q := fun w => w q * p.eval w + w r = la.eval w)
    (fun _ _ => True.intro) (fun w hw _ hval => by rwa [eval_add, hval, eval_ofVar, eval_ofVar])
    fun w _ hval hw => by rwa [eval_add, hval, eval_ofVar, eval_ofVar] at hw)
    (P := fun w => w q * p.eval w + w r = la.eval w) (Q := fun w => w q * p.eval w + w r = la.eval w)
    (fun _ _ => True.intro) (fun _ hw _ _ => hw) fun _ _ _ hw => hw
  have p₄ := Performs.of_builder p₃.sound hb₆ (.of_emits hrows)
  -- the quotient by the power, and its remainder
  have hpow : ∀ {w : VarId → Fr}, p.eval w = ((2 ^ (k w % reg) : ℕ) : Fr) →
      (p.eval w).val = 2 ^ (k w % reg) ∧ (p.eval w).val ≤ 2 ^ (reg - 1) ∧ (p.eval w).val < 2 ^ reg := by
    intro w hw
    obtain ⟨hval, hle⟩ := val_shiftAmount (k := k w) hreg
    rw [hw, hval]
    exact ⟨rfl, hle, hle.trans_lt (Nat.pow_lt_pow_right (by norm_num) (by omega))⟩
  have hlow : ∀ w, h₁.b.Sat w → (la.eval w).val < 2 ^ max a.intWidth 1 := fun w hw =>
    (ha₁.number.wider (le_max_left _ _)).lt w hw
  have p₁₂ := p₁.seq p₂ (P := P) (Q := fun honest w => p.eval w = ((2 ^ (k w % reg) : ℕ) : Fr) ∧
      (w q).val < 2 ^ max a.intWidth 1 ∧ (w r).val < 2 ^ max a.intWidth 1 ∧
      (honest = true → (w q).val = (la.eval w).val / (p.eval w).val ∧
        (w r).val = (la.eval w).val % (p.eval w).val)) (fun _ hw => hw)
    (fun w _ hw _ _ => ⟨fun hne => absurd rfl hne, (Nat.div_le_self _ _).trans_lt (hlow w hw),
      (Nat.mod_le _ _).trans_lt (hlow w hw)⟩) fun _ w _ hp hhint => ⟨hp, hhint.2⟩
  have hless : ∀ w : VarId → Fr, (w r).val < 2 ^ max a.intWidth 1 → (w r).val < 2 ^ reg := fun w hw =>
    hw.trans_le (Nat.pow_le_pow_right (by norm_num) (max_le ha.fits.width_le (by omega)))
  have p₁₃ := p₁₂.seq p₃ (P := P) (Q := fun honest w => p.eval w = ((2 ^ (k w % reg) : ℕ) : Fr) ∧
      (w q).val < 2 ^ max a.intWidth 1 ∧ (w r).val < (p.eval w).val ∧
      (honest = true → (w q).val = (la.eval w).val / (p.eval w).val ∧
        (w r).val = (la.eval w).val % (p.eval w).val)) (fun _ hw => hw)
    (fun w _ _ _ hw => ?_) fun _ w _ hw hlt => ?_
  · have hall := p₁₃.seq p₄ (P := P) (Q := fun _ w =>
        ((ofVar q).eval w).val = a.value h.wires w / 2 ^ (k w % reg)) (fun _ hw => hw)
      (fun w _ _ _ hw => ?_) fun _ w hsat hw hsum => ?_
    · have hvalue : ∀ w, b₆.Sat w → a.value h.wires w / 2 ^ (k w % reg) < 2 ^ a.intWidth := by
        intro w hw
        have hlt := ha.number.lt w (hall.realizes.mono hw)
        rw [ha.value w (hall.realizes.mono hw)] at hlt
        exact (Nat.div_le_self _ _).trans_lt hlt
      refine hall.intResult hs ⟨below_ofVar.mpr (hqlt.trans_le (hle₄.trans p₄.le)), canonical_ofVar q,
        fun w hw => ?_⟩ hreg (by omega) hop fun _ w hw hval => ?_
      · rw [hall.realizes.emits.post hw]
        exact hvalue w hw
      · rw [hval]
        exact Nat.mod_eq_of_lt ((hvalue w hw).trans_le
          (Nat.pow_le_pow_right (by norm_num) ha.fits.width_le))
    · exact rows_of_div (hw.2.2.2 rfl).1 (hw.2.2.2 rfl).2
    · have hdiv := div_of_rows hw.2.1 (hpow hw.1).2.1 hw.2.2.1 (by omega) hsum
      have hsat₀ := p₁.realizes.mono (p₂.realizes.mono (p₃.realizes.mono (p₄.realizes.mono hsat)))
      rw [eval_ofVar, hdiv.1, (hpow hw.1).1, ha.value w hsat₀]
  · rw [eval_ofVar]
    refine ⟨hless w hw.2.2.1, (hpow hw.1).2.2, ?_⟩
    rw [(hw.2.2.2 rfl).2, (hpow hw.1).1]
    exact Nat.mod_lt _ (Nat.two_pow_pos _)
  · rw [eval_ofVar] at hlt
    exact ⟨hw.1, hw.2.1, hlt (hless w hw.2.2.1) (hpow hw.1).2.2, hw.2.2.2⟩

lemma shiftByWire_spec {left : Bool} (fakeGlv : FakeGlv) (hh : h.Sound) (hs : h.Settled)
    (hreg : reg = 32 ∨ reg = 64) (ha : h.Operand reg a la) (hc : h.Operand reg c lb)
    (hop : shiftByWire lcHash h left reg la a.intWidth lb c.intWidth = .ok (v, h')) :
    Yields fakeGlv h reg P v h' fun w =>
      if left then a.value h.wires w * 2 ^ (c.value h.wires w % reg) % 2 ^ reg
      else a.value h.wires w / 2 ^ (c.value h.wires w % reg) := by
  have hlg : 2 ^ (if reg = 64 then 6 else 5) = reg := by
    rcases hreg with rfl | rfl
    · rfl
    · rfl
  rw [shiftByWire] at hop
  obtain ⟨⟨kb, h₁⟩, hbits, hop⟩ := Succeeding.bind_eq_ok.mp hop
  obtain ⟨⟨p, b₁⟩, hp, hop⟩ := Succeeding.bind_eq_ok.mp hop
  obtain ⟨hpBelow, p₁⟩ :=
    shiftAmount_spec (P := P) fakeGlv hh hreg hlg hc hbits (lift_eq_ok hp)
  cases left with
  | true =>
      obtain ⟨⟨l, b₂⟩, hl, hop⟩ := Succeeding.bind_eq_ok.mp hop
      exact shiftLeft_spec hreg hs ha hpBelow p₁ (lift_eq_ok hl) hop
  | false =>
      obtain ⟨⟨q, b₂⟩, hq, hop⟩ := Succeeding.bind_eq_ok.mp hop
      obtain ⟨⟨r, b₃⟩, hr, hop⟩ := Succeeding.bind_eq_ok.mp hop
      obtain ⟨⟨qb, h₂⟩, hqb, hop⟩ := Succeeding.bind_eq_ok.mp hop
      obtain ⟨⟨rb, h₃⟩, hrb, hop⟩ := Succeeding.bind_eq_ok.mp hop
      obtain ⟨res, hres, hop⟩ := Succeeding.bind_eq_ok.mp hop
      cases res with
      | error message => cases hop
      | ok res =>
          obtain ⟨lt, b₄⟩ := res
          obtain ⟨b₅, hone, hop⟩ := Succeeding.bind_eq_ok.mp hop
          obtain ⟨⟨prod, b₆⟩, hprod, hop⟩ := Succeeding.bind_eq_ok.mp hop
          obtain ⟨b₇, hsum, hop⟩ := Succeeding.bind_eq_ok.mp hop
          exact shiftRightByWire_spec hreg hs ha hpBelow p₁ (lift_eq_ok hq) (lift_eq_ok hr) hqb hrb
            (lift_eq_ok hres) (lift_eq_ok hone) (lift_eq_ok hprod) (lift_eq_ok hsum) hop

/-! ### Bits that are moved -/

/-- The bits of an operand. -/
lemma Operand.bitsOf (fakeGlv : FakeGlv) (hh : h.Sound) (ha : h.Operand reg a la)
    (hn : a.intWidth ≤ n) (hn' : n ≤ 253) (hop : h.bitsOf lcHash la n = .ok (bits, h₁)) :
    (∀ l ∈ bits, l.Below h₁.b.nextVarId) ∧
      Performs fakeGlv h P h₁ fun _ w => AreBits bits n (la.eval w) w := by
  obtain ⟨hbelow, p⟩ := bitsOf_spec fakeGlv hh ha.number.below hn' hop
  exact ⟨hbelow, p.weaken (fun w hw _ => (ha.number.wider hn).lt w hw) fun _ _ _ hw => hw⟩

/-- A value made of bits, in a register. -/
lemma Performs.recomposed {f : (VarId → Fr) → ℕ} (hp : Performs fakeGlv h P h₁ fun _ w =>
      ((recompose bits).eval w).val = f w) (hs : h.Settled) (hbelow : ∀ l ∈ bits, l.Below h₁.b.nextVarId)
    (hreg : reg = 32 ∨ reg = 64) (hn : n ≤ reg) (hf : ∀ w, h.b.Sat w → f w < 2 ^ n)
    (hop : Host.intResult lcHash h₁ (recompose bits) n reg = .ok (v, h')) :
    Yields fakeGlv h reg P v h' f := by
  refine hp.intResult hs ⟨below_recompose hbelow, canonical_recompose _, fun w hw => ?_⟩ hreg
    (by omega) hop fun _ w hw hval => ?_
  · rw [hp.realizes.emits.post hw]
    exact hf w (hp.realizes.mono hw)
  · rw [hval]
    exact Nat.mod_eq_of_lt ((hf w (hp.realizes.mono hw)).trans_le (Nat.pow_le_pow_right (by norm_num) hn))

lemma val_split {s : Fr} {k : ℕ} (hk : k ≤ n) (hbits : AreBits bits n s w) :
    ((recompose (bits.take k)).eval w).val = s.val % 2 ^ k ∧
      ((recompose (bits.drop k)).eval w).val = s.val / 2 ^ k := by
  obtain ⟨hlow, hhigh⟩ := hbits.split hk
  rw [hlow.val_recompose, hhigh.val_recompose]
  exact ⟨ZMod.val_natCast_of_lt ((Nat.mod_le _ _).trans_lt (ZMod.val_lt s)),
    ZMod.val_natCast_of_lt ((Nat.div_le_self _ _).trans_lt (ZMod.val_lt s))⟩

lemma div_lt_two_pow {s k : ℕ} (hs : s < 2 ^ n) (hk : k ≤ n) : s / 2 ^ k < 2 ^ (n - k) := by
  refine Nat.div_lt_of_lt_mul ?_
  rwa [← pow_add, Nat.add_sub_cancel' hk]

/-- **A division by a power of two.** -/
lemma divPow2_spec {div : Bool} {k : ℕ} (fakeGlv : FakeGlv) (hh : h.Sound) (hs : h.Settled)
    (hreg : reg = 32 ∨ reg = 64) (hk : k ≤ 63) (ha : h.Operand reg a la)
    (hop : divPow2 lcHash h div reg k la a.intWidth = .ok (v, h')) :
    Yields fakeGlv h reg P v h' fun w =>
      if div then a.value h.wires w / 2 ^ k else a.value h.wires w % 2 ^ k := by
  have hwa := ha.fits.width_le
  have hlt : ∀ w, h.b.Sat w → a.value h.wires w < 2 ^ a.intWidth := fun w hw => by
    rw [← ha.value w hw]
    exact ha.number.lt w hw
  have hdiv : ∀ w, h.b.Sat w → a.value h.wires w / 2 ^ k < 2 ^ (a.intWidth - k) := by
    intro w hw
    by_cases hle : k ≤ a.intWidth
    · exact div_lt_two_pow (hlt w hw) hle
    · rw [Nat.div_eq_of_lt ((hlt w hw).trans_le
        (Nat.pow_le_pow_right (by norm_num) (not_le.mp hle).le))]
      exact Nat.two_pow_pos _
  have hmod : ∀ w, h.b.Sat w → a.value h.wires w % 2 ^ k < 2 ^ min k a.intWidth := by
    intro w hw
    rcases min_choice k a.intWidth with hmin | hmin
    · rw [hmin]
      exact Nat.mod_lt _ (Nat.two_pow_pos k)
    · rw [hmin]
      exact (Nat.mod_le _ _).trans_lt (hlt w hw)
  rw [divPow2] at hop
  split at hop
  next low high hsplit =>
    obtain ⟨hlow, hhigh, hparts⟩ := hh.splitLc hs ha.number.below hsplit
    obtain ⟨hclow, hchigh⟩ := canonical_splitLc hsplit
    have hp : ∀ {Q : Bool → (VarId → Fr) → Prop}, (∀ w, h.b.Sat w → ∀ honest, Q honest w) →
        Performs fakeGlv h P h Q := fun hQ => .pure hh fun honest w hw => hQ w hw honest
    cases div with
    | true =>
        have hval : ∀ w, h.b.Sat w → (high.eval w).val = a.value h.wires w / 2 ^ k := fun w hw => by
          rw [(hparts w hw).2, ha.value w hw]
        refine (hp (Q := fun _ _ => True) fun _ _ _ => True.intro).intResult hs ⟨hhigh, hchigh,
          fun w hw => hval w hw ▸ hdiv w hw⟩ hreg (by omega) hop fun _ w hw _ => ?_
        rw [hval w hw]
        exact Nat.mod_eq_of_lt ((hdiv w hw).trans_le (Nat.pow_le_pow_right (by norm_num) (by omega)))
    | false =>
        have hval : ∀ w, h.b.Sat w → (low.eval w).val = a.value h.wires w % 2 ^ k := fun w hw => by
          rw [(hparts w hw).1, ha.value w hw]
        refine (hp (Q := fun _ _ => True) fun _ _ _ => True.intro).intResult hs ⟨hlow, hclow,
          fun w hw => hval w hw ▸ hmod w hw⟩ hreg (by omega) hop fun _ w hw _ => ?_
        rw [hval w hw]
        exact Nat.mod_eq_of_lt ((hmod w hw).trans_le (Nat.pow_le_pow_right (by norm_num) (by omega)))
  next =>
    obtain ⟨⟨bits, h₁⟩, hbits, hop⟩ := Succeeding.bind_eq_ok.mp hop
    obtain ⟨hbelow, p⟩ := ha.bitsOf (P := P) fakeGlv hh (le_max_left _ _) (by omega) hbits
    have hvals : ∀ w, h.b.Sat w → AreBits bits (max a.intWidth k) (la.eval w) w →
        ((recompose (bits.take (min k a.intWidth))).eval w).val = a.value h.wires w % 2 ^ k ∧
        ((recompose (bits.drop (min k a.intWidth))).eval w).val = a.value h.wires w / 2 ^ k := by
      intro w hw hareBits
      obtain ⟨hlow, hhigh⟩ := val_split ((min_le_left k a.intWidth).trans (le_max_right _ _)) hareBits
      rw [hlow, hhigh, ha.value w hw]
      rcases le_total k a.intWidth with hle | hle
      · rw [min_eq_left hle]
        exact ⟨rfl, rfl⟩
      · -- all of the number is below the power
        have hall := (hlt w hw).trans_le (Nat.pow_le_pow_right (by norm_num) hle)
        rw [min_eq_right hle, Nat.mod_eq_of_lt (hlt w hw), Nat.mod_eq_of_lt hall,
          Nat.div_eq_of_lt (hlt w hw), Nat.div_eq_of_lt hall]
        exact ⟨rfl, rfl⟩
    cases div with
    | true =>
        exact (p.weaken (fun _ _ hw => hw) fun _ w hw hbits =>
          (hvals w (p.realizes.mono hw) hbits).2).recomposed hs
          (fun l hl => hbelow l (List.mem_of_mem_drop hl)) hreg (by omega) hdiv hop
    | false =>
        exact (p.weaken (fun _ _ hw => hw) fun _ w hw hbits =>
          (hvals w (p.realizes.mono hw) hbits).1).recomposed hs
          (fun l hl => hbelow l (List.mem_of_mem_take hl)) hreg (by omega) hmod hop

/-! ### The operations on words -/

lemma rotated_eq {s j : ℕ} (hj : j ≤ n) (hs : s < 2 ^ n) :
    s <<< (n - j) % 2 ^ n ||| s >>> j = 2 ^ (n - j) * (s % 2 ^ j) + s / 2 ^ j := by
  have hsplit : 2 ^ n = 2 ^ (n - j) * 2 ^ j := by rw [← pow_add, Nat.sub_add_cancel hj]
  rw [Nat.shiftLeft_eq, Nat.shiftRight_eq_div_pow, mul_comm s, hsplit, Nat.mul_mod_mul_left]
  exact (Nat.two_pow_add_eq_or_of_lt (div_lt_two_pow hs hj) _).symm

lemma toNat_rotateLeft {s k : ℕ} (hk : k < reg) (hs : s < 2 ^ reg) :
    ((BitVec.ofNat reg s).rotateLeft k).toNat
      = 2 ^ (reg - (reg - k)) * (s % 2 ^ (reg - k)) + s / 2 ^ (reg - k) := by
  rw [BitVec.toNat_rotateLeft, BitVec.toNat_ofNat, Nat.mod_eq_of_lt hs, Nat.mod_eq_of_lt hk,
    ← rotated_eq (Nat.sub_le reg k) hs, Nat.sub_sub_self hk.le]

lemma toNat_rotateRight {s k : ℕ} (hk : k < reg) (hs : s < 2 ^ reg) :
    ((BitVec.ofNat reg s).rotateRight k).toNat = 2 ^ (reg - k) * (s % 2 ^ k) + s / 2 ^ k := by
  rw [BitVec.toNat_rotateRight, BitVec.toNat_ofNat, Nat.mod_eq_of_lt hs, Nat.mod_eq_of_lt hk,
    Nat.or_comm, rotated_eq hk.le hs]

/-- The quotient of the complement. -/
lemma complement_div {s k : ℕ} (hk : k ≤ n) (hs : s < 2 ^ n) :
    (2 ^ n - 1 - s) / 2 ^ k = 2 ^ (n - k) - 1 - s / 2 ^ k := by
  have hsplit : 2 ^ n = 2 ^ k * 2 ^ (n - k) := by rw [← pow_add, Nat.add_sub_cancel' hk]
  have hr : s % 2 ^ k < 2 ^ k := Nat.mod_lt _ (Nat.two_pow_pos k)
  obtain ⟨t, ht⟩ := Nat.exists_eq_add_of_lt (div_lt_two_pow hs hk)
  have hsum := Nat.div_add_mod s (2 ^ k)
  have hstep : 2 ^ n - 1 - s = 2 ^ k * t + (2 ^ k - 1 - s % 2 ^ k) := by
    have hmul : 2 ^ n = 2 ^ k * (s / 2 ^ k) + 2 ^ k * t + 2 ^ k := by rw [hsplit, ht, mul_add, mul_add, mul_one]
    generalize 2 ^ k * (s / 2 ^ k) = a at *
    generalize 2 ^ k * t = c at *
    omega
  have hlow : 2 ^ k - 1 - s % 2 ^ k < 2 ^ k := (Nat.sub_le _ _).trans_lt (Nat.sub_one_lt_of_lt hr)
  rw [hstep, Nat.mul_add_div (Nat.two_pow_pos k), Nat.div_eq_of_lt hlow, add_zero, ht]
  generalize s / 2 ^ k = a
  omega

/-- A signed shift copies the top bit. -/
lemma toNat_sshiftRight {s k : ℕ} (hk : k < reg) (hs : s < 2 ^ reg) :
    ((BitVec.ofNat reg s).sshiftRight k).toNat
      = s / 2 ^ k + if s.testBit (reg - 1) then 2 ^ reg - 2 ^ (reg - k) else 0 := by
  have hmsb : (BitVec.ofNat reg s).msb = s.testBit (reg - 1) := by
    rw [BitVec.msb_eq_getLsbD_last, BitVec.getLsbD_ofNat, decide_eq_true (by omega), Bool.true_and]
  rw [BitVec.toNat_sshiftRight, hmsb, BitVec.toNat_ofNat, Nat.mod_eq_of_lt hs,
    Nat.shiftRight_eq_div_pow, Nat.shiftRight_eq_div_pow]
  split_ifs
  · have hle : 2 ^ (reg - k) ≤ 2 ^ reg := Nat.pow_le_pow_right (by norm_num) (Nat.sub_le _ _)
    have hq := div_lt_two_pow hs hk.le
    rw [complement_div hk.le hs]
    generalize s / 2 ^ k = q at *
    generalize 2 ^ (reg - k) = m at *
    omega
  · rw [add_zero]

/-- **A rotation.** -/
lemma rotate_spec {left : Bool} {k : ℕ} (fakeGlv : FakeGlv) (hh : h.Sound) (hs : h.Settled)
    (hreg : reg = 32 ∨ reg = 64) (hk : k < reg) (ha : h.Operand reg a la)
    (hop : rotate lcHash h left reg k la = .ok (v, h')) :
    Yields fakeGlv h reg P v h' fun w =>
      (if left then (BitVec.ofNat reg (a.value h.wires w)).rotateLeft k
        else (BitVec.ofNat reg (a.value h.wires w)).rotateRight k).toNat := by
  obtain ⟨⟨bits, h₁⟩, hbits, hop⟩ := Succeeding.bind_eq_ok.mp hop
  obtain ⟨hbelow, p⟩ := ha.bitsOf (P := P) fakeGlv hh ha.fits.width_le (by omega) hbits
  have hmoved : ∀ {j : ℕ}, j ≤ reg → ∀ w, h.b.Sat w → AreBits bits reg (la.eval w) w →
      ((recompose (bits.drop j ++ bits.take j)).eval w).val
        = 2 ^ (reg - j) * (a.value h.wires w % 2 ^ j) + a.value h.wires w / 2 ^ j := by
    intro j hj w hw hareBits
    obtain ⟨hlow, hhigh⟩ := hareBits.split hj
    have hsum := hhigh.append (by omega) hlow
    have hlt := hsum.1
    rw [hsum.val_recompose, ZMod.val_natCast_of_lt, ZMod.val_natCast_of_lt, ZMod.val_natCast_of_lt,
      ha.value w hw]
    · exact (Nat.div_le_self _ _).trans_lt (ZMod.val_lt _)
    · exact (Nat.mod_le _ _).trans_lt (ZMod.val_lt _)
    · have hlow' := hlow.1
      have hhigh' := hhigh.1
      have hstep : 2 ^ (reg - j) * ((((la.eval w).val % 2 ^ j : ℕ) : Fr).val + 1) ≤ 2 ^ (reg - j) * 2 ^ j :=
        Nat.mul_le_mul_left _ hlow'
      rw [← pow_add, Nat.sub_add_cancel hj, Nat.mul_succ] at hstep
      have hpow : 2 ^ reg ≤ rModulus := two_pow_le (by omega)
      omega
  have hlt : ∀ w, h.b.Sat w → a.value h.wires w < 2 ^ reg := fun w hw => by
    rw [← ha.value w hw]
    exact (ha.number.wider ha.fits.width_le).lt w hw
  have hmem : ∀ {j : ℕ}, ∀ l ∈ bits.drop j ++ bits.take j, l.Below h₁.b.nextVarId := by
    intro j l hl
    rcases List.mem_append.mp hl with hl | hl
    · exact hbelow l (List.mem_of_mem_drop hl)
    · exact hbelow l (List.mem_of_mem_take hl)
  cases left with
  | true =>
      refine (p.weaken (fun _ _ hw => hw) fun _ w hw hbits => ?_).recomposed hs
        hmem hreg le_rfl (fun w _ => BitVec.isLt _) hop
      have hsat := p.realizes.mono hw
      rw [if_pos rfl, toNat_rotateLeft hk (hlt w hsat)]
      exact hmoved (Nat.sub_le reg k) w hsat hbits
  | false =>
      refine (p.weaken (fun _ _ hw => hw) fun _ w hw hbits => ?_).recomposed hs
        hmem hreg le_rfl (fun w _ => BitVec.isLt _) hop
      have hsat := p.realizes.mono hw
      rw [if_neg Bool.false_ne_true, toNat_rotateRight hk (hlt w hsat)]
      exact hmoved hk.le w hsat hbits

/-- The value of a shift to the right: with a sign, the top bit is copied. -/
def shiftedRight (signed : Bool) (reg k s : ℕ) : ℕ :=
  s / 2 ^ k + if signed && s.testBit (reg - 1) then 2 ^ reg - 2 ^ (reg - k) else 0

/-- **A shift to the right by a constant.** -/
lemma shiftRight_spec {signed : Bool} {k : ℕ} (fakeGlv : FakeGlv) (hh : h.Sound) (hs : h.Settled)
    (hreg : reg = 32 ∨ reg = 64) (hk : k < reg) (ha : h.Operand reg a la)
    (hop : shiftRight lcHash h signed reg k la a.intWidth = .ok (v, h')) :
    Yields fakeGlv h reg P v h' fun w => shiftedRight signed reg k (a.value h.wires w) := by
  have hwa := ha.fits.width_le
  have hlt : ∀ w, h.b.Sat w → a.value h.wires w < 2 ^ a.intWidth := fun w hw => by
    rw [← ha.value w hw]
    exact ha.number.lt w hw
  rw [shiftRight] at hop
  by_cases hsigned : (signed && decide (reg ≤ a.intWidth)) = true
  · rw [if_pos hsigned] at hop
    rw [Bool.and_eq_true, decide_eq_true_eq] at hsigned
    obtain ⟨rfl, hle⟩ := hsigned
    obtain ⟨⟨bits, h₁⟩, hbits, hop⟩ := Succeeding.bind_eq_ok.mp hop
    obtain ⟨top, htop, hop⟩ := Succeeding.bind_eq_ok.mp hop
    have htop := orPanic_eq_ok (lift_eq_ok htop)
    obtain ⟨hbelow, p⟩ := ha.bitsOf (P := P) fakeGlv hh hwa (by omega) hbits
    have hvalue : ∀ w, h.b.Sat w → AreBits bits reg (la.eval w) w →
        ((recompose (bits.drop k) + top.scale (2 ^ reg - 2 ^ (reg - k))).eval w).val
          = shiftedRight true reg k (a.value h.wires w) ∧
        shiftedRight true reg k (a.value h.wires w) < 2 ^ reg := by
      intro w hw hareBits
      have hs' := (hlt w hw).trans_le (Nat.pow_le_pow_right (by norm_num) hwa)
      have htopval := hareBits.eval_getElem? (by omega) htop
      have hshift := toNat_sshiftRight hk hs'
      have hbound : shiftedRight true reg k (a.value h.wires w) < 2 ^ reg := by
        rw [shiftedRight, Bool.true_and, ← hshift]
        exact BitVec.isLt _
      refine ⟨?_, hbound⟩
      have hcast : (recompose (bits.drop k) + top.scale (2 ^ reg - 2 ^ (reg - k))).eval w
          = ((shiftedRight true reg k (a.value h.wires w) : ℕ) : Fr) := by
        have hle : 2 ^ (reg - k) ≤ 2 ^ reg := Nat.pow_le_pow_right (by norm_num) (Nat.sub_le _ _)
        rw [eval_add, eval_scale, recompose_of_areBits (hareBits.split hk.le).2, htopval, ha.value w hw,
          shiftedRight, Bits.bitOf, Bool.true_and]
        split_ifs
        · rw [Nat.cast_add, Nat.cast_sub hle]
          push_cast
          ring
        · rw [zero_mul, Nat.cast_add, Nat.cast_zero]
      rw [hcast, ZMod.val_natCast_of_lt]
      exact hbound.trans_le (two_pow_le (by omega))
    refine p.intResult hs ⟨(below_recompose fun l hl => hbelow l (List.mem_of_mem_drop hl)).add
      ((hbelow top (List.mem_of_getElem? htop)).scale _), canonical_add _ _, fun w hw => ?_⟩ hreg
      (by omega) hop fun _ w hw hareBits => ?_
    · obtain ⟨hval, hbound⟩ := hvalue w (p.realizes.mono hw) (p.realizes.emits.post hw)
      rw [hval]
      exact hbound
    · obtain ⟨hval, hbound⟩ := hvalue w (p.realizes.mono hw) hareBits
      rw [hval]
      exact Nat.mod_eq_of_lt hbound
  rw [if_neg hsigned] at hop
  -- there is no sign
  have hplain : ∀ w, h.b.Sat w → shiftedRight signed reg k (a.value h.wires w)
      = a.value h.wires w / 2 ^ k := by
    intro w hw
    cases signed with
    | false => rfl
    | true =>
        rw [Bool.true_and, decide_eq_true_eq, not_le] at hsigned
        rw [shiftedRight, Nat.testBit_lt_two_pow ((hlt w hw).trans_le
          (Nat.pow_le_pow_right (by norm_num) (by omega)))]
        rfl
  by_cases hall : a.intWidth ≤ k
  · rw [if_pos hall] at hop
    obtain ⟨rfl, rfl⟩ := Prod.mk.inj (Except.ok.inj hop)
    refine .pure hh (Nat.two_pow_pos reg) fun w hw => ?_
    rw [hplain w hw, Nat.div_eq_of_lt ((hlt w hw).trans_le (Nat.pow_le_pow_right (by norm_num) hall))]
    rfl
  rw [if_neg hall] at hop
  have hdiv : ∀ w, h.b.Sat w →
      shiftedRight signed reg k (a.value h.wires w) < 2 ^ (a.intWidth - k) := by
    intro w hw
    rw [hplain w hw]
    exact div_lt_two_pow (hlt w hw) (not_le.mp hall).le
  split at hop
  next low high hsplit =>
    obtain ⟨-, hhigh, hparts⟩ := hh.splitLc hs ha.number.below hsplit
    have hval : ∀ w, h.b.Sat w →
        (high.eval w).val = shiftedRight signed reg k (a.value h.wires w) := fun w hw => by
      rw [(hparts w hw).2, ha.value w hw, hplain w hw]
    refine Performs.intResult (Q := fun _ _ => True) (.pure hh fun _ _ _ => True.intro) hs
      ⟨hhigh, (canonical_splitLc hsplit).2, fun w hw => hval w hw ▸ hdiv w hw⟩ hreg (by omega) hop
      fun _ w hw _ => ?_
    rw [hval w hw]
    exact Nat.mod_eq_of_lt ((hdiv w hw).trans_le (Nat.pow_le_pow_right (by norm_num) (by omega)))
  next =>
    obtain ⟨⟨bits, h₁⟩, hbits, hop⟩ := Succeeding.bind_eq_ok.mp hop
    obtain ⟨hbelow, p⟩ := ha.bitsOf (P := P) fakeGlv hh le_rfl (by omega) hbits
    refine (p.weaken (fun _ _ hw => hw) fun _ w hw hbits => ?_).recomposed hs
      (fun l hl => hbelow l (List.mem_of_mem_drop hl)) hreg (by omega) hdiv hop
    rw [(val_split (not_le.mp hall).le hbits).2, hplain w (p.realizes.mono hw),
      ha.value w (p.realizes.mono hw)]

end Host

end Frontend

end XarkCircuit
