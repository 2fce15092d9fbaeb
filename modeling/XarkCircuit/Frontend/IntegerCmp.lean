import XarkCircuit.Frontend.IntegerBin

/-!
A comparison of integers is that of the concrete interpreter.

* `signFlip_spec`: the order of signed numbers is that of the flipped ones.
* `intCmp_spec`: a comparison, and what it remembers. `requireCond_spec`: a condition that is required,
  and the bound that it proves.
* The other operations: `intTrunc_spec`, `signExtend_spec`, `intNot_spec` and `boolOp_spec`.
-/

namespace XarkCircuit

namespace Frontend

open LinearCombination Emission
open Verifier (rModulus)

namespace Host

variable {h h₁ h' : Host} {b b' : Builder} {fakeGlv : FakeGlv} {lcHash : LinearCombination → ℕ}
  {x y l la lb out : LinearCombination} {bits : List LinearCombination} {reg n : ℕ} {v a c : IntVal}
  {o : Cmp} {w : VarId → Fr} {P : (VarId → Fr) → Prop}

/-! ### Orders -/

/-- A constant combination is the number itself. -/
def Plain (l : LinearCombination) : Prop :=
  l.isConstant = true → 0 ≤ l.constant ∧ l.constant < rModulus

/-- The order of numbers. -/
def natCmp (o : Cmp) (s t : ℕ) : Bool :=
  match o with
  | .eq => s = t
  | .ne => s ≠ t
  | .ltU | .ltS => s < t
  | .gtU | .gtS => t < s
  | .leU | .leS => s ≤ t
  | .geU | .geS => t ≤ s

/-- The number with its sign flipped. -/
def flipped (reg s : ℕ) : ℕ := (s + 2 ^ (reg - 1)) % 2 ^ reg

/-- The interpreter compares unsigned numbers. -/
lemma concreteCmp_unsigned {s t : ℕ} (ho : isSigned o = false) (hs : s < 2 ^ reg) (ht : t < 2 ^ reg) :
    concreteCmp o (BitVec.ofNat reg s) (BitVec.ofNat reg t) = natCmp o s t := by
  have hsn : (BitVec.ofNat reg s).toNat = s := BitVec.toNat_ofNat s reg ▸ Nat.mod_eq_of_lt hs
  have htn : (BitVec.ofNat reg t).toNat = t := BitVec.toNat_ofNat t reg ▸ Nat.mod_eq_of_lt ht
  have heq : (BitVec.ofNat reg s == BitVec.ofNat reg t) = decide (s = t) := by
    rw [beq_eq_decide, decide_eq_decide, ← BitVec.toNat_inj, hsn, htn]
  cases o with
  | eq => rw [concreteCmp, natCmp, heq]
  | ne => rw [concreteCmp, natCmp, bne, heq, decide_not]
  | ltU => rw [concreteCmp, BitVec.ult, hsn, htn, natCmp]
  | gtU => rw [concreteCmp, BitVec.ult, hsn, htn, natCmp]
  | leU => rw [concreteCmp, BitVec.ule, hsn, htn, natCmp]
  | geU => rw [concreteCmp, BitVec.ule, hsn, htn, natCmp]
  | ltS => cases ho
  | gtS => cases ho
  | leS => cases ho
  | geS => cases ho

/-- The interpreter compares signed numbers as the flipped ones. -/
lemma concreteCmp_signed {s t : ℕ} (ho : isSigned o = true) (hreg : 0 < reg) (hs : s < 2 ^ reg)
    (ht : t < 2 ^ reg) : concreteCmp o (BitVec.ofNat reg s) (BitVec.ofNat reg t)
      = natCmp o (flipped reg s) (flipped reg t) := by
  have hhalf : 2 ^ reg = 2 * 2 ^ (reg - 1) := by rw [← pow_succ', Nat.sub_add_cancel hreg]
  have hint : ∀ {z : ℕ}, z < 2 ^ reg →
      (BitVec.ofNat reg z).toInt = (flipped reg z : ℤ) - (2 ^ (reg - 1) : ℕ) := by
    intro z hz
    rw [BitVec.toInt_eq_toNat_cond, BitVec.toNat_ofNat, Nat.mod_eq_of_lt hz, flipped]
    rw [hhalf] at hz ⊢
    generalize 2 ^ (reg - 1) = m at *
    split_ifs with hlow
    · rw [Nat.mod_eq_of_lt (by omega)]
      omega
    · rw [Nat.mod_eq_sub_mod (by omega), Nat.mod_eq_of_lt (by omega)]
      omega
  have hs' := hint hs
  have ht' := hint ht
  cases o with
  | ltS => simp [concreteCmp, natCmp, BitVec.slt, hs', ht']
  | gtS => simp [concreteCmp, natCmp, BitVec.slt, hs', ht']
  | leS => simp [concreteCmp, natCmp, BitVec.sle, hs', ht']
  | geS => simp [concreteCmp, natCmp, BitVec.sle, hs', ht']
  | eq => cases ho
  | ne => cases ho
  | ltU => cases ho
  | gtU => cases ho
  | leU => cases ho
  | geU => cases ho

/-- Numbers without a sign keep their order. -/
lemma natCmp_flipped {s t : ℕ} (hs : s < 2 ^ (reg - 1)) (ht : t < 2 ^ (reg - 1)) (hreg : 0 < reg) :
    natCmp o (flipped reg s) (flipped reg t) = natCmp o s t := by
  have hhalf : 2 ^ reg = 2 * 2 ^ (reg - 1) := by rw [← pow_succ', Nat.sub_add_cancel hreg]
  have hflip : ∀ {z : ℕ}, z < 2 ^ (reg - 1) → flipped reg z = z + 2 ^ (reg - 1) := fun hz => by
    rw [flipped, Nat.mod_eq_of_lt (by omega)]
  rw [hflip hs, hflip ht]
  cases o <;> simp [natCmp]

/-! ### Comparisons -/

/-- `x < y` of `n` bits. -/
lemma lessThan_spec (fakeGlv : FakeGlv) (hh : h.Sound) (hx : h.Number x n) (hy : h.Number y n)
    (hop : lessThan lcHash h n x y = .ok (l, h')) :
    l.Below h'.b.nextVarId ∧ Canonical l.terms ∧ Performs fakeGlv h P h' fun _ w =>
      l.eval w = if (x.eval w).val < (y.eval w).val then 1 else 0 := by
  obtain ⟨res, hres, hop⟩ := Succeeding.bind_eq_ok.mp hop
  cases res with
  | error message => cases hop
  | ok res =>
      obtain ⟨lt, b'⟩ := res
      obtain ⟨rfl, rfl⟩ := Prod.mk.inj (Except.ok.inj hop)
      have hres := lift_eq_ok hres
      obtain ⟨hb', hlt, he⟩ := Builder.emitLessThanGated_spec hh.builder hx.below hy.below
        (fun g hg => absurd hg (Option.not_mem_none g)) hres fakeGlv
      refine ⟨hlt, Builder.canonical_emitLessThanGated hres, .of_builder hh hb'
        (.of_emits (he.weaken (fun w hw _ => ?_) fun w hw hval => ?_))⟩
      · exact ⟨.inr rfl, fun _ => ⟨hx.lt w hw, hy.lt w hw⟩⟩
      · have hsat := he.mono hw
        exact hval.2.1 rfl (hx.lt w hsat) (hy.lt w hsat)

lemma val_two_pow {k : ℕ} (hk : k ≤ 252) (w : VarId → Fr) : ((ofConst (2 ^ k)).eval w).val = 2 ^ k := by
  have hcast : (((2 : ℤ) ^ k : ℤ) : Fr) = ((2 ^ k : ℕ) : Fr) := by
    push_cast
    rfl
  rw [eval_ofConst, hcast, ZMod.val_natCast_of_lt]
  exact (Nat.pow_lt_pow_right (by norm_num) (Nat.lt_succ_of_le hk)).trans_le (two_pow_le le_rfl)

lemma Number.two_pow {k : ℕ} (hk : k < n) (hn : n ≤ 253) : h.Number (ofConst (2 ^ k)) n :=
  ⟨Below.ofConst _, canonical_nil, fun w _ => by
    rw [val_two_pow (by omega)]
    exact Nat.pow_lt_pow_right (by norm_num) hk⟩

lemma bitOf_top {s : ℕ} (hreg : 0 < reg) (hs : s < 2 ^ reg) :
    (Bits.bitOf s (reg - 1) : Fr) = if s < 2 ^ (reg - 1) then 0 else 1 := by
  rw [Bits.bitOf]
  split_ifs with hbit hlow hlow
  · exact absurd hbit (Bool.eq_false_iff.mp (Nat.testBit_lt_two_pow hlow))
  · rfl
  · rfl
  · refine absurd ?_ hbit
    exact Nat.testBit_of_two_pow_le_and_two_pow_add_one_gt (not_lt.mp hlow)
      (by rwa [Nat.sub_add_cancel hreg])

/-- **The order of signed numbers** is that of the flipped ones. -/
lemma signFlip_spec (fakeGlv : FakeGlv) (hh : h.Sound) (hreg : reg = 32 ∨ reg = 64)
    (hx : h.Number x reg) (hplain : Plain x) (hop : signFlip lcHash h x reg = .ok (l, h')) :
    h'.Number l reg ∧ Performs fakeGlv h P h' fun _ w => (l.eval w).val = flipped reg (x.eval w).val := by
  have hflip : ∀ z, flipped reg z < 2 ^ reg := fun z => Nat.mod_lt _ (Nat.two_pow_pos reg)
  have hnumber : ∀ {h₁ : Host}, l.Below h₁.b.nextVarId → Canonical l.terms →
      Performs fakeGlv h P h₁ (fun _ w => (l.eval w).val = flipped reg (x.eval w).val) →
      h₁.Number l reg ∧ Performs fakeGlv h P h₁ fun _ w => (l.eval w).val = flipped reg (x.eval w).val :=
    fun hbelow hcanon hp => ⟨⟨hbelow, hcanon, fun w hw => by
      rw [hp.realizes.emits.post hw]
      exact hflip _⟩, hp⟩
  -- the top bit is taken off
  have hvalue : ∀ {w : VarId → Fr} {top : Fr}, h.b.Sat w →
      top = (if (x.eval w).val < 2 ^ (reg - 1) then 0 else 1) →
      (x.eval w + 2 ^ (reg - 1) - top * 2 ^ reg).val = flipped reg (x.eval w).val := by
    intro w top hw htop
    have hlt := hx.lt w hw
    have hhalf : 2 ^ reg = 2 * 2 ^ (reg - 1) := by rw [← pow_succ', Nat.sub_add_cancel (by omega)]
    have hcast : x.eval w + 2 ^ (reg - 1) - top * 2 ^ reg = ((flipped reg (x.eval w).val : ℕ) : Fr) := by
      rw [htop, flipped]
      split_ifs with hlow
      · rw [Nat.mod_eq_of_lt (by omega), zero_mul, sub_zero]
        push_cast
        rw [ZMod.natCast_zmod_val]
      · rw [Nat.mod_eq_sub_mod (by omega), Nat.mod_eq_of_lt (by omega), Nat.cast_sub (by omega)]
        push_cast
        rw [ZMod.natCast_zmod_val, one_mul]
    rw [hcast, ZMod.val_natCast_of_lt ((hflip _).trans_le (two_pow_le (by omega)))]
  dsimp only [signFlip] at hop
  by_cases hconst : x.isConstant = true
  · rw [if_pos hconst] at hop
    obtain ⟨rfl, rfl⟩ := Prod.mk.inj (Except.ok.inj hop)
    refine hnumber (Below.ofConst _) canonical_nil (.pure hh fun _ w hw => ?_)
    obtain ⟨hnonneg, hlt⟩ := hplain hconst
    obtain ⟨s, hs⟩ := Int.eq_ofNat_of_zero_le hnonneg
    have hval : (x.eval w).val = s := by
      have hlt : (s : ℤ) < rModulus := hs ▸ hlt
      rw [eval_of_isConstant hconst, hs, Int.cast_natCast, ZMod.val_natCast_of_lt (by omega)]
    have hcast : (x.constant + 2 ^ (reg - 1)).tmod (2 ^ reg) = ((flipped reg s : ℕ) : ℤ) := by
      rw [hs, Int.tmod_eq_emod_of_nonneg (by positivity), flipped]
      push_cast
      rfl
    rw [eval_ofConst, hval, hcast, Int.cast_natCast,
      ZMod.val_natCast_of_lt ((hflip s).trans_le (two_pow_le (by omega)))]
  rw [if_neg hconst] at hop
  cases hknown : h.knownBits x reg with
  | some bits =>
      simp only [hknown] at hop
      obtain ⟨top, htop, hop⟩ := Succeeding.bind_eq_ok.mp hop
      obtain ⟨rfl, rfl⟩ := Prod.mk.inj (Except.ok.inj hop)
      have htop := orPanic_eq_ok (lift_eq_ok htop)
      obtain ⟨hbelow, hbits⟩ := hh.knownBits hx.below (by omega) hknown
      refine hnumber ((hx.below.add (Below.ofConst _)).sub ((hbelow top (List.mem_of_getElem? htop)).scale _))
        (canonical_sub _ _) (.pure hh fun _ w hw => ?_)
      rw [eval_sub, eval_add, eval_scale, eval_ofConst, ← hvalue hw rfl,
        (hbits w hw).eval_getElem? (by omega) htop, bitOf_top (by omega) (hx.lt w hw)]
      push_cast
      rfl
  | none =>
      simp only [hknown] at hop
      obtain ⟨⟨lt, h₁⟩, hlt, hop⟩ := Succeeding.bind_eq_ok.mp hop
      obtain ⟨rfl, rfl⟩ := Prod.mk.inj (Except.ok.inj hop)
      obtain ⟨hbelow, -, p⟩ := lessThan_spec (P := P) fakeGlv hh hx (.two_pow (by omega) (by omega)) hlt
      refine hnumber (((hx.below.mono p.le).add (Below.ofConst _)).sub ((Below.one.sub hbelow).scale _))
        (canonical_sub _ _) (p.weaken (fun _ _ hw => hw) fun _ w hw hval => ?_)
      rw [eval_sub, eval_add, eval_scale, eval_sub, eval_one, eval_ofConst,
        ← hvalue (p.realizes.mono hw) rfl, hval, val_two_pow (by omega)]
      split_ifs
      · push_cast
        rw [sub_self]
      · push_cast
        rw [sub_zero]

/-- A comparison of numbers of `n` bits. -/
lemma emitCmp_spec (fakeGlv : FakeGlv) (hh : h.Sound) (hx : h.Number x n) (hy : h.Number y n)
    (hop : emitCmp lcHash h o n x y = .ok (l, h')) :
    l.Below h'.b.nextVarId ∧ Canonical l.terms ∧ Performs fakeGlv h P h' fun _ w =>
      l.eval w = if natCmp o (x.eval w).val (y.eval w).val then 1 else 0 := by
  have hnot : ∀ l : LinearCombination, ∀ w : VarId → Fr, (one - l).eval w = 1 - l.eval w :=
    fun l w => by rw [eval_sub, eval_one]
  have hzero : ∀ {z : LinearCombination} {b' : Builder},
      h.b.emitIsZero lcHash (x - y) = .ok (z, b') → z.Below b'.nextVarId ∧
        Performs fakeGlv h P { h with b := b' } fun _ w =>
          z.eval w = if (x.eval w).val = (y.eval w).val then 1 else 0 := by
    intro z b' hz
    obtain ⟨hb', hbelow, he⟩ := Builder.emitIsZero_spec hh.builder (hx.below.sub hy.below) hz fakeGlv
    refine ⟨hbelow, .of_builder hh hb' (.of_emits (he.weaken (fun _ _ _ => True.intro)
      fun w _ hval => ?_))⟩
    simp only [hval, eval_sub, sub_eq_zero, (ZMod.val_injective rModulus).eq_iff]
  have hlt : ∀ {s t z : LinearCombination} {h₁ : Host}, h.Number s n → h.Number t n →
      lessThan lcHash h n s t = .ok (z, h₁) → (one - z).Below h₁.b.nextVarId ∧
        Canonical (one - z).terms ∧ Performs fakeGlv h P h₁ fun _ w =>
          (one - z).eval w = if (t.eval w).val ≤ (s.eval w).val then 1 else 0 := by
    intro s t z h₁ hs ht hz
    obtain ⟨hbelow, -, p⟩ := lessThan_spec (P := P) fakeGlv hh hs ht hz
    refine ⟨Below.one.sub hbelow, canonical_sub _ _, p.weaken (fun _ _ hw => hw) fun _ w _ hval => ?_⟩
    rw [hnot, hval]
    by_cases hle : (t.eval w).val ≤ (s.eval w).val
    · rw [if_neg (not_lt.mpr hle), if_pos hle, sub_zero]
    · rw [if_pos (not_le.mp hle), if_neg hle, sub_self]
  cases o with
  | eq =>
      obtain ⟨⟨z, b'⟩, hz, hop⟩ := Succeeding.bind_eq_ok.mp hop
      obtain ⟨rfl, rfl⟩ := Prod.mk.inj (Except.ok.inj hop)
      obtain ⟨hbelow, p⟩ := hzero (lift_eq_ok hz)
      refine ⟨hbelow, Builder.canonical_emitIsZero (lift_eq_ok hz), p.weaken (fun _ _ hw => hw)
        fun _ w _ hval => ?_⟩
      simpa only [natCmp, decide_eq_true_eq] using hval
  | ne =>
      obtain ⟨⟨z, b'⟩, hz, hop⟩ := Succeeding.bind_eq_ok.mp hop
      obtain ⟨rfl, rfl⟩ := Prod.mk.inj (Except.ok.inj hop)
      obtain ⟨hbelow, p⟩ := hzero (lift_eq_ok hz)
      refine ⟨Below.one.sub hbelow, canonical_sub _ _, p.weaken (fun _ _ hw => hw) fun _ w _ hval => ?_⟩
      rw [hnot, hval]
      by_cases heq : (x.eval w).val = (y.eval w).val
      · simp [natCmp, heq]
      · simp [natCmp, heq]
  | ltU => simpa only [natCmp, decide_eq_true_eq] using lessThan_spec (P := P) fakeGlv hh hx hy hop
  | ltS => simpa only [natCmp, decide_eq_true_eq] using lessThan_spec (P := P) fakeGlv hh hx hy hop
  | gtU => simpa only [natCmp, decide_eq_true_eq] using lessThan_spec (P := P) fakeGlv hh hy hx hop
  | gtS => simpa only [natCmp, decide_eq_true_eq] using lessThan_spec (P := P) fakeGlv hh hy hx hop
  | leU | leS =>
      obtain ⟨⟨lt, h₁⟩, hz, hop⟩ := Succeeding.bind_eq_ok.mp hop
      obtain ⟨rfl, rfl⟩ := Prod.mk.inj (Except.ok.inj hop)
      simpa only [natCmp, decide_eq_true_eq] using hlt hy hx hz
  | geU | geS =>
      obtain ⟨⟨lt, h₁⟩, hz, hop⟩ := Succeeding.bind_eq_ok.mp hop
      obtain ⟨rfl, rfl⟩ := Prod.mk.inj (Except.ok.inj hop)
      simpa only [natCmp, decide_eq_true_eq] using hlt hx hy hz

/-- What a comparison remembers. -/
lemma Sound.remember (hh : h.Sound) {id : ℕ} (hl : h.wires[id]? = some l)
    (hfact : ∀ w, h.b.Sat w → h.Ranges w → ∀ v, unsignedCmp o (x.eval w).val (y.eval w).val = some v →
      l.eval w = if v then 1 else 0) :
    Sound { h with cmpFacts := Function.update h.cmpFacts id (some (o, x, y)) } where
  builder := hh.builder
  modulus := hh.modulus
  guards := hh.guards
  cache := hh.cache
  cache_open := hh.cache_open
  muxes := hh.muxes
  wires := hh.wires
  canonical := hh.canonical
  widths := hh.widths
  bounds := hh.bounds
  facts := fun id' o' x' y' hid => by
    change Function.update h.cmpFacts id (some (o, x, y)) id' = _ at hid
    by_cases hsame : id' = id
    · rw [hsame, Function.update_self] at hid
      obtain ⟨rfl, rfl, rfl⟩ : o = o' ∧ x = x' ∧ y = y' := by simpa using hid
      exact ⟨l, hsame ▸ hl, hfact⟩
    · rw [Function.update_of_ne hsame] at hid
      exact hh.facts id' o' x' y' hid
  uintInputs := hh.uintInputs
  pendingHi := hh.pendingHi

lemma natCmp_of_unsignedCmp {s t : ℕ} {v : Bool} (hv : unsignedCmp o s t = some v) :
    natCmp o s t = v ∧ isSigned o = false := by
  cases o <;> simp only [unsignedCmp, reduceCtorEq, Option.some.injEq] at hv <;> exact ⟨hv, rfl⟩

/-- The combinations that a comparison compares: in a whole register, those of signed numbers are
flipped. -/
lemma flips_spec {signed : Bool} {p : LinearCombination × LinearCombination × Host} (fakeGlv : FakeGlv)
    (hh : h.Sound) (hreg : reg = 32 ∨ reg = 64) (ha : h.Operand reg a la) (hc : h.Operand reg c lb)
    (hn : n = max (max a.intWidth c.intWidth) 1) (ho : isSigned o = signed)
    (hplain : signed = true → Plain la ∧ Plain lb)
    (hop : flips lcHash h (signed && decide (reg ≤ n)) reg la lb = .ok p) :
    p.2.2.Number p.1 (if signed && decide (reg ≤ n) then reg else n) ∧
      p.2.2.Number p.2.1 (if signed && decide (reg ≤ n) then reg else n) ∧
      Performs fakeGlv h P p.2.2 fun _ w => natCmp o (p.1.eval w).val (p.2.1.eval w).val
        = concreteCmp o (BitVec.ofNat reg (a.value h.wires w)) (BitVec.ofNat reg (c.value h.wires w)) := by
  have hlt : ∀ w, h.b.Sat w → a.value h.wires w < 2 ^ reg ∧ c.value h.wires w < 2 ^ reg := fun w hw => by
    rw [← ha.value w hw, ← hc.value w hw]
    exact ⟨(ha.number.wider ha.fits.width_le).lt w hw, (hc.number.wider hc.fits.width_le).lt w hw⟩
  have hpos : 0 < reg := by omega
  rw [flips] at hop
  by_cases hflip : (signed && decide (reg ≤ n)) = true
  · rw [if_pos hflip] at hop ⊢
    obtain ⟨⟨x, h₁⟩, hx, hop⟩ := Succeeding.bind_eq_ok.mp hop
    obtain ⟨⟨y, h₂⟩, hy, hop⟩ := Succeeding.bind_eq_ok.mp hop
    obtain rfl := Except.ok.inj hop
    obtain rfl : signed = true := (Bool.and_eq_true_iff.mp hflip).1
    obtain ⟨hxn, p₁⟩ := signFlip_spec (P := P) fakeGlv hh hreg (ha.number.wider ha.fits.width_le)
      (hplain rfl).1 hx
    obtain ⟨hyn, p₂⟩ := signFlip_spec (P := P) fakeGlv p₁.sound hreg
      ((hc.number.wider hc.fits.width_le).after p₁) (hplain rfl).2 hy
    refine ⟨hxn.after p₂, hyn, p₁.seq p₂ (fun _ hw => hw) (fun _ hw _ _ _ => hw) fun _ w hw hxv hyv => ?_⟩
    have hsat := p₁.realizes.mono (p₂.realizes.mono hw)
    rw [concreteCmp_signed ho hpos (hlt w hsat).1 (hlt w hsat).2, hxv, hyv, ha.value w hsat,
      hc.value w hsat]
  · rw [if_neg hflip] at hop ⊢
    obtain rfl := Except.ok.inj hop
    refine ⟨ha.number.wider (by omega), hc.number.wider (by omega), .pure hh fun _ w hw => ?_⟩
    rw [ha.value w hw, hc.value w hw]
    cases signed with
    | false => exact (concreteCmp_unsigned ho (hlt w hw).1 (hlt w hw).2).symm
    | true =>
        rw [Bool.true_and, decide_eq_true_eq, not_le] at hflip
        have hsmall : ∀ {s k : ℕ}, s < 2 ^ k → k ≤ n → s < 2 ^ (reg - 1) := fun hs hk =>
          hs.trans_le (Nat.pow_le_pow_right (by norm_num) (by omega))
        have haval := ha.value w hw ▸ ha.number.lt w hw
        have hcval := hc.value w hw ▸ hc.number.lt w hw
        rw [concreteCmp_signed ho hpos (hlt w hw).1 (hlt w hw).2, natCmp_flipped
          (hsmall haval (by omega)) (hsmall hcval (by omega)) hpos]

/-- The operands of a signed comparison that are constant combinations are the numbers themselves. -/
def PlainOperands (lcHash : LinearCombination → ℕ) (h : Host) (a c : IntVal) : Prop :=
  ∀ la h₁ lb h₂, intLc lcHash a h = .ok (la, h₁) → intLc lcHash c h₁ = .ok (lb, h₂) → Plain la ∧ Plain lb

/-- **A comparison of integers** is that of the concrete interpreter. -/
lemma intCmp_spec (fakeGlv : FakeGlv) (hh : h.Sound) (hs : h.Settled) (hreg : reg = 32 ∨ reg = 64)
    (ha : a.Fits h reg) (hc : c.Fits h reg)
    (hplain : isSigned o = true → PlainOperands lcHash h a c)
    (hop : intCmp lcHash h o reg a c = .ok (v, h')) :
    Yields fakeGlv h 1 P v h' fun w =>
      (concreteCmp o (BitVec.ofNat reg (a.value h.wires w)) (BitVec.ofNat reg (c.value h.wires w))).toNat := by
  obtain ⟨⟨la, h₁⟩, hla, hop⟩ := Succeeding.bind_eq_ok.mp hop
  obtain ⟨⟨lb, h₂⟩, hlb, hop⟩ := Succeeding.bind_eq_ok.mp hop
  obtain ⟨oa, p₁⟩ := operand_spec (P := P) fakeGlv hh hs (by omega) ha (lift_eq_ok hla)
  obtain ⟨oc, p₂⟩ := operand_spec (P := P) fakeGlv p₁.sound (p₁.settled hs) (by omega)
    (p₁.fits hc) (lift_eq_ok hlb)
  have hs₂ := p₂.settled (p₁.settled hs)
  replace oa := oa.after p₂
  have hboth : Performs fakeGlv h P h₂ fun _ _ => True :=
    p₁.seq p₂ (fun _ hw => hw) (fun _ hw _ _ _ => hw) fun _ _ _ _ hw => hw
  have hvalues : ∀ w, a.value h₂.wires w = a.value h.wires w ∧ c.value h₂.wires w = c.value h.wires w :=
    fun w => ⟨hboth.value_eq ha w, hboth.value_eq hc w⟩
  have hlt : ∀ w, h₂.b.Sat w → a.value h.wires w < 2 ^ reg ∧ c.value h.wires w < 2 ^ reg := fun w hw => by
    rw [← (hvalues w).1, ← (hvalues w).2]
    exact ⟨oa.fits.value_lt_reg hw (hs₂.ranges w), oc.fits.value_lt_reg hw (hs₂.ranges w)⟩
  cases hdecided : h₂.decidedCmp o la lb with
  | some d =>
      simp only [hdecided] at hop
      obtain ⟨rfl, rfl⟩ := Prod.mk.inj (Except.ok.inj hop)
      refine ⟨?_, hboth.weaken (fun _ _ hw => hw) fun _ w hw _ => ?_⟩
      · cases d
        · exact Nat.two_pow_pos 1
        · exact Nat.one_lt_two_pow one_ne_zero
      · obtain ⟨hval, ho⟩ := natCmp_of_unsignedCmp (p₂.sound.decidedCmp hs₂ hdecided hw)
        rw [oa.value w hw, oc.value w hw, (hvalues w).1, (hvalues w).2] at hval
        rw [concreteCmp_unsigned ho (hlt w hw).1 (hlt w hw).2, hval]
        cases d <;> rfl
  | none =>
      simp only [hdecided] at hop
      obtain ⟨⟨x, y, h₃⟩, hflips, hop⟩ := Succeeding.bind_eq_ok.mp hop
      obtain ⟨⟨l, h₄⟩, hcmp, hop⟩ := Succeeding.bind_eq_ok.mp hop
      obtain ⟨rfl, rfl⟩ := Prod.mk.inj (Except.ok.inj hop)
      obtain ⟨hx, hy, p₃⟩ := flips_spec (P := P) fakeGlv p₂.sound hreg oa oc rfl rfl
        (fun ho => hplain ho _ _ _ _ (lift_eq_ok hla) (lift_eq_ok hlb)) hflips
      obtain ⟨hl, hcanon, p₄⟩ := emitCmp_spec (P := P) fakeGlv p₃.sound hx hy hcmp
      have hcompared := hboth.seq (p₃.seq p₄ (fun _ hw => hw) (fun _ hw _ _ _ => hw)
        (Q := fun _ w => l.eval w = if concreteCmp o (BitVec.ofNat reg (a.value h₂.wires w))
          (BitVec.ofNat reg (c.value h₂.wires w)) then 1 else 0) fun _ w _ hforms hval => by
            rw [hval, hforms]) (fun _ hw => hw) (fun _ hw _ _ _ => hw)
        (Q := fun _ w => l.eval w = if concreteCmp o (BitVec.ofNat reg (a.value h.wires w))
          (BitVec.ofNat reg (c.value h.wires w)) then 1 else 0) fun _ w _ _ hval => by
            rw [hval, (hvalues w).1, (hvalues w).2]
      have hy : Yields fakeGlv h 1 P (h₄.intWire l 1).1 (h₄.intWire l 1).2 fun w =>
          (concreteCmp o (BitVec.ofNat reg (a.value h.wires w))
            (BitVec.ofNat reg (c.value h.wires w))).toNat := by
        refine hcompared.intWire hl hcanon le_rfl (fun _ w _ hval => ?_) fun w _ _ => Bool.toNat_lt _
        rw [hval]
        cases concreteCmp o (BitVec.ofNat reg (a.value h.wires w)) (BitVec.ofNat reg (c.value h.wires w))
        · exact ZMod.val_zero
        · exact ZMod.val_one _
      split_ifs with hremembered
      · have hget : (h₄.newWire l 1).wires[h₄.wires.length]? = some l :=
          (List.getElem?_append_right le_rfl).trans (by rw [Nat.sub_self]; rfl)
        refine ⟨hy.fits, hy.performs.sound.remember hget fun w hw _ d hd => ?_, hy.performs.arms,
          hy.performs.wires, hy.performs.inputs, hy.performs.realizes⟩
        obtain ⟨hval, ho⟩ := natCmp_of_unsignedCmp hd
        have hsat := p₃.realizes.mono (p₄.realizes.mono hw)
        rw [oa.value w hsat, oc.value w hsat, (hvalues w).1, (hvalues w).2] at hval
        rw [hcompared.realizes.emits.post hw, concreteCmp_unsigned ho (hlt w hsat).1 (hlt w hsat).2, hval]
      · exact hy

/-! ### Requirements -/

/-- **The bound that a comparison proves.** -/
lemma learnedBound_spec {value : Bool} {u : VarId} {max : ℤ} (hlearn : learnedBound o value x y = some (u, max))
    (hval : ∀ d, unsignedCmp o (x.eval w).val (y.eval w).val = some d → d = value) :
    ((w u).val : ℤ) ≤ max := by
  have hkonst : ∀ {l : LinearCombination} {m : ℤ},
      (if l.isConstant then (asI64 l.constant).filter (0 ≤ ·) else none) = some m →
        ((l.eval w).val : ℤ) = m := by
    intro l m hm
    split_ifs at hm with hconst
    obtain ⟨hm, hnonneg⟩ := Option.filter_eq_some_iff.mp hm
    obtain ⟨⟨-, hhigh⟩, hval⟩ := asI64_eq_some.mp hm
    obtain ⟨k, hk⟩ := Int.eq_ofNat_of_zero_le (of_decide_eq_true hnonneg)
    have hlt : k < rModulus := by
      have hbig : (2 : ℕ) ^ 63 ≤ rModulus := by norm_num [rModulus]
      rw [hval, hk] at hhigh
      have := Int.ofNat_le.mp hhigh
      omega
    rw [eval_of_isConstant hconst, hval, hk, Int.cast_natCast, ZMod.val_natCast_of_lt hlt]
  have hvar : ∀ {l : LinearCombination} {u : VarId}, Builder.oneVar l = some u → l.eval w = w u :=
    fun hu => by rw [Builder.oneVar_eq_some.mp hu, eval_ofVar]
  dsimp only [learnedBound] at hlearn
  split at hlearn
  next u' m hu hm =>
    have hm := hkonst hm
    rw [hvar hu] at hval
    cases o <;> cases value <;> simp only [reduceCtorEq, Option.some.injEq, Prod.mk.injEq] at hlearn
    all_goals
      obtain ⟨rfl, rfl⟩ := hlearn
      have hval := hval _ rfl
      simp only [decide_eq_true_eq, decide_eq_false_iff_not] at hval
      omega
  next u' m hu hm _ =>
    have hm := hkonst hm
    rw [hvar hu] at hval
    cases o <;> cases value <;> simp only [reduceCtorEq, Option.some.injEq, Prod.mk.injEq] at hlearn
    all_goals
      obtain ⟨rfl, rfl⟩ := hlearn
      have hval := hval _ rfl
      simp only [decide_eq_true_eq, decide_eq_false_iff_not] at hval
      omega
  next => cases hlearn

/-- What a requirement proves is remembered. -/
lemma Sound.learnBound (hh : h.Sound) {id : ℕ} {value : Bool} {z : LinearCombination}
    (hz : h.wires[id]? = some z)
    (hreq : ∀ w, h.b.Sat w → h.Ranges w → z.eval w = if value then 1 else 0) :
    (h.learnBound id value).Sound := by
  rw [Host.learnBound]
  split
  next u max hlearn =>
    obtain ⟨⟨o, x, y⟩, hfact, hlearn⟩ := Option.bind_eq_some_iff.mp hlearn
    obtain ⟨z', hz', hcmp⟩ := hh.facts id o x y hfact
    obtain rfl := Option.some.inj (hz.symm.trans hz')
    split_ifs with hneg
    · exact hh
    · refine { hh with bounds := fun u' m hm w hw hr => ?_ }
      change Function.update h.varMax u _ u' = some m at hm
      by_cases hsame : u' = u
      · subst hsame
        rw [Function.update_self] at hm
        obtain rfl := Option.some.inj hm
        have hle : (w u').val ≤ max.toNat := by
          have hbound := learnedBound_spec hlearn (w := w) fun d hd => by
            have hsame := (hcmp w hw hr d hd).symm.trans (hreq w hw hr)
            cases d <;> cases value <;> simp at hsame <;> rfl
          omega
        refine le_min ?_ hle
        cases hold : h.varMax u' with
        | none => exact hle
        | some m => exact hh.bounds u' m hold w hw hr
      · rw [Function.update_of_ne hsame] at hm
        exact hh.bounds u' m hm w hw hr
  next => exact hh

/-- The value of a condition. -/
def bitValue (value : Bool) : Fr := if value then 1 else 0

/-- **A condition that is required**, where the arm is taken. -/
lemma requireCond_spec {id : ℕ} {value : Bool} {z : LinearCombination} (fakeGlv : FakeGlv) (hh : h.Sound)
    (hz : h.wires[id]? = some z) (hop : h.requireCond lcHash id value = .ok h') :
    Performs fakeGlv h (fun w => h.gate w ≠ 0 → z.eval w = bitValue value) h'
      fun _ w => h.gate w ≠ 0 → z.eval w = bitValue value := by
  obtain ⟨z', hz', hop⟩ := Outcome.bind_eq_ok.mp hop
  obtain rfl := Option.some.inj (hz.symm.trans (orPanic_eq_ok hz'))
  obtain ⟨h₁, hreq, hop⟩ := Outcome.bind_eq_ok.mp hop
  have hwant : (if value then one else zero : LinearCombination).Below h.b.nextVarId := by
    split_ifs
    · exact Below.one
    · exact Below.zero
  have heval : ∀ w : VarId → Fr, (if value then one else zero : LinearCombination).eval w = bitValue value := by
    intro w
    cases value with
    | true => exact eval_one w
    | false => exact eval_zero w
  have p := requireGated_spec fakeGlv hh (hh.wires z (List.mem_of_getElem? hz)) hwant hreq
  simp only [heval] at p
  obtain rfl := Except.ok.inj hop
  split_ifs with hlearn
  · rw [Bool.and_eq_true, List.isEmpty_iff] at hlearn
    have hopen : ∀ w, h.gate w ≠ 0 := fun w => by
      rw [← p.gate_eq, gate, hlearn.1]
      exact one_ne_zero
    have hsound : (h₁.learnBound id value).Sound := p.sound.learnBound
      (IntVal.getElem?_of_prefix p.wires hz) fun w hw _ => p.realizes.emits.post hw (hopen w)
    have hsame : (h₁.learnBound id value).b = h₁.b ∧ (h₁.learnBound id value).guards = h₁.guards ∧
        (h₁.learnBound id value).wires = h₁.wires ∧
        (h₁.learnBound id value).uintInputs = h₁.uintInputs := by
      rw [Host.learnBound]
      split
      · split_ifs <;> exact ⟨rfl, rfl, rfl, rfl⟩
      · exact ⟨rfl, rfl, rfl, rfl⟩
    exact ⟨hsound, hsame.2.1 ▸ p.arms, hsame.2.2.1 ▸ p.wires, hsame.2.2.2 ▸ p.inputs, hsame.1 ▸ p.realizes⟩
  · exact p

/-! ### Other operations -/

/-- **The low bits** of a value, in a register. -/
lemma intTrunc_spec (fakeGlv : FakeGlv) (hh : h.Sound) (hs : h.Settled) {reg' : ℕ} (hreg' : reg' ≤ 128)
    (hv : a.Fits h reg') (hreg : reg = 32 ∨ reg = 64) (hop : intTrunc lcHash h a reg = .ok (v, h')) :
    Yields fakeGlv h reg P v h' fun w => a.value h.wires w % 2 ^ reg := by
  obtain ⟨⟨l, h₁⟩, hl, hop⟩ := Succeeding.bind_eq_ok.mp hop
  obtain ⟨ha, p⟩ := operand_spec (P := P) fakeGlv hh hs hreg' hv (lift_eq_ok hl)
  have hwidth := ha.fits.width_le
  refine (p.weaken (Q := fun _ w => (l.eval w).val = a.value h.wires w) (fun _ _ hw => hw)
    fun _ w hw _ => ?_).intResult hs ha.number hreg (by omega) hop fun _ w _ hval => by rw [hval]
  rw [ha.value w hw, p.value_eq hv]

/-- The negation of a condition. -/
lemma intNot_spec (fakeGlv : FakeGlv) (hh : h.Sound) (hs : h.Settled) (hv : a.Fits h 1)
    (hop : intNot lcHash h a = .ok (v, h')) :
    Yields fakeGlv h 1 P v h' fun w => 1 - a.value h.wires w := by
  have hbool : ∀ w, h.b.Sat w → a.value h.wires w < 2 ^ 1 := fun w hw => hv.value_lt_reg hw (hs.ranges w)
  rw [intNot] at hop
  cases hkonst : a.konst with
  | some s =>
      simp only [hkonst] at hop
      obtain ⟨rfl, rfl⟩ := Prod.mk.inj (Except.ok.inj hop)
      obtain rfl := IntVal.konst_eq_some hkonst
      have hs : s < 2 := hv
      refine .pure hh ?_ fun w _ => ?_
      · split_ifs
        · exact Nat.one_lt_two_pow one_ne_zero
        · exact Nat.two_pow_pos 1
      · change (if s = 0 then 1 else 0) = 1 - s
        split_ifs <;> omega
  | none =>
      simp only [hkonst] at hop
      obtain ⟨⟨l, h₁⟩, hl, hop⟩ := Outcome.bind_eq_ok.mp hop
      obtain ⟨rfl, rfl⟩ := Prod.mk.inj (Except.ok.inj hop)
      obtain ⟨ha, p⟩ := operand_spec (P := P) fakeGlv hh hs (by omega) hv hl
      have hcast : ∀ w, h₁.b.Sat w → ((one - l).eval w).val = 1 - a.value h.wires w := by
        intro w hw
        have hlt := hbool w (p.realizes.mono hw)
        have hle : a.value h.wires w ≤ 1 := by omega
        have hval : (one - l).eval w = ((1 - a.value h.wires w : ℕ) : Fr) := by
          rw [eval_sub, eval_one, ← ZMod.natCast_zmod_val (l.eval w), ha.value w hw, p.value_eq hv,
            Nat.cast_sub hle, Nat.cast_one]
        rw [hval, ZMod.val_natCast_of_lt]
        have hbig : 1 < rModulus := by norm_num [rModulus]
        omega
      refine (p.weaken (Q := fun _ w => ((one - l).eval w).val = 1 - a.value h.wires w) (fun _ _ hw => hw)
        fun _ w hw _ => hcast w hw).intWire (Below.one.sub ha.number.below) (canonical_sub _ _) le_rfl
        (fun _ w _ hval => hval) fun w _ _ => by omega

/-- An operation with a concrete operand. -/
lemma boolFold_spec {op : BoolOp} {s : ℕ} (fakeGlv : FakeGlv) (hh : h.Sound) (hs : h.Settled)
    (hv : a.Fits h 1) (hlt : s < 2 ^ 1) (hop : boolFold lcHash h op a s = .ok (v, h')) :
    Yields fakeGlv h 1 P v h' fun w => natBool op (a.value h.wires w) s := by
  have hbool : ∀ w, h.b.Sat w → a.value h.wires w = 0 ∨ a.value h.wires w = 1 := fun w hw => by
    have := hv.value_lt_reg hw (hs.ranges w)
    omega
  have hsame : (.ok (a, h) : Outcome _) = .ok (v, h') → (∀ z, z = 0 ∨ z = 1 → natBool op z s = z) →
      Yields fakeGlv h 1 P v h' fun w => natBool op (a.value h.wires w) s := by
    intro hok hid
    obtain ⟨rfl, rfl⟩ := Prod.mk.inj (Except.ok.inj hok)
    exact .pure hh hv fun w hw => (hid _ (hbool w hw)).symm
  have hconst : ∀ {z : ℕ}, z < 2 ^ 1 → (.ok (.const z, h) : Outcome _) = .ok (v, h') →
      (∀ z', z' = 0 ∨ z' = 1 → natBool op z' s = z) →
      Yields fakeGlv h 1 P v h' fun w => natBool op (a.value h.wires w) s := by
    intro z hz hok hval
    obtain ⟨rfl, rfl⟩ := Prod.mk.inj (Except.ok.inj hok)
    exact .pure hh hz fun w hw => (hval _ (hbool w hw)).symm
  obtain rfl | rfl : s = 0 ∨ s = 1 := by omega
  · cases op with
    | and => exact hconst (by norm_num) hop (by rintro z (rfl | rfl) <;> rfl)
    | or => exact hsame hop (by rintro z (rfl | rfl) <;> rfl)
    | xor => exact hsame hop (by rintro z (rfl | rfl) <;> rfl)
  · cases op with
    | and => exact hsame hop (by rintro z (rfl | rfl) <;> rfl)
    | or => exact hconst (by norm_num) hop (by rintro z (rfl | rfl) <;> rfl)
    | xor =>
        have hy := intNot_spec (P := P) fakeGlv hh hs hv hop
        refine hy.weaken (fun _ _ hw => hw) fun w hw => ?_
        obtain hz | hz := hbool w (hy.performs.realizes.mono hw) <;> rw [hz] <;> rfl

lemma boolRow_spec {op : BoolOp} (fakeGlv : FakeGlv) (hb : b.Sound) (hx : x.Below b.nextVarId)
    (hy : y.Below b.nextVarId) (hop : boolRow lcHash op x y b = .ok (out, b')) :
    b'.Sound ∧ out.Below b'.nextVarId ∧ Canonical out.terms ∧
      Emission.Emits (Builder.emitter fakeGlv) (fun _ => True) b b'
        fun w => out.eval w = boolValue op (x.eval w) (y.eval w) := by
  cases op with
  | and =>
      obtain ⟨hbc, hnext, ec⟩ := emits_consume₂ fakeGlv hb x y
      obtain ⟨hb', hout, he⟩ := Builder.emitMul_spec hbc (hnext.symm ▸ hx) (hnext.symm ▸ hy) hop fakeGlv
      exact ⟨hb', hout, Builder.canonical_emitMul hop,
        ec.seq he (fun _ hw => hw) (fun _ hw _ _ => hw) fun _ _ _ hw => hw⟩
  | or =>
      obtain ⟨hb', hout, he⟩ := Builder.emitOr_spec hb hx hy hop fakeGlv
      refine ⟨hb', hout, ?_, he⟩
      obtain ⟨⟨z, b₁⟩, -, hop⟩ := Outcome.bind_eq_ok.mp hop
      obtain ⟨rfl, -⟩ := Prod.mk.inj (Except.ok.inj hop)
      exact canonical_ofVar z
  | xor =>
      obtain ⟨hb', hout, he⟩ := Builder.emitXor_spec hb hx hy hop fakeGlv
      refine ⟨hb', hout, ?_, he⟩
      obtain ⟨⟨z, b₁⟩, -, hop⟩ := Outcome.bind_eq_ok.mp hop
      obtain ⟨rfl, -⟩ := Prod.mk.inj (Except.ok.inj hop)
      exact canonical_ofVar z

lemma val_boolValue {op : BoolOp} {s t : ℕ} (hs : s < 2 ^ 1) (ht : t < 2 ^ 1) :
    (boolValue op (s : Fr) (t : Fr)).val = natBool op s t := by
  have hbit : ∀ {z : ℕ}, z < 2 ^ 1 → (z : Fr) = Bits.bitOf z 0 := by
    intro z hz
    obtain rfl | rfl : z = 0 ∨ z = 1 := by omega
    · rfl
    · exact Nat.cast_one
  have hlt := natBool_lt op hs ht
  rw [hbit hs, hbit ht, boolValue_bitOf, ← hbit hlt, ZMod.val_natCast_of_lt]
  exact hlt.trans (by norm_num [rModulus])

/-- **An operation on conditions.** -/
lemma boolOp_spec {op : BoolOp} (fakeGlv : FakeGlv) (hh : h.Sound) (hs : h.Settled)
    (ha : a.Fits h 1) (hc : c.Fits h 1) (hop : boolOp lcHash h op a c = .ok (v, h')) :
    Yields fakeGlv h 1 P v h' fun w => natBool op (a.value h.wires w) (c.value h.wires w) := by
  rw [boolOp] at hop
  cases hkc : c.konst with
  | some s =>
      simp only [hkc] at hop
      obtain rfl := IntVal.konst_eq_some hkc
      exact boolFold_spec fakeGlv hh hs ha hc hop
  | none =>
  cases hka : a.konst with
  | some s =>
      simp only [hkc, hka] at hop
      obtain rfl := IntVal.konst_eq_some hka
      refine (boolFold_spec fakeGlv hh hs hc ha hop).weaken (fun _ _ hw => hw) fun w _ => ?_
      cases op with
      | and => exact Nat.and_comm _ _
      | or => exact Nat.or_comm _ _
      | xor => exact Nat.xor_comm _ _
  | none =>
      simp only [hkc, hka] at hop
      obtain ⟨⟨la, h₁⟩, hla, hop⟩ := Outcome.bind_eq_ok.mp hop
      obtain ⟨⟨lb, h₂⟩, hlb, hop⟩ := Outcome.bind_eq_ok.mp hop
      obtain ⟨⟨out, bu⟩, hout, hop⟩ := Outcome.bind_eq_ok.mp hop
      obtain ⟨rfl, rfl⟩ := Prod.mk.inj (Except.ok.inj hop)
      obtain ⟨oa, p₁⟩ := operand_spec (P := P) fakeGlv hh hs (by omega) ha hla
      obtain ⟨oc, p₂⟩ := operand_spec (P := P) fakeGlv p₁.sound (p₁.settled hs) (by omega) (p₁.fits hc) hlb
      replace oa := oa.after p₂
      obtain ⟨hb', hbelow, hcanon, he⟩ := boolRow_spec fakeGlv p₂.sound.builder oa.number.below
        oc.number.below hout
      have p₃ := Performs.of_builder p₂.sound hb' (.of_emits he)
      have hbits : ∀ w, h₂.b.Sat w → (out.eval w = boolValue op (la.eval w) (lb.eval w)) →
          (out.eval w).val = natBool op (a.value h.wires w) (c.value h.wires w) := by
        intro w hw hval
        have hsat := p₁.realizes.mono (p₂.realizes.mono hw)
        have hva : a.value h₂.wires w = a.value h.wires w := by
          rw [p₂.value_eq (p₁.fits ha), p₁.value_eq ha]
        have hvc : c.value h₂.wires w = c.value h.wires w := by
          rw [p₂.value_eq (p₁.fits hc), p₁.value_eq hc]
        rw [hval, ← ZMod.natCast_zmod_val (la.eval w), ← ZMod.natCast_zmod_val (lb.eval w), oa.value w hw,
          oc.value w hw, hva, hvc]
        exact val_boolValue (ha.value_lt_reg hsat (hs.ranges w)) (hc.value_lt_reg hsat (hs.ranges w))
      refine ((p₁.seq p₂ (fun _ hw => hw) (fun _ hw _ _ _ => hw) (Q := fun _ _ => True)
        fun _ _ _ _ hw => hw).seq p₃ (fun _ hw => hw) (fun _ _ _ _ _ => True.intro)
        (Q := fun _ w => (out.eval w).val = natBool op (a.value h.wires w) (c.value h.wires w))
        fun _ w hw _ hval => hbits w (p₃.realizes.mono hw) hval).intWire hbelow hcanon le_rfl
        (fun _ w _ hval => hval) fun w hw _ => ?_
      have hsat := p₁.realizes.mono (p₂.realizes.mono (p₃.realizes.mono hw))
      exact natBool_lt op (ha.value_lt_reg hsat (hs.ranges w)) (hc.value_lt_reg hsat (hs.ranges w))

/-- **The sign of a value is extended.** -/
lemma signExtend_spec {width : ℕ} (fakeGlv : FakeGlv) (hh : h.Sound) (hs : h.Settled)
    (hreg : reg = 32 ∨ reg = 64) (hpos : 0 < width) (hwidth : width ≤ reg) (hv : a.Fits h width)
    (hop : signExtend lcHash h a width reg = .ok (v, h')) :
    Yields fakeGlv h reg P v h' fun w =>
      ((BitVec.ofNat width (a.value h.wires w)).signExtend reg).toNat := by
  obtain ⟨⟨l, h₁⟩, hl, hop⟩ := Succeeding.bind_eq_ok.mp hop
  obtain ⟨⟨lt, h₂⟩, hlt, hop⟩ := Succeeding.bind_eq_ok.mp hop
  obtain ⟨rfl, rfl⟩ := Prod.mk.inj (Except.ok.inj hop)
  obtain ⟨oa, p₁⟩ := operand_spec (P := P) fakeGlv hh hs (by omega) hv (lift_eq_ok hl)
  have hnumber := oa.number.wider oa.fits.width_le
  obtain ⟨hbelow, -, p₂⟩ := lessThan_spec (P := P) fakeGlv p₁.sound hnumber
    (.two_pow (by omega) (by omega)) hlt
  have hle : 2 ^ width ≤ 2 ^ reg := Nat.pow_le_pow_right (by norm_num) hwidth
  have hvalue : ∀ w, h₁.b.Sat w →
      (lt.eval w = if (l.eval w).val < ((ofConst (2 ^ (width - 1))).eval w).val then 1 else 0) →
      ((l + (one - lt).scale (2 ^ reg - 2 ^ width)).eval w).val
        = ((BitVec.ofNat width (a.value h.wires w)).signExtend reg).toNat := by
    intro w hw hval
    have hs' := hnumber.lt w hw
    have hsign : ((BitVec.ofNat width (a.value h.wires w)).signExtend reg).toNat
        = (l.eval w).val + if (l.eval w).val < 2 ^ (width - 1) then 0 else 2 ^ reg - 2 ^ width := by
      rw [← p₁.value_eq hv, ← oa.value w hw, BitVec.toNat_signExtend, BitVec.toNat_setWidth,
        BitVec.msb_eq_decide, BitVec.toNat_ofNat, Nat.mod_eq_of_lt hs', Nat.mod_eq_of_lt (hs'.trans_le hle)]
      by_cases hlow : (l.eval w).val < 2 ^ (width - 1)
      · rw [if_pos hlow, if_neg (by simpa using hlow)]
      · rw [if_neg hlow, if_pos (by simpa using not_lt.mp hlow)]
    have hcast : (l + (one - lt).scale (2 ^ reg - 2 ^ width)).eval w
        = ((((l.eval w).val + if (l.eval w).val < 2 ^ (width - 1) then 0 else 2 ^ reg - 2 ^ width) : ℕ) : Fr) := by
      rw [eval_add, eval_scale, eval_sub, eval_one, hval, val_two_pow (by omega), Nat.cast_add,
        ZMod.natCast_zmod_val]
      split_ifs
      · rw [sub_self, zero_mul, Nat.cast_zero]
      · rw [Nat.cast_sub hle]
        push_cast
        rw [sub_zero, one_mul]
    rw [hcast, hsign, ZMod.val_natCast_of_lt]
    rw [← hsign]
    exact (BitVec.isLt _).trans_le (two_pow_le (by omega))
  refine (p₁.seq p₂ (fun _ hw => hw) (fun _ hw _ _ _ => hw) (Q := fun _ w =>
    ((l + (one - lt).scale (2 ^ reg - 2 ^ width)).eval w).val
      = ((BitVec.ofNat width (a.value h.wires w)).signExtend reg).toNat)
    fun _ w hw _ hval => hvalue w (p₂.realizes.mono hw) hval).intWire
    ((oa.number.below.mono p₂.le).add ((Below.one.sub hbelow).scale _)) (canonical_add _ _) le_rfl
    (fun _ w _ hval => hval) fun w _ _ => BitVec.isLt _

end Host

end Frontend

end XarkCircuit
