import XarkCircuit.Frontend.HostArms
import XarkCircuit.Lib.Succeeds

/-!
Bits, comparisons and hints of the host.

* `toBits_spec`: the bits of a value in range, in an arm those of the taken arm; `bitsOf_spec` is for
  integers, whose range is forced in every arm.
* `ult_spec`: a comparison.
* `gatedHint_spec`, `hintDivRem_spec`: a hint has its op's value where the arm is taken and is zero
  elsewhere.
* `inputsDone_spec`: the ranges of the integer inputs.
-/

namespace XarkCircuit

namespace Frontend

open LinearCombination Emission Emission.Emitter
open Verifier (rModulus)

variable {bits : List LinearCombination} {n : ℕ}

lemma AreBits.isBit {v : Fr} {w : VarId → Fr} (hbits : AreBits bits n v w) :
    ∀ l ∈ bits, IsBit (l.eval w) := by
  intro l hl
  have hmem : l.eval w ∈ values bits w := List.mem_map_of_mem hl
  rw [hbits.2] at hmem
  obtain ⟨i, -, hi⟩ := List.mem_map.mp hmem
  exact hi ▸ Builder.isBit_bitOf _ _

lemma AreBits.length_eq {v : Fr} {w : VarId → Fr} (hbits : AreBits bits n v w) : bits.length = n := by
  have hlen := congrArg List.length hbits.2
  rwa [values, bitList, List.length_map, List.length_map, List.length_range] at hlen

/-- What a decomposition in an arm gives: bits, which are those of the value where the arm is taken. -/
def ArmBits (bits : List LinearCombination) (n : ℕ) (g : Fr) (x : Fr) (w : VarId → Fr) : Prop :=
  bits.length = n ∧ (∀ l ∈ bits, IsBit (l.eval w)) ∧ (g = 1 → AreBits bits n x w)

lemma AreBits.armBits {v : Fr} {w : VarId → Fr} (hbits : AreBits bits n v w) (g : Fr) :
    ArmBits bits n g v w := ⟨hbits.length_eq, hbits.isBit, fun _ => hbits⟩

/-- The low bits of a number, and the others. -/
lemma AreBits.split {x : Fr} {w : VarId → Fr} {k : ℕ} (hk : k ≤ n)
    (hbits : AreBits bits n x w) :
    AreBits (bits.take k) k ((x.val % 2 ^ k : ℕ) : Fr) w ∧
      AreBits (bits.drop k) (n - k) ((x.val / 2 ^ k : ℕ) : Fr) w := by
  have hlow : ((x.val % 2 ^ k : ℕ) : Fr).val = x.val % 2 ^ k :=
    ZMod.val_natCast_of_lt ((Nat.mod_le _ _).trans_lt (ZMod.val_lt x))
  have hhigh : ((x.val / 2 ^ k : ℕ) : Fr).val = x.val / 2 ^ k :=
    ZMod.val_natCast_of_lt ((Nat.div_le_self _ _).trans_lt (ZMod.val_lt x))
  have hvalues := hbits.2
  constructor
  · refine ⟨hlow.trans_lt (Nat.mod_lt _ (Nat.two_pow_pos k)), ?_⟩
    rw [values, List.map_take, ← values, hvalues, bitList, bitList, hlow, ← List.map_take,
      List.take_range, min_eq_left hk]
    refine List.map_congr_left fun i hi => ?_
    rw [Bits.bitOf, Bits.bitOf, Nat.testBit_mod_two_pow, decide_eq_true (List.mem_range.mp hi),
      Bool.true_and]
  · refine ⟨?_, ?_⟩
    · rw [hhigh]
      refine Nat.div_lt_of_lt_mul ?_
      rw [← pow_add, Nat.add_sub_cancel' hk]
      exact hbits.1
    · rw [values, List.map_drop, ← values, hvalues, bitList, bitList, hhigh, ← List.map_drop]
      refine List.ext_getElem (by simp) fun i h₁ h₂ => ?_
      rw [List.getElem_map, List.getElem_map, List.getElem_drop, List.getElem_range,
        List.getElem_range, Bits.bitOf, Bits.bitOf, Nat.testBit_div_two_pow, add_comm]

lemma below_bitLc (c : Bool) : (Host.bitLc c).Below n := by
  cases c with
  | true => exact Below.one
  | false => exact Below.zero

namespace Host

open Builder (gateOf gated)

variable {h h' h₁ : Host} {b b' : Builder} {fakeGlv : FakeGlv} {lcHash : LinearCombination → ℕ}
  {x y out : LinearCombination}

/-! ### Known bits -/

lemma Sound.values_putField (hh : h.Sound) (bits : List LinearCombination) (w : VarId → Fr) :
    values (bits.map h.putField) w = values bits w := by
  rw [values, values, List.map_map]
  exact List.map_congr_left fun l _ => hh.eval_putField l w

lemma below_map_putField (hbits : ∀ l ∈ bits, l.Below n) : ∀ l ∈ bits.map h.putField, l.Below n := by
  rw [List.forall_mem_map]
  exact fun l hl => below_putField (hbits l hl)

/-- Bits that are remembered are those of the value. -/
lemma Sound.remember_bits (hh : h.Sound) (hbelow : ∀ l ∈ bits, l.Below h.b.nextVarId)
    (hopen : x.simplified.isConstant = false → ∀ l ∈ bits, l.isConstant = false)
    (hbits : ∀ w, h.b.Sat w → AreBits bits n (x.eval w) w) :
    Sound { h with bitCache := Function.update h.bitCache (x.simplified, n) (some bits) } :=
  { hh with
    cache := fun z m bits' hz => by
      change Function.update h.bitCache (x.simplified, n) (some bits) (z, m) = some bits' at hz
      by_cases hkey : (z, m) = (x.simplified, n)
      · obtain ⟨rfl, rfl⟩ := Prod.mk.inj hkey
        rw [Function.update_self] at hz
        obtain rfl := Option.some.inj hz
        refine ⟨hbelow, fun w hw => ?_⟩
        rw [eval_simplified]
        exact hbits w hw
      · rw [Function.update_of_ne hkey] at hz
        exact hh.cache z m bits' hz
    cache_open := fun z m bits' hz => by
      change Function.update h.bitCache (x.simplified, n) (some bits) (z, m) = some bits' at hz
      by_cases hkey : (z, m) = (x.simplified, n)
      · obtain ⟨rfl, rfl⟩ := Prod.mk.inj hkey
        rw [Function.update_self] at hz
        exact Option.some.inj hz ▸ hopen
      · rw [Function.update_of_ne hkey] at hz
        exact hh.cache_open z m bits' hz }

lemma Sound.knownBits (hh : h.Sound) (hx : x.Below h.b.nextVarId) (hn : n ≤ 253)
    (hknown : h.knownBits x n = some bits) :
    (∀ l ∈ bits, l.Below h.b.nextVarId) ∧ ∀ w, h.b.Sat w → AreBits bits n (x.eval w) w := by
  rw [Host.knownBits] at hknown
  split_ifs at hknown with hconst
  rcases Option.or_eq_some_iff.mp hknown with hsum | ⟨-, hcached⟩
  · exact bitSumShortcut_spec hh.builder hx hn hsum
  · obtain ⟨hbelow, hbits⟩ := hh.cache _ _ _ hcached
    refine ⟨hbelow, fun w hw => ?_⟩
    have hareBits := hbits w hw
    rwa [eval_simplified] at hareBits

/-! ### Decompositions -/

lemma Sound.armBits_putField (hh : h.Sound) {g v : Fr} {w : VarId → Fr}
    (hbits : ArmBits bits n g v w) : ArmBits (bits.map h.putField) n g v w := by
  obtain ⟨hlen, hbit, hopen⟩ := hbits
  refine ⟨by rw [List.length_map, hlen], ?_, fun hg => ⟨(hopen hg).1, ?_⟩⟩
  · rw [List.forall_mem_map]
    intro l hl
    rw [hh.eval_putField]
    exact hbit l hl
  · rw [hh.values_putField]
    exact (hopen hg).2

/-- **`to_bits`**: where the arm is taken the value is in range, and these are its bits. -/
lemma toBits_spec (fakeGlv : FakeGlv) (hh : h.Sound) (hx : x.Below h.b.nextVarId)
    (hop : h.toBits lcHash x n = .ok (bits, h')) :
    (∀ l ∈ bits, l.Below h'.b.nextVarId) ∧
      Performs fakeGlv h (fun w => IsBit (h.gate w) ∧ (h.gate w = 1 → (x.eval w).val < 2 ^ n)) h'
        fun _ w => ArmBits bits n (h.gate w) (x.eval w) w := by
  rw [toBits] at hop
  split_ifs at hop with hwide hconst
  · cases hop
  · split at hop
    next => cases hop
    next cs hcs =>
      obtain ⟨rfl, rfl⟩ := Prod.mk.inj (Except.ok.inj hop)
      refine ⟨?_, .pure hh fun _ w _ => ?_⟩
      · rw [List.forall_mem_map]
        exact fun c _ => below_putField (below_bitLc c)
      · have hbits := (toBitsLe_spec hcs w).armBits (h.gate w)
        rw [← eval_of_isConstant hconst] at hbits
        have hput := hh.armBits_putField hbits
        rwa [List.map_map] at hput
  · have hn : n ≤ 253 := not_lt.mp hwide
    split at hop
    next known hknown =>
      obtain ⟨rfl, rfl⟩ := Prod.mk.inj (Except.ok.inj hop)
      obtain ⟨hbelow, hbits⟩ := hh.knownBits hx hn hknown
      exact ⟨below_map_putField hbelow, .pure hh fun _ w hw =>
        hh.armBits_putField ((hbits w hw).armBits _)⟩
    next =>
      obtain ⟨⟨g, h₁⟩, hg, hop⟩ := Succeeding.bind_eq_ok.mp hop
      obtain ⟨⟨new, b'⟩, hnew, hop⟩ := Succeeding.bind_eq_ok.mp hop
      obtain ⟨rfl, rfl⟩ := Prod.mk.inj (Except.ok.inj hop)
      obtain ⟨hgbelow, -, -, p₁⟩ := guard_spec fakeGlv hh (lift_eq_ok hg)
      obtain ⟨hb', hbelow, he⟩ := Builder.decomposeBitsGated_spec p₁.sound.builder (hx.mono p₁.le)
        hgbelow (lift_eq_ok hnew) fakeGlv
      have p₂ := Performs.of_builder p₁.sound hb' (.of_emits he)
      -- the bits are those of the gated value
      have hall := p₁.seq p₂ (P := fun w => IsBit (h.gate w) ∧ (h.gate w = 1 → (x.eval w).val < 2 ^ n))
        (Q := fun _ w => ArmBits new n (h.gate w) (x.eval w) w)
        (fun _ _ => True.intro) (fun w hw _ hval _ => ?_) fun _ w _ hval hw => ?_
      · refine ⟨below_map_putField hbelow, ?_, hall.arms, hall.wires, hall.inputs, ?_⟩
        · split_ifs with hempty
          · have hnil : h₁.guards = [] := by
              simp only [Bool.and_eq_true, List.isEmpty_iff] at hempty
              exact hempty.1
            refine hall.sound.remember_bits hbelow (fun hopen => ?_) fun w hw => ?_
            · have harms := p₁.arms
              rw [hnil, List.map_nil, eq_comm, List.map_eq_nil_iff] at harms
              obtain rfl := guard_of_nil harms (lift_eq_ok hg)
              exact Builder.decomposeBits_open p₁.sound.builder (hx.mono p₁.le) hopen (lift_eq_ok hnew)
            · refine (hall.realizes.emits.post hw).2.2 ?_
              rw [← p₁.gate_eq, gate, hnil]
              rfl
          · exact hall.sound
        · exact hall.realizes.weaken (fun _ _ hw => hw) fun _ w _ hw => p₁.sound.armBits_putField hw
      · obtain ⟨hbit, hrange⟩ := hw
        rw [gated, hval]
        rcases hbit with hzero | hone
        · rw [hzero, zero_mul, ZMod.val_zero]
          positivity
        · rw [hone, one_mul]
          exact hrange hone
      · obtain ⟨hlen, hbit, hopen⟩ := hw.armBits (h.gate w)
        refine ⟨hlen, hbit, fun hone => ?_⟩
        have hbits := hopen hone
        rwa [gated, hval, hone, one_mul] at hbits

lemma knownBits_open (hh : h.Sound) (hcanon : Canonical x.terms) (hknown : h.knownBits x n = some bits) :
    ∀ l ∈ bits, l.isConstant = false := by
  rw [Host.knownBits] at hknown
  split_ifs at hknown with hconst
  rcases Option.or_eq_some_iff.mp hknown with hsum | ⟨-, hcached⟩
  · rw [bitSumShortcut] at hsum
    split at hsum
    next vs hvs =>
      obtain rfl := Option.some.inj hsum
      rw [List.forall_mem_map]
      exact fun _ _ => rfl
    next =>
      split at hsum
      next => cases hsum
      next all htop =>
        obtain ⟨t, -, ht⟩ := Option.bind_eq_some_iff.mp htop
        split_ifs at hsum
        obtain rfl := Option.some.inj hsum
        exact fun l hl => (hh.builder.bits_form t.var all ht).1 l (List.mem_of_mem_take hl)
  · refine hh.cache_open _ _ _ hcached ?_
    rw [simplified_of_canonical hcanon]
    exact Bool.eq_false_iff.mpr hconst

/-- A constant bit is zero or one. -/
lemma bitsOf_plain (hh : h.Sound) (hx : x.Below h.b.nextVarId) (hcanon : Canonical x.terms)
    (hop : h.bitsOf lcHash x n = .ok (bits, h')) :
    ∀ l ∈ bits, l.isConstant = true → l.constant = 0 ∨ l.constant = 1 := by
  have hopen : (∀ l ∈ bits, l.isConstant = false) →
      ∀ l ∈ bits, l.isConstant = true → l.constant = 0 ∨ l.constant = 1 := by
    intro hbits l hl hconst
    rw [hbits l hl] at hconst
    cases hconst
  rw [bitsOf] at hop
  split_ifs at hop with hconst
  · split at hop
    next => cases hop
    next cs hcs =>
      obtain ⟨rfl, rfl⟩ := Prod.mk.inj (Except.ok.inj hop)
      rw [List.forall_mem_map]
      intro c _ _
      cases c
      · exact .inl rfl
      · exact .inr rfl
  · split at hop
    next known hknown =>
      obtain ⟨rfl, rfl⟩ := Prod.mk.inj (Except.ok.inj hop)
      exact hopen (knownBits_open hh hcanon hknown)
    next =>
      obtain ⟨⟨new, b'⟩, hnew, hop⟩ := Succeeding.bind_eq_ok.mp hop
      obtain ⟨rfl, rfl⟩ := Prod.mk.inj (Except.ok.inj hop)
      refine hopen (Builder.decomposeBits_open hh.builder hx ?_ (lift_eq_ok hnew))
      rw [simplified_of_canonical hcanon]
      exact Bool.eq_false_iff.mpr hconst

/-- The bits of an integer: it is in range in every arm. -/
lemma bitsOf_spec (fakeGlv : FakeGlv) (hh : h.Sound) (hx : x.Below h.b.nextVarId) (hn : n ≤ 253)
    (hop : h.bitsOf lcHash x n = .ok (bits, h')) : (∀ l ∈ bits, l.Below h'.b.nextVarId) ∧
      Performs fakeGlv h (fun w => (x.eval w).val < 2 ^ n) h' fun _ w => AreBits bits n (x.eval w) w := by
  rw [bitsOf] at hop
  split_ifs at hop with hconst
  · split at hop
    next => cases hop
    next cs hcs =>
      obtain ⟨rfl, rfl⟩ := Prod.mk.inj (Except.ok.inj hop)
      refine ⟨?_, .pure hh fun _ w _ => ?_⟩
      · rw [List.forall_mem_map]
        exact fun c _ => below_bitLc c
      · rw [eval_of_isConstant hconst]
        exact toBitsLe_spec hcs w
  · split at hop
    next known hknown =>
      obtain ⟨rfl, rfl⟩ := Prod.mk.inj (Except.ok.inj hop)
      obtain ⟨hbelow, hbits⟩ := hh.knownBits hx hn hknown
      exact ⟨hbelow, .pure hh fun _ => hbits⟩
    next =>
      obtain ⟨⟨new, b'⟩, hnew, hop⟩ := Succeeding.bind_eq_ok.mp hop
      obtain ⟨rfl, rfl⟩ := Prod.mk.inj (Except.ok.inj hop)
      obtain ⟨hb', hbelow, he⟩ :=
        Builder.decomposeBits_spec hh.builder hx (lift_eq_ok hnew) fakeGlv
      have hall := Performs.of_builder hh hb' (.of_emits he)
      refine ⟨hbelow, ?_, hall.arms, hall.wires, hall.inputs, hall.realizes⟩
      split_ifs
      · exact hall.sound.remember_bits hbelow (fun hopen => Builder.decomposeBits_open hh.builder hx hopen
          (lift_eq_ok hnew)) fun w hw => hall.realizes.emits.post hw
      · exact hall.sound

/-- **A field element as an integer** is in range. -/
lemma fieldToUint_spec (fakeGlv : FakeGlv) (hh : h.Sound) (hx : x.Below h.b.nextVarId)
    (hop : h.fieldToUint lcHash x n = .ok (out, h')) : out.Below h'.b.nextVarId ∧
      Performs fakeGlv h (fun w => n ≠ 0 → (x.eval w).val < 2 ^ n) h' fun _ w =>
        if n = 0 then out.eval w = 0 else (x.eval w).val < 2 ^ n ∧ out.eval w = x.eval w := by
  rw [fieldToUint] at hop
  split_ifs at hop with hn hwide
  · obtain ⟨rfl, rfl⟩ := Prod.mk.inj (Except.ok.inj hop)
    refine ⟨Below.zero, .pure hh fun _ w _ => ?_⟩
    rw [if_pos hn]
    exact eval_zero w
  · cases hop
  · obtain ⟨⟨bits, h₁⟩, hbits, hop⟩ := Succeeding.bind_eq_ok.mp hop
    obtain ⟨rfl, rfl⟩ := Prod.mk.inj (Except.ok.inj hop)
    obtain ⟨hbelow, p₁⟩ := bitsOf_spec fakeGlv hh hx (by omega) hbits
    have hout := below_recompose hbelow
    refine ⟨hout, (p₁.weaken (fun w _ hw => hw hn) fun _ w _ hw => ?_).newWire hout
      (canonical_recompose _)
      fun w _ _ hw => ?_⟩
    · rw [if_neg hn]
      exact ⟨hw.1, recompose_of_areBits hw⟩
    · rw [if_neg hn] at hw
      rw [hw.2]
      exact hw.1

/-! ### Comparisons -/

/-- What a comparison of `n` bits in an arm gives. -/
def ArmLess (n : ℕ) (g x y lt : Fr) : Prop :=
  IsBit lt ∧ (g = 1 → x.val < 2 ^ n → y.val < 2 ^ n → lt = Bits.borrow x y) ∧ (g = 0 → lt = 1)

/-- **A comparison**, of numbers that are in range where the arm is taken. -/
lemma ult_spec (fakeGlv : FakeGlv) (hh : h.Sound) (hx : x.Below h.b.nextVarId) (hy : y.Below h.b.nextVarId)
    (hop : h.ult lcHash n x y = .ok (out, h')) : out.Below h'.b.nextVarId ∧
      Performs fakeGlv h (fun w => IsBit (h.gate w) ∧
          (h.gate w = 1 → (x.eval w).val < 2 ^ n ∧ (y.eval w).val < 2 ^ n)) h'
        fun _ w => ArmLess n (h.gate w) (x.eval w) (y.eval w) (out.eval w) := by
  obtain ⟨⟨g, h₁⟩, hg, hop⟩ := Succeeding.bind_eq_ok.mp hop
  obtain ⟨res, hres, hop⟩ := Succeeding.bind_eq_ok.mp hop
  cases res with
  | error message => cases hop
  | ok res =>
      obtain ⟨lt, b'⟩ := res
      obtain ⟨rfl, rfl⟩ := Prod.mk.inj (Except.ok.inj hop)
      obtain ⟨hgbelow, -, -, p₁⟩ := guard_spec fakeGlv hh (lift_eq_ok hg)
      obtain ⟨hb', hlt, he⟩ := Builder.emitLessThanGated_spec p₁.sound.builder (hx.mono p₁.le)
        (hy.mono p₁.le) hgbelow (lift_eq_ok hres) fakeGlv
      refine ⟨hlt, (p₁.seq (Performs.of_builder p₁.sound hb' (.of_emits he))
        (fun _ _ => True.intro) (fun w hw _ hval _ => ?_) fun _ w _ hval hw => ?_).newWire hlt
        (Builder.canonical_emitLessThanGated (lift_eq_ok hres))
        fun w _ _ hw => hw.1.val_lt⟩
      · rwa [hval]
      · rwa [hval] at hw

/-! ### Hints -/

/-- What a hint of a value `v` gives: in an arm that is not taken, zero. -/
def ArmHint (honest : Bool) (g v out : Fr) : Prop := (g ≠ 1 → out = 0) ∧ (honest = true → g = 1 → out = v)

/-- **A hint in an arm** of a function of `x` that is zero at zero. -/
lemma gatedHint_spec {g : Option LinearCombination} {x' : LinearCombination} {b₁ b₂ : Builder}
    {v : VarId} {op : WitnessGen LinearCombination VarId} {φ : Fr → Fr} (hh : h.Sound)
    (hx : x.Below h.b.nextVarId) (hg : h.guard lcHash = .ok (g, h₁))
    (hin : h₁.b.gateInput lcHash g x = .ok (x', b₁)) (hv : b₁.allocAdvice = .ok (v, b₂))
    (hop : ∀ w, Follows fakeGlv w op → w v = φ (x'.eval w)) (hφ : φ 0 = 0) :
    (ofVar v).Below ((b₂.pinDeadTo g v 0).pushWitness (some op)).nextVarId ∧
      Performs fakeGlv h (fun w => IsBit (h.gate w))
        { h₁ with b := (b₂.pinDeadTo g v 0).pushWitness (some op) }
        fun honest w => ArmHint honest (h.gate w) (φ (x.eval w)) ((ofVar v).eval w) := by
  obtain ⟨hgbelow, -, -, p₁⟩ := guard_spec fakeGlv hh hg
  obtain ⟨hb₁, hx', e₁⟩ :=
    Builder.gateInput_spec p₁.sound.builder hgbelow (hx.mono p₁.le) hin fakeGlv
  have hgbelow₁ : ∀ l ∈ g, l.Below b₁.nextVarId := fun l hl => (hgbelow l hl).mono e₁.next_le
  obtain ⟨hb', hvlt, hhint⟩ := Builder.hint_spec hb₁ (hb₁.alloc hv) hgbelow₁ hop
    fun w w' hagree => congrArg φ (Builder.local_eval fakeGlv hx' hagree)
  have hpair := (Realizes.of_emits e₁).seq hhint
    (P := fun w => IsBit (gateOf g w))
    (S := fun honest w => (gateOf g w ≠ 1 → w v = 0) ∧
      (honest = true → w v = φ (gated g x w)))
    (fun _ _ => True.intro) (fun w hbit _ hval _ hdead => ?_) fun _ w _ hval hw => ?_
  · refine ⟨below_ofVar.mpr hvlt, p₁.seq (Performs.of_builder p₁.sound hb' hpair)
      (fun _ _ => True.intro) (fun w hbit _ hval _ => ?_) fun _ w _ hval hw => ?_⟩
    · rwa [hval]
    · rw [gated, hval] at hw
      rw [eval_ofVar]
      refine ⟨hw.1, fun honest hone => ?_⟩
      rw [hw.2 honest, hone, one_mul]
  · rw [hval, gated, hbit.resolve_right hdead, zero_mul, hφ]
  · rwa [hval] at hw

lemma hintInverse_spec {orZero : Bool} (fakeGlv : FakeGlv) (hh : h.Sound) (hx : x.Below h.b.nextVarId)
    (hop : h.hintInverse lcHash orZero x = .ok (out, h')) : out.Below h'.b.nextVarId ∧
      Performs fakeGlv h (fun w => IsBit (h.gate w)) h' fun honest w =>
        ArmHint honest (h.gate w) (x.eval w)⁻¹ (out.eval w) := by
  obtain ⟨⟨g, h₁⟩, hg, hop⟩ := Outcome.bind_eq_ok.mp hop
  obtain ⟨⟨x', b₁⟩, hin, hop⟩ := Outcome.bind_eq_ok.mp hop
  obtain ⟨⟨v, b₂⟩, hv, hop⟩ := Outcome.bind_eq_ok.mp hop
  obtain ⟨rfl, rfl⟩ := Prod.mk.inj (Except.ok.inj hop)
  have hsound := (guard_spec fakeGlv hh hg).2.2.2.sound
  have hfollows : ∀ w, Follows fakeGlv w (if (!orZero && h₁.guards.isEmpty) = true then
      .inverse v x' else .inverseOrZero v x') → w v = (x'.eval w)⁻¹ := by
    intro w hw
    split_ifs at hw
    · exact (Builder.follows_inverse fakeGlv w v).mp hw
    · exact (Builder.follows_inverseOrZero fakeGlv w v).mp hw
  obtain ⟨hbelow, p⟩ := gatedHint_spec hh hx hg hin hv hfollows inv_zero
  refine ⟨below_putField hbelow, p.weaken (fun _ _ hw => hw) fun _ w _ hw => ?_⟩
  rwa [hsound.eval_putField]

lemma cast_constBit (c : FieldConst) (i : ℕ) :
    (((if (c % (rModulus : ℤ)).toNat.testBit i then 1 else 0 : FieldConst)) : Fr)
      = Bits.bitOf (c : Fr).val i := by
  have hval : (c % (rModulus : ℤ)).toNat = (c : Fr).val := by
    rw [← ZMod.val_intCast, Int.toNat_natCast]
  rw [hval, Bits.bitOf]
  split_ifs
  · exact Int.cast_one
  · exact Int.cast_zero

lemma hintBit_spec {i : U32} (fakeGlv : FakeGlv) (hh : h.Sound) (hx : x.Below h.b.nextVarId)
    (hop : h.hintBit lcHash x i = .ok (out, h')) : out.Below h'.b.nextVarId ∧
      Performs fakeGlv h (fun w => IsBit (h.gate w)) h' fun honest w =>
        out.eval w = Bits.bitOf (x.eval w).val i ∨
          ArmHint honest (h.gate w) (Bits.bitOf (x.eval w).val i) (out.eval w) := by
  unfold Host.hintBit at hop
  split at hop
  next p hp hconst =>
    obtain ⟨rfl, rfl⟩ := Prod.mk.inj (Except.ok.inj hop)
    refine ⟨below_putField (Below.ofConst _), .pure hh fun _ w _ => .inl ?_⟩
    rw [hh.eval_putField, eval_ofConst, eval_of_isConstant hconst,
      hh.modulus p (Option.mem_def.mpr hp), cast_constBit]
  next =>
    obtain ⟨⟨g, h₁⟩, hg, hop⟩ := Outcome.bind_eq_ok.mp hop
    obtain ⟨⟨x', b₁⟩, hin, hop⟩ := Outcome.bind_eq_ok.mp hop
    obtain ⟨⟨v, b₂⟩, hv, hop⟩ := Outcome.bind_eq_ok.mp hop
    obtain ⟨rfl, rfl⟩ := Prod.mk.inj (Except.ok.inj hop)
    have hsound := (guard_spec fakeGlv hh hg).2.2.2.sound
    obtain ⟨hbelow, p⟩ := gatedHint_spec hh hx hg hin hv
      (fun w => (Builder.follows_bit fakeGlv w v i).mp) (φ := fun z => Bits.bitOf z.val i)
      (by simp [Bits.bitOf])
    refine ⟨below_putField hbelow, p.weaken (fun _ _ hw => hw) fun _ w _ hw => .inr ?_⟩
    rwa [hsound.eval_putField]

/-- A free witness: in an arm that is not taken it is zero. -/
lemma advice_spec (fakeGlv : FakeGlv) (hh : h.Sound) (hop : h.advice lcHash = .ok (out, h')) :
    out.Below h'.b.nextVarId ∧ Performs fakeGlv h (fun w => h.gate w = 1) h'
      fun _ w => h.gate w ≠ 1 → out.eval w = 0 := by
  obtain ⟨⟨v, b₁⟩, hv, hop⟩ := Outcome.bind_eq_ok.mp hop
  obtain ⟨⟨g, h₁⟩, hg, hop⟩ := Outcome.bind_eq_ok.mp hop
  obtain ⟨rfl, rfl⟩ := Prod.mk.inj (Except.ok.inj hop)
  have ha := hh.builder.alloc hv
  have p₀ : Performs fakeGlv h (fun _ => True) { h with b := b₁ } fun _ _ => True :=
    .of_builder hh ha.sound (.of_emits ((ha.appends.emits_rows hh.builder (Q := fun _ => True)
      fun w => by simp).weaken (fun _ _ _ => True.intro) fun _ _ _ => True.intro))
  obtain ⟨hgbelow, -, -, p₁⟩ := guard_spec fakeGlv p₀.sound hg
  have hvlt : v.val < h₁.b.nextVarId := ha.lt.trans_le p₁.le
  obtain ⟨hb', hnext, hpin⟩ :=
    Builder.pinDeadTo_spec p₁.sound.builder hgbelow hvlt 0 fakeGlv
  have p₂ := Performs.of_builder p₁.sound hb' (.of_emits hpin)
  refine ⟨below_putField (below_ofVar.mpr (hnext.symm ▸ hvlt)), ?_⟩
  have p₀₁ := p₀.seq p₁ (P := fun w => h.gate w = 1) (Q := fun _ w => gateOf g w = h.gate w)
    (fun _ _ => True.intro) (fun _ _ _ _ _ => True.intro) fun _ _ _ _ hw => hw
  refine p₀₁.seq p₂ (fun _ hw => hw) (fun w hone _ hval _ hdead => ?_) fun _ w _ hval hw hdead => ?_
  · exact absurd (hval.trans hone) hdead
  · rw [p₁.sound.eval_putField, eval_ofVar, hw (hval.symm ▸ hdead), Int.cast_zero]

/-- The divisor of a hint in an arm. -/
lemma gateLimb_spec (fakeGlv : FakeGlv) {g : Option LinearCombination} {low : FieldConst} (hb : b.Sound)
    (hg : ∀ l ∈ g, l.Below b.nextVarId) (hx : x.Below b.nextVarId)
    (hop : gateLimb lcHash b g x low = .ok (out, b')) : b'.Sound ∧ out.Below b'.nextVarId ∧
      Emission.Emits (Builder.emitter fakeGlv) (fun _ => True) b b'
        fun w => out.eval w = gated g x w + (1 - gateOf g w) * low := by
  cases g with
  | none =>
      obtain ⟨rfl, rfl⟩ := Prod.mk.inj (Except.ok.inj hop)
      refine ⟨hb, hx, (Emission.Emits.refl b).weaken (fun _ _ hw => hw) fun w _ _ => ?_⟩
      rw [Builder.gated_none, gateOf, Option.elim_none, sub_self, zero_mul, add_zero]
  | some g =>
      obtain ⟨⟨x', b₁⟩, hin, hop⟩ := Outcome.bind_eq_ok.mp hop
      obtain ⟨rfl, rfl⟩ := Prod.mk.inj (Except.ok.inj hop)
      obtain ⟨hb', hx', he⟩ := Builder.gateInput_spec hb hg hx hin fakeGlv
      have hg' : g.Below b₁.nextVarId := (hg g rfl).mono he.next_le
      refine ⟨hb', ?_, he.weaken (fun _ _ hw => hw) fun w _ hw => ?_⟩
      · split_ifs
        · exact hx'
        · exact hx'.add ((Below.one.sub hg').scale low)
      · split_ifs with hlow
        · rw [hw, hlow, Int.cast_zero, mul_zero, add_zero]
        · rw [eval_add, eval_scale, eval_sub, eval_one, hw]
          rfl

/-- **The hint of a quotient and a remainder**: of zero by one in an arm that is not taken. -/
lemma hintDivRem_spec {num den q r : LinearCombination} (fakeGlv : FakeGlv) (hh : h.Sound)
    (hnum : num.Below h.b.nextVarId) (hden : den.Below h.b.nextVarId)
    (hop : h.hintDivRem lcHash num den = .ok ((q, r), h')) :
    q.Below h'.b.nextVarId ∧ r.Below h'.b.nextVarId ∧
      Performs fakeGlv h (fun w => IsBit (h.gate w)) h' fun honest w =>
        ArmHint honest (h.gate w) (((num.eval w).val / (den.eval w).val : ℕ) : Fr) (q.eval w) ∧
          ArmHint honest (h.gate w) (((num.eval w).val % (den.eval w).val : ℕ) : Fr) (r.eval w) := by
  obtain ⟨⟨g, h₁⟩, hg, hop⟩ := Outcome.bind_eq_ok.mp hop
  obtain ⟨⟨num', b₁⟩, hin, hop⟩ := Outcome.bind_eq_ok.mp hop
  obtain ⟨⟨den', b₂⟩, hlimb, hop⟩ := Outcome.bind_eq_ok.mp hop
  obtain ⟨⟨u, b₃⟩, hu, hop⟩ := Outcome.bind_eq_ok.mp hop
  obtain ⟨⟨v, b₄⟩, hv, hop⟩ := Outcome.bind_eq_ok.mp hop
  obtain ⟨hqr, rfl⟩ := Prod.mk.inj (Except.ok.inj hop)
  obtain ⟨rfl, rfl⟩ := Prod.mk.inj hqr
  obtain ⟨hgbelow, -, -, p₁⟩ := guard_spec fakeGlv hh hg
  obtain ⟨hb₁, hnum', e₁⟩ :=
    Builder.gateInput_spec p₁.sound.builder hgbelow (hnum.mono p₁.le) hin fakeGlv
  have hg₁ : ∀ l ∈ g, l.Below b₁.nextVarId := fun l hl => (hgbelow l hl).mono e₁.next_le
  obtain ⟨hb₂, hden', e₂⟩ := gateLimb_spec fakeGlv hb₁ hg₁
    ((hden.mono p₁.le).mono e₁.next_le) hlimb
  have hau := hb₂.alloc hu
  have hav := hau.sound.alloc hv
  have hnum₂ := hnum'.mono e₂.next_le
  obtain ⟨hb', hnext, hhint⟩ := Builder.hintPair_spec hb₂ hau hav
    (fun l hl => (hg₁ l hl).mono e₂.next_le) (.divRem u v num' den')
    (fun w => (((num'.eval w).val / (den'.eval w).val : ℕ) : Fr))
    (fun w => (((num'.eval w).val % (den'.eval w).val : ℕ) : Fr))
    (fun w hw => ((Builder.follows_divRem fakeGlv w u v num' den').mp hw).2)
    (fun w w' hagree => by
      rw [Builder.local_eval fakeGlv hnum₂ hagree, Builder.local_eval fakeGlv hden' hagree])
    fun w w' hagree => by
      rw [Builder.local_eval fakeGlv hnum₂ hagree, Builder.local_eval fakeGlv hden' hagree]
  -- the operands, and then the hint
  have hins := e₁.seq e₂ (P := fun _ => True) (Q := fun w => num'.eval w = gated g num w ∧
      den'.eval w = gated g den w + (1 - gateOf g w) * (1 : ℤ))
    (fun _ hw => hw) (fun _ hw _ _ => hw) fun _ _ h₁ h₂ => ⟨h₁, h₂⟩
  have hpair := (Realizes.of_emits hins).seq hhint (P := fun w => IsBit (gateOf g w))
    (S := fun honest w => ArmHint honest (gateOf g w)
        (((num.eval w).val / (den.eval w).val : ℕ) : Fr) (w u) ∧
      ArmHint honest (gateOf g w) (((num.eval w).val % (den.eval w).val : ℕ) : Fr) (w v))
    (fun _ _ => True.intro) (fun w hbit _ hval _ hdead => ?_) fun honest w _ hval hw => ?_
  · have hult : u.val < b₄.nextVarId := hau.lt.trans_le hav.appends.next_le
    refine ⟨below_putField (below_ofVar.mpr (hnext.symm ▸ hult)),
      below_putField (below_ofVar.mpr (hnext.symm ▸ hav.lt)),
      p₁.seq (Performs.of_builder p₁.sound hb' hpair) (fun _ _ => True.intro)
        (fun w hbit _ hval _ => ?_) fun _ w _ hval hw => ?_⟩
    · rwa [hval]
    · rw [hval] at hw
      rwa [p₁.sound.eval_putField, p₁.sound.eval_putField, eval_ofVar, eval_ofVar]
  · have hzero := hbit.resolve_right hdead
    rw [hval.1, hval.2, gated, gated, hzero]
    have : Fact (1 < rModulus) := ⟨by norm_num [rModulus]⟩
    simp [ZMod.val_one]
  · obtain ⟨hdead, hlive⟩ := hw
    refine ⟨⟨fun hne => (hdead hne).1, fun hhonest hone => ?_⟩,
      ⟨fun hne => (hdead hne).2, fun hhonest hone => ?_⟩⟩
    · rw [(hlive hhonest).1, hval.1, hval.2, gated, gated, hone, one_mul, one_mul, sub_self, zero_mul,
        add_zero]
    · rw [(hlive hhonest).2, hval.1, hval.2, gated, gated, hone, one_mul, one_mul, sub_self, zero_mul,
        add_zero]

/-! ### Inputs -/

lemma inputField_spec {name : String} {vis : Visibility} (fakeGlv : FakeGlv) (hh : h.Sound)
    (hop : h.inputField name vis = .ok (out, h')) : ∃ v : VarId, v.val = h.b.nextVarId ∧
      out.Below h'.b.nextVarId ∧ (∀ w : VarId → Fr, out.eval w = w v) ∧
      Performs fakeGlv h (fun _ => True) h' fun _ _ => True := by
  obtain ⟨⟨v, b'⟩, hv, hop⟩ := Outcome.bind_eq_ok.mp hop
  obtain ⟨rfl, rfl⟩ := Prod.mk.inj (Except.ok.inj hop)
  obtain ⟨hb', hid, hlt, he⟩ := Builder.bindInput_spec hh.builder hv fakeGlv
  refine ⟨v, hid, below_putField (below_ofVar.mpr hlt), fun w => ?_, .of_builder hh hb' (.of_emits he)⟩
  rw [hh.eval_putField, eval_ofVar]

/-- An integer input of a register: its range is still to be checked. -/
lemma inputUint_spec {name : String} {vis : Visibility} (fakeGlv : FakeGlv) (hn : n ≤ 64) (hh : h.Sound)
    (hop : h.inputUint lcHash name vis n = .ok (out, h')) : ∃ v : VarId, v.val = h.b.nextVarId ∧
      out = ofVar v ∧ h'.Sound ∧ h'.uintInputs = h.uintInputs ++ [(v, n)] ∧
      Realizes (Builder.emitter fakeGlv) (fun _ => True) h.b h'.b fun _ _ => True := by
  obtain ⟨⟨v, b'⟩, hv, hop⟩ := Outcome.bind_eq_ok.mp hop
  dsimp only at hop
  rw [if_neg (not_lt.mpr hn)] at hop
  obtain ⟨rfl, rfl⟩ := Prod.mk.inj (Except.ok.inj hop)
  obtain ⟨hb', hid, hlt, he⟩ := Builder.bindInput_spec hh.builder hv fakeGlv
  have hgrown := hh.grow hb' he.next_le fun w hw => he.mono hw
  have hranges : ∀ w, Ranges { h with b := b', uintInputs := h.uintInputs ++ [(v, n)] } w →
      h.Ranges w ∧ (w v).val < 2 ^ n := by
    intro w hw
    exact ⟨fun u hu => hw u (List.mem_append_left _ hu),
      hw (v, n) (List.mem_append_right _ (List.mem_singleton_self _))⟩
  have hpending : Sound { h with b := b', uintInputs := h.uintInputs ++ [(v, n)] } :=
    { hgrown with
      widths := fun u m hu w hw hr => hgrown.widths u m hu w hw (hranges w hr).1
      bounds := fun u m hu w hw hr => hgrown.bounds u m hu w hw (hranges w hr).1
      facts := fun id o x y hid => by
        obtain ⟨c, hc, hval⟩ := hgrown.facts id o x y hid
        exact ⟨c, hc, fun w hw hr => hval w hw (hranges w hr).1⟩
      uintInputs := fun u hu => by
        rcases List.mem_append.mp hu with hu | hu
        · exact hgrown.uintInputs u hu
        · rwa [List.mem_singleton.mp hu] }
  refine ⟨v, hid, rfl, hpending.newWire (below_ofVar.mpr hlt) (canonical_ofVar v) fun w _ hr => ?_, rfl, .of_emits he⟩
  rw [eval_ofVar]
  exact (hranges w hr).2

/-- **An input wider than a register** is in range; it is its two halves. -/
lemma inputUint_wide_spec {name : String} {vis : Visibility} (fakeGlv : FakeGlv) (hn : 64 < n) (hh : h.Sound)
    (hop : h.inputUint lcHash name vis n = .ok (out, h')) : ∃ (v : VarId) (hi : LinearCombination),
      v.val = h.b.nextVarId ∧ h'.wires = h.wires ++ [out] ∧ Canonical hi.terms ∧ h'.pendingHi = some hi ∧
      Performs fakeGlv h (fun w => (w v).val < 2 ^ n) h' fun _ w => (w v).val < 2 ^ n ∧
        out.eval w = (((w v).val % 2 ^ 64 : ℕ) : Fr) ∧
        hi.eval w = (((w v).val / 2 ^ 64 : ℕ) : Fr) := by
  obtain ⟨⟨v, b₁⟩, hv, hop⟩ := Outcome.bind_eq_ok.mp hop
  dsimp only at hop
  rw [if_pos hn] at hop
  obtain ⟨⟨bits, b'⟩, hbits, hop⟩ := Outcome.bind_eq_ok.mp hop
  obtain ⟨rfl, rfl⟩ := Prod.mk.inj (Except.ok.inj hop)
  obtain ⟨hb₁, hid, hlt, he⟩ := Builder.bindInput_spec hh.builder hv fakeGlv
  obtain ⟨hb', hbelow, hrange⟩ :=
    Builder.decomposeBits_spec hb₁ (below_ofVar.mpr hlt) hbits fakeGlv
  simp only [eval_ofVar] at hrange
  have hlo : (recompose (bits.take 64)).Below b'.nextVarId :=
    below_recompose fun l hl => hbelow l (List.mem_of_mem_take hl)
  have hhi : (recompose (bits.drop 64)).Below b'.nextVarId :=
    below_recompose fun l hl => hbelow l (List.mem_of_mem_drop hl)
  have hall := Performs.of_builder hh hb' (.of_emits (he.seq hrange
    (P := fun w => (w v).val < 2 ^ n) (Q := fun w => AreBits bits n (w v) w)
    (fun _ _ => True.intro) (fun _ hw _ _ => hw) fun _ _ _ hw => hw))
  have hpend : Performs fakeGlv h (fun w => (w v).val < 2 ^ n)
      { h with b := b', pendingHi := some (recompose (bits.drop 64)) }
      fun _ w => (w v).val < 2 ^ n ∧
        (recompose (bits.take 64)).eval w = (((w v).val % 2 ^ 64 : ℕ) : Fr) ∧
        (recompose (bits.drop 64)).eval w = (((w v).val / 2 ^ 64 : ℕ) : Fr) :=
    { sound := { hall.sound with
        pendingHi := fun l hl => by rwa [← Option.mem_some.mp hl] }
      arms := rfl
      wires := List.prefix_rfl
      inputs := rfl
      realizes := hall.realizes.weaken (fun _ _ hw => hw) fun _ w _ hw => by
        obtain ⟨hlow, hhigh⟩ := hw.split hn.le
        exact ⟨hw.1, recompose_of_areBits hlow, recompose_of_areBits hhigh⟩ }
  refine ⟨v, recompose (bits.drop 64), hid, rfl, canonical_recompose _, rfl,
    hpend.newWire hlo (canonical_recompose _) fun w _ _ hw => ?_⟩
  rw [hw.2.1, ZMod.val_natCast_of_lt ((Nat.mod_le _ _).trans_lt (ZMod.val_lt _))]
  exact Nat.mod_lt _ (by positivity)

end Host

end Frontend

end XarkCircuit
