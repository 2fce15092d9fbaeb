import XarkCircuit.Frontend.BuilderBits

/-!
Boolean operations and powers, and every sequence of emissions.

* `emitXor_spec` and `emitOr_spec`: the one solution of the row is that of the op.
* `emitPow_spec`: the power, by squaring.
* `Step` is one emission with operands that are allocated, and `Reached` any sequence of them. The
  invariant holds of `Reached` builders: `reached_sound`.
-/

namespace XarkCircuit

open Verifier (rModulus)

namespace Frontend

open LinearCombination Emission Emission.Emitter

namespace Builder

variable {b b' : Builder} {fakeGlv : FakeGlv} {lcHash : LinearCombination → ℕ}

lemma follows_xor (w : VarId → Fr) (v : VarId) (x y : LinearCombination) :
    Follows fakeGlv w (.xor v x y) ↔
      w v = x.eval w + y.eval w - (x.eval w * y.eval w + x.eval w * y.eval w) := by
  simp [Follows, execWitnessOp]

lemma follows_or (w : VarId → Fr) (v : VarId) (x y : LinearCombination) :
    Follows fakeGlv w (.or v x y) ↔ w v = x.eval w + y.eval w - x.eval w * y.eval w := by
  simp [Follows, execWitnessOp]

lemma IsBit.xor {x y : Fr} (hx : IsBit x) (hy : IsBit y) : IsBit (x + y - (x * y + x * y)) := by
  rcases hx with rfl | rfl
  · simpa using hy
  · convert hy.one_sub using 1
    ring

lemma IsBit.or {x y : Fr} (hx : IsBit x) (hy : IsBit y) : IsBit (x + y - x * y) := by
  rcases hx with rfl | rfl
  · simpa using hy
  · refine .inr ?_
    ring

/-! ### Boolean operations -/

/-- The output of an operation on known bits is known to be one. -/
def settle (b : Builder) (v : VarId) (x y : LinearCombination) : Builder :=
  if !b.witnessOnly && b.isBooleanLc x && b.isBooleanLc y then b.markBoolean v else b

/-- The shape of both operations: one row and one op for a new variable. -/
lemma boolOp_spec (hb : b.Sound) {x y c : LinearCombination} (hx : x.Below b.nextVarId)
    (hy : y.Below b.nextVarId) (hc : c.Below b.nextVarId) {v : VarId}
    (ha : Allocated ((b.consumePending x).consumePending y) v b')
    {op : WitnessGen LinearCombination VarId} {f : Fr → Fr → Fr}
    (hop : ∀ w, Follows fakeGlv w op → w v = f (x.eval w) (y.eval w))
    (hrow : ∀ w : VarId → Fr, c.eval w * y.eval w = (x + y - ofVar v).eval w ↔
      w v = f (x.eval w) (y.eval w))
    (hbit : ∀ s t : Fr, IsBit s → IsBit t → IsBit (f s t)) {b'' : Builder}
    (hb'' : settle ((b'.pushConstraint c y (x + y - ofVar v)).pushWitness (some op)) v x y = b'') :
    b''.Sound ∧ (ofVar v).Below b''.nextVarId ∧ Emission.Emits (emitter fakeGlv) (fun _ => True) b b''
      fun w => (ofVar v).eval w = f (x.eval w) (y.eval w) := by
  have hb₀ := (hb.consumePending x).consumePending y
  have hnext₀ : ((b.consumePending x).consumePending y).nextVarId = b.nextVarId := by
    rw [consumePending_nextVarId, consumePending_nextVarId]
  have hle : b.nextVarId ≤ b'.nextVarId := hnext₀ ▸ ha.appends.next_le
  have hout : (x + y - ofVar v).Below b'.nextVarId :=
    ((hx.mono hle).add (hy.mono hle)).sub (below_ofVar.mpr ha.lt)
  have hb₂ := (ha.sound.pushConstraint (hc.mono hle) (hy.mono hle) hout).pushWitness (some op)
  have happ := (appends_pushConstraint (l := c) (r := y) (o := x + y - ofVar v) ha.sound).trans
    (appends_pushWitness (some op))
  have hrows : ∀ w : VarId → Fr, (∀ r ∈ [b'.newRow c y (x + y - ofVar v)] ++ [], r.row.Sat w) ↔
      w v = f (x.eval w) (y.eval w) := by
    intro w
    rw [List.append_nil, List.forall_mem_singleton, sat_newRow, hrow]
  have hadds := ha.adds hb₀ happ (P := fun _ => True) hop (fun w w' hagree => by
    rw [hnext₀] at hagree
    rw [local_eval fakeGlv hx hagree, local_eval fakeGlv hy hagree]) (fun w _ => (hrows w).mp)
    fun w _ hH _ => (hrows w).mpr hH
  have hemits : Emission.Emits (emitter fakeGlv) (fun _ => True) b
      ((b'.pushConstraint c y (x + y - ofVar v)).pushWitness (some op))
      fun w => (ofVar v).eval w = f (x.eval w) (y.eval w) :=
    (emits_consumePending hb fakeGlv).seq ((emits_consumePending (hb.consumePending x) fakeGlv).seq
      ⟨_, hadds⟩ (fun _ h => h) (fun _ h _ _ => h) fun _ _ _ h => h) (fun _ h => h)
      (fun _ h _ _ => h) fun w _ _ h => (eval_ofVar v w).trans h
  have hbelow : (ofVar v).Below
      ((b'.pushConstraint c y (x + y - ofVar v)).pushWitness (some op)).nextVarId := by
    have hnext : ((b'.pushConstraint c y (x + y - ofVar v)).pushWitness (some op)).nextVarId
        = b'.nextVarId := pushConstraint_nextVarId ha.sound
    rw [hnext]
    exact below_ofVar.mpr ha.lt
  subst hb''
  rw [settle]
  split_ifs with hknown
  · simp only [Bool.and_eq_true] at hknown
    refine ⟨hb₂.markBoolean fun w hw => ?_, hbelow, ?_⟩
    · rw [← eval_ofVar v w, hemits.post hw]
      exact hbit _ _ (hb₂.isBooleanLc hknown.1.2 hw) (hb₂.isBooleanLc hknown.2 hw)
    · exact hemits.seq ((appends_markBoolean v).emits_rows hb₂ (Q := fun _ => True)
        fun w => by simp) (fun _ h => h) (fun _ h _ _ => h) fun _ _ h _ => h
  · exact ⟨hb₂, hbelow, hemits⟩

/-- **Exclusive or.** -/
lemma emitXor_spec (hb : b.Sound) {x y out : LinearCombination} (hx : x.Below b.nextVarId)
    (hy : y.Below b.nextVarId) (h : b.emitXor x y = .ok (out, b')) (fakeGlv : FakeGlv) :
    b'.Sound ∧ out.Below b'.nextVarId ∧ Emission.Emits (emitter fakeGlv) (fun _ => True) b b'
      fun w => out.eval w = x.eval w + y.eval w - (x.eval w * y.eval w + x.eval w * y.eval w) := by
  obtain ⟨⟨v, b₁⟩, h₁, h⟩ := Outcome.bind_eq_ok.mp h
  obtain ⟨rfl, rfl⟩ := Prod.mk.inj (Except.ok.inj h)
  have ha := ((hb.consumePending x).consumePending y).alloc h₁
  have hrow : ∀ w : VarId → Fr, (x.scale 2).eval w * y.eval w = (x + y - ofVar v).eval w ↔
      w v = x.eval w + y.eval w - (x.eval w * y.eval w + x.eval w * y.eval w) := by
    intro w
    rw [eval_scale, eval_sub, eval_add, eval_ofVar]
    push_cast
    constructor <;> intro h <;> linear_combination h
  exact boolOp_spec (f := fun s t => s + t - (s * t + s * t)) hb hx hy (hx.scale 2) ha
    (fun w => (follows_xor w v x y).mp) hrow (fun _ _ => IsBit.xor) rfl

/-- **Or.** -/
lemma emitOr_spec (hb : b.Sound) {x y out : LinearCombination} (hx : x.Below b.nextVarId)
    (hy : y.Below b.nextVarId) (h : b.emitOr x y = .ok (out, b')) (fakeGlv : FakeGlv) :
    b'.Sound ∧ out.Below b'.nextVarId ∧ Emission.Emits (emitter fakeGlv) (fun _ => True) b b'
      fun w => out.eval w = x.eval w + y.eval w - x.eval w * y.eval w := by
  obtain ⟨⟨v, b₁⟩, h₁, h⟩ := Outcome.bind_eq_ok.mp h
  obtain ⟨rfl, rfl⟩ := Prod.mk.inj (Except.ok.inj h)
  have ha := ((hb.consumePending x).consumePending y).alloc h₁
  have hrow : ∀ w : VarId → Fr, x.eval w * y.eval w = (x + y - ofVar v).eval w ↔
      w v = x.eval w + y.eval w - x.eval w * y.eval w := by
    intro w
    rw [eval_sub, eval_add, eval_ofVar]
    constructor <;> intro h <;> linear_combination h
  exact boolOp_spec (f := fun s t => s + t - s * t) hb hx hy hx ha
    (fun w => (follows_or w v x y).mp) hrow (fun _ _ => IsBit.or) rfl

/-! ### Powers -/

/-- The value of a result, one where there is none. -/
def orOne (l : Option LinearCombination) (w : VarId → Fr) : Fr := l.elim 1 fun l => l.eval w

/-- What one turn of the loop does to the result. -/
def powMul (lcHash : LinearCombination → ℕ) (e : ℕ) (result : Option LinearCombination)
    (base : LinearCombination) (b : Builder) : Outcome (Option LinearCombination × Builder) :=
  if e % 2 = 1 then
    match result with
    | none => .ok (some base, b)
    | some r => do
        let (r, b) ← ((b.consumePending r).consumePending base).emitMul lcHash r base
        return (some r, b)
  else .ok (result, b)

lemma powLoop_succ {fuel e : ℕ} (he : e ≠ 0) (result : Option LinearCombination)
    (base : LinearCombination) (b : Builder) : powLoop lcHash (fuel + 1) e result base b
      = powMul lcHash e result base b >>= fun r =>
        if 0 < e / 2 then (r.2.consumePending base).emitMul lcHash base base >>= fun s =>
          powLoop lcHash fuel (e / 2) r.1 s.1 s.2
        else powLoop lcHash fuel (e / 2) r.1 base r.2 := by
  rw [powLoop, if_neg he, powMul.eq_def]
  by_cases hodd : e % 2 = 1
  · rw [if_pos hodd, if_pos hodd]
    cases result with
    | none => rfl
    | some r =>
        dsimp only
        cases ((b.consumePending r).consumePending base).emitMul lcHash r base with
        | error e => rfl
        | ok s => rfl
  · rw [if_neg hodd, if_neg hodd]
    rfl

/-- One turn of the loop multiplies the result by the base, where the bit is set. -/
lemma powMul_spec (hb : b.Sound) {result out : Option LinearCombination} {base : LinearCombination}
    (hr : ∀ l ∈ result, l.Below b.nextVarId) (hbase : base.Below b.nextVarId) {e : ℕ}
    (h : powMul lcHash e result base b = .ok (out, b')) (fakeGlv : FakeGlv) : b'.Sound ∧ (∀ l ∈ out, l.Below b'.nextVarId) ∧
      Emission.Emits (emitter fakeGlv) (fun _ => True) b b'
        fun w => orOne out w = orOne result w * base.eval w ^ (e % 2) := by
  rw [powMul.eq_def] at h
  split_ifs at h with hodd
  · rw [hodd]
    cases result with
    | none =>
        obtain ⟨rfl, rfl⟩ := Prod.mk.inj (Except.ok.inj h)
        refine ⟨hb, fun l hl => Option.some.inj hl ▸ hbase,
          (Emission.Emits.refl b).weaken (fun _ _ h => h) fun w _ _ => ?_⟩
        simp [orOne]
    | some r =>
        obtain ⟨⟨r', b₁⟩, h₁, h⟩ := Outcome.bind_eq_ok.mp h
        obtain ⟨rfl, rfl⟩ := Prod.mk.inj (Except.ok.inj h)
        have hnext : ((b.consumePending r).consumePending base).nextVarId = b.nextVarId := by
          rw [consumePending_nextVarId, consumePending_nextVarId]
        obtain ⟨hb₁, hr', he⟩ := emitMul_spec ((hb.consumePending r).consumePending base)
          (hnext ▸ hr r rfl) (hnext ▸ hbase) h₁ fakeGlv
        refine ⟨hb₁, fun l hl => Option.some.inj hl ▸ hr', ?_⟩
        refine (emits_consumePending hb fakeGlv).seq ((emits_consumePending (hb.consumePending r)
          fakeGlv).seq he (fun _ h => h) (fun _ h _ _ => h) fun _ _ _ h => h) (fun _ h => h)
          (fun _ h _ _ => h) fun w _ _ h => ?_
        rw [pow_one]
        exact h
  · obtain ⟨rfl, rfl⟩ := Prod.mk.inj (Except.ok.inj h)
    refine ⟨hb, hr, (Emission.Emits.refl b).weaken (fun _ _ h => h) fun w _ _ => ?_⟩
    rw [Nat.mod_two_ne_one.mp hodd, pow_zero, mul_one]

/-- The loop multiplies its result by the power. -/
lemma powLoop_spec (hb : b.Sound) {fuel e : ℕ} (hfuel : e ≤ fuel)
    {result out : Option LinearCombination} {base : LinearCombination}
    (hr : ∀ l ∈ result, l.Below b.nextVarId) (hbase : base.Below b.nextVarId)
    (h : powLoop lcHash fuel e result base b = .ok (out, b')) (fakeGlv : FakeGlv) :
    b'.Sound ∧ (∀ l ∈ out, l.Below b'.nextVarId) ∧ Emission.Emits (emitter fakeGlv) (fun _ => True) b b'
      fun w => orOne out w = orOne result w * base.eval w ^ e := by
  induction fuel generalizing b e result base with
  | zero =>
      obtain rfl := Nat.le_zero.mp hfuel
      obtain ⟨rfl, rfl⟩ := Prod.mk.inj (Except.ok.inj h)
      refine ⟨hb, hr, (Emission.Emits.refl b).weaken (fun _ _ h => h) fun w _ _ => ?_⟩
      rw [pow_zero, mul_one]
  | succ fuel ih =>
      by_cases he0 : e = 0
      · subst he0
        obtain ⟨rfl, rfl⟩ := Prod.mk.inj (Except.ok.inj h)
        refine ⟨hb, hr, (Emission.Emits.refl b).weaken (fun _ _ h => h) fun w _ _ => ?_⟩
        rw [pow_zero, mul_one]
      rw [powLoop_succ he0] at h
      obtain ⟨⟨r, b₁⟩, h₁, h⟩ := Outcome.bind_eq_ok.mp h
      obtain ⟨hb₁, hr₁, e₁⟩ := powMul_spec hb hr hbase h₁ fakeGlv
      have hbase₁ := hbase.mono e₁.next_le
      have hhalf : e / 2 ≤ fuel := by omega
      -- the exponent is its low bit and twice its half
      have hpow : ∀ x : Fr, x ^ (e % 2) * (x * x) ^ (e / 2) = x ^ e := by
        intro x
        rw [← pow_two, ← pow_mul, ← pow_add, Nat.mod_add_div]
      dsimp only at h
      split_ifs at h with hpos
      · obtain ⟨⟨sq, b₂⟩, h₂, h⟩ := Outcome.bind_eq_ok.mp h
        have hnext : (b₁.consumePending base).nextVarId = b₁.nextVarId := consumePending_nextVarId
        obtain ⟨hb₂, hsq, e₂⟩ := emitMul_spec (hb₁.consumePending base) (hnext ▸ hbase₁)
          (hnext ▸ hbase₁) h₂ fakeGlv
        have hle₂ : b₁.nextVarId ≤ b₂.nextVarId := hnext ▸ e₂.next_le
        obtain ⟨hb', hout, e₃⟩ := ih hb₂ hhalf (fun l hl => (hr₁ l hl).mono hle₂) hsq h
        have hsquare := (emits_consumePending hb₁ fakeGlv).seq e₂ (fun _ h => h)
          (fun _ h _ _ => h) fun _ _ _ h => h
        have hrest := hsquare.seq e₃ (Q := fun w => orOne out w
            = orOne r w * (base.eval w * base.eval w) ^ (e / 2)) (fun _ h => h)
          (fun _ h _ _ => h) fun w _ hsq hout => by rw [hout, hsq]
        refine ⟨hb', hout, e₁.seq hrest (fun _ h => h) (fun _ h _ _ => h) fun w _ hr hout => ?_⟩
        rw [hout, hr, mul_assoc, hpow]
      · obtain ⟨hb', hout, e₂⟩ := ih hb₁ hhalf hr₁ hbase₁ h
        refine ⟨hb', hout, e₁.seq e₂ (fun _ h => h) (fun _ h _ _ => h) fun w _ hr hout => ?_⟩
        have hzero : e / 2 = 0 := by omega
        have hone : e = e % 2 := by omega
        rw [hout, hr, hzero, pow_zero, mul_one, ← hone]

/-- **A power**, by squaring. -/
lemma emitPow_spec (hb : b.Sound) {base out : LinearCombination} (hbase : base.Below b.nextVarId)
    {n : ℕ} (h : b.emitPow lcHash base n = .ok (out, b')) (fakeGlv : FakeGlv) :
    b'.Sound ∧ out.Below b'.nextVarId ∧ Emission.Emits (emitter fakeGlv) (fun _ => True) b b'
      fun w => out.eval w = base.eval w ^ n := by
  unfold emitPow at h
  split at h
  · obtain ⟨rfl, rfl⟩ := Prod.mk.inj (Except.ok.inj h)
    refine ⟨hb, Below.one, (Emission.Emits.refl b).weaken (fun _ _ h => h) fun w _ _ => ?_⟩
    rw [pow_zero, eval_one]
  · obtain ⟨rfl, rfl⟩ := Prod.mk.inj (Except.ok.inj h)
    exact ⟨hb, hbase, (Emission.Emits.refl b).weaken (fun _ _ h => h) fun w _ _ => (pow_one _).symm⟩
  · obtain ⟨hb', hout, he⟩ := emitMul_spec hb hbase hbase h fakeGlv
    exact ⟨hb', hout, he.weaken (fun _ _ h => h) fun w _ hw => hw.trans (pow_two _).symm⟩
  · obtain ⟨⟨sq, b₁⟩, h₁, h⟩ := Outcome.bind_eq_ok.mp h
    obtain ⟨hb₁, hsq, e₁⟩ := emitMul_spec hb hbase hbase h₁ fakeGlv
    have hnext : (b₁.consumePending sq).nextVarId = b₁.nextVarId := consumePending_nextVarId
    obtain ⟨hb', hout, e₂⟩ := emitMul_spec (hb₁.consumePending sq) (hnext ▸ hsq)
      (hnext ▸ hbase.mono e₁.next_le) h fakeGlv
    have hcube := (emits_consumePending hb₁ fakeGlv).seq e₂ (fun _ h => h) (fun _ h _ _ => h)
      fun _ _ _ h => h
    refine ⟨hb', hout, e₁.seq hcube (fun _ h => h) (fun _ h _ _ => h) fun w _ hsq hout => ?_⟩
    rw [hout, hsq, ← pow_two, ← pow_succ]
  · obtain ⟨⟨r, b₁⟩, h₁, h⟩ := Outcome.bind_eq_ok.mp h
    obtain ⟨l, hl, h⟩ := Outcome.bind_eq_ok.mp h
    obtain ⟨rfl, rfl⟩ := Prod.mk.inj (Except.ok.inj h)
    obtain ⟨hb', hout, he⟩ := powLoop_spec hb le_rfl (fun l hl => by cases hl) hbase h₁ fakeGlv
    obtain rfl : r = some l := by
      cases r with
      | none => cases hl
      | some r => rw [Except.ok.inj hl]
    exact ⟨hb', hout l rfl, he.weaken (fun _ _ h => h) fun w _ hw => hw.trans (one_mul _)⟩

/-! ### Any sequence of emissions -/

lemma Sound.new (cse : Bool) (matThreshold : ℕ) : (Builder.new cse matThreshold).Sound where
  deferred_row := fun _ hd => absurd hd List.not_mem_nil
  deferred_slot := fun _ hd => absurd hd List.not_mem_nil
  deferred_below := fun _ hd => absurd hd List.not_mem_nil
  deferred_once := List.Pairwise.nil
  pending_row := fun _ _ _ hv => by cases hv
  pending_deferred := fun _ _ _ hv => by cases hv
  merged_deferred := fun _ hm => absurd hm List.not_mem_nil
  merged_once := List.nodup_nil
  active := rfl
  row_below := fun _ hc => absurd hc List.not_mem_nil
  product_row := fun _ _ _ hkey => by cases hkey
  bits_below := fun _ _ htop => by cases htop
  boolean := fun _ _ _ hv => by cases hv
  bits := fun _ _ _ _ htop => by cases htop
  bits_form := fun _ _ htop => by cases htop

lemma Sound.bindInput (hb : b.Sound) {name : String} {vis : Visibility} {v : VarId}
    (h : b.bindInput name vis = .ok (v, b')) : b'.Sound := by
  obtain ⟨⟨u, b₁⟩, h₁, h⟩ := Outcome.bind_eq_ok.mp h
  obtain ⟨rfl, rfl⟩ := Prod.mk.inj (Except.ok.inj h)
  have hb₁ := (hb.alloc h₁).sound
  exact ⟨⟨hb₁.deferred_row, hb₁.deferred_slot, hb₁.deferred_below, hb₁.deferred_once,
    hb₁.pending_row, hb₁.pending_deferred, hb₁.merged_deferred, hb₁.merged_once⟩, hb₁.active,
    hb₁.row_below, hb₁.product_row, hb₁.bits_below, hb₁.boolean, hb₁.bits,
    hb₁.bits_form⟩

lemma bindInput_spec (hb : b.Sound) {name : String} {vis : Visibility} {v : VarId}
    (h : b.bindInput name vis = .ok (v, b')) (fakeGlv : FakeGlv) : b'.Sound ∧ v.val = b.nextVarId ∧
      v.val < b'.nextVarId ∧ Emission.Emits (emitter fakeGlv) (fun _ => True) b b' fun _ => True := by
  have hb' := hb.bindInput h
  obtain ⟨⟨u, b₁⟩, h₁, h⟩ := Outcome.bind_eq_ok.mp h
  obtain ⟨rfl, rfl⟩ := Prod.mk.inj (Except.ok.inj h)
  have ha := hb.alloc h₁
  have happ : Appends b { b₁ with inputIds := b₁.inputIds ++ [u] } [] [] [] :=
    ⟨ha.appends.constraints, ha.appends.witnessGen, ha.appends.deferredProducts, ha.appends.merged,
      ha.appends.next_le, ha.appends.active⟩
  exact ⟨hb', ha.val_eq, ha.lt, happ.emits_rows hb fun w => by simp⟩

lemma Sound.emitBooleanity (hb : b.Sound) {v : VarId} (hv : v.val < b.nextVarId) :
    (b.emitBooleanity v).Sound := by
  have hvar : (ofVar v).Below b.nextVarId := below_ofVar.mpr hv
  have hb₁ := hb.pushConstraint hvar hvar hvar
  rw [Builder.emitBooleanity, if_neg (by rw [hb₁.active]; exact Bool.false_ne_true)]
  refine hb₁.markBoolean fun w hw => isBit_of_mul_self ?_
  simpa using ((sat_pushConstraint hb w).mp hw).2

/-- One emission, with operands over allocated variables. -/
inductive Step (lcHash : LinearCombination → ℕ) (b : Builder) : Builder → Prop
  | allocVar {name vis v b'} : b.allocVar name vis = .ok (v, b') → Step lcHash b b'
  | bindInput {name vis v b'} : b.bindInput name vis = .ok (v, b') → Step lcHash b b'
  | pushConstraint {l r o} : l.Below b.nextVarId → r.Below b.nextVarId → o.Below b.nextVarId →
      Step lcHash b (b.pushConstraint l r o)
  | pushWitness (op) : Step lcHash b (b.pushWitness op)
  | consumePending (l) : Step lcHash b (b.consumePending l)
  | emitMul {l r out b'} : l.Below b.nextVarId → r.Below b.nextVarId →
      b.emitMul lcHash l r = .ok (out, b') → Step lcHash b b'
  | emitRequireEq {l r b'} : l.Below b.nextVarId → r.Below b.nextVarId →
      b.emitRequireEq l r = .ok b' → Step lcHash b b'
  | emitRequireEqGated {g l r} : g.Below b.nextVarId → l.Below b.nextVarId → r.Below b.nextVarId →
      Step lcHash b (b.emitRequireEqGated g l r)
  | emitXor {x y out b'} : x.Below b.nextVarId → y.Below b.nextVarId →
      b.emitXor x y = .ok (out, b') → Step lcHash b b'
  | emitOr {x y out b'} : x.Below b.nextVarId → y.Below b.nextVarId →
      b.emitOr x y = .ok (out, b') → Step lcHash b b'
  | emitPow {base out b'} {n : ℕ} : base.Below b.nextVarId →
      b.emitPow lcHash base n = .ok (out, b') → Step lcHash b b'
  | emitIsZero {x out b'} : x.Below b.nextVarId →
      b.emitIsZero lcHash x = .ok (out, b') → Step lcHash b b'
  | emitBooleanity {v : VarId} : v.val < b.nextVarId → Step lcHash b (b.emitBooleanity v)
  | decomposeBits {x bits b'} {n : ℕ} {gate : Option LinearCombination} : x.Below b.nextVarId →
      (∀ g ∈ gate, g.Below b.nextVarId) →
      b.decomposeBitsGated lcHash x n gate = .ok (bits, b') → Step lcHash b b'
  | emitLessThan {x y out b'} {n : ℕ} {gate : Option LinearCombination} : x.Below b.nextVarId →
      y.Below b.nextVarId → (∀ g ∈ gate, g.Below b.nextVarId) →
      b.emitLessThanGated lcHash n x y gate = .ok (.ok (out, b')) → Step lcHash b b'
  | emitWrappingSub {x y out b'} {n : ℕ} : n ≤ 252 → x.Below b.nextVarId → y.Below b.nextVarId →
      b.emitWrappingSub lcHash n x y = .ok (out, b') → Step lcHash b b'

/-- **One emission** keeps the invariant. -/
lemma Step.sound (h : Step lcHash b b') (hb : b.Sound) : b'.Sound := by
  -- the invariant does not depend on the decomposition of the hints
  let fakeGlv : FakeGlv := fun _ _ _ => none
  cases h with
  | allocVar h => exact (hb.alloc h).sound
  | bindInput h => exact hb.bindInput h
  | pushConstraint hl hr ho => exact hb.pushConstraint hl hr ho
  | pushWitness op => exact hb.pushWitness op
  | consumePending l => exact hb.consumePending l
  | emitMul hl hr h => exact (emitMul_spec hb hl hr h fakeGlv).1
  | emitRequireEq hl hr h => exact (emitRequireEq_spec hb hl hr h fakeGlv).1
  | emitRequireEqGated hg hl hr => exact (emitRequireEqGated_spec hb hg hl hr fakeGlv).1
  | emitXor hx hy h => exact (emitXor_spec hb hx hy h fakeGlv).1
  | emitOr hx hy h => exact (emitOr_spec hb hx hy h fakeGlv).1
  | emitPow hbase h => exact (emitPow_spec hb hbase h fakeGlv).1
  | emitIsZero hx h => exact (emitIsZero_spec hb hx h fakeGlv).1
  | emitBooleanity hv => exact hb.emitBooleanity hv
  | decomposeBits hx hg h => exact (decomposeBitsGated_spec hb hx hg h fakeGlv).1
  | emitLessThan hx hy hg h => exact (emitLessThanGated_spec hb hx hy hg h fakeGlv).1
  | emitWrappingSub hn hx hy h => exact (emitWrappingSub_spec hb hx hy hn h fakeGlv).1

/-- The builders that sequences of emissions reach. -/
def Reached (lcHash : LinearCombination → ℕ) (b : Builder) : Prop :=
  ∃ cse matThreshold, Relation.ReflTransGen (Step lcHash) (Builder.new cse matThreshold) b

lemma Reached.sound (h : Reached lcHash b) : b.Sound := by
  obtain ⟨cse, matThreshold, hsteps⟩ := h
  induction hsteps with
  | refl => exact Sound.new cse matThreshold
  | tail _ hstep ih => exact hstep.sound ih

end Builder

end Frontend

end XarkCircuit
