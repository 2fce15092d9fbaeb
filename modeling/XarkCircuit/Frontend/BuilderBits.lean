import XarkCircuit.Frontend.BuilderRows
import XarkCircuit.Lib.ZModBits

/-!
Decompositions, comparisons and tests for zero.

* `decomposeBits_spec`: the rows say that the bits are those of the value, which is in range.
* `emitLessThan_spec` and `emitWrappingSub_spec`: the borrow of a difference.
* `emitIsZero_spec`: one at zero, and zero elsewhere.
-/

namespace XarkCircuit

open Verifier (rModulus)

namespace Frontend

open LinearCombination Emission Emission.Emitter

lemma two_pow_le_rModulus {n : ℕ} (hn : n ≤ 253) : 2 ^ n ≤ rModulus :=
  (Nat.pow_le_pow_right (by norm_num) hn).trans (by norm_num [rModulus])

/-- The bits of `x`, of which there are `n`. -/
def bitList (n : ℕ) (x : Fr) : List Fr := (List.range n).map fun i => Bits.bitOf x.val i

/-- The values of combinations. -/
def values (ls : List LinearCombination) (w : VarId → Fr) : List Fr := ls.map fun l => l.eval w

/-- `n` bits, the lowest first, that are those of `x`. -/
def AreBits (bits : List LinearCombination) (n : ℕ) (x : Fr) (w : VarId → Fr) : Prop :=
  x.val < 2 ^ n ∧ values bits w = bitList n x

namespace Builder

variable {b b' : Builder} {fakeGlv : FakeGlv} {lcHash : LinearCombination → ℕ}

/-! ### Several new variables -/

lemma fillable_vars {n m : ℕ} {vs : List VarId} (hvs : vs.map Fin.val = List.range' n m)
    {f : (VarId → Fr) → ℕ → Fr} (hf : ∀ w w', (emitter fakeGlv).Agree n w w' → f w' = f w) :
    (emitter fakeGlv).Fillable n fun w => vs.map w = (List.range m).map (f w) := by
  intro w
  let w' : VarId → Fr := fun u => if u.val < n then w u else f w (u.val - n)
  have hagree : (emitter fakeGlv).Agree n w w' := fun u hu => if_pos hu
  refine ⟨w', hagree, ?_⟩
  change vs.map w' = (List.range m).map (f w')
  rw [hf w w' hagree]
  have hvalue : vs.map w' = vs.map ((fun j => f w (j - n)) ∘ Fin.val) := by
    refine List.map_congr_left fun u hu => if_neg ?_
    have hmem : u.val ∈ List.range' n m := hvs ▸ List.mem_map_of_mem hu
    exact not_lt.mpr (List.mem_range'_1.mp hmem).1
  rw [hvalue, ← List.map_map, hvs, List.range'_eq_map_range, List.map_map]
  exact List.map_congr_left fun k _ => congrArg (f w) (Nat.add_sub_cancel_left n k)

lemma local_vars {n m : ℕ} {vs : List VarId} (hvs : vs.map Fin.val = List.range' n m)
    {f : (VarId → Fr) → ℕ → Fr} (hf : ∀ w w', (emitter fakeGlv).Agree n w w' → f w' = f w) :
    (emitter fakeGlv).Local (n + m) fun w => vs.map w = (List.range m).map (f w) := by
  intro w w' hagree
  have hmap : vs.map w' = vs.map w := by
    refine List.map_congr_left fun u hu => hagree u ?_
    have hmem : u.val ∈ List.range' n m := hvs ▸ List.mem_map_of_mem hu
    exact (List.mem_range'_1.mp hmem).2
  change vs.map w' = (List.range m).map (f w') ↔ vs.map w = (List.range m).map (f w)
  rw [hmap, hf w w' (hagree.mono (Nat.le_add_right n m))]

lemma allocBits_spec (hb : b.Sound) {m : ℕ} {vs : List VarId} (h : allocBits m b = .ok (vs, b')) :
    b'.Sound ∧ Appends b b' [] [] [] ∧ vs.map Fin.val = List.range' b.nextVarId m ∧
      b'.nextVarId = b.nextVarId + m := by
  induction m generalizing b vs with
  | zero =>
      obtain ⟨rfl, rfl⟩ := Prod.mk.inj (Except.ok.inj h)
      refine ⟨hb, ?_, rfl, rfl⟩
      exact ⟨(List.append_nil _).symm, (List.append_nil _).symm, (List.append_nil _).symm, rfl,
        le_rfl, rfl⟩
  | succ m ih =>
      obtain ⟨⟨v, b₁⟩, h₁, h⟩ := Outcome.bind_eq_ok.mp h
      obtain ⟨⟨vs', b₂⟩, h₂, h⟩ := Outcome.bind_eq_ok.mp h
      obtain ⟨rfl, rfl⟩ := Prod.mk.inj (Except.ok.inj h)
      have halloc := hb.alloc h₁
      obtain ⟨hb₂, happ, hvs, hnext⟩ := ih halloc.sound h₂
      refine ⟨hb₂, halloc.appends.trans happ, ?_, ?_⟩
      · rw [List.map_cons, hvs, halloc.val_eq, halloc.next_eq]
        rfl
      · rw [hnext, halloc.next_eq]
        omega

/-! ### Decompositions -/

/-- What the bits' hints and rows are. -/
lemma pushBits_spec (fakeGlv : FakeGlv) (hb : b.Sound) {value : LinearCombination} {vs : List VarId}
    (hvs : ∀ v ∈ vs, v.val < b.nextVarId) {i : ℕ} {pow : FieldConst} {sum sum' : LinearCombination}
    (hsum : sum.Below b.nextVarId) (h : pushBits value i vs pow sum b = .ok (sum', b')) :
    b'.Sound ∧ b'.nextVarId = b.nextVarId ∧ sum'.Below b.nextVarId ∧
      (∀ w : VarId → Fr, sum'.eval w = sum.eval w +
        ∑ k ∈ Finset.range vs.length, (vs.map w).getD k 0 * ((pow : Fr) * 2 ^ (k + 1))) ∧
      ∃ rows ops, Appends b b' rows ops [] ∧
        (∀ w : VarId → Fr, (∀ c ∈ rows, c.row.Sat w) ↔ ∀ v ∈ vs, w v * w v = w v) ∧
        ∀ w, (∀ op, some op ∈ ops → Follows fakeGlv w op) →
          vs.map w = (List.range vs.length).map fun k => Bits.bitOf (value.eval w).val (i + k + 1) := by
  induction vs generalizing i pow sum b with
  | nil =>
      obtain ⟨rfl, rfl⟩ := Prod.mk.inj (Except.ok.inj h)
      refine ⟨hb, rfl, hsum, fun w => by simp, [], [], ?_, fun w => by simp, fun w _ => rfl⟩
      exact ⟨(List.append_nil _).symm, (List.append_nil _).symm, (List.append_nil _).symm, rfl,
        le_rfl, rfl⟩
  | cons v vs ih =>
      rw [pushBits] at h
      obtain ⟨index, hindex, h⟩ := Outcome.bind_eq_ok.mp h
      have hi : index.val = i + 1 := by
        split_ifs at hindex with hlt
        · exact congrArg Fin.val (Except.ok.inj hindex).symm
        · cases hindex
      have hv : (ofVar v).Below b.nextVarId := below_ofVar.mpr (hvs v List.mem_cons_self)
      have hb₁ := hb.pushWitness (some (.bit v value index))
      have hb₂ : ((b.pushWitness (some (.bit v value index))).pushConstraint (ofVar v) (ofVar v)
          (ofVar v)).Sound := hb₁.pushConstraint hv hv hv
      have hnext : ((b.pushWitness (some (.bit v value index))).pushConstraint (ofVar v) (ofVar v)
          (ofVar v)).nextVarId = b.nextVarId := pushConstraint_nextVarId hb₁
      have hhead := (appends_pushWitness (b := b) (some (.bit v value index))).trans
        (appends_pushConstraint (l := ofVar v) (r := ofVar v) (o := ofVar v) hb₁)
      obtain ⟨hb', hnext', hsum', heval, rows, ops, happ, hrows, hops⟩ := ih hb₂
        (fun u hu => hnext ▸ hvs u (List.mem_cons_of_mem v hu)) (hnext ▸ hsum.add (hv.scale _)) h
      rw [hnext] at hnext' hsum'
      refine ⟨hb', hnext', hsum', fun w => ?_, _, _, hhead.trans happ, fun w => ?_, fun w hw => ?_⟩
      · rw [heval, List.length_cons, Finset.sum_range_succ', eval_add, eval_scale, eval_ofVar]
        simp only [List.map_cons, List.getD_cons_succ, List.getD_cons_zero]
        push_cast
        rw [add_assoc, add_comm (w v * _)]
        refine congrArg (sum.eval w + ·) (congrArg₂ (· + ·) (Finset.sum_congr rfl fun k _ => ?_) ?_)
        · ring
        · ring
      · rw [List.nil_append, List.forall_mem_append, List.forall_mem_singleton, sat_newRow,
          List.forall_mem_cons, hrows]
        simp only [eval_ofVar]
      · have hbit := (follows_bit fakeGlv w v index).mp (hw (.bit v value index) (by simp))
        have hrest := hops w fun op hop => hw op (by simp [hop])
        rw [List.map_cons, hrest, List.length_cons, List.range_succ_eq_map, List.map_cons,
          List.map_map, hbit, hi]
        refine congrArg₂ List.cons rfl (List.map_congr_left fun k _ => ?_)
        change Bits.bitOf _ _ = Bits.bitOf _ _
        congr 1
        omega

/-- The weights are positive. -/
lemma pushBits_lt {value : LinearCombination} {vs : List VarId} {i : ℕ} {pow : FieldConst}
    {sum sum' : LinearCombination} (hpow : 0 < pow)
    (h : pushBits value i vs pow sum b = .ok (sum', b')) (x : VarId → ℤ) (hx : ∀ v, 0 ≤ x v) :
    sum.eval x ≤ sum'.eval x ∧ ((∃ v ∈ vs, 0 < x v) → sum.eval x < sum'.eval x) ∧
      ((∀ v ∈ vs, x v = 0) → sum'.eval x = sum.eval x) := by
  induction vs generalizing i pow sum b with
  | nil =>
      obtain ⟨rfl, rfl⟩ := Prod.mk.inj (Except.ok.inj h)
      exact ⟨le_rfl, fun ⟨v, hv, _⟩ => absurd hv List.not_mem_nil, fun _ => rfl⟩
  | cons v vs ih =>
      rw [pushBits] at h
      obtain ⟨index, -, h⟩ := Outcome.bind_eq_ok.mp h
      obtain ⟨hle, hlt, heq⟩ := ih (by positivity) h
      have hstep : (sum + (ofVar v).scale (pow * 2)).eval x = sum.eval x + pow * 2 * x v := by
        rw [eval_add, eval_scale, eval_ofVar, Int.cast_id, mul_comm]
      rw [hstep] at hle hlt heq
      have hterm : (0 : ℤ) ≤ pow * 2 * x v := mul_nonneg (by positivity) (hx v)
      refine ⟨by omega, fun ⟨u, hu, hxu⟩ => ?_, fun hzero => ?_⟩
      · rcases List.mem_cons.mp hu with rfl | hu
        · have hpos : (0 : ℤ) < pow * 2 * x u := mul_pos (by positivity) hxu
          omega
        · have hrest := hlt ⟨u, hu, hxu⟩
          omega
      · rw [heq fun u hu => hzero u (List.mem_cons_of_mem v hu), hzero v List.mem_cons_self, mul_zero,
          add_zero]

/-- A combination that decreases in its largest variable has a negative last term. -/
lemma lead_neg {l : LinearCombination} (hl : Canonical l.terms) {v : VarId}
    (hmax : ∀ u ∈ l.vars, u ≤ v)
    (hlt : l.eval (Function.update (0 : VarId → ℤ) v 1) < l.eval (0 : VarId → ℤ)) :
    ∀ t ∈ l.terms.getLast?, t.coeff < 0 := by
  intro t ht
  obtain ⟨ts, hts⟩ := List.getLast?_eq_some_iff.mp ht
  have hvar : ∀ s ∈ ts, s.var < t.var := by
    intro s hs
    have hpair := hl.1
    rw [hts] at hpair
    exact (List.pairwise_append.mp hpair).2.2 s hs t (List.mem_singleton_self t)
  have htv : t.var = v := by
    by_contra hne
    have hless : t.var < v := lt_of_le_of_ne (hmax t.var (List.mem_map_of_mem (List.mem_of_mem_getLast? ht))) hne
    refine absurd hlt (not_lt.mpr (le_of_eq (l.eval_congr fun u hu => ?_)))
    have huv : u ≠ v := by
      obtain ⟨s, hs, rfl⟩ := List.mem_map.mp hu
      rw [hts] at hs
      rcases List.mem_append.mp hs with hs | hs
      · exact ((hvar s hs).trans hless).ne
      · rw [List.mem_singleton.mp hs]
        exact hne
    rw [Function.update_of_ne huv]
  have hinit : evalTerms ts (Function.update (0 : VarId → ℤ) v 1) = evalTerms ts (0 : VarId → ℤ) := by
    refine congrArg List.sum (List.map_congr_left fun s hs => ?_)
    rw [Function.update_of_ne (htv ▸ (hvar s hs).ne)]
  rw [eval, eval, hts, evalTerms_append, evalTerms_append, hinit, evalTerms_cons, evalTerms_cons, htv,
    Function.update_self] at hlt
  simpa using hlt

/-- The low bit is what the others leave: the top bit is taken off. -/
lemma form_low {value sum : LinearCombination} {b₁ b₂ : Builder} {n : ℕ} {vs : List VarId} {top : VarId}
    (hv : value.Below n) (hvs : vs.map Fin.val = List.range' n vs.length)
    (htop : vs.getLast? = some top) (hsum : sum.Below (n + vs.length))
    (h : pushBits value 0 vs 1 zero b₁ = .ok (sum, b₂)) :
    BitForm ((value - sum) :: vs.map ofVar) := by
  have htopval : top.val + 1 = n + vs.length := by
    have hlast := congrArg List.getLast? hvs
    rw [List.getLast?_map, htop, Option.map_some, List.getLast?_range'] at hlast
    split_ifs at hlast with hzero
    have hval := Option.some.inj hlast
    omega
  have hpos := pushBits_lt one_pos h (Function.update 0 top 1) fun u => by
    rw [Function.update_apply]
    split_ifs
    · exact zero_le_one
    · exact le_rfl
  have hzero := pushBits_lt one_pos h 0 fun _ => le_rfl
  have hless : (value - sum).eval (Function.update (0 : VarId → ℤ) top 1)
      < (value - sum).eval (0 : VarId → ℤ) := by
    have hvalue : value.eval (Function.update (0 : VarId → ℤ) top 1) = value.eval (0 : VarId → ℤ) := by
      refine value.eval_congr fun u hu => ?_
      have hlen : 0 < vs.length := List.length_pos_of_mem (List.mem_of_mem_getLast? htop)
      have hne : u ≠ top := by
        rintro rfl
        have := hv u hu
        omega
      rw [Function.update_of_ne hne]
    have hless := hpos.2.1 ⟨top, List.mem_of_mem_getLast? htop, by rw [Function.update_self]; exact one_pos⟩
    rw [eval_sub, eval_sub, hvalue, hzero.2.2 fun _ _ => rfl]
    rw [eval_zero] at hless ⊢
    omega
  refine ⟨List.forall_mem_cons.mpr ⟨Bool.eq_false_iff.mpr fun hconst => ?_, ?_⟩, fun l hl => ?_⟩
  · rw [eval_of_isConstant hconst, eval_of_isConstant hconst] at hless
    exact lt_irrefl _ hless
  · rw [List.forall_mem_map]
    exact fun _ _ => rfl
  · rw [List.head?_cons, Option.mem_some] at hl
    subst hl
    refine lead_neg (canonical_sub value sum) (v := top) (fun u hu => Fin.le_def.mpr ?_) hless
    rcases mem_vars_sub hu with hu | hu
    · have := hv u hu
      have hlen : 0 < vs.length := List.length_pos_of_mem (List.mem_of_mem_getLast? htop)
      omega
    · have := hsum u hu
      omega

/-- Bits that are proven may be remembered. -/
lemma learnBits_spec (hb : b.Sound) {top : Option VarId} {bits : List LinearCombination}
    (hbelow : ∀ l ∈ bits, l.Below b.nextVarId)
    (hbits : ∀ w, b.Sat w → ∀ l ∈ bits, IsBit (l.eval w))
    (hform : ∀ v ∈ top, BitForm bits) :
    (b.learnBits top bits).Sound ∧ Appends b (b.learnBits top bits) [] [] [] ∧
      (b.learnBits top bits).nextVarId = b.nextVarId := by
  have hrefl := Appends.refl b
  cases top with
  | some top =>
      have heq : b.learnBits (some top) bits =
          { b with computedBits := Function.update b.computedBits top (some bits) } := by
        simp only [learnBits, hb.active, Bool.false_eq_true, if_false]
      rw [heq]
      have happ : Appends b
          { b with computedBits := Function.update b.computedBits top (some bits) } [] [] [] :=
        ⟨hrefl.constraints, hrefl.witnessGen, hrefl.deferredProducts, rfl, le_rfl, rfl⟩
      refine ⟨?_, happ, rfl⟩
      refine hb.appends happ (hb.toLedger.appends happ fun _ _ _ h => h)
        (fun _ hc => absurd hc List.not_mem_nil) (fun _ _ _ h => .inl h) (fun _ h => .inl h)
        fun u bits' hu => ?_
      by_cases hut : u = top
      · right
        simp only [hut, Function.update_self, Option.some.injEq] at hu
        subst hu
        exact ⟨fun l hl => ⟨hbelow l hl, fun w hw => hbits w ((happ.sat_iff hb w).mp hw).1 l hl⟩,
          hform top rfl⟩
      · simp only [Function.update_of_ne hut] at hu
        exact .inl hu
  | none =>
      cases hone : bits.head?.bind oneVar with
      | none =>
          have heq : b.learnBits none bits = b := by
            simp only [learnBits, hb.active, Bool.false_eq_true, if_false, hone]
          rw [heq]
          exact ⟨hb, hrefl, rfl⟩
      | some v =>
          have heq : b.learnBits none bits = b.markBoolean v := by
            simp only [learnBits, hb.active, Bool.false_eq_true, if_false, hone]
          rw [heq]
          obtain ⟨l, hl, hlv⟩ := Option.bind_eq_some_iff.mp hone
          have hmem : l ∈ bits := List.mem_of_mem_head? hl
          refine ⟨hb.markBoolean fun w hw => ?_, appends_markBoolean v, rfl⟩
          have hbit := hbits w hw l hmem
          rwa [oneVar_eq_some.mp hlv, eval_ofVar] at hbit

lemma isBit_iff (x : Fr) : IsBit x ↔ x * x = x :=
  ⟨fun h => by rcases h with rfl | rfl <;> ring, isBit_of_mul_self⟩

lemma isBit_bitOf (x i : ℕ) : IsBit (Bits.bitOf x i) := Bits.bitOf_eq_zero_or_one x i

lemma getD_bitList {n i : ℕ} (h : i < n) (x : Fr) : (bitList n x).getD i 0 = Bits.bitOf x.val i := by
  simp [bitList, List.getD_eq_getElem?_getD, h]

/-- **Boolean values that add up to `x`** are its bits. -/
lemma eq_bitList {n : ℕ} (hn : n ≤ 253) {fs : List Fr} (hlen : fs.length = n)
    (hbits : ∀ y ∈ fs, IsBit y) {x : Fr}
    (hsum : ∑ i ∈ Finset.range n, fs.getD i 0 * 2 ^ i = x) : x.val < 2 ^ n ∧ fs = bitList n x := by
  have hget : ∀ i < n, fs.getD i 0 = 0 ∨ fs.getD i 0 = 1 := by
    intro i hi
    rw [List.getD_eq_getElem?_getD, List.getElem?_eq_getElem (hlen ▸ hi), Option.getD_some]
    exact hbits _ (List.getElem_mem _)
  obtain ⟨hlt, hall⟩ := Bits.bits_unique (two_pow_le_rModulus hn) hget hsum
  refine ⟨hlt, List.ext_getElem (by simp [bitList, hlen]) fun i hi hi' => ?_⟩
  have hin : i < n := hlen ▸ hi
  have heq := hall i hin
  rw [← getD_bitList hin x] at heq
  simpa [List.getD_eq_getElem?_getD, hi, hi'] using heq

/-- The low bit is what the others leave. -/
lemma sum_bits_eq (low : Fr) (fs : List Fr) :
    ∑ i ∈ Finset.range (fs.length + 1), (low :: fs).getD i 0 * 2 ^ i
      = low + ∑ k ∈ Finset.range fs.length, fs.getD k 0 * 2 ^ (k + 1) := by
  rw [Finset.sum_range_succ', add_comm]
  simp only [List.getD_cons_succ, List.getD_cons_zero, pow_zero, mul_one]

/-- Bits above a low bit that is what they leave of `x`. -/
lemma areBits_low {m : ℕ} (hm : m + 1 ≤ 253) {x s : Fr} {fs : List Fr} (hlen : fs.length = m)
    (hsum : s = ∑ k ∈ Finset.range fs.length, fs.getD k 0 * 2 ^ (k + 1))
    (hbits : ∀ y ∈ (x - s) :: fs, IsBit y) :
    x.val < 2 ^ (m + 1) ∧ (x - s) :: fs = bitList (m + 1) x := by
  refine eq_bitList hm (by rw [List.length_cons, hlen]) hbits ?_
  have hall := sum_bits_eq (x - s) fs
  rwa [← hsum, sub_add_cancel, hlen] at hall

/-- What the high bits of a number in range leave is its low bit. -/
lemma isBit_low {m : ℕ} {x s : Fr} {fs : List Fr}
    (hfs : fs = (List.range m).map fun k => Bits.bitOf x.val (k + 1))
    (hsum : s = ∑ k ∈ Finset.range fs.length, fs.getD k 0 * 2 ^ (k + 1))
    (hlt : x.val < 2 ^ (m + 1)) : ∀ y ∈ (x - s) :: fs, IsBit y := by
  have hsplit := Bits.sum_bitOf_val hlt
  rw [Finset.sum_range_succ', pow_zero, mul_one] at hsplit
  have hhigh : s = ∑ k ∈ Finset.range m, Bits.bitOf x.val (k + 1) * 2 ^ (k + 1) := by
    rw [hsum, hfs, List.length_map, List.length_range]
    refine Finset.sum_congr rfl fun k hk => ?_
    simp [List.getD_eq_getElem?_getD, Finset.mem_range.mp hk]
  have hlow : x - s = Bits.bitOf x.val 0 := by
    rw [hhigh]
    linear_combination -hsplit
  intro y hy
  rcases List.mem_cons.mp hy with rfl | hy
  · rw [hlow]
    exact isBit_bitOf _ _
  · rw [hfs] at hy
    obtain ⟨k, -, rfl⟩ := List.mem_map.mp hy
    exact isBit_bitOf _ _

/-- The rows of a decomposition: `bits` are boolean, and they add up to the value. -/
structure BitRows (b : Builder) (value : LinearCombination) (m : ℕ) (fakeGlv : FakeGlv)
    (bits : List LinearCombination) (b' : Builder) : Prop where
  sound : b'.Sound
  below : ∀ l ∈ bits, l.Below b'.nextVarId
  adds : ∃ H, Emission.Adds (emitter fakeGlv) (fun w => (value.eval w).val < 2 ^ (m + 1)) b b' H
    fun w => AreBits bits (m + 1) (value.eval w) w

lemma bitRows (hb : b.Sound) {value : LinearCombination} (hv : value.Below b.nextVarId) {m : ℕ}
    (hm : m + 1 ≤ 253) {vs : List VarId} {b₁ b₂ : Builder} {sum : LinearCombination}
    (h₁ : allocBits m b = .ok (vs, b₁)) (h₂ : pushBits value 0 vs 1 zero b₁ = .ok (sum, b₂))
    (fakeGlv : FakeGlv) :
    BitRows b value m fakeGlv ((value - sum) :: vs.map ofVar)
      (b₂.pushConstraint (value - sum) (value - sum - one) zero) := by
  obtain ⟨hb₁, happ₁, hvs, hnext₁⟩ := allocBits_spec hb h₁
  have hlen : vs.length = m := by rw [← List.length_map Fin.val, hvs, List.length_range']
  have hvs₁ : ∀ v ∈ vs, v.val < b₁.nextVarId := by
    intro v hv
    have hmem : v.val ∈ List.range' b.nextVarId m := hvs ▸ List.mem_map_of_mem hv
    rw [hnext₁]
    exact (List.mem_range'_1.mp hmem).2
  have hpush := pushBits_spec fakeGlv hb₁ hvs₁ Below.zero h₂
  obtain ⟨hb₂, hnext₂, hsum, heval, rows, ops, happ₂, hrows, hops⟩ := hpush
  have hv₂ : value.Below b₂.nextVarId := by
    rw [hnext₂]
    exact hv.mono happ₁.next_le
  have hlow : (value - sum).Below b₂.nextVarId := hv₂.sub (hnext₂ ▸ hsum)
  have happ := (happ₁.trans happ₂).trans (appends_pushConstraint (l := value - sum)
    (r := value - sum - one) (o := zero) hb₂)
  have hnext₃ : (b₂.pushConstraint (value - sum) (value - sum - one) zero).nextVarId
      = b.nextVarId + m := by rw [pushConstraint_nextVarId hb₂, hnext₂, hnext₁]
  have hhigh : ∀ w : VarId → Fr, sum.eval w
      = ∑ k ∈ Finset.range (vs.map w).length, (vs.map w).getD k 0 * 2 ^ (k + 1) := by
    intro w
    rw [heval, eval_zero, zero_add, List.length_map]
    simp only [Int.cast_one, one_mul]
  have hvalues : ∀ w, values ((value - sum) :: vs.map ofVar) w
      = (value.eval w - sum.eval w) :: vs.map w := by
    intro w
    simp only [values, List.map_cons, eval_sub, List.map_map, Function.comp_def, eval_ofVar]
  -- what the rows say
  have hall : ∀ w : VarId → Fr, (∀ c ∈ [] ++ rows ++ [b₂.newRow (value - sum) (value - sum - one)
      zero], c.row.Sat w) ↔ ∀ y ∈ (value.eval w - sum.eval w) :: vs.map w, IsBit y := by
    intro w
    rw [List.nil_append, List.forall_mem_append, hrows, List.forall_mem_singleton, sat_newRow,
      List.forall_mem_cons, List.forall_mem_map, and_comm]
    simp only [eval_sub, eval_one, eval_zero, mul_eq_zero, sub_eq_zero (b := (1 : Fr))]
    exact and_congr Iff.rfl (forall₂_congr fun v _ => (isBit_iff _).symm)
  have hlocal : ∀ w w', (emitter fakeGlv).Agree b.nextVarId w w' →
      (fun k => Bits.bitOf (value.eval w').val (k + 1))
        = fun k => (Bits.bitOf (value.eval w).val (k + 1) : Fr) := fun w w' hagree => by
    rw [local_eval fakeGlv hv hagree]
  refine ⟨hb₂.pushConstraint hlow (hlow.sub Below.one) Below.zero, ?_,
    fun w => vs.map w = (List.range m).map fun k => Bits.bitOf (value.eval w).val (k + 1),
    happ.adds hb ?_ ?_ ?_ ?_ ?_⟩
  · rw [pushConstraint_nextVarId hb₂, List.forall_mem_cons, List.forall_mem_map]
    exact ⟨hlow, fun v hv => below_ofVar.mpr (hnext₂ ▸ hvs₁ v hv)⟩
  · intro w hw _
    have hhints := hops w fun op hop => hw op (by simp [hop])
    rw [hhints, hlen]
    simp only [Nat.zero_add]
  · rw [hnext₃]
    exact local_vars hvs hlocal
  · exact fillable_vars hvs hlocal
  · intro w _ hw
    rw [AreBits, hvalues]
    exact areBits_low hm (by rw [List.length_map, hlen]) (hhigh w) ((hall w).mp hw)
  · exact fun w _ hH hlt => (hall w).mpr (isBit_low hH (hhigh w) hlt)

/-- A decomposition into no bits: the value is zero. -/
lemma decomposeBits_zero_spec (hb : b.Sound) {value : LinearCombination}
    (hv : value.Below b.nextVarId) (fakeGlv : FakeGlv) :
    (b.pushEqual value zero).Sound ∧
      Emission.Emits (emitter fakeGlv) (fun w => (value.eval w).val < 2 ^ 0) b (b.pushEqual value zero)
        fun w => AreBits [] 0 (value.eval w) w := by
  have hbelow : (value - zero).Below b.nextVarId := hv.sub Below.zero
  have hrow : ∀ w : VarId → Fr, (∀ c ∈ [b.newRow (value - zero) one zero], c.row.Sat w) ↔
      value.eval w = 0 := by
    intro w
    rw [List.forall_mem_singleton, sat_newRow, eval_sub, eval_zero, eval_one, sub_zero, mul_one]
  refine ⟨hb.pushConstraint hbelow Below.one Below.zero, ?_⟩
  refine ((appends_pushConstraint hb).emits_rows hb hrow).weaken (fun w _ hw => ?_) fun w _ hw => ?_
  · exact (ZMod.val_eq_zero _).mp (Nat.lt_one_iff.mp hw)
  · rw [hw]
    exact ⟨by simp, rfl⟩

/-- The bits of what is not a constant are not constants. -/
lemma decomposeBits_open (hb : b.Sound) {value : LinearCombination} (hv : value.Below b.nextVarId)
    (hopen : value.simplified.isConstant = false) {n : ℕ} {bits : List LinearCombination}
    (h : b.decomposeBits lcHash value n = .ok (bits, b')) : ∀ l ∈ bits, l.isConstant = false := by
  rw [decomposeBits, decomposeBitsGated] at h
  simp only [gateInput, Outcome.ok_bind] at h
  split_ifs at h with hwide h0
  · obtain ⟨rfl, rfl⟩ := Prod.mk.inj (Except.ok.inj h)
    exact fun l hl => absurd hl List.not_mem_nil
  · obtain ⟨⟨vs, b₁⟩, h₁, h⟩ := Outcome.bind_eq_ok.mp h
    obtain ⟨⟨sum, b₂⟩, h₂, h⟩ := Outcome.bind_eq_ok.mp h
    obtain ⟨rfl, rfl⟩ := Prod.mk.inj (Except.ok.inj h)
    obtain ⟨hb₁, -, hvs, hnext₁⟩ := allocBits_spec hb h₁
    have hlen : vs.length = n - 1 := by rw [← List.length_map Fin.val, hvs, List.length_range']
    cases htop : vs.getLast? with
    | none =>
        -- one bit: the value
        obtain rfl := List.getLast?_eq_none_iff.mp htop
        obtain ⟨rfl, rfl⟩ := Prod.mk.inj (Except.ok.inj h₂)
        rw [List.map_nil, List.forall_mem_singleton, ← Bool.not_eq_true]
        intro hconst
        have hsame := isConstant_simplified (r := value) hconst fun x => by
          rw [eval_sub, eval_zero, sub_zero]
        rw [hsame] at hopen
        cases hopen
    | some top =>
        refine (form_low hv (hlen.symm ▸ hvs) htop ?_ h₂).1
        rw [hlen, ← hnext₁]
        refine (pushBits_spec (fun _ _ _ => none) hb₁ (fun v hv => ?_) Below.zero h₂).2.2.1
        have hmem : v.val ∈ List.range' b.nextVarId (n - 1) := hvs ▸ List.mem_map_of_mem hv
        rw [hnext₁]
        exact (List.mem_range'_1.mp hmem).2

/-- **A decomposition**: its bits are the value's, which is in range; in range, the honest bits
satisfy its rows. -/
lemma decomposeBits_spec (hb : b.Sound) {value : LinearCombination} (hv : value.Below b.nextVarId)
    {n : ℕ} {bits : List LinearCombination} (h : b.decomposeBits lcHash value n = .ok (bits, b'))
    (fakeGlv : FakeGlv) : b'.Sound ∧ (∀ l ∈ bits, l.Below b'.nextVarId) ∧
      Emission.Emits (emitter fakeGlv) (fun w => (value.eval w).val < 2 ^ n) b b'
        fun w => AreBits bits n (value.eval w) w := by
  rw [decomposeBits, decomposeBitsGated] at h
  simp only [gateInput, Outcome.ok_bind] at h
  split_ifs at h with hwide h0
  · subst h0
    obtain ⟨rfl, rfl⟩ := Prod.mk.inj (Except.ok.inj h)
    obtain ⟨hb', he⟩ := decomposeBits_zero_spec hb hv fakeGlv
    exact ⟨hb', fun l hl => absurd hl List.not_mem_nil, he⟩
  · obtain ⟨m, rfl⟩ := Nat.exists_eq_succ_of_ne_zero h0
    obtain ⟨⟨vs, b₁⟩, h₁, h⟩ := Outcome.bind_eq_ok.mp h
    obtain ⟨⟨sum, b₂⟩, h₂, h⟩ := Outcome.bind_eq_ok.mp h
    obtain ⟨rfl, rfl⟩ := Prod.mk.inj (Except.ok.inj h)
    have hrows := bitRows hb hv (not_lt.mp hwide) h₁ h₂ fakeGlv
    obtain ⟨H, hadds⟩ := hrows.adds
    have hproven : ∀ w, (b₂.pushConstraint (value - sum) (value - sum - one) zero).Sat w →
        ∀ l ∈ (value - sum) :: vs.map ofVar, IsBit (l.eval w) := by
      intro w hw l hl
      have hmem : l.eval w ∈ values ((value - sum) :: vs.map ofVar) w := List.mem_map_of_mem hl
      rw [(hadds.post w hw).2] at hmem
      obtain ⟨k, -, hk⟩ := List.mem_map.mp hmem
      rw [← hk]
      exact isBit_bitOf _ _
    have hform : ∀ v ∈ vs.getLast?, BitForm ((value - sum) :: vs.map ofVar) := by
      intro v hv'
      have halloc := allocBits_spec hb h₁
      rw [Nat.succ_sub_one] at halloc
      obtain ⟨hb₁, -, hvs, hnext₁⟩ := halloc
      have hlen : vs.length = m := by rw [← List.length_map Fin.val, hvs, List.length_range']
      refine form_low hv (hlen.symm ▸ hvs) hv' ?_ h₂
      rw [hlen, ← hnext₁]
      refine (pushBits_spec fakeGlv hb₁ (fun v hv => ?_) Below.zero h₂).2.2.1
      have hmem : v.val ∈ List.range' b.nextVarId m := hvs ▸ List.mem_map_of_mem hv
      rw [hnext₁]
      exact (List.mem_range'_1.mp hmem).2
    obtain ⟨hb', happ', hnext'⟩ := learnBits_spec hrows.sound hrows.below hproven hform
    refine ⟨hb', fun l hl => ?_, ?_⟩
    · rw [hnext']
      exact hrows.below l hl
    · refine Emission.Emits.seq ⟨_, hadds⟩ (happ'.emits_rows hrows.sound (Q := fun _ => True)
        fun w => by simp) (fun _ h => h) (fun _ _ _ _ => True.intro) fun _ _ h _ => h

/-! ### Gates -/

/-- The value of a gate: one where there is none. -/
def gateOf (gate : Option LinearCombination) (w : VarId → Fr) : Fr := gate.elim 1 fun g => g.eval w

/-- What a gate lets through. -/
def gated (gate : Option LinearCombination) (x : LinearCombination) (w : VarId → Fr) : Fr :=
  gateOf gate w * x.eval w

lemma gated_none (x : LinearCombination) (w : VarId → Fr) : gated none x w = x.eval w := one_mul _

lemma appends_emitRequireEqGated (hb : b.Sound) (g lhs rhs : LinearCombination) :
    ∃ rows, Appends b (b.emitRequireEqGated g lhs rhs) rows [] [] ∧
      ∀ w : VarId → Fr, (∀ c ∈ rows, c.row.Sat w) ↔ (g.eval w ≠ 0 → lhs.eval w = rhs.eval w) := by
  have hb₃ := ((hb.consumePending lhs).consumePending rhs).consumePending g
  have happ := ((appends_consumePending (b := b) (l := lhs)).trans
    (appends_consumePending (l := rhs))).trans (appends_consumePending (l := g))
  rw [emitRequireEqGated]
  split_ifs with hzero
  · refine ⟨_, happ, fun w => ?_⟩
    have hdiff := eval_of_isZero w hzero
    rw [eval_sub, sub_eq_zero] at hdiff
    simp [hdiff]
  · refine ⟨_, happ.trans (appends_pushConstraint hb₃), fun w => ?_⟩
    simp only [List.append_nil, List.nil_append, List.forall_mem_singleton, sat_newRow, eval_sub,
      eval_zero, mul_eq_zero, sub_eq_zero, or_iff_not_imp_left, ne_eq]

lemma Sound.emitRequireEqGated (hb : b.Sound) {g lhs rhs : LinearCombination}
    (hg : g.Below b.nextVarId) (hl : lhs.Below b.nextVarId) (hr : rhs.Below b.nextVarId) :
    (b.emitRequireEqGated g lhs rhs).Sound ∧
      (b.emitRequireEqGated g lhs rhs).nextVarId = b.nextVarId := by
  have hb₃ := ((hb.consumePending lhs).consumePending rhs).consumePending g
  have hnext : (((b.consumePending lhs).consumePending rhs).consumePending g).nextVarId
      = b.nextVarId := by
    rw [consumePending_nextVarId, consumePending_nextVarId, consumePending_nextVarId]
  rw [Builder.emitRequireEqGated]
  split_ifs with hzero
  · exact ⟨hb₃, hnext⟩
  · exact ⟨hb₃.pushConstraint (hnext ▸ hg) (hnext ▸ hl.sub hr) Below.zero, by
      rw [pushConstraint_nextVarId hb₃, hnext]⟩

/-- **A gated equality** holds where the gate is open. -/
lemma emitRequireEqGated_spec (hb : b.Sound) {g lhs rhs : LinearCombination}
    (hg : g.Below b.nextVarId) (hl : lhs.Below b.nextVarId) (hr : rhs.Below b.nextVarId)
    (fakeGlv : FakeGlv) : (b.emitRequireEqGated g lhs rhs).Sound ∧
      (b.emitRequireEqGated g lhs rhs).nextVarId = b.nextVarId ∧
      Emission.Emits (emitter fakeGlv) (fun w => g.eval w ≠ 0 → lhs.eval w = rhs.eval w) b
        (b.emitRequireEqGated g lhs rhs) fun w => g.eval w ≠ 0 → lhs.eval w = rhs.eval w := by
  obtain ⟨rows, happ, hrows⟩ := appends_emitRequireEqGated hb g lhs rhs
  obtain ⟨hb', hnext⟩ := hb.emitRequireEqGated hg hl hr
  exact ⟨hb', hnext, happ.emits_rows hb hrows⟩

lemma appends_pinDeadTo (hb : b.Sound) (gate : Option LinearCombination) (v : VarId)
    (value : FieldConst) : ∃ rows, Appends b (b.pinDeadTo gate v value) rows [] [] ∧
      ∀ w : VarId → Fr, (∀ c ∈ rows, c.row.Sat w) ↔ (gateOf gate w ≠ 1 → w v = value) := by
  cases gate with
  | none => exact ⟨[], Appends.refl b, fun w => by simp [gateOf]⟩
  | some g =>
      obtain ⟨rows, happ, hrows⟩ :=
        appends_emitRequireEqGated hb (one - g) (ofVar v) (ofConst value)
      refine ⟨rows, happ, fun w => ?_⟩
      rw [hrows, eval_sub, eval_one, eval_ofVar, eval_ofConst, sub_ne_zero, ne_comm]
      rfl

lemma Sound.pinDeadTo (hb : b.Sound) {gate : Option LinearCombination}
    (hg : ∀ g ∈ gate, g.Below b.nextVarId) {v : VarId} (hv : v.val < b.nextVarId)
    (value : FieldConst) : (b.pinDeadTo gate v value).Sound ∧
      (b.pinDeadTo gate v value).nextVarId = b.nextVarId := by
  cases gate with
  | none => exact ⟨hb, rfl⟩
  | some g =>
      exact hb.emitRequireEqGated (Below.one.sub (hg g rfl)) (below_ofVar.mpr hv) (Below.ofConst value)

/-- A hint of an untaken branch has the value that it is pinned to. -/
lemma pinDeadTo_spec (hb : b.Sound) {gate : Option LinearCombination}
    (hg : ∀ g ∈ gate, g.Below b.nextVarId) {v : VarId} (hv : v.val < b.nextVarId)
    (value : FieldConst) (fakeGlv : FakeGlv) : (b.pinDeadTo gate v value).Sound ∧
      (b.pinDeadTo gate v value).nextVarId = b.nextVarId ∧
      Emission.Emits (emitter fakeGlv) (fun w => gateOf gate w ≠ 1 → w v = value) b (b.pinDeadTo gate v value)
        fun w => gateOf gate w ≠ 1 → w v = value := by
  obtain ⟨rows, happ, hrows⟩ := appends_pinDeadTo hb gate v value
  obtain ⟨hb', hnext⟩ := hb.pinDeadTo hg hv value
  exact ⟨hb', hnext, happ.emits_rows hb hrows⟩

/-- **A hint**: where the branch is not taken it is zero; honestly it is the value of its op. -/
lemma hint_spec (hb : b.Sound) {v : VarId} (ha : Allocated b v b') {gate : Option LinearCombination}
    (hg : ∀ g ∈ gate, g.Below b.nextVarId) {op : WitnessGen LinearCombination VarId}
    {f : (VarId → Fr) → Fr} {fakeGlv : FakeGlv} (hop : ∀ w, Follows fakeGlv w op → w v = f w)
    (hf : ∀ w w', (emitter fakeGlv).Agree b.nextVarId w w' → f w' = f w) :
    ((b'.pinDeadTo gate v 0).pushWitness (some op)).Sound ∧
      v.val < ((b'.pinDeadTo gate v 0).pushWitness (some op)).nextVarId ∧
      Realizes (emitter fakeGlv) (fun w => gateOf gate w ≠ 1 → f w = 0) b
        ((b'.pinDeadTo gate v 0).pushWitness (some op)) fun honest w =>
          (gateOf gate w ≠ 1 → w v = 0) ∧ (honest = true → w v = f w) := by
  obtain ⟨rows, happ, hrows⟩ := appends_pinDeadTo ha.sound gate v 0
  simp only [Int.cast_zero] at hrows
  obtain ⟨hb', hnext⟩ := ha.sound.pinDeadTo (fun g hgate => (hg g hgate).mono ha.appends.next_le)
    ha.lt 0
  have happ' := happ.trans (appends_pushWitness (some op))
  rw [List.append_nil, List.nil_append] at happ'
  refine ⟨hb'.pushWitness _, hnext.symm ▸ ha.lt, fun w => w v = f w, ?_, fun w hw hH => ?_⟩
  · refine ha.adds hb happ' hop hf (fun w _ hw => ⟨(hrows w).mp hw, fun h => by cases h⟩) ?_
    exact fun w _ hH hP => (hrows w).mpr fun hdead => hH.trans (hP hdead)
  · have hold := ((happ'.sat_iff ha.sound w).mp hw).2
    exact ⟨(hrows w).mp hold, fun _ => hH⟩

/-- Two hints of one op. -/
lemma hintPair_spec (hb : b.Sound) {u v : VarId} {b₁ : Builder} (hu : Allocated b u b₁)
    (hv : Allocated b₁ v b') {gate : Option LinearCombination} (hg : ∀ g ∈ gate, g.Below b.nextVarId)
    (op : WitnessGen LinearCombination VarId) (f f' : (VarId → Fr) → Fr) {fakeGlv : FakeGlv}
    (hop : ∀ w, Follows fakeGlv w op → w u = f w ∧ w v = f' w)
    (hf : ∀ w w', (emitter fakeGlv).Agree b.nextVarId w w' → f w' = f w)
    (hf' : ∀ w w', (emitter fakeGlv).Agree b.nextVarId w w' → f' w' = f' w) :
    (((b'.pinDeadTo gate u 0).pinDeadTo gate v 0).pushWitness (some op)).Sound ∧
      (((b'.pinDeadTo gate u 0).pinDeadTo gate v 0).pushWitness (some op)).nextVarId = b'.nextVarId ∧
      Realizes (emitter fakeGlv) (fun w => gateOf gate w ≠ 1 → f w = 0 ∧ f' w = 0) b
        (((b'.pinDeadTo gate u 0).pinDeadTo gate v 0).pushWitness (some op)) fun honest w =>
          (gateOf gate w ≠ 1 → w u = 0 ∧ w v = 0) ∧ (honest = true → w u = f w ∧ w v = f' w) := by
  have hle := hu.appends.next_le.trans hv.appends.next_le
  have hlt : u.val < b'.nextVarId := hu.lt.trans_le hv.appends.next_le
  have hg' : ∀ g ∈ gate, g.Below b'.nextVarId := fun g hgate => (hg g hgate).mono hle
  obtain ⟨rows, happ, hrows⟩ := appends_pinDeadTo hv.sound gate u 0
  obtain ⟨hb₂, hnext₂⟩ := hv.sound.pinDeadTo hg' hlt 0
  obtain ⟨rows', happ', hrows'⟩ := appends_pinDeadTo hb₂ gate v 0
  obtain ⟨hb₃, hnext₃⟩ := hb₂.pinDeadTo (hnext₂.symm ▸ hg') (hnext₂.symm ▸ hv.lt) 0
  simp only [Int.cast_zero] at hrows hrows'
  have hall := (hu.appends.trans hv.appends).trans ((happ.trans happ').trans
    (appends_pushWitness (some op)))
  simp only [List.append_nil, List.nil_append] at hall
  have hpins : ∀ w : VarId → Fr, (∀ c ∈ rows ++ rows', c.row.Sat w) ↔
      (gateOf gate w ≠ 1 → w u = 0 ∧ w v = 0) := by
    intro w
    rw [List.forall_mem_append, hrows, hrows']
    exact forall_and.symm
  have hnext : (((b'.pinDeadTo gate u 0).pinDeadTo gate v 0).pushWitness (some op)).nextVarId
      = b'.nextVarId := hnext₃.trans hnext₂
  refine ⟨hb₃.pushWitness _, hnext, fun w => w u = f w ∧ w v = f' w, ?_, fun w hw hH => ?_⟩
  · refine hall.adds hb (fun w hw _ => hop w (hw op List.mem_cons_self)) ?_ ?_
      (fun w _ hw => ⟨(hpins w).mp hw, fun h => by cases h⟩) fun w _ hH hP => (hpins w).mpr fun hdead => ?_
    · rw [hnext]
      exact (local_var fakeGlv hlt hle hf).and (local_var fakeGlv hv.lt hle hf')
    · refine Fillable.seq hu.appends.next_le (fillable_var fakeGlv hu.val_eq.ge hf)
        (local_var fakeGlv hu.lt hu.appends.next_le hf) (fillable_var fakeGlv hv.val_eq.ge ?_)
      exact fun w w' hagree => hf' w w' (hagree.mono hu.appends.next_le)
    · rw [hH.1, hH.2]
      exact hP hdead
  · exact ⟨(hpins w).mp ((hall.sat_iff hb w).mp hw).2, fun _ => hH⟩

/-- The input of a hint in a branch is the gated value. -/
lemma gateInput_spec (hb : b.Sound) {gate : Option LinearCombination} {x x' : LinearCombination}
    (hg : ∀ g ∈ gate, g.Below b.nextVarId) (hx : x.Below b.nextVarId)
    (h : b.gateInput lcHash gate x = .ok (x', b')) (fakeGlv : FakeGlv) :
    b'.Sound ∧ x'.Below b'.nextVarId ∧
      Emission.Emits (emitter fakeGlv) (fun _ => True) b b' fun w => x'.eval w = gated gate x w := by
  cases gate with
  | none =>
      obtain ⟨rfl, rfl⟩ := Prod.mk.inj (Except.ok.inj h)
      refine ⟨hb, hx, (Emission.Emits.refl b).weaken (fun _ _ h => h) fun w _ _ => (gated_none x w).symm⟩
  | some g =>
      rw [gateInput] at h
      split_ifs at h with hzero
      · obtain ⟨rfl, rfl⟩ := Prod.mk.inj (Except.ok.inj h)
        refine ⟨hb, hx, (Emission.Emits.refl b).weaken (fun _ _ h => h) fun w _ _ => ?_⟩
        rw [gated, eval_of_isZero w hzero, mul_zero]
      · have hb₂ := (hb.consumePending x).consumePending g
        have hnext : ((b.consumePending x).consumePending g).nextVarId = b.nextVarId := by
          rw [consumePending_nextVarId, consumePending_nextVarId]
        obtain ⟨hb', hx', he⟩ :=
          emitMul_spec hb₂ (hnext ▸ hg g rfl) (hnext ▸ hx) h fakeGlv
        refine ⟨hb', hx', ?_⟩
        exact (emits_consumePending hb fakeGlv).seq ((emits_consumePending (hb.consumePending x)
          fakeGlv).seq he (fun _ h => h) (fun _ h _ _ => h) fun _ _ _ h => h) (fun _ h => h)
          (fun _ h _ _ => h) fun _ _ _ h => h

/-- A gated decomposition is that of the gated value. -/
lemma decomposeBitsGated_eq (value : LinearCombination) {n : ℕ} (hn : n ≤ 253)
    (gate : Option LinearCombination) : b.decomposeBitsGated lcHash value n gate
      = b.gateInput lcHash gate value >>= fun r => r.2.decomposeBits lcHash r.1 n := by
  rw [decomposeBitsGated, if_neg (not_lt.mpr hn)]
  refine congrArg _ (funext fun r => ?_)
  rw [decomposeBits, decomposeBitsGated, if_neg (not_lt.mpr hn)]
  rfl

/-- **A decomposition in a branch**: its bits are those of the gated value. -/
lemma decomposeBitsGated_spec (hb : b.Sound) {value : LinearCombination}
    (hv : value.Below b.nextVarId) {n : ℕ} {gate : Option LinearCombination}
    (hg : ∀ g ∈ gate, g.Below b.nextVarId) {bits : List LinearCombination}
    (h : b.decomposeBitsGated lcHash value n gate = .ok (bits, b')) (fakeGlv : FakeGlv) :
    b'.Sound ∧ (∀ l ∈ bits, l.Below b'.nextVarId) ∧
      Emission.Emits (emitter fakeGlv) (fun w => (gated gate value w).val < 2 ^ n) b b'
        fun w => AreBits bits n (gated gate value w) w := by
  by_cases hn : n ≤ 253
  · rw [decomposeBitsGated_eq value hn gate] at h
    obtain ⟨⟨x, b₁⟩, h₁, h₂⟩ := Outcome.bind_eq_ok.mp h
    obtain ⟨hb₁, hx, e₁⟩ := gateInput_spec hb hg hv h₁ fakeGlv
    obtain ⟨hb', hbits, e₂⟩ := decomposeBits_spec hb₁ hx h₂ fakeGlv
    refine ⟨hb', hbits, e₁.seq e₂ (fun _ _ => True.intro) (fun w hw _ hval => ?_)
      fun w _ hval hw => ?_⟩
    · rwa [hval]
    · rwa [hval] at hw
  · rw [decomposeBitsGated, if_pos (not_le.mp hn)] at h
    cases h

/-! ### Differences -/

lemma two_pow_succ_le {n : ℕ} (hn : n ≤ 252) : 2 ^ (n + 1) ≤ rModulus :=
  two_pow_le_rModulus (Nat.succ_le_succ hn)

/-- A new bit of `value`, and the row that makes it a bit. -/
lemma hintBit_spec (hb : b.Sound) {v : VarId} (ha : Allocated b v b') {value : LinearCombination}
    (hv : value.Below b.nextVarId) (i : U32) (fakeGlv : FakeGlv) :
    ((b'.pushWitness (some (.bit v value i))).pushConstraint (ofVar v) (ofVar v) (ofVar v)).Sound ∧
      ((b'.pushWitness (some (.bit v value i))).pushConstraint (ofVar v) (ofVar v)
        (ofVar v)).nextVarId = b'.nextVarId ∧
      Emission.Adds (emitter fakeGlv) (fun _ => True) b
        ((b'.pushWitness (some (.bit v value i))).pushConstraint (ofVar v) (ofVar v) (ofVar v))
        (fun w => w v = Bits.bitOf (value.eval w).val i) fun w => IsBit (w v) := by
  have hb' := ha.sound.pushWitness (some (.bit v value i))
  have hvar : (ofVar v).Below b'.nextVarId := below_ofVar.mpr ha.lt
  have happ := (appends_pushWitness (b := b') (some (.bit v value i))).trans
    (appends_pushConstraint (l := ofVar v) (r := ofVar v) (o := ofVar v) hb')
  have hrow : ∀ w : VarId → Fr, (∀ c ∈ [] ++ [(b'.pushWitness (some (.bit v value i))).newRow
      (ofVar v) (ofVar v) (ofVar v)], c.row.Sat w) ↔ IsBit (w v) := by
    intro w
    rw [List.nil_append, List.forall_mem_singleton, sat_newRow, eval_ofVar, isBit_iff]
  refine ⟨hb'.pushConstraint hvar hvar hvar, pushConstraint_nextVarId hb', ?_⟩
  refine ha.adds hb happ (fun w => (follows_bit fakeGlv w v i).mp) (fun w w' hagree => ?_)
    (fun w _ => (hrow w).mp) fun w _ hH _ => (hrow w).mpr ?_
  · rw [local_eval fakeGlv hv hagree]
  · rw [hH]
    exact isBit_bitOf _ _

lemma canonical_emitLessThanGated {x y lt : LinearCombination} {n : ℕ}
    {gate : Option LinearCombination}
    (h : b.emitLessThanGated lcHash n x y gate = .ok (.ok (lt, b'))) : Canonical lt.terms := by
  rw [emitLessThanGated] at h
  by_cases hwide : 252 < n
  · rw [dif_pos hwide] at h
    cases Except.ok.inj h
  rw [dif_neg hwide] at h
  obtain ⟨⟨diffPlus, b₀⟩, -, h⟩ := Outcome.bind_eq_ok.mp h
  obtain ⟨⟨top, b₁⟩, -, h⟩ := Outcome.bind_eq_ok.mp h
  obtain ⟨⟨ltPow, b₂⟩, -, h⟩ := Outcome.bind_eq_ok.mp h
  obtain ⟨⟨bits, b₃⟩, -, h⟩ := Outcome.bind_eq_ok.mp h
  obtain ⟨rfl, rfl⟩ := Prod.mk.inj (Except.ok.inj (Except.ok.inj h))
  exact canonical_sub one (ofVar top)

/-- **A comparison in a branch**: where the gate is open, `lt` is one exactly where `x < y`, for
numbers of `n` bits; where it is shut, `lt` is one. -/
lemma emitLessThanGated_spec (hb : b.Sound) {x y lt : LinearCombination} (hx : x.Below b.nextVarId)
    (hy : y.Below b.nextVarId) {n : ℕ} {gate : Option LinearCombination}
    (hg : ∀ g ∈ gate, g.Below b.nextVarId)
    (h : b.emitLessThanGated lcHash n x y gate = .ok (.ok (lt, b'))) (fakeGlv : FakeGlv) :
    b'.Sound ∧ lt.Below b'.nextVarId ∧
      Emission.Emits (emitter fakeGlv) (fun w => IsBit (gateOf gate w) ∧
          (gateOf gate w = 1 → (x.eval w).val < 2 ^ n ∧ (y.eval w).val < 2 ^ n)) b b'
        fun w => IsBit (lt.eval w) ∧
          (gateOf gate w = 1 → (x.eval w).val < 2 ^ n → (y.eval w).val < 2 ^ n →
            lt.eval w = Bits.borrow (x.eval w) (y.eval w)) ∧
          (gateOf gate w = 0 → lt.eval w = 1) := by
  rw [emitLessThanGated] at h
  by_cases hwide : 252 < n
  · rw [dif_pos hwide] at h
    cases Except.ok.inj h
  rw [dif_neg hwide] at h
  have hn : n ≤ 252 := not_lt.mp hwide
  obtain ⟨⟨diffPlus, b₀⟩, h₀, h⟩ := Outcome.bind_eq_ok.mp h
  obtain ⟨⟨top, b₁⟩, h₁, h⟩ := Outcome.bind_eq_ok.mp h
  obtain ⟨⟨ltPow, b₂⟩, h₂, h⟩ := Outcome.bind_eq_ok.mp h
  obtain ⟨⟨bits, b₃⟩, h₃, h⟩ := Outcome.bind_eq_ok.mp h
  obtain ⟨rfl, rfl⟩ := Prod.mk.inj (Except.ok.inj (Except.ok.inj h))
  have hdiff : (x - y + ofConst (2 ^ n)).Below b.nextVarId := (hx.sub hy).add (Below.ofConst _)
  obtain ⟨hb₀, hplus, e₀⟩ := gateInput_spec hb hg hdiff h₀ fakeGlv
  have ha := hb₀.alloc h₁
  have hle : b.nextVarId ≤ b₁.nextVarId := Nat.le_trans e₀.next_le ha.appends.next_le
  obtain ⟨hb₁, hnext₁, hadds⟩ := hintBit_spec hb₀ ha hplus ⟨n, by omega⟩ fakeGlv
  have hg₁ : ∀ g ∈ gate, g.Below b₁.nextVarId := fun g hgate => (hg g hgate).mono hle
  obtain ⟨hbp, hnextp, ep⟩ := pinDeadTo_spec hb₁ (hnext₁.symm ▸ hg₁) (hnext₁.symm ▸ ha.lt) 0 fakeGlv
  have hlt : (one - ofVar top).Below b₁.nextVarId := Below.one.sub (below_ofVar.mpr ha.lt)
  have hnextp' := hnextp.trans hnext₁
  obtain ⟨hb₂, hpow, e₂⟩ := emitMul_spec hbp (hnextp' ▸ hlt) (Below.ofConst _) h₂ fakeGlv
  have hle₂ : b₁.nextVarId ≤ b₂.nextVarId := hnextp' ▸ e₂.next_le
  have hr : (x - y + ltPow).Below b₂.nextVarId := ((hx.sub hy).mono (hle.trans hle₂)).add hpow
  obtain ⟨hb₃, -, e₃⟩ := decomposeBitsGated_spec hb₂ hr (fun g hgate => (hg₁ g hgate).mono hle₂) h₃
    fakeGlv
  refine ⟨hb₃, hlt.mono (hle₂.trans e₃.next_le), ?_⟩
  have heval : ∀ w : VarId → Fr, ltPow.eval w = (one - ofVar top).eval w * (ofConst (2 ^ n)).eval w →
      (x - y + ltPow).eval w = x.eval w - y.eval w + (1 - w top) * 2 ^ n := by
    intro w hw
    rw [eval_add, eval_sub, hw, eval_sub, eval_one, eval_ofVar, eval_ofConst]
    push_cast
    rfl
  -- the difference, which is in range where the gate is open
  have hrange := e₂.seq e₃
    (P := fun w => (gateOf gate w * (x.eval w - y.eval w + (1 - w top) * 2 ^ n)).val < 2 ^ n)
    (Q := fun w => (gateOf gate w * (x.eval w - y.eval w + (1 - w top) * 2 ^ n)).val < 2 ^ n)
    (fun _ _ => True.intro) (fun w hw _ hval => by rwa [gated, heval w hval])
    fun w _ hval hw => by
      have hlt := hw.1
      rwa [gated, heval w hval] at hlt
  have hrest := ep.seq hrange (P := fun w => (gateOf gate w ≠ 1 → w top = 0) ∧
      (gateOf gate w * (x.eval w - y.eval w + (1 - w top) * 2 ^ n)).val < 2 ^ n)
    (Q := fun w => (gateOf gate w ≠ 1 → w top = 0) ∧
      (gateOf gate w * (x.eval w - y.eval w + (1 - w top) * 2 ^ n)).val < 2 ^ n)
    (fun w hw hopen => by rw [hw.1 hopen, Int.cast_zero]) (fun _ hw _ _ => hw.2)
    fun w _ hpin hw => ⟨fun hopen => by rw [hpin hopen, Int.cast_zero], hw⟩
  refine e₀.seq (hadds.andThen hrest (P := fun w => (IsBit (gateOf gate w) ∧ (gateOf gate w = 1 →
        (x.eval w).val < 2 ^ n ∧ (y.eval w).val < 2 ^ n)) ∧
        diffPlus.eval w = gated gate (x - y + ofConst (2 ^ n)) w)
      (Q := fun w => IsBit (w top) ∧ (gateOf gate w ≠ 1 → w top = 0) ∧
        (gateOf gate w * (x.eval w - y.eval w + (1 - w top) * 2 ^ n)).val < 2 ^ n)
      (fun _ _ => True.intro) (fun w hw hH _ _ => ?_) fun w _ hbit hw => ⟨hbit, hw⟩)
    (fun _ _ => True.intro) (fun w hw _ hval => ⟨hw, hval⟩) fun w _ _ hw => ?_
  · obtain ⟨⟨hgbit, hin⟩, hplus⟩ := hw
    rcases hgbit with hshut | hopen
    · have htop : w top = 0 := by
        rw [hH, hplus, gated, hshut, zero_mul]
        simp [Bits.bitOf]
      exact ⟨fun _ => htop, by simp [hshut]⟩
    · obtain ⟨hxn, hyn⟩ := hin hopen
      have hborrow : 1 - w top = Bits.borrow (x.eval w) (y.eval w) := by
        rw [hH, hplus, gated, hopen, one_mul, eval_add, eval_sub, eval_ofConst]
        push_cast
        exact Bits.borrow_bit (two_pow_succ_le hn) hxn hyn
      refine ⟨fun hne => absurd hopen hne, ?_⟩
      rw [hopen, one_mul, hborrow, Bits.val_sub_add_borrow (two_pow_succ_le hn) hxn hyn]
      exact Nat.mod_lt _ (by positivity)
  · obtain ⟨hbit, hpin, hlt⟩ := hw
    rw [eval_sub, eval_one, eval_ofVar]
    refine ⟨hbit.one_sub, fun hopen hxn hyn => ?_, fun hshut => ?_⟩
    · rw [hopen, one_mul] at hlt
      exact Bits.borrow_unique (two_pow_succ_le hn) hxn hyn hbit.one_sub hlt
    · rw [hpin (by rw [hshut]; exact zero_ne_one), sub_zero]

/-- **A comparison**: for numbers of `n` bits, `lt` is one exactly where `x < y`. -/
lemma emitLessThan_spec (hb : b.Sound) {x y lt : LinearCombination} (hx : x.Below b.nextVarId)
    (hy : y.Below b.nextVarId) {n : ℕ}
    (h : b.emitLessThanGated lcHash n x y none = .ok (.ok (lt, b'))) (fakeGlv : FakeGlv) :
    b'.Sound ∧ lt.Below b'.nextVarId ∧
      Emission.Emits (emitter fakeGlv) (fun w => (x.eval w).val < 2 ^ n ∧ (y.eval w).val < 2 ^ n) b b'
        fun w => (x.eval w).val < 2 ^ n → (y.eval w).val < 2 ^ n →
          lt.eval w = Bits.borrow (x.eval w) (y.eval w) := by
  obtain ⟨hb', hlt, he⟩ := emitLessThanGated_spec hb hx hy (fun g hg => by cases hg) h fakeGlv
  exact ⟨hb', hlt, he.weaken (fun w _ hw => ⟨.inr rfl, fun _ => hw⟩) fun w _ hw => hw.2.1 rfl⟩

/-- **A wrapping difference** of numbers of `n` bits. -/
lemma emitWrappingSub_spec (hb : b.Sound) {x y out : LinearCombination} (hx : x.Below b.nextVarId)
    (hy : y.Below b.nextVarId) {n : ℕ} (hn : n ≤ 252)
    (h : b.emitWrappingSub lcHash n x y = .ok (out, b')) (fakeGlv : FakeGlv) :
    b'.Sound ∧ out.Below b'.nextVarId ∧
      Emission.Emits (emitter fakeGlv) (fun w => (x.eval w).val < 2 ^ n ∧ (y.eval w).val < 2 ^ n) b b'
        fun w => (x.eval w).val < 2 ^ n → (y.eval w).val < 2 ^ n →
          (out.eval w).val = ((x.eval w).val + 2 ^ n - (y.eval w).val) % 2 ^ n := by
  have hwidth : n < 2 ^ 32 := by omega
  rw [emitWrappingSub, dif_pos hwidth] at h
  obtain ⟨⟨ge, b₁⟩, h₁, h⟩ := Outcome.bind_eq_ok.mp h
  obtain ⟨⟨bits, b₂⟩, h₂, h⟩ := Outcome.bind_eq_ok.mp h
  obtain ⟨rfl, rfl⟩ := Prod.mk.inj (Except.ok.inj h)
  have ha := hb.alloc h₁
  have hdiff : (x - y + ofConst (2 ^ n)).Below b.nextVarId := (hx.sub hy).add (Below.ofConst _)
  obtain ⟨hb₁, hnext₁, hadds⟩ := hintBit_spec hb ha hdiff ⟨n, hwidth⟩ fakeGlv
  -- the row makes it a bit, and so it is remembered
  have hmark : ((b₁.pushWitness (some (.bit ge (x - y + ofConst (2 ^ n)) ⟨n, hwidth⟩))).emitBooleanity
      ge) = ((b₁.pushWitness (some (.bit ge (x - y + ofConst (2 ^ n)) ⟨n, hwidth⟩))).pushConstraint
        (ofVar ge) (ofVar ge) (ofVar ge)).markBoolean ge := by
    rw [emitBooleanity, if_neg]
    rw [hb₁.active]
    exact Bool.false_ne_true
  rw [hmark] at h₂
  have hb₁' := hb₁.markBoolean (v := ge) fun w hw => hadds.post w hw
  have hresult : (x - y + (one - ofVar ge).scale (2 ^ n)).Below b₁.nextVarId :=
    ((hx.sub hy).mono ha.appends.next_le).add ((Below.one.sub (below_ofVar.mpr ha.lt)).scale _)
  obtain ⟨hb₂, -, hrange⟩ := decomposeBits_spec hb₁' (hnext₁.symm ▸ hresult) h₂ fakeGlv
  refine ⟨hb₂, hresult.mono ?_, ?_⟩
  · rw [← hnext₁]
    exact hrange.next_le
  have heval : ∀ w : VarId → Fr, (x - y + (one - ofVar ge).scale (2 ^ n)).eval w
      = x.eval w - y.eval w + (1 - w ge) * 2 ^ n := by
    intro w
    rw [eval_add, eval_sub, eval_scale, eval_sub, eval_one, eval_ofVar]
    push_cast
    rfl
  have hmarked : Emission.Emits (emitter fakeGlv) (fun _ => True) _ _ fun _ => True :=
    (appends_markBoolean ge).emits_rows hb₁ fun w => by simp
  refine hadds.andThen (hmarked.seq hrange (P := fun w => (x.eval w).val < 2 ^ n ∧
      (y.eval w).val < 2 ^ n ∧ 1 - w ge = Bits.borrow (x.eval w) (y.eval w))
    (Q := fun w => (x.eval w - y.eval w + (1 - w ge) * 2 ^ n).val < 2 ^ n)
    (fun _ _ => True.intro) (fun w hw _ _ => ?_) fun w _ _ hw => ?_)
    (fun _ _ => True.intro) (fun w hw hH _ _ => ⟨hw.1, hw.2, ?_⟩) fun w _ hbit hw hxn hyn => ?_
  · rw [heval, hw.2.2, Bits.val_sub_add_borrow (two_pow_succ_le hn) hw.1 hw.2.1]
    exact Nat.mod_lt _ (by positivity)
  · rw [← heval]
    exact hw.1
  · rw [hH, eval_add, eval_sub, eval_ofConst]
    push_cast
    exact Bits.borrow_bit (two_pow_succ_le hn) hw.1 hw.2
  · rw [heval, Bits.borrow_unique (two_pow_succ_le hn) hxn hyn hbit.one_sub hw,
      Bits.val_sub_add_borrow (two_pow_succ_le hn) hxn hyn]

lemma canonical_emitWrappingSub {x y out : LinearCombination} {n : ℕ}
    (h : b.emitWrappingSub lcHash n x y = .ok (out, b')) : Canonical out.terms := by
  rw [emitWrappingSub] at h
  split_ifs at h with hn
  obtain ⟨⟨ge, b₁⟩, -, h⟩ := Outcome.bind_eq_ok.mp h
  obtain ⟨⟨bits, b₂⟩, -, h⟩ := Outcome.bind_eq_ok.mp h
  obtain ⟨rfl, rfl⟩ := Prod.mk.inj (Except.ok.inj h)
  exact canonical_add _ _

/-! ### Zero -/

lemma canonical_emitIsZero {input out : LinearCombination}
    (h : b.emitIsZero lcHash input = .ok (out, b')) : Canonical out.terms := by
  obtain ⟨⟨inv, b₁⟩, -, h⟩ := Outcome.bind_eq_ok.mp h
  obtain ⟨⟨prod, b₂⟩, -, h⟩ := Outcome.bind_eq_ok.mp h
  obtain ⟨⟨inputOut, b₃⟩, -, h⟩ := Outcome.bind_eq_ok.mp h
  obtain ⟨b₄, -, h⟩ := Outcome.bind_eq_ok.mp h
  obtain ⟨⟨invOut, b₅⟩, -, h⟩ := Outcome.bind_eq_ok.mp h
  obtain ⟨b₆, -, h⟩ := Outcome.bind_eq_ok.mp h
  obtain ⟨rfl, rfl⟩ := Prod.mk.inj (Except.ok.inj h)
  exact canonical_sub one prod

/-- **The test for zero** is one at zero, and zero elsewhere. -/
lemma emitIsZero_spec (hb : b.Sound) {input out : LinearCombination}
    (hi : input.Below b.nextVarId) (h : b.emitIsZero lcHash input = .ok (out, b'))
    (fakeGlv : FakeGlv) : b'.Sound ∧ out.Below b'.nextVarId ∧
      Emission.Emits (emitter fakeGlv) (fun _ => True) b b'
        fun w => out.eval w = if input.eval w = 0 then 1 else 0 := by
  obtain ⟨⟨inv, b₁⟩, h₁, h⟩ := Outcome.bind_eq_ok.mp h
  obtain ⟨⟨prod, b₂⟩, h₂, h⟩ := Outcome.bind_eq_ok.mp h
  obtain ⟨⟨inputOut, b₃⟩, h₃, h⟩ := Outcome.bind_eq_ok.mp h
  obtain ⟨b₄, h₄, h⟩ := Outcome.bind_eq_ok.mp h
  obtain ⟨⟨invOut, b₅⟩, h₅, h⟩ := Outcome.bind_eq_ok.mp h
  obtain ⟨b₆, h₆, h⟩ := Outcome.bind_eq_ok.mp h
  obtain ⟨rfl, rfl⟩ := Prod.mk.inj (Except.ok.inj h)
  have ha := hb.alloc h₁
  have hb₁ := ha.sound.pushWitness (some (.inverseOrZero inv input))
  have hhint := ha.adds hb (appends_pushWitness (some (.inverseOrZero inv input)))
    (P := fun _ => True) (Q := fun _ => True)
    (fun w => (follows_inverseOrZero fakeGlv w inv).mp)
    (fun w w' hagree => by rw [local_eval fakeGlv hi hagree]) (fun _ _ _ => True.intro)
    (fun _ _ _ _ _ hc => absurd hc List.not_mem_nil)
  have hi₁ : input.Below b₁.nextVarId := hi.mono ha.appends.next_le
  have hinv₁ : (ofVar inv).Below b₁.nextVarId := below_ofVar.mpr ha.lt
  obtain ⟨hb₂, hprod, e₂⟩ := emitMul_spec hb₁ hi₁ hinv₁ h₂ fakeGlv
  have hout₂ : (one - prod).Below b₂.nextVarId := Below.one.sub hprod
  obtain ⟨hb₃, hio, e₃⟩ := emitMul_spec hb₂ (hi₁.mono e₂.next_le) hout₂ h₃ fakeGlv
  obtain ⟨hb₄, hnext₄, e₄⟩ := emitRequireEq_spec hb₃ hio Below.zero h₄ fakeGlv
  have hle₄ : b₂.nextVarId ≤ b₄.nextVarId := e₃.next_le.trans hnext₄.ge
  have hb₄' := hb₄.consumePending (one - prod)
  obtain ⟨hb₅, hno, e₅⟩ := emitMul_spec hb₄' (consumePending_nextVarId (b := b₄) ▸
      (hinv₁.mono (Nat.le_trans e₂.next_le hle₄)))
    (consumePending_nextVarId (b := b₄) ▸ hout₂.mono hle₄) h₅ fakeGlv
  obtain ⟨hb₆, hnext₆, e₆⟩ := emitRequireEq_spec hb₅ hno Below.zero h₆ fakeGlv
  have hle₆ : b₂.nextVarId ≤ b₆.nextVarId := by
    have hle₅ : (b₄.consumePending (one - prod)).nextVarId ≤ b₅.nextVarId := e₅.next_le
    rw [consumePending_nextVarId] at hle₅
    exact hle₄.trans (hle₅.trans hnext₆.ge)
  refine ⟨hb₆, hout₂.mono hle₆, ?_⟩
  -- the two rows of the second half, given the product
  have hrest : Emission.Emits (emitter fakeGlv)
      (fun w => w inv = (input.eval w)⁻¹ ∧ prod.eval w = input.eval w * w inv) b₂ b₆
      fun w => input.eval w * (1 - prod.eval w) = 0 ∧ w inv * (1 - prod.eval w) = 0 := by
    have hfirst : Emission.Emits (emitter fakeGlv)
        (fun w => w inv = (input.eval w)⁻¹ ∧ prod.eval w = input.eval w * w inv) b₂ b₄
        fun w => input.eval w * (1 - prod.eval w) = 0 := by
      refine e₃.seq e₄ (fun _ _ => True.intro) (fun w hw _ hval => ?_) fun w _ hval heq => ?_
      · rw [hval, eval_sub, eval_one, eval_zero, hw.2, hw.1]
        by_cases hx : input.eval w = 0
        · rw [hx, zero_mul]
        · rw [mul_inv_cancel₀ hx, sub_self, mul_zero]
      · rw [hval, eval_sub, eval_one, eval_zero] at heq
        exact heq
    have hsecond : Emission.Emits (emitter fakeGlv)
        (fun w => w inv = (input.eval w)⁻¹ ∧ prod.eval w = input.eval w * w inv) b₄ b₆
        fun w => w inv * (1 - prod.eval w) = 0 := by
      refine (emits_consumePending hb₄ fakeGlv).seq (e₅.seq e₆ (P := fun w =>
          w inv = (input.eval w)⁻¹ ∧ prod.eval w = input.eval w * w inv)
        (Q := fun w => w inv * (1 - prod.eval w) = 0) (fun _ _ => True.intro)
        (fun w hw _ hval => ?_) fun w _ hval heq => ?_) (fun _ _ => True.intro)
        (fun _ hw _ _ => hw) fun _ _ _ hw => hw
      · rw [hval, eval_ofVar, eval_sub, eval_one, eval_zero, hw.2, hw.1]
        by_cases hx : input.eval w = 0
        · rw [hx, inv_zero, zero_mul]
        · rw [mul_inv_cancel₀ hx, sub_self, mul_zero]
      · rw [hval, eval_ofVar, eval_sub, eval_one, eval_zero] at heq
        exact heq
    exact hfirst.seq hsecond (fun _ hw => hw) (fun _ hw _ _ => hw) fun _ _ h h' => ⟨h, h'⟩
  refine hhint.andThen (e₂.seq hrest (P := fun w => w inv = (input.eval w)⁻¹)
    (Q := fun w => prod.eval w = input.eval w * w inv ∧ input.eval w * (1 - prod.eval w) = 0)
    (fun _ _ => True.intro) (fun w hw _ hval => ⟨hw, by rw [hval, eval_ofVar]⟩)
    fun w _ hval hw => ⟨by rw [hval, eval_ofVar], hw.1⟩)
    (fun _ _ => True.intro) (fun _ _ hH _ _ => hH) fun w _ _ hw => ?_
  rw [eval_sub, eval_one]
  split_ifs with hx
  · rw [hw.1, hx, zero_mul, sub_zero]
  · exact (mul_eq_zero.mp hw.2).resolve_left hx

end Builder

end Frontend

end XarkCircuit
