import XarkCircuit.Frontend.Integer
import XarkCircuit.Frontend.HostBits

/-!
Bounds of integers that need no rows.

* `natEval` reads a combination over the integers, with the variables' representatives below the
  modulus.
* `lcMax_spec`: the bound is one. `splitLc_spec`: the parts are the quotient and the remainder.
  `disjoint_spec`: numbers whose bits cannot overlap are added. `decidedCmp_spec`: the comparison.
-/

namespace XarkCircuit

namespace Frontend

open LinearCombination
open Verifier (rModulus)

namespace Host

variable {h : Host} {l : LinearCombination} {w : VarId → Fr}

lemma two_pow_lt_rModulus {n : ℕ} (hn : n ≤ 128) : 2 ^ n < rModulus :=
  (Nat.pow_le_pow_right (by norm_num) hn).trans_lt (by norm_num [rModulus])

/-! ### Over the integers -/

/-- The combination over the integers. -/
def natEval (l : LinearCombination) (w : VarId → Fr) : ℤ := l.eval fun v => ((w v).val : ℤ)

lemma cast_evalTerms (ts : List Term) (w : VarId → Fr) :
    ((evalTerms ts fun v => ((w v).val : ℤ) : ℤ) : Fr) = evalTerms ts w := by
  induction ts with
  | nil => simp
  | cons t ts ih =>
      rw [evalTerms_cons, evalTerms_cons, Int.cast_add, Int.cast_mul, ih, Int.cast_natCast,
        ZMod.natCast_zmod_val, Int.cast_id]

lemma cast_natEval (l : LinearCombination) (w : VarId → Fr) : (natEval l w : Fr) = l.eval w := by
  rw [natEval, eval, Int.cast_add, cast_evalTerms, Int.cast_id]
  rfl

/-- A number below the modulus is the value. -/
lemma val_eq_natEval {n : ℕ} (h0 : 0 ≤ natEval l w) (hn : natEval l w ≤ n) (hlt : n < rModulus) :
    ((l.eval w).val : ℤ) = natEval l w := by
  obtain ⟨m, hm⟩ := Int.eq_ofNat_of_zero_le h0
  rw [← cast_natEval, hm, Int.cast_natCast, ZMod.val_natCast_of_lt (by omega)]

lemma checkedU128_eq_some {n m : ℕ} : checkedU128 n = some m ↔ n < 2 ^ 128 ∧ n = m := by
  rw [checkedU128]
  split_ifs with hn
  · simp only [hn, Option.some.injEq, true_and]
  · simp only [hn, false_and]

lemma asI64_eq_some {c v : ℤ} : asI64 c = some v ↔ Const.FitsI64 c ∧ c = v := by
  rw [asI64]
  split_ifs with hc
  · simp [hc]
  · simp [hc]

lemma asU128_eq_some {c : ℤ} {n : ℕ} : asU128 c = some n ↔ Const.FitsI64 c ∧ c = n := by
  rw [asU128, Option.bind_eq_some_iff]
  constructor
  · rintro ⟨v, hv, hn⟩
    obtain ⟨hfits, rfl⟩ := asI64_eq_some.mp hv
    split_ifs at hn with h0
    have hval := Option.some.inj hn
    exact ⟨hfits, by omega⟩
  · rintro ⟨hfits, rfl⟩
    refine ⟨n, asI64_eq_some.mpr ⟨hfits, rfl⟩, ?_⟩
    rw [if_pos (Int.natCast_nonneg n), Int.toNat_natCast]

/-! ### Bounds -/

/-- No input is still to be checked: the assignments that satisfy the rows are in the ranges. -/
def Settled (h : Host) : Prop := h.uintInputs = []

lemma Settled.ranges (hs : h.Settled) (w : VarId → Fr) : h.Ranges w := by
  rw [Ranges, hs]
  exact fun u hu => absurd hu List.not_mem_nil

lemma Sound.varBound (hh : h.Sound) (hs : h.Settled) (hw : h.b.Sat w) {v : VarId} {m : ℕ}
    (hv : h.varBound v = some m) : (w v).val ≤ m := by
  rw [Host.varBound] at hv
  split_ifs at hv with hbool
  · obtain rfl := Option.some.inj hv
    have hbit := (hh.builder.boolean w hw v hbool).val_lt
    omega
  · have hwidth : ∀ n, (h.varWidth v).filter (· < 64) = some n → (w v).val ≤ 2 ^ n - 1 := by
      intro n hn
      have hlt := hh.widths v n (Option.filter_eq_some_iff.mp hn).1 w hw (hs.ranges w)
      omega
    split at hv
    next n k hn hk =>
      obtain rfl := Option.some.inj hv
      exact le_min (hwidth n hn) (hh.bounds v k hk w hw (hs.ranges w))
    next n hn hk =>
      obtain rfl := Option.some.inj hv
      exact hwidth n hn
    next k hn hk =>
      obtain rfl := Option.some.inj hv
      exact hh.bounds v k hk w hw (hs.ranges w)
    next => cases hv

/-- The bound of a sum of terms. -/
lemma Sound.addTermBounds (hh : h.Sound) (hs : h.Settled) {ts : List Term} {c m : ℕ}
    (hc : c < 2 ^ 128) (hm : ts.foldlM (addTermBound h) c = some m) :
    m < 2 ^ 128 ∧ (∀ t ∈ ts, 0 ≤ t.coeff) ∧ ∀ w, h.b.Sat w →
      0 ≤ evalTerms ts (fun v => ((w v).val : ℤ)) ∧
        c + evalTerms ts (fun v => ((w v).val : ℤ)) ≤ m := by
  induction ts generalizing c with
  | nil =>
      obtain rfl := Option.some.inj hm
      exact ⟨hc, fun _ ht => absurd ht List.not_mem_nil, fun _ _ => ⟨le_rfl, (add_zero _).le⟩⟩
  | cons t ts ih =>
      rw [List.foldlM_cons] at hm
      obtain ⟨k, hk, hm⟩ := Option.bind_eq_some_iff.mp hm
      rw [addTermBound] at hk
      obtain ⟨a, ha, hk⟩ := Option.bind_eq_some_iff.mp hk
      obtain ⟨v, hv, hk⟩ := Option.bind_eq_some_iff.mp hk
      obtain ⟨p, hp, hk⟩ := Option.bind_eq_some_iff.mp hk
      obtain ⟨hklt, rfl⟩ := checkedU128_eq_some.mp hk
      obtain ⟨-, rfl⟩ := checkedU128_eq_some.mp hp
      obtain ⟨-, hcoeff⟩ := asU128_eq_some.mp ha
      obtain ⟨hlt, hnonneg, hbounds⟩ := ih hklt hm
      refine ⟨hlt, List.forall_mem_cons.mpr ⟨hcoeff ▸ Int.natCast_nonneg a, hnonneg⟩, fun w hw => ?_⟩
      obtain ⟨h0, hle⟩ := hbounds w hw
      have hbound : (a : ℤ) * (w t.var).val ≤ a * v :=
        mul_le_mul_of_nonneg_left (Int.ofNat_le.mpr (hh.varBound hs hw hv)) (Int.natCast_nonneg a)
      have hpos : (0 : ℤ) ≤ a * (w t.var).val := by positivity
      rw [evalTerms_cons, Int.cast_id, hcoeff]
      push_cast at hle
      exact ⟨by omega, by omega⟩

lemma splitComputedBit0_spec {b : Builder} {c : ℤ} {rest : LinearCombination}
    (hsplit : splitComputedBit0 b l = some (c, rest)) : ∃ t ∈ l.terms, ∃ bits b0 lead top,
      b.computedBits t.var = some bits ∧ bits.head? = some b0 ∧ b0.terms.getLast? = some lead ∧
      asI64 lead.coeff = some top ∧ 0 < t.coeff.tdiv top ∧ 0 < c ∧ rest = l - b0.scale c := by
  obtain ⟨t, ht, hsplit⟩ := List.exists_of_findSome?_eq_some hsplit
  obtain ⟨bits, hbits, hsplit⟩ := Option.bind_eq_some_iff.mp hsplit
  obtain ⟨b0, hb0, hsplit⟩ := Option.bind_eq_some_iff.mp hsplit
  obtain ⟨lead, hlead, hsplit⟩ := Option.bind_eq_some_iff.mp hsplit
  obtain ⟨top, htop, hsplit⟩ := Option.bind_eq_some_iff.mp hsplit
  obtain ⟨coeff, hcoeff, hsplit⟩ := Option.bind_eq_some_iff.mp hsplit
  obtain ⟨-, rfl⟩ := asI64_eq_some.mp hcoeff
  dsimp only at hsplit
  split_ifs at hsplit with hdiv
  obtain ⟨rfl, rfl⟩ := Prod.mk.inj (Option.some.inj hsplit)
  exact ⟨t, List.mem_reverse.mp ht, bits, b0, lead, top, hbits, hb0, hlead, htop, hdiv.2, hdiv.2, rfl⟩

/-- Non-negative coefficients are not those of a computed bit 0. -/
lemma Sound.splitComputedBit0 (hh : h.Sound) (hnonneg : ∀ t ∈ l.terms, 0 ≤ t.coeff) :
    splitComputedBit0 h.b l = none := by
  cases hsplit : Host.splitComputedBit0 h.b l with
  | none => rfl
  | some r =>
      obtain ⟨c, rest⟩ := r
      obtain ⟨t, ht, bits, b0, lead, top, hbits, hb0, hlead, htop, hdiv, -, -⟩ :=
        splitComputedBit0_spec hsplit
      obtain ⟨-, rfl⟩ := asI64_eq_some.mp htop
      have hneg := (hh.builder.bits_form t.var bits hbits).2 b0 hb0 lead hlead
      exact absurd hdiv (not_lt.mpr (Int.tdiv_nonpos_of_nonneg_of_nonpos (hnonneg t ht) hneg.le))

lemma Sound.lcMax_terms (hh : h.Sound) (hs : h.Settled) {m : ℕ}
    (hm : ((asU128 l.constant).bind fun c => l.terms.foldlM (addTermBound h) c) = some m) :
    m < 2 ^ 128 ∧ (∀ t ∈ l.terms, 0 ≤ t.coeff) ∧
      ∀ w, h.b.Sat w → 0 ≤ natEval l w ∧ natEval l w ≤ m := by
  obtain ⟨c, hc, hm⟩ := Option.bind_eq_some_iff.mp hm
  obtain ⟨hfits, hconst⟩ := asU128_eq_some.mp hc
  have hclt : c < 2 ^ 128 := by
    have hupper := hfits.2
    omega
  obtain ⟨hlt, hnonneg, hbounds⟩ := hh.addTermBounds hs hclt hm
  refine ⟨hlt, hnonneg, fun w hw => ?_⟩
  obtain ⟨h0, hle⟩ := hbounds w hw
  rw [natEval, eval, hconst, Int.cast_id]
  exact ⟨by omega, hle⟩

/-- **The bound** is one, also where a computed bit is taken off. -/
lemma Sound.lcMaxLoop (hh : h.Sound) (hs : h.Settled) {fuel m : ℕ}
    (hm : lcMaxLoop h fuel l = some m) :
    m < 2 ^ 128 ∧ ∀ w, h.b.Sat w → (l.eval w).val ≤ m := by
  induction fuel generalizing l m with
  | zero => cases hm
  | succ fuel ih =>
      rw [Host.lcMaxLoop] at hm
      split at hm
      next c rest hsplit =>
        obtain ⟨k, hk, hm⟩ := Option.bind_eq_some_iff.mp hm
        obtain ⟨hlt, rfl⟩ := checkedU128_eq_some.mp hm
        obtain ⟨t, -, bits, b0, -, -, hbits, hb0, -, -, -, hc, hrest⟩ := splitComputedBit0_spec hsplit
        refine ⟨hlt, fun w hw => ?_⟩
        have hbit := hh.builder.bits w hw t.var bits hbits b0 (List.mem_of_mem_head? hb0)
        have hle := (ih hk).2 w hw
        obtain ⟨n, rfl⟩ := Int.eq_ofNat_of_zero_le hc.le
        have heval : l.eval w = rest.eval w + b0.eval w * n := by
          rw [hrest, eval_sub, eval_scale]
          push_cast
          ring
        rw [heval, Int.toNat_natCast]
        refine (ZMod.val_add_le _ _).trans (Nat.add_le_add hle ?_)
        rcases hbit with hzero | hone
        · rw [hzero, zero_mul, ZMod.val_zero]
          exact Nat.zero_le n
        · rw [hone, one_mul]
          rw [ZMod.val_natCast]
          exact Nat.mod_le n _
      next hsplit =>
        obtain ⟨hlt, h0, hbounds⟩ := hh.lcMax_terms hs hm
        refine ⟨hlt, fun w hw => ?_⟩
        obtain ⟨hpos, hle⟩ := hbounds w hw
        have hval := val_eq_natEval hpos hle (hlt.trans (two_pow_lt_rModulus le_rfl))
        omega

lemma Sound.lcMax (hh : h.Sound) (hs : h.Settled) {m : ℕ} (hm : h.lcMax l = some m) :
    m < 2 ^ 128 ∧ ∀ w, h.b.Sat w → (l.eval w).val ≤ m := hh.lcMaxLoop hs hm

/-- With coefficients that are not negative, the bound is one over the integers. -/
lemma Sound.lcMax_nonneg (hh : h.Sound) (hs : h.Settled) (hnonneg : ∀ t ∈ l.terms, 0 ≤ t.coeff) {m : ℕ}
    (hm : h.lcMax l = some m) : 0 ≤ l.constant ∧ m < 2 ^ 128 ∧ ∀ w, h.b.Sat w →
      natEval l w ≤ m ∧ ((l.eval w).val : ℤ) = natEval l w := by
  rw [Host.lcMax, Host.lcMaxLoop, hh.splitComputedBit0 hnonneg] at hm
  obtain ⟨c, hc, -⟩ := Option.bind_eq_some_iff.mp hm
  obtain ⟨hlt, h0, hbounds⟩ := hh.lcMax_terms hs hm
  refine ⟨(asU128_eq_some.mp hc).2 ▸ Int.natCast_nonneg c, hlt, fun w hw => ?_⟩
  obtain ⟨hpos, hle⟩ := hbounds w hw
  exact ⟨hle, val_eq_natEval hpos hle (hlt.trans (two_pow_lt_rModulus le_rfl))⟩

/-! ### Parts -/

lemma eval_splitTerms {m : ℤ} (ts : List Term) (parts : LinearCombination × LinearCombination)
    (x : VarId → ℤ) :
    (ts.foldl (splitTerm m) parts).1.eval x
        = parts.1.eval x + (ts.map fun t => t.coeff % m * x t.var).sum ∧
      (ts.foldl (splitTerm m) parts).2.eval x
        = parts.2.eval x + (ts.map fun t => t.coeff / m * x t.var).sum := by
  induction ts generalizing parts with
  | nil => simp
  | cons t ts ih =>
      rw [List.foldl_cons, (ih _).1, (ih _).2, List.map_cons, List.map_cons, List.sum_cons,
        List.sum_cons]
      have hpart : ∀ (l : LinearCombination) (c : ℤ),
          (if c ≠ 0 then l + (ofVar t.var).scale c else l).eval x = l.eval x + c * x t.var := by
        intro l c
        split_ifs with hc
        · rw [eval_add, eval_scale, eval_ofVar, Int.cast_id, mul_comm]
        · rw [not_not.mp hc, zero_mul, add_zero]
      rw [splitTerm, hpart, hpart]
      exact ⟨by ring, by ring⟩

lemma below_splitTerms {m : ℤ} {n : ℕ} {ts : List Term} (hts : ∀ t ∈ ts, t.var.val < n)
    (parts : LinearCombination × LinearCombination) (hparts : parts.1.Below n ∧ parts.2.Below n) :
    (ts.foldl (splitTerm m) parts).1.Below n ∧ (ts.foldl (splitTerm m) parts).2.Below n := by
  induction ts generalizing parts with
  | nil => exact hparts
  | cons t ts ih =>
      have hvar := below_ofVar.mpr (hts t List.mem_cons_self)
      have hpart : ∀ (l : LinearCombination) (c : ℤ), l.Below n →
          (if c ≠ 0 then l + (ofVar t.var).scale c else l).Below n := by
        intro l c hl
        split_ifs
        · exact hl.add (hvar.scale c)
        · exact hl
      exact ih (fun t' ht' => hts t' (List.mem_cons_of_mem t ht')) _
        ⟨hpart _ _ hparts.1, hpart _ _ hparts.2⟩

lemma sum_nonneg {ts : List Term} {f : ℤ → ℤ} (hf : ∀ t ∈ ts, 0 ≤ f t.coeff) (w : VarId → Fr) :
    0 ≤ (ts.map fun t => f t.coeff * ((w t.var).val : ℤ)).sum := by
  refine List.sum_nonneg fun z hz => ?_
  obtain ⟨t, ht, rfl⟩ := List.mem_map.mp hz
  exact mul_nonneg (hf t ht) (Int.natCast_nonneg _)

lemma sum_split (ts : List Term) (m : ℤ) (x : VarId → ℤ) :
    (ts.map fun t => t.coeff % m * x t.var).sum + m * (ts.map fun t => t.coeff / m * x t.var).sum
      = evalTerms ts x := by
  induction ts with
  | nil => simp
  | cons t ts ih =>
      rw [List.map_cons, List.map_cons, List.sum_cons, List.sum_cons, evalTerms_cons, ← ih, Int.cast_id]
      conv_rhs => rw [← Int.emod_add_mul_ediv t.coeff m]
      ring

lemma canonical_splitTerms {m : ℤ} (ts : List Term) (parts : LinearCombination × LinearCombination)
    (hparts : Canonical parts.1.terms ∧ Canonical parts.2.terms) :
    Canonical (ts.foldl (splitTerm m) parts).1.terms ∧
      Canonical (ts.foldl (splitTerm m) parts).2.terms := by
  induction ts generalizing parts with
  | nil => exact hparts
  | cons t ts ih =>
      have hpart : ∀ (l : LinearCombination) (c : ℤ), Canonical l.terms →
          Canonical (if c ≠ 0 then l + (ofVar t.var).scale c else l).terms := by
        intro l c hl
        split_ifs
        · exact canonical_add _ _
        · exact hl
      exact ih _ ⟨hpart _ _ hparts.1, hpart _ _ hparts.2⟩

lemma canonical_splitLc {k : ℕ} {low high : LinearCombination}
    (hsplit : h.splitLc l k = some (low, high)) : Canonical low.terms ∧ Canonical high.terms := by
  rw [Host.splitLc] at hsplit
  split_ifs at hsplit
  obtain ⟨m, -, hsplit⟩ := Option.bind_eq_some_iff.mp hsplit
  obtain ⟨c, -, hsplit⟩ := Option.bind_eq_some_iff.mp hsplit
  obtain ⟨mlow, -, hsplit⟩ := Option.bind_eq_some_iff.mp hsplit
  split_ifs at hsplit
  have hparts := canonical_splitTerms (m := 2 ^ k) l.terms
    (ofConst (c % 2 ^ k), ofConst (c / 2 ^ k)) ⟨canonical_nil, canonical_nil⟩
  rwa [Option.some.inj hsplit] at hparts

/-- **The parts** of a combination that is split are the remainder and the quotient. -/
lemma Sound.splitLc (hh : h.Sound) (hs : h.Settled) {k : ℕ} {low high : LinearCombination}
    (hl : l.Below h.b.nextVarId) (hsplit : h.splitLc l k = some (low, high)) :
    low.Below h.b.nextVarId ∧ high.Below h.b.nextVarId ∧ ∀ w, h.b.Sat w →
      (low.eval w).val = (l.eval w).val % 2 ^ k ∧ (high.eval w).val = (l.eval w).val / 2 ^ k := by
  rw [Host.splitLc] at hsplit
  split_ifs at hsplit with hk
  obtain ⟨m, hm, hsplit⟩ := Option.bind_eq_some_iff.mp hsplit
  obtain ⟨c, hc, hsplit⟩ := Option.bind_eq_some_iff.mp hsplit
  obtain ⟨mlow, hmlow, hsplit⟩ := Option.bind_eq_some_iff.mp hsplit
  obtain ⟨-, rfl⟩ := asI64_eq_some.mp hc
  split_ifs at hsplit with hlt
  have hparts := Option.some.inj hsplit
  have hnonneg : ∀ t ∈ l.terms, 0 ≤ t.coeff := by
    intro t ht
    rw [not_or, Bool.not_eq_true, List.any_eq_false] at hk
    cases hcoeff : asU128 t.coeff with
    | none => exact absurd (by rw [hcoeff]; rfl) (hk.2 t ht)
    | some n => exact (asU128_eq_some.mp hcoeff).2 ▸ Int.natCast_nonneg n
  obtain ⟨hconst, hm128, hbounds⟩ := hh.lcMax_nonneg hs hnonneg hm
  have hbelow := below_splitTerms (m := 2 ^ k) (n := h.b.nextVarId)
    (fun t ht => hl t.var (List.mem_map_of_mem ht))
    (ofConst (l.constant % 2 ^ k), ofConst (l.constant / 2 ^ k))
    ⟨Below.ofConst _, Below.ofConst _⟩
  rw [hparts] at hbelow
  refine ⟨hbelow.1, hbelow.2, fun w hw => ?_⟩
  obtain ⟨hle, hval⟩ := hbounds w hw
  have hmax := (hh.lcMax hs hmlow).2 w hw
  rw [hparts] at hmax
  have hsums := eval_splitTerms (m := 2 ^ k) l.terms
    (ofConst (l.constant % 2 ^ k), ofConst (l.constant / 2 ^ k)) fun v => ((w v).val : ℤ)
  rw [hparts, eval_ofConst, eval_ofConst, Int.cast_id, Int.cast_id] at hsums
  have hpow : (0 : ℤ) < 2 ^ k := by positivity
  have hlow0 : 0 ≤ natEval low w := by
    rw [natEval, hsums.1]
    exact add_nonneg (Int.emod_nonneg _ hpow.ne') (sum_nonneg (f := (· % 2 ^ k))
      (fun t _ => Int.emod_nonneg _ hpow.ne') w)
  have hhigh0 : 0 ≤ natEval high w := by
    rw [natEval, hsums.2]
    exact add_nonneg (Int.ediv_nonneg hconst hpow.le) (sum_nonneg (f := (· / 2 ^ k))
      (fun t ht => Int.ediv_nonneg (hnonneg t ht) hpow.le) w)
  have hsum : natEval l w = natEval low w + 2 ^ k * natEval high w := by
    rw [natEval, natEval, natEval, hsums.1, hsums.2, eval, ← sum_split l.terms (2 ^ k), Int.cast_id]
    conv_lhs => rw [← Int.emod_add_mul_ediv l.constant (2 ^ k)]
    ring
  have hone : natEval high w ≤ 2 ^ k * natEval high w := le_mul_of_one_le_left hhigh0 (by omega)
  have hp : m < rModulus := hm128.trans (two_pow_lt_rModulus le_rfl)
  have hlow := val_eq_natEval hlow0 (by omega) hp
  have hhigh := val_eq_natEval hhigh0 (by omega) hp
  have hsumval : (l.eval w).val = (low.eval w).val + 2 ^ k * (high.eval w).val := by
    zify
    rw [hval, hlow, hhigh, hsum]
  have hlowlt : (low.eval w).val < 2 ^ k := hmax.trans_lt hlt
  rw [hsumval, Nat.add_mul_mod_self_left, Nat.mod_eq_of_lt hlowlt,
    Nat.add_mul_div_left _ _ (Nat.two_pow_pos k), Nat.div_eq_of_lt hlowlt, zero_add]
  exact ⟨rfl, rfl⟩

/-! ### Bits that cannot overlap -/

lemma testBit_of_lt_trailingZeros {c i : ℕ} (hi : i < trailingZeros c) : c.testBit i = false := by
  rw [trailingZeros] at hi
  cases hfind : (List.range 63).find? fun i => c.testBit i with
  | none =>
      rw [hfind] at hi
      exact Bool.not_eq_true _ ▸ List.find?_eq_none.mp hfind i (List.mem_range.mpr hi)
  | some j =>
      rw [hfind, Option.getD_some] at hi
      obtain ⟨-, as, bs, hrange, hbefore⟩ := List.find?_eq_some_iff_append.mp hfind
      have hlen : as.length = j := by
        have hget := congrArg (fun l => l[as.length]?) hrange
        simp only [List.getElem?_append_right le_rfl, Nat.sub_self, List.getElem?_cons_zero] at hget
        rw [List.getElem?_range] at hget
        · exact Option.some.inj hget
        · have hall := congrArg List.length hrange
          rw [List.length_range, List.length_append, List.length_cons] at hall
          omega
      have hmem : i ∈ as := by
        have hget : (as ++ j :: bs)[i]? = some i := by
          rw [← hrange]
          exact List.getElem?_range (by have := List.mem_range.mp (List.mem_of_find?_eq_some hfind); omega)
        rw [List.getElem?_append_left (by omega)] at hget
        exact List.mem_of_getElem? hget
      simpa using hbefore i hmem

/-- The power of two divides. -/
lemma two_pow_trailingZeros_dvd (c : ℕ) : 2 ^ trailingZeros c ∣ c := by
  refine Nat.dvd_of_mod_eq_zero (Nat.eq_of_testBit_eq fun i => ?_)
  rw [Nat.testBit_mod_two_pow, Nat.zero_testBit]
  by_cases hi : i < trailingZeros c
  · rw [testBit_of_lt_trailingZeros hi, Bool.and_false]
  · rw [decide_eq_false hi, Bool.false_and]

lemma trailingZeros_two_pow {k : ℕ} (hk : k ≤ 63) : trailingZeros (2 ^ k) = k := by
  refine le_antisymm ?_ ?_
  · exact (Nat.pow_dvd_pow_iff_le_right (by norm_num)).mp (two_pow_trailingZeros_dvd (2 ^ k))
  · by_contra hlt
    have hbound : trailingZeros (2 ^ k) < 63 := (not_le.mp hlt).trans_le hk
    rw [trailingZeros] at hbound
    cases hfind : (List.range 63).find? fun i => (2 ^ k).testBit i with
    | none =>
        rw [hfind] at hbound
        exact absurd hbound (lt_irrefl _)
    | some j =>
        have hbit := List.find?_some hfind
        rw [Nat.testBit_two_pow, decide_eq_true_eq] at hbit
        rw [trailingZeros, hfind, Option.getD_some, hbit] at hlt
        exact hlt le_rfl

lemma minTrailingZeros_dvd {cs : List FieldConst} {init k : ℕ}
    (hk : cs.foldlM minTrailingZeros init = some k) :
    k ≤ init ∧ ∀ c ∈ cs, 0 ≤ c ∧ (2 : ℤ) ^ k ∣ c := by
  induction cs generalizing init with
  | nil =>
      obtain rfl := Option.some.inj hk
      exact ⟨le_rfl, fun _ hc => absurd hc List.not_mem_nil⟩
  | cons c cs ih =>
      rw [List.foldlM_cons] at hk
      obtain ⟨next, hnext, hk⟩ := Option.bind_eq_some_iff.mp hk
      obtain ⟨hle, hcs⟩ := ih hk
      obtain ⟨n, hn, hval⟩ := Option.map_eq_some_iff.mp hnext
      obtain ⟨-, rfl⟩ := asU128_eq_some.mp hn
      by_cases hzero : n = 0
      · rw [if_pos hzero] at hval
        refine ⟨hle.trans hval.ge, List.forall_mem_cons.mpr ⟨⟨Int.natCast_nonneg n, ?_⟩, hcs⟩⟩
        rw [hzero]
        exact dvd_zero _
      · rw [if_neg hzero] at hval
        refine ⟨hle.trans (hval.ge.trans (min_le_left _ _)),
          List.forall_mem_cons.mpr ⟨⟨Int.natCast_nonneg n, ?_⟩, hcs⟩⟩
        have hdvd : 2 ^ k ∣ n := (pow_dvd_pow 2 (hle.trans (hval.ge.trans (min_le_right _ _)))).trans
          (two_pow_trailingZeros_dvd n)
        exact_mod_cast Int.natCast_dvd_natCast.mpr hdvd

/-- A number of which the low bits are zero, and one below. -/
lemma Sound.fitsBelow (hh : h.Sound) (hs : h.Settled) {hi lo : LinearCombination}
    (hfits : h.fitsBelow hi lo = true) (hw : h.b.Sat w) :
    ∃ k a, (hi.eval w).val = 2 ^ k * a ∧ (hi.eval w).val < 2 ^ 128 ∧
      (lo.eval w).val < 2 ^ k ∧ (lo.eval w).val < 2 ^ 128 := by
  rw [Host.fitsBelow, Bool.and_eq_true, Bool.and_eq_true] at hfits
  obtain ⟨⟨-, hsome⟩, hmatch⟩ := hfits
  obtain ⟨m, hm⟩ := Option.isSome_iff_exists.mp hsome
  split at hmatch
  next k max hk hmax =>
    obtain ⟨-, hall⟩ := minTrailingZeros_dvd hk
    obtain ⟨-, hconst⟩ := hall _ List.mem_cons_self
    have hterms : ∀ t ∈ hi.terms, 0 ≤ t.coeff ∧ (2 : ℤ) ^ k ∣ t.coeff :=
      fun t ht => hall _ (List.mem_cons_of_mem _ (List.mem_map_of_mem ht))
    obtain ⟨-, hm128, hbounds⟩ := hh.lcMax_nonneg hs (fun t ht => (hterms t ht).1) hm
    obtain ⟨hle, hval⟩ := hbounds w hw
    have hdvd : (2 : ℤ) ^ k ∣ natEval hi w := by
      rw [natEval, eval, Int.cast_id]
      refine dvd_add hconst (List.dvd_sum fun z hz => ?_)
      obtain ⟨t, ht, rfl⟩ := List.mem_map.mp hz
      exact (Int.cast_id (n := t.coeff)).symm ▸ (hterms t ht).2.mul_right _
    have hnat : 2 ^ k ∣ (hi.eval w).val := by
      rw [← hval] at hdvd
      exact_mod_cast hdvd
    obtain ⟨a, ha⟩ := hnat
    obtain ⟨hmax128, hlo⟩ := hh.lcMax hs hmax
    exact ⟨k, a, ha, by omega, (hlo w hw).trans_lt (of_decide_eq_true hmatch),
      (hlo w hw).trans_lt hmax128⟩
  next => cases hmatch

lemma or_eq_add {k a b : ℕ} (hb : b < 2 ^ k) :
    2 ^ k * a ||| b = 2 ^ k * a + b ∧ 2 ^ k * a ^^^ b = 2 ^ k * a + b := by
  have hor := Nat.two_pow_add_eq_or_of_lt hb a
  refine ⟨hor.symm, ?_⟩
  rw [hor]
  refine Nat.eq_of_testBit_eq fun i => ?_
  rw [Nat.testBit_xor, Nat.testBit_or]
  by_cases hi : i < k
  · have hlow : (2 ^ k * a).testBit i = false := by
      rw [Nat.testBit_two_pow_mul, decide_eq_false (not_le.mpr hi), Bool.false_and]
    rw [hlow, Bool.false_xor, Bool.false_or]
  · have hhigh : b.testBit i = false :=
      Nat.testBit_lt_two_pow (hb.trans_le (Nat.pow_le_pow_right (by norm_num) (not_lt.mp hi)))
    rw [hhigh, Bool.xor_false, Bool.or_false]

/-- **Numbers whose bits cannot overlap** are added. -/
lemma Sound.disjoint (hh : h.Sound) (hs : h.Settled) {x y : LinearCombination}
    (hxy : h.disjoint x y = true) (hw : h.b.Sat w) :
    (x.eval w).val ||| (y.eval w).val = (x.eval w).val + (y.eval w).val ∧
      (x.eval w).val ^^^ (y.eval w).val = (x.eval w).val + (y.eval w).val := by
  rw [Host.disjoint, Bool.or_eq_true] at hxy
  rcases hxy with hfits | hfits
  · obtain ⟨k, a, ha, -, hlo, -⟩ := hh.fitsBelow hs hfits hw
    rw [ha]
    exact or_eq_add hlo
  · obtain ⟨k, a, ha, -, hlo, -⟩ := hh.fitsBelow hs hfits hw
    rw [ha, Nat.or_comm, Nat.xor_comm, add_comm]
    exact or_eq_add hlo

/-! ### Comparisons -/

lemma Sound.lcRange (hh : h.Sound) (hs : h.Settled) {lo hi : ℕ} (hrange : h.lcRange l = some (lo, hi))
    (hw : h.b.Sat w) : lo ≤ (l.eval w).val ∧ (l.eval w).val ≤ hi := by
  rw [Host.lcRange] at hrange
  split_ifs at hrange with hconst
  · obtain ⟨c, hc, hval⟩ := Option.map_eq_some_iff.mp hrange
    obtain ⟨rfl, rfl⟩ := Prod.mk.inj hval
    obtain ⟨hfits, hc⟩ := asU128_eq_some.mp hc
    have hlt : c < rModulus := by
      have hupper := hfits.2
      rw [hc] at hupper
      have hp := two_pow_lt_rModulus (n := 63) (by norm_num)
      omega
    rw [eval_of_isConstant hconst, hc, Int.cast_natCast, ZMod.val_natCast_of_lt hlt]
    exact ⟨le_rfl, le_rfl⟩
  · obtain ⟨m, hm, hval⟩ := Option.map_eq_some_iff.mp hrange
    obtain ⟨rfl, rfl⟩ := Prod.mk.inj hval
    exact ⟨Nat.zero_le _, (hh.lcMax hs hm).2 w hw⟩

/-- **A comparison that the bounds decide.** -/
lemma Sound.decidedCmp (hh : h.Sound) (hs : h.Settled) {o : Cmp} {x y : LinearCombination} {v : Bool}
    (hv : h.decidedCmp o x y = some v) (hw : h.b.Sat w) :
    unsignedCmp o (x.eval w).val (y.eval w).val = some v := by
  obtain ⟨⟨alo, ahi⟩, hx, hv⟩ := Option.bind_eq_some_iff.mp hv
  obtain ⟨⟨blo, bhi⟩, hy, hv⟩ := Option.bind_eq_some_iff.mp hv
  have hxr := hh.lcRange hs hx hw
  have hyr := hh.lcRange hs hy hw
  generalize (x.eval w).val = a at *
  generalize (y.eval w).val = b at *
  dsimp only at hv
  cases o <;> simp only [unsignedCmp, reduceCtorEq, Option.some.injEq] at hv ⊢
  all_goals
    split_ifs at hv
    all_goals
      rw [← Option.some.inj hv]
      simp only [decide_eq_true_eq, decide_eq_false_iff_not]
      omega

end Host

end Frontend

end XarkCircuit
