import XarkCircuit.Frontend.BuilderOps
import XarkCircuit.Frontend.Host

/-!
Constants and bits that the host knows.

* `eval_reduceLc`: reducing the constants keeps the value.
* `toBitsLe_spec`: the bits of a constant are those of its value in the field.
* `bitSumShortcut_spec`: a sum that is recognized is made of its own bits.
-/

namespace XarkCircuit

namespace Frontend

open LinearCombination Emission Emission.Emitter
open Verifier (rModulus)

namespace Host

/-! ### Constants -/

lemma cast_fix (c : FieldConst) : ((fix rModulus c).1 : Fr) = c := by
  rw [fix]
  split_ifs with hsmall
  · rfl
  · dsimp only
    split_ifs
    · rw [Int.cast_sub, ZMod.intCast_mod, Int.cast_natCast, ZMod.natCast_self, sub_zero]
    · rw [ZMod.intCast_mod]

lemma vars_reduceLc {reduce : Option ℕ} {l : LinearCombination} {v : VarId}
    (h : v ∈ (reduceLc reduce l).vars) : v ∈ l.vars := by
  cases reduce with
  | none => exact h
  | some p =>
      have hvars : ∀ c, (⟨c, (l.terms.map fun t => (fix p t.coeff, t.var)).map
          fun t => ⟨t.1.1, t.2⟩⟩ : LinearCombination).vars = l.vars := by
        intro c
        simp [vars, Function.comp_def]
      rw [reduceLc] at h
      split_ifs at h
      · have hmem := mem_vars_simplified h
        rwa [hvars] at hmem
      · rwa [hvars] at h

lemma below_reduceLc {reduce : Option ℕ} {l : LinearCombination} {n : ℕ} (h : l.Below n) :
    (reduceLc reduce l).Below n := fun v hv => h v (vars_reduceLc hv)

/-- **Reduced constants** have the same value in the field. -/
lemma eval_reduceLc {reduce : Option ℕ} (hp : ∀ p ∈ reduce, p = rModulus) (l : LinearCombination)
    (w : VarId → Fr) : (reduceLc reduce l).eval w = l.eval w := by
  cases reduce with
  | none => rfl
  | some p =>
      obtain rfl := hp p rfl
      have hvalue : (⟨(fix rModulus l.constant).1,
          (l.terms.map fun t => (fix rModulus t.coeff, t.var)).map fun t => ⟨t.1.1, t.2⟩⟩ :
            LinearCombination).eval w = l.eval w := by
        simp only [eval, evalTerms, List.map_map, Function.comp_def, cast_fix]
      rw [reduceLc]
      split_ifs
      · rw [eval_simplified, hvalue]
      · exact hvalue

/-! ### Bits -/

lemma eval_bitLc (c : Bool) (w : VarId → Fr) : (bitLc c).eval w = if c then 1 else 0 := by
  cases c
  · exact eval_zero w
  · exact eval_one w

/-- **The bits of a constant** are those of its value. -/
lemma toBitsLe_spec {c : FieldConst} {n : ℕ} {bits : List Bool} (h : toBitsLe c n = some bits)
    (w : VarId → Fr) : AreBits (bits.map bitLc) n (c : Fr) w := by
  rw [toBitsLe] at h
  split_ifs at h with hfits
  obtain rfl := Option.some.inj h
  refine ⟨Nat.size_le.mp (not_lt.mp hfits), ?_⟩
  rw [values, bitList, List.map_map, List.map_map]
  refine List.map_congr_left fun i _ => ?_
  change (bitLc _).eval w = Bits.bitOf _ _
  rw [eval_bitLc, Bits.bitOf]
  congr 1
  -- the value has fewer than 256 bits
  rw [Bool.and_eq_true, decide_eq_true_eq, eq_iff_iff, and_iff_right_iff_imp]
  intro hbit
  by_contra hi
  have hlt : ((c : Fr).val) < 2 ^ i := (ZMod.val_lt (c : Fr)).trans_le
    ((Nat.le_of_lt (by norm_num [rModulus] : rModulus < 2 ^ 256)).trans
      (Nat.pow_le_pow_right (by norm_num) (not_lt.mp hi)))
  rw [Nat.testBit_lt_two_pow hlt] at hbit
  exact Bool.false_ne_true hbit

/-- The combination of bits has the value that they have. -/
lemma eval_recompose (bits : List LinearCombination) (w : VarId → Fr) :
    (recompose bits).eval w
      = ∑ i ∈ Finset.range bits.length, (values bits w).getD i 0 * 2 ^ i := by
  have hfold : ∀ (bits : List LinearCombination) (acc : LinearCombination) (k : ℕ),
      ((bits.zipIdx k).foldl (fun acc l => acc + l.1.scale (2 ^ l.2)) acc).eval w
        = acc.eval w + ∑ i ∈ Finset.range bits.length, (values bits w).getD i 0 * 2 ^ (k + i) := by
    intro bits
    induction bits with
    | nil => intro acc k; simp
    | cons l bits ih =>
        intro acc k
        rw [List.zipIdx_cons, List.foldl_cons, ih, eval_add, eval_scale, List.length_cons,
          Finset.sum_range_succ']
        simp only [values, List.map_cons, List.getD_cons_succ, List.getD_cons_zero, Nat.add_zero]
        push_cast
        rw [add_assoc, add_comm (l.eval w * 2 ^ k)]
        refine congrArg (acc.eval w + ·) (congrArg₂ (· + ·) (Finset.sum_congr rfl fun i _ => ?_) ?_)
        · rw [Nat.add_assoc, Nat.add_comm 1 i]
        · rfl
  rw [recompose, hfold, eval_zero, zero_add]
  simp only [Nat.zero_add]

lemma below_recompose {bits : List LinearCombination} {n : ℕ} (h : ∀ l ∈ bits, l.Below n) :
    (recompose bits).Below n := by
  have hfold : ∀ (bits : List (LinearCombination × ℕ)) (acc : LinearCombination), acc.Below n →
      (∀ l ∈ bits, l.1.Below n) →
        (bits.foldl (fun acc l => acc + l.1.scale (2 ^ l.2)) acc).Below n := by
    intro bits
    induction bits with
    | nil => exact fun acc hacc _ => hacc
    | cons l bits ih =>
        intro acc hacc hbits
        rw [List.forall_mem_cons] at hbits
        exact ih _ (hacc.add (hbits.1.scale _)) hbits.2
  refine hfold _ _ Below.zero fun l hl => h l.1 ?_
  exact List.mem_of_getElem? (List.mem_zipIdx_iff_getElem?.mp hl)

/-- Proven bits that add up to `x` are its bits. -/
lemma areBits_of_recompose (bits : List LinearCombination) (hn : bits.length ≤ 253) {x : Fr}
    {w : VarId → Fr} (hbits : ∀ l ∈ bits, IsBit (l.eval w)) (hx : (recompose bits).eval w = x) :
    AreBits bits bits.length x w := by
  refine Builder.eq_bitList hn (by rw [values, List.length_map]) ?_ (by rw [← eval_recompose, hx])
  intro y hy
  obtain ⟨l, hl, rfl⟩ := List.mem_map.mp hy
  exact hbits l hl

lemma canonical_recompose (bits : List LinearCombination) : Canonical (recompose bits).terms := by
  cases List.eq_nil_or_concat' bits.zipIdx with
  | inl hnil =>
      rw [recompose, hnil]
      exact canonical_nil
  | inr hlast =>
      obtain ⟨ls, l, hls⟩ := hlast
      rw [recompose, hls, List.foldl_append]
      exact canonical_add _ _

lemma recompose_of_areBits {bits : List LinearCombination} {n : ℕ} {x : Fr} {w : VarId → Fr}
    (h : AreBits bits n x w) : (recompose bits).eval w = x := by
  have hlen : bits.length = n := by
    have hlen := congrArg List.length h.2
    rwa [values, List.length_map, bitList, List.length_map, List.length_range] at hlen
  rw [eval_recompose, h.2, hlen]
  refine (Finset.sum_congr rfl fun i hi => ?_).trans (Bits.sum_bitOf_val h.1)
  rw [Builder.getD_bitList (Finset.mem_range.mp hi)]

/-! ### Sums of bits -/

/-- What the places that are taken add up to. -/
def slotSum (n : ℕ) (slots : List (Option VarId)) (w : VarId → Fr) : Fr :=
  ∑ i ∈ Finset.range n, ((slots[i]?.getD none).elim 0 w) * 2 ^ i

lemma slotSum_set {n i : ℕ} (hi : i < n) {slots : List (Option VarId)} (hlen : slots.length = n)
    (hfree : slots[i]?.getD none = none) (v : VarId) (w : VarId → Fr) :
    slotSum n (slots.set i (some v)) w = slotSum n slots w + w v * 2 ^ i := by
  have hmem : i ∈ Finset.range n := Finset.mem_range.mpr hi
  rw [slotSum, slotSum, ← Finset.add_sum_erase _ _ hmem, ← Finset.add_sum_erase (Finset.range n)
    (fun i => ((slots[i]?.getD none).elim 0 w) * 2 ^ i) hmem]
  have hself : ((slots.set i (some v))[i]?.getD none) = some v := by
    rw [List.getElem?_set_self (hlen ▸ hi)]
    rfl
  have hrest : ∀ j ∈ (Finset.range n).erase i,
      (((slots.set i (some v))[j]?.getD none).elim 0 w) * 2 ^ j
        = ((slots[j]?.getD none).elim 0 w) * 2 ^ j := by
    intro j hj
    rw [List.getElem?_set_ne (Finset.ne_of_mem_erase hj).symm]
  rw [hself, hfree, Finset.sum_congr rfl hrest]
  simp only [Option.elim_some, Option.elim_none, zero_mul, zero_add]
  exact add_comm _ _

/-- One term takes the place of its power of two. -/
lemma placeBit_spec {isBoolean : VarId → Bool} {n : ℕ} {slots slots' : List (Option VarId)}
    {seen seen' : List VarId} {t : Term} (hlen : slots.length = n)
    (h : placeBit isBoolean n (slots, seen) t = some (slots', seen')) :
    slots'.length = n ∧ isBoolean t.var = true ∧
      (∀ v, some v ∈ slots' → some v ∈ slots ∨ v = t.var) ∧
      ∀ w : VarId → Fr, slotSum n slots' w = slotSum n slots w + t.coeff * w t.var := by
  rw [placeBit] at h
  split at h
  · cases h
  · next i hi =>
      obtain ⟨hin, hcoeff⟩ : i < n ∧ (2 : ℤ) ^ i = t.coeff := by
        have hmem := List.mem_of_find?_eq_some hi
        exact ⟨List.mem_range.mp hmem,
          of_decide_eq_true (List.find?_some (p := fun i => decide ((2 : ℤ) ^ i = t.coeff)) hi)⟩
      split_ifs at h with hcond
      obtain ⟨rfl, rfl⟩ := Prod.mk.inj (Option.some.inj h)
      simp only [Bool.or_eq_true, decide_eq_true_eq, Bool.not_eq_true', not_or,
        Bool.not_eq_true, Option.isSome_eq_false_iff, Option.isNone_iff_eq_none,
        Bool.not_eq_false] at hcond
      obtain ⟨⟨hfree, -⟩, hbool⟩ := hcond
      refine ⟨by rw [List.length_set, hlen], hbool, fun v hv => ?_, fun w => ?_⟩
      · exact (List.mem_or_eq_of_mem_set hv).imp_right Option.some.inj
      · rw [slotSum_set hin hlen hfree, ← hcoeff]
        push_cast
        rw [mul_comm (2 ^ i)]

/-- All the terms take places. -/
lemma placeBits_spec {isBoolean : VarId → Bool} {n : ℕ} {ts : List Term}
    {slots slots' : List (Option VarId)} {seen seen' : List VarId} (hlen : slots.length = n)
    (h : ts.foldlM (placeBit isBoolean n) (slots, seen) = some (slots', seen')) :
    slots'.length = n ∧
      (∀ v, some v ∈ slots' → some v ∈ slots ∨ (isBoolean v = true ∧ v ∈ ts.map Term.var)) ∧
      ∀ w : VarId → Fr, slotSum n slots' w = slotSum n slots w + evalTerms ts w := by
  induction ts generalizing slots seen with
  | nil =>
      obtain ⟨rfl, rfl⟩ := Prod.mk.inj (Option.some.inj h)
      exact ⟨hlen, fun v hv => .inl hv, fun w => by rw [evalTerms_nil, add_zero]⟩
  | cons t ts ih =>
      rw [List.foldlM_cons] at h
      obtain ⟨⟨slots₁, seen₁⟩, h₁, h⟩ := Option.bind_eq_some_iff.mp h
      obtain ⟨hlen₁, hbool, hvars₁, hsum₁⟩ := placeBit_spec hlen h₁
      obtain ⟨hlen', hvars, hsum⟩ := ih hlen₁ h
      refine ⟨hlen', fun v hv => ?_, fun w => ?_⟩
      · rcases hvars v hv with hv | ⟨hv, hmem⟩
        · refine (hvars₁ v hv).imp_right ?_
          rintro rfl
          exact ⟨hbool, List.mem_cons_self⟩
        · exact .inr ⟨hv, List.mem_cons_of_mem _ hmem⟩
      · rw [hsum, hsum₁, evalTerms_cons, add_assoc]

lemma eq_map_some {slots : List (Option VarId)} {vs : List VarId} (h : slots.mapM id = some vs) :
    slots = vs.map some := by
  induction slots generalizing vs with
  | nil =>
      obtain rfl := Option.some.inj h
      rfl
  | cons s slots ih =>
      rw [List.mapM_cons] at h
      obtain ⟨v, hv, h⟩ := Option.bind_eq_some_iff.mp h
      obtain ⟨vs', hvs', h⟩ := Option.bind_eq_some_iff.mp h
      obtain rfl := Option.some.inj h
      rw [List.map_cons, ← ih hvs']
      exact congrArg (· :: slots) hv

/-- **A sum that is matched** is that of its variables, which are boolean. -/
lemma bitSumMatch_spec {x : LinearCombination} {n : ℕ} {isBoolean : VarId → Bool} {vs : List VarId}
    (h : bitSumMatch x n isBoolean = some vs) : vs.length = n ∧
      (∀ v ∈ vs, isBoolean v = true ∧ v ∈ x.vars) ∧
      ∀ w : VarId → Fr, (recompose (vs.map ofVar)).eval w = x.eval w := by
  rw [bitSumMatch] at h
  split_ifs at h with hcond
  obtain ⟨-, hconst, -⟩ : n ≠ 0 ∧ x.constant = 0 ∧ x.terms.length = n := by
    simpa only [not_or, not_not] using hcond
  obtain ⟨⟨slots, seen⟩, h₁, h₂⟩ := Option.bind_eq_some_iff.mp h
  obtain ⟨hlen, hvars, hsum⟩ := placeBits_spec List.length_replicate h₁
  have hslots := eq_map_some h₂
  refine ⟨?_, fun v hv => ?_, fun w => ?_⟩
  · rw [← hlen, hslots, List.length_map]
  · rcases hvars v (hslots ▸ List.mem_map_of_mem hv) with hv | hv
    · exact absurd (List.eq_of_mem_replicate hv) (Option.some_ne_none v)
    · exact hv
  · have hzero : slotSum n (List.replicate n none) w = 0 := by
      refine Finset.sum_eq_zero fun i _ => ?_
      rw [List.getElem?_replicate]
      split_ifs <;> simp
    have hvs : vs.length = n := by rw [← hlen, hslots, List.length_map]
    rw [eval_recompose, List.length_map, hvs, eval, hconst, Int.cast_zero, zero_add,
      ← zero_add (evalTerms x.terms w), ← hzero, ← hsum, slotSum, hslots]
    refine Finset.sum_congr rfl fun i hi => ?_
    have hlt : i < vs.length := hvs ▸ Finset.mem_range.mp hi
    simp [values, List.getD_eq_getElem?_getD, hlt]

/-- **A shortcut** finds the bits of `x`, already proven. -/
lemma bitSumShortcut_spec {b : Builder} (hb : b.Sound) {x : LinearCombination} (hx : x.Below b.nextVarId)
    {n : ℕ} (hn : n ≤ 253) {bits : List LinearCombination} (h : bitSumShortcut b x n = some bits) :
    (∀ l ∈ bits, l.Below b.nextVarId) ∧ ∀ w, b.Sat w → AreBits bits n (x.eval w) w := by
  rw [bitSumShortcut] at h
  split at h
  · next vs hvs =>
      obtain rfl := Option.some.inj h
      obtain ⟨hlen, hvars, hsum⟩ := bitSumMatch_spec hvs
      refine ⟨fun l hl => ?_, fun w hw => ?_⟩
      · obtain ⟨v, hv, rfl⟩ := List.mem_map.mp hl
        exact below_ofVar.mpr (hx v (hvars v hv).2)
      · have hbits := areBits_of_recompose (vs.map ofVar) (by rw [List.length_map, hlen]; exact hn)
          (fun l hl => ?_) (hsum w)
        · rwa [List.length_map, hlen] at hbits
        · obtain ⟨v, hv, rfl⟩ := List.mem_map.mp hl
          rw [eval_ofVar]
          exact hb.boolean w hw v (hvars v hv).1
  · split at h
    · cases h
    · next all htop =>
        obtain ⟨t, -, ht⟩ := Option.bind_eq_some_iff.mp htop
        split_ifs at h with hlen hzero
        obtain rfl := Option.some.inj h
        have hsub : ∀ l ∈ all.take n, l ∈ all := fun l hl => List.mem_of_mem_take hl
        refine ⟨fun l hl => hb.bits_below t.var all ht l (hsub l hl), fun w hw => ?_⟩
        have htake : (all.take n).length = n := by
          rw [List.length_take, min_eq_left (not_lt.mp hlen)]
        have hvalue := eval_of_isZero w hzero
        rw [eval_sub, sub_eq_zero] at hvalue
        have hbits := areBits_of_recompose _ (htake.trans_le hn)
          (fun l hl => hb.bits w hw t.var all ht l (hsub l hl)) hvalue.symm
        rwa [htake] at hbits

end Host

end Frontend

end XarkCircuit
