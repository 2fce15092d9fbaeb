import XarkCircuit.Groth16.Buckets
import XarkCircuit.Lib.SignedDigits

/-!
The digits and the slices of the fast sum.

* `boothDigit_eq`: Booth digits are signed digits; `sum_boothDigit`: they recombine.
* `taskSum_eq`: a slice of a window sums up, in whichever buckets.
-/

namespace XarkCircuit

open Verifier ShortWeierstrass Succeeding

namespace Msm

/-! ### Digits -/

/-- Bits of an integer, read off its limbs. -/
lemma bitsAt_eq {s : ℕ} (hs : s < 2 ^ 256) (pos : ℕ) {len : ℕ} (hlen : len < 64) :
    bitsAt s pos len = s / 2 ^ pos % 2 ^ len := by
  have hpos : pos = 64 * (pos / 64) + pos % 64 := (Nat.div_add_mod pos 64).symm
  have hr : pos % 64 < 64 := Nat.mod_lt _ (by norm_num)
  rw [bitsAt]
  generalize pos / 64 = q at *
  generalize pos % 64 = r at *
  subst hpos
  have hhigh : ∀ i, 256 ≤ i → s.testBit i = false := fun i hi =>
    Nat.testBit_lt_two_pow (hs.trans_le (Nat.pow_le_pow_right (by norm_num) hi))
  refine Nat.eq_of_testBit_eq fun i => ?_
  rw [← Nat.shiftRight_eq_div_pow, Nat.testBit_mod_two_pow, Nat.testBit_shiftRight]
  split_ifs with hq hstraddle
  · rw [hhigh _ (by omega)]
    simp
  · -- the window crosses into the next limb
    simp only [Points.getD_bigInt hs, Nat.testBit_and, Nat.testBit_or, Nat.testBit_two_pow_sub_one,
      Nat.testBit_mod_two_pow, Nat.testBit_shiftLeft, Nat.testBit_shiftRight,
      ← Nat.shiftRight_eq_div_pow]
    by_cases hi : i < len
    swap
    · simp [hi]
    by_cases hri : r + i < 64
    · have h1 : ¬ (64 - r ≤ i) := by omega
      have h2 : 64 * q + (r + i) = 64 * q + r + i := by omega
      simp [hi, hri, h1, h2]
    · have h1 : 64 - r ≤ i := by omega
      have h2 : 64 * (q + 1) + (i - (64 - r)) = 64 * q + r + i := by omega
      have h3 : i - (64 - r) < 64 := by omega
      have h4 : i < 64 := by omega
      simp [hi, hri, h1, h2, h3, h4]
  · simp only [Points.getD_bigInt hs, Nat.testBit_and, Nat.testBit_two_pow_sub_one,
      Nat.testBit_mod_two_pow, Nat.testBit_shiftRight, ← Nat.shiftRight_eq_div_pow]
    by_cases hi : i < len
    swap
    · simp [hi]
    have h2 : 64 * q + (r + i) = 64 * q + r + i := by omega
    by_cases hri : r + i < 64
    · simp [hi, hri, h2]
    · rw [hhigh (64 * q + r + i) (by omega)]
      simp [hri]

/-- The carry into window `w`: the top bit of the window below. -/
def topBit (s c : ℕ) : ℕ → ℤ
  | 0 => 0
  | w + 1 => (s / 2 ^ (w * c + (c - 1)) % 2 : ℕ)

lemma topBit_bounds (s c w : ℕ) : 0 ≤ topBit s c w ∧ topBit s c w ≤ 1 := by
  cases w with
  | zero => simp [topBit]
  | succ w =>
      rw [topBit]
      omega

/-- **Booth digits** are signed digits. -/
theorem boothDigit_eq {s c : ℕ} (hs : s < 2 ^ 256) (hc : 0 < c) (hc' : c < 63) (w : ℕ) :
    boothDigit s w c = SignedDigits.digit (2 ^ c) s (topBit s c) w := by
  have hv : bitsAt s (w * c) c = s / (2 ^ c) ^ w % 2 ^ c := by
    rw [bitsAt_eq hs _ (by omega), ← pow_mul, mul_comm]
  have htop : s / (2 ^ c) ^ w % 2 ^ c / 2 ^ (c - 1) % 2 = s / 2 ^ (w * c + (c - 1)) % 2 := by
    have hsplit : (2 : ℕ) ^ c = 2 ^ (c - 1) * 2 := by
      rw [← pow_succ, Nat.sub_add_cancel (by omega)]
    rw [hsplit, Nat.mod_mul_right_div_self, ← hsplit, Nat.mod_mod, Nat.div_div_eq_div_mul,
      ← pow_mul, ← pow_add, mul_comm c w]
  have hcarry : ((if w * c = 0 then 0 else bitsAt s (w * c - 1) 1 : ℕ) : ℤ) = topBit s c w := by
    cases w with
    | zero => simp [topBit]
    | succ w =>
        have hne : (w + 1) * c ≠ 0 := Nat.mul_ne_zero (by omega) (by omega)
        have hpos : (w + 1) * c - 1 = w * c + (c - 1) := by rw [Nat.succ_mul]; omega
        rw [if_neg hne, hpos, bitsAt_eq hs _ (by norm_num), topBit, pow_one]
  rw [boothDigit, SignedDigits.digit, hv, Nat.and_one_is_mod, Nat.shiftRight_eq_div_pow, htop,
    hcarry, topBit]
  push_cast
  ring

/-- A digit finds a bucket. -/
lemma natAbs_boothDigit_le {s c : ℕ} (hs : s < 2 ^ 256) (hc : 0 < c) (hc' : c < 63) (w : ℕ) :
    (boothDigit s w c).natAbs ≤ 2 ^ (c - 1) := by
  obtain ⟨c, rfl⟩ := Nat.exists_eq_add_one.mpr hc
  have hbounds := topBit_bounds s (c + 1) w
  have htop : s / 2 ^ (w * (c + 1) + c) % 2 = s / (2 ^ (c + 1)) ^ w % 2 ^ (c + 1) / 2 ^ c := by
    rw [pow_succ 2 c, Nat.mod_mul_right_div_self, ← pow_succ, Nat.div_div_eq_div_mul, ← pow_mul,
      ← pow_add, mul_comm (c + 1) w]
  have hlt : s / (2 ^ (c + 1)) ^ w % 2 ^ (c + 1) < 2 ^ (c + 1) := Nat.mod_lt _ (by positivity)
  rw [boothDigit_eq hs hc hc', SignedDigits.digit, topBit, Nat.add_sub_cancel, htop]
  generalize s / (2 ^ (c + 1)) ^ w % 2 ^ (c + 1) = v at hlt ⊢
  -- `v` is below half the base, or not
  have hdiv := Nat.div_add_mod v (2 ^ c)
  have hmod : v % 2 ^ c < 2 ^ c := Nat.mod_lt _ (by positivity)
  have hq : v / 2 ^ c < 2 := by
    rw [Nat.div_lt_iff_lt_mul (by positivity), mul_comm]
    rwa [pow_succ] at hlt
  have hbase : ((2 ^ (c + 1) : ℕ) : ℤ) = 2 * (2 ^ c : ℕ) := by push_cast; ring
  rw [hbase]
  generalize 2 ^ c = B at *
  generalize v / B = t at *
  generalize v % B = m at *
  obtain rfl | rfl : t = 0 ∨ t = 1 := by omega
  · omega
  · omega

/-- The windows cover one bit more than the class has. -/
lemma le_windows (bits : ℕ) {c : ℕ} (hc : 0 < c) : bits + 1 ≤ c * windows bits c := by
  have hdiv := Nat.div_add_mod (bits + 1 + c - 1) c
  have hmod := Nat.mod_lt (bits + 1 + c - 1) hc
  rw [windows]
  omega

lemma topBit_windows {s bits c : ℕ} (hs : s < 2 ^ bits) (hc : 0 < c) :
    topBit s c (windows bits c) = 0 := by
  have hcover := le_windows bits hc
  cases hw : windows bits c with
  | zero => rw [hw] at hcover; omega
  | succ w =>
      rw [hw, Nat.mul_succ, mul_comm] at hcover
      have hlt : s < 2 ^ (w * c + (c - 1)) :=
        hs.trans_le (Nat.pow_le_pow_right (by norm_num) (by omega))
      rw [topBit, Nat.div_eq_of_lt hlt]
      rfl

lemma lt_windows {s bits c : ℕ} (hs : s < 2 ^ bits) (hc : 0 < c) :
    s < (2 ^ c) ^ windows bits c := by
  rw [← pow_mul]
  exact hs.trans_le (Nat.pow_le_pow_right (by norm_num) ((Nat.le_succ _).trans (le_windows bits hc)))

/-- **Booth digits recombine.** -/
theorem sum_boothDigit {s bits c : ℕ} (hs : s < 2 ^ bits) (hbits : bits ≤ 256) (hc : 0 < c)
    (hc' : c < 63) :
    ∑ w ∈ Finset.range (windows bits c), boothDigit s w c * (2 ^ c) ^ w = s := by
  have hs' : s < 2 ^ 256 := hs.trans_le (Nat.pow_le_pow_right (by norm_num) hbits)
  have hsum := SignedDigits.sum_eq (o := topBit s c) rfl (topBit_windows hs hc) (lt_windows hs hc)
  rw [← hsum]
  refine Finset.sum_congr rfl fun w _ => ?_
  rw [boothDigit_eq hs' hc hc']
  push_cast
  rfl

/-! ### Slices -/

section Slices

variable {F : Type} [Field F] [DecidableEq F] {a b : F}
  (ofAffine : Affine F → (curve a b).Point)

/-- The points of a slice, each times its digit. -/
def weighted (slice : List (ℤ × Affine F)) : (curve a b).Point :=
  (slice.map fun e => e.1 • ofAffine e.2).sum

/-- What a digit and its point put into the buckets. -/
def contribution (e : ℤ × Affine F) : ℕ → (curve a b).Point :=
  if e.1 = 0 then 0
  else Pi.single (e.1.natAbs - 1) (if e.1 < 0 then -ofAffine e.2 else ofAffine e.2)

/-- What a slice puts into the buckets. -/
def sliceSum (slice : List (ℤ × Affine F)) : ℕ → (curve a b).Point :=
  (slice.map (contribution ofAffine)).sum

/-- Digits that find a bucket, and points. -/
def Sliced (a b : F) (nb : ℕ) (slice : List (ℤ × Affine F)) : Prop :=
  ∀ e ∈ slice, e.1.natAbs ≤ nb ∧ ∃ P : (curve a b).Point, coords P = e.2

variable {ofAffine}

lemma runningSum_eq (nb : ℕ) (bucket : ℕ → (curve a b).Point) :
    runningSum nb bucket = ∑ j ∈ Finset.range nb, (j + 1) • bucket j := by
  have hloop : ∀ (running res : (curve a b).Point),
      ((List.range nb).reverse.foldl (fun (running, res) j =>
        let running := running + bucket j
        (running, res + running)) (running, res)).2
        = res + nb • running + ∑ j ∈ Finset.range nb, (j + 1) • bucket j := by
    induction nb with
    | zero => simp
    | succ nb ih =>
        intro running res
        rw [List.range_succ, List.reverse_append, List.reverse_singleton, List.singleton_append,
          List.foldl_cons]
        rw [ih, Finset.sum_range_succ, succ_nsmul, succ_nsmul, smul_add]
        abel
  rw [runningSum, hloop, smul_zero, zero_add, zero_add]

/-- A digit weighs its point. -/
lemma runningSum_contribution {nb : ℕ} {e : ℤ × Affine F} (he : e.1.natAbs ≤ nb) :
    ∑ j ∈ Finset.range nb, (j + 1) • contribution ofAffine e j = e.1 • ofAffine e.2 := by
  rw [contribution]
  split_ifs with h0 hneg
  · simp [h0]
  all_goals
    have hpos : 0 < e.1.natAbs := Int.natAbs_pos.mpr h0
    rw [Finset.sum_eq_single (e.1.natAbs - 1)
      (fun j _ hj => by rw [Pi.single_eq_of_ne hj, smul_zero])
      (fun hj => absurd (Finset.mem_range.mpr (by omega)) hj), Pi.single_eq_same,
      Nat.sub_add_cancel hpos, ← natCast_zsmul]
  · rw [smul_neg, ← neg_smul]
    congr 1
    omega
  · congr 1
    omega

lemma runningSum_sliceSum {nb : ℕ} {slice : List (ℤ × Affine F)} (h : Sliced a b nb slice) :
    runningSum nb (sliceSum ofAffine slice) = weighted ofAffine slice := by
  rw [runningSum_eq]
  induction slice with
  | nil => simp [sliceSum, weighted]
  | cons e slice ih =>
      have hcons : sliceSum ofAffine (e :: slice)
          = contribution ofAffine e + sliceSum ofAffine slice := List.sum_cons
      simp only [hcons, Pi.add_apply, smul_add, Finset.sum_add_distrib]
      rw [ih fun e' he' => h e' (List.mem_cons_of_mem _ he'),
        runningSum_contribution (h e List.mem_cons_self).1]
      exact List.sum_cons.symm

/-- The loop over the entries adds what each one contributes. -/
lemma foldl_contribution (slice : List (ℤ × Affine F)) (bucket : ℕ → (curve a b).Point) :
    slice.foldl (fun bucket (d, p) =>
        if d = 0 then bucket
        else Function.update bucket (d.natAbs - 1)
          (if d < 0 then bucket (d.natAbs - 1) - ofAffine p
            else bucket (d.natAbs - 1) + ofAffine p)) bucket
      = bucket + sliceSum ofAffine slice := by
  induction slice generalizing bucket with
  | nil => exact (add_zero bucket).symm
  | cons e slice ih =>
      have hcons : sliceSum ofAffine (e :: slice)
          = contribution ofAffine e + sliceSum ofAffine slice := List.sum_cons
      rw [List.foldl_cons, ih, hcons, ← add_assoc]
      congr 1
      obtain ⟨d, p⟩ := e
      simp only [contribution]
      split_ifs with h0 hneg
      · exact (add_zero bucket).symm
      all_goals
        funext k
        by_cases hk : k = d.natAbs - 1
        · subst hk
          simp [sub_eq_add_neg]
        · simp [Function.update_of_ne hk, Pi.single_eq_of_ne hk]

lemma plainBuckets_eq (slice : List (ℤ × Affine F)) :
    plainBuckets ofAffine slice = sliceSum ofAffine slice := by
  rw [plainBuckets, foldl_contribution]
  exact zero_add _

variable (hof : ∀ P : (curve a b).Point, ofAffine (coords P) = P) (h2 : (2 : F) ≠ 0)
include hof

omit [DecidableEq F] in
lemma negIf_spec {p : F × F} {P : (curve a b).Point} (hP : coords P = some p) (neg : Bool) :
    AffineBuckets.On a b (negIf neg p) ∧
      ofAffine (some (negIf neg p)) = if neg then -P else P := by
  cases neg
  · exact ⟨⟨P, hP⟩, by rw [← hof P, hP]; rfl⟩
  · have hneg : coords (-P) = some (negIf true p) := by
      rw [coords_neg, hP]
      rfl
    exact ⟨⟨-P, hneg⟩, by rw [← hneg, hof]; rfl⟩

include h2

/-- The loop over the entries. -/
lemma foldlM_affine {nb : ℕ} {slice : List (ℤ × Affine F)} (h : Sliced a b nb slice) :
    Succeeds (slice.foldlM (fun st (d, p) =>
        if d = 0 then .ok st
        else match p with
          | none => .ok st
          | some p => AffineBuckets.add a ofAffine st (d.natAbs - 1) (negIf (decide (d < 0)) p))
        (AffineBuckets.new : AffineBuckets F (curve a b).Point))
      (fun st => AffineBuckets.Ok a b st ∧
        AffineBuckets.value ofAffine st = sliceSum ofAffine slice) := by
  refine (Succeeds.foldlM (fun i st => AffineBuckets.Ok a b st ∧
      AffineBuckets.value ofAffine st = sliceSum ofAffine (slice.take i))
    ⟨AffineBuckets.ok_new, AffineBuckets.value_new⟩ fun i hi st hst => ?_).mono fun st hst => by
      rwa [List.take_length] at hst
  obtain ⟨hok, hval⟩ := hst
  obtain ⟨-, P, hP⟩ := h _ (List.getElem_mem hi)
  have htake : sliceSum ofAffine (slice.take (i + 1))
      = AffineBuckets.value ofAffine st + contribution ofAffine slice[i] := by
    rw [List.take_succ_eq_append_getElem hi, sliceSum, List.map_append, List.sum_append, hval]
    simp [sliceSum]
  rw [htake]
  generalize slice[i] = e at hP ⊢
  obtain ⟨d, p⟩ := e
  simp only [contribution] at hP ⊢
  by_cases h0 : d = 0
  · rw [if_pos h0, if_pos h0]
    exact .ok ⟨hok, (add_zero _).symm⟩
  rw [if_neg h0, if_neg h0]
  cases p with
  | none =>
      have hzero : P = 0 := coords_eq_none.mp hP
      have hP0 : ofAffine none = 0 := by rw [← hP, hof, hzero]
      refine .ok ⟨hok, ?_⟩
      simp [hP0]
  | some p =>
      obtain ⟨hon, hpt⟩ := negIf_spec hof hP (decide (d < 0))
      have hP' : ofAffine (some p) = P := by rw [← hP, hof]
      refine (AffineBuckets.add_spec hof h2 hok _ hon).mono fun st' h' => ⟨h'.1, ?_⟩
      rw [h'.2, hpt, hP']
      simp only [decide_eq_true_eq]

/-- The affine buckets of a slice. -/
lemma affineBuckets_spec {nb : ℕ} {slice : List (ℤ × Affine F)} (h : Sliced a b nb slice) :
    Succeeds (affineBuckets a ofAffine slice)
      fun st => st.sum ofAffine = sliceSum ofAffine slice := by
  refine (foldlM_affine hof h2 h).bind fun st hst => ?_
  exact (AffineBuckets.finish_spec hof h2 hst.1).mono fun st' h' => h'.trans hst.2

/-- **A slice sums up**, unless its length is computed with checks and it begins past its end. -/
theorem taskSum_eq (cfg : Config) {c : ℕ} {row : List (ℤ × Affine F)} (lo hi : ℕ)
    (h : Sliced a b (2 ^ (c - 1)) row) :
    taskSum a ofAffine cfg c row lo hi
      = if cfg.batchAffine = true ∧ cfg.overflowChecks = true ∧ hi < lo then .error .panic
        else .ok (weighted ofAffine ((row.take hi).drop lo)) := by
  have hslice : Sliced a b (2 ^ (c - 1)) ((row.take hi).drop lo) := fun e he =>
    h e (List.mem_of_mem_take (List.mem_of_mem_drop he))
  have hplain : runningSum (2 ^ (c - 1)) (plainBuckets ofAffine ((row.take hi).drop lo))
      = weighted ofAffine ((row.take hi).drop lo) := by
    rw [plainBuckets_eq, runningSum_sliceSum hslice]
  obtain ⟨st, hst, hsum⟩ := affineBuckets_spec hof h2 hslice
  have haffine : runningSum (2 ^ (c - 1)) (st.sum ofAffine)
      = weighted ofAffine ((row.take hi).drop lo) := by rw [hsum, runningSum_sliceSum hslice]
  have hboth : ∀ affine : Bool, (if affine then do
        let st ← affineBuckets a ofAffine ((row.take hi).drop lo)
        return runningSum (2 ^ (c - 1)) (st.sum ofAffine)
      else return runningSum (2 ^ (c - 1)) (plainBuckets ofAffine ((row.take hi).drop lo)) :
        Outcome (curve a b).Point) = .ok (weighted ofAffine ((row.take hi).drop lo)) := by
    rintro (_ | _)
    · rw [if_neg Bool.false_ne_true, hplain]
      rfl
    · rw [if_pos rfl, hst, ← haffine]
      rfl
  simp only [taskSum, Config.sub]
  cases cfg.batchAffine
  · simpa using hboth false
  · by_cases hle : lo ≤ hi
    · simpa [hle, Nat.not_lt.mpr hle] using hboth (decide (4 * 2 ^ (c - 1) ≤ hi - lo))
    · cases cfg.overflowChecks
      · simpa [hle] using hboth (decide (4 * 2 ^ (c - 1) ≤ 18446744073709551616 + hi - lo))
      · simp [hle, Nat.not_le.mp hle]

end Slices

end Msm

end XarkCircuit
