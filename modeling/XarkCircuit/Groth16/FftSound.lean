import XarkCircuit.Groth16.Fft
import XarkCircuit.Groth16.QapSound
import XarkCircuit.Lib.Decimation

/-!
The transforms in place are Fourier transforms.

* `radix2_eq`: the layers, from the bit-reversal permutation on. After `t` layers a block of `2^t`
  places holds the transform of every `2^d`-th element (`layers_eq`).
* `mixed_eq`: the factors of three, by induction on the length.
-/

namespace XarkCircuit

namespace Fft

open Buffer Dft Finset
open Groth16 (entry trailingZeros isPowerOfTwo FftField)

variable {F : Type} [Field F]

/-! ### Tables -/

lemma entry_powers (base : F) {count j : ℕ} (hj : j < count) :
    entry (powers base count) j = base ^ j := by
  have hlen : j < (powers base count).length := by rwa [powers, List.length_iterate]
  rw [entry, List.getD_eq_getElem?_getD, List.getElem?_eq_getElem hlen, Option.getD_some]
  simp only [powers, List.getElem_iterate]
  induction j with
  | zero => exact (pow_zero base).symm
  | succ j ih =>
      have hj' : j < count := Nat.lt_of_succ_lt hj
      rw [Function.iterate_succ_apply', ih hj' (by rwa [powers, List.length_iterate]), pow_succ]

/-- A table holds the powers of `ω` below `count`, `s` places apart. -/
def Holds (tw : List F) (s : ℕ) (ω : F) (count : ℕ) : Prop :=
  ∀ j < count, entry tw (j * s) = ω ^ j

/-! ### Powers of two -/

lemma trailingZeros_two_pow (k : ℕ) : trailingZeros (2 ^ k) = k := by
  simp [trailingZeros]

omit [Field F] in
/-- **Bit reversal in place.** -/
lemma bitrevPermute_eq {k : ℕ} (hk : k ≤ 64) (a : ℕ → F) {i : ℕ} (hi : i < 2 ^ k) :
    bitrevPermute (2 ^ k) a i = a (rev k i) := by
  rw [bitrevPermute]
  split_ifs with hsmall
  · -- at most one bit
    have hk1 : k ≤ 1 := by
      by_contra hbig
      have hpow := Nat.pow_le_pow_right (show 0 < 2 by norm_num) (show 2 ≤ k by omega)
      omega
    have hrev : rev k i = i := by
      interval_cases k
      · simp at hi
        simp [hi, rev]
      · have hmod : i % 2 = i := Nat.mod_eq_of_lt hi
        simp [rev, hmod]
    rw [hrev]
  · have hfun : (fun i => reverseBits i >>> (64 - trailingZeros (2 ^ k))) = rev k := by
      funext i
      rw [trailingZeros_two_pow, reverseBits, reverse_shiftRight hk]
    dsimp only
    rw [hfun, permute_eq (fun i hi => rev_rev hi) (fun i _ => rev_lt k i) a hi]

section Butterflies

variable (tw : List F) (m stride : ℕ)

/-- The product of a butterfly. -/
def twiddled (block : ℕ → F) (j : ℕ) : F :=
  if j = 0 then block (m + j) else block (m + j) * entry tw (j * stride)

lemma butterflies_eq (block : ℕ → F) {p : ℕ} (hp : p < m) :
    butterflies tw m stride block p = block p + twiddled tw m stride block p ∧
      butterflies tw m stride block (m + p) = block p - twiddled tw m stride block p := by
  -- after `k` rounds the first `k` pairs are done, and the others untouched
  have hround : ∀ k ≤ m, ∀ p < m,
      let b := (List.range k).foldl (fun b j =>
        let t := if j = 0 then b (m + j) else b (m + j) * entry tw (j * stride)
        Function.update (Function.update b (m + j) (b j - t)) j (b j + t)) block
      (b p = if p < k then block p + twiddled tw m stride block p else block p) ∧
        (b (m + p) = if p < k then block p - twiddled tw m stride block p else block (m + p)) := by
    intro k
    induction k with
    | zero => simp
    | succ k ih =>
        intro hk p hp
        have hk' : k < m := hk
        obtain ⟨hlo, hhi⟩ := ih (Nat.le_of_lt hk) k hk'
        obtain ⟨hplo, hphi⟩ := ih (Nat.le_of_lt hk) p hp
        rw [List.range_succ, List.foldl_append, List.foldl_cons, List.foldl_nil]
        generalize (List.range k).foldl _ block = b at hlo hhi hplo hphi
        rw [if_neg (lt_irrefl k)] at hlo hhi
        simp only [hlo, hhi]
        have hne : m + p ≠ k := by omega
        by_cases hpk : p = k
        · subst hpk
          simp [twiddled, Function.update_of_ne hne]
        · have hne' : p ≠ m + k := by omega
          have hne'' : m + p ≠ m + k := by omega
          have hiff : p < k + 1 ↔ p < k := by omega
          simp only [Function.update_of_ne hpk, Function.update_of_ne hne,
            Function.update_of_ne hne', Function.update_of_ne hne'', hplo, hphi, hiff]
          exact ⟨trivial, trivial⟩
  obtain ⟨hlo, hhi⟩ := hround m le_rfl p hp
  rw [if_pos hp] at hlo hhi
  exact ⟨hlo, hhi⟩

end Butterflies

/-- **The layers**: blocks that hold the transforms of every `2^d`-th element are joined, until the
buffer holds the transform. -/
theorem layers_eq {tw : List F} {s : ℕ} {ω : F} {x : ℕ → F} (d : ℕ) {t fuel : ℕ} {a : ℕ → F}
    (hfuel : d ≤ fuel) (htw : Holds tw s ω (2 ^ (d + t) / 2))
    (hhalf : ∀ h, 2 * h = 2 ^ (d + t) → ω ^ h = -1)
    (ha : ∀ b < 2 ^ d, ∀ r < 2 ^ t, a (b * 2 ^ t + r)
      = dft (ω ^ 2 ^ d) (2 ^ t) (fun j => x (rev d b + 2 ^ d * j)) r) {i : ℕ}
    (hi : i < 2 ^ (d + t)) :
    layers tw s (2 ^ (d + t)) fuel (2 ^ t) a i = dft ω (2 ^ (d + t)) x i := by
  induction d generalizing t fuel a with
  | zero =>
      have hdone : layers tw s (2 ^ (0 + t)) fuel (2 ^ t) a = a := by
        cases fuel with
        | zero => rfl
        | succ fuel =>
            have hnot : ¬ 2 ^ t < 2 ^ (0 + t) := by simp
            rw [layers, if_neg hnot]
      have h0 := ha 0 (by norm_num) i (by simpa using hi)
      rw [hdone]
      simpa [rev] using h0
  | succ d ih =>
      obtain ⟨fuel, rfl⟩ := Nat.exists_eq_add_one.mpr (show 0 < fuel by omega)
      have hsum : d + 1 + t = d + (t + 1) := by ring
      have hlt : 2 ^ t < 2 ^ (d + 1 + t) := Nat.pow_lt_pow_right (by norm_num) (by omega)
      have hstride : 2 ^ (d + 1 + t) / (2 * 2 ^ t) = 2 ^ d := by
        rw [← pow_succ', hsum, pow_add, Nat.mul_div_cancel _ (by positivity)]
      rw [layers, if_pos hlt, hstride, ← pow_succ]
      rw [hsum] at htw hhalf hi ⊢
      refine ih (by omega) htw hhalf (fun b hb r hr => ?_) hi
      -- block `b` joins the blocks `2b` and `2b + 1`
      set m := 2 ^ t with hm
      have hn : 2 ^ (d + (t + 1)) = 2 * (2 ^ d * m) := by rw [hm]; ring
      have hη : (ω ^ 2 ^ d) ^ m = -1 := by rw [← pow_mul]; exact hhalf _ hn.symm
      have hsq : (ω ^ 2 ^ d) ^ 2 = ω ^ 2 ^ (d + 1) := by rw [← pow_mul, ← pow_succ]
      have hlen : (2 : ℕ) ^ (t + 1) = 2 * m := by rw [pow_succ, mul_comm]
      have heven : ∀ p < m, a (b * (2 * m) + p)
          = dft (ω ^ 2 ^ (d + 1)) m (fun j => x (rev d b + 2 ^ d * (2 * j))) p := by
        intro p hp
        have hblock := ha (2 * b) (by rw [pow_succ]; omega) p hp
        rw [rev_double] at hblock
        rw [show b * (2 * m) + p = 2 * b * m + p by ring, hblock]
        exact dft_congr (fun j _ => by rw [pow_succ]; ring_nf) p
      have hodd : ∀ p < m, a (b * (2 * m) + (m + p))
          = dft (ω ^ 2 ^ (d + 1)) m (fun j => x (rev d b + 2 ^ d * (1 + 2 * j))) p := by
        intro p hp
        have hblock := ha (2 * b + 1) (by rw [pow_succ]; omega) p hp
        rw [rev_double_add_one] at hblock
        rw [show b * (2 * m) + (m + p) = (2 * b + 1) * m + p by ring, hblock]
        exact dft_congr (fun j _ => by rw [pow_succ]; ring_nf) p
      have htwiddled : ∀ p < m, twiddled tw m (2 ^ d * s) (fun q => a (b * (2 * m) + q)) p
          = (ω ^ 2 ^ d) ^ p
            • dft (ω ^ 2 ^ (d + 1)) m (fun j => x (rev d b + 2 ^ d * (1 + 2 * j))) p := by
        intro p hp
        rw [twiddled, hodd p hp, ← pow_mul, smul_eq_mul]
        split_ifs with hp0
        · rw [hp0, mul_zero, pow_zero, one_mul]
        · have hlt' : 2 ^ d * p < 2 ^ (d + (t + 1)) / 2 := by
            rw [hn, Nat.mul_div_cancel_left _ (by norm_num)]
            exact Nat.mul_lt_mul_of_pos_left hp (by positivity)
          rw [← htw _ hlt', mul_comm]
          congr 2
          ring
      obtain ⟨hlow, hhigh⟩ : (∀ p < m, _) ∧ ∀ p < m, _ :=
        ⟨fun p hp => (dft_two hη (fun j => x (rev d b + 2 ^ d * j)) p).1,
          fun p hp => (dft_two hη (fun j => x (rev d b + 2 ^ d * j)) p).2⟩
      rw [hlen, chunks_apply _ _ _ (by rwa [hlen] at hr)]
      rw [hlen] at hr
      rcases lt_or_ge r m with hrm | hrm
      · rw [(butterflies_eq tw m _ _ hrm).1, hlow r hrm, heven r hrm, htwiddled r hrm, hsq]
      · obtain ⟨p, rfl⟩ := Nat.exists_eq_add_of_le hrm
        have hp : p < m := by omega
        rw [(butterflies_eq tw m _ _ hp).2, hhigh p hp, heven p hp, htwiddled p hp, hsq]

/-- The half turn is `-1`. -/
lemma pow_half {ω : F} {h : ℕ} (hω : IsPrimitiveRoot ω (2 * h)) (hpos : 0 < h) : ω ^ h = -1 := by
  have hsq : ω ^ h * ω ^ h = 1 := by rw [← pow_add, ← two_mul, hω.pow_eq_one]
  rcases mul_self_eq_one_iff.mp hsq with h1 | h1
  · have hdvd := hω.dvd_of_pow_eq_one h h1
    exact absurd (Nat.le_of_dvd hpos hdvd) (by omega)
  · exact h1

/-- **The radix-2 transform.** -/
theorem radix2_eq {k : ℕ} (hk : k ≤ 64) {tw : List F} {s : ℕ} {ω : F}
    (hω : IsPrimitiveRoot ω (2 ^ k)) (htw : Holds tw s ω (2 ^ k / 2)) (a : ℕ → F) {i : ℕ}
    (hi : i < 2 ^ k) : radix2FftStrided (2 ^ k) tw s a i = dft ω (2 ^ k) a i := by
  rw [radix2FftStrided]
  split_ifs with hone
  · have hk0 : k = 0 := by
      by_contra hne
      have hbig := Nat.one_lt_two_pow hne
      omega
    subst hk0
    have hi0 : i = 0 := by simpa using hi
    simp [hi0, dft]
  · have hfuel : k ≤ 2 ^ k := (Nat.lt_two_pow_self).le
    have hhalf : ∀ h, 2 * h = 2 ^ (k + 0) → ω ^ h = -1 := by
      intro h hh
      rw [add_zero] at hh
      exact pow_half (hh ▸ hω) (by have := Nat.two_pow_pos k; omega)
    refine layers_eq k (t := 0) hfuel htw hhalf (fun b hb r hr => ?_) hi
    have hr0 : r = 0 := by simpa using hr
    rw [hr0, pow_zero, mul_one, add_zero, bitrevPermute_eq hk a hb]
    simp [dft]

/-! ### Factors of three -/

/-- The three values of a radix-3 step, from `ω₃` and a half. -/
lemma radix3_step (h2 : (2 : F) ≠ 0) {w : F} (hw : 1 + w + w ^ 2 = 0) (x0 x1 x2 : F) :
    x0 - (x1 + x2) * 2⁻¹ + (x1 - x2) * ((w - w ^ 2) * 2⁻¹) = x0 + w * x1 + w ^ 2 * x2 ∧
      x0 - (x1 + x2) * 2⁻¹ - (x1 - x2) * ((w - w ^ 2) * 2⁻¹) = x0 + w ^ 2 * x1 + w * x2 := by
  have hsq : w ^ 2 = -1 - w := by linear_combination hw
  constructor
  · rw [hsq]
    field_simp
    ring
  · rw [hsq]
    field_simp
    ring

lemma sum_root_three {w : F} (hw : IsPrimitiveRoot w 3) : 1 + w + w ^ 2 = 0 := by
  have hsum := hw.geom_sum_eq_zero (by norm_num)
  simpa [Finset.sum_range_succ] using hsum

/-- **The mixed transform.** -/
theorem mixed_eq (h2 : (2 : F) ≠ 0) (b : ℕ) {k : ℕ} (hk : k ≤ 64) {tw : List F} {s : ℕ} {ω : F}
    (hω : IsPrimitiveRoot ω (3 ^ b * 2 ^ k)) (htw : Holds tw s ω (3 ^ b * 2 ^ k)) (a : ℕ → F)
    {i : ℕ} (hi : i < 3 ^ b * 2 ^ k) : mixedFft tw (3 ^ b * 2 ^ k) s a i = dft ω (3 ^ b * 2 ^ k) a i := by
  induction b generalizing s ω a i with
  | zero =>
      simp only [pow_zero, one_mul] at hω htw hi ⊢
      have hmod : 2 ^ k % 3 ≠ 0 := by
        rw [Ne, ← Nat.dvd_iff_mod_eq_zero]
        intro hdvd
        have hle := Nat.prime_three.dvd_of_dvd_pow hdvd
        omega
      rw [mixedFft, dif_pos (Or.inl hmod)]
      exact radix2_eq hk hω (fun j hj => htw j (by omega)) a hi
  | succ b ih =>
      set m := 3 ^ b * 2 ^ k with hm
      have hmpos : 0 < m := by positivity
      have hn : 3 ^ (b + 1) * 2 ^ k = 3 * m := by rw [pow_succ]; ring
      rw [hn] at hω htw hi ⊢
      have hdiv : 3 * m / 3 = m := Nat.mul_div_cancel_left m (by norm_num)
      have hnot : ¬ (3 * m % 3 ≠ 0 ∨ 3 * m = 0) := by omega
      have hω3 : IsPrimitiveRoot (ω ^ 3) m := hω.pow (by omega) rfl
      have hw3 : IsPrimitiveRoot (ω ^ m) 3 := hω.pow (by omega) (mul_comm 3 m)
      have htw3 : Holds tw (3 * s) (ω ^ 3) m := by
        intro j hj
        rw [← pow_mul, ← htw (3 * j) (by omega)]
        congr 1
        ring
      rw [mixedFft, dif_neg hnot, hdiv]
      set sc₀ := write (fun _ => 0) ((List.range m).flatMap fun j2 =>
        [(j2, a (3 * j2)), (m + j2, a (3 * j2 + 1)), (2 * m + j2, a (3 * j2 + 2))]) with hsc₀
      set sc := chunks m (fun _ => mixedFft tw m (3 * s)) sc₀ with hsc
      -- the subsequences of every third element, transformed
      have hstart : ∀ j < 3, ∀ t < m, sc₀ (j * m + t) = a (j + 3 * t) := by
        intro j hj t ht
        obtain ⟨h0, h1, h2'⟩ := write_three (fun _ => (0 : F)) m (fun j => a (3 * j))
          (fun j => a (3 * j + 1)) (fun j => a (3 * j + 2)) ht
        interval_cases j
        · rw [zero_mul, zero_add, zero_add]
          exact h0
        · rw [one_mul, add_comm 1]
          exact h1
        · rw [add_comm 2]
          exact h2'
      have hparts : ∀ j < 3, ∀ k < m,
          sc (j * m + k) = dft (ω ^ 3) m (fun t => a (j + 3 * t)) k := by
        intro j hj k hk'
        rw [hsc, chunks_apply _ _ _ hk', ih hω3 htw3 _ hk']
        exact dft_congr (fun t ht => hstart j hj t ht) k
      have h0 : ∀ k < m, sc k = dft (ω ^ 3) m (fun t => a (0 + 3 * t)) k := fun k hk' => by
        simpa using hparts 0 (by norm_num) k hk'
      have h1 : ∀ k < m, sc (m + k) = dft (ω ^ 3) m (fun t => a (1 + 3 * t)) k := fun k hk' => by
        simpa using hparts 1 (by norm_num) k hk'
      have h2' := hparts 2 (by norm_num)
      have hone : (ω ^ 3) ^ m = 1 := by rw [← pow_mul, hω.pow_eq_one]
      have hsplit : ∀ j k, dft ω (3 * m) a (k + m * j)
          = dft (ω ^ 3) m (fun t => a (0 + 3 * t)) k
            + (ω ^ m) ^ j * (ω ^ k * dft (ω ^ 3) m (fun t => a (1 + 3 * t)) k)
            + (ω ^ m) ^ (2 * j) * (ω ^ (2 * k) * dft (ω ^ 3) m (fun t => a (2 + 3 * t)) k) := by
        intro j k
        rw [dft_split, Finset.sum_range_succ, Finset.sum_range_succ, Finset.sum_range_one]
        simp only [dft_add_mul hone, smul_eq_mul]
        ring
      have htwk : ∀ k < m, entry tw (k * s) = ω ^ k := fun k hk' => htw k (by omega)
      have htwk2 : ∀ k < m, entry tw (2 * k * s) = ω ^ (2 * k) := fun k hk' => htw _ (by omega)
      have htwm : entry tw (m * s) = ω ^ m := htw m (by omega)
      have hi' : i % m < m := Nat.mod_lt _ hmpos
      have hj : i / m < 3 := Nat.div_lt_of_lt_mul (by rwa [mul_comm])
      obtain ⟨hout0, hout1, hout2⟩ := write_three a m
        (fun k => sc k + (sc (m + k) * entry tw (k * s) + sc (2 * m + k) * entry tw (2 * k * s)))
        (fun k => sc k
          - (sc (m + k) * entry tw (k * s) + sc (2 * m + k) * entry tw (2 * k * s)) * 2⁻¹
          + (sc (m + k) * entry tw (k * s) - sc (2 * m + k) * entry tw (2 * k * s))
            * ((entry tw (m * s) - entry tw (m * s) ^ 2) * 2⁻¹))
        (fun k => sc k
          - (sc (m + k) * entry tw (k * s) + sc (2 * m + k) * entry tw (2 * k * s)) * 2⁻¹
          - (sc (m + k) * entry tw (k * s) - sc (2 * m + k) * entry tw (2 * k * s))
            * ((entry tw (m * s) - entry tw (m * s) ^ 2) * 2⁻¹)) hi'
      rw [h0 _ hi', h1 _ hi', h2' _ hi', htwk _ hi', htwk2 _ hi'] at hout0 hout1 hout2
      have hw : 1 + entry tw (m * s) + entry tw (m * s) ^ 2 = 0 := by
        rw [htwm]
        exact sum_root_three hw3
      have hsteps := radix3_step h2 hw (dft (ω ^ 3) m (fun t => a (0 + 3 * t)) (i % m))
        (dft (ω ^ 3) m (fun t => a (1 + 3 * t)) (i % m) * ω ^ (i % m))
        (dft (ω ^ 3) m (fun t => a (2 + 3 * t)) (i % m) * ω ^ (2 * (i % m)))
      have hidx : i = i % m + m * (i / m) := (Nat.mod_add_div i m).symm
      rw [hidx, hsplit]
      generalize i / m = j at hj
      interval_cases j
      · simp only [mul_zero, add_zero, pow_zero, one_mul]
        refine hout0.trans ?_
        ring
      · rw [mul_one, add_comm]
        refine hout1.trans (hsteps.1.trans ?_)
        rw [htwm]
        ring
      · have hfour : (ω ^ m) ^ (2 * 2) = ω ^ m := by
          rw [show 2 * 2 = 3 + 1 by norm_num, pow_succ, hw3.pow_eq_one, one_mul]
        rw [mul_comm m 2, add_comm, hfour]
        refine hout2.trans (hsteps.2.trans ?_)
        rw [htwm]
        ring

end Fft

end XarkCircuit
