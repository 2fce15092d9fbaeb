import Mathlib.Algebra.Field.ZMod
import Mathlib.Tactic.Module
import XarkCircuit.Groth16.SetupSound

/-!
Completeness of the prover against the keys of the setup.

* `withSize_supported`: the domain that the prover finds for a key is the one it was made on.
* `streamMsm_eq`: chunk by chunk, a key vector is summed against its scalars.
* `proveImpl_verifies`: for every assignment that satisfies the rows and all randomness, the prover
  returns a proof that verifies.
* `setup_prover_agree`: with it, what the prover computes when a row breaks, and the key of phase 2.
-/

namespace XarkCircuit

namespace Groth16

open Dft Finset Polynomial

variable {F G : Type} [Field F] [AddCommGroup G] [Module F G]

/-! ### The domain of a key -/

/-- A domain size that the prover supports. -/
def Supported (n : ℕ) : Prop := ∃ q ∈ [1, 3, 9], ∃ k, n = q * 2 ^ k

lemma trailingZeros_mul {q : ℕ} (hq : q ∈ [1, 3, 9]) (k : ℕ) : trailingZeros (q * 2 ^ k) = k := by
  have hodd : padicValNat 2 q = 0 := by
    refine padicValNat.eq_zero_of_not_dvd ?_
    simp only [List.mem_cons, List.not_mem_nil, or_false] at hq
    rcases hq with rfl | rfl | rfl <;> decide
  have hq0 : q ≠ 0 := by
    rintro rfl
    simp at hq
  rw [trailingZeros, padicValNat.mul hq0 (by positivity), hodd, padicValNat.prime_pow, Nat.zero_add]

lemma isPowerOfTwo_pow (k : ℕ) : isPowerOfTwo (2 ^ k) = true := by
  simp [isPowerOfTwo, Nat.log2_two_pow]

lemma withSplit_eq (R : FftField F) {q j k : ℕ} (hq : q ∈ [1, 3, 9]) {ω : F}
    (hroot : R.getRootOfUnity (q * 2 ^ j * 2 ^ k) = some ω) :
    ∃ d, Domain.withSplit R (q * 2 ^ j) (2 ^ k) = some d ∧ d.n = q * 2 ^ j * 2 ^ k ∧
      d.omega = ω := by
  have hpos : 0 < q * 2 ^ j * 2 ^ k := by
    have : 0 < q := Nat.pos_of_ne_zero (by rintro rfl; simp at hq)
    positivity
  have hcond : (isPowerOfTwo (2 ^ k) &&
      decide (q * 2 ^ j / 2 ^ trailingZeros (q * 2 ^ j) ∈ [1, 3, 9])) = true := by
    rw [isPowerOfTwo_pow, trailingZeros_mul hq, Nat.mul_div_cancel _ (by positivity)]
    simpa using hq
  rw [Domain.withSplit, if_pos hcond]
  split
  · next h => exact absurd (h.symm.trans hroot) (by simp)
  · next ω' h =>
      obtain rfl := Option.some.inj (hroot.symm.trans h)
      rw [dif_pos hpos]
      exact ⟨_, rfl, rfl, rfl⟩

lemma find_factor {q : ℕ} (hq : q ∈ [1, 3, 9]) (k : ℕ) :
    ([9, 3, 1].find? fun q' => q * 2 ^ k % q' = 0) = some q := by
  have h3 : ¬ 3 ∣ 2 ^ k := fun h => absurd (Nat.Prime.dvd_of_dvd_pow Nat.prime_three h) (by decide)
  simp only [List.mem_cons, List.not_mem_nil, or_false] at hq
  rcases hq with rfl | rfl | rfl
  · have h9 : ¬ 9 ∣ 2 ^ k := fun h => h3 ((show 3 ∣ 9 by decide).trans h)
    simp [← Nat.dvd_iff_mod_eq_zero, h3, h9]
  · have h9 : ¬ 9 ∣ 3 * 2 ^ k := by
      rw [show 9 = 3 * 3 from rfl, Nat.mul_dvd_mul_iff_left (by decide)]
      exact h3
    simp [← Nat.dvd_iff_mod_eq_zero, h9]
  · simp [← Nat.dvd_iff_mod_eq_zero]

/-- The domain of a supported size is found, on the root of unity of that size. -/
lemma withSize_supported (R : FftField F) (minBlockedLog : ℕ) {n : ℕ} (hn : Supported n) {ω : F}
    (hroot : R.getRootOfUnity n = some ω) :
    ∃ d, Domain.withSize R minBlockedLog n = some d ∧ d.n = n ∧ d.omega = ω := by
  obtain ⟨q, hq, k, rfl⟩ := hn
  have hq0 : 0 < q := Nat.pos_of_ne_zero (by rintro rfl; simp at hq)
  have hk : trailingZeros (q * 2 ^ k / q) = k := by
    rw [Nat.mul_div_cancel_left _ hq0]
    simpa using trailingZeros_mul (show 1 ∈ [1, 3, 9] by simp) k
  have hunfold : Domain.withSize R minBlockedLog (q * 2 ^ k)
      = if k < minBlockedLog then
          if q = 1 then Domain.withSplit R 1 (q * 2 ^ k) else Domain.withSplit R q (2 ^ k)
        else Domain.withSplit R (q * 2 ^ (k / 2)) (2 ^ (k - k / 2)) := by
    rw [Domain.withSize, find_factor hq]
    simp [hk]
  rw [hunfold]
  split_ifs with hlt h1
  · subst h1
    have hroot' : R.getRootOfUnity (1 * 2 ^ 0 * 2 ^ k) = some ω := by simpa using hroot
    simpa using withSplit_eq R (by simp) hroot'
  · have hroot' : R.getRootOfUnity (q * 2 ^ 0 * 2 ^ k) = some ω := by simpa using hroot
    simpa using withSplit_eq R hq hroot'
  · have hsplit : q * 2 ^ (k / 2) * 2 ^ (k - k / 2) = q * 2 ^ k := by
      rw [mul_assoc, ← pow_add]
      congr 2
      omega
    have hroot' : R.getRootOfUnity (q * 2 ^ (k / 2) * 2 ^ (k - k / 2)) = some ω := by
      rw [hsplit]
      exact hroot
    rw [← hsplit]
    exact withSplit_eq R hq hroot'

lemma keyDomain_ok (R : FftField F) (src : ConstraintSource F) (minBlockedLog : ℕ) {n : ℕ}
    (hn : Supported n) {ω : F} (hroot : R.getRootOfUnity n = some ω)
    (hfit : src.numConstraints + src.numInstance ≤ n) :
    ∃ d, keyDomain R src minBlockedLog (n - 1) = .ok d ∧ d.n = n ∧ d.omega = ω := by
  obtain ⟨d, hd, hdn, hdω⟩ := withSize_supported R minBlockedLog hn hroot
  have hpos := src.instance_pos
  refine ⟨d, ?_, hdn, hdω⟩
  have hsize : domainOfSize R src minBlockedLog n = .ok d := by
    rw [domainOfSize, if_neg (by omega), hd]
  rw [keyDomain, Nat.sub_add_cancel (by omega), hsize]

/-! ### Sums of multiples -/

lemma msm_fixedBase (g : G) (xs zs : List F) : msm (fixedBase g xs) zs = dot xs zs • g := by
  induction xs generalizing zs with
  | nil => simp [msm, fixedBase, dot]
  | cons x xs ih =>
      cases zs with
      | nil => simp [msm, dot]
      | cons z zs =>
          have hcons : msm (fixedBase g (x :: xs)) (z :: zs) = z • x • g + msm (fixedBase g xs) zs := by
            simp [msm, fixedBase]
          rw [hcons, ih, dot_cons, add_smul, smul_smul, mul_comm z]

lemma msm_append {pts qts : List G} {xs ys : List F} (h : pts.length = xs.length) :
    msm (pts ++ qts) (xs ++ ys) = msm pts xs + msm qts ys := by
  simp [msm, List.zip_append h]

lemma streamFrom_eq {chunk : ℕ} (hchunk : 0 < chunk) {sc : ℕ → ℕ → List F} {scalars : List F}
    (fuel : ℕ) {off : ℕ} {pts : List G} (hfuel : pts.length ≤ fuel)
    (hlen : off + pts.length ≤ scalars.length)
    (hsc : ∀ o l, o + l ≤ off + pts.length → sc o l = (scalars.drop o).take l) :
    streamFrom chunk sc fuel off pts = msm pts ((scalars.drop off).take pts.length) := by
  induction fuel generalizing off pts with
  | zero =>
      rw [List.length_eq_zero_iff.mp (Nat.le_zero.mp hfuel)]
      rfl
  | succ fuel ih =>
      rw [streamFrom]
      split_ifs with hempty
      · rw [List.isEmpty_iff.mp hempty]
        rfl
      · have hpos : 0 < pts.length := List.length_pos_iff.mpr (by simpa using hempty)
        have hl : (pts.take chunk).length = min chunk pts.length := List.length_take
        have hr : (pts.drop chunk).length = pts.length - chunk := List.length_drop
        dsimp only
        rcases le_total pts.length chunk with hle | hle
        · have hdrop : pts.drop chunk = [] := List.drop_eq_nil_of_le hle
          have hnil : streamFrom chunk sc fuel (off + chunk) (pts.drop chunk) = 0 := by
            rw [hdrop]
            cases fuel <;> rfl
          rw [hnil, add_zero, List.take_of_length_le hle, hsc _ _ le_rfl]
        · rw [ih (by omega) (by omega) fun o l h => hsc o l (by omega), hsc _ _ (by omega), hl, hr,
            min_eq_left hle]
          have hpts := List.take_append_drop chunk pts
          have hscal : (scalars.drop off).take pts.length
              = (scalars.drop off).take chunk
                ++ (scalars.drop (off + chunk)).take (pts.length - chunk) := by
            rw [← List.drop_drop, ← List.take_add]
            congr 1
            omega
          conv_rhs => rw [hscal, ← hpts]
          rw [msm_append]
          · congr 2
            rw [List.take_append_drop]
          · rw [hl, List.length_take, List.length_drop]
            omega

/-- Chunk by chunk, the whole vector is summed against its scalars. -/
lemma streamMsm_eq (chunk : ℕ) {sc : ℕ → ℕ → List F} {scalars : List F} {pts : List G}
    (hlen : pts.length ≤ scalars.length)
    (hsc : ∀ o l, o + l ≤ pts.length → sc o l = (scalars.drop o).take l) :
    streamMsm chunk pts sc = msm pts (scalars.take pts.length) := by
  have hchunk : 0 < max chunk 1 := lt_max_of_lt_right Nat.one_pos
  rw [streamMsm, streamFrom_eq hchunk pts.length le_rfl (by simpa using hlen) (by simpa using hsc),
    List.drop_zero]

/-! ### The values at `t` -/

section Values

variable {src : ConstraintSource F} {z : List F} {d : Domain F} {u : List F}

lemma dot_zerosWith {n : ℕ} {vals z : List F} (h : vals.length ≤ z.length) :
    dot (zerosWith n vals) z = dot vals (z.take vals.length) := by
  have hz : z = z.take vals.length ++ z.drop vals.length := (List.take_append_drop _ _).symm
  conv_lhs => rw [hz]
  rw [zerosWith, dot_append (by rw [List.length_take]; omega), dot_zeros, add_zero]

/-- The weights against a vector of values are the value of its polynomial at `t`. -/
lemma dot_lagrange (d : Domain F) {t : F} (ht : t ^ d.n ≠ 1) {v : List F} (hv : v.length = d.n) :
    dot (lagrangeCoefficients d.omega d.n t) v = (d.poly v).eval t := by
  rw [dot_eq_sum (length_lagrangeCoefficients _ _ _) hv, Domain.poly, eval_interpolant]
  refine sum_congr rfl fun i hi => ?_
  rw [lagrangeCoefficients, entry_map_range _ (mem_range.mp hi),
    lagrangeAt_eq d.isPrimitiveRoot d.n_pos ht, mul_comm]

lemma length_load {vals : List F} (h : vals.length ≤ d.n) : (d.load vals).length = d.n := by
  rw [Domain.load, List.length_append, List.length_replicate]
  omega

/-- The weights against loaded values: only the first ones count. -/
lemma dot_load {vals : List F} (hu : u.length = d.n) (h : vals.length ≤ d.n) :
    dot u (d.load vals) = dot (u.take vals.length) vals := by
  have hsplit : u = u.take vals.length ++ u.drop vals.length := (List.take_append_drop _ _).symm
  conv_lhs => rw [hsplit]
  rw [Domain.load, dot_append (by rw [List.length_take]; omega), dot_comm (u.drop _), dot_zeros,
    add_zero]

variable [DecidableEq F] (hu : u.length = d.n) (hz : z.length = src.numVars)
  (hfit : src.numConstraints + src.numInstance ≤ d.n)
include hu hz hfit

lemma dot_aAt : dot (aAt src u) z = dot u (aValues src z d) := by
  have hle := src.instance_le
  have hm : (u.take src.numConstraints).length = src.numConstraints := by
    rw [List.length_take]
    omega
  have hinst : ((u.drop src.numConstraints).take src.numInstance).length = src.numInstance := by
    rw [List.length_take, List.length_drop]
    omega
  have hzi : (z.take src.numInstance).length = src.numInstance := by
    rw [List.length_take]
    omega
  have hvals : (evalRows src z 0 ++ z.take src.numInstance).length
      = src.numConstraints + src.numInstance := by
    rw [List.length_append, length_evalRows, hzi]
  have hsplit : u.take (src.numConstraints + src.numInstance)
      = u.take src.numConstraints ++ (u.drop src.numConstraints).take src.numInstance :=
    List.take_add
  rw [aAt, dot_transposeEval src 0 hm (length_zerosWith (by omega)) hz, dot_zerosWith (by omega),
    hinst, aValues, dot_load hu (by omega), hvals, hsplit,
    dot_append (by rw [hm, length_evalRows]), add_comm]

lemma dot_bAt : dot (bAt src u) z = dot u (bValues src z d) := by
  have hm : (u.take src.numConstraints).length = src.numConstraints := by
    rw [List.length_take]
    omega
  rw [bAt, dot_transposeEval src 1 hm (length_zerosWith (Nat.zero_le _)) hz,
    dot_zerosWith (Nat.zero_le _), bValues, dot_load hu (by rw [length_evalRows]; omega),
    length_evalRows, dot_nil_left, zero_add]

lemma dot_cAt : dot (cAt src u) z = dot u (cValues src z d) := by
  have hm : (u.take src.numConstraints).length = src.numConstraints := by
    rw [List.length_take]
    omega
  rw [cAt, dot_transposeEval src 2 hm (length_zerosWith (Nat.zero_le _)) hz,
    dot_zerosWith (Nat.zero_le _), cValues, dot_load hu (by rw [length_evalRows]; omega),
    length_evalRows, dot_nil_left, zero_add]

end Values

/-! ### The equation -/

section Equation

/-- The sum of the public inputs in the verifier. -/
lemma foldl_public (g g0 : G) (xs zs : List F) :
    (zs.zip (fixedBase g xs)).foldl (fun acc p => acc + p.1 • p.2) g0 = g0 + dot xs zs • g := by
  induction xs generalizing zs g0 with
  | nil => simp [fixedBase, dot]
  | cons x xs ih =>
      cases zs with
      | nil => simp [dot]
      | cons z zs =>
          have hcons : fixedBase g (x :: xs) = x • g :: fixedBase g xs := rfl
          rw [hcons, List.zip_cons_cons, List.foldl_cons, ih, dot_cons, add_smul, smul_smul,
            mul_comm z, add_assoc]

variable {G₁ G₂ GT : Type} [AddCommGroup G₁] [Module F G₁] [AddCommGroup G₂] [Module F G₂]
  [AddCommGroup GT] [Module F GT] [DecidableEq GT]
  {src : ConstraintSource F} {z : List F} {x : Toxic F G₁ G₂} {ω : F} {n : ℕ}

omit [AddCommGroup G₁] [Module F G₁] [AddCommGroup G₂] [Module F G₂] in
/-- The public part and `L` together are the combination of all variables. -/
lemma public_add_witness [DecidableEq F] (hz : z.length = src.numVars) (u : List F) :
    x.gamma * dot ((List.range src.numInstance).map fun i =>
        abcAt src u x.alpha x.beta i * x.gamma⁻¹) (z.take src.numInstance)
      + x.delta * dot ((List.range' src.numInstance (src.numVars - src.numInstance)).map fun i =>
        abcAt src u x.alpha x.beta i * x.delta⁻¹) (z.drop src.numInstance)
      = x.beta * dot (aAt src u) z + x.alpha * dot (bAt src u) z + dot (cAt src u) z := by
  have hle := src.instance_le
  set abc := abcAt src u x.alpha x.beta with habc
  have hscale : ∀ (k : F), k ≠ 0 → ∀ (l : List ℕ) (v : List F),
      k * dot (l.map fun i => abc i * k⁻¹) v = dot (l.map abc) v := by
    intro k hk l v
    induction l generalizing v with
    | nil => simp [dot]
    | cons i l ih =>
        cases v with
        | nil => simp [dot]
        | cons b v =>
            rw [List.map_cons, List.map_cons, dot_cons, dot_cons, mul_add, ih]
            congr 1
            rw [mul_comm (abc i), mul_assoc, mul_inv_cancel_left₀ hk]
  have hrange : List.range src.numVars
      = List.range src.numInstance ++ List.range' src.numInstance (src.numVars - src.numInstance) := by
    have h : List.range' 0 src.numInstance ++ List.range' (0 + src.numInstance)
        (src.numVars - src.numInstance) = _ := List.range'_append_1
    rw [Nat.zero_add, Nat.add_sub_cancel' hle] at h
    rw [List.range_eq_range', List.range_eq_range', h]
  have hall : dot ((List.range src.numVars).map abc) z
      = dot ((List.range src.numInstance).map abc) (z.take src.numInstance)
        + dot ((List.range' src.numInstance (src.numVars - src.numInstance)).map abc)
          (z.drop src.numInstance) := by
    conv_lhs => rw [hrange, List.map_append, ← List.take_append_drop src.numInstance z]
    rw [dot_append (by rw [List.length_map, List.length_range, List.length_take]; omega)]
  rw [hscale _ x.gamma_ne_zero, hscale _ x.delta_ne_zero, ← hall,
    dot_eq_sum (by simp) hz, dot_eq_sum (length_aAt src u) hz, dot_eq_sum (length_bAt src u) hz,
    dot_eq_sum (length_cAt src u) hz,
    mul_sum, mul_sum, ← sum_add_distrib, ← sum_add_distrib]
  refine sum_congr rfl fun i hi => ?_
  rw [entry_map_range _ (mem_range.mp hi), habc, abcAt]
  ring

/-- The verifier's equation on multiples of the two points is one equation of scalars. -/
lemma verify_smul (e : G₁ →ₗ[F] G₂ →ₗ[F] GT) {vk : VerifyingKey G₁ G₂} {g1 : G₁} {g2 : G₂}
    {α β γ δ a b c : F} {ga zs : List F} (hvk : vk = ⟨α • g1, β • g2, γ • g2, δ • g2, fixedBase g1 ga⟩)
    (hzs : zs.head? = some 1) (hlen : ga.length = zs.length)
    (heq : a * b = α * β + dot ga zs * γ + c * δ) :
    verify e vk (zs.drop 1) ⟨a • g1, b • g2, c • g1⟩ = .ok true := by
  obtain ⟨zs, rfl⟩ := List.head?_eq_some_iff.mp hzs
  obtain ⟨g0, ga, rfl⟩ := List.exists_cons_of_length_eq_add_one hlen
  have hacc : (zs.zip (fixedBase g1 ga)).foldl (fun acc p => acc + p.1 • p.2) (g0 • g1)
      = dot (g0 :: ga) (1 :: zs) • g1 := by
    rw [foldl_public, dot_cons, mul_one, add_smul]
  have hzlen : zs.length = (fixedBase g1 (g0 :: ga)).length - 1 := by
    simpa [fixedBase] using hlen.symm
  rw [verify, hvk]
  dsimp only
  rw [if_neg (by simp [hzlen, fixedBase])]
  have hdrop : (fixedBase g1 (g0 :: ga)).drop 1 = fixedBase g1 ga := rfl
  have hhead : entry (fixedBase g1 (g0 :: ga)) 0 = g0 • g1 := rfl
  rw [hdrop, hhead, List.drop_succ_cons, List.drop_zero, hacc]
  congr 1
  rw [decide_eq_true_iff]
  simp only [map_smul, map_neg, LinearMap.smul_apply, smul_smul, ← sub_eq_add_neg,
    ← sub_smul]
  congr 1
  linear_combination heq

variable (R : FftField F) {d : Domain F}

/-- The `H` part of a proof is `Z(t) / δ * Q(t)`. -/
lemma hAcc_eq (hd : R.getRootOfUnity d.n = some d.omega) {Q : F[X]}
    (hQ : d.poly (aValues src z d) * d.poly (bValues src z d) - d.poly (cValues src z d)
      = (X ^ d.n - 1) * Q) (cfg : ProverConfig) (g : G) (h0 t : F) :
    streamMsm cfg.msmChunk (fixedBase g ((List.range (d.n - 1)).map fun i => h0 * t ^ i))
      (quotientFor R src z d cfg).gather = (h0 * Q.eval t) • g := by
  have hquot : quotientFor R src z d cfg = quotient R src z d := by
    rw [quotientFor, quotientSpilled_eq, ite_self]
  have hlen : (fixedBase g ((List.range (d.n - 1)).map fun i => h0 * t ^ i)).length = d.n - 1 := by
    simp [fixedBase]
  have hgather : ∀ o l, o + l ≤ d.n - 1 → (quotient R src z d).gather o l
      = (((List.range (d.n - 1)).map Q.coeff).drop o).take l := by
    intro o l hol
    rw [gather_quotient R src z d hd hQ (by omega), ← List.map_drop, ← List.map_take,
      List.range_eq_range', List.drop_range', List.take_range'_of_length_ge (by omega)]
    simp
  have hQt : Q.eval t = ∑ i ∈ range (d.n - 1), Q.coeff i * t ^ i := by
    have hQn : Q = ofCoeffs (d.n - 1) Q.coeff := by
      ext j
      rw [coeff_ofCoeffs]
      split_ifs with hj
      · rfl
      · exact coeff_quotient_eq_zero d.n_pos (d.degree_poly_lt _) (d.degree_poly_lt _)
          (d.degree_poly_lt _) hQ (by omega)
    conv_lhs => rw [hQn]
    exact eval_ofCoeffs _ _
  have hx : ((List.range (d.n - 1)).map fun i => h0 * t ^ i).length = d.n - 1 := by simp
  have hy : ((List.range (d.n - 1)).map Q.coeff).length = d.n - 1 := by simp
  rw [← hlen] at hgather
  rw [hquot, streamMsm_eq cfg.msmChunk (by rw [hlen, hy]) hgather, hlen,
    List.take_of_length_le hy.le, msm_fixedBase, dot_eq_sum hx hy, hQt, mul_sum]
  congr 1
  refine sum_congr rfl fun i hi => ?_
  rw [entry_map_range _ (mem_range.mp hi), entry_map_range _ (mem_range.mp hi)]
  ring

/-- A key vector against the assignment from position `from` on. -/
lemma streamMsm_positions (chunk : ℕ) (g : G) {v : List F} (start : ℕ)
    (hv : start + v.length = z.length) :
    streamMsm chunk (fixedBase g v) (fun off len => (z.drop (start + off)).take len)
      = dot v (z.drop start) • g := by
  have hlen : (fixedBase g v).length = (z.drop start).length := by
    rw [fixedBase, List.length_map, List.length_drop]
    omega
  have hsc : ∀ o l, o + l ≤ (fixedBase g v).length →
      (z.drop (start + o)).take l = ((z.drop start).drop o).take l := fun o l _ => by
    rw [List.drop_drop]
  rw [streamMsm_eq chunk hlen.le hsc, hlen, List.take_length, msm_fixedBase]

variable [DecidableEq F]

/-- **The proof of a satisfying assignment verifies.** -/
lemma proofOf_verifies (e : G₁ →ₗ[F] G₂ →ₗ[F] GT) (hd : R.getRootOfUnity d.n = some d.omega)
    (hfit : src.numConstraints + src.numInstance ≤ d.n) (ht : x.t ^ d.n ≠ 1)
    (hz : z.length = src.numVars) (hone : z.head? = some 1) (hsat : ∀ r ∈ src.rows, Holds z r)
    (r s : F) (cfg : ProverConfig) :
    verify e (devKey src x d.omega d.n).vk ((z.take src.numInstance).drop 1)
      (proofOf R src z (devKey src x d.omega d.n) r s d cfg) = .ok true := by
  have hle := src.instance_le
  have hpos := src.instance_pos
  obtain ⟨Q, hQ⟩ := (dvd_iff_sat src z d (by omega)).mpr hsat
  set u := lagrangeCoefficients d.omega d.n x.t with hu
  have hulen : u.length = d.n := length_lagrangeCoefficients _ _ _
  have hAz := dot_aAt hulen hz hfit
  have hBz := dot_bAt hulen hz hfit
  have hCz := dot_cAt hulen hz hfit
  have hav : (aValues src z d).length = d.n := length_load (by
    rw [List.length_append, length_evalRows, List.length_take]
    omega)
  have hbv : (bValues src z d).length = d.n := length_load (by rw [length_evalRows]; omega)
  have hcv : (cValues src z d).length = d.n := length_load (by rw [length_evalRows]; omega)
  rw [hu, dot_lagrange d ht hav] at hAz
  rw [hu, dot_lagrange d ht hbv] at hBz
  rw [hu, dot_lagrange d ht hcv] at hCz
  -- The identity of the polynomials at `t`.
  have hqap := congrArg (eval x.t) hQ
  rw [eval_sub, eval_mul, eval_mul, eval_sub, eval_pow, eval_X, eval_one, ← hAz, ← hBz, ← hCz,
    ← hu] at hqap
  have hpub := public_add_witness (x := x) hz u
  set A := dot (aAt src u) z with hA
  set B := dot (bAt src u) z with hB
  set C := dot (cAt src u) z with hC
  set ga := (List.range src.numInstance).map fun i => abcAt src u x.alpha x.beta i * x.gamma⁻¹
    with hga
  set lv := (List.range' src.numInstance (src.numVars - src.numInstance)).map fun i =>
    abcAt src u x.alpha x.beta i * x.delta⁻¹ with hlv
  set L := dot lv (z.drop src.numInstance) with hL
  -- The sums over the key's vectors.
  have hAlen : 0 + (aAt src u).length = z.length := by rw [length_aAt, hz, Nat.zero_add]
  have hBlen : 0 + (bAt src u).length = z.length := by rw [length_bAt, hz, Nat.zero_add]
  have hLlen : src.numInstance + lv.length = z.length := by
    rw [hlv, List.length_map, List.length_range', hz]
    omega
  have ha := streamMsm_positions cfg.msmChunk x.g1 0 hAlen
  have hb1 := streamMsm_positions cfg.msmChunk x.g1 0 hBlen
  have hb2 := streamMsm_positions cfg.msmChunk x.g2 0 hBlen
  have hl := streamMsm_positions cfg.msmChunk x.g1 src.numInstance hLlen
  have hh := hAcc_eq R hd hQ cfg x.g1 ((x.t ^ d.n - 1) * x.delta⁻¹) x.t
  simp only [Nat.zero_add, List.drop_zero] at ha hb1 hb2
  set H := (x.t ^ d.n - 1) * x.delta⁻¹ * Q.eval x.t with hH
  have hproof : proofOf R src z (devKey src x d.omega d.n) r s d cfg
      = ⟨(r * x.delta + A + x.alpha) • x.g1, (s * x.delta + B + x.beta) • x.g2,
        (s * (r * x.delta + A + x.alpha) + r * (s * x.delta + B + x.beta) - r * s * x.delta
          + L + H) • x.g1⟩ := by
    rw [proofOf, devKey]
    dsimp only
    rw [← hu, ← hlv, ha, hb1, hb2, hl, hh]
    congr 1
    · module
    · module
    · by_cases hr : r = 0
      · subst hr
        simp only [if_true]
        module
      · simp only [hr, if_false]
        module
  rw [hproof]
  refine verify_smul e rfl ?_ ?_ ?_
  · rw [List.head?_take, if_neg (by omega), hone]
  · rw [List.length_map, List.length_range, List.length_take]
    omega
  · have hδ : x.delta * H = (x.t ^ d.n - 1) * Q.eval x.t := by
      rw [hH]
      field_simp [x.delta_ne_zero]
    rw [← hu, ← hga]
    linear_combination hqap - hpub - hδ

/-- The key has the shape that the prover checks. -/
lemma checkShape_devKey (src : ConstraintSource F) (x : Toxic F G₁ G₂) (ω : F) {n : ℕ}
    (hn : 0 < n) : checkShape src (devKey src x ω n) n = .ok () := by
  have ha : (devKey src x ω n).aQuery.length = src.numVars := by
    rw [devKey, length_fixedBase, length_aAt]
  have hb1 : (devKey src x ω n).bG1Query.length = src.numVars := by
    rw [devKey, length_fixedBase, length_bAt]
  have hb2 : (devKey src x ω n).bG2Query.length = src.numVars := by
    rw [devKey, length_fixedBase, length_bAt]
  have hl : (devKey src x ω n).lQuery.length = src.numWitness := by
    rw [devKey, length_fixedBase, List.length_map, List.length_range', ConstraintSource.numWitness]
  have hh : (devKey src x ω n).hQuery.length + 1 = n := by
    rw [devKey, length_fixedBase, List.length_map, List.length_range]
    omega
  have habc : (devKey src x ω n).vk.gammaAbcG1.length = src.numInstance := by
    rw [devKey, length_fixedBase, List.length_map, List.length_range]
  rw [checkShape, ha, hb1, hb2, hl]
  simp [checkLen, hh, habc]
  rfl

/-- **Completeness**: the prover returns a proof that verifies. -/
lemma proveImpl_verifies (e : G₁ →ₗ[F] G₂ →ₗ[F] GT) {n : ℕ} (hn : Supported n) {ω : F}
    (hroot : R.getRootOfUnity n = some ω) (hfit : src.numConstraints + src.numInstance ≤ n)
    (ht : x.t ^ n ≠ 1) (z : Assignment src) (hone : z.vals.head? = some 1)
    (hsat : ∀ r ∈ src.rows, Holds z.vals r) (r s : F) (cfg : ProverConfig) :
    ∃ proof, proveImpl R e src z (devKey src x ω n) r s cfg = .ok proof ∧
      verify e (devKey src x ω n).vk ((z.vals.take src.numInstance).drop 1) proof = .ok true := by
  have hpos := src.instance_pos
  obtain ⟨d, hd, rfl, rfl⟩ := keyDomain_ok R src cfg.minBlockedLog hn hroot hfit
  have hver := proofOf_verifies R e hroot hfit ht z.length_eq hone hsat r s cfg
  have hh : (devKey src x d.omega d.n).hQuery.length = d.n - 1 := by
    rw [devKey, length_fixedBase, List.length_map, List.length_range]
  have hheader : checkHeader (devKey src x d.omega d.n) d.n = .ok () := if_neg (not_not.mpr rfl)
  refine ⟨_, ?_, hver⟩
  rw [proveImpl, hh, hd]
  dsimp only
  rw [hheader, checkShape_devKey src x d.omega d.n_pos, hver]
  simp only [ite_self]
  rfl

/-- **One QAP**: the key of a setup and the prover agree. Satisfying assignments have proofs that
verify; when a row breaks, what the prover computes is not a quotient, with or without a spill; and
phase 2 from the powers of the same secrets gives the same key. -/
theorem setup_prover_agree (R : FftField F) (e : G₁ →ₗ[F] G₂ →ₗ[F] GT) (src : ConstraintSource F)
    {n : ℕ} (hn : Supported n) {ω : F} (hroot : R.getRootOfUnity n = some ω)
    (hfit : src.numConstraints + src.numInstance ≤ n) (x : Toxic F G₁ G₂) (ht : x.t ^ n ≠ 1) :
    ∃ pk, devSetupOn R src x n = .ok pk ∧
      (∀ z : Assignment src, z.vals.head? = some 1 → (∀ row ∈ src.rows, Holds z.vals row) →
        ∀ r s cfg, ∃ proof, proveImpl R e src z pk r s cfg = .ok proof ∧
          verify e pk.vk ((z.vals.take src.numInstance).drop 1) proof = .ok true) ∧
      (∀ minBlockedLog, ∃ d, keyDomain R src minBlockedLog pk.hQuery.length = .ok d ∧ d.n = n ∧
        ∀ z : Assignment src, quotientSpilled R src z.vals d = quotient R src z.vals d ∧
          ((∃ row ∈ src.rows, ¬ Holds z.vals row) →
            ¬ X ^ n - 1 ∣ d.poly (aValues src z.vals d) * d.poly (bValues src z.vals d)
              - d.poly (cValues src z.vals d) ∧
            d.poly (aValues src z.vals d) * d.poly (bValues src z.vals d)
              - d.poly (cValues src z.vals d)
              ≠ (X ^ n - 1) * ofCoeffs n (entry ((quotient R src z.vals d).gather 0 n)))) ∧
      (n = DomainKind.radix2.size (src.numConstraints + src.numInstance) →
        ∀ order : Fin 3 → List (MatrixEntry F), (∀ m, (order m).Perm (src.entries m)) →
          ∀ N, n ≤ N → phase2Setup R src order
            (PtauPowers.ofSecrets x.t x.alpha x.beta x.g1 x.g2 N) x.gamma x.delta x.g1 x.g2
              = .ok pk) := by
  have hdev : devSetupOn R src x n = .ok (devKey src x ω n) := by rw [devSetupOn, hroot]
  refine ⟨devKey src x ω n, hdev, ?_, ?_, ?_⟩
  · intro z hone hsat r s cfg
    exact proveImpl_verifies R e hn hroot hfit ht z hone hsat r s cfg
  · intro minBlockedLog
    obtain ⟨d, hd, hdn, -⟩ := keyDomain_ok R src minBlockedLog hn hroot hfit
    have hh : (devKey src x ω n).hQuery.length = n - 1 := by
      rw [devKey, length_fixedBase, List.length_map, List.length_range]
    refine ⟨d, by rw [hh, hd], hdn, fun z => ⟨quotientSpilled_eq R src z.vals d, ?_⟩⟩
    rintro ⟨row, hrow, hbroken⟩
    subst hdn
    have hndvd := fun h => hbroken ((dvd_iff_sat src z.vals d (by omega)).mp h row hrow)
    exact ⟨hndvd, fun h => hndvd ⟨_, h⟩⟩
  · rintro rfl order horder N hN
    rw [phase2_eq_devSetup R src horder x hN ht, devSetup, hdev]

end Equation

/-! ### A circuit over a small field -/

section Small

instance fact_prime_five : Fact (Nat.Prime 5) := ⟨by decide⟩

/-- The square roots of one modulo `5`. -/
def fieldOfFive : FftField (ZMod 5) where
  getRootOfUnity n := if n = 2 then some 4 else none
  GENERATOR := 2
  primitive n ω h := by
    obtain ⟨rfl, rfl⟩ : n = 2 ∧ 4 = ω := by simpa using h
    exact IsPrimitiveRoot.iff_def 4 2 |>.mpr ⟨by decide, fun l hl => by
      by_contra hodd
      obtain ⟨k, rfl⟩ := Nat.odd_iff.mpr (by omega : l % 2 = 1)
      rw [pow_succ, pow_mul, show (4 : ZMod 5) ^ 2 = 1 by decide, one_pow, one_mul] at hl
      exact absurd hl (by decide)⟩
  generator_ne_zero := by decide
  off_domain n ω _ h := by
    obtain ⟨rfl, -⟩ : n = 2 ∧ 4 = ω := by simpa using h
    decide

/-- `x * x = x`. -/
def squareSource : ConstraintSource (ZMod 5) where
  rows := [fun _ => [(1, 1)]]
  numInstance := 1
  numVars := 2
  instance_pos := Nat.one_pos
  instance_le := by decide
  positions := by simp

/-- Secrets modulo `5`. -/
def secretsOfFive : Toxic (ZMod 5) (ZMod 5) (ZMod 5) :=
  ⟨2, 3, 4, 2, 2, 1, 1, by decide, by decide⟩

/-- A key for `x * x = x` and the prover agree. -/
theorem setup_prover_agree_square : ∃ pk proof,
    devSetupOn fieldOfFive squareSource secretsOfFive 2 = .ok pk ∧
    proveImpl fieldOfFive (LinearMap.mul (ZMod 5) (ZMod 5)) squareSource ⟨[1, 1], rfl⟩ pk 3 4
      ⟨1, 10, true, true⟩ = .ok proof ∧
    verify (LinearMap.mul (ZMod 5) (ZMod 5)) pk.vk [] proof = .ok true := by
  obtain ⟨pk, hpk, hcomplete, -⟩ := setup_prover_agree fieldOfFive
    (LinearMap.mul (ZMod 5) (ZMod 5)) squareSource (n := 2) ⟨1, by decide, 1, rfl⟩ (ω := 4) rfl
    (by decide) secretsOfFive (by decide)
  obtain ⟨proof, hproof, hver⟩ := hcomplete ⟨[1, 1], rfl⟩ rfl (by decide) 3 4 ⟨1, 10, true, true⟩
  exact ⟨pk, proof, hpk, hproof, hver⟩

end Small

end Groth16

end XarkCircuit
