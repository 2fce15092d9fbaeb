import XarkCircuit.Groth16.Ptau
import XarkCircuit.Groth16.SetupSound
import XarkCircuit.Lib.Succeeds
import Mathlib.Data.List.Iterate

/-!
The checks of a powers-of-tau transcript.

* `verify_iff`: what `verifyPowersConsistency` accepts, `Anchored` for any challenge and `Batched`
  for this one.
* `passes_of_transcript` and `exists_polynomial_of_not_transcript`: ladders pass for every
  challenge, and anything else only at the roots of a polynomial.
* `phase2SetupChecked_eq`: after `validateForCircuit` phase 2 reads within the sections.
-/

namespace XarkCircuit

namespace Groth16

open Ladder Succeeding

variable {F : Type} [Field F] {G₁ G₂ Gₜ : Type} [AddCommGroup G₁] [Module F G₁]
  [AddCommGroup G₂] [Module F G₂] [AddCommGroup Gₜ] [Module F Gₜ]

/-! ### What is accepted -/

section Refuse

variable {bad : Prop} [Decidable bad] {stage : String}

lemma refuse_eq_ok {u : Unit} : refuse bad stage = .ok u ↔ ¬ bad := by
  by_cases h : bad <;> simp [refuse, h]

lemma refuse_bind_eq_ok {α : Type} {k : Unit → Except Fault α} {a : α} :
    refuse bad stage >>= k = .ok a ↔ ¬ bad ∧ k () = .ok a := by
  by_cases h : bad
  · simp [refuse, h, bind, Except.bind]
  · simp [refuse, h, bind, Except.bind]

lemma orRefuse_some_bind {G α : Type} (a : G) (k : G → Except Fault α) :
    orRefuse stage (some a) >>= k = k a := rfl

end Refuse

lemma powersOf_take (rho : F) {m n : ℕ} (h : m ≤ n) : (powersOf rho n).take m = powersOf rho m := by
  rw [powersOf, powersOf, List.take_iterate, min_eq_left h]

/-- The library's sum over the first powers. -/
lemma msmOf_powers {G : Type} [AddCommGroup G] [Module F G] (rho : F) {points : List G} {m n : ℕ}
    (hm : points.length = m) (h : m ≤ n) :
    msmOf points ((powersOf rho n).take m) = some (batch rho points) := by
  have hlen : points.length = (powersOf rho m).length := by
    rw [powersOf, List.length_iterate, hm]
  rw [powersOf_take rho h, msmOf, if_pos hlen, powersOf, sum_zipWith_iterate rho 1 m points hm.le,
    one_smul]

section Ladders

variable [DecidableEq Gₜ] {e : G₁ →ₗ[F] G₂ →ₗ[F] Gₜ} {rho : F}

lemma g1LadderOk_iff {tauLo tauHi : G₂} {n : ℕ} {points : List G₁} (h : points.length - 1 ≤ n) :
    g1LadderOk e tauLo tauHi (powersOf rho n) points = true ↔
      e (batch rho points.tail) tauLo = e (batch rho points.dropLast) tauHi := by
  rw [g1LadderOk]
  dsimp only
  split_ifs with hm
  · -- one point or none: both sums are empty
    have htail : points.tail = [] := List.eq_nil_of_length_eq_zero (by rw [List.length_tail]; omega)
    have hlast : points.dropLast = [] :=
      List.eq_nil_of_length_eq_zero (by rw [List.length_dropLast]; omega)
    simp [htail, hlast]
  · rw [← List.dropLast_eq_take, msmOf_powers rho List.length_dropLast h,
      msmOf_powers rho List.length_tail h]
    simp

end Ladders

/-- What every challenge accepts or refuses. -/
structure Anchored (e : G₁ →ₗ[F] G₂ →ₗ[F] Gₜ) (g1 : G₁) (g2 : G₂) (ptau : PtauFile G₁ G₂) :
    Prop where
  tauG1_length : 2 ≤ ptau.tauG1.length
  tauG2_length : 2 ≤ ptau.tauG2.length
  tauG1_zero : entry ptau.tauG1 0 = g1
  tauG2_zero : entry ptau.tauG2 0 = g2
  alpha_length : ptau.alphaTauG1 ≠ []
  beta_length : ptau.betaTauG1 ≠ []
  tau_ne_zero : entry ptau.tauG1 1 ≠ 0
  tau_ne_one : entry ptau.tauG1 1 ≠ g1
  alpha_ne_zero : entry ptau.alphaTauG1 0 ≠ 0
  beta_ne_zero : entry ptau.betaTauG1 0 ≠ 0
  betaG2_ne_zero : ptau.betaG2 ≠ 0
  tau_link : e (entry ptau.tauG1 1) g2 = e g1 (entry ptau.tauG2 1)
  beta_link : e (entry ptau.betaTauG1 0) g2 = e g1 ptau.betaG2

/-- What this challenge accepts. -/
structure Batched (e : G₁ →ₗ[F] G₂ →ₗ[F] Gₜ) (rho : F) (ptau : PtauFile G₁ G₂) : Prop where
  g1 : ∀ points ∈ [ptau.tauG1, ptau.alphaTauG1, ptau.betaTauG1],
    e (batch rho points.tail) (entry ptau.tauG2 0)
      = e (batch rho points.dropLast) (entry ptau.tauG2 1)
  g2 : e (entry ptau.tauG1 0) (batch rho ptau.tauG2.tail)
    = e (entry ptau.tauG1 1) (batch rho ptau.tauG2.dropLast)

variable {e : G₁ →ₗ[F] G₂ →ₗ[F] Gₜ} {g1 : G₁} {g2 : G₂} {rho : F} {ptau : PtauFile G₁ G₂}

/-- **What is accepted**: six kinds of checks. -/
theorem verify_iff [DecidableEq G₁] [DecidableEq G₂] [DecidableEq Gₜ] :
    verifyPowersConsistency e g1 g2 rho ptau = .ok () ↔
      Anchored e g1 g2 ptau ∧ Batched e rho ptau := by
  set n := max (max (max ptau.tauG1.length ptau.alphaTauG1.length) ptau.betaTauG1.length)
    ptau.tauG2.length - 1 with hn
  have hc : msmOf (ptau.tauG2.take (ptau.tauG2.length - 1))
      ((powersOf rho n).take (ptau.tauG2.length - 1)) = some (batch rho ptau.tauG2.dropLast) := by
    rw [← List.dropLast_eq_take]
    exact msmOf_powers rho List.length_dropLast (by omega)
  have hd : msmOf ptau.tauG2.tail ((powersOf rho n).take (ptau.tauG2.length - 1))
      = some (batch rho ptau.tauG2.tail) := msmOf_powers rho List.length_tail (by omega)
  have hladder : ∀ points : List G₁, points.length - 1 ≤ n →
      (¬ g1LadderOk e (entry ptau.tauG2 0) (entry ptau.tauG2 1) (powersOf rho n) points = false ↔
        e (batch rho points.tail) (entry ptau.tauG2 0)
          = e (batch rho points.dropLast) (entry ptau.tauG2 1)) := fun points h => by
    rw [Bool.not_eq_false, g1LadderOk_iff h]
  simp only [verifyPowersConsistency, refuse_bind_eq_ok, refuse_eq_ok, ← hn, hc, hd, orRefuse_some_bind,
    hladder _ (show ptau.tauG1.length - 1 ≤ n by omega),
    hladder _ (show ptau.alphaTauG1.length - 1 ≤ n by omega),
    hladder _ (show ptau.betaTauG1.length - 1 ≤ n by omega), not_or, not_lt, not_not, ne_eq]
  constructor
  · rintro ⟨⟨hlen1, hlen2⟩, ⟨hg1, hg2⟩, ⟨halpha, hbeta⟩, ⟨htau0, htau1⟩, halpha0, ⟨hbeta0, hbeta2⟩,
      hlink, htau, halphas, hbetas, htau2, hblink⟩
    refine ⟨⟨hlen1, hlen2, hg1, hg2, halpha, hbeta, htau0, htau1, halpha0, hbeta0, hbeta2, hlink,
      hblink⟩, ⟨fun points hmem => ?_, htau2⟩⟩
    fin_cases hmem
    · exact htau
    · exact halphas
    · exact hbetas
  · rintro ⟨ha, hb⟩
    exact ⟨⟨ha.tauG1_length, ha.tauG2_length⟩, ⟨ha.tauG1_zero, ha.tauG2_zero⟩,
      ⟨ha.alpha_length, ha.beta_length⟩, ⟨ha.tau_ne_zero, ha.tau_ne_one⟩, ha.alpha_ne_zero,
      ⟨ha.beta_ne_zero, ha.betaG2_ne_zero⟩, ha.tau_link, hb.g1 _ (by simp), hb.g1 _ (by simp),
      hb.g1 _ (by simp), hb.g2, ha.beta_link⟩

/-! ### Ladders -/

/-- Powers of `tau`, and multiples of them. -/
structure IsLadder (g1 : G₁) (g2 : G₂) (ptau : PtauFile G₁ G₂) (tau alpha beta : F) : Prop where
  tau_ne_zero : tau ≠ 0
  tau_ne_one : tau ≠ 1
  alpha_ne_zero : alpha ≠ 0
  beta_ne_zero : beta ≠ 0
  tauG1 : ptau.tauG1 = (List.range ptau.tauG1.length).map fun i => tau ^ i • g1
  tauG2 : ptau.tauG2 = (List.range ptau.tauG2.length).map fun i => tau ^ i • g2
  alphaTauG1 : ptau.alphaTauG1
    = (List.range ptau.alphaTauG1.length).map fun i => (alpha * tau ^ i) • g1
  betaTauG1 : ptau.betaTauG1
    = (List.range ptau.betaTauG1.length).map fun i => (beta * tau ^ i) • g1
  betaG2 : ptau.betaG2 = beta • g2

variable (F) in
/-- Ladders, of two powers at least in either group. -/
structure IsTranscript (g1 : G₁) (g2 : G₂) (ptau : PtauFile G₁ G₂) : Prop where
  ladder : ∃ tau alpha beta : F, IsLadder g1 g2 ptau tau alpha beta
  tauG1_length : 2 ≤ ptau.tauG1.length
  tauG2_length : 2 ≤ ptau.tauG2.length
  alpha_length : 1 ≤ ptau.alphaTauG1.length
  beta_length : 1 ≤ ptau.betaTauG1.length

/-- A section that is a ladder. -/
lemma tail_of_eq_map {G : Type} [AddCommGroup G] [Module F G] {points : List G} {c tau : F} {g : G}
    (h : points = (List.range points.length).map fun i => (c * tau ^ i) • g) :
    points.tail = points.dropLast.map (tau • ·) := by
  rw [eq_map_pow_iff]
  by_cases hlen : points.length = 0
  · simp [List.length_eq_zero_iff.mp hlen]
  have hhead : points.headD 0 = c • g := by
    obtain ⟨k, hk⟩ := Nat.exists_eq_succ_of_ne_zero hlen
    rw [h, hk, List.range_succ_eq_map]
    simp
  refine h.trans (List.map_congr_left fun i _ => ?_)
  rw [hhead, smul_smul, mul_comm]

/-- A section with a ratio. -/
lemma eq_map_of_tail {G : Type} [AddCommGroup G] [Module F G] {points : List G} {c tau : F} {g : G}
    (h : points.tail = points.dropLast.map (tau • ·)) (hc : entry points 0 = c • g) :
    points = (List.range points.length).map fun i => (c * tau ^ i) • g := by
  have hhead : points.headD 0 = c • g := by
    rw [← hc]
    cases points <;> rfl
  refine ((eq_map_pow_iff tau points).mp h).trans (List.map_congr_left fun i _ => ?_)
  rw [hhead, smul_smul, mul_comm]

section Pairing

variable (hg1 : ∀ P : G₁, ∃ x : F, x • g1 = P) (hg2 : ∀ Q : G₂, ∃ x : F, x • g2 = Q)
  (he : e g1 g2 ≠ 0)

include hg1 he in
lemma pairing_left_injective {P Q : G₁} (h : e P g2 = e Q g2) : P = Q := by
  obtain ⟨x, rfl⟩ := hg1 P
  obtain ⟨y, rfl⟩ := hg1 Q
  simp only [map_smul, LinearMap.smul_apply] at h
  rw [smul_left_injective F he h]

include hg2 he in
lemma pairing_right_injective {P Q : G₂} (h : e g1 P = e g1 Q) : P = Q := by
  obtain ⟨x, rfl⟩ := hg2 P
  obtain ⟨y, rfl⟩ := hg2 Q
  simp only [map_smul] at h
  rw [smul_left_injective F he h]

include he in
lemma generators_ne_zero : g1 ≠ 0 ∧ g2 ≠ 0 := by
  constructor
  · rintro rfl
    exact he (by simp)
  · rintro rfl
    exact he (map_zero _)

include hg1 he in
/-- Links that agree with the ratio. -/
lemma tau_eq (h : Anchored e g1 g2 ptau) {t : F} (ht : t • g2 = entry ptau.tauG2 1) :
    entry ptau.tauG1 1 = t • g1 := by
  refine pairing_left_injective hg1 he ?_
  rw [h.tau_link, ← ht, map_smul, map_smul, LinearMap.smul_apply]

include hg1 hg2 he

/-- A ladder of the ratio that the two links agree on. -/
lemma batched_iff (h : Anchored e g1 g2 ptau) {t : F} (ht : t • g2 = entry ptau.tauG2 1) :
    Batched e rho ptau ↔
      (∀ points ∈ [ptau.tauG1, ptau.alphaTauG1, ptau.betaTauG1],
        batch rho points.tail = t • batch rho points.dropLast) ∧
      batch rho ptau.tauG2.tail = t • batch rho ptau.tauG2.dropLast := by
  have ht1 := tau_eq hg1 he h ht
  have hpoints : ∀ points : List G₁, (e (batch rho points.tail) (entry ptau.tauG2 0)
      = e (batch rho points.dropLast) (entry ptau.tauG2 1)) ↔
        batch rho points.tail = t • batch rho points.dropLast := by
    intro points
    rw [h.tauG2_zero, ← ht, map_smul, ← LinearMap.smul_apply, ← map_smul]
    exact ⟨pairing_left_injective hg1 he, fun heq => by rw [heq]⟩
  have hpoints2 : (e (entry ptau.tauG1 0) (batch rho ptau.tauG2.tail)
      = e (entry ptau.tauG1 1) (batch rho ptau.tauG2.dropLast)) ↔
        batch rho ptau.tauG2.tail = t • batch rho ptau.tauG2.dropLast := by
    rw [h.tauG1_zero, ht1, map_smul, LinearMap.smul_apply, ← map_smul]
    exact ⟨pairing_right_injective hg2 he, fun heq => by rw [heq]⟩
  constructor
  · rintro ⟨hb1, hb2⟩
    exact ⟨fun points hmem => (hpoints points).mp (hb1 points hmem), hpoints2.mp hb2⟩
  · rintro ⟨hb1, hb2⟩
    exact ⟨fun points hmem => (hpoints points).mpr (hb1 points hmem), hpoints2.mpr hb2⟩

/-- **Ladders everywhere.** -/
lemma isLadder_of_geometric (h : Anchored e g1 g2 ptau) {t : F}
    (ht : t • g2 = entry ptau.tauG2 1)
    (hg1s : ∀ points ∈ [ptau.tauG1, ptau.alphaTauG1, ptau.betaTauG1],
      points.tail = points.dropLast.map (t • ·))
    (hg2s : ptau.tauG2.tail = ptau.tauG2.dropLast.map (t • ·)) :
    ∃ alpha beta, IsLadder g1 g2 ptau t alpha beta := by
  have ht1 := tau_eq hg1 he h ht
  obtain ⟨a, ha⟩ := hg1 (entry ptau.alphaTauG1 0)
  obtain ⟨b, hb⟩ := hg1 (entry ptau.betaTauG1 0)
  have htau := eq_map_of_tail (hg1s ptau.tauG1 (by simp))
    (h.tauG1_zero.trans (one_smul F g1).symm)
  have htau2 := eq_map_of_tail hg2s (h.tauG2_zero.trans (one_smul F g2).symm)
  simp only [one_mul] at htau htau2
  refine ⟨a, b, fun ht0 => h.tau_ne_zero ?_, fun h1 => h.tau_ne_one ?_, fun ha0 => h.alpha_ne_zero ?_,
    fun hb0 => h.beta_ne_zero ?_, htau, htau2, eq_map_of_tail (hg1s _ (by simp)) ha.symm,
    eq_map_of_tail (hg1s _ (by simp)) hb.symm, pairing_right_injective hg2 he ?_⟩
  · rw [ht1, ht0, zero_smul]
  · rw [ht1, h1, one_smul]
  · rw [← ha, ha0, zero_smul]
  · rw [← hb, hb0, zero_smul]
  · rw [← h.beta_link, ← hb, map_smul, map_smul, LinearMap.smul_apply]

/-- **A ladder passes** for every challenge. -/
theorem passes_of_transcript (h : IsTranscript F g1 g2 ptau) :
    Anchored e g1 g2 ptau ∧ Batched e rho ptau := by
  obtain ⟨⟨tau, alpha, beta, h⟩, hlen1, hlen2, halpha, hbeta⟩ := h
  obtain ⟨hg1z, hg2z⟩ := generators_ne_zero he
  have hentry : ∀ {G : Type} [AddCommGroup G] [Module F G] {points : List G} {x : ℕ → F} {g : G}
      {i : ℕ}, points = (List.range points.length).map (fun i => x i • g) → i < points.length →
        entry points i = x i • g := by
    intro G _ _ points x g i heq hi
    rw [heq, entry_map_range _ hi]
  have ht0 := hentry h.tauG1 (i := 0) (by omega)
  have ht1 := hentry h.tauG1 (i := 1) (by omega)
  have hu0 := hentry h.tauG2 (i := 0) (by omega)
  have hu1 := hentry h.tauG2 (i := 1) (by omega)
  have ha0 := hentry h.alphaTauG1 (i := 0) halpha
  have hb0 := hentry h.betaTauG1 (i := 0) hbeta
  simp only [pow_zero, pow_one, one_smul, mul_one] at ht0 ht1 hu0 hu1 ha0 hb0
  have hanchored : Anchored e g1 g2 ptau := by
    refine ⟨hlen1, hlen2, ht0, hu0, List.ne_nil_of_length_pos halpha,
      List.ne_nil_of_length_pos hbeta, ?_, ?_, ?_, ?_, ?_, ?_, ?_⟩
    · rw [ht1]
      exact smul_ne_zero h.tau_ne_zero hg1z
    · rw [ht1]
      intro heq
      exact h.tau_ne_one (smul_left_injective F hg1z (heq.trans (one_smul F g1).symm))
    · rw [ha0]
      exact smul_ne_zero h.alpha_ne_zero hg1z
    · rw [hb0]
      exact smul_ne_zero h.beta_ne_zero hg1z
    · rw [h.betaG2]
      exact smul_ne_zero h.beta_ne_zero hg2z
    · rw [ht1, hu1, map_smul, map_smul, LinearMap.smul_apply]
    · rw [hb0, h.betaG2, map_smul, map_smul, LinearMap.smul_apply]
  refine ⟨hanchored, (batched_iff hg1 hg2 he hanchored hu1.symm).mpr ⟨fun points hmem => ?_, ?_⟩⟩
  · refine batch_tail ?_ rho
    have hone : ptau.tauG1 = (List.range ptau.tauG1.length).map fun i => (1 * tau ^ i) • g1 := by
      simpa only [one_mul] using h.tauG1
    fin_cases hmem
    · exact tail_of_eq_map hone
    · exact tail_of_eq_map h.alphaTauG1
    · exact tail_of_eq_map h.betaTauG1
  · have htwo : ptau.tauG2 = (List.range ptau.tauG2.length).map fun i => (1 * tau ^ i) • g2 := by
      simpa only [one_mul] using h.tauG2
    exact batch_tail (tail_of_eq_map htwo) rho

/-- The points of the longest section. -/
def longestSection (ptau : PtauFile G₁ G₂) : ℕ :=
  max (max (max ptau.tauG1.length ptau.alphaTauG1.length) ptau.betaTauG1.length)
    (max ptau.tauG2.length 1)

/-- **Anything else passes** at the roots of one polynomial only. -/
theorem exists_polynomial_of_not_transcript (h : ¬ IsTranscript F g1 g2 ptau) :
    ∃ p : Polynomial F, p ≠ 0 ∧ p.natDegree < longestSection ptau ∧
      ∀ rho, p.eval rho ≠ 0 → ¬ (Anchored e g1 g2 ptau ∧ Batched e rho ptau) := by
  obtain ⟨hg1z, hg2z⟩ := generators_ne_zero he
  by_cases ha : Anchored e g1 g2 ptau
  swap
  · -- refused whatever the challenge
    refine ⟨1, one_ne_zero, ?_, fun _ _ hpass => ha hpass.1⟩
    rw [Polynomial.natDegree_one, longestSection]
    omega
  obtain ⟨t, ht⟩ := hg2 (entry ptau.tauG2 1)
  by_cases hgeo : ∀ points ∈ [ptau.tauG1, ptau.alphaTauG1, ptau.betaTauG1],
      points.tail = points.dropLast.map (t • ·)
  swap
  · push Not at hgeo
    obtain ⟨points, hmem, hne⟩ := hgeo
    obtain ⟨p, hp, hdeg, heval⟩ := exists_polynomial_of_span hg1z hg1 hne
    refine ⟨p, hp, hdeg.trans_le ?_, fun rho hrho hpass => heval rho hrho
      (((batched_iff hg1 hg2 he ha ht).mp hpass.2).1 points hmem)⟩
    simp only [List.mem_cons, List.not_mem_nil, or_false] at hmem
    rw [longestSection]
    rcases hmem with rfl | rfl | rfl <;> omega
  by_cases hgeo2 : ptau.tauG2.tail = ptau.tauG2.dropLast.map (t • ·)
  swap
  · obtain ⟨p, hp, hdeg, heval⟩ := exists_polynomial_of_span hg2z hg2 hgeo2
    refine ⟨p, hp, hdeg.trans_le ?_, fun rho hrho hpass => heval rho hrho
      ((batched_iff hg1 hg2 he ha ht).mp hpass.2).2⟩
    rw [longestSection]
    omega
  · obtain ⟨a, b, hladder⟩ := isLadder_of_geometric hg1 hg2 he ha ht hgeo hgeo2
    exact absurd ⟨⟨t, a, b, hladder⟩, ha.tauG1_length, ha.tauG2_length,
      List.length_pos_of_ne_nil ha.alpha_length, List.length_pos_of_ne_nil ha.beta_length⟩ h

end Pairing

/-! ### Phase 2 -/

section Reads

lemma word_eq_ok {n k : ℕ} : word n = .ok k ↔ n < 2 ^ 64 ∧ n = k := by
  rw [word]
  split_ifs with h
  · exact ⟨fun heq => ⟨h, Except.ok.inj heq⟩, fun heq => congrArg Except.ok heq.2⟩
  · exact ⟨fun heq => (nomatch heq), fun heq => absurd heq.1 h⟩

lemma forM_eq_ok {α : Type} {f : α → Except Fault Unit} {as : List α} {u : Unit} :
    as.forM f = .ok u ↔ ∀ a ∈ as, f a = .ok () := by
  induction as with
  | nil => exact ⟨fun _ _ ha => absurd ha List.not_mem_nil, fun _ => rfl⟩
  | cons a as ih =>
      rw [show (a :: as).forM f = f a >>= fun _ => as.forM f from rfl, bind_eq_ok,
        List.forall_mem_cons]
      constructor
      · rintro ⟨⟨⟩, hhead, htail⟩
        exact ⟨hhead, ih.mp htail⟩
      · rintro ⟨hhead, htail⟩
        exact ⟨(), hhead, ih.mpr htail⟩

/-- Sections that phase 2 on `n` points reads within. -/
structure Covers (ptau : PtauFile G₁ G₂) (n : ℕ) : Prop where
  tauG1 : 2 * n - 1 ≤ ptau.tauG1.length
  tauG2 : n ≤ ptau.tauG2.length
  alphaTauG1 : n ≤ ptau.alphaTauG1.length
  betaTauG1 : n ≤ ptau.betaTauG1.length

omit [AddCommGroup G₁] [AddCommGroup G₂] in
lemma covers_of_check {n : ℕ} {u : Unit} (h : checkPtauSectionLengths ptau n = .ok u) :
    Covers ptau n := by
  obtain ⟨double, hdouble, hchecks⟩ := bind_eq_ok.mp h
  obtain ⟨-, rfl⟩ := word_eq_ok.mp hdouble
  have hcheck : ∀ name needed actual, (name, needed, actual) ∈ [
      ("tau_g1", 2 * n - 1, ptau.tauG1.length), ("tau_g2", n, ptau.tauG2.length),
      ("alpha_tau_g1", n, ptau.alphaTauG1.length), ("beta_tau_g1", n, ptau.betaTauG1.length)] →
      needed ≤ actual := by
    intro name needed actual hmem
    have hok := forM_eq_ok.mp hchecks _ hmem
    by_contra hlt
    dsimp only at hok
    rw [if_pos (Nat.not_le.mp hlt)] at hok
    cases hok
  exact ⟨hcheck "tau_g1" _ _ (by simp), hcheck "tau_g2" _ _ (by simp),
    hcheck "alpha_tau_g1" _ _ (by simp), hcheck "beta_tau_g1" _ _ (by simp)⟩

/-- **Accepted for a circuit**: consistent, and long enough for its domain. -/
theorem covers_of_validate [DecidableEq G₁] [DecidableEq G₂] [DecidableEq Gₜ] {m ninst : ℕ}
    (h : validateForCircuit e g1 g2 rho ptau m ninst = .ok ()) :
    Covers ptau (DomainKind.radix2.size (m + ninst)) ∧
      verifyPowersConsistency e g1 g2 rho ptau = .ok () := by
  obtain ⟨_, -, h⟩ := bind_eq_ok.mp h
  obtain ⟨required, hrequired, h⟩ := bind_eq_ok.mp h
  obtain ⟨-, rfl⟩ := word_eq_ok.mp hrequired
  obtain ⟨rounded, hrounded, h⟩ := bind_eq_ok.mp h
  obtain ⟨-, rfl⟩ := word_eq_ok.mp hrounded
  obtain ⟨_, hlengths, hverify⟩ := bind_eq_ok.mp h
  have hsize : DomainKind.radix2.size (m + ninst) = max (nextPowerOfTwo (m + ninst)) 1 := by
    have hpos : 1 ≤ nextPowerOfTwo (m + ninst) := Nat.one_le_two_pow
    rw [DomainKind.size, max_eq_left hpos, nextPowerOfTwo, nextPowerOfTwo]
    cases hsum : m + ninst with
    | zero => simp
    | succ k => rw [max_eq_left (Nat.succ_pos k)]
  rw [hsize]
  exact ⟨covers_of_check hlengths, hverify⟩

/-- **Phase 2 reads within the sections** that cover its domain. -/
theorem phase2SetupChecked_eq [DecidableEq F] (R : FftField F) (src : ConstraintSource F)
    (order : Fin 3 → List (MatrixEntry F)) (gamma delta : F)
    (h : Covers ptau (DomainKind.radix2.size (src.numConstraints + src.numInstance))) :
    phase2SetupChecked R src order ptau.toPtauPowers gamma delta g1 g2
      = .ok (phase2Setup R src order ptau.toPtauPowers gamma delta g1 g2) := by
  rw [phase2SetupChecked, phase2Setup]
  set n := DomainKind.radix2.size (src.numConstraints + src.numInstance) with hn
  have hpos : 0 < n := Nat.two_pow_pos _
  have hslice : ∀ {G : Type} [AddCommGroup G] {v : List G}, n ≤ v.length →
      sliceTo v n = .ok (v.take n) := fun hv => if_pos hv
  have hget : ∀ {G : Type} [AddCommGroup G] {v : List G} {i : ℕ}, i < v.length →
      getAt v i = .ok (entry v i) := fun hv => if_pos hv
  have hq : (List.range (n - 1)).mapM (fun k => do
        let high ← getAt ptau.tauG1 (n + k)
        let low ← getAt ptau.tauG1 k
        return delta⁻¹ • (high - low) : ℕ → Outcome G₁)
      = .ok ((List.range (n - 1)).map fun k =>
          delta⁻¹ • (entry ptau.tauG1 (n + k) - entry ptau.tauG1 k)) := by
    have hlen := h.tauG1
    have hsum : Succeeds ((List.range (n - 1)).mapM (fun k => do
          let high ← getAt ptau.tauG1 (n + k)
          let low ← getAt ptau.tauG1 k
          return delta⁻¹ • (high - low) : ℕ → Outcome G₁))
        (List.Forall₂ (fun k x => x = delta⁻¹ • (entry ptau.tauG1 (n + k) - entry ptau.tauG1 k))
          (List.range (n - 1))) :=
      Succeeds.mapM fun k hk => by
        have hk := List.mem_range.mp hk
        rw [hget (show n + k < ptau.tauG1.length by omega),
          hget (show k < ptau.tauG1.length by omega)]
        exact .ok rfl
    obtain ⟨out, hout, hall⟩ := hsum
    have heq : List.Forall₂ (· = ·) ((List.range (n - 1)).map fun k =>
        delta⁻¹ • (entry ptau.tauG1 (n + k) - entry ptau.tauG1 k)) out :=
      List.forall₂_map_left_iff.mpr (hall.imp fun _ _ hx => hx.symm)
    rw [List.forall₂_eq_eq_eq] at heq
    rw [hout, heq]
  dsimp only
  cases R.getRootOfUnity n with
  | none => rfl
  | some ω =>
      simp only [hslice h.betaTauG1, hslice h.alphaTauG1, hslice h.tauG2, hq, Outcome.ok_bind,
        hslice (show n ≤ ptau.tauG1.length by have := h.tauG1; omega),
        hget (hpos.trans_le h.alphaTauG1), hget (hpos.trans_le h.betaTauG1)]
      rfl

end Reads

end Groth16

end XarkCircuit
