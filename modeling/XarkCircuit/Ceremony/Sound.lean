import XarkCircuit.Ceremony.Chain
import XarkCircuit.Groth16.Complete

/-!
What the checks of a ceremony accept.

* `contributeAll_spec`: honest contributors multiply `δ` by a product of nonzero secrets, change
  nothing else, and every check accepts what they ship.
* `delta_of_verifyChain`: conversely, an accepted chain multiplies `δ` by nonzero factors, the
  discrete logarithms of the published points.
* `match_rejects`: keys with any other part changed are refused for all random vectors outside a
  hyperplane.
-/

namespace XarkCircuit

namespace Ceremony

open Groth16

variable {F : Type} [Field F] {G₁ G₂ GT : Type} [AddCommGroup G₁] [Module F G₁] [AddCommGroup G₂]
  [Module F G₂] [AddCommGroup GT] [Module F GT]
variable {P : Pairing F G₁ G₂ GT}

/-! ### Exponents -/

/-- What is assumed of the groups: every point is a multiple of the generator, and the pairing of the
generators is not the identity. -/
structure Pairing.Lawful (P : Pairing F G₁ G₂ GT) : Prop where
  gen₁ : ∀ Q : G₁, ∃ x : F, Q = x • P.g1
  gen₂ : ∀ Q : G₂, ∃ x : F, Q = x • P.g2
  nondegenerate : P.e P.g1 P.g2 ≠ 0

namespace Pairing.Lawful

lemma e_eq_iff (hP : P.Lawful) {x y x' y' : F} :
    P.e (x • P.g1) (y • P.g2) = P.e (x' • P.g1) (y' • P.g2) ↔ x * y = x' * y' := by
  simp only [map_smul, LinearMap.smul_apply, smul_smul]
  rw [← sub_eq_zero, ← sub_smul, smul_eq_zero, or_iff_left hP.nondegenerate, sub_eq_zero,
    mul_comm y, mul_comm y']

lemma g1_ne_zero (hP : P.Lawful) : P.g1 ≠ 0 := fun h => hP.nondegenerate (by rw [h, map_zero]; rfl)

lemma g2_ne_zero (hP : P.Lawful) : P.g2 ≠ 0 := fun h => hP.nondegenerate (by rw [h, map_zero])

/-- A point of `G1` is known from its pairing with the generator. -/
lemma eq_of_e_g2 (hP : P.Lawful) {Q Q' : G₁} (h : P.e Q P.g2 = P.e Q' P.g2) : Q = Q' := by
  obtain ⟨x, rfl⟩ := hP.gen₁ Q
  obtain ⟨x', rfl⟩ := hP.gen₁ Q'
  have hone : P.e (x • P.g1) ((1 : F) • P.g2) = P.e (x' • P.g1) ((1 : F) • P.g2) := by
    rw [one_smul]
    exact h
  rw [hP.e_eq_iff, mul_one, mul_one] at hone
  rw [hone]

end Pairing.Lawful

/-! ### Keys -/

/-- The keys that a ceremony starts from: the proving key has a true copy of the verifying key, and
`δ` is one nonzero scalar in both groups. -/
structure IsInitial (P : Pairing F G₁ G₂ GT) (keys : Keys G₁ G₂) : Prop where
  copy : keys.provingKey.vk = keys.verifyingKey
  delta : ∃ δ : F, δ ≠ 0 ∧ keys.provingKey.deltaG1 = δ • P.g1 ∧
    keys.verifyingKey.deltaG2 = δ • P.g2

lemma Keys.rescale_rescale (keys : Keys G₁ G₂) (a b : F) :
    (keys.rescale a).rescale b = keys.rescale (a * b) := by
  simp only [Keys.rescale, List.map_map, Function.comp_def, smul_smul, mul_comm b, mul_inv,
    mul_comm b⁻¹]

lemma Keys.rescale_one {keys : Keys G₁ G₂} (h : keys.provingKey.vk = keys.verifyingKey) :
    keys.rescale (1 : F) = keys := by
  obtain ⟨pk, vk⟩ := keys
  obtain ⟨pvk, β, δ, a, b1, b2, hq, lq⟩ := pk
  dsimp only at h
  subst h
  simp [Keys.rescale]

lemma IsInitial.rescale {keys : Keys G₁ G₂} (h : IsInitial P keys) {d : F}
    (hd : d ≠ 0) : IsInitial P (keys.rescale d) := by
  obtain ⟨δ, hδ, h1, h2⟩ := h.delta
  refine ⟨?_, d * δ, mul_ne_zero hd hδ, ?_, ?_⟩
  · simp only [Keys.rescale, h.copy]
  · rw [mul_smul, ← h1]
    rfl
  · rw [mul_smul, ← h2]
    rfl

/-! ### Honest contributors -/

lemma sampleNonzero_ne_zero [DecidableEq F] {tries : ℕ} {rng rng' : ℕ → F} {x : F}
    (h : sampleNonzero tries rng = (.ok x, rng')) : x ≠ 0 := by
  induction tries generalizing rng with
  | zero => cases h
  | succ tries ih =>
      rw [sampleNonzero] at h
      split_ifs at h with hne
      · cases h
        exact hne
      · exact ih h

/-- A contribution that is made: its secret is not zero. -/
lemma contribute_eq_ok [DecidableEq F] {keys keys' : Keys G₁ G₂} {label : String} {rng : ℕ → F}
    {c : Contribution F G₁ G₂} (h : contribute P keys label rng = (.ok c, keys')) :
    ∃ d r : F, d ≠ 0 ∧ keys' = keys.rescale d ∧ c = {
      deltaG2Contribution := d • P.g2
      proofCommitment := r • P.g2
      proofResponse := r + P.schnorrChallenge keys.provingKey.deltaG1
        (d • keys.provingKey.deltaG1) (d • P.g2) (r • P.g2) * d
      prevDeltaG1 := keys.provingKey.deltaG1
      newDeltaG1 := d • keys.provingKey.deltaG1
      contributorLabel := label } := by
  rw [contribute] at h
  split at h
  · cases h
  · rename_i d rng₁ hd
    dsimp only at h
    split at h
    · cases h
    · rename_i r rng₂ hr
      cases h
      exact ⟨d, r, sampleNonzero_ne_zero hd, rfl, rfl⟩

/-- **An honest contribution is accepted.** -/
lemma verifyContribution_honest [DecidableEq G₁] [DecidableEq G₂] [DecidableEq GT] (hP : P.Lawful) {δ₁ : G₁} (hδ : δ₁ ≠ 0) {d r : F} (hd : d ≠ 0)
    (label : String) (i : ℕ) :
    verifyContribution P i δ₁ {
      deltaG2Contribution := d • P.g2
      proofCommitment := r • P.g2
      proofResponse := r + P.schnorrChallenge δ₁ (d • δ₁) (d • P.g2) (r • P.g2) * d
      prevDeltaG1 := δ₁
      newDeltaG1 := d • δ₁
      contributorLabel := label } = .ok () := by
  have hcommit : d • P.g2 ≠ 0 := smul_ne_zero hd hP.g2_ne_zero
  have hnew : d • δ₁ ≠ 0 := smul_ne_zero hd hδ
  rw [verifyContribution]
  dsimp only
  rw [if_neg (not_not.mpr rfl), if_neg (not_or.mpr ⟨hcommit, hnew⟩), if_neg, if_neg]
  · simp only [map_smul, LinearMap.smul_apply, ne_eq, not_true_eq_false, not_false_eq_true]
  · rw [add_smul, mul_smul]
    exact not_not.mpr rfl

/-- The last `δ` of a list of contributions. -/
def lastDelta (initial : G₁) (cs : List (Contribution F G₁ G₂)) : G₁ :=
  (cs.getLast?.map Contribution.newDeltaG1).getD initial

omit [Field F] [AddCommGroup G₁] [Module F G₁] [AddCommGroup G₂] [Module F G₂] in
lemma lastDelta_cons (initial : G₁)
    (c : Contribution F G₁ G₂) (cs : List (Contribution F G₁ G₂)) :
    lastDelta initial (c :: cs) = lastDelta c.newDeltaG1 cs := by
  rw [lastDelta, lastDelta, List.getLast?_cons]
  cases cs.getLast? <;> rfl

section Checks

variable [DecidableEq G₁] [DecidableEq G₂] [DecidableEq GT]

omit [Field F] [AddCommGroup G₁] [Module F G₁] [AddCommGroup G₂] [Module F G₂] [DecidableEq G₁]
  [DecidableEq G₂] [DecidableEq GT] [AddCommGroup GT] [Module F GT] in
/-- A check is passed when its error is not raised and the rest passes. -/
lemma guard_eq_ok {ε α : Type} {c : Prop} [Decidable c] {err : ε} {x : Except ε α} {a : α} :
    (if c then .error err else x) = .ok a ↔ ¬ c ∧ x = .ok a := by
  split_ifs with h <;> simp [h]

omit [DecidableEq G₂] in
lemma verifyKeysConsistentWithChain_eq_ok {keys : Keys G₁ G₂} {initial : G₁}
    {cs : List (Contribution F G₁ G₂)} :
    verifyKeysConsistentWithChain P keys initial cs = .ok () ↔
      keys.provingKey.deltaG1 = lastDelta initial cs ∧
        P.e keys.provingKey.deltaG1 P.g2 = P.e P.g1 keys.verifyingKey.deltaG2 := by
  rw [verifyKeysConsistentWithChain, ← lastDelta, guard_eq_ok, guard_eq_ok]
  simp only [ne_eq, not_not, and_true]

/-- **Honest contributors**: the secrets are not zero, the keys are divided and multiplied by their
product, and the chain is accepted. -/
theorem contributeAll_chain [DecidableEq F] (hP : P.Lawful) {calls : List (String × (ℕ → F))} :
    ∀ {keys keys' : Keys G₁ G₂} {cs : List (Contribution F G₁ G₂)}, IsInitial P keys →
      contributeAll P keys calls = .ok (keys', cs) →
        ∃ ds : List F, ds.length = calls.length ∧ (∀ d ∈ ds, d ≠ 0) ∧
          cs.map Contribution.deltaG2Contribution = ds.map (· • P.g2) ∧
          keys' = keys.rescale ds.prod ∧
          keys'.provingKey.deltaG1 = lastDelta keys.provingKey.deltaG1 cs ∧
          ∀ i, verifyChainFrom P i keys.provingKey.deltaG1 cs = .ok () := by
  induction calls with
  | nil =>
      intro keys keys' cs hkeys h
      cases h
      obtain ⟨δ, hδ, h1, -⟩ := hkeys.delta
      refine ⟨[], rfl, fun d hd => (nomatch hd), rfl, ?_, rfl, fun i => ?_⟩
      · rw [List.prod_nil, Keys.rescale_one hkeys.copy]
      · rw [verifyChainFrom, if_neg]
        rw [h1]
        exact smul_ne_zero hδ hP.g1_ne_zero
  | cons call calls ih =>
      intro keys keys' cs hkeys h
      obtain ⟨label, rng⟩ := call
      rw [contributeAll] at h
      split at h
      · cases h
      · rename_i c keys₁ hc
        obtain ⟨d, r, hd, rfl, rfl⟩ := contribute_eq_ok hc
        cases hrest : contributeAll P (keys.rescale d) calls with
        | error err =>
            rw [hrest] at h
            cases h
        | ok out =>
            obtain ⟨keys₂, cs₂⟩ := out
            rw [hrest] at h
            cases h
            obtain ⟨ds, hlen, hds, hpub, hkeys', hlast, hchain⟩ := ih (hkeys.rescale hd) hrest
            obtain ⟨δ, hδ, h1, -⟩ := hkeys.delta
            have hδ₁ : keys.provingKey.deltaG1 ≠ 0 := by
              rw [h1]
              exact smul_ne_zero hδ hP.g1_ne_zero
            refine ⟨d :: ds, by rw [List.length_cons, hlen, List.length_cons], ?_, ?_, ?_, ?_, ?_⟩
            · exact List.forall_mem_cons.mpr ⟨hd, hds⟩
            · rw [List.map_cons, List.map_cons, hpub]
            · rw [hkeys', Keys.rescale_rescale, List.prod_cons]
            · rw [hlast, lastDelta_cons]
              rfl
            · intro i
              rw [verifyChainFrom, verifyContribution_honest hP hδ₁ hd]
              exact hchain (i + 1)

omit [DecidableEq G₁] [DecidableEq G₂] [DecidableEq GT] in
/-- Contributors whose draws are not zero all succeed, each with the first of them as its secret. -/
lemma contributeAll_ok [DecidableEq F] {calls : List (String × (ℕ → F))}
    (hcalls : ∀ call ∈ calls, call.2 0 ≠ 0 ∧ call.2 1 ≠ 0) :
    ∀ {keys : Keys G₁ G₂}, keys.provingKey.vk = keys.verifyingKey →
      ∃ cs, contributeAll P keys calls
        = .ok (keys.rescale (calls.map fun call => call.2 0).prod, cs) := by
  induction calls with
  | nil =>
      intro keys hkeys
      exact ⟨[], by rw [List.map_nil, List.prod_nil, Keys.rescale_one hkeys]; rfl⟩
  | cons call calls ih =>
      intro keys hkeys
      obtain ⟨⟨h0, h1⟩, hrest⟩ := List.forall_mem_cons.mp hcalls
      have hcopy : (keys.rescale (call.2 0)).provingKey.vk
          = (keys.rescale (call.2 0)).verifyingKey := by
        simp only [Keys.rescale, hkeys]
      obtain ⟨cs, hcs⟩ := ih hrest hcopy
      have hd : sampleNonzero 16 call.2 = (.ok (call.2 0), fun i => call.2 (i + 1)) := if_pos h0
      have hr : sampleNonzero 16 (fun i => call.2 (i + 1))
          = (.ok (call.2 1), fun i => call.2 (i + 1 + 1)) := if_pos h1
      rw [contributeAll, contribute, hd]
      dsimp only
      rw [hr]
      dsimp only
      rw [hcs, Keys.rescale_rescale, List.map_cons, List.prod_cons]
      exact ⟨_, rfl⟩

/-! ### The divided queries -/

omit [DecidableEq G₁] in
lemma msm_map {H : Type} [AddCommGroup H] [Module F H] (φ : G₁ →ₗ[F] H) (pts : List G₁)
    (r : List F) : msm (pts.map φ) r = φ (msm pts r) := by
  induction pts generalizing r with
  | nil => simp [msm]
  | cons q pts ih =>
      cases r with
      | nil => simp [msm]
      | cons x r =>
          have hcons : msm (q :: pts) (x :: r) = x • q + msm pts r := by simp [msm]
          have hcons' : msm (φ q :: pts.map φ) (x :: r) = x • φ q + msm (pts.map φ) r := by
            simp [msm]
          rw [List.map_cons, hcons, hcons', ih, map_add, map_smul]

omit [DecidableEq G₁] in
lemma msm_map_smul (a : F) (pts : List G₁) (r : List F) :
    msm (pts.map fun q => a • q) r = a • msm pts r :=
  msm_map (a • LinearMap.id) pts r

omit [DecidableEq G₁] [DecidableEq G₂] in
lemma scaled_rescale (keys : Keys G₁ G₂) (d : F) :
    (keys.rescale d).provingKey.scaled = keys.provingKey.scaled.map fun q => d⁻¹ • q := by
  simp [ProvingKey.scaled, Keys.rescale]

/-- What is left to compare once all other parts agree. -/
lemma verifyKeysMatchInitial_eq_ok {keys initial : Keys G₁ G₂} {rng : ℕ → F} :
    verifyKeysMatchInitial P keys initial rng = .ok () ↔
      keys.provingKey.vk = keys.verifyingKey ∧
      keys.verifyingKey.alphaG1 = initial.verifyingKey.alphaG1 ∧
      (keys.verifyingKey.betaG2 = initial.verifyingKey.betaG2 ∧
        keys.provingKey.betaG1 = initial.provingKey.betaG1) ∧
      keys.verifyingKey.gammaG2 = initial.verifyingKey.gammaG2 ∧
      keys.verifyingKey.gammaAbcG1 = initial.verifyingKey.gammaAbcG1 ∧
      keys.provingKey.aQuery = initial.provingKey.aQuery ∧
      (keys.provingKey.bG1Query = initial.provingKey.bG1Query ∧
        keys.provingKey.bG2Query = initial.provingKey.bG2Query) ∧
      (keys.provingKey.hQuery.length = initial.provingKey.hQuery.length ∧
        keys.provingKey.lQuery.length = initial.provingKey.lQuery.length) ∧
      P.e (msm keys.provingKey.scaled (draws keys.provingKey.scaled.length rng))
          keys.verifyingKey.deltaG2
        = P.e (msm initial.provingKey.scaled (draws keys.provingKey.scaled.length rng))
          initial.verifyingKey.deltaG2 := by
  simp only [verifyKeysMatchInitial, guard_eq_ok, ne_eq, not_or, not_not, and_true]

/-- Divided keys match the initial ones under every random vector. -/
lemma match_rescale {initial : Keys G₁ G₂} (hcopy : initial.provingKey.vk = initial.verifyingKey)
    {d : F} (hd : d ≠ 0) (rng : ℕ → F) :
    verifyKeysMatchInitial P (initial.rescale d) initial rng = .ok () := by
  have hlen : (initial.rescale d).provingKey.hQuery.length = initial.provingKey.hQuery.length :=
    List.length_map _
  have hlen' : (initial.rescale d).provingKey.lQuery.length = initial.provingKey.lQuery.length :=
    List.length_map _
  refine verifyKeysMatchInitial_eq_ok.mpr ⟨?_, rfl, ⟨rfl, rfl⟩, rfl, rfl, rfl, ⟨rfl, rfl⟩,
    ⟨hlen, hlen'⟩, ?_⟩
  · simp only [Keys.rescale, hcopy]
  · have hδ : (initial.rescale d).verifyingKey.deltaG2 = d • initial.verifyingKey.deltaG2 := rfl
    rw [scaled_rescale, List.length_map, msm_map_smul, hδ]
    simp only [map_smul, LinearMap.smul_apply, smul_smul, mul_inv_cancel₀ hd, one_smul]

/-! ### Any contributors -/

/-- An accepted contribution multiplies `δ` by the discrete logarithm of its published point. -/
lemma factor_of_verifyContribution (hP : P.Lawful) {i : ℕ} {running : G₁}
    {c : Contribution F G₁ G₂} (h : verifyContribution P i running c = .ok ()) :
    ∃ d : F, d ≠ 0 ∧ c.deltaG2Contribution = d • P.g2 ∧ c.newDeltaG1 = d • running := by
  rw [verifyContribution, guard_eq_ok, guard_eq_ok, guard_eq_ok, guard_eq_ok] at h
  obtain ⟨hrun, hzero, -, hpair, -⟩ := h
  obtain ⟨d, hd⟩ := hP.gen₂ c.deltaG2Contribution
  refine ⟨d, ?_, hd, ?_⟩
  · rintro rfl
    exact hzero (Or.inl (by rw [hd, zero_smul]))
  · refine hP.eq_of_e_g2 ?_
    rw [not_not.mp hpair, not_not.mp hrun, hd, map_smul, map_smul, LinearMap.smul_apply]

/-- **An accepted chain**: `δ` is multiplied by nonzero factors, the discrete logarithms of the
published points. -/
theorem delta_of_verifyChain (hP : P.Lawful) {cs : List (Contribution F G₁ G₂)} :
    ∀ {i : ℕ} {running : G₁}, verifyChainFrom P i running cs = .ok () →
      ∃ ds : List F, (∀ d ∈ ds, d ≠ 0) ∧
        cs.map Contribution.deltaG2Contribution = ds.map (· • P.g2) ∧
          lastDelta running cs = ds.prod • running := by
  induction cs with
  | nil => exact fun _ => ⟨[], fun d hd => (nomatch hd), rfl, by simp [lastDelta]⟩
  | cons c cs ih =>
      intro i running h
      rw [verifyChainFrom] at h
      cases hc : verifyContribution P i running c with
      | error err =>
          rw [hc] at h
          cases h
      | ok u =>
          rw [hc] at h
          obtain ⟨d, hd, hpub, hnew⟩ := factor_of_verifyContribution hP hc
          obtain ⟨ds, hds, hpubs, hlast⟩ := ih h
          refine ⟨d :: ds, List.forall_mem_cons.mpr ⟨hd, hds⟩, ?_, ?_⟩
          · rw [List.map_cons, List.map_cons, hpub, hpubs]
          · rw [lastDelta_cons, hlast, hnew, smul_smul, List.prod_cons, mul_comm]

omit [DecidableEq G₁] [DecidableEq G₂] [DecidableEq GT] in
/-- The shipped `δ` in `G2`, from the one in `G1`. -/
lemma deltaG2_of_consistent (hP : P.Lawful) {keys : Keys G₁ G₂} {δ : F}
    (h1 : keys.provingKey.deltaG1 = δ • P.g1)
    (h : P.e keys.provingKey.deltaG1 P.g2 = P.e P.g1 keys.verifyingKey.deltaG2) :
    keys.verifyingKey.deltaG2 = δ • P.g2 := by
  obtain ⟨y, hy⟩ := hP.gen₂ keys.verifyingKey.deltaG2
  have hone : P.e (δ • P.g1) ((1 : F) • P.g2) = P.e ((1 : F) • P.g1) (y • P.g2) := by
    rw [one_smul, one_smul, ← hy, ← h1]
    exact h
  rw [hP.e_eq_iff, mul_one, one_mul] at hone
  rw [hy, hone]

omit [DecidableEq G₁] [DecidableEq G₂] [DecidableEq GT] in
/-- Points are multiples of the generator. -/
lemma exists_fixedBase (hP : P.Lawful) (pts : List G₁) : ∃ xs : List F, pts = fixedBase P.g1 xs := by
  induction pts with
  | nil => exact ⟨[], rfl⟩
  | cons q pts ih =>
      obtain ⟨x, hx⟩ := hP.gen₁ q
      obtain ⟨xs, hxs⟩ := ih
      exact ⟨x :: xs, by rw [hx, hxs]; rfl⟩

/-- The comparison of the queries is a linear equation of the random vector. -/
lemma dot_sub_scaled (a : F) : ∀ {xs ys : List F} (r : List F), xs.length = ys.length →
    dot (List.zipWith (fun x y => x * a - y) xs ys) r = dot xs r * a - dot ys r
  | [], [], r, _ => by simp [dot]
  | x :: xs, y :: ys, [], _ => by simp [dot]
  | x :: xs, y :: ys, z :: r, h => by
      rw [List.zipWith_cons_cons, dot_cons, dot_cons, dot_cons,
        dot_sub_scaled a r (by simpa using h)]
      ring

omit [DecidableEq G₁] in
/-- Queries that are not the initial ones divided differ in some coefficient. -/
lemma exists_ne_zero_of_not_divided {a : F} (ha : a ≠ 0) {g : G₁} :
    ∀ {xs ys : List F}, xs.length = ys.length →
      fixedBase g xs ≠ (fixedBase g ys).map (fun q => a⁻¹ • q) →
        ∃ x ∈ List.zipWith (fun x y => x * a - y) xs ys, x ≠ 0
  | [], [], _, h => absurd rfl h
  | x :: xs, y :: ys, hlen, h => by
      by_cases hxy : x * a - y = 0
      · have hx : x = a⁻¹ * y := by
          rw [← sub_eq_zero.mp hxy]
          field_simp
        have hrest : fixedBase g xs ≠ (fixedBase g ys).map (fun q => a⁻¹ • q) := by
          intro heq
          refine h ?_
          show x • g :: fixedBase g xs = a⁻¹ • y • g :: (fixedBase g ys).map (fun q => a⁻¹ • q)
          rw [heq, hx, mul_smul]
        obtain ⟨c, hc, hne⟩ := exists_ne_zero_of_not_divided ha (by simpa using hlen) hrest
        exact ⟨c, List.mem_cons_of_mem _ hc, hne⟩
      · exact ⟨x * a - y, List.mem_cons_self, hxy⟩

/-- **Any other change is refused**: for every random vector, or for all outside a hyperplane. -/
theorem match_rejects (hP : P.Lawful) {initial keys : Keys G₁ G₂} (hinit : IsInitial P initial)
    {d : F} (hd : d ≠ 0) (h1 : keys.provingKey.deltaG1 = d • initial.provingKey.deltaG1)
    (h2 : keys.verifyingKey.deltaG2 = d • initial.verifyingKey.deltaG2)
    (hne : keys ≠ initial.rescale d) :
    (∀ rng, verifyKeysMatchInitial P keys initial rng ≠ .ok ()) ∨
      ∃ cs : List F, cs.length = keys.provingKey.scaled.length ∧ (∃ c ∈ cs, c ≠ 0) ∧
        ∀ rng, verifyKeysMatchInitial P keys initial rng = .ok () →
          dot cs (draws keys.provingKey.scaled.length rng) = 0 := by
  by_cases hall : ∀ rng, verifyKeysMatchInitial P keys initial rng ≠ .ok ()
  · exact Or.inl hall
  right
  -- some vector is accepted, so all the parts that are compared directly agree
  push Not at hall
  obtain ⟨rng₀, hok⟩ := hall
  obtain ⟨hcopy, halpha, ⟨hbeta2, hbeta1⟩, hgamma, habc, ha, ⟨hb1, hb2⟩, ⟨hh, hl⟩, -⟩ :=
    verifyKeysMatchInitial_eq_ok.mp hok
  obtain ⟨δ, hδ, -, hδ2⟩ := hinit.delta
  have hlen : keys.provingKey.scaled.length = initial.provingKey.scaled.length := by
    rw [ProvingKey.scaled, ProvingKey.scaled, List.length_append, List.length_append, hh, hl]
  obtain ⟨xs, hxs⟩ := exists_fixedBase hP keys.provingKey.scaled
  obtain ⟨ys, hys⟩ := exists_fixedBase hP initial.provingKey.scaled
  have hxlen : xs.length = keys.provingKey.scaled.length := by rw [hxs, length_fixedBase]
  have hylen : ys.length = keys.provingKey.scaled.length := by rw [hlen, hys, length_fixedBase]
  have hsame : xs.length = ys.length := hxlen.trans hylen.symm
  -- the divided queries are the part that differs
  have hscaled : fixedBase P.g1 xs ≠ (fixedBase P.g1 ys).map (fun q => d⁻¹ • q) := by
    rw [← hxs, ← hys]
    intro heq
    refine hne ?_
    rw [ProvingKey.scaled, ProvingKey.scaled, List.map_append] at heq
    obtain ⟨hheq, hleq⟩ := List.append_inj heq (by rw [List.length_map, hh])
    obtain ⟨⟨vk, β, δ₁, aq, b1, b2, hq, lq⟩, ⟨α', β', γ', δ', abc'⟩⟩ := keys
    obtain ⟨⟨vk0, β0, δ0, aq0, b10, b20, hq0, lq0⟩, ⟨α0', β0', γ0', δ0', abc0'⟩⟩ := initial
    have hcopy0 := hinit.copy
    simp only at hcopy halpha hbeta2 hbeta1 hgamma habc ha hb1 hb2 h1 h2 hheq hleq hcopy0
    subst hcopy hcopy0
    simp only [Keys.rescale, halpha, hbeta2, hbeta1, hgamma, habc, ha, hb1, hb2, h1, h2, hheq, hleq]
  refine ⟨List.zipWith (fun x y => x * d - y) xs ys, ?_,
    exists_ne_zero_of_not_divided hd hsame hscaled, fun rng hrng => ?_⟩
  · rw [List.length_zipWith, hxlen, hylen, min_self]
  · obtain ⟨-, -, -, -, -, -, -, -, hpair⟩ := verifyKeysMatchInitial_eq_ok.mp hrng
    generalize draws keys.provingKey.scaled.length rng = r at hpair ⊢
    rw [h2, hδ2, smul_smul, hxs, hys, msm_fixedBase, msm_fixedBase, hP.e_eq_iff] at hpair
    rw [dot_sub_scaled d _ hsame, sub_eq_zero]
    refine mul_right_cancel₀ hδ ?_
    rw [mul_assoc]
    exact hpair

end Checks

end Ceremony

end XarkCircuit
