import XarkCircuit.Ceremony.Sound
import Mathlib.Tactic.Module

/-!
Proofs under the keys of a ceremony.

* `verify_proofOf_rescale`: under divided keys the prover's proof, with the same randomness, is judged
  as it was under the initial ones.
* `initial_of_devKey`: the keys of a setup are keys that a ceremony can start from.
* `ceremony_sound` collects what a ceremony does and what its checks accept.
-/

namespace XarkCircuit

namespace Ceremony

open Groth16 Dft

variable {F : Type} [Field F] {G₁ G₂ GT : Type} [AddCommGroup G₁] [Module F G₁] [AddCommGroup G₂]
  [Module F G₂] [AddCommGroup GT] [Module F GT]
variable {P : Pairing F G₁ G₂ GT}

/-! ### Sums over mapped points -/

lemma streamFrom_map (φ : G₁ →ₗ[F] G₂) (chunk : ℕ) (sc : ℕ → ℕ → List F) (fuel : ℕ) :
    ∀ (off : ℕ) (pts : List G₁),
      streamFrom chunk sc fuel off (pts.map φ) = φ (streamFrom chunk sc fuel off pts) := by
  induction fuel with
  | zero => exact fun _ _ => (map_zero φ).symm
  | succ fuel ih =>
      intro off pts
      rw [streamFrom, streamFrom, List.isEmpty_map]
      split_ifs
      · exact (map_zero φ).symm
      · dsimp only
        rw [← List.map_take, ← List.map_drop, List.length_map, msm_map, ih, map_add]

lemma streamMsm_map (φ : G₁ →ₗ[F] G₂) (chunk : ℕ) (pts : List G₁) (sc : ℕ → ℕ → List F) :
    streamMsm chunk (pts.map φ) sc = φ (streamMsm chunk pts sc) := by
  rw [streamMsm, streamMsm, List.length_map, streamFrom_map]

lemma streamMsm_fixedBase (g : G₁) (chunk : ℕ) (xs : List F) (sc : ℕ → ℕ → List F) :
    streamMsm chunk (fixedBase g xs) sc = streamMsm chunk xs sc • g :=
  streamMsm_map (LinearMap.toSpanSingleton F G₁ g) chunk xs sc

lemma streamMsm_map_smul (a : F) (chunk : ℕ) (pts : List G₁) (sc : ℕ → ℕ → List F) :
    streamMsm chunk (pts.map fun q => a • q) sc = a • streamMsm chunk pts sc :=
  streamMsm_map (a • LinearMap.id) chunk pts sc

/-! ### The pairing equation without `δ` -/

/-- `β` and the `B` queries have the same exponents in both groups. -/
structure SharesB (P : Pairing F G₁ G₂ GT) (keys : Keys G₁ G₂) : Prop where
  beta : ∃ β : F, keys.provingKey.betaG1 = β • P.g1 ∧ keys.verifyingKey.betaG2 = β • P.g2
  query : ∃ bs : List F, keys.provingKey.bG1Query = fixedBase P.g1 bs ∧
    keys.provingKey.bG2Query = fixedBase P.g2 bs

variable [DecidableEq F]

/-- The part of a proof's equation that `δ` enters, in exponents of `δ`, `β` and the `B` queries. -/
lemma defect_proofOf (R : FftField F) (src : ConstraintSource F) (z : List F)
    (pk : Groth16.ProvingKey G₁ G₂) (r s : F) (d : Domain F) (cfg : ProverConfig) {δ β : F}
    {bs : List F} (hδ1 : pk.deltaG1 = δ • P.g1) (hδ2 : pk.vk.deltaG2 = δ • P.g2)
    (hβ1 : pk.betaG1 = β • P.g1) (hβ2 : pk.vk.betaG2 = β • P.g2)
    (hb1 : pk.bG1Query = fixedBase P.g1 bs) (hb2 : pk.bG2Query = fixedBase P.g2 bs) :
    P.e (proofOf R src z pk r s d cfg).a (proofOf R src z pk r s d cfg).b
        - P.e (proofOf R src z pk r s d cfg).c pk.vk.deltaG2
      = (streamMsm cfg.msmChunk bs (fun off len => (z.drop off).take len) + β)
          • P.e (streamMsm cfg.msmChunk pk.aQuery (fun off len => (z.drop off).take len)
            + pk.vk.alphaG1) P.g2
        - P.e (streamMsm cfg.msmChunk pk.lQuery
              (fun off len => (z.drop (src.numInstance + off)).take len)
            + streamMsm cfg.msmChunk pk.hQuery (quotientFor R src z d cfg).gather)
          pk.vk.deltaG2 := by
  rw [proofOf]
  dsimp only
  rw [hδ1, hδ2, hβ1, hβ2, hb1, hb2, streamMsm_fixedBase, streamMsm_fixedBase]
  by_cases hr : r = 0
  · subst hr
    simp only [if_true, map_add, map_sub, map_smul, LinearMap.add_apply, LinearMap.sub_apply,
      LinearMap.smul_apply]
    module
  · simp only [hr, if_false, map_add, map_sub, map_smul, LinearMap.add_apply, LinearMap.sub_apply,
      LinearMap.smul_apply]
    module

/-! ### Divided keys -/

variable [DecidableEq GT]

omit [DecidableEq F] in
/-- `verify` sees `δ` and a proof only in one difference of pairings. -/
lemma verify_congr (e : G₁ →ₗ[F] G₂ →ₗ[F] GT) {vk vk' : VerifyingKey G₁ G₂}
    {proof proof' : Groth16.Proof G₁ G₂} (hα : vk'.alphaG1 = vk.alphaG1)
    (hβ : vk'.betaG2 = vk.betaG2) (hγ : vk'.gammaG2 = vk.gammaG2)
    (habc : vk'.gammaAbcG1 = vk.gammaAbcG1)
    (h : e proof'.a proof'.b - e proof'.c vk'.deltaG2 = e proof.a proof.b - e proof.c vk.deltaG2)
    (pub : List F) : verify e vk' pub proof' = verify e vk pub proof := by
  have hlhs : ∀ x : GT, e proof'.a proof'.b + x + e proof'.c (-vk'.deltaG2)
      = e proof.a proof.b + x + e proof.c (-vk.deltaG2) := by
    intro x
    calc e proof'.a proof'.b + x + e proof'.c (-vk'.deltaG2)
        = (e proof'.a proof'.b - e proof'.c vk'.deltaG2) + x := by rw [map_neg]; abel
      _ = (e proof.a proof.b - e proof.c vk.deltaG2) + x := by rw [h]
      _ = e proof.a proof.b + x + e proof.c (-vk.deltaG2) := by rw [map_neg]; abel
  simp only [verify, hα, hβ, hγ, habc, hlhs]

/-- **Divided keys judge proofs as before**: a proof with the same randomness is accepted under the
one keys exactly when it is under the other. -/
theorem verify_proofOf_rescale (R : FftField F) (src : ConstraintSource F) (z : List F)
    {keys : Keys G₁ G₂} (hkeys : IsInitial P keys) (hb : SharesB P keys) {D : F} (hD : D ≠ 0)
    (r s : F) (d : Domain F) (cfg : ProverConfig) (pub : List F) :
    verify P.e (keys.rescale D).verifyingKey pub
        (proofOf R src z (keys.rescale D).provingKey.headless r s d cfg)
      = verify P.e keys.verifyingKey pub (proofOf R src z keys.provingKey.headless r s d cfg) := by
  obtain ⟨δ, -, hδ1, hδ2⟩ := hkeys.delta
  obtain ⟨β, hβ1, hβ2⟩ := hb.beta
  obtain ⟨bs, hb1, hb2⟩ := hb.query
  have hcopy := hkeys.copy
  refine verify_congr P.e (by rfl) (by rfl) (by rfl) (by rfl) ?_ pub
  have hold := defect_proofOf (P := P) R src z keys.provingKey.headless r s d cfg hδ1
    (show keys.provingKey.vk.deltaG2 = δ • P.g2 by rw [hcopy, hδ2]) hβ1
    (show keys.provingKey.vk.betaG2 = β • P.g2 by rw [hcopy, hβ2]) hb1 hb2
  have hnew := defect_proofOf (P := P) R src z (keys.rescale D).provingKey.headless r s d cfg
    (show D • keys.provingKey.deltaG1 = (D * δ) • P.g1 by rw [hδ1, smul_smul])
    (show D • keys.verifyingKey.deltaG2 = (D * δ) • P.g2 by rw [hδ2, smul_smul]) hβ1
    (show keys.provingKey.vk.betaG2 = β • P.g2 by rw [hcopy, hβ2]) hb1 hb2
  have hvk : keys.provingKey.headless.vk.deltaG2 = keys.verifyingKey.deltaG2 := by
    rw [← hcopy]
    rfl
  rw [← hvk]
  refine hnew.trans (Eq.trans ?_ hold.symm)
  -- only the sums over `L` and `H` and the last `δ` differ, by `D⁻¹` and `D`
  have hl : (keys.rescale D).provingKey.headless.lQuery
      = keys.provingKey.headless.lQuery.map fun q => D⁻¹ • q := rfl
  have hh : (keys.rescale D).provingKey.headless.hQuery
      = keys.provingKey.headless.hQuery.map fun q => D⁻¹ • q := rfl
  have hδ' : (keys.rescale D).provingKey.headless.vk.deltaG2
      = D • keys.provingKey.headless.vk.deltaG2 := by
    rw [hvk]
    rfl
  have ha : (keys.rescale D).provingKey.headless.aQuery = keys.provingKey.headless.aQuery := rfl
  have hα : (keys.rescale D).provingKey.headless.vk.alphaG1
      = keys.provingKey.headless.vk.alphaG1 := rfl
  rw [hl, hh, hδ', ha, hα, streamMsm_map_smul, streamMsm_map_smul, ← smul_add, map_smul, map_smul,
    LinearMap.smul_apply, smul_smul, mul_inv_cancel₀ hD, one_smul]

/-- The prover's proof and its judgement, whatever the keys were divided by. -/
lemma proveImpl_rescale (R : FftField F) (src : ConstraintSource F) (z : Assignment src)
    {keys : Keys G₁ G₂} (hkeys : IsInitial P keys) (hb : SharesB P keys) {D : F} (hD : D ≠ 0)
    (r s : F) (cfg : ProverConfig) {proof : Groth16.Proof G₁ G₂}
    (h : proveImpl R P.e src z keys.provingKey.headless r s cfg = .ok proof) :
    ∃ proof', proveImpl R P.e src z (keys.rescale D).provingKey.headless r s cfg = .ok proof' ∧
      ∀ pub, verify P.e (keys.rescale D).verifyingKey pub proof'
        = verify P.e keys.verifyingKey pub proof := by
  have hlen : (keys.rescale D).provingKey.headless.hQuery.length
      = keys.provingKey.headless.hQuery.length := List.length_map _
  have hshape : ∀ n, checkShape src (keys.rescale D).provingKey.headless n
      = checkShape src keys.provingKey.headless n := by
    intro n
    have hl : (keys.rescale D).provingKey.headless.lQuery.length
        = keys.provingKey.headless.lQuery.length := List.length_map _
    rw [checkShape, checkShape, hlen, hl]
    rfl
  have hvk : (keys.rescale D).provingKey.headless.vk = (keys.rescale D).verifyingKey :=
    (hkeys.rescale hD).copy
  have hvk0 : keys.provingKey.headless.vk = keys.verifyingKey := hkeys.copy
  obtain ⟨d, hd, -, hs, hcheck, rfl⟩ := proveImpl_eq_ok.mp h
  have hsame := verify_proofOf_rescale R src z.vals hkeys hb hD r s d cfg
  refine ⟨_, proveImpl_eq_ok.mpr ⟨d, by rw [hlen, hd], rfl, by rw [hshape, hs], ?_, rfl⟩, hsame⟩
  intro hself
  rw [hvk, hsame, ← hvk0]
  exact hcheck hself

/-! ### The keys of a setup -/

omit [DecidableEq GT] in
/-- A setup makes initial keys, with one `B` query in both groups. -/
lemma initial_of_devKey (src : ConstraintSource F) (x : Toxic F G₁ G₂) (ω : F) (n : ℕ)
    (hx : x.g1 = P.g1 ∧ x.g2 = P.g2) (keys : Keys G₁ G₂)
    (hpk : { devKey src x ω n with domain := none } = keys.provingKey.headless)
    (hvk : (devKey src x ω n).vk = keys.verifyingKey) : IsInitial P keys ∧ SharesB P keys := by
  obtain ⟨h1, h2⟩ := hx
  obtain ⟨⟨vk, β, δ, a, b1, b2, h, l⟩, vk'⟩ := keys
  cases hvk
  cases hpk
  refine ⟨⟨rfl, x.delta, x.delta_ne_zero, ?_, ?_⟩, ⟨x.beta, ?_, ?_⟩,
    ⟨bAt src (lagrangeCoefficients ω n x.t), ?_, ?_⟩⟩
  · exact congrArg (x.delta • ·) h1
  · exact congrArg (x.delta • ·) h2
  · exact congrArg (x.beta • ·) h1
  · exact congrArg (x.beta • ·) h2
  · exact congrArg (fixedBase · _) h1
  · exact congrArg (fixedBase · _) h2

/-! ### The ceremony -/

variable [DecidableEq G₁] [DecidableEq G₂]

/-- **A ceremony changes `δ` and nothing else**, and its checks accept exactly that. Contributors
with nonzero draws succeed; their secrets multiply `δ` and divide `H` and `L`, all three checks accept
the keys they leave, and proofs are judged as before. Conversely an accepted chain and shipped `δ`
multiply the initial one by nonzero factors, the discrete logarithms of the published points; and keys
with another part changed are refused for all random vectors, or for all outside a hyperplane. -/
theorem ceremony_sound (hP : P.Lawful) {initial : Keys G₁ G₂} (hinit : IsInitial P initial) :
    (∀ calls : List (String × (ℕ → F)), (∀ call ∈ calls, call.2 0 ≠ 0 ∧ call.2 1 ≠ 0) →
      ∃ cs, contributeAll P initial calls
        = .ok (initial.rescale (calls.map fun call => call.2 0).prod, cs)) ∧
    (∀ (calls : List (String × (ℕ → F))) (keys : Keys G₁ G₂) (cs : List (Contribution F G₁ G₂)),
      contributeAll P initial calls = .ok (keys, cs) →
        ∃ ds : List F, ds.length = calls.length ∧ (∀ d ∈ ds, d ≠ 0) ∧
          cs.map Contribution.deltaG2Contribution = ds.map (· • P.g2) ∧
          keys = initial.rescale ds.prod ∧
          verifyChain P initial.provingKey.deltaG1 cs = .ok () ∧
          verifyKeysConsistentWithChain P keys initial.provingKey.deltaG1 cs = .ok () ∧
          (∀ rng, verifyKeysMatchInitial P keys initial rng = .ok ()) ∧
          (SharesB P initial → ∀ R src z r s cfg proof,
            proveImpl R P.e src z initial.provingKey.headless r s cfg = .ok proof →
              ∃ proof', proveImpl R P.e src z keys.provingKey.headless r s cfg = .ok proof' ∧
                ∀ pub, verify P.e keys.verifyingKey pub proof'
                  = verify P.e initial.verifyingKey pub proof)) ∧
    ∀ (keys : Keys G₁ G₂) (cs : List (Contribution F G₁ G₂)),
      verifyChain P initial.provingKey.deltaG1 cs = .ok () →
      verifyKeysConsistentWithChain P keys initial.provingKey.deltaG1 cs = .ok () →
        ∃ ds : List F, (∀ d ∈ ds, d ≠ 0) ∧
          cs.map Contribution.deltaG2Contribution = ds.map (· • P.g2) ∧
          keys.provingKey.deltaG1 = ds.prod • initial.provingKey.deltaG1 ∧
          keys.verifyingKey.deltaG2 = ds.prod • initial.verifyingKey.deltaG2 ∧
          (keys ≠ initial.rescale ds.prod →
            (∀ rng, verifyKeysMatchInitial P keys initial rng ≠ .ok ()) ∨
              ∃ as : List F, as.length = keys.provingKey.scaled.length ∧ (∃ a ∈ as, a ≠ 0) ∧
                ∀ rng, verifyKeysMatchInitial P keys initial rng = .ok () →
                  dot as (draws keys.provingKey.scaled.length rng) = 0) := by
  obtain ⟨δ, -, hδ1, hδ2⟩ := hinit.delta
  refine ⟨fun calls hcalls => contributeAll_ok hcalls hinit.copy, ?_, ?_⟩
  · intro calls keys cs h
    obtain ⟨ds, hlen, hds, hpub, rfl, hlast, hchain⟩ := contributeAll_chain hP hinit h
    have hprod : ds.prod ≠ 0 := List.prod_ne_zero fun h0 => hds 0 h0 rfl
    refine ⟨ds, hlen, hds, hpub, rfl, hchain 0, ?_, match_rescale hinit.copy hprod, ?_⟩
    · refine verifyKeysConsistentWithChain_eq_ok.mpr ⟨hlast, ?_⟩
      show P.e (ds.prod • initial.provingKey.deltaG1) P.g2
        = P.e P.g1 (ds.prod • initial.verifyingKey.deltaG2)
      rw [hδ1, hδ2]
      simp only [map_smul, LinearMap.smul_apply]
    · exact fun hb R src z r s cfg proof => proveImpl_rescale R src z hinit hb hprod r s cfg
  · intro keys cs hchain hcons
    obtain ⟨ds, hds, hpub, hlast⟩ := delta_of_verifyChain hP hchain
    obtain ⟨h1, hpair⟩ := verifyKeysConsistentWithChain_eq_ok.mp hcons
    have hprod : ds.prod ≠ 0 := List.prod_ne_zero fun h0 => hds 0 h0 rfl
    rw [hlast] at h1
    have h2 : keys.verifyingKey.deltaG2 = ds.prod • initial.verifyingKey.deltaG2 := by
      rw [hδ2, smul_smul]
      exact deltaG2_of_consistent hP (by rw [h1, hδ1, smul_smul]) hpair
    exact ⟨ds, hds, hpub, h1, h2, match_rejects hP hinit hprod h1 h2⟩

/-! ### Two contributors over a small field -/

section Small

/-- Multiplication modulo `5` as a pairing. -/
def pairingOfFive : Pairing (ZMod 5) (ZMod 5) (ZMod 5) (ZMod 5) :=
  ⟨1, 1, LinearMap.mul (ZMod 5) (ZMod 5), fun a b c d => a + 2 * b + 3 * c + d⟩

lemma lawful_pairingOfFive : pairingOfFive.Lawful where
  gen₁ Q := ⟨Q, (mul_one Q).symm⟩
  gen₂ Q := ⟨Q, (mul_one Q).symm⟩
  nondegenerate := by decide

/-- The keys of the setup for `x * x = x`. -/
def keysOfFive : Keys (ZMod 5) (ZMod 5) :=
  let pk := devKey squareSource secretsOfFive 4 2
  ⟨⟨pk.vk, pk.betaG1, pk.deltaG1, pk.aQuery, pk.bG1Query, pk.bG2Query, pk.hQuery, pk.lQuery⟩, pk.vk⟩

/-- Two contributors with the secrets `2` and `4`; their keys pass every check. -/
theorem ceremony_sound_two : ∃ keys cs,
    contributeAll pairingOfFive keysOfFive [("a", fun _ => 2), ("b", fun _ => 4)] = .ok (keys, cs) ∧
    verifyChain pairingOfFive keysOfFive.provingKey.deltaG1 cs = .ok () ∧
    verifyKeysConsistentWithChain pairingOfFive keys keysOfFive.provingKey.deltaG1 cs = .ok () ∧
    ∀ rng, verifyKeysMatchInitial pairingOfFive keys keysOfFive rng = .ok () := by
  obtain ⟨hinit, -⟩ := initial_of_devKey (P := pairingOfFive) squareSource secretsOfFive 4 2
    ⟨rfl, rfl⟩ keysOfFive rfl rfl
  obtain ⟨hmake, hhonest, -⟩ := ceremony_sound lawful_pairingOfFive hinit
  obtain ⟨cs, hcs⟩ := hmake [("a", fun _ => 2), ("b", fun _ => 4)] (by decide)
  obtain ⟨-, -, -, -, -, hchain, hcons, hmatch, -⟩ := hhonest _ _ _ hcs
  exact ⟨_, cs, hcs, hchain, hcons, hmatch⟩

end Small

end Ceremony

end XarkCircuit
