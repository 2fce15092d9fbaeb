import XarkCircuit.Groth16.Prove

/-!
The phase-2 ceremony (`ceremony.rs`).

* `contribute` multiplies `δ` by a fresh secret, in `G1` and in both copies of the verifying key,
  divides the `H` and `L` queries by it, and publishes a proof of knowledge of the secret.
* `verifyChain` checks a list of contributions, `verifyKeysConsistentWithChain` the shipped `δ`
  against the last of them, and `verifyKeysMatchInitial` everything else against the initial keys.
-/

namespace XarkCircuit

namespace Ceremony

open Groth16

/-! ### Keys -/

/-- A proving key, without a header. -/
structure ProvingKey (G₁ G₂ : Type) where
  vk : VerifyingKey G₁ G₂
  betaG1 : G₁
  deltaG1 : G₁
  aQuery : List G₁
  bG1Query : List G₁
  bG2Query : List G₂
  hQuery : List G₁
  lQuery : List G₁
deriving DecidableEq

/-- Both keys; the proving key has a copy of the verifying key. -/
structure Keys (G₁ G₂ : Type) where
  provingKey : ProvingKey G₁ G₂
  verifyingKey : VerifyingKey G₁ G₂
deriving DecidableEq

/-- The key as the prover takes it; it states no domain. -/
def ProvingKey.headless {G₁ G₂ : Type} (pk : ProvingKey G₁ G₂) : Groth16.ProvingKey G₁ G₂ where
  domain := none
  vk := pk.vk
  betaG1 := pk.betaG1
  deltaG1 := pk.deltaG1
  aQuery := pk.aQuery
  bG1Query := pk.bG1Query
  bG2Query := pk.bG2Query
  hQuery := pk.hQuery
  lQuery := pk.lQuery

/-! ### Contributions -/

/-- One contributor's public attestation. -/
structure Contribution (F G₁ G₂ : Type) where
  deltaG2Contribution : G₂
  proofCommitment : G₂
  proofResponse : F
  prevDeltaG1 : G₁
  newDeltaG1 : G₁
  contributorLabel : String
deriving DecidableEq

/-- Why a contribution or a verification fails. -/
inductive CeremonyError
  | zeroSecret
  | schnorrInvalid (index : ℕ)
  | deltaInconsistent (index : ℕ)
  | chainBreak (index : ℕ)
  | degenerateContribution (index : ℕ)
  | degenerateFinalDelta
  | keysDoNotMatchChain
  | keysDoNotMatchCircuit (part : String)
deriving DecidableEq, Repr

variable {F : Type} [Field F] [DecidableEq F]
variable {G₁ G₂ GT : Type} [AddCommGroup G₁] [Module F G₁] [DecidableEq G₁] [AddCommGroup G₂]
  [Module F G₂] [DecidableEq G₂] [AddCommGroup GT] [Module F GT] [DecidableEq GT]

/-- The groups: their generators, the pairing, and the hash behind the challenge. -/
structure Pairing (F G₁ G₂ GT : Type) [Field F] [AddCommGroup G₁] [Module F G₁] [AddCommGroup G₂]
    [Module F G₂] [AddCommGroup GT] [Module F GT] where
  g1 : G₁
  g2 : G₂
  e : G₁ →ₗ[F] G₂ →ₗ[F] GT
  schnorrChallenge : G₁ → G₁ → G₂ → G₂ → F

/-- At most `tries` draws for a scalar that is not zero (`sample_nonzero_fr`); a generator of random
scalars is the sequence of its draws. -/
def sampleNonzero : ℕ → (ℕ → F) → Except CeremonyError F × (ℕ → F)
  | 0, rng => (.error .zeroSecret, rng)
  | tries + 1, rng =>
    if rng 0 ≠ 0 then (.ok (rng 0), fun i => rng (i + 1))
    else sampleNonzero tries fun i => rng (i + 1)

/-- The keys under a contributor's secret. -/
def Keys.rescale (keys : Keys G₁ G₂) (d : F) : Keys G₁ G₂ where
  provingKey := { keys.provingKey with
    deltaG1 := d • keys.provingKey.deltaG1
    vk := { keys.provingKey.vk with deltaG2 := d • keys.verifyingKey.deltaG2 }
    hQuery := keys.provingKey.hQuery.map fun q => d⁻¹ • q
    lQuery := keys.provingKey.lQuery.map fun q => d⁻¹ • q }
  verifyingKey := { keys.verifyingKey with deltaG2 := d • keys.verifyingKey.deltaG2 }

/-- Apply a fresh secret to the keys; the keys are changed before the proof is drawn. -/
def contribute (P : Pairing F G₁ G₂ GT) (keys : Keys G₁ G₂) (contributorLabel : String)
    (rng : ℕ → F) : Except CeremonyError (Contribution F G₁ G₂) × Keys G₁ G₂ :=
  match sampleNonzero 16 rng with
  | (.error err, _) => (.error err, keys)
  | (.ok delta, rng) =>
    let prevDeltaG1 := keys.provingKey.deltaG1
    let deltaG2Contribution := delta • P.g2
    let keys := keys.rescale delta
    let newDeltaG1 := keys.provingKey.deltaG1
    match sampleNonzero 16 rng with
    | (.error err, _) => (.error err, keys)
    | (.ok r, _) =>
      let proofCommitment := r • P.g2
      let challenge := P.schnorrChallenge prevDeltaG1 newDeltaG1 deltaG2Contribution proofCommitment
      let proofResponse := r + challenge * delta
      (.ok {
        deltaG2Contribution, proofCommitment, proofResponse, prevDeltaG1, newDeltaG1,
        contributorLabel }, keys)

/-- Contributors one after the other, each with a generator of their own; all of them succeed. -/
def contributeAll (P : Pairing F G₁ G₂ GT) :
    Keys G₁ G₂ → List (String × (ℕ → F)) → Except CeremonyError (Keys G₁ G₂ × List (Contribution F G₁ G₂))
  | keys, [] => .ok (keys, [])
  | keys, (label, rng) :: calls =>
    match contribute P keys label rng with
    | (.error err, _) => .error err
    | (.ok c, keys) => do
      let (keys, cs) ← contributeAll P keys calls
      return (keys, c :: cs)

/-! ### Verification -/

/-- One contribution against the running `δ`. -/
def verifyContribution (P : Pairing F G₁ G₂ GT) (i : ℕ) (running : G₁) (c : Contribution F G₁ G₂) :
    Except CeremonyError Unit :=
  if c.prevDeltaG1 ≠ running then .error (.chainBreak i)
  else if c.deltaG2Contribution = 0 ∨ c.newDeltaG1 = 0 then .error (.degenerateContribution i)
  else
    let challenge := P.schnorrChallenge c.prevDeltaG1 c.newDeltaG1 c.deltaG2Contribution
      c.proofCommitment
    if c.proofResponse • P.g2 ≠ c.proofCommitment + challenge • c.deltaG2Contribution then
      .error (.schnorrInvalid i)
    else if P.e c.newDeltaG1 P.g2 ≠ P.e c.prevDeltaG1 c.deltaG2Contribution then
      .error (.deltaInconsistent i)
    else .ok ()

/-- The contributions from number `i` on. -/
def verifyChainFrom (P : Pairing F G₁ G₂ GT) :
    ℕ → G₁ → List (Contribution F G₁ G₂) → Except CeremonyError Unit
  | _, running, [] => if running = 0 then .error .degenerateFinalDelta else .ok ()
  | i, running, c :: cs => do
    verifyContribution P i running c
    verifyChainFrom P (i + 1) c.newDeltaG1 cs

/-- Walk the contributions from the initial `δ`. -/
def verifyChain (P : Pairing F G₁ G₂ GT) (initialDeltaG1 : G₁)
    (contributions : List (Contribution F G₁ G₂)) : Except CeremonyError Unit :=
  verifyChainFrom P 0 initialDeltaG1 contributions

/-- The shipped `δ` is the last one of the chain, and the same in both groups. -/
def verifyKeysConsistentWithChain (P : Pairing F G₁ G₂ GT) (keys : Keys G₁ G₂)
    (initialDeltaG1 : G₁) (contributions : List (Contribution F G₁ G₂)) :
    Except CeremonyError Unit :=
  let expectedDeltaG1 := (contributions.getLast?.map Contribution.newDeltaG1).getD initialDeltaG1
  if keys.provingKey.deltaG1 ≠ expectedDeltaG1 then .error .keysDoNotMatchChain
  else if P.e keys.provingKey.deltaG1 P.g2 ≠ P.e P.g1 keys.verifyingKey.deltaG2 then
    .error .keysDoNotMatchChain
  else .ok ()

/-- The scalars drawn for `n` points. -/
def draws (n : ℕ) (rng : ℕ → F) : List F := (List.range n).map rng

/-- The points that a contribution divides. -/
def ProvingKey.scaled (pk : ProvingKey G₁ G₂) : List G₁ := pk.hQuery ++ pk.lQuery

/-- The shipped keys are the initial ones with only `δ` changed; the divided queries are compared
under a random combination. -/
def verifyKeysMatchInitial (P : Pairing F G₁ G₂ GT) (keys initial : Keys G₁ G₂) (rng : ℕ → F) :
    Except CeremonyError Unit :=
  let pk := keys.provingKey
  let pk0 := initial.provingKey
  let vk := keys.verifyingKey
  let vk0 := initial.verifyingKey
  let differs (part : String) : Except CeremonyError Unit := .error (.keysDoNotMatchCircuit part)
  if pk.vk ≠ vk then differs "the proving key's copy of the verifying key"
  else if vk.alphaG1 ≠ vk0.alphaG1 then differs "α"
  else if vk.betaG2 ≠ vk0.betaG2 ∨ pk.betaG1 ≠ pk0.betaG1 then differs "β"
  else if vk.gammaG2 ≠ vk0.gammaG2 then differs "γ"
  else if vk.gammaAbcG1 ≠ vk0.gammaAbcG1 then differs "the public-input points (γ_abc)"
  else if pk.aQuery ≠ pk0.aQuery then differs "the A query"
  else if pk.bG1Query ≠ pk0.bG1Query ∨ pk.bG2Query ≠ pk0.bG2Query then differs "the B query"
  else if pk.hQuery.length ≠ pk0.hQuery.length ∨ pk.lQuery.length ≠ pk0.lQuery.length then
    differs "the H or L query's length"
  else
    let r := draws pk.scaled.length rng
    if P.e (msm pk.scaled r) vk.deltaG2 ≠ P.e (msm pk0.scaled r) vk0.deltaG2 then
      differs "the H or L query (not rescaled by the chain's δ alone)"
    else .ok ()

end Ceremony

end XarkCircuit
