import XarkCircuit.Groth16.Setup

/-!
The Groth16 prover and verifier (`prover.rs`, `types.rs`), with the pairing as a bilinear map.

* `streamMsm` feeds a key vector chunk by chunk, with the scalars of each chunk read at its offset.
* `keyDomain` finds the domain a key was made for from the length of its `H` vector.
* `proveImpl` is the prover with given randomness; it checks the key's shape first and, on request, the
  proof at the end (`verify`).
-/

namespace XarkCircuit

namespace Groth16

open Dft

variable {F : Type} [Field F]

/-! ### Sums of multiples -/

section Msm

variable {G : Type} [AddCommGroup G] [Module F G]

/-- The sum of multiples, over the shorter length (`msm`). -/
def msm (bases : List G) (scalars : List F) : G :=
  ((bases.zip scalars).map fun p => p.2 • p.1).sum

/-- The chunks of a vector from `off` on, with the scalars of each; `fuel` bounds the chunks. -/
def streamFrom (chunk : ℕ) (sc : ℕ → ℕ → List F) : ℕ → ℕ → List G → G
  | 0, _, _ => 0
  | fuel + 1, off, pts =>
    if pts.isEmpty then 0
    else
      let c := pts.take chunk
      msm c (sc off c.length) + streamFrom chunk sc fuel (off + chunk) (pts.drop chunk)

/-- `stream_msm_g1`, `stream_msm_g2`: a chunk has at least one point. -/
def streamMsm (chunk : ℕ) (pts : List G) (sc : ℕ → ℕ → List F) : G :=
  streamFrom (max chunk 1) sc pts.length 0 pts

end Msm

/-! ### Proofs -/

/-- A proof. -/
structure Proof (G₁ G₂ : Type) where
  a : G₁
  b : G₂
  c : G₁
deriving DecidableEq

/-- Why a verification cannot be performed. -/
inductive VerifyError
  | publicInputCount (expected got : ℕ)
deriving DecidableEq, Repr

section Verify

variable {G₁ G₂ GT : Type} [AddCommGroup G₁] [Module F G₁] [AddCommGroup G₂] [Module F G₂]
  [AddCommGroup GT] [Module F GT] [DecidableEq GT]

/-- `verify`, as one sum of pairings. -/
def verify (e : G₁ →ₗ[F] G₂ →ₗ[F] GT) (vk : VerifyingKey G₁ G₂) (publicInputs : List F)
    (proof : Proof G₁ G₂) : Except VerifyError Bool :=
  let expected := vk.gammaAbcG1.length - 1
  if publicInputs.length ≠ expected ∨ vk.gammaAbcG1.isEmpty then
    .error (.publicInputCount expected publicInputs.length)
  else
    let acc := (publicInputs.zip (vk.gammaAbcG1.drop 1)).foldl (fun acc p => acc + p.1 • p.2)
      (entry vk.gammaAbcG1 0)
    let lhs := e proof.a proof.b + e acc (-vk.gammaG2) + e proof.c (-vk.deltaG2)
    .ok (lhs = e vk.alphaG1 vk.betaG2)

end Verify

/-! ### The prover -/

/-- Prover tuning. -/
structure ProverConfig where
  msmChunk : ℕ
  minBlockedLog : ℕ
  selfCheck : Bool
  spill : Bool
deriving DecidableEq, Repr

/-- Why a proof is refused. -/
inductive ProveError
  | keyMismatch (message : String)
  | unsatisfied (row : ℕ)
  | selfCheckFailed
deriving DecidableEq, Repr

/-- The domain of exactly `n` points, when it is big enough. -/
def domainOfSize (R : FftField F) (src : ConstraintSource F) (minBlockedLog n : ℕ) :
    Except String (Domain F) :=
  let least := src.numConstraints + src.numInstance
  if n < least then
    .error ("a " ++ toString n ++ "-point QAP domain is too small for " ++ toString least ++ " rows")
  else
    match Domain.withSize R minBlockedLog n with
    | none => .error ("no evaluation domain of " ++ toString n ++ " points")
    | some d => .ok d

/-- The domain that a key with `hLen` points in `H` was made for. -/
def keyDomain (R : FftField F) (src : ConstraintSource F) (minBlockedLog hLen : ℕ) :
    Except String (Domain F) :=
  match domainOfSize R src minBlockedLog (hLen + 1) with
  | .ok d => .ok d
  | .error _ =>
    match domainOfSize R src minBlockedLog hLen with
    | .ok d => .ok d
    | .error _ =>
      .error ("h_query has " ++ toString hLen ++ " points; no evaluation domain of that size fits "
        ++ toString (src.numConstraints + src.numInstance) ++ " rows")

section Prover

variable {G₁ G₂ GT : Type} [AddCommGroup G₁] [Module F G₁] [AddCommGroup G₂] [Module F G₂]
  [AddCommGroup GT] [Module F GT] [DecidableEq GT] [DecidableEq F]

/-- A key vector has the length that the circuit needs. -/
def checkLen (name : String) (got want : ℕ) : Except ProveError Unit :=
  if got = want then .ok ()
  else .error (.keyMismatch (name ++ " has " ++ toString got ++ " points, circuit needs "
    ++ toString want))

/-- The lengths of the key's vectors (`check_shape`). -/
def checkShape (src : ConstraintSource F) (pk : ProvingKey G₁ G₂) (domain : ℕ) :
    Except ProveError Unit := do
  checkLen "a_query" pk.aQuery.length src.numVars
  checkLen "b_g1_query" pk.bG1Query.length src.numVars
  checkLen "b_g2_query" pk.bG2Query.length src.numVars
  checkLen "l_query" pk.lQuery.length src.numWitness
  if pk.hQuery.length + 1 ≠ domain ∧ pk.hQuery.length ≠ domain then
    throw (.keyMismatch ("h_query has " ++ toString pk.hQuery.length ++ " points for a domain of "
      ++ toString domain))
  if pk.vk.gammaAbcG1.length ≠ src.numInstance then
    throw (.keyMismatch ("vk has " ++ toString (pk.vk.gammaAbcG1.length - 1)
      ++ " public inputs, circuit has " ++ toString (src.numInstance - 1)))

/-- The header states the domain that `H` implies. -/
def checkHeader (pk : ProvingKey G₁ G₂) (domain : ℕ) : Except ProveError Unit :=
  match pk.domain with
  | none => .ok ()
  | some n =>
    if n ≠ domain then
      .error (.keyMismatch ("header states a " ++ toString n ++ "-point domain, h_query implies "
        ++ toString domain))
    else .ok ()

/-- The quotient, in memory or spilled (`quotient_for`). -/
def quotientFor (R : FftField F) (src : ConstraintSource F) (z : List F) (d : Domain F)
    (cfg : ProverConfig) : Quotient F :=
  if cfg.spill then quotientSpilled R src z d else quotient R src z d

/-- The proof, before it is checked (`prove_impl`). -/
def proofOf (R : FftField F) (src : ConstraintSource F) (z : List F) (pk : ProvingKey G₁ G₂)
    (r s : F) (d : Domain F) (cfg : ProverConfig) : Proof G₁ G₂ :=
  let zSc := fun off len => (z.drop off).take len
  let auxSc := fun off len => zSc (src.numInstance + off) len
  let aAcc := streamMsm cfg.msmChunk pk.aQuery zSc
  let b1Acc := if r = 0 then 0 else streamMsm cfg.msmChunk pk.bG1Query zSc
  let b2Acc := streamMsm cfg.msmChunk pk.bG2Query zSc
  let h := quotientFor R src z d cfg
  let hAcc := streamMsm cfg.msmChunk pk.hQuery h.gather
  let lAcc := streamMsm cfg.msmChunk pk.lQuery auxSc
  let gA := r • pk.deltaG1 + aAcc + pk.vk.alphaG1
  let g1B := if r = 0 then 0 else s • pk.deltaG1 + b1Acc + pk.betaG1
  let g2B := s • pk.vk.deltaG2 + b2Acc + pk.vk.betaG2
  ⟨gA, g2B, s • gA + r • g1B - (r * s) • pk.deltaG1 + lAcc + hAcc⟩

/-- `prove_with_randomness`. -/
def proveImpl (R : FftField F) (e : G₁ →ₗ[F] G₂ →ₗ[F] GT) (src : ConstraintSource F)
    (z : Assignment src) (pk : ProvingKey G₁ G₂) (r s : F) (cfg : ProverConfig) :
    Except ProveError (Proof G₁ G₂) :=
  match keyDomain R src cfg.minBlockedLog pk.hQuery.length with
  | .error msg => .error (.keyMismatch msg)
  | .ok d => do
    checkHeader pk d.n
    checkShape src pk d.n
    let proof := proofOf R src z.vals pk r s d cfg
    if cfg.selfCheck then
      match verify e pk.vk ((z.vals.take src.numInstance).drop 1) proof with
      | .ok true => return proof
      | _ =>
        match firstUnsatisfied src z.vals with
        | some row => throw (.unsatisfied row)
        | none => throw .selfCheckFailed
    else return proof

/-- When the prover returns a proof. -/
lemma proveImpl_eq_ok {R : FftField F} {e : G₁ →ₗ[F] G₂ →ₗ[F] GT} {src : ConstraintSource F}
    {z : Assignment src} {pk : ProvingKey G₁ G₂} {r s : F} {cfg : ProverConfig}
    {proof : Proof G₁ G₂} :
    proveImpl R e src z pk r s cfg = .ok proof ↔
      ∃ d, keyDomain R src cfg.minBlockedLog pk.hQuery.length = .ok d ∧
        checkHeader pk d.n = .ok () ∧ checkShape src pk d.n = .ok () ∧
        (cfg.selfCheck = true → verify e pk.vk ((z.vals.take src.numInstance).drop 1)
          (proofOf R src z.vals pk r s d cfg) = .ok true) ∧
        proof = proofOf R src z.vals pk r s d cfg := by
  rw [proveImpl]
  cases hd : keyDomain R src cfg.minBlockedLog pk.hQuery.length with
  | error msg => simp
  | ok d =>
      cases hh : checkHeader pk d.n with
      | error err => simp [bind, Except.bind, hh]
      | ok u =>
          cases hs : checkShape src pk d.n with
          | error err => simp [bind, Except.bind, hh, hs]
          | ok u =>
              simp only [bind, Except.bind, pure, Except.pure, Except.ok.injEq, exists_eq_left', hh,
                hs, true_and]
              split_ifs with hcheck
              · split
                · next hv => exact ⟨fun h => ⟨fun _ => hv, by cases h; rfl⟩, fun h => by rw [h.2]⟩
                · next hv =>
                    refine ⟨fun h => ?_, fun h => absurd (h.1 hcheck) hv⟩
                    cases hu : firstUnsatisfied src z.vals <;> rw [hu] at h <;> cases h
              · exact ⟨fun h => ⟨fun hc => absurd hc hcheck, by cases h; rfl⟩, fun h => by rw [h.2]⟩

end Prover

end Groth16

end XarkCircuit
