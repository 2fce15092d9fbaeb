import XarkCircuit.Groth16.Complete
import XarkCircuit.Groth16.PushSound
import XarkCircuit.Groth16.Transcode

/-!
Streaming a key against reading it.

* `StreamsAlike` says of a file, an assignment and a hint that it does not matter how the bytes arrive:
  the push-driven prover returns what the pull-driven one returns, the handler sees each vector once and
  in order, and the transcoder writes what a tee writes.
* `SettlesAlike` is the condition under which both provers use the same quotient: the header states the
  domain that the length of `H` implies, and the domain that the pushes start from is not mistaken for it.
* `streamsAlike_iff`: the one holds exactly when the other does, for a front within the parser's limit.
* `radix_two_key_hint`: a radix-2 key of four points with the smooth size `3` as a hint.
-/

namespace XarkCircuit

namespace Groth16

/-! ### In order -/

section InOrder

variable {G₁ G₂ : Type}

/-- The offset and the bytes of a chunk of vector `v`. -/
def KeyEvent.piece (v : KeyVector) : KeyEvent G₁ G₂ → Option (ℕ × List UInt8)
  | .points w off bytes _ => if w = v then some (off, bytes) else none
  | _ => none

/-- The length of a vector. -/
def KeyEvent.length : KeyEvent G₁ G₂ → Option (KeyVector × ℕ)
  | .len v n => some (v, n)
  | _ => none

/-- Each chunk starts where the one before it ended. -/
def Consecutive (psz : ℕ) : ℕ → List (ℕ × List UInt8) → Prop
  | _, [] => True
  | off, p :: ps => p.1 = off ∧ Consecutive psz (off + p.2.length / psz) ps

/-- Events that are those of a file: the header, the lengths, and the points of each vector once and in
order. -/
structure InOrder {C : KeyCodec G₁ G₂} (F : KeyFile C) (log : List (KeyEvent G₁ G₂)) : Prop where
  header : log.head? = some F.headerEvent
  lengths : log.filterMap KeyEvent.length = ORDER.map fun v => (v, (F.points v).length)
  consecutive : ∀ v, Consecutive (pointBytes v.isG2 F.version.compressed) 0 (log.filterMap (KeyEvent.piece v))
  points : ∀ v, (log.filterMap (KeyEvent.piece v)).flatMap Prod.snd = (F.points v).flatten

lemma consecutive_chunksFrom {psz chunk : ℕ} (hpsz : 0 < psz) {points : List (List UInt8)}
    (hpoints : ∀ p ∈ points, p.length = psz) {fuel off off' : ℕ} (hoff : points = [] ∨ off' = off) :
    Consecutive psz off ((chunksFrom chunk fuel off' points).map fun c => (c.1, c.2.flatten)) := by
  induction fuel generalizing off off' points with
  | zero => trivial
  | succ fuel ih =>
      rw [chunksFrom]
      split_ifs with hempty
      · trivial
      · have hne : points ≠ [] := by simpa using hempty
        obtain rfl := hoff.resolve_left hne
        have hlen : (points.take chunk).flatten.length / psz = min chunk points.length := by
          rw [length_flatten_of_forall fun p hp => hpoints p (List.mem_of_mem_take hp),
            List.length_take, Nat.mul_div_cancel _ hpsz]
        refine ⟨rfl, ?_⟩
        rw [hlen]
        refine ih (fun p hp => hpoints p (List.mem_of_mem_drop hp)) ?_
        rcases Nat.lt_or_ge chunk points.length with h | h
        · exact Or.inr (by omega)
        · exact Or.inl (List.drop_of_length_le h)

lemma filterMap_piece (v w : KeyVector) (c : Bool) (chunk : ℕ) (points : List (List UInt8)) :
    (vectorEvents w c chunk points : List (KeyEvent G₁ G₂)).filterMap (KeyEvent.piece v)
      = if w = v then (chunks chunk points).map fun c => (c.1, c.2.flatten) else [] := by
  have hlen : KeyEvent.piece v (.len w points.length : KeyEvent G₁ G₂) = none := rfl
  rw [vectorEvents, List.filterMap_cons, hlen, List.filterMap_map]
  split_ifs with h
  · have hsome : (KeyEvent.piece v ∘ fun p : ℕ × List (List UInt8) =>
        (KeyEvent.points w p.1 p.2.flatten c : KeyEvent G₁ G₂))
        = some ∘ fun p => (p.1, p.2.flatten) := by
      funext p
      simp [KeyEvent.piece, h]
    rw [hsome, ← List.filterMap_map, List.filterMap_some]
  · have hnone : (KeyEvent.piece v ∘ fun p : ℕ × List (List UInt8) =>
        (KeyEvent.points w p.1 p.2.flatten c : KeyEvent G₁ G₂)) = fun _ => none := by
      funext p
      simp [KeyEvent.piece, h]
    rw [hnone, List.filterMap_none]

lemma filterMap_length (w : KeyVector) (c : Bool) (chunk : ℕ) (points : List (List UInt8)) :
    (vectorEvents w c chunk points : List (KeyEvent G₁ G₂)).filterMap KeyEvent.length
      = [(w, points.length)] := by
  have hlen : KeyEvent.length (.len w points.length : KeyEvent G₁ G₂) = some (w, points.length) := rfl
  have hnone : (KeyEvent.length ∘ fun p : ℕ × List (List UInt8) =>
      (KeyEvent.points w p.1 p.2.flatten c : KeyEvent G₁ G₂)) = fun _ => none := rfl
  rw [vectorEvents, List.filterMap_cons, hlen, List.filterMap_map, hnone, List.filterMap_none]

/-- **The events of a file are in order.** -/
theorem inOrder_events {C : KeyCodec G₁ G₂} (F : KeyFile C) (chunk : ℕ) :
    InOrder F (F.events chunk) := by
  have hheader : ∀ v, KeyEvent.piece v F.headerEvent = none := fun _ => rfl
  have hpiece : ∀ v, (F.events chunk).filterMap (KeyEvent.piece v)
      = (chunks (max chunk 1) (F.points v)).map fun c => (c.1, c.2.flatten) := by
    intro v
    simp only [KeyFile.events, List.filterMap_cons, hheader, ORDER, List.flatMap_cons,
      List.flatMap_nil, List.filterMap_append, filterMap_piece, List.filterMap_nil]
    cases v <;> simp
  refine ⟨rfl, ?_, fun v => ?_, fun v => ?_⟩
  · have hnone : KeyEvent.length F.headerEvent = none := rfl
    simp only [KeyFile.events, List.filterMap_cons, hnone, ORDER, List.flatMap_cons,
      List.flatMap_nil, List.filterMap_append, filterMap_length, List.filterMap_nil, List.map_cons,
      List.map_nil]
    rfl
  · rw [hpiece, chunks]
    exact consecutive_chunksFrom (pointBytes_pos _ _) (fun p hp => length_of_mem_keyPoints hp)
      (Or.inr rfl)
  · have hflat : (chunks (max chunk 1) (F.points v)).flatMap Prod.snd = F.points v :=
      flatMap_chunksFrom (by omega) le_rfl
    have hjoin : ∀ cs : List (ℕ × List (List UInt8)),
        (cs.map fun c => (c.1, c.2.flatten)).flatMap Prod.snd = (cs.flatMap Prod.snd).flatten := by
      intro cs
      induction cs with
      | nil => rfl
      | cons c cs ih =>
          rw [List.map_cons, List.flatMap_cons, List.flatMap_cons, List.flatten_append, ih]
    rw [hpiece, hjoin, hflat]

end InOrder

/-! ### The domain -/

section Domains

variable {F : Type} [Field F] {R : FftField F} {src : ConstraintSource F} {minBlockedLog : ℕ}

lemma withSplit_n {n1 n2 : ℕ} {d : Domain F} (h : Domain.withSplit R n1 n2 = some d) :
    d.n = n1 * n2 := by
  rw [Domain.withSplit] at h
  split_ifs at h
  · split at h <;> cases h
    rfl
  · split at h <;> cases h

/-- The domain of a size has that size. -/
lemma withSize_n {n : ℕ} {d : Domain F} (h : Domain.withSize R minBlockedLog n = some d) : d.n = n := by
  rw [Domain.withSize] at h
  obtain ⟨q, hq, h⟩ := Option.bind_eq_some_iff.mp h
  dsimp only at h
  split_ifs at h with hn hk hq1
  · rw [withSplit_n h, Nat.one_mul]
  · rw [withSplit_n h, ← hn]
  · rw [withSplit_n h]
    conv_rhs => rw [hn]
    rw [Nat.mul_assoc, ← Nat.pow_add]
    congr 2
    omega

lemma withSize_of_domainOfSize {n : ℕ} {d : Domain F}
    (h : domainOfSize R src minBlockedLog n = .ok d) : Domain.withSize R minBlockedLog n = some d := by
  rw [domainOfSize] at h
  split_ifs at h
  split at h
  · cases h
  · next hd =>
      cases h
      exact hd

lemma domainOfSize_n {n : ℕ} {d : Domain F} (h : domainOfSize R src minBlockedLog n = .ok d) :
    d.n = n :=
  withSize_n (withSize_of_domainOfSize h)

/-- What the length of `H` implies. -/
lemma keyDomain_eq_ok {hLen : ℕ} {d : Domain F} :
    keyDomain R src minBlockedLog hLen = .ok d ↔
      domainOfSize R src minBlockedLog (hLen + 1) = .ok d ∨
        (∀ d', domainOfSize R src minBlockedLog (hLen + 1) ≠ .ok d') ∧
          domainOfSize R src minBlockedLog hLen = .ok d := by
  rw [keyDomain]
  cases domainOfSize R src minBlockedLog (hLen + 1) with
  | ok d' => simp
  | error e => cases domainOfSize R src minBlockedLog hLen <;> simp

lemma domainStated_eq_ok {n : ℕ} {d : Domain F} :
    domainStated R src minBlockedLog n = .ok d ↔ domainOfSize R src minBlockedLog n = .ok d := by
  rw [domainStated]
  cases domainOfSize R src minBlockedLog n <;> simp [Except.mapError]

/-- The pushes start from a domain that fits the circuit. -/
lemma domainOfSize_of_start {hint stated : Option ℕ} {d : Domain F}
    (h : startDomain R src minBlockedLog hint stated = .ok d) :
    domainOfSize R src minBlockedLog d.n = .ok d := by
  have hstated : ∀ n, domainStated R src minBlockedLog n = .ok d →
      domainOfSize R src minBlockedLog d.n = .ok d := by
    intro n hn
    have hd := domainStated_eq_ok.mp hn
    rwa [domainOfSize_n hd]
  have hfor : domainFor R src minBlockedLog = .ok d →
      domainOfSize R src minBlockedLog d.n = .ok d := by
    intro hd
    rw [domainFor] at hd
    split at hd
    · cases hd
    · next hsize =>
        cases hd
        have hle : src.numConstraints + src.numInstance
            ≤ nextPowerOfTwo (max (src.numConstraints + src.numInstance) 1) :=
          (le_max_left _ 1).trans (Nat.le_pow_clog (by decide) _)
        rw [domainOfSize, withSize_n hsize, if_neg (by omega), hsize]
  cases hint with
  | some n => exact hstated n h
  | none =>
      cases stated with
      | some n => exact hstated n h
      | none => exact hfor h

/-- The implied domain has one point more than `H`, or as many. -/
lemma keyDomain_n {hLen : ℕ} {d : Domain F}
    (h : keyDomain R src minBlockedLog hLen = .ok d) : hLen + 1 = d.n ∨ hLen = d.n := by
  rcases keyDomain_eq_ok.mp h with h | ⟨-, h⟩
  · exact Or.inl (domainOfSize_n h).symm
  · exact Or.inr (domainOfSize_n h).symm

/-- From the domain that the pushes start from to the one they settle on. -/
lemma pushDomain_of_start {hLen : ℕ} {hint stated : Option ℕ} {d d₀ : Domain F}
    (hd : keyDomain R src minBlockedLog hLen = .ok d)
    (h₀ : startDomain R src minBlockedLog hint stated = .ok d₀) :
    pushDomain R src minBlockedLog hint stated hLen = .ok (if d₀.n = hLen then d₀ else d) := by
  have hsize := domainOfSize_of_start h₀
  rw [pushDomain, h₀]
  show settledDomain R src minBlockedLog d₀ hLen = _
  rw [settledDomain, hd]
  split_ifs with hother hsame hsame
  · exact absurd hsame.symm hother.2
  · rfl
  · rfl
  · -- the domain of one point more
    have hmore : hLen + 1 = d₀.n := by
      by_contra hne
      exact hother ⟨hne, fun h => hsame h.symm⟩
    rw [← hmore] at hsize
    rcases keyDomain_eq_ok.mp hd with h | ⟨hno, -⟩
    · rw [hsize] at h
      cases h
      rfl
    · exact absurd hsize (hno d₀)

/-- Without an implied domain the pushes find none either. -/
lemma pushDomain_ne_ok {hLen : ℕ} {hint stated : Option ℕ}
    (hd : ∀ d, keyDomain R src minBlockedLog hLen ≠ .ok d) (d' : Domain F) :
    pushDomain R src minBlockedLog hint stated hLen ≠ .ok d' := by
  intro h
  obtain ⟨d₀, h₀, h⟩ := except_bind_eq_ok.mp h
  have hsize := domainOfSize_of_start h₀
  rw [settledDomain] at h
  split_ifs at h with hother
  · cases hk : keyDomain R src minBlockedLog hLen with
    | ok d => exact hd d hk
    | error err =>
        rw [hk] at h
        cases h
  · cases h
    by_cases hmore : hLen + 1 = d'.n
    · exact hd d' (keyDomain_eq_ok.mpr (Or.inl (hmore ▸ hsize)))
    · have hsame : hLen = d'.n := by
        by_contra hne
        exact hother ⟨hmore, hne⟩
      by_cases hsucc : ∃ d₁, domainOfSize R src minBlockedLog (hLen + 1) = .ok d₁
      · obtain ⟨d₁, h₁⟩ := hsucc
        exact hd d₁ (keyDomain_eq_ok.mpr (Or.inl h₁))
      · exact hd d' (keyDomain_eq_ok.mpr (Or.inr ⟨fun d₁ h₁ => hsucc ⟨d₁, h₁⟩, hsame ▸ hsize⟩))

end Domains

/-! ### The two provers -/

section Provers

variable {F : Type} [Field F] {G₁ G₂ GT : Type} [AddCommGroup G₁] [Module F G₁] [AddCommGroup G₂]
  [Module F G₂] [AddCommGroup GT] [Module F GT] [DecidableEq GT]

/-- The quotient on a domain, summed against `H`. -/
def hSum (R : FftField F) (src : ConstraintSource F) (z : List F) (pk : ProvingKey G₁ G₂)
    (d : Domain F) : G₁ :=
  msm pk.hQuery ((quotient R src z d).gather 0 pk.hQuery.length)

variable {R : FftField F} {src : ConstraintSource F} {z : List F} {pk : ProvingKey G₁ G₂}

omit [AddCommGroup G₁] [Module F G₁] [AddCommGroup G₂] [Module F G₂] [AddCommGroup GT] [Module F GT]
  [DecidableEq GT] in
lemma gather_take (q : Quotient F) {off len n : ℕ} (h : off + len ≤ n) :
    q.gather off len = ((q.gather 0 n).drop off).take len := by
  rw [Quotient.gather, Quotient.gather, ← List.map_drop, ← List.map_take, List.drop_range',
    List.take_range'_of_length_ge (by omega), Nat.zero_add, Nat.mul_one]

/-- The proofs on two domains differ only in the sum against `H`. -/
lemma proofOf_eq_iff [DecidableEq F] {r s : F} {d d' : Domain F} {cfg : ProverConfig} :
    proofOf R src z pk r s d cfg = proofOf R src z pk r s d' cfg ↔
      hSum R src z pk d = hSum R src z pk d' := by
  have hacc : ∀ d, streamMsm cfg.msmChunk pk.hQuery (quotientFor R src z d cfg).gather
      = hSum R src z pk d := by
    intro d
    have hq : quotientFor R src z d cfg = quotient R src z d := by
      rw [quotientFor]
      split_ifs
      · exact quotientSpilled_eq R src z d
      · rfl
    have hlen : ((quotient R src z d).gather 0 pk.hQuery.length).length = pk.hQuery.length := by
      simp [Quotient.gather]
    rw [hq, streamMsm_eq cfg.msmChunk hlen.ge fun o l h => gather_take _ h, hSum,
      List.take_of_length_le hlen.le]
  rw [proofOf, proofOf]
  simp only [hacc, Proof.mk.injEq, true_and, add_right_inj]

/-- The quotients of both provers are indistinguishable to the key. -/
def SettlesAlike (R : FftField F) (src : ConstraintSource F) (z : List F) (minBlockedLog : ℕ)
    (hint : Option ℕ) (pk : ProvingKey G₁ G₂) : Prop :=
  KeyFits src pk → ∀ d, keyDomain R src minBlockedLog pk.hQuery.length = .ok d →
    if pk.domain = none ∨ pk.domain = some d.n then
      ∃ d₀, startDomain R src minBlockedLog hint pk.domain = .ok d₀ ∧
        (d₀.n = pk.hQuery.length → d.n = pk.hQuery.length ∨
          hSum R src z pk d₀ = hSum R src z pk d)
    else hint = none ∧ ∀ d₀, startDomain R src minBlockedLog none pk.domain ≠ .ok d₀

/-- It does not matter how the bytes of a file arrive. -/
structure StreamsAlike [DecidableEq F] {C : KeyCodec G₁ G₂} (R : FftField F)
    (e : G₁ →ₗ[F] G₂ →ₗ[F] GT) (src : ConstraintSource F) (z : Assignment src) (minBlockedLog : ℕ)
    (hint : Option ℕ) (file : KeyFile C) : Prop where
  agrees : ∀ cuts : List (List UInt8), cuts.flatten = file.bytes → ∀ (cfg : ProverConfig),
    cfg.minBlockedLog = minBlockedLog → ∀ r s proof,
      pushProve C R e src z r s cfg hint cuts = .ok proof ↔
        proveFile C R e src z file.bytes r s cfg = .ok proof
  emits : ∀ cuts : List (List UInt8), cuts.flatten = file.bytes → ∀ chunk, ∃ log, InOrder file log ∧
    cuts.foldlM (KeyStream.push (fun log event => (.ok (log ++ [event]) : Except Empty _)) C)
      (KeyStream.new chunk, []) = .ok (KeyStream.finished file chunk, log)
  transcodes : ∀ cuts : List (List UInt8), cuts.flatten = file.bytes → ∀ chunk,
    transcode C chunk cuts = .ok (file.uncompressed.bytes, true)
  tees : ∀ chunk, SerializedPk.teeAll C file.bytes chunk = .ok (file.uncompressed.bytes, true)
  fixed : ∀ cuts : List (List UInt8), cuts.flatten = file.uncompressed.bytes → ∀ chunk,
    transcode C chunk cuts = .ok (file.uncompressed.bytes, true)

omit [Field F] [AddCommGroup G₁] [Module F G₁] [AddCommGroup G₂] [Module F G₂] in
/-- What the length checks accept. -/
lemma checkShape_eq_ok {n : ℕ} : checkShape src pk n = .ok () ↔
    KeyFits src pk ∧ (pk.hQuery.length + 1 = n ∨ pk.hQuery.length = n) := by
  have hlen : ∀ {name got want}, checkLen name got want = .ok () ↔ got = want := by
    intro name got want
    rw [checkLen]
    split_ifs with h <;> simp [h]
  rw [checkShape]
  simp only [except_bind_eq_ok, hlen]
  by_cases hdom : pk.hQuery.length + 1 ≠ n ∧ pk.hQuery.length ≠ n
  · simp only [if_pos hdom]
    constructor
    · rintro ⟨_, -, _, -, _, -, _, -, h⟩
      cases h
    · intro h
      rcases h.2 with h' | h'
      · exact absurd h' hdom.1
      · exact absurd h' hdom.2
  · have hor : pk.hQuery.length + 1 = n ∨ pk.hQuery.length = n := by
      by_contra hno
      exact hdom (not_or.mp hno)
    simp only [if_neg hdom]
    by_cases hvk : pk.vk.gammaAbcG1.length = src.numInstance
    · simp only [ne_eq, hvk, not_true_eq_false, if_false]
      constructor
      · rintro ⟨_, ha, _, hb, _, hb2, _, hl, -⟩
        exact ⟨⟨hvk, ha, hb, hb2, hl⟩, hor⟩
      · rintro ⟨h, -⟩
        exact ⟨(), h.a, (), h.b1, (), h.b2, (), h.l, rfl⟩
    · simp only [ne_eq, hvk, not_false_eq_true, if_true]
      constructor
      · rintro ⟨_, -, _, -, _, -, _, -, h⟩
        cases h
      · exact fun h => absurd h.1.vk hvk

omit [AddCommGroup G₁] [AddCommGroup G₂] [Module F G₁] [Module F G₂] [Field F] in
lemma checkHeader_eq_ok {n : ℕ} : checkHeader pk n = .ok () ↔ pk.domain = none ∨ pk.domain = some n := by
  rw [checkHeader]
  cases pk.domain with
  | none => simp
  | some m => by_cases h : m = n <;> simp [h]

variable [DecidableEq F] {C : KeyCodec G₁ G₂} {e : G₁ →ₗ[F] G₂ →ₗ[F] GT}

/-- **What the pull-driven prover returns.** -/
theorem proveFile_eq_ok (file : KeyFile C) {z : Assignment src} {r s : F} {cfg : ProverConfig}
    {proof : Proof G₁ G₂} :
    proveFile C R e src z file.bytes r s cfg = .ok proof ↔
      KeyFits src file.key ∧ ∃ d,
        keyDomain R src cfg.minBlockedLog file.key.hQuery.length = .ok d ∧
        (file.key.domain = none ∨ file.key.domain = some d.n) ∧
        (cfg.selfCheck = true → verify e file.key.vk ((z.vals.take src.numInstance).drop 1)
          (proofOf R src z.vals file.key r s d cfg) = .ok true) ∧
        proof = proofOf R src z.vals file.key r s d cfg := by
  have hmap : (proveImpl R e src z file.key r s cfg).mapError StreamError.prove = .ok proof ↔
      proveImpl R e src z file.key r s cfg = .ok proof := by
    cases proveImpl R e src z file.key r s cfg with
    | error err => simp [Except.mapError]
    | ok q => simp [Except.mapError]
  rw [proveFile_file, hmap, proveImpl_eq_ok]
  simp only [checkHeader_eq_ok, checkShape_eq_ok]
  constructor
  · rintro ⟨d, hd, hstated, ⟨hfits, -⟩, hcheck, hproof⟩
    exact ⟨hfits, d, hd, hstated, hcheck, hproof⟩
  · rintro ⟨hfits, d, hd, hstated, hcheck, hproof⟩
    exact ⟨d, hd, hstated, ⟨hfits, keyDomain_n hd⟩, hcheck, hproof⟩

/-- A hint that is accepted. -/
def Accepted (R : FftField F) (src : ConstraintSource F) (minBlockedLog : ℕ) (hint : Option ℕ) : Prop :=
  ∀ n, hint = some n → ∃ d, domainOfSize R src minBlockedLog n = .ok d

omit [DecidableEq F] in
lemma start_of_accepted {minBlockedLog n : ℕ} (stated : Option ℕ)
    (h : Accepted R src minBlockedLog (some n)) :
    ∃ d, startDomain R src minBlockedLog (some n) stated = .ok d := by
  obtain ⟨d, hd⟩ := h n rfl
  exact ⟨d, domainStated_eq_ok.mpr hd⟩

omit [Module F G₁] [Module F G₂] [DecidableEq F] in
lemma new_of_accepted {hint : Option ℕ} {cfg : ProverConfig}
    (h : Accepted R src cfg.minBlockedLog hint) (z : List F) :
    ∃ p : PushProver F G₁ G₂, PushProver.new R src z cfg hint = .ok p := by
  cases hint with
  | none => exact ⟨_, rfl⟩
  | some n =>
      obtain ⟨d, hd⟩ := h n rfl
      exact ⟨_, by rw [PushProver.new, domainStated_eq_ok.mpr hd]⟩

/-- **The provers agree when they settle alike.** -/
lemma agrees_of_settlesAlike {file : KeyFile C} (hhead : file.head.length ≤ 2 ^ 24)
    {cuts : List (List UInt8)} (hcuts : cuts.flatten = file.bytes) {z : Assignment src}
    {hint : Option ℕ} {cfg : ProverConfig} (hhint : Accepted R src cfg.minBlockedLog hint)
    (h : SettlesAlike R src z.vals cfg.minBlockedLog hint file.key) (r s : F) (proof : Proof G₁ G₂) :
    pushProve C R e src z r s cfg hint cuts = .ok proof ↔
      proveFile C R e src z file.bytes r s cfg = .ok proof := by
  obtain ⟨p, hp⟩ : ∃ p : PushProver F G₁ G₂, PushProver.new R src z.vals cfg hint = .ok p :=
    new_of_accepted hhint z.vals
  rw [pushProve_eq_ok file hhead hcuts hp, proveFile_eq_ok]
  refine and_congr_right fun hfits => ?_
  by_cases hkey : ∃ d, keyDomain R src cfg.minBlockedLog file.key.hQuery.length = .ok d
  · obtain ⟨d, hd⟩ := hkey
    have hsettles := h hfits d hd
    split_ifs at hsettles with hstated
    · obtain ⟨d₀, h₀, hsame⟩ := hsettles
      have hpush := pushDomain_of_start hd h₀
      -- the proof is the same on both domains
      have hproof : proofOf R src z.vals file.key r s
          (if d₀.n = file.key.hQuery.length then d₀ else d) cfg
          = proofOf R src z.vals file.key r s d cfg := by
        split_ifs with hn
        · rcases hsame hn with hdn | hsum
          · have hd₀ := domainOfSize_of_start h₀
            rcases keyDomain_eq_ok.mp hd with hmore | ⟨-, hless⟩
            · have hn' := domainOfSize_n hmore
              omega
            · rw [hn, hless] at hd₀
              cases hd₀
              rfl
          · exact proofOf_eq_iff.mpr hsum
        · rfl
      constructor
      · rintro ⟨d', hd', hcheck, rfl⟩
        rw [hpush] at hd'
        cases hd'
        rw [hproof] at hcheck ⊢
        exact ⟨d, hd, hstated, hcheck, rfl⟩
      · rintro ⟨d', hd', -, hcheck, rfl⟩
        rw [hd] at hd'
        cases hd'
        exact ⟨_, hpush, by rw [hproof]; exact hcheck, by rw [hproof]⟩
    · obtain ⟨rfl, hno⟩ := hsettles
      constructor
      · rintro ⟨d', hd', -⟩
        obtain ⟨d₀, h₀, -⟩ := except_bind_eq_ok.mp hd'
        exact absurd h₀ (hno d₀)
      · rintro ⟨d', hd', hstated', -⟩
        rw [hd] at hd'
        cases hd'
        exact absurd hstated' hstated
  · constructor
    · rintro ⟨d', hd', -⟩
      exact absurd hd' (pushDomain_ne_ok (fun d hd => hkey ⟨d, hd⟩) d')
    · rintro ⟨d, hd, -⟩
      exact absurd ⟨d, hd⟩ hkey

/-- Provers that agree settle alike. -/
lemma settlesAlike_of_agrees {file : KeyFile C} (hhead : file.head.length ≤ 2 ^ 24)
    {z : Assignment src} {hint : Option ℕ} {minBlockedLog : ℕ}
    (hhint : Accepted R src minBlockedLog hint)
    (h : ∀ proof, pushProve C R e src z 0 0 ⟨1, minBlockedLog, false, false⟩ hint [file.bytes]
        = .ok proof ↔
      proveFile C R e src z file.bytes 0 0 ⟨1, minBlockedLog, false, false⟩ = .ok proof) :
    SettlesAlike R src z.vals minBlockedLog hint file.key := by
  obtain ⟨p, hp⟩ : ∃ p : PushProver F G₁ G₂,
      PushProver.new R src z.vals ⟨1, minBlockedLog, false, false⟩ hint = .ok p :=
    new_of_accepted hhint z.vals
  have hcuts : [file.bytes].flatten = file.bytes := by simp
  simp only [pushProve_eq_ok file hhead hcuts hp, proveFile_eq_ok] at h
  intro hfits d hd
  split_ifs with hstated
  · -- the proof that is pulled is pushed as well
    obtain ⟨-, d', hd', -, hproof⟩ := (h _).mpr ⟨hfits, d, hd, hstated, by simp, rfl⟩
    obtain ⟨d₀, h₀, -⟩ := except_bind_eq_ok.mp hd'
    refine ⟨d₀, h₀, fun hn => Or.inr ?_⟩
    have hpush := pushDomain_of_start hd h₀
    rw [if_pos hn, hd'] at hpush
    cases hpush
    exact (proofOf_eq_iff.mp hproof).symm
  · -- a proof that is pushed would be pulled
    have hno : ∀ d₀, startDomain R src minBlockedLog hint file.key.domain ≠ .ok d₀ := by
      intro d₀ h₀
      obtain ⟨-, d', hd', hstated', -⟩ :=
        (h _).mp ⟨hfits, _, pushDomain_of_start hd h₀, by simp, rfl⟩
      rw [hd] at hd'
      cases hd'
      exact hstated hstated'
    have hnone : hint = none := by
      cases hint with
      | none => rfl
      | some n =>
          obtain ⟨d₀, h₀⟩ := start_of_accepted file.key.domain hhint
          exact absurd h₀ (hno d₀)
    exact ⟨hnone, fun d₀ h₀ => hno d₀ (hnone ▸ h₀)⟩

omit [AddCommGroup G₁] [Module F G₁] [AddCommGroup G₂] [Module F G₂] [DecidableEq F] in
/-- A handler that keeps a log. -/
lemma foldlM_log (events log : List (KeyEvent G₁ G₂)) :
    events.foldlM (fun log event => (.ok (log ++ [event]) : Except Empty _)) log
      = .ok (log ++ events) := by
  induction events generalizing log with
  | nil => simp [pure, Except.pure]
  | cons event events ih =>
      rw [List.foldlM_cons]
      refine (ih (log ++ [event])).trans ?_
      rw [List.append_assoc, List.singleton_append]

/-- **When it does not matter how the bytes of a key arrive.** -/
theorem key_streaming (file : KeyFile C) (z : Assignment src) {hint : Option ℕ} {minBlockedLog : ℕ}
    (hhint : Accepted R src minBlockedLog hint) :
    StreamsAlike R e src z minBlockedLog hint file ↔
      file.uncompressed.head.length ≤ 2 ^ 24 ∧
        SettlesAlike R src z.vals minBlockedLog hint file.key := by
  constructor
  · intro h
    have hhead : file.uncompressed.head.length ≤ 2 ^ 24 := by
      by_contra hlong
      obtain ⟨cuts, err, hcuts, hfail⟩ := KeyParser.feed_refuses (transcodeEvent C)
        file.uncompressed (by omega) 1 []
      have hfixed := h.fixed cuts hcuts 1
      have hrun : cuts.foldlM (KeyStream.push (transcodeEvent C) C) (KeyStream.new 1, [])
          = .error (.malformedHeader err) := by
        rw [KeyStream.foldlM_push]
        show cuts.foldlM (KeyParser.feed (transcodeEvent C) C) (KeyParser.new 1, []) >>= _ = _
        rw [hfail]
        rfl
      rw [transcode, hrun] at hfixed
      cases hfixed
    exact ⟨hhead, settlesAlike_of_agrees (file.length_head_le.trans hhead) hhint fun proof =>
      h.agrees [file.bytes] (by simp) _ rfl 0 0 proof⟩
  · rintro ⟨hhead, hsettles⟩
    have hhead' := file.length_head_le.trans hhead
    refine ⟨fun cuts hcuts cfg hcfg r s proof => ?_, fun cuts hcuts chunk => ?_,
      fun cuts hcuts chunk => transcode_file file hhead' chunk hcuts,
      fun chunk => SerializedPk.teeAll_file file chunk, fun cuts hcuts chunk => ?_⟩
    · subst hcfg
      exact agrees_of_settlesAlike hhead' hcuts hhint hsettles r s proof
    · refine ⟨file.events chunk, inOrder_events file chunk, ?_⟩
      rw [KeyStream.push_file file hhead' chunk hcuts, foldlM_log]
      rfl
    · have h := transcode_file file.uncompressed hhead chunk hcuts
      rwa [KeyFile.uncompressed_uncompressed] at h

end Provers

/-! ### A radix-2 key and a smooth hint -/

section Small

instance fact_prime_thirteen : Fact (Nat.Prime 13) := ⟨by decide⟩

/-- The fourth and the third roots of one modulo `13`. -/
def fieldOfThirteen : FftField (ZMod 13) where
  getRootOfUnity n := if n = 4 then some 5 else if n = 3 then some 3 else none
  GENERATOR := 2
  primitive n ω h := by
    split_ifs at h with h4 h3
    · cases h
      subst h4
      refine IsPrimitiveRoot.mk_of_lt 5 (by decide) (by decide) fun l hpos hlt => ?_
      interval_cases l <;> decide
    · cases h
      subst h3
      refine IsPrimitiveRoot.mk_of_lt 3 (by decide) (by decide) fun l hpos hlt => ?_
      interval_cases l <;> decide
  generator_ne_zero := by decide
  off_domain n ω _ h := by
    split_ifs at h with h4 h3
    · subst h4
      decide
    · subst h3
      decide

lemma positions_twoRows : ∀ r ∈ ([fun _ => [(1, 1)], fun _ => [(1, 1)]] : List (Row (ZMod 13))),
    ∀ m, ∀ t ∈ r m, t.1 < 2 := by simp

/-- `x * x = x`, twice: three rows with the one for the constant. -/
def twoRows : ConstraintSource (ZMod 13) where
  rows := [fun _ => [(1, 1)], fun _ => [(1, 1)]]
  numInstance := 1
  numVars := 2
  instance_pos := Nat.one_pos
  instance_le := Nat.le_add_left 1 1
  positions := positions_twoRows

/-- Secrets modulo `13`. -/
def secretsOfThirteen : Toxic (ZMod 13) (ZMod 13) (ZMod 13) :=
  ⟨2, 3, 4, 2, 2, 1, 1, by decide, by decide⟩

/-- Residues as points. -/
def residueCodec (g2 : Bool) : PointCodec (ZMod 13) g2 where
  encode c P := Codec.leBytes (pointBytes g2 c) P.val
  decode c bs := if bs.length = pointBytes g2 c then some (Codec.fromBytesLe bs) else none
  length_encode _ _ := Codec.length_leBytes _ _
  decode_encode c P := by
    have hval : P.val < 256 ^ pointBytes g2 c :=
      (ZMod.val_lt P).trans_le ((by decide : 13 ≤ 256 ^ 1).trans
        (Nat.pow_le_pow_right (by decide) (pointBytes_pos g2 c)))
    rw [if_pos (Codec.length_leBytes _ _), Codec.fromBytesLe_leBytes, Nat.mod_eq_of_lt hval,
      ZMod.natCast_zmod_val]

/-- The key of the setup on the radix-2 domain of four points, uncompressed. -/
def radixTwoKey : KeyFile ⟨residueCodec false, residueCodec true⟩ where
  version := .v2 false 4
  key := devKey twoRows secretsOfThirteen 5 4
  domain_eq := rfl
  domain_lt n hn := by
    cases hn
    decide
  plain h := by cases h
  fits := by decide +kernel

lemma accepted_thirteen {n : ℕ} (hn : Supported n) (hfit : 3 ≤ n) {ω : ZMod 13}
    (hroot : fieldOfThirteen.getRootOfUnity n = some ω) :
    Accepted fieldOfThirteen twoRows 10 (some n) := by
  intro m hm
  cases hm
  obtain ⟨d, hd, -⟩ := withSize_supported fieldOfThirteen 10 hn hroot
  refine ⟨d, ?_⟩
  have hrows : ¬n < twoRows.numConstraints + twoRows.numInstance := Nat.not_lt.mpr hfit
  rw [domainOfSize, if_neg hrows, hd]

lemma fits_thirteen : KeyFits twoRows radixTwoKey.key :=
  ⟨by decide +kernel, by decide +kernel, by decide +kernel, by decide +kernel, by decide +kernel⟩

lemma hLen_thirteen : radixTwoKey.key.hQuery.length = 3 := by decide +kernel

/-- The hint that names the domain of the key. -/
theorem key_streaming_four :
    StreamsAlike fieldOfThirteen (LinearMap.mul (ZMod 13) (ZMod 13)) twoRows ⟨[1, 1], rfl⟩ 10 (some 4)
      radixTwoKey := by
  have hhint : Accepted fieldOfThirteen twoRows 10 (some 4) :=
    accepted_thirteen ⟨1, by decide, 2, rfl⟩ (by decide) (ω := 5) rfl
  refine (key_streaming radixTwoKey ⟨[1, 1], rfl⟩ hhint).mpr ⟨by decide +kernel, ?_⟩
  intro _ d hd
  obtain ⟨d', hd', hn, -⟩ := keyDomain_ok fieldOfThirteen twoRows 10 (n := 4)
    ⟨1, by decide, 2, rfl⟩ (ω := 5) rfl (by decide)
  rw [hLen_thirteen, hd'] at hd
  cases hd
  have hstated : radixTwoKey.key.domain = some d.n := by
    rw [hn]
    rfl
  rw [if_pos (Or.inr hstated)]
  obtain ⟨d₀, h₀⟩ := start_of_accepted radixTwoKey.key.domain hhint
  refine ⟨d₀, h₀, fun h => ?_⟩
  rw [hLen_thirteen, domainOfSize_n (domainStated_eq_ok.mp h₀)] at h
  exact absurd h (by decide)

/-- **The size of a smooth domain as a hint, for a radix-2 key**: the hint is as large as `H`, and its
quotient is summed against a key for another domain. -/
theorem key_streaming_fails : Accepted fieldOfThirteen twoRows 10 (some 3) ∧
    ¬StreamsAlike fieldOfThirteen (LinearMap.mul (ZMod 13) (ZMod 13)) twoRows ⟨[1, 1], rfl⟩ 10 (some 3)
      radixTwoKey := by
  have hhint : Accepted fieldOfThirteen twoRows 10 (some 3) :=
    accepted_thirteen ⟨3, by decide, 0, rfl⟩ le_rfl (ω := 3) rfl
  refine ⟨hhint, fun h => ?_⟩
  have hsettles := settlesAlike_of_agrees (by decide +kernel) hhint fun proof =>
    h.agrees [radixTwoKey.bytes] (by simp) _ rfl 0 0 proof
  obtain ⟨d, hd, hn, -⟩ := keyDomain_ok fieldOfThirteen twoRows 10 (n := 4)
    ⟨1, by decide, 2, rfl⟩ (ω := 5) rfl (by decide)
  have hstated : radixTwoKey.key.domain = some d.n := by
    rw [hn]
    rfl
  have hall := hsettles fits_thirteen d (by rw [hLen_thirteen]; exact hd)
  rw [if_pos (Or.inr hstated), hLen_thirteen, hn] at hall
  obtain ⟨d₀, h₀, hsame⟩ := hall
  have h₃ := domainStated_eq_ok.mp h₀
  -- the quotients on three and on four points
  have hsums : (Domain.withSize fieldOfThirteen 10 3).map
      (hSum fieldOfThirteen twoRows [1, 1] radixTwoKey.key)
      ≠ (Domain.withSize fieldOfThirteen 10 4).map
        (hSum fieldOfThirteen twoRows [1, 1] radixTwoKey.key) := by decide +kernel
  have h₄ : domainOfSize fieldOfThirteen twoRows 10 4 = .ok d := by
    rcases keyDomain_eq_ok.mp hd with h | ⟨-, h⟩
    · exact h
    · have hthree := domainOfSize_n h
      omega
  rw [withSize_of_domainOfSize h₃, withSize_of_domainOfSize h₄] at hsums
  rcases hsame (domainOfSize_n h₃) with hn' | hsum
  · exact absurd hn' (by decide)
  · exact hsums (congrArg some hsum)

end Small

end Groth16

end XarkCircuit
