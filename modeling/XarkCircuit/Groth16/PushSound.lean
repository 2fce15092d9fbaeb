import XarkCircuit.Groth16.Push
import XarkCircuit.Groth16.QapSound

/-!
What the push-driven prover returns on a well-formed file.

* `Fold.foldlM_vectorG1` and `Fold.foldlM_vectorG2`: the events of a vector check its length and add its
  sum.
* `pushProve_eq_ok`: however the file is cut, a proof comes out exactly when the lengths fit, the domain
  is settled and the self-check passes; it is the proof with the quotient of `pushDomain`.
-/

namespace XarkCircuit

namespace Groth16

/-- A sequence returns exactly when both of its parts do. -/
lemma except_bind_eq_ok {α β ε : Type} {x : Except ε α} {g : α → Except ε β} {b : β} :
    x >>= g = .ok b ↔ ∃ a, x = .ok a ∧ g a = .ok b := by
  cases x with
  | error e =>
      refine ⟨fun h => ?_, fun ⟨a, ha, _⟩ => ?_⟩
      · cases h
      · cases ha
  | ok a =>
      refine ⟨fun h => ⟨a, rfl, h⟩, fun ⟨a', ha, h⟩ => ?_⟩
      cases ha
      exact h

/-! ### The sums -/

namespace Fold

section Sums

variable {F G₁ G₂ : Type}

@[simp] lemma h_addG1 [AddCommGroup G₁] (v : KeyVector) (P : G₁) (s : Fold F G₁ G₂) :
    (s.addG1 v P).h = s.h := by
  cases v <;> rfl

@[simp] lemma addG1_zero [AddCommGroup G₁] (v : KeyVector) (s : Fold F G₁ G₂) : s.addG1 v 0 = s := by
  cases v <;> simp [addG1]

@[simp] lemma addG1_addG1 [AddCommGroup G₁] (v : KeyVector) (P Q : G₁) (s : Fold F G₁ G₂) :
    (s.addG1 v P).addG1 v Q = s.addG1 v (P + Q) := by
  cases v <;> simp [addG1, add_assoc]

@[simp] lemma addG2_zero [AddCommGroup G₂] (s : Fold F G₁ G₂) : s.addG2 0 = s := by simp [addG2]

@[simp] lemma addG2_addG2 [AddCommGroup G₂] (P Q : G₂) (s : Fold F G₁ G₂) :
    (s.addG2 P).addG2 Q = s.addG2 (P + Q) := by
  simp [addG2, add_assoc]

end Sums

/-! ### The events of a vector -/

section Events

variable {F : Type} [Field F] {G₁ G₂ : Type} [AddCommGroup G₁] [Module F G₁] [AddCommGroup G₂]
  [Module F G₂] {C : KeyCodec G₁ G₂} {src : ConstraintSource F} {z : List F} (R : FftField F)
  (cfg : ProverConfig)

/-- The chunks of a vector, each added to its sum. -/
lemma foldlM_chunks {G : Type} [AddCommGroup G] [Module F G] {v : KeyVector} {c : Bool}
    {enc : G → List UInt8} (add : G → Fold F G₁ G₂) (sc : ℕ → ℕ → List F)
    (hstep : ∀ acc off pts, (add acc).fold C src z v off (pts.map enc).flatten c
      = .ok (add (acc + msm pts (sc off pts.length)))) (chunk : ℕ) (pts : List G) :
    ((chunks (max chunk 1) (pts.map enc)).map fun p =>
        KeyEvent.points v p.1 p.2.flatten c).foldlM (event C R src z cfg) (add 0)
      = .ok (add (streamMsm chunk pts sc)) := by
  have key : ∀ (cs : List (ℕ × List G)) (acc : G),
      (cs.map fun p => KeyEvent.points v p.1 (p.2.map enc).flatten c).foldlM
        (event C R src z cfg) (add acc)
        = .ok (add (cs.foldl (fun acc p => acc + msm p.2 (sc p.1 p.2.length)) acc)) := by
    intro cs
    induction cs with
    | nil => intro acc; rfl
    | cons p cs ih =>
        intro acc
        rw [List.map_cons, List.foldlM_cons, event, hstep]
        exact ih _
  rw [chunks_map, List.map_map, ← foldl_chunks_eq chunk sc pts]
  exact key _ 0

/-- The points of a chunk, counted. -/
lemma length_chunk {G : Type} {g2 : Bool} (D : PointCodec G g2) (c : Bool) (pts : List G) :
    (pts.map (D.encode c)).flatten.length / pointBytes g2 c = pts.length := by
  rw [← List.flatMap_def, length_flatMap_encode, Nat.mul_div_cancel _ (pointBytes_pos g2 c)]

/-- The events of a vector of the first group, once its length is accepted. -/
lemma foldlM_vectorG1 {v : KeyVector} (hv : v.isG2 = false) {c : Bool} {pts : List G₁}
    {s : Fold F G₁ G₂} (sc : ℕ → ℕ → List F)
    (hsc : ∀ (t : Fold F G₁ G₂), t.h = s.h → ∀ off n, scalars src z t v off n = .ok (sc off n)) :
    ((chunks (max cfg.msmChunk 1) (pts.map (C.g1.encode c))).map fun p =>
        KeyEvent.points v p.1 p.2.flatten c).foldlM (event C R src z cfg) s
      = .ok (s.addG1 v (streamMsm cfg.msmChunk pts sc)) := by
  have hstep : ∀ acc off (pts : List G₁),
      (s.addG1 v acc).fold C src z v off (pts.map (C.g1.encode c)).flatten c
        = .ok (s.addG1 v (acc + msm pts (sc off pts.length))) := by
    intro acc off pts
    rw [fold, hv, length_chunk, hsc _ (h_addG1 v acc s)]
    simp [decodeAll_encode]
  have hchunks := foldlM_chunks R cfg (fun P => s.addG1 v P) sc hstep cfg.msmChunk pts
  rwa [addG1_zero] at hchunks

/-- The events of the vector of the second group, once its length is accepted. -/
lemma foldlM_vectorG2 (c : Bool) (pts : List G₂) (s : Fold F G₁ G₂) :
    ((chunks (max cfg.msmChunk 1) (pts.map (C.g2.encode c))).map fun p =>
        KeyEvent.points .BG2 p.1 p.2.flatten c).foldlM (event C R src z cfg) s
      = .ok (s.addG2 (streamMsm cfg.msmChunk pts fun off n => (z.drop off).take n)) := by
  have hstep : ∀ acc off (pts : List G₂),
      (s.addG2 acc).fold C src z .BG2 off (pts.map (C.g2.encode c)).flatten c
        = .ok (s.addG2 (acc + msm pts ((z.drop off).take pts.length))) := by
    intro acc off pts
    have hlen := length_chunk C.g2 c pts
    simp only [fold, KeyVector.isG2, scalars, hlen, decodeAll_encode, addG2_addG2]
    rfl
  have hchunks := foldlM_chunks R cfg (fun P => s.addG2 P) (fun off n => (z.drop off).take n) hstep
    cfg.msmChunk pts
  rwa [addG2_zero] at hchunks

/-- A vector whose length is known from the circuit. -/
lemma foldlM_checked {v : KeyVector} {points : List (List UInt8)} {c : Bool} {want : ℕ}
    (hlen : ∀ s : Fold F G₁ G₂, ∀ n, event C R src z cfg s (.len v n) = s.checkLength v n want)
    {s t s' : Fold F G₁ G₂}
    (hpts : ((chunks (max cfg.msmChunk 1) points).map fun p =>
        KeyEvent.points v p.1 p.2.flatten c).foldlM (event C R src z cfg) s = .ok t) :
    (vectorEvents v c (max cfg.msmChunk 1) points).foldlM (event C R src z cfg) s = .ok s' ↔
      points.length = want ∧ s' = t := by
  rw [vectorEvents, List.foldlM_cons, hlen, checkLength]
  split_ifs with h
  · refine ⟨fun h' => ⟨h, ?_⟩, fun h' => ?_⟩
    · have hok : Except.ok t = Except.ok s' := hpts.symm.trans h'
      cases hok
      rfl
    · rw [h'.2]
      exact hpts
  · refine ⟨fun h' => ?_, fun h' => absurd h'.1 h⟩
    cases h'

/-- The fold after a whole file, for the quotient on domain `d`. -/
def folded (R : FftField F) (src : ConstraintSource F) (z : List F) (cfg : ProverConfig)
    (pk : ProvingKey G₁ G₂) (d : Domain F) : Fold F G₁ G₂ where
  h := some (quotientFor R src z d cfg)
  header := some (pk.vk, pk.betaG1, pk.deltaG1)
  a := streamMsm cfg.msmChunk pk.aQuery fun off n => (z.drop off).take n
  b1 := streamMsm cfg.msmChunk pk.bG1Query fun off n => (z.drop off).take n
  b2 := streamMsm cfg.msmChunk pk.bG2Query fun off n => (z.drop off).take n
  hAcc := streamMsm cfg.msmChunk pk.hQuery (quotientFor R src z d cfg).gather
  l := streamMsm cfg.msmChunk pk.lQuery fun off n => (z.drop (src.numInstance + off)).take n

end Events

end Fold

section Run

variable {F : Type} [Field F] {G₁ G₂ : Type} [AddCommGroup G₁] [Module F G₁] [AddCommGroup G₂]
  [Module F G₂] {C : KeyCodec G₁ G₂} {src : ConstraintSource F} {z : List F} {R : FftField F}
  {cfg : ProverConfig}

lemma length_quotientFor (d : Domain F) : (quotientFor R src z d cfg).len = d.n := by
  rw [quotientFor, Quotient.len]
  split_ifs
  · rw [quotientSpilled_eq]
    simp [Groth16.quotient, Domain.fromCosetToT, Domain.cosetScaleT]
  · simp [Groth16.quotient, Domain.fromCosetToT, Domain.cosetScaleT]

omit [AddCommGroup G₁] [Module F G₁] [AddCommGroup G₂] [Module F G₂] in
/-- The length of `H`, for the handler and for the domain. -/
lemma settle_eq_ok {s s' : Fold F G₁ G₂} {d : Domain F}
    (hs : s.h = some (quotientFor R src z d cfg)) {len : ℕ} :
    s.settle R src z cfg len = .ok s' ↔
      ∃ d', settledDomain R src cfg.minBlockedLog d len = .ok d' ∧ s' = s.quotient R src z cfg d' := by
  have hsame : s.quotient R src z cfg d = s := by rw [Fold.quotient, ← hs]
  rw [Fold.settle, hs, settledDomain]
  simp only [Option.map_some, Option.getD_some, length_quotientFor]
  split_ifs with h
  · cases keyDomain R src cfg.minBlockedLog len with
    | error msg =>
        refine ⟨fun h => ?_, fun ⟨_, h, _⟩ => ?_⟩
        · cases h
        · cases h
    | ok d' =>
        refine ⟨fun h => ⟨d', rfl, ?_⟩, fun ⟨_, h, h'⟩ => ?_⟩
        · cases h
          rfl
        · cases h
          rw [h']
  · refine ⟨fun h => ⟨d, rfl, ?_⟩, fun ⟨_, h, h'⟩ => ?_⟩
    · cases h
      exact hsame.symm
    · cases h
      rw [h', hsame]

/-- The events of `H`. -/
lemma foldlM_H {s s' : Fold F G₁ G₂} {d : Domain F} (hs : s.h = some (quotientFor R src z d cfg))
    (c : Bool) (pts : List G₁) :
    (vectorEvents .H c (max cfg.msmChunk 1) (pts.map (C.g1.encode c))).foldlM
        (Fold.event C R src z cfg) s = .ok s' ↔
      ∃ d', settledDomain R src cfg.minBlockedLog d pts.length = .ok d' ∧
        s' = (s.quotient R src z cfg d').addG1 .H
          (streamMsm cfg.msmChunk pts (quotientFor R src z d' cfg).gather) := by
  have hpts : ∀ d', ((chunks (max cfg.msmChunk 1) (pts.map (C.g1.encode c))).map fun p =>
      KeyEvent.points .H p.1 p.2.flatten c).foldlM (Fold.event C R src z cfg)
        (s.quotient R src z cfg d')
      = .ok ((s.quotient R src z cfg d').addG1 .H
          (streamMsm cfg.msmChunk pts (quotientFor R src z d' cfg).gather)) := by
    intro d'
    refine Fold.foldlM_vectorG1 R cfg rfl _ fun t ht off n => ?_
    rw [Fold.scalars, ht]
    rfl
  have hlen : Fold.event C R src z cfg s (.len .H (pts.map (C.g1.encode c)).length)
      = s.settle R src z cfg pts.length := by
    rw [List.length_map]
    rfl
  rw [vectorEvents, List.foldlM_cons, hlen, except_bind_eq_ok]
  constructor
  · rintro ⟨t, ht, h⟩
    obtain ⟨d', hd', rfl⟩ := (settle_eq_ok hs).mp ht
    rw [hpts] at h
    cases h
    exact ⟨d', hd', rfl⟩
  · rintro ⟨d', hd', rfl⟩
    exact ⟨_, (settle_eq_ok hs).mpr ⟨d', hd', rfl⟩, hpts d'⟩

/-- **The vectors of a file**, once the header has left a quotient. -/
theorem foldlM_vectors_eq_ok (file : KeyFile C) {d : Domain F} {s' : Fold F G₁ G₂} :
    (ORDER.flatMap fun v => vectorEvents v file.version.compressed (max cfg.msmChunk 1)
        (file.points v)).foldlM (Fold.event C R src z cfg)
      { Fold.empty (some (quotientFor R src z d cfg)) with
        header := some (file.key.vk, file.key.betaG1, file.key.deltaG1) } = .ok s' ↔
      (file.key.aQuery.length = src.numVars ∧ file.key.bG1Query.length = src.numVars ∧
        file.key.bG2Query.length = src.numVars ∧ file.key.lQuery.length = src.numWitness) ∧
      ∃ d', settledDomain R src cfg.minBlockedLog d file.key.hQuery.length = .ok d' ∧
        s' = Fold.folded R src z cfg file.key d' := by
  have hG1 : ∀ (v : KeyVector), v.isG2 = false → ∀ (pts : List G₁) (sc : ℕ → ℕ → List F),
      (∀ t off n, Fold.scalars src z t v off n = .ok (sc off n)) → ∀ s : Fold F G₁ G₂,
      ((chunks (max cfg.msmChunk 1) (pts.map (C.g1.encode file.version.compressed))).map fun p =>
          KeyEvent.points v p.1 p.2.flatten file.version.compressed).foldlM
            (Fold.event C R src z cfg) s
        = .ok (s.addG1 v (streamMsm cfg.msmChunk pts sc)) :=
    fun v hv pts sc hsc s => Fold.foldlM_vectorG1 R cfg hv sc fun t _ => hsc t
  have hA := hG1 .A rfl file.key.aQuery (fun off n => (z.drop off).take n) fun _ _ _ => rfl
  have hB := hG1 .BG1 rfl file.key.bG1Query (fun off n => (z.drop off).take n) fun _ _ _ => rfl
  have hL := hG1 .L rfl file.key.lQuery (fun off n => (z.drop (src.numInstance + off)).take n)
    fun _ _ _ => rfl
  have hB2 : ∀ s : Fold F G₁ G₂,
      ((chunks (max cfg.msmChunk 1)
          (file.key.bG2Query.map (C.g2.encode file.version.compressed))).map fun p =>
            KeyEvent.points .BG2 p.1 p.2.flatten file.version.compressed).foldlM
              (Fold.event C R src z cfg) s
        = .ok (s.addG2 (streamMsm cfg.msmChunk file.key.bG2Query
            fun off n => (z.drop off).take n)) :=
    Fold.foldlM_vectorG2 R cfg file.version.compressed file.key.bG2Query
  simp only [ORDER, List.flatMap_cons, List.flatMap_nil, List.foldlM_append, except_bind_eq_ok,
    List.foldlM_nil]
  constructor
  · rintro ⟨s₁, h₁, s₂, h₂, s₃, h₃, s₄, h₄, s₅, h₅, h₆⟩
    obtain ⟨ha, rfl⟩ := (Fold.foldlM_checked R cfg (fun _ _ => rfl) (hA _)).mp h₁
    obtain ⟨hb, rfl⟩ := (Fold.foldlM_checked R cfg (fun _ _ => rfl) (hB _)).mp h₂
    obtain ⟨hb2, rfl⟩ := (Fold.foldlM_checked R cfg (fun _ _ => rfl) (hB2 _)).mp h₃
    obtain ⟨d', hd', rfl⟩ := (foldlM_H (d := d) rfl _ _).mp h₄
    obtain ⟨hl, rfl⟩ := (Fold.foldlM_checked R cfg (fun _ _ => rfl) (hL _)).mp h₅
    rw [List.length_map] at ha hb hb2 hl
    refine ⟨⟨ha, hb, hb2, hl⟩, d', hd', ?_⟩
    cases h₆
    simp [Fold.folded, Fold.addG1, Fold.addG2, Fold.quotient, Fold.empty]
  · rintro ⟨⟨ha, hb, hb2, hl⟩, d', hd', rfl⟩
    rw [← List.length_map (C.g1.encode file.version.compressed)] at ha hb hl
    rw [← List.length_map (C.g2.encode file.version.compressed)] at hb2
    refine ⟨_, (Fold.foldlM_checked R cfg (fun _ _ => rfl) (hA _)).mpr ⟨ha, rfl⟩,
      _, (Fold.foldlM_checked R cfg (fun _ _ => rfl) (hB _)).mpr ⟨hb, rfl⟩,
      _, (Fold.foldlM_checked R cfg (fun _ _ => rfl) (hB2 _)).mpr ⟨hb2, rfl⟩,
      _, (foldlM_H (d := d) rfl _ _).mpr ⟨d', hd', rfl⟩,
      _, (Fold.foldlM_checked R cfg (fun _ _ => rfl) (hL _)).mpr ⟨hl, rfl⟩, ?_⟩
    simp [Fold.folded, Fold.addG1, Fold.addG2, Fold.quotient, Fold.empty, pure, Except.pure]

/-- The header leaves the quotient on the domain that the push starts with. -/
lemma event_header_eq_ok (file : KeyFile C) {hint : Option ℕ} {p : PushProver F G₁ G₂}
    (hp : PushProver.new R src z cfg hint = .ok p) {s : Fold F G₁ G₂} :
    Fold.event C R src z cfg p.fold file.headerEvent = .ok s ↔
      file.key.vk.gammaAbcG1.length = src.numInstance ∧
      ∃ d, startDomain R src cfg.minBlockedLog hint file.key.domain = .ok d ∧
        s = { Fold.empty (some (quotientFor R src z d cfg)) with
          header := some (file.key.vk, file.key.betaG1, file.key.deltaG1) } := by
  rw [KeyFile.headerEvent, Fold.event]
  by_cases hvk : file.key.vk.gammaAbcG1.length = src.numInstance
  · rw [if_neg (not_not.mpr hvk)]
    cases hint with
    | none =>
        cases hp
        have hstart : startDomain R src cfg.minBlockedLog none file.key.domain
            = headerDomain R src cfg.minBlockedLog file.key.domain := rfl
        rw [hstart]
        cases hd : headerDomain R src cfg.minBlockedLog file.key.domain with
        | error err => simp [Fold.empty]
        | ok d =>
            simp only [Fold.empty, Fold.quotient, hvk, true_and, Except.ok.injEq, exists_eq_left']
            exact eq_comm
    | some n =>
        rw [PushProver.new] at hp
        have hstart : startDomain R src cfg.minBlockedLog (some n) file.key.domain
            = domainStated R src cfg.minBlockedLog n := rfl
        rw [hstart]
        cases hd : domainStated R src cfg.minBlockedLog n with
        | error err =>
            rw [hd] at hp
            cases hp
        | ok d =>
            rw [hd] at hp
            cases hp
            simp only [Fold.empty, hvk, true_and, Except.ok.injEq, exists_eq_left']
            exact eq_comm
  · rw [if_pos hvk]
    refine ⟨fun h => ?_, fun h => absurd h.1 hvk⟩
    cases h

/-- The handler over all events of a file. -/
lemma foldlM_events_eq_ok (file : KeyFile C) {hint : Option ℕ} {p : PushProver F G₁ G₂}
    (hp : PushProver.new R src z cfg hint = .ok p) {s : Fold F G₁ G₂} :
    (file.events cfg.msmChunk).foldlM (Fold.event C R src z cfg) p.fold = .ok s ↔
      KeyFits src file.key ∧ ∃ d,
        pushDomain R src cfg.minBlockedLog hint file.key.domain file.key.hQuery.length = .ok d ∧
        s = Fold.folded R src z cfg file.key d := by
  rw [KeyFile.events, List.foldlM_cons, except_bind_eq_ok]
  constructor
  · rintro ⟨s₁, h₁, h⟩
    obtain ⟨hvk, d, hd, rfl⟩ := (event_header_eq_ok file hp).mp h₁
    obtain ⟨⟨ha, hb, hb2, hl⟩, d', hd', rfl⟩ := (foldlM_vectors_eq_ok file).mp h
    exact ⟨⟨hvk, ha, hb, hb2, hl⟩, d', except_bind_eq_ok.mpr ⟨d, hd, hd'⟩, rfl⟩
  · rintro ⟨⟨hvk, ha, hb, hb2, hl⟩, d', hd, rfl⟩
    obtain ⟨d, hd, hd'⟩ := except_bind_eq_ok.mp hd
    exact ⟨_, (event_header_eq_ok file hp).mpr ⟨hvk, d, hd, rfl⟩,
      (foldlM_vectors_eq_ok file).mpr ⟨⟨ha, hb, hb2, hl⟩, d', hd', rfl⟩⟩

omit [Module F G₁] [Module F G₂] in
lemma PushProver.new_ks {hint : Option ℕ} {p : PushProver F G₁ G₂}
    (hp : PushProver.new R src z cfg hint = .ok p) : p.ks = .new cfg.msmChunk := by
  cases hint with
  | none =>
      cases hp
      rfl
  | some n =>
      rw [PushProver.new] at hp
      split at hp <;> cases hp
      rfl

/-- Pushing pieces is running the stream on them. -/
lemma PushProver.foldlM_push (cuts : List (List UInt8)) (p : PushProver F G₁ G₂) :
    cuts.foldlM (PushProver.push C R src z cfg) p
      = match cuts.foldlM (KeyStream.push (Fold.event C R src z cfg) C) (p.ks, p.fold) with
        | .error err => .error err.toStreamError
        | .ok (ks, fold) => .ok ⟨fold, ks⟩ := by
  induction cuts generalizing p with
  | nil => rfl
  | cons c cuts ih =>
      rw [List.foldlM_cons, List.foldlM_cons, PushProver.push]
      cases KeyStream.push (Fold.event C R src z cfg) C (p.ks, p.fold) c with
      | error err => rfl
      | ok q => exact ih ⟨q.2, q.1⟩

/-- The prover after a whole file. -/
lemma PushProver.foldlM_file (file : KeyFile C) (hhead : file.head.length ≤ 2 ^ 24)
    {cuts : List (List UInt8)} (hcuts : cuts.flatten = file.bytes) {hint : Option ℕ}
    {p : PushProver F G₁ G₂} (hp : PushProver.new R src z cfg hint = .ok p) :
    cuts.foldlM (PushProver.push C R src z cfg) p
      = (file.events cfg.msmChunk).foldlM (Fold.event C R src z cfg) p.fold >>= fun fold =>
        .ok ⟨fold, .finished file cfg.msmChunk⟩ := by
  rw [PushProver.foldlM_push, PushProver.new_ks hp, KeyStream.push_file file hhead _ hcuts]
  cases (file.events cfg.msmChunk).foldlM (Fold.event C R src z cfg) p.fold <;> rfl

variable [DecidableEq F] {GT : Type} [AddCommGroup GT] [Module F GT] [DecidableEq GT]

/-- A proof passes its check, or there was none. -/
lemma selfChecked_eq_ok {e : G₁ →ₗ[F] G₂ →ₗ[F] GT} {vk : VerifyingKey G₁ G₂} {check : Bool}
    {proof proof' : Proof G₁ G₂} :
    selfChecked e src z vk check proof = .ok proof' ↔
      (check = true → verify e vk ((z.take src.numInstance).drop 1) proof = .ok true) ∧
        proof' = proof := by
  rw [selfChecked]
  split_ifs with hcheck
  · split
    · next hv =>
        refine ⟨fun h => ⟨fun _ => hv, ?_⟩, fun h => by rw [h.2]⟩
        cases h
        rfl
    · next hv =>
        refine ⟨fun h => ?_, fun h => absurd (h.1 hcheck) hv⟩
        cases hu : firstUnsatisfied src z <;> rw [hu] at h <;> cases h
  · refine ⟨fun h => ⟨fun hc => absurd hc hcheck, ?_⟩, fun h => by rw [h.2]⟩
    cases h
    rfl

/-- **What the push-driven prover returns**, however the file is cut. -/
theorem pushProve_eq_ok (file : KeyFile C) (hhead : file.head.length ≤ 2 ^ 24)
    {cuts : List (List UInt8)} (hcuts : cuts.flatten = file.bytes) {e : G₁ →ₗ[F] G₂ →ₗ[F] GT}
    {z : Assignment src} {r s : F} {hint : Option ℕ} {p : PushProver F G₁ G₂}
    (hp : PushProver.new R src z.vals cfg hint = .ok p) {proof : Proof G₁ G₂} :
    pushProve C R e src z r s cfg hint cuts = .ok proof ↔
      KeyFits src file.key ∧ ∃ d,
        pushDomain R src cfg.minBlockedLog hint file.key.domain file.key.hQuery.length = .ok d ∧
        (cfg.selfCheck = true → verify e file.key.vk ((z.vals.take src.numInstance).drop 1)
          (proofOf R src z.vals file.key r s d cfg) = .ok true) ∧
        proof = proofOf R src z.vals file.key r s d cfg := by
  have hfinish : ∀ d, PushProver.finish e src z.vals cfg
      ⟨Fold.folded R src z.vals cfg file.key d, .finished file cfg.msmChunk⟩ r s
      = (selfChecked e src z.vals file.key.vk cfg.selfCheck
          (proofOf R src z.vals file.key r s d cfg)).mapError StreamError.prove := by
    intro d
    have hproof : assemble file.key.vk file.key.betaG1 file.key.deltaG1 r s
        (Fold.folded R src z.vals cfg file.key d).a (Fold.folded R src z.vals cfg file.key d).b1
        (Fold.folded R src z.vals cfg file.key d).b2 (Fold.folded R src z.vals cfg file.key d).hAcc
        (Fold.folded R src z.vals cfg file.key d).l = proofOf R src z.vals file.key r s d cfg := by
      rw [assemble, proofOf]
      by_cases hr : r = 0
      · simp only [hr, if_pos]
        rfl
      · simp only [hr, if_false]
        rfl
    rw [← hproof]
    rfl
  have hmap : ∀ d, (selfChecked e src z.vals file.key.vk cfg.selfCheck
      (proofOf R src z.vals file.key r s d cfg)).mapError StreamError.prove = .ok proof ↔
      selfChecked e src z.vals file.key.vk cfg.selfCheck
        (proofOf R src z.vals file.key r s d cfg) = .ok proof := by
    intro d
    cases selfChecked e src z.vals file.key.vk cfg.selfCheck
      (proofOf R src z.vals file.key r s d cfg) with
    | error err => simp [Except.mapError]
    | ok q => simp [Except.mapError]
  rw [pushProve, hp]
  show (cuts.foldlM (PushProver.push C R src z.vals cfg) p >>= _) = _ ↔ _
  rw [PushProver.foldlM_file file hhead hcuts hp, bind_assoc, except_bind_eq_ok]
  constructor
  · rintro ⟨fold, hfold, h⟩
    obtain ⟨hfits, d, hd, rfl⟩ := (foldlM_events_eq_ok file hp).mp hfold
    have h' := (hmap d).mp ((hfinish d).symm.trans h)
    exact ⟨hfits, d, hd, selfChecked_eq_ok.mp h'⟩
  · rintro ⟨hfits, d, hd, hcheck⟩
    refine ⟨_, (foldlM_events_eq_ok file hp).mpr ⟨hfits, d, hd, rfl⟩, ?_⟩
    exact (hfinish d).trans ((hmap d).mpr (selfChecked_eq_ok.mpr hcheck))

end Run

end Groth16

end XarkCircuit
