import XarkCircuit.Groth16.KeyStream
import XarkCircuit.Groth16.Prove

/-!
A serialized proving key that is read by position (`SerializedPk` of `pk.rs`), and the prover over it.

* `SerializedPk.new` finds the vectors of a key: it reads the front and the lengths, and seeks past the
  points.
* `SerializedPk.stream` visits a vector chunk by chunk; a `Tee` writes the decoded points again,
  uncompressed.
* `proveSerialized` is the prover that pulls the vectors as it needs them.
* On a well-formed file: every vector is found (`SerializedPk.new_file`), the prover is the one that has
  the key in memory (`proveSerialized_file`), and a tee over all vectors writes the uncompressed file
  (`teeAll_file`).
-/

namespace XarkCircuit

namespace Groth16

open Codec

/-! ### The key -/

/-- The fixed part of a key, and the length of each vector. -/
structure PkHeader (G₁ G₂ : Type) where
  vk : VerifyingKey G₁ G₂
  betaG1 : G₁
  deltaG1 : G₁
  aLen : ℕ
  bG1Len : ℕ
  bG2Len : ℕ
  hLen : ℕ
  lLen : ℕ
  domain : Option ℕ

/-- The length of a vector (`lens`). -/
def PkHeader.lens {G₁ G₂ : Type} (h : PkHeader G₁ G₂) : KeyVector → ℕ
  | .A => h.aLen
  | .BG1 => h.bG1Len
  | .BG2 => h.bG2Len
  | .H => h.hLen
  | .L => h.lLen

/-- The place of a vector in the file. -/
def KeyVector.index : KeyVector → ℕ
  | .A => 0
  | .BG1 => 1
  | .BG2 => 2
  | .H => 3
  | .L => 4

/-- The header of a key in memory. -/
def ProvingKey.header {G₁ G₂ : Type} (pk : ProvingKey G₁ G₂) : PkHeader G₁ G₂ :=
  ⟨pk.vk, pk.betaG1, pk.deltaG1, pk.aQuery.length, pk.bG1Query.length, pk.bG2Query.length,
    pk.hQuery.length, pk.lQuery.length, pk.domain⟩

/-- A serialized key: its bytes, and where the first point of each vector stands. -/
structure SerializedPk (G₁ G₂ : Type) where
  r : List UInt8
  compress : Bool
  header : PkHeader G₁ G₂
  offsets : KeyVector → ℕ

section Reading

variable {G₁ G₂ σ : Type} (C : KeyCodec G₁ G₂)

/-- The offset and the length of each vector, from `pos` on. -/
def readLens (r : List UInt8) (compress : Bool) :
    List KeyVector → ℕ → Except PkError (List (ℕ × ℕ))
  | [], _ => .ok []
  | v :: vs, pos =>
    match readU64 (r.drop pos) with
    | .error e => .error (.deserialize e)
    | .ok (len, _) =>
      let bytes := len * pointBytes v.isG2 compress
      let offset := pos + 8
      if 2 ^ 64 ≤ bytes then .error (.io "vector byte length overflows")
      else if 2 ^ 64 ≤ offset + bytes then .error (.io "vector end offset overflows")
      else
        match readLens r compress vs (offset + bytes) with
        | .error e => .error e
        | .ok rest => .ok ((offset, len) :: rest)

/-- Parse the front, and record the offset of each vector. -/
def SerializedPk.new (r : List UInt8) : Except PkError (SerializedPk G₁ G₂) :=
  match KeyFormat.parse (r.take MAX_HEADER_LEN) true with
  | .error e => .error e
  | .ok none => .error (.header "parse at EOF always decides")
  | .ok (some fmt) =>
    match readHead C fmt.compressed (r.drop fmt.headerLen) with
    | .error e => .error (.deserialize e)
    | .ok ((vk, betaG1, deltaG1), rest) =>
      match readLens r fmt.compressed ORDER (r.length - rest.length) with
      | .error e => .error e
      | .ok places =>
        let len := fun v : KeyVector => (places.getD v.index (0, 0)).2
        .ok ⟨r, fmt.compressed, ⟨vk, betaG1, deltaG1, len .A, len .BG1, len .BG2, len .H, len .L,
          fmt.domain⟩, fun v => (places.getD v.index (0, 0)).1⟩

/-- Chunks of raw bytes, from point `i` at position `pos` on; `fuel` bounds the chunks. -/
def streamBytesFrom (r : List UInt8) (sz chunk len : ℕ) (f : σ → ℕ → List UInt8 → Except PkError σ) :
    ℕ → ℕ → ℕ → σ → Except PkError σ
  | 0, _, _, s => .ok s
  | fuel + 1, i, pos, s =>
    if i < len then
      let this := min chunk (len - i)
      let bytes := (r.drop pos).take (this * sz)
      if 2 ^ 64 ≤ this * sz then .error (.io "streamed chunk byte length overflows")
      else if bytes.length < this * sz then .error (.io "failed to fill whole buffer")
      else
        match f s i bytes with
        | .error e => .error e
        | .ok s => streamBytesFrom r sz chunk len f fuel (i + this) (pos + this * sz) s
    else .ok s

/-- Read vector `v` in chunks of raw bytes. -/
def SerializedPk.streamBytes (pk : SerializedPk G₁ G₂) (v : KeyVector) (chunk : ℕ)
    (f : σ → ℕ → List UInt8 → Except PkError σ) (s : σ) : Except PkError σ :=
  let len := pk.header.lens v
  streamBytesFrom pk.r (pointBytes v.isG2 pk.compress) (max chunk 1) len f len 0 (pk.offsets v) s

/-- One serialized point (`decode::point`). -/
def PointCodec.point {G : Type} {g2 : Bool} (C : PointCodec G g2) (compressed : Bool)
    (b : List UInt8) : Except SerializationError G :=
  match C.decode compressed b with
  | none => .error .invalidData
  | some P => .ok P

/-- The points that bytes encode, one after the other. -/
def decodeAll {G : Type} {g2 : Bool} (C : PointCodec G g2) (compressed : Bool) (bytes : List UInt8) :
    Except SerializationError (List G) :=
  (chunks (pointBytes g2 compressed) bytes).mapM fun b => C.point compressed b.2

/-- A copy of the key with uncompressed points, written as the vectors are read. -/
structure Tee where
  w : List UInt8
  next : ℕ
  ok : Bool

/-- A copy starts with the header (`tee_uncompressed`). -/
def SerializedPk.teeUncompressed (pk : SerializedPk G₁ G₂) : Tee :=
  ⟨KeyFormat.header false pk.header.domain
    ++ encodeHead C false pk.header.vk pk.header.betaG1 pk.header.deltaG1, 0, true⟩

/-- A vector is about to be read. -/
def Tee.begin (t : Tee) (v : KeyVector) (len : ℕ) : Tee :=
  if t.ok && t.next = v.index then { t with w := t.w ++ putU64 len } else { t with ok := false }

/-- Points have been read. -/
def Tee.write {G : Type} {g2 : Bool} (C : PointCodec G g2) (t : Tee) (pts : List G) : Tee :=
  if t.ok then { t with w := t.w ++ pts.flatMap (C.encode false) } else t

/-- Visit vector `v` as chunks of points. -/
def SerializedPk.stream {G : Type} {g2 : Bool} (C : PointCodec G g2) (pk : SerializedPk G₁ G₂)
    (v : KeyVector) (chunk : ℕ) (f : σ → ℕ → List G → σ) (s : σ) (tee : Option Tee) :
    Except PkError (σ × Option Tee) :=
  let tee := tee.map fun t => t.begin v (pk.header.lens v)
  match pk.streamBytes v chunk (fun (p : σ × Option Tee) off bytes =>
      match decodeAll C pk.compress bytes with
      | .error e => .error (.deserialize e)
      | .ok pts => .ok (f p.1 off pts, p.2.map fun t => t.write C pts)) (s, tee) with
  | .error e => .error e
  | .ok (s, tee) => .ok (s, tee.map fun t => { t with next := t.next + 1 })

/-- The copy, and whether it is complete (`finish_tee`). -/
def Tee.finish (t : Tee) : List UInt8 × Bool := (t.w, t.ok && t.next = 5)

/-- Only the copy, as a vector of the first group is read. -/
def SerializedPk.teeG1 (pk : SerializedPk G₁ G₂) (chunk : KeyVector → ℕ) (v : KeyVector)
    (tee : Option Tee) : Except PkError (Option Tee) :=
  Prod.snd <$> pk.stream C.g1 v (chunk v) (fun _ _ _ => ()) () tee

/-- Only the copy, as the vector of the second group is read. -/
def SerializedPk.teeG2 (pk : SerializedPk G₁ G₂) (chunk : KeyVector → ℕ) (tee : Option Tee) :
    Except PkError (Option Tee) :=
  Prod.snd <$> pk.stream C.g2 .BG2 (chunk .BG2) (fun _ _ _ => ()) () tee

/-- What a tee writes when all five vectors are read in the order of the file. -/
def SerializedPk.teeAll (r : List UInt8) (chunk : KeyVector → ℕ) :
    Except PkError (List UInt8 × Bool) := do
  let pk ← SerializedPk.new C r
  let tee ← pk.teeG1 C chunk .A (some (pk.teeUncompressed C))
  let tee ← pk.teeG1 C chunk .BG1 tee
  let tee ← pk.teeG2 C chunk tee
  let tee ← pk.teeG1 C chunk .H tee
  let tee ← pk.teeG1 C chunk .L tee
  return match tee with
    | none => ([], false)
    | some t => t.finish

end Reading

/-! ### The prover over a serialized key -/

/-- Why a proof over a stream or a file is refused. -/
inductive StreamError
  | pk (e : PkError)
  | prove (e : ProveError)
  | panic
deriving DecidableEq, Repr

section Prover

variable {F : Type} [Field F] [DecidableEq F] {G₁ G₂ GT : Type} [AddCommGroup G₁] [Module F G₁]
  [AddCommGroup G₂] [Module F G₂] [AddCommGroup GT] [Module F GT] [DecidableEq GT]

/-- The header states the domain that `H` implies. -/
def checkStated (stated : Option ℕ) (domain : ℕ) : Except ProveError Unit :=
  match stated with
  | none => .ok ()
  | some n =>
    if n ≠ domain then
      .error (.keyMismatch ("header states a " ++ toString n ++ "-point domain, h_query implies "
        ++ toString domain))
    else .ok ()

/-- The lengths of the vectors (`check_shape`). -/
def checkLens (src : ConstraintSource F) (h : PkHeader G₁ G₂) (domain : ℕ) :
    Except ProveError Unit := do
  checkLen "a_query" h.aLen src.numVars
  checkLen "b_g1_query" h.bG1Len src.numVars
  checkLen "b_g2_query" h.bG2Len src.numVars
  checkLen "l_query" h.lLen src.numWitness
  if h.hLen + 1 ≠ domain ∧ h.hLen ≠ domain then
    throw (.keyMismatch ("h_query has " ++ toString h.hLen ++ " points for a domain of "
      ++ toString domain))
  if h.vk.gammaAbcG1.length ≠ src.numInstance then
    throw (.keyMismatch ("vk has " ++ toString (h.vk.gammaAbcG1.length - 1)
      ++ " public inputs, circuit has " ++ toString (src.numInstance - 1)))

/-- Stream a vector against scalars (`stream_msm_g1`, `stream_msm_g2`). -/
def SerializedPk.streamMsm {G : Type} [AddCommGroup G] [Module F G] {g2 : Bool}
    (C : PointCodec G g2) (pk : SerializedPk G₁ G₂) (v : KeyVector) (chunk : ℕ)
    (sc : ℕ → ℕ → List F) : Except PkError G :=
  Prod.fst <$> pk.stream C v chunk (fun acc off pts => acc + msm pts (sc off pts.length)) 0 none

/-- The sum over `B₁`, which is not needed when `r` is zero. -/
def SerializedPk.b1Msm (C : PointCodec G₁ false) (pk : SerializedPk G₁ G₂) (r : F) (chunk : ℕ)
    (sc : ℕ → ℕ → List F) : Except PkError G₁ :=
  if r = 0 then .ok 0 else pk.streamMsm C .BG1 chunk sc

/-- The proof from the sums over the vectors. -/
def assemble (vk : VerifyingKey G₁ G₂) (betaG1 deltaG1 : G₁) (r s : F) (a b1 : G₁) (b2 : G₂)
    (h l : G₁) : Proof G₁ G₂ :=
  let gA := r • deltaG1 + a + vk.alphaG1
  let g1B := if r = 0 then 0 else s • deltaG1 + b1 + betaG1
  let g2B := s • vk.deltaG2 + b2 + vk.betaG2
  ⟨gA, g2B, s • gA + r • g1B - (r * s) • deltaG1 + l + h⟩

/-- A proof that was asked to be checked, checked. -/
def selfChecked (e : G₁ →ₗ[F] G₂ →ₗ[F] GT) (src : ConstraintSource F) (z : List F)
    (vk : VerifyingKey G₁ G₂) (selfCheck : Bool) (proof : Proof G₁ G₂) :
    Except ProveError (Proof G₁ G₂) :=
  if selfCheck then
    match verify e vk ((z.take src.numInstance).drop 1) proof with
    | .ok true => .ok proof
    | _ =>
      match firstUnsatisfied src z with
      | some row => .error (.unsatisfied row)
      | none => .error .selfCheckFailed
  else .ok proof

/-- `prove_with_randomness` over a serialized key. -/
def proveSerialized (C : KeyCodec G₁ G₂) (R : FftField F) (e : G₁ →ₗ[F] G₂ →ₗ[F] GT)
    (src : ConstraintSource F) (z : Assignment src) (pk : SerializedPk G₁ G₂) (r s : F)
    (cfg : ProverConfig) : Except StreamError (Proof G₁ G₂) :=
  match keyDomain R src cfg.minBlockedLog pk.header.hLen with
  | .error msg => .error (.prove (.keyMismatch msg))
  | .ok d => do
    (checkStated pk.header.domain d.n).mapError StreamError.prove
    (checkLens src pk.header d.n).mapError StreamError.prove
    let zSc := fun off len => (z.vals.drop off).take len
    let auxSc := fun off len => zSc (src.numInstance + off) len
    let a ← (pk.streamMsm C.g1 .A cfg.msmChunk zSc).mapError StreamError.pk
    let b1 ← (pk.b1Msm C.g1 r cfg.msmChunk zSc).mapError StreamError.pk
    let b2 ← (pk.streamMsm C.g2 .BG2 cfg.msmChunk zSc).mapError StreamError.pk
    let h := quotientFor R src z.vals d cfg
    let hAcc ← (pk.streamMsm C.g1 .H cfg.msmChunk h.gather).mapError StreamError.pk
    let l ← (pk.streamMsm C.g1 .L cfg.msmChunk auxSc).mapError StreamError.pk
    let proof := assemble pk.header.vk pk.header.betaG1 pk.header.deltaG1 r s a b1 b2 hAcc l
    (selfChecked e src z.vals pk.header.vk cfg.selfCheck proof).mapError StreamError.prove

/-- Open a file and prove (`SerializedPk::from_bytes`, then `prove_with_randomness`). -/
def proveFile (C : KeyCodec G₁ G₂) (R : FftField F) (e : G₁ →ₗ[F] G₂ →ₗ[F] GT)
    (src : ConstraintSource F) (z : Assignment src) (bytes : List UInt8) (r s : F)
    (cfg : ProverConfig) : Except StreamError (Proof G₁ G₂) :=
  match SerializedPk.new C bytes with
  | .error err => .error (.pk err)
  | .ok pk => proveSerialized C R e src z pk r s cfg

end Prover

/-! ### Reading a well-formed file -/

section Sound

variable {G₁ G₂ σ : Type} {C : KeyCodec G₁ G₂}

/-- The lengths of vectors that stand one after the other. -/
lemma readLens_ok {r : List UInt8} (hr : r.length < 2 ^ 64) {compress : Bool}
    {points : KeyVector → List (List UInt8)}
    (hpoints : ∀ v, ∀ p ∈ points v, p.length = pointBytes v.isG2 compress) {vs : List KeyVector}
    {pos : ℕ} {tail : List UInt8}
    (hpos : r.drop pos = (vs.flatMap fun v => encodeVector (points v)) ++ tail) :
    ∃ places, readLens r compress vs pos = .ok places ∧
      List.Forall₂ (fun v p => p.2 = (points v).length ∧
        ∃ rest, r.drop p.1 = (points v).flatten ++ rest) vs places := by
  induction vs generalizing pos with
  | nil => exact ⟨[], rfl, .nil⟩
  | cons v vs ih =>
      have hflat : (points v).flatten.length = (points v).length * pointBytes v.isG2 compress :=
        length_flatten_of_forall (hpoints v)
      rw [List.flatMap_cons, encodeVector, List.append_assoc, List.append_assoc] at hpos
      -- the vector ends within the file
      have hlen := congrArg List.length hpos
      simp only [List.length_drop, List.length_append, length_putU64, hflat] at hlen
      have hmul : (points v).length ≤ (points v).length * pointBytes v.isG2 compress :=
        Nat.le_mul_of_pos_right _ (pointBytes_pos _ _)
      have hread := (delimits_u64 (n := (points v).length) (by omega)).reads
        ((points v).flatten ++ ((vs.flatMap fun v => encodeVector (points v)) ++ tail))
      have hstart : r.drop (pos + 8)
          = (points v).flatten ++ ((vs.flatMap fun v => encodeVector (points v)) ++ tail) := by
        rw [← List.drop_drop, hpos]
        exact List.drop_left' (length_putU64 _)
      have hnext : r.drop (pos + 8 + (points v).length * pointBytes v.isG2 compress)
          = (vs.flatMap fun v => encodeVector (points v)) ++ tail := by
        rw [← List.drop_drop, hstart]
        exact List.drop_left' hflat
      obtain ⟨places, hplaces, hall⟩ := ih hnext
      refine ⟨(pos + 8, (points v).length) :: places, ?_, .cons ⟨rfl, _, hstart⟩ hall⟩
      rw [readLens, hpos, hread]
      dsimp only
      rw [if_neg (by omega), if_neg (by omega), hplaces]

/-- A serialized key that holds the vectors of a file. -/
structure SerializedPk.Holds (pk : SerializedPk G₁ G₂) (F : KeyFile C) : Prop where
  r : pk.r = F.bytes
  compress : pk.compress = F.version.compressed
  header : pk.header = F.key.header
  located : ∀ v, ∃ rest, F.bytes.drop (pk.offsets v) = (F.points v).flatten ++ rest

lemma KeyFile.lens_header (F : KeyFile C) (v : KeyVector) : F.key.header.lens v = (F.points v).length := by
  cases v <;> simp [ProvingKey.header, PkHeader.lens, KeyFile.points, keyPoints]

/-- What is known of the places of all vectors is known of each. -/
lemma forall_places {P : KeyVector → ℕ × ℕ → Prop} {places : List (ℕ × ℕ)}
    (h : List.Forall₂ P ORDER places) (v : KeyVector) : P v (places.getD v.index (0, 0)) := by
  rw [ORDER] at h
  obtain _ | ⟨h₀, _ | ⟨h₁, _ | ⟨h₂, _ | ⟨h₃, _ | ⟨h₄, ⟨⟩⟩⟩⟩⟩⟩ := h
  cases v with
  | A => exact h₀
  | BG1 => exact h₁
  | BG2 => exact h₂
  | H => exact h₃
  | L => exact h₄

/-- **Every vector of a well-formed file is found.** -/
theorem SerializedPk.new_file (F : KeyFile C) :
    ∃ pk, SerializedPk.new C F.bytes = .ok pk ∧ pk.Holds F := by
  have hhead := F.header_le_head
  have hver := F.version.length_bytes_le
  have hfront : F.head <+: F.bytes := F.bytes_eq ▸ List.prefix_append _ _
  have htake : (F.bytes.take MAX_HEADER_LEN).length = MAX_HEADER_LEN :=
    List.length_take_of_le (hhead.trans hfront.length_le)
  obtain ⟨hparse, -⟩ := F.parse_front (List.take_prefix MAX_HEADER_LEN _)
    (by rw [htake]; decide) (by rw [htake]; exact hver) true
  have hread := (delimits_head (C := C) F.version.compressed F.length_gammaAbc_lt F.key.betaG1
    F.key.deltaG1).reads (ORDER.flatMap fun v => encodeVector (F.points v))
  have hdrop : F.bytes.drop F.format.headerLen
      = encodeHead C F.version.compressed F.key.vk F.key.betaG1 F.key.deltaG1
        ++ ORDER.flatMap fun v => encodeVector (F.points v) := by
    rw [F.bytes_eq, KeyFile.head, List.append_assoc]
    exact List.drop_left
  have hpos : F.bytes.drop
      (F.bytes.length - (ORDER.flatMap fun v => encodeVector (F.points v)).length)
      = (ORDER.flatMap fun v => encodeVector (F.points v)) ++ [] := by
    have hle : F.bytes.length - (ORDER.flatMap fun v => encodeVector (F.points v)).length
        = F.head.length := by
      rw [F.bytes_eq, List.length_append, Nat.add_sub_cancel]
    rw [hle, List.append_nil]
    conv_lhs => rw [F.bytes_eq]
    exact List.drop_left
  obtain ⟨places, hplaces, hall⟩ := readLens_ok F.length_bytes_lt
    (fun v p hp => length_of_mem_keyPoints (C := C) hp) hpos
  have hformat : F.format.compressed = F.version.compressed := rfl
  have hnew : SerializedPk.new C F.bytes = .ok ⟨F.bytes, F.version.compressed,
      ⟨F.key.vk, F.key.betaG1, F.key.deltaG1, (places.getD 0 (0, 0)).2, (places.getD 1 (0, 0)).2,
        (places.getD 2 (0, 0)).2, (places.getD 3 (0, 0)).2, (places.getD 4 (0, 0)).2,
        F.version.domain⟩, fun v => (places.getD v.index (0, 0)).1⟩ := by
    rw [SerializedPk.new, hparse]
    dsimp only
    rw [hformat, hdrop, hread]
    dsimp only
    rw [hplaces]
    rfl
  have hlens : ∀ v, (places.getD v.index (0, 0)).2 = F.key.header.lens v := by
    intro v
    rw [F.lens_header v]
    exact (forall_places hall v).1
  refine ⟨_, hnew, rfl, rfl, ?_, fun v => (forall_places hall v).2⟩
  have hdomain := F.domain_eq
  have hA := hlens .A
  have hB := hlens .BG1
  have hB2 := hlens .BG2
  have hH := hlens .H
  have hL := hlens .L
  simp only [KeyVector.index, PkHeader.lens, ProvingKey.header] at hA hB hB2 hH hL
  simp only [ProvingKey.header, hA, hB, hB2, hH, hL, hdomain]

/-! ### Visiting the vectors -/

lemma chunksFrom_map {α β : Type} (g : α → β) (chunk fuel off : ℕ) (pts : List α) :
    chunksFrom chunk fuel off (pts.map g)
      = (chunksFrom chunk fuel off pts).map fun c => (c.1, c.2.map g) := by
  induction fuel generalizing off pts with
  | zero => rfl
  | succ fuel ih =>
      rw [chunksFrom, chunksFrom, List.isEmpty_map]
      split_ifs
      · rfl
      · rw [← List.map_drop, ih, List.map_cons, List.map_take]

lemma chunks_map {α β : Type} (g : α → β) (chunk : ℕ) (pts : List α) :
    chunks chunk (pts.map g) = (chunks chunk pts).map fun c => (c.1, c.2.map g) := by
  rw [chunks, chunks, List.length_map, chunksFrom_map]

/-- The raw chunks of a vector are those of its points. -/
lemma streamBytesFrom_eq {r : List UInt8} (hr : r.length < 2 ^ 64) {sz chunk len : ℕ}
    (hchunk : 0 < chunk) (f : σ → ℕ → List UInt8 → Except PkError σ) {fuel i pos off : ℕ}
    {points : List (List UInt8)} {rest : List UInt8} (hpos : r.drop pos = points.flatten ++ rest)
    (hpoints : ∀ p ∈ points, p.length = sz) (hlen : points.length = len - i)
    (hfuel : points.length ≤ fuel) (hoff : points = [] ∨ off = i) (s : σ) :
    streamBytesFrom r sz chunk len f fuel i pos s
      = (chunksFrom chunk fuel off points).foldlM (fun s c => f s c.1 c.2.flatten) s := by
  induction fuel generalizing i pos off points s with
  | zero =>
      obtain rfl : points = [] := List.length_eq_zero_iff.mp (by omega)
      rfl
  | succ fuel ih =>
      rcases eq_or_ne points [] with rfl | hne
      · have hend : ¬i < len := by
          have h0 : 0 = len - i := hlen
          omega
        rw [streamBytesFrom, if_neg hend]
        rfl
      · obtain rfl : off = i := hoff.resolve_left hne
        have hpos' : 0 < points.length := List.length_pos_iff.mpr hne
        have htake : (points.take chunk).flatten.length = min chunk (len - off) * sz := by
          rw [length_flatten_of_forall fun p hp => hpoints p (List.mem_of_mem_take hp),
            List.length_take, hlen]
        have hsplit : r.drop pos
            = (points.take chunk).flatten ++ ((points.drop chunk).flatten ++ rest) := by
          rw [hpos, ← List.append_assoc, ← List.flatten_append, List.take_append_drop]
        have hbytes : (r.drop pos).take (min chunk (len - off) * sz) = (points.take chunk).flatten := by
          rw [hsplit]
          exact List.take_left' htake
        have hnext : r.drop (pos + min chunk (len - off) * sz) = (points.drop chunk).flatten ++ rest := by
          rw [← List.drop_drop, hsplit]
          exact List.drop_left' htake
        have hsmall : min chunk (len - off) * sz < 2 ^ 64 := by
          have hle := congrArg List.length hsplit
          simp only [List.length_drop, List.length_append, htake] at hle
          omega
        have hchunks : chunksFrom chunk (fuel + 1) off points
            = (off, points.take chunk) :: chunksFrom chunk fuel (off + chunk) (points.drop chunk) := by
          rw [chunksFrom, if_neg (by simpa using hne)]
        rw [hchunks, List.foldlM_cons, streamBytesFrom, if_pos (by omega)]
        dsimp only
        rw [hbytes, if_neg (by omega), if_neg (by omega)]
        cases f s off (points.take chunk).flatten with
        | error e => rfl
        | ok s' =>
            refine ih hnext (fun p hp => hpoints p (List.mem_of_mem_drop hp))
              (by rw [List.length_drop]; omega) (by rw [List.length_drop]; omega) ?_ s'
            rcases Nat.lt_or_ge chunk points.length with h | h
            · exact Or.inr (by omega)
            · exact Or.inl (List.drop_of_length_le h)

lemma SerializedPk.Holds.streamBytes {pk : SerializedPk G₁ G₂} {F : KeyFile C} (h : pk.Holds F)
    (v : KeyVector) (chunk : ℕ) (f : σ → ℕ → List UInt8 → Except PkError σ) (s : σ) :
    pk.streamBytes v chunk f s
      = (chunks (max chunk 1) (F.points v)).foldlM (fun s c => f s c.1 c.2.flatten) s := by
  obtain ⟨rest, hrest⟩ := h.located v
  rw [SerializedPk.streamBytes, h.r, h.compress, h.header, F.lens_header]
  exact streamBytesFrom_eq F.length_bytes_lt (by omega) f hrest
    (fun p hp => length_of_mem_keyPoints hp) rfl le_rfl (Or.inr rfl) s

/-- Encoded points are decoded. -/
lemma decodeAll_encode {G : Type} {g2 : Bool} (C : PointCodec G g2) (c : Bool) (pts : List G) :
    decodeAll C c (pts.map (C.encode c)).flatten = .ok pts := by
  have hpos := pointBytes_pos g2 c
  have key : ∀ (pts : List G) (fuel off : ℕ), (pts.map (C.encode c)).flatten.length ≤ fuel →
      ((chunksFrom (pointBytes g2 c) fuel off (pts.map (C.encode c)).flatten).mapM fun b =>
        C.point c b.2) = .ok pts := by
    intro pts
    induction pts with
    | nil => intro fuel off _; cases fuel <;> rfl
    | cons P pts ih =>
        intro fuel off hfuel
        have hlen := C.length_encode c P
        rw [List.map_cons, List.flatten_cons, List.length_append] at hfuel
        obtain ⟨n, rfl⟩ : ∃ n, fuel = n + 1 := ⟨fuel - 1, by omega⟩
        have hne : ¬(C.encode c P ++ (pts.map (C.encode c)).flatten).isEmpty := by
          intro h
          rw [List.isEmpty_iff, List.append_eq_nil_iff] at h
          rw [h.1, List.length_nil] at hlen
          omega
        rw [List.map_cons, List.flatten_cons, chunksFrom, if_neg hne, List.take_left' hlen,
          List.drop_left' hlen, List.mapM_cons, PointCodec.point, C.decode_encode]
        dsimp only [bind, Except.bind]
        rw [ih n _ (by omega)]
        rfl
  exact key pts _ _ le_rfl

/-- The fold over the chunks of a vector, when no chunk fails. -/
lemma foldlM_ok {α ε : Type} {l : List α} {g : σ → α → Except ε σ} {h : σ → α → σ}
    (hg : ∀ s, ∀ a ∈ l, g s a = .ok (h s a)) (s : σ) : l.foldlM g s = .ok (l.foldl h s) := by
  induction l generalizing s with
  | nil => rfl
  | cons a l ih =>
      rw [List.foldlM_cons, hg s a List.mem_cons_self, List.foldl_cons]
      exact ih (fun s b hb => hg s b (List.mem_cons_of_mem _ hb)) _

namespace Tee

variable {G : Type} {g2 : Bool} (C : PointCodec G g2)

@[simp] lemma write_nil (t : Tee) : t.write C [] = t := by
  rw [write]
  split_ifs <;> simp

@[simp] lemma write_write (t : Tee) (a b : List G) : (t.write C a).write C b = t.write C (a ++ b) := by
  rw [write, write, write]
  split_ifs with h
  · simp
  · rfl

/-- Chunks written one after the other. -/
lemma foldl_write (t : Tee) (cs : List (ℕ × List G)) :
    cs.foldl (fun t c => t.write C c.2) t = t.write C (cs.flatMap Prod.snd) := by
  induction cs generalizing t with
  | nil => simp
  | cons c cs ih => rw [List.foldl_cons, ih, write_write, List.flatMap_cons]

/-- A vector that is read in its turn is written again. -/
def step (t : Tee) (v : KeyVector) (pts : List G) : Tee :=
  { (t.begin v pts.length).write C pts with next := t.next + 1 }

@[simp] lemma next_begin (t : Tee) (v : KeyVector) (len : ℕ) : (t.begin v len).next = t.next := by
  rw [begin]
  split_ifs <;> rfl

@[simp] lemma next_write (t : Tee) (pts : List G) : (t.write C pts).next = t.next := by
  rw [write]
  split_ifs <;> rfl

/-- The bytes of a vector with uncompressed points. -/
lemma step_ok (w : List UInt8) (v : KeyVector) (pts : List G) :
    step C ⟨w, v.index, true⟩ v pts
      = ⟨w ++ encodeVector (pts.map (C.encode false)), v.index + 1, true⟩ := by
  simp [step, begin, write, encodeVector, List.flatMap_def]

end Tee

/-- Two folds at once. -/
lemma foldl_pair {α β γ : Type} (f : α → γ → α) (g : β → γ → β) (l : List γ) (a : α)
    (b : Option β) :
    l.foldl (fun p c => (f p.1 c, p.2.map fun t => g t c)) (a, b)
      = (l.foldl f a, b.map fun t => l.foldl g t) := by
  induction l generalizing a b with
  | nil => cases b <;> rfl
  | cons c l ih =>
      rw [List.foldl_cons, ih]
      cases b <;> rfl

/-- Visiting a vector of a well-formed file. -/
lemma SerializedPk.Holds.stream {pk : SerializedPk G₁ G₂} {F : KeyFile C} (h : pk.Holds F)
    {G : Type} {g2 : Bool} {D : PointCodec G g2} {v : KeyVector} {pts : List G}
    (hpts : F.points v = pts.map (D.encode F.version.compressed)) (chunk : ℕ)
    (f : σ → ℕ → List G → σ) (s : σ) (tee : Option Tee) :
    pk.stream D v chunk f s tee
      = .ok ((chunks (max chunk 1) pts).foldl (fun s c => f s c.1 c.2) s,
          tee.map fun t => t.step D v pts) := by
  have hchunk : 0 < max chunk 1 := by omega
  have hlen : pk.header.lens v = pts.length := by
    rw [h.header, F.lens_header, hpts, List.length_map]
  have hfold : pk.streamBytes v chunk (fun (p : σ × Option Tee) off bytes =>
      match decodeAll D pk.compress bytes with
      | .error e => .error (.deserialize e)
      | .ok pts => .ok (f p.1 off pts, p.2.map fun t => t.write D pts))
        (s, tee.map fun t => t.begin v pts.length)
      = .ok ((chunks (max chunk 1) pts).foldl (fun s c => f s c.1 c.2) s,
          (tee.map fun t => t.begin v pts.length).map fun t =>
            (chunks (max chunk 1) pts).foldl (fun t c => Tee.write D t c.2) t) := by
    rw [h.streamBytes, hpts, chunks_map, List.foldlM_map]
    refine (foldlM_ok (h := fun (p : σ × Option Tee) c => (f p.1 c.1 c.2, p.2.map fun t =>
      Tee.write D t c.2)) (fun p c _ => ?_) _).trans (congrArg Except.ok (foldl_pair
        (fun s (c : ℕ × List G) => f s c.1 c.2) (fun t c => Tee.write D t c.2) _ _ _))
    dsimp only
    rw [h.compress, decodeAll_encode]
  rw [SerializedPk.stream, hlen, hfold]
  have hflat : (chunks (max chunk 1) pts).flatMap Prod.snd = pts := flatMap_chunksFrom hchunk le_rfl
  cases tee with
  | none => rfl
  | some t =>
      simp only [Option.map_some, Tee.foldl_write, hflat, Tee.step, Tee.next_begin, Tee.next_write]

/-- **A tee over all vectors writes the uncompressed file.** -/
theorem SerializedPk.teeAll_file (F : KeyFile C) (chunk : KeyVector → ℕ) :
    SerializedPk.teeAll C F.bytes chunk = .ok (F.uncompressed.bytes, true) := by
  obtain ⟨pk, hnew, h⟩ := SerializedPk.new_file F
  have hg1 : ∀ v (pts : List G₁), F.points v = pts.map (C.g1.encode F.version.compressed) →
      ∀ t, pk.teeG1 C chunk v (some t) = .ok (some (t.step C.g1 v pts)) := by
    intro v pts hpts t
    rw [SerializedPk.teeG1, h.stream hpts]
    rfl
  have hg2 : ∀ t, pk.teeG2 C chunk (some t) = .ok (some (t.step C.g2 .BG2 F.key.bG2Query)) := by
    intro t
    rw [SerializedPk.teeG2, h.stream rfl]
    rfl
  rw [SerializedPk.teeAll, hnew]
  dsimp only [bind, Except.bind]
  rw [hg1 .A F.key.aQuery rfl]
  dsimp only
  rw [hg1 .BG1 F.key.bG1Query rfl]
  dsimp only
  rw [hg2]
  dsimp only
  rw [hg1 .H F.key.hQuery rfl]
  dsimp only
  rw [hg1 .L F.key.lQuery rfl]
  -- each vector is read in its turn
  have hA : ∀ w, Tee.step C.g1 ⟨w, 0, true⟩ .A F.key.aQuery
      = ⟨w ++ encodeVector (keyPoints C false F.key .A), 1, true⟩ := fun w => Tee.step_ok C.g1 w .A _
  have hB : ∀ w, Tee.step C.g1 ⟨w, 1, true⟩ .BG1 F.key.bG1Query
      = ⟨w ++ encodeVector (keyPoints C false F.key .BG1), 2, true⟩ :=
    fun w => Tee.step_ok C.g1 w .BG1 _
  have hB2 : ∀ w, Tee.step C.g2 ⟨w, 2, true⟩ .BG2 F.key.bG2Query
      = ⟨w ++ encodeVector (keyPoints C false F.key .BG2), 3, true⟩ :=
    fun w => Tee.step_ok C.g2 w .BG2 _
  have hH : ∀ w, Tee.step C.g1 ⟨w, 3, true⟩ .H F.key.hQuery
      = ⟨w ++ encodeVector (keyPoints C false F.key .H), 4, true⟩ := fun w => Tee.step_ok C.g1 w .H _
  have hL : ∀ w, Tee.step C.g1 ⟨w, 4, true⟩ .L F.key.lQuery
      = ⟨w ++ encodeVector (keyPoints C false F.key .L), 5, true⟩ := fun w => Tee.step_ok C.g1 w .L _
  have hstart : KeyFormat.header false pk.header.domain
      ++ encodeHead C false pk.header.vk pk.header.betaG1 pk.header.deltaG1
      = F.uncompressed.head := by
    rw [h.header, F.head_uncompressed, ← F.domain_eq]
    rfl
  show Except.ok (Tee.finish _) = _
  rw [SerializedPk.teeUncompressed, hstart, hA, hB, hB2, hH, hL, F.uncompressed.bytes_eq]
  simp [Tee.finish, ORDER, KeyFile.points_uncompressed]

end Sound

/-! ### Proving from a well-formed file -/

section ProverSound

variable {F : Type} [Field F] {G₁ G₂ : Type} [AddCommGroup G₁] [Module F G₁] [AddCommGroup G₂]
  [Module F G₂] {C : KeyCodec G₁ G₂}

/-- The sum over the chunks is the sum over the vector. -/
lemma foldl_chunks_eq {G : Type} [AddCommGroup G] [Module F G] (chunk : ℕ) (sc : ℕ → ℕ → List F)
    (pts : List G) :
    (chunks (max chunk 1) pts).foldl (fun acc c => acc + msm c.2 (sc c.1 c.2.length)) 0
      = streamMsm chunk pts sc := by
  have key : ∀ (fuel off : ℕ) (pts : List G) (acc : G),
      (chunksFrom (max chunk 1) fuel off pts).foldl
        (fun acc c => acc + msm c.2 (sc c.1 c.2.length)) acc
        = acc + streamFrom (max chunk 1) sc fuel off pts := by
    intro fuel
    induction fuel with
    | zero => intro off pts acc; simp [chunksFrom, streamFrom]
    | succ fuel ih =>
        intro off pts acc
        rw [chunksFrom, streamFrom]
        split_ifs
        · simp
        · rw [List.foldl_cons, ih, add_assoc]
  rw [chunks, key, zero_add, streamMsm]

omit [AddCommGroup G₁] [Module F G₁] [AddCommGroup G₂] [Module F G₂] in
lemma SerializedPk.Holds.streamMsm {pk : SerializedPk G₁ G₂} {file : KeyFile C} (h : pk.Holds file)
    {G : Type} [AddCommGroup G] [Module F G] {g2 : Bool} {D : PointCodec G g2} (v : KeyVector)
    (pts : List G) (hpts : file.points v = pts.map (D.encode file.version.compressed)) (chunk : ℕ)
    (sc : ℕ → ℕ → List F) :
    pk.streamMsm D v chunk sc = .ok (Groth16.streamMsm chunk pts sc) := by
  rw [SerializedPk.streamMsm, h.stream hpts, ← foldl_chunks_eq]
  rfl

variable [DecidableEq F] {GT : Type} [AddCommGroup GT] [Module F GT] [DecidableEq GT]

/-- **The prover over a well-formed file is the prover over its key.** -/
theorem proveFile_file (file : KeyFile C) (R : FftField F) (e : G₁ →ₗ[F] G₂ →ₗ[F] GT)
    (src : ConstraintSource F) (z : Assignment src) (r s : F) (cfg : ProverConfig) :
    proveFile C R e src z file.bytes r s cfg
      = (proveImpl R e src z file.key r s cfg).mapError .prove := by
  obtain ⟨pk, hnew, h⟩ := SerializedPk.new_file file
  have hstated : ∀ n, checkStated pk.header.domain n = checkHeader file.key n := by
    intro n
    rw [h.header]
    rfl
  have hlens : ∀ n, checkLens src pk.header n = checkShape src file.key n := by
    intro n
    rw [h.header]
    rfl
  have hhLen : pk.header.hLen = file.key.hQuery.length := by rw [h.header]; rfl
  have hb1 : ∀ sc, pk.b1Msm C.g1 r cfg.msmChunk sc
      = .ok (if r = 0 then 0 else streamMsm cfg.msmChunk file.key.bG1Query sc) := by
    intro sc
    rw [SerializedPk.b1Msm, h.streamMsm .BG1 file.key.bG1Query rfl]
    split_ifs <;> rfl
  rw [proveFile, hnew]
  dsimp only
  rw [proveSerialized, proveImpl, hhLen]
  cases keyDomain R src cfg.minBlockedLog file.key.hQuery.length with
  | error msg => rfl
  | ok d =>
      dsimp only
      rw [hstated, hlens, h.streamMsm .A file.key.aQuery rfl, hb1,
        h.streamMsm .BG2 file.key.bG2Query rfl,
        h.streamMsm .H file.key.hQuery rfl,
        h.streamMsm .L file.key.lQuery rfl, h.header]
      cases checkHeader file.key d.n with
      | error err => rfl
      | ok u =>
          cases checkShape src file.key d.n with
          | error err => rfl
          | ok u =>
              show (selfChecked e src z.vals file.key.vk cfg.selfCheck
                (proofOf R src z.vals file.key r s d cfg)).mapError StreamError.prove = _
              congr 1

end ProverSound

end Groth16

end XarkCircuit
