import XarkCircuit.Lib.Codec
import XarkCircuit.Groth16.Setup

/-!
The file format of a proving key (`pk.rs`, with the encodings that `types.rs` derives).

* `PointCodec` is the encoding of curve points, compressed or not: a fixed number of bytes each, read
  back by the decoder.
* `KeyFormat.parse` reads the header of a file, which may be absent; `readHead` the verifying key and
  the two points after it.
* `KeyFile` is a well-formed file: a version of the header, and a key. `KeyFile.uncompressed` is the
  file of the same key with uncompressed points.
* `KeyFile.parse_prefix` and `delimits_head` say what the two readers make of the front of a
  well-formed file: the right result, or that there are too few bytes.
-/

namespace XarkCircuit

namespace Groth16

open Codec

/-! ### Points -/

/-- Why bytes are no value. -/
inductive SerializationError
  | ioError
  | invalidData
deriving DecidableEq, Repr

/-- Errors reading a proving key. -/
inductive PkError
  | io (message : String)
  | deserialize (e : SerializationError)
  | header (message : String)
deriving DecidableEq, Repr

/-- The bytes of a point (`point_bytes`). -/
def pointBytes (g2 compressed : Bool) : ℕ :=
  let g1 := if compressed then 32 else 64
  if g2 then 2 * g1 else g1

lemma pointBytes_pos (g2 compressed : Bool) : 0 < pointBytes g2 compressed := by
  cases g2 <;> cases compressed <;> decide

lemma pointBytes_le (g2 compressed : Bool) : pointBytes g2 compressed ≤ pointBytes g2 false := by
  cases g2 <;> cases compressed <;> decide

/-- The encoding of the points of a group, compressed or not (`serialize_with_mode`, `decode::point`). -/
structure PointCodec (G : Type) (g2 : Bool) where
  encode : Bool → G → List UInt8
  decode : Bool → List UInt8 → Option G
  length_encode : ∀ c P, (encode c P).length = pointBytes g2 c
  decode_encode : ∀ c P, decode c (encode c P) = some P

/-- The encodings of both groups. -/
structure KeyCodec (G₁ G₂ : Type) where
  g1 : PointCodec G₁ false
  g2 : PointCodec G₂ true

section Points

variable {G : Type} {g2 : Bool} (C : PointCodec G g2)

/-- The point that bytes encode. -/
def decodePoint (compressed : Bool) (bs : List UInt8) : Reader UInt8 SerializationError G :=
  match C.decode compressed bs with
  | none => throw .invalidData
  | some P => pure P

/-- One point, from the front of a tape. -/
def readPoint (compressed : Bool) : Reader UInt8 SerializationError G := do
  let bs ← Codec.take .ioError (pointBytes g2 compressed)
  decodePoint C compressed bs

lemma delimits_point (compressed : Bool) (P : G) :
    Delimits (readPoint C compressed) (C.encode compressed P) P := by
  have hbs := delimits_take SerializationError.ioError (C.encode compressed P)
  rw [C.length_encode] at hbs
  have hP : Delimits (decodePoint C compressed (C.encode compressed P)) [] P := by
    rw [decodePoint, C.decode_encode]
    exact Delimits.pure P
  have h := hbs.bind hP
  rwa [List.append_nil] at h

end Points

/-- `to_le_bytes` of a 64-bit word. -/
def putU64 (n : ℕ) : List UInt8 := leBytes 8 n

@[simp] lemma length_putU64 (n : ℕ) : (putU64 n).length = 8 := length_leBytes 8 n

lemma fromBytesLe_putU64 {n : ℕ} (hn : n < 2 ^ 64) : fromBytesLe (putU64 n) = n := by
  rw [putU64, fromBytesLe_leBytes, Nat.mod_eq_of_lt (by omega)]

/-- A 64-bit word, from the front of a tape. -/
def readU64 : Reader UInt8 SerializationError ℕ := do
  let bs ← Codec.take .ioError 8
  pure (fromBytesLe bs)

lemma delimits_u64 {n : ℕ} (hn : n < 2 ^ 64) : Delimits readU64 (putU64 n) n := by
  have hbs := delimits_take SerializationError.ioError (putU64 n)
  rw [length_putU64] at hbs
  have h := hbs.ret fromBytesLe
  rwa [fromBytesLe_putU64 hn] at h

/-! ### The header of a file -/

/-- What the header of a file states. -/
structure KeyFormat where
  compressed : Bool
  domain : Option ℕ
  headerLen : ℕ
deriving DecidableEq, Repr

/-- `XKPK`. -/
def PK_MAGIC : List UInt8 := [0x58, 0x4b, 0x50, 0x4b]

/-- The longest header. -/
def MAX_HEADER_LEN : ℕ := 14

/-- The length of the header, from its version byte. -/
def KeyFormat.need : Option UInt8 → Except PkError ℕ
  | none => .ok 6
  | some v =>
    if v = 1 then .ok 6
    else if v = 2 then .ok MAX_HEADER_LEN
    else .error (.header ("proving key header version " ++ toString v.toNat
      ++ " is newer than this reader (re-run `xark setup`, or update xark)"))

/-- The header at the start of `b`; none when there are too few bytes to tell. -/
def KeyFormat.parse (b : List UInt8) (atEof : Bool) : Except PkError (Option KeyFormat) :=
  let legacy : KeyFormat := ⟨true, none, 0⟩
  if b.length < 4 then .ok (if atEof then some legacy else none)
  else if b.take 4 ≠ PK_MAGIC then .ok (some legacy)
  else
    match KeyFormat.need b[4]? with
    | .error e => .error e
    | .ok need =>
      if b.length < need then
        if atEof then .error (.header "truncated proving key header") else .ok none
      else
        let mode := b.getD 5 0
        let domain := if need = MAX_HEADER_LEN then some (fromBytesLe ((b.drop 6).take 8)) else none
        if mode = 0 then .ok (some ⟨true, domain, need⟩)
        else if mode = 1 then .ok (some ⟨false, domain, need⟩)
        else .error (.header ("unknown point mode " ++ toString mode.toNat))

/-- The bytes of a header: of the second version with a known domain, else of the first. -/
def KeyFormat.header (compressed : Bool) (domain : Option ℕ) : List UInt8 :=
  PK_MAGIC ++ [if domain.isSome then 2 else 1, if compressed then 0 else 1]
    ++ (match domain with
      | none => []
      | some n => putU64 n)

/-- The versions of the header. -/
inductive KeyVersion
  | legacy
  | v1 (compressed : Bool)
  | v2 (compressed : Bool) (domain : ℕ)
deriving DecidableEq, Repr

namespace KeyVersion

/-- How the points are encoded. -/
def compressed : KeyVersion → Bool
  | legacy => true
  | v1 c => c
  | v2 c _ => c

/-- The domain size that the header states. -/
def domain : KeyVersion → Option ℕ
  | legacy => none
  | v1 _ => none
  | v2 _ n => some n

/-- The bytes of the header. -/
def bytes : KeyVersion → List UInt8
  | legacy => []
  | v1 c => KeyFormat.header c none
  | v2 c n => KeyFormat.header c (some n)

/-- What the header states. -/
def format (v : KeyVersion) : KeyFormat := ⟨v.compressed, v.domain, v.bytes.length⟩

/-- The version that a file with uncompressed points has. -/
def uncompressed (v : KeyVersion) : KeyVersion :=
  match v.domain with
  | none => v1 false
  | some n => v2 false n

lemma length_bytes_le (v : KeyVersion) : v.bytes.length ≤ MAX_HEADER_LEN := by
  cases v <;> simp [bytes, KeyFormat.header, PK_MAGIC, MAX_HEADER_LEN]

@[simp] lemma bytes_uncompressed (v : KeyVersion) :
    v.uncompressed.bytes = KeyFormat.header false v.domain := by
  cases v <;> rfl

@[simp] lemma domain_uncompressed (v : KeyVersion) : v.uncompressed.domain = v.domain := by
  cases v <;> rfl

@[simp] lemma compressed_uncompressed (v : KeyVersion) : v.uncompressed.compressed = false := by
  cases v <;> rfl

end KeyVersion

/-! ### Keys -/

/-- The point vectors of a key. -/
inductive KeyVector
  | A
  | BG1
  | BG2
  | H
  | L
deriving DecidableEq, Repr

/-- Whether the points are in the second group. -/
def KeyVector.isG2 : KeyVector → Bool
  | .BG2 => true
  | _ => false

/-- The vectors in the order of the file. -/
def ORDER : List KeyVector := [.A, .BG1, .BG2, .H, .L]

section Keys

variable {G₁ G₂ : Type} (C : KeyCodec G₁ G₂)

/-- A verifying key, from the front of a tape. -/
def readVk (c : Bool) : Reader UInt8 SerializationError (VerifyingKey G₁ G₂) := do
  let alphaG1 ← readPoint C.g1 c
  let betaG2 ← readPoint C.g2 c
  let gammaG2 ← readPoint C.g2 c
  let deltaG2 ← readPoint C.g2 c
  let len ← readU64
  let gammaAbcG1 ← many (readPoint C.g1 c) len
  pure ⟨alphaG1, betaG2, gammaG2, deltaG2, gammaAbcG1⟩

/-- The verifying key, `β₁` and `δ₁`, from the front of a tape. -/
def readHead (c : Bool) : Reader UInt8 SerializationError (VerifyingKey G₁ G₂ × G₁ × G₁) := do
  let vk ← readVk C c
  let betaG1 ← readPoint C.g1 c
  let deltaG1 ← readPoint C.g1 c
  pure (vk, betaG1, deltaG1)

/-- The bytes of a verifying key. -/
def encodeVk (c : Bool) (vk : VerifyingKey G₁ G₂) : List UInt8 :=
  C.g1.encode c vk.alphaG1 ++ (C.g2.encode c vk.betaG2 ++ (C.g2.encode c vk.gammaG2
    ++ (C.g2.encode c vk.deltaG2 ++ (putU64 vk.gammaAbcG1.length
      ++ vk.gammaAbcG1.flatMap (C.g1.encode c)))))

/-- The bytes before the point vectors. -/
def encodeHead (c : Bool) (vk : VerifyingKey G₁ G₂) (betaG1 deltaG1 : G₁) : List UInt8 :=
  encodeVk C c vk ++ (C.g1.encode c betaG1 ++ C.g1.encode c deltaG1)

/-- The encoded points of a vector. -/
def keyPoints (c : Bool) (pk : ProvingKey G₁ G₂) : KeyVector → List (List UInt8)
  | .A => pk.aQuery.map (C.g1.encode c)
  | .BG1 => pk.bG1Query.map (C.g1.encode c)
  | .BG2 => pk.bG2Query.map (C.g2.encode c)
  | .H => pk.hQuery.map (C.g1.encode c)
  | .L => pk.lQuery.map (C.g1.encode c)

/-- The bytes of a vector: the number of its points, and the points. -/
def encodeVector (points : List (List UInt8)) : List UInt8 := putU64 points.length ++ points.flatten

/-- The bytes of a key. -/
def encodeKey (c : Bool) (pk : ProvingKey G₁ G₂) : List UInt8 :=
  encodeHead C c pk.vk pk.betaG1 pk.deltaG1 ++ ORDER.flatMap fun v => encodeVector (keyPoints C c pk v)

variable {C}

lemma length_of_mem_keyPoints {c : Bool} {pk : ProvingKey G₁ G₂} {v : KeyVector} {p : List UInt8}
    (hp : p ∈ keyPoints C c pk v) : p.length = pointBytes v.isG2 c := by
  cases v <;> obtain ⟨P, -, rfl⟩ := List.mem_map.mp hp <;>
    first | exact C.g1.length_encode c P | exact C.g2.length_encode c P

lemma delimits_vk (c : Bool) {vk : VerifyingKey G₁ G₂} (hlen : vk.gammaAbcG1.length < 2 ^ 64) :
    Delimits (readVk C c) (encodeVk C c vk) vk :=
  (delimits_point C.g1 c vk.alphaG1).bind <| (delimits_point C.g2 c vk.betaG2).bind <|
    (delimits_point C.g2 c vk.gammaG2).bind <| (delimits_point C.g2 c vk.deltaG2).bind <|
      (delimits_u64 hlen).bind <| (Delimits.many fun P _ => delimits_point C.g1 c P).ret fun abc =>
        (⟨vk.alphaG1, vk.betaG2, vk.gammaG2, vk.deltaG2, abc⟩ : VerifyingKey G₁ G₂)

/-- **The front of a key is delimited.** -/
theorem delimits_head (c : Bool) {vk : VerifyingKey G₁ G₂} (hlen : vk.gammaAbcG1.length < 2 ^ 64)
    (betaG1 deltaG1 : G₁) :
    Delimits (readHead C c) (encodeHead C c vk betaG1 deltaG1) (vk, betaG1, deltaG1) :=
  (delimits_vk c hlen).bind <| (delimits_point C.g1 c betaG1).bind <|
    (delimits_point C.g1 c deltaG1).ret fun P => (vk, betaG1, P)

end Keys

/-! ### Well-formed files -/

/-- A key in a file, with a header of some version. -/
structure KeyFile {G₁ G₂ : Type} (C : KeyCodec G₁ G₂) where
  version : KeyVersion
  key : ProvingKey G₁ G₂
  domain_eq : key.domain = version.domain
  domain_lt : ∀ n, version.domain = some n → n < 2 ^ 64
  /-- a file without a header does not look like one with a header -/
  plain : version = .legacy → ¬PK_MAGIC <+: encodeKey C true key
  /-- the largest form of the file is addressable -/
  fits : (version.uncompressed.bytes ++ encodeKey C false key).length < 2 ^ 64

section Files

variable {G₁ G₂ : Type} {C : KeyCodec G₁ G₂}

/-! ### The lengths of encodings -/

lemma length_flatten_of_forall {points : List (List UInt8)} {n : ℕ} (h : ∀ p ∈ points, p.length = n) :
    points.flatten.length = points.length * n := by
  induction points with
  | nil => simp
  | cons p points ih =>
      rw [List.flatten_cons, List.length_append, h p List.mem_cons_self,
        ih fun q hq => h q (List.mem_cons_of_mem _ hq), List.length_cons, Nat.succ_mul, Nat.add_comm]

lemma length_keyPoints (c c' : Bool) (pk : ProvingKey G₁ G₂) (v : KeyVector) :
    (keyPoints C c pk v).length = (keyPoints C c' pk v).length := by
  cases v <;> simp [keyPoints]

lemma length_flatten_keyPoints (c : Bool) (pk : ProvingKey G₁ G₂) (v : KeyVector) :
    (keyPoints C c pk v).flatten.length = (keyPoints C c pk v).length * pointBytes v.isG2 c :=
  length_flatten_of_forall fun _ hp => length_of_mem_keyPoints hp

lemma length_flatMap_encode {G : Type} {g2 : Bool} (C : PointCodec G g2) (c : Bool) (l : List G) :
    (l.flatMap (C.encode c)).length = l.length * pointBytes g2 c := by
  rw [List.flatMap_def, length_flatten_of_forall (n := pointBytes g2 c), List.length_map]
  intro p hp
  obtain ⟨P, -, rfl⟩ := List.mem_map.mp hp
  exact C.length_encode c P

lemma length_encodeHead (c : Bool) (vk : VerifyingKey G₁ G₂) (betaG1 deltaG1 : G₁) :
    (encodeHead C c vk betaG1 deltaG1).length
      = (3 + vk.gammaAbcG1.length) * pointBytes false c + 3 * pointBytes true c + 8 := by
  simp only [encodeHead, encodeVk, List.length_append, C.g1.length_encode, C.g2.length_encode,
    length_putU64, length_flatMap_encode]
  ring

lemma length_encodeVector (c : Bool) (pk : ProvingKey G₁ G₂) (v : KeyVector) :
    (encodeVector (keyPoints C c pk v)).length
      = 8 + (keyPoints C c pk v).length * pointBytes v.isG2 c := by
  rw [encodeVector, List.length_append, length_putU64, length_flatten_keyPoints]

/-- Uncompressed points take the most bytes. -/
lemma length_encodeHead_le (c : Bool) (vk : VerifyingKey G₁ G₂) (betaG1 deltaG1 : G₁) :
    (encodeHead C c vk betaG1 deltaG1).length ≤ (encodeHead C false vk betaG1 deltaG1).length := by
  rw [length_encodeHead, length_encodeHead]
  have h1 := pointBytes_le false c
  have h2 := pointBytes_le true c
  gcongr

lemma length_encodeVector_le (c : Bool) (pk : ProvingKey G₁ G₂) (v : KeyVector) :
    (encodeVector (keyPoints C c pk v)).length ≤ (encodeVector (keyPoints C false pk v)).length := by
  rw [length_encodeVector, length_encodeVector, length_keyPoints c false]
  have h := pointBytes_le v.isG2 c
  gcongr

lemma length_encodeKey_le (c : Bool) (pk : ProvingKey G₁ G₂) :
    (encodeKey C c pk).length ≤ (encodeKey C false pk).length := by
  have hhead := length_encodeHead_le (C := C) c pk.vk pk.betaG1 pk.deltaG1
  have hv := length_encodeVector_le (C := C) c pk
  simp only [encodeKey, ORDER, List.flatMap_cons, List.flatMap_nil, List.append_nil,
    List.length_append]
  have hA := hv .A
  have hB := hv .BG1
  have hB2 := hv .BG2
  have hH := hv .H
  have hL := hv .L
  omega

namespace KeyFile

/-- The bytes before the point vectors. -/
def head (f : KeyFile C) : List UInt8 :=
  f.version.bytes ++ encodeHead C f.version.compressed f.key.vk f.key.betaG1 f.key.deltaG1

/-- The encoded points of a vector, as they stand in the file. -/
def points (f : KeyFile C) (v : KeyVector) : List (List UInt8) :=
  keyPoints C f.version.compressed f.key v

/-- The bytes of the file. -/
def bytes (f : KeyFile C) : List UInt8 := f.version.bytes ++ encodeKey C f.version.compressed f.key

/-- The file of the same key with uncompressed points. -/
def uncompressed (f : KeyFile C) : KeyFile C where
  version := f.version.uncompressed
  key := f.key
  domain_eq := by rw [f.domain_eq, KeyVersion.domain_uncompressed]
  domain_lt n hn := f.domain_lt n (by rwa [KeyVersion.domain_uncompressed] at hn)
  plain h := by cases hv : f.version <;> rw [hv] at h <;> cases h
  fits := by
    have h := f.fits
    rw [KeyVersion.bytes_uncompressed] at h ⊢
    rwa [KeyVersion.domain_uncompressed]

variable (f : KeyFile C)

lemma bytes_eq : f.bytes = f.head ++ ORDER.flatMap fun v => encodeVector (f.points v) := by
  rw [bytes, head, encodeKey, List.append_assoc]
  rfl

@[simp] lemma uncompressed_uncompressed : f.uncompressed.uncompressed = f.uncompressed := by
  have hv : f.version.uncompressed.uncompressed = f.version.uncompressed := by
    cases f.version <;> rfl
  simp [uncompressed, hv]

lemma points_uncompressed (v : KeyVector) :
    f.uncompressed.points v = keyPoints C false f.key v := by
  rw [points, uncompressed, KeyVersion.compressed_uncompressed]

lemma head_uncompressed : f.uncompressed.head = KeyFormat.header false f.version.domain
    ++ encodeHead C false f.key.vk f.key.betaG1 f.key.deltaG1 := by
  rw [head, uncompressed, KeyVersion.compressed_uncompressed, KeyVersion.bytes_uncompressed]

lemma version_length_le : f.version.bytes.length ≤ f.version.uncompressed.bytes.length := by
  cases f.version <;>
    simp [KeyVersion.bytes, KeyVersion.uncompressed, KeyVersion.domain, KeyFormat.header]

lemma length_head_le : f.head.length ≤ f.uncompressed.head.length := by
  have hhead := length_encodeHead_le (C := C) f.version.compressed f.key.vk f.key.betaG1 f.key.deltaG1
  have hversion := f.version_length_le
  rw [head, head, List.length_append, List.length_append]
  simp only [uncompressed, KeyVersion.compressed_uncompressed]
  omega

lemma length_bytes_lt : f.bytes.length < 2 ^ 64 := by
  have hkey := length_encodeKey_le (C := C) f.version.compressed f.key
  have hversion := f.version_length_le
  have hfits := f.fits
  rw [List.length_append] at hfits
  rw [bytes, List.length_append]
  omega

/-- The first bytes are long enough for every header. -/
lemma header_le_head : MAX_HEADER_LEN ≤ f.head.length := by
  have h := pointBytes_pos false f.version.compressed
  have hhead := length_encodeHead (C := C) f.version.compressed f.key.vk f.key.betaG1 f.key.deltaG1
  have hpoint : 32 ≤ pointBytes false f.version.compressed := by
    cases f.version.compressed <;> decide
  rw [head, List.length_append, hhead, MAX_HEADER_LEN]
  nlinarith

lemma length_points_lt (v : KeyVector) : (f.points v).length < 2 ^ 64 := by
  have hbytes := f.length_bytes_lt
  have hmem : v ∈ ORDER := by cases v <;> decide
  have hle : (encodeVector (f.points v)).length
      ≤ (ORDER.flatMap fun v => encodeVector (f.points v)).length := by
    rw [List.length_flatMap]
    exact List.single_le_sum (by simp) _ (List.mem_map_of_mem hmem)
  have hpos := pointBytes_pos v.isG2 f.version.compressed
  have hvec : (encodeVector (f.points v)).length = 8 + (f.points v).length * pointBytes v.isG2 _ :=
    length_encodeVector _ _ _
  have hmul : (f.points v).length ≤ (f.points v).length * pointBytes v.isG2 f.version.compressed :=
    Nat.le_mul_of_pos_right _ hpos
  rw [bytes_eq, List.length_append] at hbytes
  omega

lemma length_gammaAbc_lt : f.key.vk.gammaAbcG1.length < 2 ^ 64 := by
  have hbytes := f.length_bytes_lt
  have hhead := length_encodeHead (C := C) f.version.compressed f.key.vk f.key.betaG1 f.key.deltaG1
  have hpos := pointBytes_pos false f.version.compressed
  rw [bytes_eq, List.length_append, head, List.length_append, hhead] at hbytes
  nlinarith

/-! ### Reading the front of a file -/

/-- What the header of the file states. -/
def format : KeyFormat := f.version.format

/-- A header that stands in full is read, at the end of the input or not. -/
lemma parse_full (rest : List UInt8) (hrest : f.version = .legacy → 4 ≤ rest.length ∧ ¬PK_MAGIC <+: rest)
    (e : Bool) : KeyFormat.parse (f.version.bytes ++ rest) e = .ok (some f.format) := by
  have hdomain := f.domain_lt
  rw [format]
  cases hv : f.version with
  | legacy =>
      obtain ⟨hlen, hplain⟩ := hrest hv
      have htake : rest.take 4 ≠ PK_MAGIC := fun h => hplain (List.prefix_iff_eq_take.mpr h.symm)
      simp [KeyVersion.bytes, KeyFormat.parse, KeyVersion.format, KeyVersion.compressed,
        KeyVersion.domain, Nat.not_lt.mpr hlen, htake]
  | v1 c =>
      cases c <;> simp [KeyVersion.bytes, KeyFormat.parse, KeyFormat.header, KeyFormat.need, PK_MAGIC,
        KeyVersion.format, KeyVersion.compressed, KeyVersion.domain, MAX_HEADER_LEN] <;>
        rw [if_neg (by omega), if_neg (by omega)]
  | v2 c n =>
      have hn : fromBytesLe (putU64 n) = n := fromBytesLe_putU64 (hdomain n (by rw [hv]; rfl))
      have htake : (putU64 n ++ rest).take 8 = putU64 n := List.take_left' (length_putU64 n)
      cases c <;> simp [KeyVersion.bytes, KeyFormat.parse, KeyFormat.header, KeyFormat.need, PK_MAGIC,
        KeyVersion.format, KeyVersion.compressed, KeyVersion.domain, MAX_HEADER_LEN, hn, htake] <;>
        rw [if_neg (by omega), if_neg (by omega)]

/-- Enough of a file, and the header is read; what follows it is the front of the key. -/
lemma parse_front {b : List UInt8} (hb : b <+: f.bytes) (h4 : 4 ≤ b.length)
    (hlen : f.version.bytes.length ≤ b.length) (e : Bool) :
    KeyFormat.parse b e = .ok (some f.format) ∧ ∃ r, b = f.version.bytes ++ r ∧
      r <+: encodeKey C f.version.compressed f.key := by
  obtain ⟨r, rfl⟩ : f.version.bytes <+: b :=
    List.prefix_of_prefix_length_le (List.prefix_append _ _) hb hlen
  have hr : r <+: encodeKey C f.version.compressed f.key := (List.prefix_append_right_inj _).mp hb
  refine ⟨f.parse_full r (fun hv => ⟨?_, fun hmagic => ?_⟩) e, r, rfl, hr⟩
  · simpa [hv, KeyVersion.bytes] using h4
  · have hc : f.version.compressed = true := by rw [hv]; rfl
    rw [hc] at hr
    exact f.plain hv (hmagic.trans hr)

/-- A header that does not stand in full is not decided yet. -/
lemma parse_short {b : List UInt8} (hb : b <+: f.bytes)
    (hlen : b.length < 4 ∨ b.length < f.version.bytes.length) :
    KeyFormat.parse b false = .ok none := by
  by_cases h4 : b.length < 4
  · simp [KeyFormat.parse, h4]
  · have hshort : b.length < f.version.bytes.length := hlen.resolve_left h4
    have hbv : b <+: f.version.bytes := List.prefix_of_prefix_length_le hb
      (List.prefix_append _ _) hshort.le
    obtain ⟨k, hk, rfl⟩ : ∃ k, b.length = k ∧ b = f.version.bytes.take k :=
      ⟨_, rfl, List.prefix_iff_eq_take.mp hbv⟩
    have hle := f.version.length_bytes_le
    rw [hk] at h4 hshort
    clear hk hlen hb hbv
    cases hv : f.version with
    | legacy => simp [hv, KeyVersion.bytes] at hshort
    | v1 c =>
        have hk6 : k < 6 := by simpa [hv, KeyVersion.bytes, KeyFormat.header, PK_MAGIC] using hshort
        interval_cases k <;>
          simp_all [KeyVersion.bytes, KeyFormat.parse, KeyFormat.header, KeyFormat.need, PK_MAGIC]
    | v2 c n =>
        have hk14 : k < 14 := by simpa [hv, KeyVersion.bytes, KeyFormat.header, PK_MAGIC] using hshort
        interval_cases k <;>
          simp_all [KeyVersion.bytes, KeyFormat.parse, KeyFormat.header, KeyFormat.need, PK_MAGIC,
            putU64, leBytes, MAX_HEADER_LEN]

end KeyFile

end Files

end Groth16

end XarkCircuit
