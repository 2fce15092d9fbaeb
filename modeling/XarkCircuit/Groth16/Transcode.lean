import XarkCircuit.Groth16.SerializedPk

/-!
Writing a proving key again with uncompressed points, from a stream (`transcode.rs`).

* `decompressPoints` decodes and encodes a chunk; `transcodeEvent` is the handler of the key's events.
* `transcode_file`: on a well-formed file, however it is cut, the output is the uncompressed file.
-/

namespace XarkCircuit

namespace Groth16

variable {G₁ G₂ : Type} (C : KeyCodec G₁ G₂)

/-- Decode compressed points and encode them uncompressed (`decompress_points`). -/
def decompressPoints {G : Type} {g2 : Bool} (D : PointCodec G g2) (bytes : List UInt8) :
    Except SerializationError (List UInt8) :=
  let csz := pointBytes g2 true
  let n := bytes.length / csz
  match decodeAll D true (bytes.take (n * csz)) with
  | .error e => .error e
  | .ok pts => .ok (pts.flatMap (D.encode false))

/-- What is written for an event. -/
def transcodeEvent (out : List UInt8) : KeyEvent G₁ G₂ → Except SerializationError (List UInt8)
  | .header vk betaG1 deltaG1 _ domain =>
    .ok (out ++ KeyFormat.header false domain ++ encodeHead C false vk betaG1 deltaG1)
  | .len _ len => .ok (out ++ putU64 len)
  | .points v _ bytes compressed =>
    if !compressed then .ok (out ++ bytes)
    else
      match if v.isG2 then decompressPoints C.g2 bytes else decompressPoints C.g1 bytes with
      | .error e => .error e
      | .ok u => .ok (out ++ u)

/-- The output for the pieces of a key, and whether the whole key has been read. -/
def transcode (chunk : ℕ) (cuts : List (List UInt8)) :
    Except (KeyStreamError SerializationError) (List UInt8 × Bool) :=
  match cuts.foldlM (KeyStream.push (transcodeEvent C) C) (KeyStream.new chunk, []) with
  | .error e => .error e
  | .ok (ks, out) => .ok (out, ks.isComplete)

variable {C}

lemma decompressPoints_encode {G : Type} {g2 : Bool} (D : PointCodec G g2) (pts : List G) :
    decompressPoints D (pts.map (D.encode true)).flatten = .ok (pts.flatMap (D.encode false)) := by
  have hlen : (pts.map (D.encode true)).flatten.length = pts.length * pointBytes g2 true := by
    rw [← List.flatMap_def, length_flatMap_encode]
  rw [decompressPoints, hlen, Nat.mul_div_cancel _ (pointBytes_pos g2 true),
    List.take_of_length_le hlen.le, decodeAll_encode]

/-- The events of a vector write the vector with uncompressed points. -/
lemma foldlM_transcode_vector {G : Type} {g2 : Bool} {D : PointCodec G g2} {v : KeyVector} {c : Bool}
    (hstep : ∀ out off (pts : List G), transcodeEvent C out
      (.points v off (pts.map (D.encode c)).flatten c) = .ok (out ++ pts.flatMap (D.encode false)))
    {chunk : ℕ} (hchunk : 0 < chunk) (pts : List G) (out : List UInt8) :
    (vectorEvents v c chunk (pts.map (D.encode c))).foldlM (transcodeEvent C) out
      = .ok (out ++ encodeVector (pts.map (D.encode false))) := by
  have key : ∀ (cs : List (ℕ × List G)) (out : List UInt8),
      (cs.map fun p => KeyEvent.points v p.1 (p.2.map (D.encode c)).flatten c).foldlM
        (transcodeEvent C) out = .ok (out ++ (cs.flatMap Prod.snd).flatMap (D.encode false)) := by
    intro cs
    induction cs with
    | nil => intro out; simp [pure, Except.pure]
    | cons p cs ih =>
        intro out
        rw [List.map_cons, List.foldlM_cons, hstep]
        show (cs.map _).foldlM _ _ = _
        rw [ih, List.flatMap_cons, List.flatMap_append, List.append_assoc]
  have hlen : transcodeEvent C out (.len v (pts.map (D.encode c)).length)
      = .ok (out ++ putU64 pts.length) := by
    rw [List.length_map]
    rfl
  have hflat : (chunks chunk pts).flatMap Prod.snd = pts := flatMap_chunksFrom hchunk le_rfl
  rw [vectorEvents, List.foldlM_cons, hlen, chunks_map, List.map_map]
  refine (key _ _).trans ?_
  rw [hflat, encodeVector, List.length_map, List.append_assoc, List.flatMap_def]

/-- A chunk of points, written uncompressed. -/
lemma transcodeEvent_points {G : Type} {g2 : Bool} {D : PointCodec G g2} {v : KeyVector} (c : Bool)
    (hD : ∀ bytes, (if v.isG2 then decompressPoints C.g2 bytes else decompressPoints C.g1 bytes)
      = decompressPoints D bytes) (out : List UInt8) (off : ℕ) (pts : List G) :
    transcodeEvent C out (.points v off (pts.map (D.encode c)).flatten c)
      = .ok (out ++ pts.flatMap (D.encode false)) := by
  cases c with
  | false => rw [List.flatMap_def]; rfl
  | true => simp [transcodeEvent, hD, decompressPoints_encode]

/-- **However a file is cut, it is written again with uncompressed points.** -/
theorem transcode_file (F : KeyFile C) (hhead : F.head.length ≤ 2 ^ 24) (chunk : ℕ)
    {cuts : List (List UInt8)} (hcuts : cuts.flatten = F.bytes) :
    transcode C chunk cuts = .ok (F.uncompressed.bytes, true) := by
  have hchunk : 0 < max chunk 1 := by omega
  have hg1 : ∀ v (pts : List G₁) out, v.isG2 = false →
      (vectorEvents v F.version.compressed (max chunk 1)
        (pts.map (C.g1.encode F.version.compressed))).foldlM (transcodeEvent C) out
        = .ok (out ++ encodeVector (pts.map (C.g1.encode false))) := fun v pts out hv =>
    foldlM_transcode_vector (transcodeEvent_points _ fun _ => by rw [hv]; rfl) hchunk pts out
  have hg2 : ∀ (pts : List G₂) out, (vectorEvents .BG2 F.version.compressed (max chunk 1)
      (pts.map (C.g2.encode F.version.compressed))).foldlM (transcodeEvent C) out
      = .ok (out ++ encodeVector (pts.map (C.g2.encode false))) := fun pts out =>
    foldlM_transcode_vector (transcodeEvent_points _ fun _ => rfl) hchunk pts out
  have hevents : (F.events chunk).foldlM (transcodeEvent C) [] = .ok F.uncompressed.bytes := by
    have hhead' : transcodeEvent C [] F.headerEvent = .ok F.uncompressed.head := by
      rw [F.head_uncompressed, KeyFile.headerEvent, F.domain_eq]
      rfl
    simp only [KeyFile.events, List.foldlM_cons, hhead', ORDER, List.flatMap_cons, List.flatMap_nil,
      List.foldlM_append, List.foldlM_nil]
    dsimp only [bind, Except.bind]
    rw [KeyFile.points, keyPoints, hg1 .A _ _ rfl]
    dsimp only
    rw [KeyFile.points, keyPoints, hg1 .BG1 _ _ rfl]
    dsimp only
    rw [KeyFile.points, keyPoints, hg2]
    dsimp only
    rw [KeyFile.points, keyPoints, hg1 .H _ _ rfl]
    dsimp only
    rw [KeyFile.points, keyPoints, hg1 .L _ _ rfl]
    rw [F.uncompressed.bytes_eq]
    simp [ORDER, KeyFile.points_uncompressed, keyPoints, pure, Except.pure]
  rw [transcode, KeyStream.push_file F hhead chunk hcuts, hevents]
  rfl

end Groth16

end XarkCircuit
