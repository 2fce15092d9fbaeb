import XarkCircuit.Lib.Resumable
import XarkCircuit.Groth16.KeyFormat

/-!
Parsing a proving key as it arrives (`keystream.rs`).

* `KeyParser` is the state of the parser: the stage it is at and the bytes it has put by. Its turns
  (`KeyParser.turn`) complete a length or a chunk of points; each event goes to a handler.
* `KeyStream.push` feeds the next bytes. The header is tried anew with every push, and the turns after it
  do not notice where the bytes were cut (`KeyParser.machine`).
* `KeyParser.feed_file`: on a well-formed file, however it is cut, the handler sees `keyEvents`: the
  header, then for each vector its length and its points, in order.
-/

namespace XarkCircuit

namespace Groth16

open Codec

/-! ### Chunks -/

section Chunks

variable {α : Type}

/-- The chunks of a vector from `off` on, each with its offset; `fuel` bounds their number. -/
def chunksFrom (chunk : ℕ) : ℕ → ℕ → List α → List (ℕ × List α)
  | 0, _, _ => []
  | fuel + 1, off, pts =>
    if pts.isEmpty then []
    else (off, pts.take chunk) :: chunksFrom chunk fuel (off + chunk) (pts.drop chunk)

/-- The chunks of a vector. -/
def chunks (chunk : ℕ) (pts : List α) : List (ℕ × List α) := chunksFrom chunk pts.length 0 pts

/-- The chunks of what is left, for any bound that is large enough. -/
lemma chunksFrom_fuel {chunk : ℕ} (hchunk : 0 < chunk) {fuel fuel' off : ℕ} {pts : List α}
    (h : pts.length ≤ fuel) (h' : pts.length ≤ fuel') :
    chunksFrom chunk fuel off pts = chunksFrom chunk fuel' off pts := by
  induction fuel generalizing fuel' off pts with
  | zero =>
      obtain rfl : pts = [] := List.length_eq_zero_iff.mp (by omega)
      cases fuel' <;> rfl
  | succ fuel ih =>
      cases pts with
      | nil => cases fuel' <;> rfl
      | cons P pts =>
          obtain ⟨n, rfl⟩ : ∃ n, fuel' = n + 1 := ⟨fuel' - 1, by simp at h'; omega⟩
          have hfuel : ((P :: pts).drop chunk).length ≤ fuel := by simp at h ⊢; omega
          have hn : ((P :: pts).drop chunk).length ≤ n := by simp at h' ⊢; omega
          rw [chunksFrom, chunksFrom, ih hfuel hn]

/-- **The chunks of a vector are the vector**, cut into consecutive pieces. -/
lemma flatMap_chunksFrom {chunk : ℕ} (hchunk : 0 < chunk) {fuel off : ℕ} {pts : List α}
    (h : pts.length ≤ fuel) : (chunksFrom chunk fuel off pts).flatMap Prod.snd = pts := by
  induction fuel generalizing off pts with
  | zero => exact (List.length_eq_zero_iff.mp (by omega)).symm
  | succ fuel ih =>
      rw [chunksFrom]
      split_ifs with hempty
      · exact (List.isEmpty_iff.mp hempty).symm
      · have hpos : 0 < pts.length := List.length_pos_iff.mpr fun h => hempty (by simp [h])
        rw [List.flatMap_cons, ih (by rw [List.length_drop]; omega), List.take_append_drop]

/-- A chunk stands at its offset, and is no longer than asked for. -/
lemma mem_chunksFrom {chunk fuel off : ℕ} {pts : List α} {p : ℕ × List α}
    (h : p ∈ chunksFrom chunk fuel off pts) :
    off ≤ p.1 ∧ p.2 = (pts.drop (p.1 - off)).take chunk ∧ p.2.length ≤ chunk ∧ p.2 ≠ [] ∨ chunk = 0 := by
  induction fuel generalizing off pts with
  | zero => exact absurd h List.not_mem_nil
  | succ fuel ih =>
      rw [chunksFrom] at h
      split_ifs at h with hempty
      · exact absurd h List.not_mem_nil
      · rcases List.mem_cons.mp h with rfl | h
        · rcases Nat.eq_zero_or_pos chunk with h0 | hpos
          · exact Or.inr h0
          · refine Or.inl ⟨le_rfl, by simp, List.length_take_le _ _, ?_⟩
            cases pts with
            | nil => simp at hempty
            | cons P pts =>
                obtain ⟨n, rfl⟩ : ∃ n, chunk = n + 1 := ⟨chunk - 1, by omega⟩
                simp
        · rcases ih h with ⟨hoff, htake, hlen, hne⟩ | h0
          · refine Or.inl ⟨by omega, ?_, hlen, hne⟩
            rw [htake, List.drop_drop]
            congr 2
            omega
          · exact Or.inr h0

end Chunks

/-! ### Events -/

/-- What the parser found. -/
inductive KeyEvent (G₁ G₂ : Type)
  | header (vk : VerifyingKey G₁ G₂) (betaG1 deltaG1 : G₁) (compressed : Bool) (domain : Option ℕ)
  | len (v : KeyVector) (len : ℕ)
  | points (v : KeyVector) (offset : ℕ) (bytes : List UInt8) (compressed : Bool)

/-- A parse failure, or an error of the event handler. -/
inductive KeyStreamError (ε : Type)
  | malformed (message : String)
  | malformedHeader (e : SerializationError)
  | handler (e : ε)
  | unreachable

/-- Where the parser is. -/
inductive Stage
  | header
  | len (i : Fin 5)
  | points (i : Fin 5) (len done : ℕ) (le : done ≤ len)
  | done

/-- The state of the parser; `chunk` is the most points delivered at once. -/
structure KeyParser where
  stage : Stage
  buf : List UInt8
  compress : Bool
  chunk : ℕ
  chunk_pos : 0 < chunk

/-- The stage after vector `i`. -/
def Stage.after (i : Fin 5) : Stage := if h : i.val < 4 then .len ⟨i.val + 1, by omega⟩ else .done

/-- Vector `i` of the file. -/
def vectorAt (i : Fin 5) : KeyVector := ORDER.get i

/-- Bytes put by until there are `need` of them, and the bytes that are left. -/
def absorb (need : ℕ) (buf bytes : List UInt8) : List UInt8 × List UInt8 :=
  let take := min (need - buf.length) bytes.length
  (buf ++ bytes.take take, bytes.drop take)

lemma absorb_eq (need : ℕ) (buf bytes : List UInt8) :
    absorb need buf bytes
      = (buf ++ bytes.take (need - buf.length), bytes.drop (need - buf.length)) := by
  rw [absorb]
  rcases le_total (need - buf.length) bytes.length with h | h
  · simp [h]
  · simp [h, List.take_of_length_le h, List.drop_of_length_le h]

/-- Bytes that do not suffice are put by, and the next bytes go on from there. -/
lemma absorb_short {need : ℕ} {buf a : List UInt8} (h : (absorb need buf a).1.length < need)
    (b : List UInt8) :
    absorb need (absorb need buf a).1 b = absorb need buf (a ++ b) := by
  simp only [absorb_eq, List.length_append, List.length_take] at h ⊢
  have hle : a.length ≤ need - buf.length := by omega
  have hmin : min (need - buf.length) a.length = a.length := by omega
  have hsub : need - (buf.length + a.length) = need - buf.length - a.length := by omega
  simp [List.take_append, List.drop_append, List.take_of_length_le hle, List.drop_of_length_le hle,
    hmin, hsub]

/-- Bytes that suffice are not affected by the next ones. -/
lemma absorb_full {need : ℕ} {buf a : List UInt8} (h : ¬(absorb need buf a).1.length < need)
    (b : List UInt8) :
    absorb need buf (a ++ b) = ((absorb need buf a).1, (absorb need buf a).2 ++ b) := by
  simp only [absorb_eq, List.length_append, List.length_take] at h ⊢
  have hle : need - buf.length ≤ a.length := by omega
  simp [List.take_append, List.drop_append, Nat.sub_eq_zero_of_le hle]

/-- Bytes that hold what is needed. -/
lemma absorb_exact (bytes rest : List UInt8) :
    absorb bytes.length [] (bytes ++ rest) = (bytes, rest) := by
  simp [absorb_eq]

/-! ### The turns after the header -/

section Turns

variable {G₁ G₂ σ ε : Type} (f : σ → KeyEvent G₁ G₂ → Except ε σ)

namespace KeyParser

/-- A parser at the start; `chunk` is at least one. -/
def new (chunk : ℕ) : KeyParser := ⟨.header, [], true, max chunk 1, by omega⟩

/-- One round of the loop in `body`. -/
def turn (p : KeyParser × σ) (bytes : List UInt8) :
    Except (KeyStreamError ε) (Turn (KeyParser × σ) UInt8) :=
  match p.1.stage with
  | .done =>
    if bytes.isEmpty then .ok (.rest p)
    else .error (.malformed "bytes after the end of the proving key")
  | .header => .error .unreachable
  | .len i =>
    let taken := absorb 8 p.1.buf bytes
    if taken.1.length < 8 then .ok (.rest ({ p.1 with buf := taken.1 }, p.2))
    else
      let len := fromBytesLe (taken.1.take 8)
      match f p.2 (.len (vectorAt i) len) with
      | .error e => .error (.handler e)
      | .ok s =>
        .ok (.next ({ p.1 with buf := [], stage := .points i len 0 (Nat.zero_le _) }, s) taken.2)
  | .points i len done hle =>
    if done = len then .ok (.next ({ p.1 with stage := .after i }, p.2) bytes)
    else if bytes.isEmpty then .ok (.rest p)
    else
      let psz := pointBytes (vectorAt i).isG2 p.1.compress
      let n := min p.1.chunk (len - done)
      let taken := absorb (n * psz) p.1.buf bytes
      if taken.1.length < n * psz then .ok (.rest ({ p.1 with buf := taken.1 }, p.2))
      else
        match f p.2 (.points (vectorAt i) done taken.1 p.1.compress) with
        | .error e => .error (.handler e)
        | .ok s =>
          .ok (.next ({ p.1 with buf := [], stage := .points i len (done + n) (by omega) }, s) taken.2)

/-- The turns that a stage may still take without input: its place in the file, and the points left. -/
def toGo : Stage → ℕ × ℕ
  | .header => (0, 0)
  | .len i => (12 - 2 * i.val, 0)
  | .points i len done _ => (11 - 2 * i.val, len - done)
  | .done => (0, 0)

/-- The order by which turns end: input, place, points. -/
@[reducible] def order : WellFoundedRelation (ℕ × ℕ × ℕ) := Prod.lex Nat.lt_wfRel (Prod.lex Nat.lt_wfRel Nat.lt_wfRel)

lemma order_of_place {a a' b b' c c' : ℕ} (ha : a' ≤ a) (hb : b' < b) :
    order.rel (a', b', c') (a, b, c) := by
  rcases Nat.lt_or_eq_of_le ha with h | rfl
  · exact Prod.Lex.left _ _ h
  · exact Prod.Lex.right _ (Prod.Lex.left _ _ hb)

lemma order_of_points {a a' b c c' : ℕ} (ha : a' ≤ a) (hc : c' < c) :
    order.rel (a', b, c') (a, b, c) := by
  rcases Nat.lt_or_eq_of_le ha with h | rfl
  · exact Prod.Lex.left _ _ h
  · exact Prod.Lex.right _ (Prod.Lex.right _ hc)

lemma length_absorb_snd_le (need : ℕ) (buf bytes : List UInt8) :
    (absorb need buf bytes).2.length ≤ bytes.length := by
  rw [absorb_eq, List.length_drop]
  omega

variable {f}

lemma turn_decreases {p p' : KeyParser × σ} {bytes left : List UInt8}
    (h : turn f p bytes = .ok (.next p' left)) :
    order.rel (left.length, toGo p'.1.stage) (bytes.length, toGo p.1.stage) := by
  rw [turn] at h
  cases hs : p.1.stage with
  | header => rw [hs] at h; cases h
  | done =>
      rw [hs] at h
      dsimp only at h
      split_ifs at h
      cases h
  | len i =>
      rw [hs] at h
      dsimp only at h
      split_ifs at h
      · cases h
      · split at h
        · cases h
        · cases h
          exact order_of_place (length_absorb_snd_le _ _ _) (by have := i.isLt; omega)
  | points i len done hle =>
      rw [hs] at h
      dsimp only at h
      split_ifs at h with hdone hempty hshort
      · cases h
        refine order_of_place le_rfl ?_
        show (toGo (Stage.after i)).1 < 11 - 2 * i.val
        rw [Stage.after]
        split_ifs with hi
        · show 12 - 2 * (i.val + 1) < _
          omega
        · show 0 < _
          have := i.isLt
          omega
      · cases h
      · cases h
      · split at h
        · cases h
        · cases h
          have hchunk := p.1.chunk_pos
          exact order_of_points (length_absorb_snd_le _ _ _) (by omega)

lemma turn_append_error {p : KeyParser × σ} {a : List UInt8} {e : KeyStreamError ε} (b : List UInt8)
    (h : turn f p a = .error e) : turn f p (a ++ b) = .error e := by
  rw [turn] at h ⊢
  cases hs : p.1.stage with
  | header => rw [hs] at h; exact h
  | done =>
      rw [hs] at h
      dsimp only at h ⊢
      cases a with
      | nil => cases h
      | cons x a => exact h
  | len i =>
      rw [hs] at h
      dsimp only at h ⊢
      split_ifs at h with hshort
      rw [absorb_full hshort b, if_neg hshort]
      dsimp only
      split at h
      · exact h
      · cases h
  | points i len done hle =>
      rw [hs] at h
      dsimp only at h ⊢
      split_ifs at h with hdone hempty hshort
      have hne : ¬(a ++ b).isEmpty := by
        cases a with
        | nil => simp at hempty
        | cons x a => simp
      rw [if_neg hdone, if_neg hne, absorb_full hshort b, if_neg hshort]
      dsimp only
      split at h
      · exact h
      · cases h

lemma turn_append_next {p p' : KeyParser × σ} {a left : List UInt8} (b : List UInt8)
    (h : turn f p a = .ok (.next p' left)) : turn f p (a ++ b) = .ok (.next p' (left ++ b)) := by
  rw [turn] at h ⊢
  cases hs : p.1.stage with
  | header => rw [hs] at h; cases h
  | done =>
      rw [hs] at h
      dsimp only at h
      split_ifs at h
      cases h
  | len i =>
      rw [hs] at h
      dsimp only at h ⊢
      split_ifs at h with hshort
      · cases h
      · rw [absorb_full hshort b, if_neg hshort]
        dsimp only
        split at h
        · cases h
        · cases h
          rfl
  | points i len done hle =>
      rw [hs] at h
      dsimp only at h ⊢
      split_ifs at h with hdone hempty hshort
      · cases h
        rw [if_pos hdone]
      · cases h
      · cases h
      · have hne : ¬(a ++ b).isEmpty := by
          cases a with
          | nil => simp at hempty
          | cons x a => simp
        rw [if_neg hdone, if_neg hne, absorb_full hshort b, if_neg hshort]
        dsimp only
        split at h
        · cases h
        · cases h
          rfl

lemma turn_append_rest {p p' : KeyParser × σ} {a : List UInt8} (b : List UInt8)
    (h : turn f p a = .ok (.rest p')) : turn f p' b = turn f p (a ++ b) := by
  rw [turn] at h
  cases hs : p.1.stage with
  | header => rw [hs] at h; cases h
  | done =>
      rw [hs] at h
      dsimp only at h
      split_ifs at h with hempty
      cases h
      rw [List.isEmpty_iff.mp hempty, List.nil_append]
  | len i =>
      rw [hs] at h
      dsimp only at h
      split_ifs at h with hshort
      · cases h
        rw [turn, turn]
        simp only [hs, absorb_short hshort b]
      · split at h <;> cases h
  | points i len done hle =>
      rw [hs] at h
      dsimp only at h
      split_ifs at h with hdone hempty hshort
      · cases h
      · cases h
        rw [List.isEmpty_iff.mp hempty, List.nil_append]
      · cases h
        cases b with
        | nil =>
            rw [turn, turn]
            simp only [hs, List.append_nil, List.isEmpty_nil, if_neg hdone, if_true, if_neg hempty,
              if_pos hshort]
        | cons x b =>
            rw [turn, turn]
            simp only [hs, absorb_short hshort (x :: b)]
            simp [hdone]
      · split at h <;> cases h

variable (f)

/-- The loop in `body`, as a machine that is fed in pieces. -/
def machine : Resumable (KeyParser × σ) UInt8 (KeyStreamError ε) where
  turn := turn f
  Measure := ℕ × ℕ × ℕ
  wf := order
  measure p bytes := (bytes.length, toGo p.1.stage)
  decreases := turn_decreases
  splits_error := turn_append_error
  splits_next := turn_append_next
  splits_rest := turn_append_rest

/-- `body`. -/
def body (p : KeyParser × σ) (bytes : List UInt8) : Except (KeyStreamError ε) (KeyParser × σ) :=
  (machine f).run p bytes

end KeyParser

/-! ### The events of the vectors -/

/-- The events of a vector. -/
def vectorEvents (v : KeyVector) (compressed : Bool) (chunk : ℕ) (points : List (List UInt8)) :
    List (KeyEvent G₁ G₂) :=
  .len v points.length :: (chunks chunk points).map fun c => .points v c.1 c.2.flatten compressed

/-- What the handler returns, as an outcome of the parser. -/
def handled (x : Except ε σ) : Except (KeyStreamError ε) σ := x.mapError .handler

@[simp] lemma handled_ok (s : σ) : handled (.ok s : Except ε σ) = .ok s := rfl

@[simp] lemma handled_error (e : ε) : handled (.error e : Except ε σ) = .error (.handler e) := rfl

lemma handled_bind (x : Except ε σ) (g : σ → Except ε σ) :
    handled (x >>= g) = handled x >>= fun s => handled (g s) := by
  cases x <;> rfl

namespace KeyParser

variable {f}

lemma body_next {p p' : KeyParser × σ} {bytes left : List UInt8}
    (h : turn f p bytes = .ok (.next p' left)) : body f p bytes = body f p' left :=
  Resumable.run_of_next (M := machine f) h

lemma body_error {p : KeyParser × σ} {bytes : List UInt8} {e : KeyStreamError ε}
    (h : turn f p bytes = .error e) : body f p bytes = .error e :=
  Resumable.run_of_error (M := machine f) h

variable (f)

/-- The parser between two vectors, or after the last. -/
def between (stage : Stage) (compressed : Bool) (chunk : ℕ) (h : 0 < chunk) : KeyParser :=
  ⟨stage, [], compressed, chunk, h⟩

/-- The points that are left of a vector reach the handler in chunks. -/
lemma body_points {i : Fin 5} {compressed : Bool} {chunk : ℕ} (hchunk : 0 < chunk)
    (rest : List UInt8) {len fuel done off : ℕ} (hle : done ≤ len) {points : List (List UInt8)}
    (hpoints : ∀ p ∈ points, p.length = pointBytes (vectorAt i).isG2 compressed)
    (hlen : points.length = len - done) (hfuel : points.length ≤ fuel)
    (hoff : points = [] ∨ off = done) (s : σ) :
    body f (between (.points i len done hle) compressed chunk hchunk, s) (points.flatten ++ rest)
      = handled (((chunksFrom chunk fuel off points).map fun c =>
          KeyEvent.points (vectorAt i) c.1 c.2.flatten compressed).foldlM f s) >>= fun s =>
        body f (between (.after i) compressed chunk hchunk, s) rest := by
  have hend : ∀ {done off : ℕ} (hle : done ≤ len) (fuel : ℕ) (s : σ), len - done = 0 →
      body f (between (.points i len done hle) compressed chunk hchunk, s) rest
        = handled (((chunksFrom chunk fuel off ([] : List (List UInt8))).map fun c =>
            KeyEvent.points (vectorAt i) c.1 c.2.flatten compressed).foldlM f s) >>= fun s =>
          body f (between (.after i) compressed chunk hchunk, s) rest := by
    intro done off hle fuel s h0
    have hdone : done = len := by omega
    have hchunks : chunksFrom chunk fuel off ([] : List (List UInt8)) = [] := by cases fuel <;> rfl
    rw [hchunks]
    exact body_next (by rw [turn, between]; exact if_pos hdone)
  induction fuel generalizing done off points s with
  | zero =>
      obtain rfl : points = [] := List.length_eq_zero_iff.mp (by omega)
      exact hend hle 0 s hlen.symm
  | succ fuel ih =>
      rcases eq_or_ne points [] with rfl | hne
      · exact hend hle (fuel + 1) s hlen.symm
      · obtain rfl : off = done := hoff.resolve_left hne
        have hpos : 0 < points.length := List.length_pos_iff.mpr hne
        have hpsz := pointBytes_pos (vectorAt i).isG2 compressed
        -- the bytes of the next chunk, and what follows them
        have htake : (points.take chunk).flatten.length
            = min chunk (len - off) * pointBytes (vectorAt i).isG2 compressed := by
          rw [length_flatten_of_forall fun p hp => hpoints p (List.mem_of_mem_take hp),
            List.length_take, hlen]
        have hsplit : points.flatten ++ rest
            = (points.take chunk).flatten ++ ((points.drop chunk).flatten ++ rest) := by
          rw [← List.append_assoc, ← List.flatten_append, List.take_append_drop]
        have habsorb : absorb (min chunk (len - off) * pointBytes (vectorAt i).isG2 compressed) []
            (points.flatten ++ rest)
            = ((points.take chunk).flatten, (points.drop chunk).flatten ++ rest) := by
          rw [hsplit, ← htake, absorb_exact]
        have hbytes : ¬(points.flatten ++ rest).isEmpty := by
          have hmin : 0 < min chunk (len - off) := by omega
          have hlt : 0 < (points.take chunk).flatten.length := htake ▸ Nat.mul_pos hmin hpsz
          rw [hsplit]
          intro hempty
          rw [List.isEmpty_iff, List.append_eq_nil_iff] at hempty
          rw [hempty.1] at hlt
          exact absurd hlt (Nat.lt_irrefl 0)
        have hchunks : chunksFrom chunk (fuel + 1) off points
            = (off, points.take chunk) :: chunksFrom chunk fuel (off + chunk) (points.drop chunk) := by
          rw [chunksFrom, if_neg (by simpa using hne)]
        have hturn : turn f (between (.points i len off hle) compressed chunk hchunk, s)
            (points.flatten ++ rest)
            = match f s (.points (vectorAt i) off (points.take chunk).flatten compressed) with
              | .error e => .error (.handler e)
              | .ok s => .ok (.next (between (.points i len (off + min chunk (len - off)) (by omega))
                  compressed chunk hchunk, s) ((points.drop chunk).flatten ++ rest)) := by
          rw [turn, between]
          dsimp only
          rw [if_neg (by omega), if_neg hbytes, habsorb]
          dsimp only
          rw [if_neg (by omega)]
          rfl
        rw [hchunks, List.map_cons, List.foldlM_cons]
        cases hf : f s (.points (vectorAt i) off (points.take chunk).flatten compressed) with
        | error e =>
            rw [hf] at hturn
            exact body_error hturn
        | ok s' =>
            rw [hf] at hturn
            rw [body_next hturn]
            refine ih (by omega) (fun p hp => hpoints p (List.mem_of_mem_drop hp))
              (by rw [List.length_drop]; omega) (by rw [List.length_drop]; omega) ?_ s'
            rcases Nat.lt_or_ge chunk points.length with h | h
            · exact Or.inr (by omega)
            · exact Or.inl (List.drop_of_length_le h)

/-- A vector reaches the handler. -/
lemma body_vector {i : Fin 5} {compressed : Bool} {chunk : ℕ} (hchunk : 0 < chunk)
    (rest : List UInt8) {points : List (List UInt8)}
    (hpoints : ∀ p ∈ points, p.length = pointBytes (vectorAt i).isG2 compressed)
    (hlen : points.length < 2 ^ 64) (s : σ) :
    body f (between (.len i) compressed chunk hchunk, s) (encodeVector points ++ rest)
      = handled ((vectorEvents (vectorAt i) compressed chunk points).foldlM f s) >>= fun s =>
        body f (between (.after i) compressed chunk hchunk, s) rest := by
  have habsorb : absorb 8 [] (encodeVector points ++ rest)
      = (putU64 points.length, points.flatten ++ rest) := by
    rw [encodeVector, List.append_assoc, ← length_putU64 points.length, absorb_exact]
  have hturn : turn f (between (.len i) compressed chunk hchunk, s) (encodeVector points ++ rest)
      = match f s (.len (vectorAt i) points.length) with
        | .error e => .error (.handler e)
        | .ok s => .ok (.next (between (.points i points.length 0 (Nat.zero_le _)) compressed chunk
            hchunk, s) (points.flatten ++ rest)) := by
    have hread : fromBytesLe ((putU64 points.length).take 8) = points.length := by
      rw [List.take_of_length_le (length_putU64 _).le, fromBytesLe_putU64 hlen]
    rw [turn, between]
    dsimp only
    rw [habsorb, if_neg (by simp)]
    dsimp only
    rw [hread]
    rfl
  rw [vectorEvents, List.foldlM_cons]
  cases hf : f s (.len (vectorAt i) points.length) with
  | error e =>
      rw [hf] at hturn
      exact body_error hturn
  | ok s' =>
      rw [hf] at hturn
      rw [body_next hturn]
      exact body_points f hchunk rest (Nat.zero_le _) hpoints rfl le_rfl (Or.inr rfl) s'

/-- All vectors reach the handler, and the parser is done. -/
lemma body_vectors {compressed : Bool} {chunk : ℕ} (hchunk : 0 < chunk)
    {points : KeyVector → List (List UInt8)}
    (hpoints : ∀ v, ∀ p ∈ points v, p.length = pointBytes v.isG2 compressed)
    (hlen : ∀ v, (points v).length < 2 ^ 64) (s : σ) :
    body f (between (.len 0) compressed chunk hchunk, s) (ORDER.flatMap fun v => encodeVector (points v))
      = handled ((ORDER.flatMap fun v => vectorEvents v compressed chunk (points v)).foldlM f s)
        >>= fun s => .ok (between .done compressed chunk hchunk, s) := by
  have hvec : ∀ (i : Fin 5) (v : KeyVector) (rest : List UInt8) (s : σ), vectorAt i = v →
      body f (between (.len i) compressed chunk hchunk, s) (encodeVector (points v) ++ rest)
        = handled ((vectorEvents v compressed chunk (points v)).foldlM f s) >>= fun s =>
          body f (between (.after i) compressed chunk hchunk, s) rest := by
    rintro i v rest s rfl
    exact body_vector f hchunk rest (hpoints _) (hlen _) s
  have hdone : ∀ s, body f (between .done compressed chunk hchunk, s) []
      = .ok (between .done compressed chunk hchunk, s) :=
    fun s => Resumable.run_of_rest (M := machine f) rfl
  simp only [ORDER, List.flatMap_cons, List.flatMap_nil, List.foldlM_append, handled_bind, bind_assoc]
  rw [hvec 0 .A _ s rfl]
  congr 1
  funext s
  rw [show Stage.after 0 = .len 1 from rfl, hvec 1 .BG1 _ s rfl]
  congr 1
  funext s
  rw [show Stage.after 1 = .len 2 from rfl, hvec 2 .BG2 _ s rfl]
  congr 1
  funext s
  rw [show Stage.after 2 = .len 3 from rfl, hvec 3 .H _ s rfl]
  congr 1
  funext s
  rw [show Stage.after 3 = .len 4 from rfl, hvec 4 .L _ s rfl]
  congr 1
  funext s
  exact hdone s

end KeyParser

/-! ### The header, and whole files -/

/-- The text of an error. -/
def PkError.toText : PkError → String
  | .io message => "reading proving key: " ++ message
  | .deserialize _ => "parsing proving key"
  | .header message => "proving key: " ++ message

variable (C : KeyCodec G₁ G₂)

namespace KeyParser

/-- `try_header`: the bytes after the header once it is complete. -/
def tryHeader (p : KeyParser × σ) :
    Except (KeyStreamError ε) ((KeyParser × σ) × Option (List UInt8)) :=
  match KeyFormat.parse p.1.buf false with
  | .error e => .error (.malformed e.toText)
  | .ok none => .ok (p, none)
  | .ok (some fmt) =>
    match readHead C fmt.compressed (p.1.buf.drop fmt.headerLen) with
    | .ok ((vk, betaG1, deltaG1), rest) =>
      match f p.2 (.header vk betaG1 deltaG1 fmt.compressed fmt.domain) with
      | .error e => .error (.handler e)
      | .ok s =>
        .ok (({ p.1 with compress := fmt.compressed, buf := [], stage := .len 0 }, s), some rest)
    | .error e =>
      if p.1.buf.length < 2 ^ 24 then .ok (p, none) else .error (.malformedHeader e)

/-- `push`, but for the count of bytes. -/
def feed (p : KeyParser × σ) (bytes : List UInt8) :
    Except (KeyStreamError ε) (KeyParser × σ) :=
  match p.1.stage with
  | .header =>
    match tryHeader f C ({ p.1 with buf := p.1.buf ++ bytes }, p.2) with
    | .error e => .error e
    | .ok (p, none) => .ok p
    | .ok (p, some rest) => body f p rest
  | _ => body f p bytes

/-- The parser that waits for a header. -/
def waiting (chunk : ℕ) (buf : List UInt8) : KeyParser := { new chunk with buf := buf }

variable {C} (F : KeyFile C) (chunk : ℕ)

/-- The parser after the last vector of a file. -/
def finished : KeyParser := between .done F.version.compressed (max chunk 1) (by omega)

end KeyParser

/-- The event of the header of a file. -/
def KeyFile.headerEvent {C : KeyCodec G₁ G₂} (F : KeyFile C) : KeyEvent G₁ G₂ :=
  .header F.key.vk F.key.betaG1 F.key.deltaG1 F.version.compressed F.key.domain

/-- The events of a file. -/
def KeyFile.events {C : KeyCodec G₁ G₂} (F : KeyFile C) (chunk : ℕ) : List (KeyEvent G₁ G₂) :=
  F.headerEvent :: ORDER.flatMap fun v => vectorEvents v F.version.compressed (max chunk 1) (F.points v)

namespace KeyParser

variable {C} (F : KeyFile C) {f}

/-- What `try_header` does once the format is known. -/
lemma tryHeader_eq {p : KeyParser × σ} {fmt : KeyFormat}
    (h : KeyFormat.parse p.1.buf false = .ok (some fmt)) :
    tryHeader f C p = match readHead C fmt.compressed (p.1.buf.drop fmt.headerLen) with
      | .ok ((vk, betaG1, deltaG1), rest) =>
        match f p.2 (.header vk betaG1 deltaG1 fmt.compressed fmt.domain) with
        | .error e => .error (.handler e)
        | .ok s =>
          .ok (({ p.1 with compress := fmt.compressed, buf := [], stage := .len 0 }, s), some rest)
      | .error e =>
        if p.1.buf.length < 2 ^ 24 then .ok (p, none) else .error (.malformedHeader e) := by
  rw [tryHeader, h]

/-- On less than the front of a file the parser waits, up to a limit. -/
lemma tryHeader_short (chunk : ℕ) {b : List UInt8} (hb : b <+: F.head)
    (hlen : b.length < F.head.length) (s : σ) :
    if b.length < 2 ^ 24 then tryHeader f C (waiting chunk b, s) = .ok ((waiting chunk b, s), none)
    else ∃ e, tryHeader f C (waiting chunk b, s) = .error (.malformedHeader e) := by
  have hfile : b <+: F.bytes := F.bytes_eq ▸ hb.trans (List.prefix_append _ _)
  by_cases hshort : b.length < 4 ∨ b.length < F.version.bytes.length
  · have hle := F.version.length_bytes_le
    rw [MAX_HEADER_LEN] at hle
    rw [if_pos (by omega), tryHeader]
    have hparse : KeyFormat.parse (waiting chunk b, s).1.buf false = .ok none :=
      F.parse_short hfile hshort
    rw [hparse]
  · obtain ⟨h4, hver⟩ := not_or.mp hshort
    obtain ⟨hparse, r, rfl, -⟩ := F.parse_front hfile (Nat.not_lt.mp h4) (Nat.not_lt.mp hver) false
    have hr : r <+: encodeHead C F.version.compressed F.key.vk F.key.betaG1 F.key.deltaG1 :=
      (List.prefix_append_right_inj _).mp hb
    -- the reader of the key's front starves
    obtain ⟨e, he⟩ := (delimits_head F.version.compressed F.length_gammaAbc_lt F.key.betaG1
      F.key.deltaG1).starves r hr (by simpa [KeyFile.head] using hlen)
    have hdrop : (F.version.bytes ++ r).drop F.format.headerLen = r := List.drop_left
    have hread : readHead C F.format.compressed
        ((waiting chunk (F.version.bytes ++ r), s).1.buf.drop F.format.headerLen) = .error e := by
      show readHead C _ ((F.version.bytes ++ r).drop _) = _
      rw [hdrop]
      exact he
    rw [tryHeader_eq hparse, hread]
    dsimp only
    split_ifs with h h' h'
    · rfl
    · exact absurd h h'
    · exact absurd h' h
    · exact ⟨e, rfl⟩

/-- The front of a file, and more: the header is complete. -/
lemma tryHeader_full {chunk : ℕ} {x : List UInt8} (hb : F.head ++ x <+: F.bytes) (s : σ) :
    tryHeader f C (waiting chunk (F.head ++ x), s)
      = match f s F.headerEvent with
        | .error e => .error (.handler e)
        | .ok s => .ok ((between (.len 0) F.version.compressed (max chunk 1) (by omega), s), some x) := by
  have hhead := F.header_le_head
  have hver := F.version.length_bytes_le
  rw [MAX_HEADER_LEN] at hhead hver
  obtain ⟨hparse, -⟩ := F.parse_front hb (by rw [List.length_append]; omega)
    (by rw [List.length_append]; omega) false
  have hdrop : (F.head ++ x).drop F.format.headerLen
      = encodeHead C F.version.compressed F.key.vk F.key.betaG1 F.key.deltaG1 ++ x := by
    rw [KeyFile.head, List.append_assoc]
    exact List.drop_left
  have hread : readHead C F.format.compressed
      ((waiting chunk (F.head ++ x), s).1.buf.drop F.format.headerLen)
      = .ok ((F.key.vk, F.key.betaG1, F.key.deltaG1), x) := by
    show readHead C _ ((F.head ++ x).drop _) = _
    rw [hdrop]
    exact (delimits_head F.version.compressed F.length_gammaAbc_lt F.key.betaG1
      F.key.deltaG1).reads x
  have hevent : (KeyEvent.header F.key.vk F.key.betaG1 F.key.deltaG1 F.format.compressed
      F.format.domain : KeyEvent G₁ G₂) = F.headerEvent := by
    rw [KeyFile.headerEvent, F.domain_eq]
    rfl
  rw [tryHeader_eq hparse, hread]
  dsimp only
  rw [hevent]
  rfl

/-- The loop never goes back to the header. -/
lemma turn_ne_header {p : KeyParser × σ} {bytes : List UInt8} {t : Turn (KeyParser × σ) UInt8}
    (h : turn f p bytes = .ok t) : t.state.1.stage ≠ .header := by
  rw [turn] at h
  cases hs : p.1.stage with
  | header => rw [hs] at h; cases h
  | done =>
      rw [hs] at h
      dsimp only at h
      split_ifs at h
      cases h
      simp [Turn.state, hs]
  | len i =>
      rw [hs] at h
      dsimp only at h
      split_ifs at h
      · cases h
        simp [Turn.state, hs]
      · split at h <;> cases h
        simp [Turn.state]
  | points i len done hle =>
      rw [hs] at h
      dsimp only at h
      split_ifs at h
      · cases h
        show Stage.after i ≠ .header
        rw [Stage.after]
        split_ifs <;> simp
      · cases h
        simp [Turn.state, hs]
      · cases h
        simp [Turn.state, hs]
      · split at h <;> cases h
        simp [Turn.state]

lemma body_ne_header {p p' : KeyParser × σ} {bytes : List UInt8} (hp : p.1.stage ≠ .header)
    (h : body f p bytes = .ok p') : p'.1.stage ≠ .header :=
  Resumable.run_invariant (M := machine f) (P := fun p => p.1.stage ≠ .header)
    (fun _ ht => turn_ne_header ht) hp h

lemma feed_of_ne_header {p : KeyParser × σ} (hp : p.1.stage ≠ .header) (bytes : List UInt8) :
    feed f C p bytes = body f p bytes := by
  rw [feed]
  cases hs : p.1.stage with
  | header => exact absurd hs hp
  | len i => rfl
  | points i len done hle => rfl
  | done => rfl

/-- After the header, pieces are as good as their concatenation. -/
lemma body_foldlM_feed {p : KeyParser × σ} (hp : p.1.stage ≠ .header) (x : List UInt8)
    (cuts : List (List UInt8)) :
    (body f p x >>= fun p => cuts.foldlM (feed f C) p) = body f p (x ++ cuts.flatten) := by
  induction cuts generalizing p x with
  | nil =>
      rw [List.flatten_nil, List.append_nil]
      cases body f p x <;> rfl
  | cons c cuts ih =>
      have happend : body f p (x ++ (c :: cuts).flatten)
          = body f p x >>= fun p => body f p (c :: cuts).flatten :=
        (machine f).run_append p x _
      rw [happend]
      cases hx : body f p x with
      | error e => rfl
      | ok p' =>
          have hp' := body_ne_header hp hx
          show (c :: cuts).foldlM (feed f C) p' = body f p' (c :: cuts).flatten
          rw [List.foldlM_cons, feed_of_ne_header hp', ih hp' c, List.flatten_cons]

lemma feed_waiting (chunk : ℕ) (b c : List UInt8) (s : σ) :
    feed f C (waiting chunk b, s) c = match tryHeader f C (waiting chunk (b ++ c), s) with
      | .error e => .error e
      | .ok (p, none) => .ok p
      | .ok (p, some rest) => body f p rest := rfl

/-- A parser that has put by part of the front, fed the rest of the file. -/
lemma foldlM_feed_waiting (hhead : F.head.length ≤ 2 ^ 24) {chunk : ℕ} {b : List UInt8}
    (hb : b.length < F.head.length) {cuts : List (List UInt8)} (hcuts : b ++ cuts.flatten = F.bytes)
    (s : σ) :
    cuts.foldlM (feed f C) (waiting chunk b, s)
      = handled ((F.events chunk).foldlM f s) >>= fun s => .ok (finished F chunk, s) := by
  induction cuts generalizing b with
  | nil =>
      have hle : F.head.length ≤ F.bytes.length := by
        rw [F.bytes_eq, List.length_append]
        omega
      rw [List.flatten_nil, List.append_nil] at hcuts
      rw [hcuts] at hb
      omega
  | cons c cuts ih =>
      rw [List.flatten_cons, ← List.append_assoc] at hcuts
      have hprefix : b ++ c <+: F.bytes := hcuts ▸ List.prefix_append _ _
      have hfront : F.head <+: F.bytes := F.bytes_eq ▸ List.prefix_append _ _
      rw [List.foldlM_cons, feed_waiting]
      rcases Nat.lt_or_ge (b ++ c).length F.head.length with hshort | hfull
      · have htry := tryHeader_short (f := f) F chunk
          (List.prefix_of_prefix_length_le hprefix hfront hshort.le) hshort s
        rw [if_pos (by omega)] at htry
        rw [htry]
        exact ih hshort hcuts
      · obtain ⟨x, hx⟩ := List.prefix_of_prefix_length_le hfront hprefix hfull
        have hrest : x ++ cuts.flatten = ORDER.flatMap fun v => encodeVector (F.points v) := by
          rw [← hx, F.bytes_eq, List.append_assoc] at hcuts
          exact List.append_cancel_left hcuts
        rw [← hx, tryHeader_full F (hx ▸ hprefix), KeyFile.events, List.foldlM_cons]
        cases hf : f s F.headerEvent with
        | error e => rfl
        | ok s' =>
            refine (body_foldlM_feed (fun h => by cases h) x cuts).trans ?_
            rw [hrest]
            exact body_vectors f _ (fun v p hp => length_of_mem_keyPoints hp) F.length_points_lt s'

/-- **However a file is cut, the handler sees its events in order**, and the parser is done. -/
theorem feed_file (hhead : F.head.length ≤ 2 ^ 24) (chunk : ℕ) {cuts : List (List UInt8)}
    (hcuts : cuts.flatten = F.bytes) (s : σ) :
    cuts.foldlM (feed f C) (new chunk, s)
      = handled ((F.events chunk).foldlM f s) >>= fun s => .ok (finished F chunk, s) := by
  have hpos : 0 < F.head.length := lt_of_lt_of_le (by decide) F.header_le_head
  exact foldlM_feed_waiting F hhead (b := []) hpos hcuts s

variable (f) in
/-- **A front beyond the limit is refused**, when the file is cut within it. -/
theorem feed_refuses (hhead : 2 ^ 24 < F.head.length) (chunk : ℕ) (s : σ) :
    ∃ (cuts : List (List UInt8)) (e : SerializationError), cuts.flatten = F.bytes ∧
      cuts.foldlM (feed f C) (new chunk, s) = .error (.malformedHeader e) := by
  have hfront : F.head <+: F.bytes := F.bytes_eq ▸ List.prefix_append _ _
  have hlen : (F.bytes.take (2 ^ 24)).length = 2 ^ 24 :=
    List.length_take_of_le (hhead.le.trans hfront.length_le)
  have hb : F.bytes.take (2 ^ 24) <+: F.head :=
    List.prefix_of_prefix_length_le (List.take_prefix _ _) hfront (by rw [hlen]; exact hhead.le)
  have htry := tryHeader_short (f := f) F chunk hb (by rw [hlen]; exact hhead) s
  rw [if_neg (by rw [hlen]; omega)] at htry
  obtain ⟨e, he⟩ := htry
  refine ⟨[F.bytes.take (2 ^ 24), F.bytes.drop (2 ^ 24)], e, by simp, ?_⟩
  have hnew : (new chunk, s) = (waiting chunk [], s) := rfl
  rw [hnew, List.foldlM_cons, feed_waiting, List.nil_append, he]
  rfl

end KeyParser

/-! ### The stream -/

/-- The parser, with the count of the bytes received. -/
structure KeyStream where
  parser : KeyParser
  received : ℕ

namespace KeyStream

/-- A stream at the start. -/
def new (chunk : ℕ) : KeyStream := ⟨.new chunk, 0⟩

/-- The whole key has been consumed. -/
def isComplete (ks : KeyStream) : Bool :=
  match ks.parser.stage with
  | .done => true
  | _ => false

/-- Feed the next bytes to the handler `f`. -/
def push (p : KeyStream × σ) (bytes : List UInt8) : Except (KeyStreamError ε) (KeyStream × σ) :=
  match KeyParser.feed f C (p.1.parser, p.2) bytes with
  | .error e => .error e
  | .ok (parser, s) => .ok (⟨parser, p.1.received + bytes.length⟩, s)

/-- Pushing counts the bytes and feeds the parser. -/
lemma foldlM_push (cuts : List (List UInt8)) (p : KeyStream × σ) :
    cuts.foldlM (push f C) p = cuts.foldlM (KeyParser.feed f C) (p.1.parser, p.2) >>= fun q =>
      .ok (⟨q.1, p.1.received + cuts.flatten.length⟩, q.2) := by
  induction cuts generalizing p with
  | nil => rfl
  | cons c cuts ih =>
      rw [List.foldlM_cons, List.foldlM_cons, push]
      cases KeyParser.feed f C (p.1.parser, p.2) c with
      | error e => rfl
      | ok q =>
          show cuts.foldlM (push f C) (⟨q.1, p.1.received + c.length⟩, q.2) = _
          rw [ih, List.flatten_cons, List.length_append]
          simp only [Nat.add_assoc]
          rfl

variable {f} {C}

/-- The stream after a whole file. -/
def finished (F : KeyFile C) (chunk : ℕ) : KeyStream :=
  ⟨KeyParser.finished F chunk, F.bytes.length⟩

@[simp] lemma isComplete_finished (F : KeyFile C) (chunk : ℕ) :
    (finished F chunk).isComplete = true := rfl

/-- **However a file is cut, the handler sees its events in order**, and the stream is complete. -/
theorem push_file (F : KeyFile C) (hhead : F.head.length ≤ 2 ^ 24) (chunk : ℕ)
    {cuts : List (List UInt8)} (hcuts : cuts.flatten = F.bytes) (s : σ) :
    cuts.foldlM (push f C) (new chunk, s)
      = handled ((F.events chunk).foldlM f s) >>= fun s => .ok (finished F chunk, s) := by
  have hfile := KeyParser.feed_file (f := f) F hhead chunk hcuts s
  rw [foldlM_push]
  show cuts.foldlM (KeyParser.feed f C) (KeyParser.new chunk, s) >>= _ = _
  rw [hfile, hcuts]
  cases handled ((F.events chunk).foldlM f s) with
  | error e => rfl
  | ok s' =>
      show Except.ok (_, _) = Except.ok (_, _)
      rw [finished, new, Nat.zero_add]

end KeyStream

end Turns

end Groth16

end XarkCircuit
