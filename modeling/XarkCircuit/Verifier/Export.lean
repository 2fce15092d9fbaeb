import XarkCircuit.Groth16.Prove
import XarkCircuit.Verifier.Curve

/-!
The on-chain encodings of keys, proofs and inputs (`solana.rs`).

* `Bn254` has the tests of the curves; a point of `G1` or `G2` is a pair of coordinates that passes
  them, or infinity.
* `assembleVkBytesLe`, `assembleProofBytesLe` and `assemblePublicInputsBytesLe` write what the
  on-chain verifier reads; `decodeProofLe` reads a proof back.
* `decodeProofLe_assemble` and `assemble_decodeProofLe`: the two are inverse to each other.
-/

namespace XarkCircuit

namespace Verifier

open Codec

/-! ### Points -/

/-- The order `q` of the base field. -/
def qModulus : ℕ :=
  21888242871839275222246405745257275088696311157297823662689037894645226208583

instance : NeZero qModulus := ⟨by decide⟩

/-- The base field. -/
abbrev Fq := ZMod qModulus

/-- An affine point: infinity, or two coordinates. -/
abbrev Affine (F : Type) := Option (F × F)

/-- The tests of the two curves; coordinates of `G2` have two components. -/
structure Bn254 where
  isOnCurve₁ : Fq × Fq → Bool
  isInSubgroup₁ : Fq × Fq → Bool
  isOnCurve₂ : (Fq × Fq) × (Fq × Fq) → Bool
  isInSubgroup₂ : (Fq × Fq) × (Fq × Fq) → Bool

namespace Bn254

/-- A point of the first curve. -/
def valid₁ (C : Bn254) : Affine Fq → Bool
  | none => true
  | some p => C.isOnCurve₁ p && C.isInSubgroup₁ p

/-- A point of the second curve, in the subgroup of prime order. -/
def valid₂ (C : Bn254) : Affine (Fq × Fq) → Bool
  | none => true
  | some p => C.isOnCurve₂ p && C.isInSubgroup₂ p

/-- The first group. -/
abbrev G1 (C : Bn254) := { p : Affine Fq // C.valid₁ p = true }

/-- The second group. -/
abbrev G2 (C : Bn254) := { p : Affine (Fq × Fq) // C.valid₂ p = true }

end Bn254

/-! ### Writing -/

/-- A coordinate or a scalar as 32 bytes. -/
def le {n : ℕ} (f : ZMod n) : List UInt8 := leBytes 32 f.val

/-- `-p`: the second coordinate is negated. -/
def negateG1 : Affine Fq → Affine Fq
  | none => none
  | some (x, y) => some (x, 0 - y)

/-- A G1 point: `x || y`, and zeros for infinity. -/
def encodeG1Le : Affine Fq → List UInt8
  | none => List.replicate g1Bytes 0
  | some (x, y) => le x ++ le y

/-- A G2 point: `x.c0 || x.c1 || y.c0 || y.c1`, and zeros for infinity. -/
def encodeG2Le : Affine (Fq × Fq) → List UInt8
  | none => List.replicate g2Bytes 0
  | some (x, y) => le x.1 ++ le x.2 ++ le y.1 ++ le y.2

section Assemble

variable {C : Bn254}

/-- Points one after the other. -/
def encodePoints (ps : List C.G1) : List UInt8 := (ps.map fun P => encodeG1Le P.val).flatten

/-- A key: `alpha || beta || gamma || delta` and the `IC` points. -/
def assembleVkBytesLe (vk : Groth16.VerifyingKey C.G1 C.G2) : List UInt8 :=
  encodeG1Le vk.alphaG1 ++ encodeG2Le vk.betaG2 ++ encodeG2Le vk.gammaG2 ++ encodeG2Le vk.deltaG2
    ++ encodePoints vk.gammaAbcG1

/-- A proof over coordinates. -/
abbrev RawProof := Groth16.Proof (Affine Fq) (Affine (Fq × Fq))

/-- The coordinates of a proof. -/
def raw (proof : Groth16.Proof C.G1 C.G2) : RawProof := ⟨proof.a, proof.b, proof.c⟩

/-- A proof: `-A || B || C`. -/
def assembleProofBytesLe (proof : RawProof) : List UInt8 :=
  encodeG1Le (negateG1 proof.a) ++ encodeG2Le proof.b ++ encodeG1Le proof.c

end Assemble

/-- The public inputs: 32 bytes each. -/
def assemblePublicInputsBytesLe (inputs : List Fr) : List UInt8 := (inputs.map le).flatten

/-! ### Reading -/

/-- The four 64-bit limbs of 32 bytes, the lowest first. -/
def limbs (b : List UInt8) : List ℕ := (List.range 4).map fun i => fromBytesLe (slice b (8 * i) 8)

/-- The integer that limbs stand for. -/
def fromLimbs : List ℕ → ℕ
  | [] => 0
  | l :: ls => l + 2 ^ 64 * fromLimbs ls

/-- A coordinate, refused unless canonical. -/
def fqLe (b : List UInt8) : Except String Fq :=
  let n := fromLimbs (limbs b)
  if n < qModulus then .ok n else .error "a coordinate isn't below the field's modulus"

/-- A G1 point: infinity is all zeros. -/
def g1Le (C : Bn254) (b : List UInt8) : Except String (Affine Fq) :=
  if b.all (· == 0) then .ok none
  else do
    let x ← fqLe (slice b 0 32)
    let y ← fqLe (slice b 32 32)
    if !C.isOnCurve₁ (x, y) || !C.isInSubgroup₁ (x, y) then .error "a G1 point isn't on the curve"
    else .ok (some (x, y))

/-- A G2 point: infinity is all zeros. -/
def g2Le (C : Bn254) (b : List UInt8) : Except String (Affine (Fq × Fq)) :=
  if b.all (· == 0) then .ok none
  else do
    let x0 ← fqLe (slice b 0 32)
    let x1 ← fqLe (slice b 32 32)
    let y0 ← fqLe (slice b 64 32)
    let y1 ← fqLe (slice b 96 32)
    let p := ((x0, x1), (y0, y1))
    if !C.isOnCurve₂ p || !C.isInSubgroup₂ p then
      .error "a G2 point isn't in the curve's prime-order subgroup"
    else .ok (some p)

/-- A proof, every point checked and `A` negated back. -/
def decodeProofLe (C : Bn254) (bytes : List UInt8) : Except String RawProof :=
  if bytes.length ≠ proofBytes then
    .error ("an on-chain proof is " ++ toString proofBytes ++ " bytes, not "
      ++ toString bytes.length)
  else do
    let a ← g1Le C (slice bytes 0 g1Bytes)
    let b ← g2Le C (slice bytes g1Bytes g2Bytes)
    let c ← g1Le C (slice bytes (g1Bytes + g2Bytes) g1Bytes)
    return ⟨negateG1 a, b, c⟩

/-! ### Coordinates -/

@[simp] lemma length_le {n : ℕ} (f : ZMod n) : (le f).length = 32 := length_leBytes _ _

lemma fromBytesLe_le {n : ℕ} [NeZero n] (hn : n ≤ 256 ^ 32) (f : ZMod n) :
    fromBytesLe (le f) = f.val := by
  rw [le, fromBytesLe_leBytes, Nat.mod_eq_of_lt ((ZMod.val_lt f).trans_le hn)]

lemma slice_append_left {as bs : List UInt8} {n : ℕ} (h : as.length = n) :
    slice (as ++ bs) 0 n = as := by
  simp [slice, ← h]

lemma slice_append_right {as bs : List UInt8} {off n : ℕ} (h : as.length ≤ off) :
    slice (as ++ bs) off n = slice bs (off - as.length) n := by
  simp [slice, List.drop_append, List.drop_of_length_le h]

/-- Limbs stand for the integer of their bytes. -/
lemma fromLimbs_limbs {b : List UInt8} (h : b.length = 32) : fromLimbs (limbs b) = fromBytesLe b := by
  have hsplit : b = slice b 0 8 ++ (slice b 8 8 ++ (slice b 16 8 ++ slice b 24 8)) := by
    have h4 : slice b 24 8 = b.drop 24 := List.take_of_length_le (by rw [List.length_drop, h])
    have h3 : b.drop 16 = slice b 16 8 ++ b.drop 24 := by
      rw [slice, ← List.drop_drop (i := 8) (j := 16), List.take_append_drop]
    have h2 : b.drop 8 = slice b 8 8 ++ b.drop 16 := by
      rw [slice, ← List.drop_drop (i := 8) (j := 8), List.take_append_drop]
    rw [h4, ← h3, ← h2, slice, List.drop_zero, List.take_append_drop]
  have hlen : ∀ off ∈ [0, 8, 16], (slice b off 8).length = 8 := by
    intro off hoff
    refine length_slice ?_
    simp only [List.mem_cons, List.not_mem_nil, or_false] at hoff
    omega
  conv_rhs => rw [hsplit]
  rw [fromBytesLe_append, fromBytesLe_append, fromBytesLe_append, hlen 0 (by simp),
    hlen 8 (by simp), hlen 16 (by simp)]
  rfl

lemma fqLe_eq_ok {b : List UInt8} (h : b.length = 32) {x : Fq} :
    fqLe b = .ok x ↔ b = le x := by
  have hq : qModulus ≤ 256 ^ 32 := by decide
  rw [fqLe, fromLimbs_limbs h]
  constructor
  · intro hx
    split_ifs at hx with hlt
    cases hx
    refine fromBytesLe_injective (h.trans (length_le _).symm) ?_
    rw [fromBytesLe_le hq, ZMod.val_natCast, Nat.mod_eq_of_lt hlt]
  · rintro rfl
    rw [fromBytesLe_le hq, if_pos (ZMod.val_lt x), ZMod.natCast_zmod_val]

lemma le_injective {x y : Fq} (h : le x = le y) : x = y := by
  have hq : qModulus ≤ 256 ^ 32 := by decide
  have hval := congrArg fromBytesLe h
  rw [fromBytesLe_le hq, fromBytesLe_le hq] at hval
  exact ZMod.val_injective _ hval

lemma le_zero : le (0 : Fq) = List.replicate 32 0 := by
  refine fromBytesLe_injective (by simp) ?_
  rw [fromBytesLe_le (by decide), fromBytesLe_replicate_zero, ZMod.val_zero]

/-! ### Points and their encodings -/

@[simp] lemma length_encodeG1Le (p : Affine Fq) : (encodeG1Le p).length = g1Bytes := by
  rcases p with _ | ⟨x, y⟩
  · exact List.length_replicate
  · rw [encodeG1Le, List.length_append, length_le, length_le]
    rfl

@[simp] lemma length_encodeG2Le (p : Affine (Fq × Fq)) : (encodeG2Le p).length = g2Bytes := by
  rcases p with _ | ⟨x, y⟩
  · exact List.length_replicate
  · simp only [encodeG2Le, List.length_append, length_le]
    rfl

lemma negateG1_negateG1 (p : Affine Fq) : negateG1 (negateG1 p) = p := by
  rcases p with _ | ⟨x, y⟩
  · rfl
  · simp [negateG1]

/-- What is assumed of the curves: the all-zero coordinates are on neither of them, and the group's
negation negates the second coordinate. -/
structure Bn254.Lawful (C : Bn254) [AddCommGroup C.G1] : Prop where
  zero₁ : C.isOnCurve₁ (0, 0) = false
  zero₂ : C.isOnCurve₂ ((0, 0), (0, 0)) = false
  neg : ∀ P : C.G1, (-P).val = negateG1 P.val

lemma all_zero_iff {b : List UInt8} {n : ℕ} (h : b.length = n) :
    b.all (· == 0) = true ↔ b = List.replicate n 0 := by
  rw [List.eq_replicate_iff, List.all_eq_true]
  simp [h]

lemma except_bind_eq_ok {ε α β : Type} {x : Except ε α} {f : α → Except ε β} {b : β} :
    x >>= f = .ok b ↔ ∃ a, x = .ok a ∧ f a = .ok b := by
  cases x with
  | error f => exact ⟨fun h => (nomatch h), fun ⟨_, h, _⟩ => (nomatch h)⟩
  | ok a => exact ⟨fun h => ⟨a, rfl, h⟩, fun ⟨_, h, h'⟩ => by cases h; exact h'⟩

section Codec

variable {C : Bn254} [AddCommGroup C.G1]

/-- **A G1 point has one encoding.** -/
theorem g1Le_eq_ok (hC : C.Lawful) {b : List UInt8} (hb : b.length = g1Bytes) {p : Affine Fq} :
    g1Le C b = .ok p ↔ C.valid₁ p = true ∧ b = encodeG1Le p := by
  have hlow : (slice b 0 32).length = 32 := length_slice (by rw [hb]; decide)
  have hhigh : (slice b 32 32).length = 32 := length_slice (by rw [hb]; decide)
  have hsplit : b = slice b 0 32 ++ slice b 32 32 := by
    have h2 : slice b 32 32 = b.drop 32 :=
      List.take_of_length_le (by rw [List.length_drop, hb]; decide)
    rw [h2, slice, List.drop_zero, List.take_append_drop]
  rw [g1Le]
  by_cases hzero : b.all (· == 0) = true
  · rw [if_pos hzero]
    have hb0 := (all_zero_iff hb).mp hzero
    rcases p with _ | ⟨x, y⟩
    · exact ⟨fun _ => ⟨rfl, hb0⟩, fun _ => rfl⟩
    · refine ⟨fun h => (by cases h), fun h => ?_⟩
      obtain ⟨hvalid, henc⟩ := h
      -- both coordinates of an all-zero encoding are zero, and that is not on the curve
      rw [hb0, encodeG1Le, show g1Bytes = 32 + 32 from rfl, List.replicate_add, ← le_zero] at henc
      obtain ⟨hx, hy⟩ := List.append_inj henc (by simp)
      rw [← le_injective hx, ← le_injective hy, Bn254.valid₁, hC.zero₁] at hvalid
      cases hvalid
  · rw [if_neg hzero]
    simp only [except_bind_eq_ok, fqLe_eq_ok hlow, fqLe_eq_ok hhigh]
    constructor
    · rintro ⟨x, hx, y, hy, h⟩
      split_ifs at h with hbad
      cases h
      refine ⟨by simpa [Bn254.valid₁] using hbad, ?_⟩
      rw [hsplit, hx, hy]
      rfl
    · rintro ⟨hvalid, henc⟩
      rcases p with _ | ⟨x, y⟩
      · exact absurd ((all_zero_iff hb).mpr henc) hzero
      · have hxy : slice b 0 32 ++ slice b 32 32 = le x ++ le y := by rw [← hsplit, henc]; rfl
        obtain ⟨hx, hy⟩ := List.append_inj hxy (by rw [hlow, length_le])
        refine ⟨x, hx, y, hy, if_neg ?_⟩
        simpa [Bn254.valid₁] using hvalid

/-- **A G2 point has one encoding.** -/
theorem g2Le_eq_ok (hC : C.Lawful) {b : List UInt8} (hb : b.length = g2Bytes)
    {p : Affine (Fq × Fq)} : g2Le C b = .ok p ↔ C.valid₂ p = true ∧ b = encodeG2Le p := by
  have h0 : (slice b 0 32).length = 32 := length_slice (by rw [hb]; decide)
  have h1 : (slice b 32 32).length = 32 := length_slice (by rw [hb]; decide)
  have h2 : (slice b 64 32).length = 32 := length_slice (by rw [hb]; decide)
  have h3 : (slice b 96 32).length = 32 := length_slice (by rw [hb]; decide)
  have hsplit : b = slice b 0 32 ++ (slice b 32 32 ++ (slice b 64 32 ++ slice b 96 32)) := by
    have hlast : slice b 96 32 = b.drop 96 :=
      List.take_of_length_le (by rw [List.length_drop, hb]; decide)
    have hmid : b.drop 64 = slice b 64 32 ++ b.drop 96 := by
      rw [slice, ← List.drop_drop (i := 32) (j := 64), List.take_append_drop]
    have hlow : b.drop 32 = slice b 32 32 ++ b.drop 64 := by
      rw [slice, ← List.drop_drop (i := 32) (j := 32), List.take_append_drop]
    rw [hlast, ← hmid, ← hlow, slice, List.drop_zero, List.take_append_drop]
  rw [g2Le]
  by_cases hzero : b.all (· == 0) = true
  · rw [if_pos hzero]
    have hb0 := (all_zero_iff hb).mp hzero
    rcases p with _ | ⟨⟨x0, x1⟩, ⟨y0, y1⟩⟩
    · exact ⟨fun _ => ⟨rfl, hb0⟩, fun _ => rfl⟩
    · refine ⟨fun h => (by cases h), fun h => ?_⟩
      obtain ⟨hvalid, henc⟩ := h
      rw [hb0, encodeG2Le, show g2Bytes = 32 + (32 + (32 + 32)) from rfl, List.replicate_add,
        List.replicate_add, List.replicate_add, ← le_zero, List.append_assoc,
        List.append_assoc] at henc
      obtain ⟨hx0, henc⟩ := List.append_inj henc (by simp)
      obtain ⟨hx1, henc⟩ := List.append_inj henc (by simp)
      obtain ⟨hy0, hy1⟩ := List.append_inj henc (by simp)
      obtain rfl : 0 = x0 := le_injective hx0
      obtain rfl : 0 = x1 := le_injective hx1
      obtain rfl : 0 = y0 := le_injective hy0
      obtain rfl : 0 = y1 := le_injective hy1
      rw [Bn254.valid₂, hC.zero₂] at hvalid
      cases hvalid
  · rw [if_neg hzero]
    simp only [except_bind_eq_ok, fqLe_eq_ok h0, fqLe_eq_ok h1, fqLe_eq_ok h2, fqLe_eq_ok h3]
    constructor
    · rintro ⟨x0, hx0, x1, hx1, y0, hy0, y1, hy1, h⟩
      split_ifs at h with hbad
      cases h
      refine ⟨by simpa [Bn254.valid₂] using hbad, ?_⟩
      rw [hsplit, hx0, hx1, hy0, hy1, encodeG2Le, List.append_assoc, List.append_assoc]
    · rintro ⟨hvalid, henc⟩
      rcases p with _ | ⟨⟨x0, x1⟩, ⟨y0, y1⟩⟩
      · exact absurd ((all_zero_iff hb).mpr henc) hzero
      · have hall : slice b 0 32 ++ (slice b 32 32 ++ (slice b 64 32 ++ slice b 96 32))
            = le x0 ++ (le x1 ++ (le y0 ++ le y1)) := by
          rw [← hsplit, henc, encodeG2Le, List.append_assoc, List.append_assoc]
        obtain ⟨hx0, hall⟩ := List.append_inj hall (by rw [h0, length_le])
        obtain ⟨hx1, hall⟩ := List.append_inj hall (by rw [h1, length_le])
        obtain ⟨hy0, hy1⟩ := List.append_inj hall (by rw [h2, length_le])
        refine ⟨x0, hx0, x1, hx1, y0, hy0, y1, hy1, if_neg ?_⟩
        simpa [Bn254.valid₂] using hvalid

/-! ### Proofs and their encodings -/

lemma length_assembleProofBytesLe (proof : RawProof) :
    (assembleProofBytesLe proof).length = proofBytes := by
  simp only [assembleProofBytesLe, List.length_append, length_encodeG1Le, length_encodeG2Le]
  rfl

/-- What a proof is read from. -/
lemma decodeProofLe_eq_ok (hC : C.Lawful) {bytes : List UInt8} {p : RawProof} :
    decodeProofLe C bytes = .ok p ↔ bytes.length = proofBytes ∧ ∃ a, C.valid₁ a = true ∧
      C.valid₂ p.b = true ∧ C.valid₁ p.c = true ∧ p.a = negateG1 a ∧
        bytes = encodeG1Le a ++ encodeG2Le p.b ++ encodeG1Le p.c := by
  by_cases hlen : bytes.length = proofBytes
  · have ha : (slice bytes 0 g1Bytes).length = g1Bytes := length_slice (by rw [hlen]; decide)
    have hb : (slice bytes g1Bytes g2Bytes).length = g2Bytes := length_slice (by rw [hlen]; decide)
    have hc : (slice bytes (g1Bytes + g2Bytes) g1Bytes).length = g1Bytes :=
      length_slice (by rw [hlen]; decide)
    have hsplit : bytes = slice bytes 0 g1Bytes ++ slice bytes g1Bytes g2Bytes
        ++ slice bytes (g1Bytes + g2Bytes) g1Bytes := by
      have hlast : slice bytes (g1Bytes + g2Bytes) g1Bytes = bytes.drop (g1Bytes + g2Bytes) :=
        List.take_of_length_le (by rw [List.length_drop, hlen]; decide)
      have hmid : bytes.drop g1Bytes
          = slice bytes g1Bytes g2Bytes ++ bytes.drop (g1Bytes + g2Bytes) := by
        rw [slice, ← List.drop_drop, List.take_append_drop]
      rw [hlast, List.append_assoc, ← hmid, slice, List.drop_zero, List.take_append_drop]
    rw [decodeProofLe, if_neg (not_not.mpr hlen)]
    simp only [except_bind_eq_ok, g1Le_eq_ok hC ha, g1Le_eq_ok hC hc, g2Le_eq_ok hC hb, hlen,
      true_and]
    constructor
    · rintro ⟨a, ⟨hva, hea⟩, b, ⟨hvb, heb⟩, c, ⟨hvc, hec⟩, h⟩
      cases h
      exact ⟨a, hva, hvb, hvc, rfl, by rw [← hea, ← heb, ← hec]; exact hsplit⟩
    · rintro ⟨a, hva, hvb, hvc, hp, hbytes⟩
      have hall : slice bytes 0 g1Bytes ++ slice bytes g1Bytes g2Bytes
          ++ slice bytes (g1Bytes + g2Bytes) g1Bytes
            = encodeG1Le a ++ encodeG2Le p.b ++ encodeG1Le p.c := hsplit.symm.trans hbytes
      obtain ⟨hab, hec⟩ := List.append_inj' hall (by rw [hc, length_encodeG1Le])
      obtain ⟨hea, heb⟩ := List.append_inj hab (by rw [ha, length_encodeG1Le])
      refine ⟨a, ⟨hva, hea⟩, p.b, ⟨hvb, heb⟩, p.c, ⟨hvc, hec⟩, ?_⟩
      rw [← hp]
      rfl
  · rw [decodeProofLe, if_pos hlen]
    exact ⟨fun h => (by cases h), fun h => absurd h.1 hlen⟩

/-- **A proof that is written is read back.** -/
theorem decodeProofLe_assemble (hC : C.Lawful) (proof : Groth16.Proof C.G1 C.G2) :
    decodeProofLe C (assembleProofBytesLe (raw proof)) = .ok (raw proof) := by
  have hneg : C.valid₁ (negateG1 proof.a) = true := by
    rw [← hC.neg]
    exact (-proof.a).2
  refine (decodeProofLe_eq_ok hC).mpr ⟨length_assembleProofBytesLe _, negateG1 proof.a, hneg,
    proof.b.2, proof.c.2, ?_, rfl⟩
  rw [negateG1_negateG1]
  rfl

/-- **A proof that is read is the only one written so.** -/
theorem assemble_decodeProofLe (hC : C.Lawful) {bytes : List UInt8} {p : RawProof}
    (h : decodeProofLe C bytes = .ok p) :
    (∃ proof : Groth16.Proof C.G1 C.G2, p = raw proof) ∧ assembleProofBytesLe p = bytes := by
  obtain ⟨-, a, ha, hb, hc, hp, hbytes⟩ := (decodeProofLe_eq_ok hC).mp h
  have hneg := hC.neg ⟨a, ha⟩
  refine ⟨⟨⟨-⟨a, ha⟩, ⟨p.b, hb⟩, ⟨p.c, hc⟩⟩, ?_⟩, ?_⟩
  · rw [raw, hneg, ← hp]
  · rw [hbytes, assembleProofBytesLe, hp, negateG1_negateG1]

end Codec

end Verifier

end XarkCircuit
