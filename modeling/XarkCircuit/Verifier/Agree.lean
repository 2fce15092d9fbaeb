import XarkCircuit.Verifier.Export

/-!
The on-chain and the off-chain verifier decide the same statements.

* `addInputTerm_spec` and `vkXFrom_spec`: the terms of the inputs, with their short cuts for zero and
  small scalars, add up to the off-chain sum.
* `verifyGroth16_assemble`: the on-chain check of exported bytes, in the terms of the off-chain
  equation; the counts of inputs and of `IC` points are cut to 32 bits.
* `verifiers_agree`: where the counts fit 32 bits the two decide alike, and the exact condition
  otherwise.
-/

namespace XarkCircuit

namespace Verifier

open Codec

section Terms

variable {G₁ G₂ : Type} [AddCommGroup G₁] [Module Fr G₁] [AddCommGroup G₂] [Module Fr G₂]
variable {B : AltBn128} {W : WireCurve G₁ G₂} {e : G₁ →ₗ[Fr] G₂ →ₗ[Fr] Fr}

/-! ### Small scalars -/

lemma smallScalar_eq_some {s : List UInt8} {k : ℕ}
    (h : smallScalar s = some k) : fromBytesLe s = k ∧ k ≠ 0 ∧ k ≤ 2 ^ maxAdds := by
  rw [smallScalar] at h
  split_ifs at h with hhigh
  dsimp only at h
  split_ifs at h with hbad
  have hk : fromBytesLe (s.take 8) = k := Option.some.inj h
  rw [hk] at hbad
  push Not at hbad
  have hdrop : s.drop 8 = List.replicate (s.drop 8).length 0 := (all_zero_iff rfl).mp hhigh
  refine ⟨?_, hbad.1, hbad.2.1⟩
  calc fromBytesLe s
      = fromBytesLe (s.take 8 ++ s.drop 8) := by rw [List.take_append_drop]
    _ = k := by rw [fromBytesLe_append, hdrop, fromBytesLe_replicate_zero, hk]; omega

/-- One bit of double-and-add. -/
lemma mulSmallBit_spec (hB : B.Correct W e) {p acc : List UInt8} {P : G₁} (hp : W.dec₁ p = some P)
    {k bit : ℕ} (hacc : W.dec₁ acc = some (((k / 2 ^ (bit + 1) : ℕ) : Fr) • P)) :
    ∃ out, mulSmallBit B p k bit acc = .ok out ∧
      W.dec₁ out = some (((k / 2 ^ bit : ℕ) : Fr) • P) := by
  have hhalf : k / 2 ^ bit / 2 = k / 2 ^ (bit + 1) := by rw [Nat.div_div_eq_div_mul, Nat.pow_succ]
  have hdouble : syscall (B.g1Add acc acc)
      = .ok (W.enc₁ (((k / 2 ^ (bit + 1) : ℕ) : Fr) • P + ((k / 2 ^ (bit + 1) : ℕ) : Fr) • P)) :=
    syscall_eq_ok.mpr (hB.g1Add_eq_some.mpr ⟨_, _, hacc, hacc, rfl⟩)
  rw [mulSmallBit, hdouble, answer_ok_bind]
  split_ifs with hset
  · refine ⟨_, syscall_eq_ok.mpr (hB.g1Add_eq_some.mpr ⟨_, _, hB.dec₁_enc₁ _, hp, rfl⟩), ?_⟩
    have hodd : k / 2 ^ bit % 2 = 1 := by simpa [Nat.testBit_eq_decide_div_mod_eq] using hset
    have hk : k / 2 ^ bit = k / 2 ^ (bit + 1) + k / 2 ^ (bit + 1) + 1 := by omega
    rw [hB.dec₁_enc₁, hk, Nat.cast_add, Nat.cast_add, Nat.cast_one, add_smul, add_smul, one_smul]
  · refine ⟨_, rfl, ?_⟩
    have heven : k / 2 ^ bit % 2 = 0 := by
      have hne : ¬ k / 2 ^ bit % 2 = 1 := by simpa [Nat.testBit_eq_decide_div_mod_eq] using hset
      omega
    have hk : k / 2 ^ bit = k / 2 ^ (bit + 1) + k / 2 ^ (bit + 1) := by omega
    rw [hB.dec₁_enc₁, hk, Nat.cast_add, add_smul]

/-- The bits from the most significant one down. -/
lemma mulSmallBelow_spec (hB : B.Correct W e) {p : List UInt8} {P : G₁} (hp : W.dec₁ p = some P)
    {k msb : ℕ} : ∀ {bit : ℕ} {acc : List UInt8},
      W.dec₁ acc = some (((k / 2 ^ min bit msb : ℕ) : Fr) • P) →
        ∃ out, mulSmallBelow B p k msb bit acc = .ok out ∧ W.dec₁ out = some ((k : Fr) • P) := by
  intro bit
  induction bit with
  | zero =>
      intro acc hacc
      rw [Nat.zero_min, pow_zero, Nat.div_one] at hacc
      exact ⟨acc, rfl, hacc⟩
  | succ bit ih =>
      intro acc hacc
      rw [mulSmallBelow]
      split_ifs with hmsb
      · -- a position above the most significant bit
        refine ih ?_
        rwa [min_eq_right hmsb, ← min_eq_right (hmsb.trans bit.le_succ)]
      · rw [min_eq_left (by omega)] at hacc
        obtain ⟨acc', hbit, hacc'⟩ := mulSmallBit_spec hB hp hacc
        have hbelow : W.dec₁ acc' = some (((k / 2 ^ min bit msb : ℕ) : Fr) • P) := by
          rwa [min_eq_left (by omega)]
        obtain ⟨out, hout, hdec⟩ := ih hbelow
        exact ⟨out, by rw [hbit]; exact hout, hdec⟩

/-- `mul_small` multiplies. -/
lemma mulSmall_spec (hB : B.Correct W e) {p : List UInt8} {P : G₁} (hp : W.dec₁ p = some P) {k : ℕ}
    (hk : k ≠ 0) (hle : k ≤ 2 ^ maxAdds) :
    ∃ out, mulSmall B p k = .ok out ∧ W.dec₁ out = some ((k : Fr) • P) := by
  refine mulSmallBelow_spec hB hp ?_
  have hmsb : Nat.log 2 k ≤ maxAdds := by
    have hmono := Nat.log_mono_right hle (b := 2)
    rwa [Nat.log_pow one_lt_two] at hmono
  have hone : k / 2 ^ Nat.log 2 k = 1 := by
    have hlow := Nat.pow_log_le_self 2 hk
    have hhigh := Nat.lt_pow_succ_log_self one_lt_two k
    rw [Nat.pow_succ] at hhigh
    exact Nat.div_eq_of_lt_le (by omega) (by omega)
  rw [min_eq_right hmsb, hone, Nat.cast_one, one_smul, hp]

/-! ### The terms of the inputs -/

/-- **One input's term**, whichever way it is computed. -/
theorem addInputTerm_spec (hB : B.Correct W e) {acc icI : List UInt8} {A P : G₁} {x : Fr} {i : ℕ}
    (hacc : W.dec₁ acc = some A) (hP : W.dec₁ icI = some P) :
    ∃ out, addInputTerm B acc icI (le x) i = .ok out ∧ W.dec₁ out = some (A + x • P) := by
  have hr : rModulus ≤ 256 ^ 32 := by decide
  have hval : fromBytesLe (le x) = x.val := fromBytesLe_le hr x
  have hcast : ((fromBytesLe (le x) : ℕ) : Fr) = x := by rw [hval, ZMod.natCast_zmod_val]
  have hcanon : scalarIsCanonical (le x) = true :=
    (scalarIsCanonical_iff (length_le x)).mpr (by rw [hval]; exact ZMod.val_lt x)
  rw [addInputTerm, hcanon, Bool.not_true, if_neg Bool.false_ne_true]
  split_ifs with hzero
  · refine ⟨acc, rfl, ?_⟩
    have hx : x = 0 := by
      rw [← hcast, hzero, fromBytesLe_replicate_zero, Nat.cast_zero]
    rw [hacc, hx, zero_smul, add_zero]
  · obtain ⟨term, hterm, hdec⟩ : ∃ term, inputTerm B icI (le x) = .ok term ∧
        W.dec₁ term = some (x • P) := by
      rw [inputTerm]
      cases hsmall : smallScalar (le x) with
      | none =>
          refine ⟨_, syscall_eq_ok.mpr ((hB.g1Mul_eq_some (length_le x)).mpr ⟨P, hP, rfl⟩), ?_⟩
          rw [hB.dec₁_enc₁, hcast]
      | some k =>
          obtain ⟨hk, hk0, hkle⟩ := smallScalar_eq_some hsmall
          obtain ⟨out, hout, hdec⟩ := mulSmall_spec hB hP hk0 hkle
          exact ⟨out, hout, by rw [hdec, ← hk, hcast]⟩
    rw [hterm, answer_ok_bind]
    exact ⟨_, syscall_eq_ok.mpr (hB.g1Add_eq_some.mpr ⟨A, _, hacc, hdec, rfl⟩), hB.dec₁_enc₁ _⟩

end Terms

section Exported

variable {C : Bn254} [AddCommGroup C.G1] [Module Fr C.G1] [AddCommGroup C.G2] [Module Fr C.G2]
variable {B : AltBn128} {W : WireCurve C.G1 C.G2} {e : C.G1 →ₗ[Fr] C.G2 →ₗ[Fr] Fr}

/-- The backend reads the exported encodings. -/
structure WireCurve.Encodes (W : WireCurve C.G1 C.G2) : Prop where
  dec₁ : ∀ P : C.G1, W.dec₁ (encodeG1Le P) = some P
  dec₂ : ∀ Q : C.G2, W.dec₂ (encodeG2Le Q) = some Q

/-- The sum of the inputs' terms. -/
def inputSum (ic : List C.G1) (xs : List Fr) : C.G1 :=
  (xs.zip (ic.drop 1)).foldl (fun acc p => acc + p.1 • p.2) (Groth16.entry ic 0)

/-- The pairing equation of a proof, given the sum of its inputs' terms. -/
def PairingEquation (e : C.G1 →ₗ[Fr] C.G2 →ₗ[Fr] Fr) (vk : Groth16.VerifyingKey C.G1 C.G2)
    (proof : Groth16.Proof C.G1 C.G2) (acc : C.G1) : Prop :=
  e proof.a proof.b + e acc (-vk.gammaG2) + e proof.c (-vk.deltaG2) = e vk.alphaG1 vk.betaG2

instance (vk : Groth16.VerifyingKey C.G1 C.G2) (proof : Groth16.Proof C.G1 C.G2) (acc : C.G1) :
    Decidable (PairingEquation e vk proof acc) := by
  unfold PairingEquation
  infer_instance

/-! ### Lists of encodings -/

lemma slice_flatten {n : ℕ} {bs : List (List UInt8)} (hbs : ∀ b ∈ bs, b.length = n) {i : ℕ}
    (hi : i < bs.length) : slice bs.flatten (i * n) n = bs[i] := by
  induction bs generalizing i with
  | nil => simp at hi
  | cons b bs ih =>
      have hb : b.length = n := hbs b List.mem_cons_self
      cases i with
      | zero => rw [Nat.zero_mul, List.flatten_cons, slice_append_left hb]; rfl
      | succ i =>
          have hoff : (i + 1) * n - b.length = i * n := by
            rw [hb, Nat.succ_mul, Nat.add_sub_cancel]
          have hle : b.length ≤ (i + 1) * n := by
            rw [hb, Nat.succ_mul]
            exact Nat.le_add_left _ _
          rw [List.flatten_cons, slice_append_right hle, hoff,
            ih (fun c hc => hbs c (List.mem_cons_of_mem _ hc)) (Nat.lt_of_succ_lt_succ hi)]
          rfl

lemma slice_encodings {α : Type} {f : α → List UInt8} {n : ℕ} (hf : ∀ a, (f a).length = n)
    {l : List α} {i : ℕ} (hi : i < l.length) : slice (l.map f).flatten (i * n) n = f l[i] := by
  have hbs : ∀ b ∈ l.map f, b.length = n := by
    intro b hb
    obtain ⟨a, -, rfl⟩ := List.mem_map.mp hb
    exact hf a
  rw [slice_flatten hbs (by rwa [List.length_map]), List.getElem_map]

lemma length_encodings {α : Type} {f : α → List UInt8} {n : ℕ} (hf : ∀ a, (f a).length = n)
    (l : List α) : (l.map f).flatten.length = l.length * n := by
  have hbs : ∀ b ∈ l.map f, b.length = n := by
    intro b hb
    obtain ⟨a, -, rfl⟩ := List.mem_map.mp hb
    exact hf a
  rw [length_flatten_const hbs, List.length_map]

lemma take_zip_left {α β : Type} (l : List α) (r : List β) (n : ℕ) :
    (l.zip r).take n = (l.take n).zip r := by
  induction n generalizing l r with
  | zero => simp
  | succ n ih =>
      cases l with
      | nil => simp
      | cons a l =>
          cases r with
          | nil => simp
          | cons b r => rw [List.zip_cons_cons, List.take_succ_cons, List.take_succ_cons,
              List.zip_cons_cons, ih]

/-- The loop over the inputs, from any of them on. -/
lemma vkXFrom_spec (hB : B.Correct W e) (hW : W.Encodes) {ic : List C.G1} {xs : List Fr} :
    ∀ {n i : ℕ} {acc : List UInt8} {A : C.G1}, i + n ≤ xs.length → i + n + 1 ≤ ic.length →
      W.dec₁ acc = some A →
        ∃ out, vkXFrom B (encodePoints ic) (assemblePublicInputsBytesLe xs) n i acc = .ok out ∧
          W.dec₁ out = some ((((xs.zip (ic.drop 1)).drop i).take n).foldl
            (fun acc p => acc + p.1 • p.2) A) := by
  intro n
  induction n with
  | zero => exact fun _ _ hacc => ⟨_, rfl, by simpa using hacc⟩
  | succ n ih =>
      intro i acc A hxs hic hacc
      have hi : i < xs.length := by omega
      have hi' : i + 1 < ic.length := by omega
      have hs : slice (assemblePublicInputsBytesLe xs) (i * frBytes) frBytes = le xs[i] :=
        slice_encodings (fun x => length_le x) hi
      have hp : slice (encodePoints ic) ((i + 1) * g1Bytes) g1Bytes = encodeG1Le ic[i + 1] :=
        slice_encodings (fun P => length_encodeG1Le _) hi'
      obtain ⟨acc', hterm, hacc'⟩ := addInputTerm_spec hB (x := xs[i]) (i := i) hacc
        (hW.dec₁ ic[i + 1])
      have hxs' : i + 1 + n ≤ xs.length := by omega
      have hic' : i + 1 + n + 1 ≤ ic.length := by omega
      obtain ⟨out, hout, hdec⟩ := ih hxs' hic' hacc'
      refine ⟨out, ?_, ?_⟩
      · rw [vkXFrom, hs, hp, hterm, answer_ok_bind, hout]
      · have hzip : i < (xs.zip (ic.drop 1)).length := by
          rw [List.length_zip, List.length_drop]
          omega
        rw [hdec, List.drop_eq_getElem_cons hzip, List.take_succ_cons, List.foldl_cons]
        simp

/-! ### The exported bytes -/

omit [AddCommGroup C.G1] [Module Fr C.G1] [AddCommGroup C.G2] [Module Fr C.G2] in
lemma parseVk_assemble {vk : Groth16.VerifyingKey C.G1 C.G2} (h : vk.gammaAbcG1 ≠ []) :
    parseVk (assembleVkBytesLe vk) = .ok {
      alpha := encodeG1Le vk.alphaG1
      beta := encodeG2Le vk.betaG2
      gamma := encodeG2Le vk.gammaG2
      delta := encodeG2Le vk.deltaG2
      ic := encodePoints vk.gammaAbcG1 } := by
  set ic := encodePoints vk.gammaAbcG1 with hic
  have hlenIc : ic.length = vk.gammaAbcG1.length * g1Bytes :=
    length_encodings (fun P => length_encodeG1Le _) _
  have hpos : 0 < vk.gammaAbcG1.length := List.length_pos_iff.mpr h
  have hbytes : assembleVkBytesLe vk = encodeG1Le vk.alphaG1 ++ (encodeG2Le vk.betaG2
      ++ (encodeG2Le vk.gammaG2 ++ (encodeG2Le vk.deltaG2 ++ ic))) := by
    simp only [assembleVkBytesLe, List.append_assoc, hic]
  have hlen : (assembleVkBytesLe vk).length
      = vkFixedPrefixBytes + vk.gammaAbcG1.length * g1Bytes := by
    rw [hbytes]
    simp only [List.length_append, length_encodeG1Le, length_encodeG2Le, hlenIc,
      vkFixedPrefixBytes]
    omega
  have hdrop : (assembleVkBytesLe vk).drop vkFixedPrefixBytes = ic := by
    have hprefix : (encodeG1Le vk.alphaG1 ++ encodeG2Le vk.betaG2 ++ encodeG2Le vk.gammaG2
        ++ encodeG2Le vk.deltaG2).length = vkFixedPrefixBytes := by
      simp only [List.length_append, length_encodeG1Le, length_encodeG2Le]
      rfl
    rw [assembleVkBytesLe, ← hprefix, List.drop_left]
  have hshort : ¬ (assembleVkBytesLe vk).length < vkFixedPrefixBytes + g1Bytes := by
    rw [hlen]
    have hmul : 1 * g1Bytes ≤ vk.gammaAbcG1.length * g1Bytes := Nat.mul_le_mul_right _ hpos
    omega
  rw [parseVk, if_neg hshort, hdrop]
  dsimp only
  rw [if_neg (by rw [hlenIc, Nat.mul_mod_left]; exact not_not.mpr rfl), hbytes]
  congr 2
  · exact slice_append_left (length_encodeG1Le _)
  · rw [slice_append_right (length_encodeG1Le _).le, length_encodeG1Le, Nat.sub_self,
      slice_append_left (length_encodeG2Le _)]
  · rw [slice_append_right (by rw [length_encodeG1Le]; decide), length_encodeG1Le,
      slice_append_right (by rw [length_encodeG2Le]; decide), length_encodeG2Le]
    exact slice_append_left (length_encodeG2Le _)
  · rw [slice_append_right (by rw [length_encodeG1Le]; decide), length_encodeG1Le,
      slice_append_right (by rw [length_encodeG2Le]; decide), length_encodeG2Le,
      slice_append_right (by rw [length_encodeG2Le]; decide), length_encodeG2Le]
    exact slice_append_left (length_encodeG2Le _)

lemma slices_assembleProof (proof : RawProof) :
    slice (assembleProofBytesLe proof) 0 g1Bytes = encodeG1Le (negateG1 proof.a) ∧
      slice (assembleProofBytesLe proof) g1Bytes g2Bytes = encodeG2Le proof.b ∧
        slice (assembleProofBytesLe proof) (g1Bytes + g2Bytes) g1Bytes = encodeG1Le proof.c := by
  rw [assembleProofBytesLe, List.append_assoc]
  refine ⟨slice_append_left (length_encodeG1Le _), ?_, ?_⟩
  · rw [slice_append_right (length_encodeG1Le _).le, length_encodeG1Le, Nat.sub_self,
      slice_append_left (length_encodeG2Le _)]
  · rw [slice_append_right (by rw [length_encodeG1Le]; decide), length_encodeG1Le,
      slice_append_right (by rw [length_encodeG2Le]; decide), length_encodeG2Le, slice]
    exact List.take_of_length_le (length_encodeG1Le _).le

/-! ### The two checks -/

/-- The off-chain check, as the pairing equation. -/
lemma verify_eq (vk : Groth16.VerifyingKey C.G1 C.G2) (xs : List Fr)
    (proof : Groth16.Proof C.G1 C.G2) :
    Groth16.verify e vk xs proof
      = if xs.length + 1 = vk.gammaAbcG1.length then
          .ok (decide (PairingEquation e vk proof (inputSum vk.gammaAbcG1 xs)))
        else .error (.publicInputCount (vk.gammaAbcG1.length - 1) xs.length) := by
  rw [Groth16.verify]
  dsimp only
  by_cases h : xs.length + 1 = vk.gammaAbcG1.length
  · have hfit : ¬ (xs.length ≠ vk.gammaAbcG1.length - 1 ∨ vk.gammaAbcG1.isEmpty = true) := by
      rw [not_or, not_not, List.isEmpty_iff_length_eq_zero]
      omega
    rw [if_neg hfit, if_pos h]
    rfl
  · have hmis : xs.length ≠ vk.gammaAbcG1.length - 1 ∨ vk.gammaAbcG1.isEmpty = true := by
      rw [List.isEmpty_iff_length_eq_zero]
      omega
    rw [if_pos hmis, if_neg h]

/-- The sum of the inputs that a 32-bit count reaches. -/
lemma vkX_assemble (hB : B.Correct W e) (hW : W.Encodes) {ic : List C.G1} {xs : List Fr}
    (hic : ic ≠ []) (hover : xs.length % 2 ^ 32 + 1 < 2 ^ 32)
    (hcount : ic.length % 2 ^ 32 = xs.length % 2 ^ 32 + 1) :
    ∃ out, vkX B (encodePoints ic) (assemblePublicInputsBytesLe xs) = .ok out ∧
      W.dec₁ out = some (inputSum ic (xs.take (xs.length % 2 ^ 32))) := by
  have hxs : (assemblePublicInputsBytesLe xs).length = xs.length * frBytes :=
    length_encodings (fun x => length_le x) xs
  have hps : (encodePoints ic).length = ic.length * g1Bytes :=
    length_encodings (fun P => length_encodeG1Le _) ic
  have hpos : 0 < ic.length := List.length_pos_iff.mpr hic
  have hn := Nat.mod_le ic.length (2 ^ 32)
  have hm := Nat.mod_le xs.length (2 ^ 32)
  have hfirst : slice (encodePoints ic) 0 g1Bytes = encodeG1Le (Groth16.entry ic 0).val := by
    have hzero := slice_encodings (n := g1Bytes) (fun P : C.G1 => length_encodeG1Le P.val) hpos
    have hentry : Groth16.entry ic 0 = ic[0] := by simp [Groth16.entry, hpos]
    rw [Nat.zero_mul] at hzero
    rw [encodePoints, hzero, hentry]
  have hxsLe : 0 + xs.length % 2 ^ 32 ≤ xs.length := by omega
  have hicLe : 0 + xs.length % 2 ^ 32 + 1 ≤ ic.length := by omega
  obtain ⟨out, hout, hdec⟩ := vkXFrom_spec hB hW hxsLe hicLe (hW.dec₁ (Groth16.entry ic 0))
  refine ⟨out, ?_, ?_⟩
  · rw [vkX, hxs, hps]
    dsimp only
    rw [if_neg (by rw [Nat.mul_mod_left]; exact not_not.mpr rfl),
      Nat.mul_div_cancel _ (by decide : 0 < frBytes),
      Nat.mul_div_cancel _ (by decide : 0 < g1Bytes), if_neg (by omega),
      if_neg (not_not.mpr hcount), hfirst]
    exact hout
  · rw [hdec, List.drop_zero, take_zip_left, inputSum]

/-- **The on-chain check of exported bytes**, in the terms of the off-chain equation. -/
theorem verifyGroth16_assemble (hB : B.Correct W e) (hW : W.Encodes) (hC : C.Lawful)
    {vk : Groth16.VerifyingKey C.G1 C.G2} (hic : vk.gammaAbcG1 ≠ []) (xs : List Fr)
    (proof : Groth16.Proof C.G1 C.G2) :
    verifyGroth16 B (assembleVkBytesLe vk) (assembleProofBytesLe (raw proof))
        (assemblePublicInputsBytesLe xs)
      = if 2 ^ 32 ≤ xs.length % 2 ^ 32 + 1 then .error .panic
        else if vk.gammaAbcG1.length % 2 ^ 32 ≠ xs.length % 2 ^ 32 + 1 then
          refuse (.inputArityMismatch (vk.gammaAbcG1.length % 2 ^ 32)
            (vk.gammaAbcG1.length % 2 ^ 32 - 1) (xs.length % 2 ^ 32))
        else .ok (decide (PairingEquation e vk proof
          (inputSum vk.gammaAbcG1 (xs.take (xs.length % 2 ^ 32))))) := by
  have hlen := length_assembleProofBytesLe (raw proof)
  obtain ⟨ha, hb, hc⟩ := slices_assembleProof (raw proof)
  have hxs : (assemblePublicInputsBytesLe xs).length = xs.length * frBytes :=
    length_encodings (fun x => length_le x) xs
  have hps : (encodePoints vk.gammaAbcG1).length = vk.gammaAbcG1.length * g1Bytes :=
    length_encodings (fun P => length_encodeG1Le _) vk.gammaAbcG1
  have hnum : (assemblePublicInputsBytesLe xs).length / frBytes = xs.length := by
    rw [hxs, Nat.mul_div_cancel _ (by decide)]
  have hcnt : (encodePoints vk.gammaAbcG1).length / g1Bytes = vk.gammaAbcG1.length := by
    rw [hps, Nat.mul_div_cancel _ (by decide)]
  have hwhole : (assemblePublicInputsBytesLe xs).length % frBytes = 0 := by
    rw [hxs, Nat.mul_mod_left]
  rw [verifyGroth16, parseVk_assemble hic, answer_ok_bind, if_neg (not_not.mpr hlen), ha, hb, hc]
  dsimp only
  split_ifs with hover hcount
  · rw [vkX_of_panic hwhole (by rw [hnum]; exact hover)]
    rfl
  · rw [vkX, hcnt, hnum]
    dsimp only
    rw [if_neg (not_not.mpr hwhole), if_neg hover, if_pos hcount]
    rfl
  · obtain ⟨x, hx, hX⟩ := vkX_assemble hB hW hic (not_le.mp hover) (not_not.mp hcount)
    have hneg : W.dec₁ (encodeG1Le (negateG1 (raw proof).a)) = some (-proof.a) := by
      have hcoe : negateG1 (raw proof).a = (-proof.a).val := (hC.neg proof.a).symm
      rw [hcoe]
      exact hW.dec₁ _
    have hxlen : x.length = g1Bytes := by
      refine length_of_vkX hB ?_ hx
      have hpos : 1 * g1Bytes ≤ vk.gammaAbcG1.length * g1Bytes :=
        Nat.mul_le_mul_right _ (List.length_pos_iff.mpr hic)
      omega
    have hops : Operands (g16AssemblePairs (encodeG1Le (negateG1 (raw proof).a))
        (encodeG2Le (raw proof).b) (encodeG1Le vk.alphaG1) (encodeG2Le vk.betaG2) x
        (encodeG2Le vk.gammaG2) (encodeG1Le (raw proof).c) (encodeG2Le vk.deltaG2)) := by
      simp [Operands, g16AssemblePairs, hxlen]
    have hexp : exponent W e (g16AssemblePairs (encodeG1Le (negateG1 (raw proof).a))
        (encodeG2Le (raw proof).b) (encodeG1Le vk.alphaG1) (encodeG2Le vk.betaG2) x
        (encodeG2Le vk.gammaG2) (encodeG1Le (raw proof).c) (encodeG2Le vk.deltaG2))
          = some (e (-proof.a) proof.b + (e vk.alphaG1 vk.betaG2
            + (e (inputSum vk.gammaAbcG1 (xs.take (xs.length % 2 ^ 32))) vk.gammaG2
              + (e proof.c vk.deltaG2 + 0)))) :=
      exponent_cons_eq_some.mpr ⟨_, _, _, hneg, hW.dec₂ _, exponent_cons_eq_some.mpr
        ⟨_, _, _, hW.dec₁ _, hW.dec₂ _, exponent_cons_eq_some.mpr ⟨_, _, _, hX, hW.dec₂ _,
          exponent_cons_eq_some.mpr ⟨_, _, 0, hW.dec₁ _, hW.dec₂ _, rfl, rfl⟩, rfl⟩, rfl⟩, rfl⟩
    have hanswer := (hB.pairing _ hops).answer
    rw [hexp] at hanswer
    rw [hx, answer_ok_bind]
    refine hanswer.trans (congrArg Except.ok (decide_eq_decide.mpr ?_))
    rw [PairingEquation]
    simp only [map_neg, LinearMap.neg_apply]
    constructor
    · intro h
      linear_combination -h
    · intro h
      linear_combination -h

/-- The two verifiers decide alike: the same answers, and an error exactly when the number of inputs
does not fit the key. -/
def SameDecision (B : AltBn128) (e : C.G1 →ₗ[Fr] C.G2 →ₗ[Fr] Fr)
    (vk : Groth16.VerifyingKey C.G1 C.G2) (xs : List Fr) (proof : Groth16.Proof C.G1 C.G2) : Prop :=
  (∀ b, verifyGroth16 B (assembleVkBytesLe vk) (assembleProofBytesLe (raw proof))
      (assemblePublicInputsBytesLe xs) = .ok b ↔ Groth16.verify e vk xs proof = .ok b) ∧
  ((∃ y, verifyGroth16 B (assembleVkBytesLe vk) (assembleProofBytesLe (raw proof))
      (assemblePublicInputsBytesLe xs) = .error (.err y)) ↔
    xs.length + 1 ≠ vk.gammaAbcG1.length)

/-- The counts survive being cut to 32 bits: the cut count of inputs can be increased, a misfit stays
one, and the inputs that are cut off do not change the pairing equation. -/
def CountsSurvive (e : C.G1 →ₗ[Fr] C.G2 →ₗ[Fr] Fr) (vk : Groth16.VerifyingKey C.G1 C.G2)
    (xs : List Fr) (proof : Groth16.Proof C.G1 C.G2) : Prop :=
  vk.gammaAbcG1 = [] ∨
    (xs.length % 2 ^ 32 + 1 < 2 ^ 32 ∧
      (xs.length + 1 ≠ vk.gammaAbcG1.length →
        vk.gammaAbcG1.length % 2 ^ 32 ≠ xs.length % 2 ^ 32 + 1) ∧
      (xs.length + 1 = vk.gammaAbcG1.length →
        (PairingEquation e vk proof (inputSum vk.gammaAbcG1 (xs.take (xs.length % 2 ^ 32))) ↔
          PairingEquation e vk proof (inputSum vk.gammaAbcG1 xs))))

/-- Counts below `2^32` survive. -/
lemma countsSurvive_of_lt {vk : Groth16.VerifyingKey C.G1 C.G2} {xs : List Fr}
    (proof : Groth16.Proof C.G1 C.G2) (hvk : vk.gammaAbcG1.length < 2 ^ 32)
    (hxs : xs.length + 1 < 2 ^ 32) : CountsSurvive e vk xs proof := by
  have hm : xs.length % 2 ^ 32 = xs.length := Nat.mod_eq_of_lt (by omega)
  rw [CountsSurvive, hm, Nat.mod_eq_of_lt hvk, List.take_length]
  exact Or.inr ⟨hxs, fun h => h.symm, fun _ => Iff.rfl⟩

omit [Module Fr C.G1] [AddCommGroup C.G2] [Module Fr C.G2] [AddCommGroup C.G1] in
lemma verifyGroth16_no_ic {vk : Groth16.VerifyingKey C.G1 C.G2} (h : vk.gammaAbcG1 = [])
    (proof inputs : List UInt8) :
    verifyGroth16 B (assembleVkBytesLe vk) proof inputs = refuse (.truncatedVk 512 448) := by
  have hlen : (assembleVkBytesLe vk).length = 448 := by
    simp only [assembleVkBytesLe, h, encodePoints, List.length_append, length_encodeG1Le,
      length_encodeG2Le]
    rfl
  rw [verifyGroth16, parseVk, hlen]
  rfl

/-- **When the two verifiers decide alike.** -/
theorem sameDecision_iff (hB : B.Correct W e) (hW : W.Encodes) (hC : C.Lawful)
    (vk : Groth16.VerifyingKey C.G1 C.G2) (xs : List Fr) (proof : Groth16.Proof C.G1 C.G2) :
    SameDecision B e vk xs proof ↔ CountsSurvive e vk xs proof := by
  rw [SameDecision, CountsSurvive, verify_eq]
  by_cases hic : vk.gammaAbcG1 = []
  · have hmis : ¬ xs.length + 1 = vk.gammaAbcG1.length := by rw [hic]; simp
    rw [verifyGroth16_no_ic hic, if_neg hmis]
    refine iff_of_true ⟨fun b => ⟨fun h => absurd h refuse_ne_ok, fun h => (nomatch h)⟩, ?_⟩
      (Or.inl hic)
    exact ⟨fun _ => hmis, fun _ => ⟨_, rfl⟩⟩
  · rw [verifyGroth16_assemble hB hW hC hic]
    simp only [hic, false_or]
    by_cases hover : 2 ^ 32 ≤ xs.length % 2 ^ 32 + 1
    · -- the count overflows: no answer and no error
      rw [if_pos hover]
      refine iff_of_false (fun ⟨hsame, herr⟩ => ?_) fun h => absurd h.1 (not_lt.mpr hover)
      have hfit : xs.length + 1 = vk.gammaAbcG1.length := by
        by_contra hne
        obtain ⟨y, hy⟩ := herr.mpr hne
        cases hy
      rw [if_pos hfit] at hsame
      exact (nomatch (hsame _).mpr rfl)
    · rw [if_neg hover]
      have hlt := not_le.mp hover
      by_cases hcount : vk.gammaAbcG1.length % 2 ^ 32 = xs.length % 2 ^ 32 + 1
      · rw [if_neg (not_not.mpr hcount)]
        by_cases hfit : xs.length + 1 = vk.gammaAbcG1.length
        · rw [if_pos hfit]
          constructor
          · rintro ⟨hsame, -⟩
            refine ⟨hlt, fun h => absurd hfit h, fun _ => ?_⟩
            have heq := Except.ok.inj ((hsame _).mpr rfl)
            exact decide_eq_decide.mp heq
          · rintro ⟨-, -, heq⟩
            refine ⟨fun b => ?_, fun ⟨y, hy⟩ => ?_, fun h => absurd hfit h⟩
            · constructor
              · intro h
                rw [← Except.ok.inj h]
                exact congrArg Except.ok (decide_eq_decide.mpr (heq hfit).symm)
              · intro h
                rw [← Except.ok.inj h]
                exact congrArg Except.ok (decide_eq_decide.mpr (heq hfit))
            · cases hy
        · -- a misfit that the cut hides
          rw [if_neg hfit]
          refine iff_of_false (fun ⟨hsame, _⟩ => ?_) fun h => h.2.1 hfit hcount
          exact (nomatch (hsame _).mp rfl)
      · rw [if_pos hcount]
        have hfit : ¬ xs.length + 1 = vk.gammaAbcG1.length := by
          intro hfit
          rw [← hfit] at hcount
          omega
        rw [if_neg hfit]
        refine iff_of_true ⟨fun b => ⟨fun h => absurd h refuse_ne_ok, fun h => (nomatch h)⟩, ?_⟩
          ⟨hlt, fun _ => hcount, fun h => absurd h hfit⟩
        exact ⟨fun _ => hfit, fun _ => ⟨_, rfl⟩⟩

/-- **The on-chain verifier against the off-chain one**: proofs and their encodings are in
one-to-one correspondence, the two verifiers decide alike exactly when the counts survive being cut
to 32 bits, and counts below `2^32` do. -/
theorem verifiers_agree (hB : B.Correct W e) (hW : W.Encodes) (hC : C.Lawful) :
    (∀ proof : Groth16.Proof C.G1 C.G2,
      decodeProofLe C (assembleProofBytesLe (raw proof)) = .ok (raw proof)) ∧
    (∀ bytes p, decodeProofLe C bytes = .ok p →
      (∃ proof : Groth16.Proof C.G1 C.G2, p = raw proof) ∧ assembleProofBytesLe p = bytes) ∧
    ∀ (vk : Groth16.VerifyingKey C.G1 C.G2) (xs : List Fr) (proof : Groth16.Proof C.G1 C.G2),
      (SameDecision B e vk xs proof ↔ CountsSurvive e vk xs proof) ∧
      (vk.gammaAbcG1.length < 2 ^ 32 → xs.length + 1 < 2 ^ 32 → CountsSurvive e vk xs proof) :=
  ⟨decodeProofLe_assemble hC, fun _ _ => assemble_decodeProofLe hC, fun vk xs proof =>
    ⟨sameDecision_iff hB hW hC vk xs proof, countsSurvive_of_lt proof⟩⟩

end Exported

/-! ### A curve without affine points -/

/-- Tests that no coordinates pass: both groups have the point at infinity alone. -/
def noPoints : Bn254 where
  isOnCurve₁ _ := false
  isInSubgroup₁ _ := false
  isOnCurve₂ _ := false
  isInSubgroup₂ _ := false

instance : Unique noPoints.G1 where
  default := ⟨none, rfl⟩
  uniq := by
    rintro ⟨_ | p, hp⟩
    · rfl
    · cases hp

instance : Unique noPoints.G2 where
  default := ⟨none, rfl⟩
  uniq := by
    rintro ⟨_ | p, hp⟩
    · rfl
    · cases hp

instance : AddCommGroup noPoints.G1 := (Equiv.ofUnique noPoints.G1 Unit).addCommGroup

instance : Module Fr noPoints.G1 where
  smul _ _ := 0
  one_smul _ := Subsingleton.elim _ _
  mul_smul _ _ _ := Subsingleton.elim _ _
  smul_zero _ := Subsingleton.elim _ _
  smul_add _ _ _ := Subsingleton.elim _ _
  add_smul _ _ _ := Subsingleton.elim _ _
  zero_smul _ := Subsingleton.elim _ _

instance : AddCommGroup noPoints.G2 := (Equiv.ofUnique noPoints.G2 Unit).addCommGroup

instance : Module Fr noPoints.G2 where
  smul _ _ := 0
  one_smul _ := Subsingleton.elim _ _
  mul_smul _ _ _ := Subsingleton.elim _ _
  smul_zero _ := Subsingleton.elim _ _
  smul_add _ _ _ := Subsingleton.elim _ _
  add_smul _ _ _ := Subsingleton.elim _ _
  zero_smul _ := Subsingleton.elim _ _

/-- Zero bytes are infinity, and nothing else is a point. -/
def infinityWire : WireCurve noPoints.G1 noPoints.G2 where
  dec₁ p := if p = List.replicate g1Bytes 0 then some default else none
  dec₂ p := if p = List.replicate g2Bytes 0 then some default else none
  enc₁ P := encodeG1Le P.val

lemma infinityWire_encodes : infinityWire.Encodes where
  dec₁ P := by
    rw [Unique.eq_default P]
    have hzero : encodeG1Le (default : noPoints.G1).val = List.replicate g1Bytes 0 := rfl
    simp only [infinityWire, hzero, if_pos]
  dec₂ Q := by
    rw [Unique.eq_default Q]
    have hzero : encodeG2Le (default : noPoints.G2).val = List.replicate g2Bytes 0 := rfl
    simp only [infinityWire, hzero, if_pos]

lemma infinityWire_correct : (infinityWire.backend 0).Correct infinityWire 0 :=
  WireCurve.backend_correct 0 infinityWire_encodes.dec₁ fun _ => length_encodeG1Le _

lemma noPoints_lawful : noPoints.Lawful where
  zero₁ := rfl
  zero₂ := rfl
  neg P := by
    rw [Unique.eq_default P, Unique.eq_default (-(default : noPoints.G1))]
    rfl

/-- A key at infinity with `n` points in `IC`. -/
def infinityKey (n : ℕ) : Groth16.VerifyingKey noPoints.G1 noPoints.G2 :=
  ⟨default, default, default, default, List.replicate n default⟩

/-- **A key of `2^32 + 2` points takes one input on the chain**, and is refused off it. -/
theorem not_sameDecision_longKey :
    ¬ SameDecision (infinityWire.backend 0) 0 (infinityKey (2 ^ 32 + 2)) [0]
      ⟨default, default, default⟩ := by
  rw [sameDecision_iff infinityWire_correct infinityWire_encodes noPoints_lawful, CountsSurvive,
    infinityKey, List.length_replicate]
  rintro (h | ⟨-, h, -⟩)
  · exact absurd (congrArg List.length h) (by rw [List.length_replicate]; decide)
  · exact h (by decide) (by decide)

/-- A key of two points decides alike on one input. -/
theorem verifiers_agree_shortKey :
    SameDecision (infinityWire.backend 0) 0 (infinityKey 2) [0] ⟨default, default, default⟩ := by
  have h := (verifiers_agree infinityWire_correct infinityWire_encodes noPoints_lawful).2.2
    (infinityKey 2) [0] ⟨default, default, default⟩
  exact h.1.mpr (h.2 (by decide) (by decide))

end Verifier

end XarkCircuit
