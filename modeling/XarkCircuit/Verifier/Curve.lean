import XarkCircuit.Verifier.Bytes
import Mathlib.Algebra.Module.LinearMap.Basic
import Mathlib.LinearAlgebra.BilinearMap

/-!
The group backend as operations on encoded points.

* `AltBn128.Correct` says that the backend decodes its operands, computes in two groups of order `r`
  with a bilinear map, written by the exponent of its values, and encodes the result.
* `verifyProofOnlyStrict_eq` is the check of one proof in exponents: it answers whether the exponent
  of its pairing product is zero.
-/

namespace XarkCircuit

namespace Verifier

open Codec

/-- The scalar field. -/
abbrev Fr := ZMod rModulus

instance (priority := high) smulCommClass_fr : @SMulCommClass Fr Fr Fr Algebra.toSMul instSMulOfMul :=
  Algebra.to_smulCommClass

/-- The points that byte strings stand for; several strings may stand for one point. -/
structure WireCurve (G₁ G₂ : Type) where
  dec₁ : List UInt8 → Option G₁
  dec₂ : List UInt8 → Option G₂
  enc₁ : G₁ → List UInt8

section Laws

variable {G₁ G₂ : Type} [AddCommGroup G₁] [Module Fr G₁] [AddCommGroup G₂] [Module Fr G₂]

/-- The exponent of one pairing. -/
def operandExponent (W : WireCurve G₁ G₂) (e : G₁ →ₗ[Fr] G₂ →ₗ[Fr] Fr)
    (pq : List UInt8 × List UInt8) : Option Fr :=
  (W.dec₁ pq.1).bind fun P => (W.dec₂ pq.2).map fun Q => e P Q

/-- The exponent of a product of pairings, when every operand stands for a point. -/
def exponent (W : WireCurve G₁ G₂) (e : G₁ →ₗ[Fr] G₂ →ₗ[Fr] Fr) :
    List (List UInt8 × List UInt8) → Option Fr
  | [] => some 0
  | pq :: ps => (operandExponent W e pq).bind fun x => (exponent W e ps).map fun y => x + y

/-- The encoding of the integer 1, which stands for the identity of the target group. -/
def identityBytes : List UInt8 := 1 :: List.replicate 31 0

/-- A pairing call succeeds when there is an exponent, and tells whether it is zero. -/
def Tells : Option (List UInt8) → Option Fr → Prop
  | none, none => True
  | some out, some x => out.length = 32 ∧ (out = identityBytes ↔ x = 0)
  | _, _ => False

/-- The operands of a pairing have the widths of points. -/
def Operands (ps : List (List UInt8 × List UInt8)) : Prop :=
  ∀ pq ∈ ps, pq.1.length = g1Bytes ∧ pq.2.length = g2Bytes

/-- **The backend computes in the groups**: an operation succeeds exactly when its operands stand for
points, and its result stands for the result. -/
structure AltBn128.Correct (B : AltBn128) (W : WireCurve G₁ G₂) (e : G₁ →ₗ[Fr] G₂ →ₗ[Fr] Fr) :
    Prop where
  dec₁_enc₁ : ∀ P, W.dec₁ (W.enc₁ P) = some P
  length_enc₁ : ∀ P, (W.enc₁ P).length = g1Bytes
  g1Mul : ∀ p s, s.length = frBytes →
    B.g1Mul p s = (W.dec₁ p).map fun P => W.enc₁ ((fromBytesLe s : Fr) • P)
  g1Add : ∀ p q, B.g1Add p q = (W.dec₁ p).bind fun P => (W.dec₁ q).map fun Q => W.enc₁ (P + Q)
  pairing : ∀ ps, Operands ps → Tells (B.pairing ps) (exponent W e ps)
  pairingBytes : ∀ ps, Operands ps →
    Tells (B.pairingBytes (ps.map fun pq => pq.1 ++ pq.2).flatten) (exponent W e ps)

/-- The result of a pairing call. -/
def pairingResult (x : Fr) : List UInt8 := if x = 0 then identityBytes else List.replicate 32 0

/-- The backend that computes in the groups themselves. -/
def WireCurve.backend (W : WireCurve G₁ G₂) (e : G₁ →ₗ[Fr] G₂ →ₗ[Fr] Fr) : AltBn128 where
  g1Mul p s := (W.dec₁ p).map fun P => W.enc₁ ((fromBytesLe s : Fr) • P)
  g1Add p q := (W.dec₁ p).bind fun P => (W.dec₁ q).map fun Q => W.enc₁ (P + Q)
  pairing ps := (exponent W e ps).map pairingResult
  pairingBytes bytes := (exponent W e ((chunksExact (g1Bytes + g2Bytes) bytes).map fun c =>
    (c.take g1Bytes, c.drop g1Bytes))).map pairingResult

lemma tells_pairingResult (x : Option Fr) : Tells (x.map pairingResult) x := by
  cases x with
  | none => trivial
  | some x =>
      refine ⟨?_, ?_⟩
      · rw [pairingResult]
        split_ifs <;> rfl
      · rw [pairingResult]
        split_ifs with h
        · exact iff_of_true rfl h
        · exact iff_of_false (by decide) h

lemma WireCurve.backend_correct {W : WireCurve G₁ G₂} (e : G₁ →ₗ[Fr] G₂ →ₗ[Fr] Fr)
    (hdec : ∀ P, W.dec₁ (W.enc₁ P) = some P) (hlen : ∀ P, (W.enc₁ P).length = g1Bytes) :
    (W.backend e).Correct W e where
  dec₁_enc₁ := hdec
  length_enc₁ := hlen
  g1Mul _ _ _ := rfl
  g1Add _ _ := rfl
  pairing _ _ := tells_pairingResult _
  pairingBytes ps hps := by
    have hwidth : ∀ c ∈ ps.map fun pq => pq.1 ++ pq.2, c.length = g1Bytes + g2Bytes := by
      intro c hc
      obtain ⟨pq, hpq, rfl⟩ := List.mem_map.mp hc
      rw [List.length_append, (hps pq hpq).1, (hps pq hpq).2]
    have hsplit : ((ps.map fun pq => pq.1 ++ pq.2).map fun c =>
        (c.take g1Bytes, c.drop g1Bytes)) = ps := by
      rw [List.map_map]
      refine (List.map_congr_left fun pq hpq => ?_).trans (List.map_id _)
      simp [← (hps pq hpq).1]
    have hchunks := chunksExact_flatten (show 0 < g1Bytes + g2Bytes by decide) hwidth
    show Tells ((exponent W e (List.map _ (chunksExact _ _))).map pairingResult) _
    rw [hchunks, hsplit]
    exact tells_pairingResult _

end Laws

/-! ### Answers -/

@[simp] lemma answer_ok_bind {α β : Type} (a : α) (f : α → Answer β) :
    (Except.ok a : Answer α) >>= f = f a := rfl

@[simp] lemma refuse_bind {α β : Type} (x : VerifierError) (f : α → Answer β) :
    (refuse x : Answer α) >>= f = refuse x := rfl

@[simp] lemma refuse_ne_ok {α : Type} {x : VerifierError} {a : α} : (refuse x : Answer α) ≠ .ok a :=
  fun h => (nomatch h)

@[simp] lemma refuse_ne_panic {α : Type} {x : VerifierError} :
    (refuse x : Answer α) ≠ .error .panic :=
  fun h => (nomatch h)

lemma answer_bind_eq_ok {α β : Type} {x : Answer α} {f : α → Answer β} {b : β} :
    x >>= f = .ok b ↔ ∃ a, x = .ok a ∧ f a = .ok b := by
  cases x with
  | error f => exact ⟨fun h => (nomatch h), fun ⟨_, h, _⟩ => (nomatch h)⟩
  | ok a => exact ⟨fun h => ⟨a, rfl, h⟩, fun ⟨_, h, h'⟩ => by cases h; exact h'⟩

lemma syscall_eq_ok {α : Type} {o : Option α} {a : α} : syscall o = .ok a ↔ o = some a := by
  cases o with
  | none => exact ⟨fun h => (nomatch h), fun h => (nomatch h)⟩
  | some b => simp

lemma isIdentity_iff {out : List UInt8} (hlen : out.length = 32) :
    isIdentity out = true ↔ out = identityBytes := by
  obtain ⟨b, rest, rfl⟩ := List.exists_cons_of_length_eq_add_one hlen
  have hrest : rest.length = 31 := by simpa using hlen
  simp only [isIdentity, identityBytes, List.getD_cons_zero, List.drop_one, List.tail_cons,
    Bool.and_eq_true, beq_iff_eq, List.all_eq_true, List.cons.injEq, List.eq_replicate_iff, hrest,
    true_and]

/-- The answer that an exponent stands for. -/
def answerOf : Option Fr → Answer Bool
  | none => refuse .syscall
  | some x => .ok (decide (x = 0))

/-- The answer of a pairing call. -/
lemma Tells.answer {out : Option (List UInt8)} {x : Option Fr} (h : Tells out x) :
    (syscall out >>= fun result => (pure (isIdentity result) : Answer Bool)) = answerOf x := by
  cases out with
  | none =>
      cases x with
      | none => rfl
      | some x => exact h.elim
  | some out =>
      cases x with
      | none => exact h.elim
      | some x =>
          obtain ⟨hlen, hiff⟩ := h
          have hdec : isIdentity out = decide (x = 0) := by
            rw [Bool.eq_iff_iff, isIdentity_iff hlen, hiff, decide_eq_true_iff]
          exact congrArg Except.ok hdec

section Single

variable {G₁ G₂ : Type} [AddCommGroup G₁] [Module Fr G₁] [AddCommGroup G₂] [Module Fr G₂]
variable {B : AltBn128} {W : WireCurve G₁ G₂} {e : G₁ →ₗ[Fr] G₂ →ₗ[Fr] Fr}

lemma length_slice {bytes : List UInt8} {off n : ℕ} (h : off + n ≤ bytes.length) :
    (slice bytes off n).length = n := by
  rw [slice, List.length_take, List.length_drop]
  omega

/-! ### Exponents -/

lemma operandExponent_eq_some {pq : List UInt8 × List UInt8} {t : Fr} :
    operandExponent W e pq = some t ↔
      ∃ P Q, W.dec₁ pq.1 = some P ∧ W.dec₂ pq.2 = some Q ∧ e P Q = t := by
  rw [operandExponent, Option.bind_eq_some_iff]
  constructor
  · rintro ⟨P, hP, h⟩
    obtain ⟨Q, hQ, ht⟩ := Option.map_eq_some_iff.mp h
    exact ⟨P, Q, hP, hQ, ht⟩
  · rintro ⟨P, Q, hP, hQ, ht⟩
    exact ⟨P, hP, Option.map_eq_some_iff.mpr ⟨Q, hQ, ht⟩⟩

lemma exponent_cons_eq_some {pq : List UInt8 × List UInt8} {ps : List (List UInt8 × List UInt8)}
    {t : Fr} : exponent W e (pq :: ps) = some t ↔
      ∃ P Q u, W.dec₁ pq.1 = some P ∧ W.dec₂ pq.2 = some Q ∧ exponent W e ps = some u ∧
        e P Q + u = t := by
  rw [exponent, Option.bind_eq_some_iff]
  constructor
  · rintro ⟨x, hx, h⟩
    obtain ⟨u, hu, ht⟩ := Option.map_eq_some_iff.mp h
    obtain ⟨P, Q, hP, hQ, rfl⟩ := operandExponent_eq_some.mp hx
    exact ⟨P, Q, u, hP, hQ, hu, ht⟩
  · rintro ⟨P, Q, u, hP, hQ, hu, ht⟩
    exact ⟨e P Q, operandExponent_eq_some.mpr ⟨P, Q, hP, hQ, rfl⟩,
      Option.map_eq_some_iff.mpr ⟨u, hu, ht⟩⟩

/-! ### The operations -/

namespace AltBn128.Correct

lemma length_of_g1Add (hB : B.Correct W e) {p q out : List UInt8} (h : B.g1Add p q = some out) :
    out.length = g1Bytes := by
  rw [hB.g1Add] at h
  obtain ⟨P, -, h⟩ := Option.bind_eq_some_iff.mp h
  obtain ⟨Q, -, rfl⟩ := Option.map_eq_some_iff.mp h
  exact hB.length_enc₁ _

lemma g1Add_eq_some (hB : B.Correct W e) {p q out : List UInt8} :
    B.g1Add p q = some out ↔ ∃ P Q, W.dec₁ p = some P ∧ W.dec₁ q = some Q ∧ out = W.enc₁ (P + Q) := by
  rw [hB.g1Add, Option.bind_eq_some_iff]
  constructor
  · rintro ⟨P, hP, h⟩
    obtain ⟨Q, hQ, rfl⟩ := Option.map_eq_some_iff.mp h
    exact ⟨P, Q, hP, hQ, rfl⟩
  · rintro ⟨P, Q, hP, hQ, rfl⟩
    exact ⟨P, hP, Option.map_eq_some_iff.mpr ⟨Q, hQ, rfl⟩⟩

lemma g1Mul_eq_some (hB : B.Correct W e) {p s out : List UInt8} (hs : s.length = frBytes) :
    B.g1Mul p s = some out ↔
      ∃ P, W.dec₁ p = some P ∧ out = W.enc₁ ((fromBytesLe s : Fr) • P) := by
  rw [hB.g1Mul _ _ hs, Option.map_eq_some_iff]
  exact exists_congr fun P => and_congr_right fun _ => eq_comm

end AltBn128.Correct

/-! ### The inputs' sum -/

lemma length_of_addInputTerm (hB : B.Correct W e) {acc icI s x : List UInt8} {i : ℕ}
    (hacc : acc.length = g1Bytes) (h : addInputTerm B acc icI s i = .ok x) :
    x.length = g1Bytes := by
  rw [addInputTerm] at h
  split_ifs at h with hcanon hzero
  · exact absurd h refuse_ne_ok
  · cases h
    exact hacc
  · obtain ⟨term, -, h⟩ := answer_bind_eq_ok.mp h
    exact hB.length_of_g1Add (syscall_eq_ok.mp h)

lemma length_of_vkXFrom (hB : B.Correct W e) {ic inputs : List UInt8} {n : ℕ} :
    ∀ {i : ℕ} {acc x : List UInt8}, acc.length = g1Bytes →
      vkXFrom B ic inputs n i acc = .ok x → x.length = g1Bytes := by
  induction n with
  | zero =>
      intro i acc x hacc h
      cases h
      exact hacc
  | succ n ih =>
      intro i acc x hacc h
      obtain ⟨acc', hterm, h⟩ := answer_bind_eq_ok.mp h
      exact ih (length_of_addInputTerm hB hacc hterm) h

lemma length_of_vkX (hB : B.Correct W e) {ic inputs x : List UInt8} (hic : g1Bytes ≤ ic.length)
    (h : vkX B ic inputs = .ok x) : x.length = g1Bytes := by
  rw [vkX] at h
  dsimp only at h
  split_ifs at h with hwhole hover hcount
  · exact absurd h refuse_ne_ok
  · exact absurd h refuse_ne_ok
  · exact length_of_vkXFrom hB (length_slice (by omega)) h

/-! ### No step but the count of the inputs overflows -/

lemma syscall_ne_panic {α : Type} (o : Option α) : syscall o ≠ .error .panic := by
  cases o <;> simp [syscall, refuse]

lemma answer_bind_ne_panic {α β : Type} {x : Answer α} {f : α → Answer β}
    (hx : x ≠ .error .panic) (hf : ∀ a, f a ≠ .error .panic) : x >>= f ≠ .error .panic := by
  cases x with
  | error g => exact fun h => hx (by cases h; rfl)
  | ok a => exact hf a

lemma mulSmallBit_ne_panic (p : List UInt8) (k bit : ℕ) (acc : List UInt8) :
    mulSmallBit B p k bit acc ≠ .error .panic := by
  refine answer_bind_ne_panic (syscall_ne_panic _) fun acc => ?_
  split_ifs
  · exact syscall_ne_panic _
  · exact fun h => (nomatch h)

lemma mulSmallBelow_ne_panic (p : List UInt8) (k msb : ℕ) :
    ∀ (bit : ℕ) (acc : List UInt8), mulSmallBelow B p k msb bit acc ≠ .error .panic := by
  intro bit
  induction bit with
  | zero => exact fun acc h => (nomatch h)
  | succ bit ih =>
      intro acc
      rw [mulSmallBelow]
      split_ifs with hmsb
      · exact ih acc
      · exact answer_bind_ne_panic (mulSmallBit_ne_panic p k bit acc) ih

lemma addInputTerm_ne_panic (acc icI s : List UInt8) (i : ℕ) :
    addInputTerm B acc icI s i ≠ .error .panic := by
  rw [addInputTerm]
  split_ifs
  · exact refuse_ne_panic
  · exact fun h => (nomatch h)
  · refine answer_bind_ne_panic ?_ fun term => syscall_ne_panic _
    rw [inputTerm]
    split
    · exact mulSmallBelow_ne_panic _ _ _ _ _
    · exact syscall_ne_panic _

lemma vkXFrom_ne_panic (ic inputs : List UInt8) (n : ℕ) :
    ∀ (i : ℕ) (acc : List UInt8), vkXFrom B ic inputs n i acc ≠ .error .panic := by
  induction n with
  | zero => exact fun i acc h => (nomatch h)
  | succ n ih => exact fun i acc => answer_bind_ne_panic (addInputTerm_ne_panic _ _ _ _) (ih _)

/-- Whether `vk_x` overflows depends on the number of inputs alone. -/
lemma vkX_eq_panic {ic inputs : List UInt8} (h : vkX B ic inputs = .error .panic) :
    inputs.length % frBytes = 0 ∧ 2 ^ 32 ≤ inputs.length / frBytes % 2 ^ 32 + 1 := by
  rw [vkX] at h
  dsimp only at h
  split_ifs at h with hwhole hover hcount
  · exact absurd h refuse_ne_panic
  · exact ⟨not_not.mp hwhole, hover⟩
  · exact absurd h refuse_ne_panic
  · exact absurd h (vkXFrom_ne_panic _ _ _ _ _)

lemma vkX_of_panic {ic inputs : List UInt8} (h : inputs.length % frBytes = 0)
    (hover : 2 ^ 32 ≤ inputs.length / frBytes % 2 ^ 32 + 1) : vkX B ic inputs = .error .panic := by
  rw [vkX]
  dsimp only
  rw [if_neg (not_not.mpr h), if_pos hover]

/-! ### One proof in exponents -/

lemma parseVk_ic {vkBytes : List UInt8} {vk : VkParts} (h : parseVk vkBytes = .ok vk) :
    g1Bytes ≤ vk.ic.length ∧ vk.ic.length % g1Bytes = 0 := by
  rw [parseVk] at h
  dsimp only at h
  split_ifs at h with hshort hwhole
  · exact absurd h refuse_ne_ok
  · exact absurd h refuse_ne_ok
  · cases h
    refine ⟨?_, not_not.mp hwhole⟩
    show g1Bytes ≤ (vkBytes.drop vkFixedPrefixBytes).length
    rw [List.length_drop]
    omega

lemma parseVk_lengths {vkBytes : List UInt8} {vk : VkParts} (h : parseVk vkBytes = .ok vk) :
    vk.alpha.length = g1Bytes ∧ vk.beta.length = g2Bytes ∧ vk.gamma.length = g2Bytes ∧
      vk.delta.length = g2Bytes := by
  rw [parseVk] at h
  dsimp only at h
  split_ifs at h with hshort hwhole
  · exact absurd h refuse_ne_ok
  · exact absurd h refuse_ne_ok
  · cases h
    rw [vkFixedPrefixBytes] at hshort
    exact ⟨length_slice (by omega), length_slice (by omega), length_slice (by omega),
      length_slice (by omega)⟩

/-- The operands that the check of an entry pairs. -/
def entryOperands (vk : VkParts) (entry x : List UInt8) : List (List UInt8 × List UInt8) :=
  g16AssemblePairs (slice (entry.take proofBytes) 0 g1Bytes)
    (slice (entry.take proofBytes) g1Bytes g2Bytes) vk.alpha vk.beta x vk.gamma
    (slice (entry.take proofBytes) (g1Bytes + g2Bytes) g1Bytes) vk.delta

/-- The exponent of an entry's pairing product. -/
def entryExponent (B : AltBn128) (W : WireCurve G₁ G₂) (e : G₁ →ₗ[Fr] G₂ →ₗ[Fr] Fr)
    (vkBytes entry : List UInt8) : Option Fr :=
  match parseVk vkBytes with
  | .error _ => none
  | .ok vk =>
    match vkX B vk.ic (entry.drop proofBytes) with
    | .error _ => none
    | .ok x => exponent W e (entryOperands vk entry x)

lemma operands_entryOperands (hB : B.Correct W e) {vkBytes entry x : List UInt8} {vk : VkParts}
    (hvk : parseVk vkBytes = .ok vk) (hentry : proofBytes ≤ entry.length)
    (hx : vkX B vk.ic (entry.drop proofBytes) = .ok x) : Operands (entryOperands vk entry x) := by
  obtain ⟨halpha, hbeta, hgamma, hdelta⟩ := parseVk_lengths hvk
  have hproof : (entry.take proofBytes).length = 256 := by
    rw [List.length_take, min_eq_left hentry]
    rfl
  have hxlen := length_of_vkX hB (parseVk_ic hvk).1 hx
  simp only [Operands, entryOperands, g16AssemblePairs, List.mem_cons, List.not_mem_nil, or_false,
    forall_eq_or_imp, forall_eq, halpha, hbeta, hgamma, hdelta, hxlen, and_true, true_and]
  exact ⟨⟨length_slice (by rw [hproof]; decide), length_slice (by rw [hproof]; decide)⟩,
    length_slice (by rw [hproof]; decide)⟩

/-- **One proof in exponents.** -/
theorem verifyProofOnlyStrict_eq (hB : B.Correct W e) {vkBytes entry : List UInt8} {vk : VkParts}
    (hvk : parseVk vkBytes = .ok vk) (hentry : proofBytes ≤ entry.length)
    (hcvk : coordsCanonical vkBytes = true)
    (hcproof : coordsCanonical (entry.take proofBytes) = true) :
    verifyProofOnlyStrict B vkBytes entry
      = vkX B vk.ic (entry.drop proofBytes) >>= fun x =>
          answerOf (exponent W e (entryOperands vk entry x)) := by
  have hproof : (entry.take proofBytes).length = proofBytes := List.length_take_of_le hentry
  rw [verifyProofOnlyStrict, if_neg (not_lt.mpr hentry), verifyGroth16Strict, hcvk, hcproof]
  simp only [Bool.not_true, Bool.or_self, Bool.false_eq_true, if_false]
  rw [verifyGroth16, hvk, answer_ok_bind, if_neg (not_not.mpr hproof)]
  cases hx : vkX B vk.ic (entry.drop proofBytes) with
  | error f => rfl
  | ok x => exact (hB.pairing _ (operands_entryOperands hB hvk hentry hx)).answer

end Single

end Verifier

end XarkCircuit
