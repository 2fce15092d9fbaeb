import XarkCircuit.Bytecode.Wire
import Mathlib.Data.Nat.Digits.Lemmas

/-!
Single instructions are read back (`bytecode.rs`).

* `Fits` bounds what an instruction holds: constants below 2^4096, lengths below 2^64.
* `Agree` ties the encoder's constant pool to the decoder's. Under both, each reader reads what its
  writer wrote, up to `reads_opcode`.
-/

namespace XarkCircuit

namespace Bytecode

open Codec

/-! ### What fits -/

/-- The largest constants the format is for. -/
def ConstFits (fc : FieldConst) : Prop := fc.natAbs < 2 ^ 4096

/-- Constants in range, and lengths that an address space holds. -/
structure LcFits (l : LinearCombination) : Prop where
  constant : ConstFits l.constant
  coeffs : ∀ t ∈ l.terms, ConstFits t.coeff
  length : l.terms.length < 2 ^ 64

/-- A list of combinations in range. -/
structure LcsFit (ls : List LinearCombination) : Prop where
  each : ∀ l ∈ ls, LcFits l
  length : ls.length < 2 ^ 64

/-- A note whose length an address space holds. -/
def NoteFits (note : Option String) : Prop := ∀ s, note = some s → (utf8 s).length < 2 ^ 64

/-- An instruction in range. -/
def Opcode.Fits : Opcode → Prop
  | .constraint r => LcFits r.a ∧ LcFits r.b ∧ LcFits r.c ∧ NoteFits r.note
  | .witness (.product _ left right) => LcFits left ∧ LcFits right
  | .witness (.linear _ l) => LcFits l
  | .witness (.xor _ a b) => LcFits a ∧ LcFits b
  | .witness (.or _ a b) => LcFits a ∧ LcFits b
  | .witness (.inverse _ input) => LcFits input
  | .witness (.inverseOrZero _ input) => LcFits input
  | .witness (.bit _ input _) => LcFits input
  | .witness (.bits outs input) => outs.length < 2 ^ 64 ∧ LcFits input
  | .witness (.divRem _ _ num den) => LcFits num ∧ LcFits den
  | .witness (.mulModDivMod q r a b modulus _) =>
      q.length < 2 ^ 64 ∧ r.length < 2 ^ 64 ∧ LcsFit a ∧ LcsFit b ∧ LcsFit modulus
  | .witness (.modInverse out a modulus _) => out.length < 2 ^ 64 ∧ LcsFit a ∧ LcsFit modulus
  | .witness (.fakeGlv out u modulus lambda _) =>
      out.length < 2 ^ 64 ∧ LcsFit u ∧ LcsFit modulus ∧ LcsFit lambda
  | .witness (.sub2 _ r a b c modulus _) =>
      r.length < 2 ^ 64 ∧ LcsFit a ∧ LcsFit b ∧ LcsFit c ∧ LcsFit modulus

/-- The encoder's map and the decoder's vector are one pool. -/
def Agree (pool : PoolMap) (vec : List FieldConst) : Prop :=
  ∀ fc i, pool fc = some i → vec[i.val]? = some fc

/-! ### Integers and strings -/

@[simp] lemma asU32_val (v : U32) : asU32 (v.val : ℤ) = v := by
  have hlt := v.isLt
  apply Fin.ext
  rw [asU32, Fin.val_ofNat]
  omega

lemma reads_vu32 (v : U32) : Reads vu32 (putVu32 v) v := by
  have h : Reads vu32 (putVu32 v) (asU32 (v.val : ℤ)) :=
    (reads_varint eof (lt_trans v.isLt (by norm_num))).ret fun v => asU32 v
  rwa [asU32_val] at h

lemma reads_ivarint {v : ℤ} (hlo : -2 ^ 63 ≤ v) (hhi : v < 2 ^ 63) :
    Reads ivarint (putIvarint v) v := by
  have h : Reads ivarint (putIvarint v) (unzigzag (zigzag v)) :=
    (reads_varint eof (zigzag_lt hlo hhi)).ret unzigzag
  rwa [unzigzag_zigzag] at h

@[simp] lemma fromUtf8_utf8 (s : String) : fromUtf8 (utf8 s) = some s := by
  have h : (⟨(utf8 s).toArray⟩ : ByteArray) = s.toByteArray := rfl
  rw [fromUtf8, h, String.fromUTF8?, dif_pos s.isValidUTF8]
  rfl

lemma reads_string {s : String} (hs : (utf8 s).length < 2 ^ 64) : Reads string (putStr s) s := by
  refine (reads_varint eof hs).bind ((reads_take eof (utf8 s)).last ?_)
  rw [fromUtf8_utf8]

lemma reads_optString {note : Option String} (h : NoteFits note) :
    Reads optString (putOptStr note) note := by
  cases note with
  | none => exact Reads.cons (Reads.pure none)
  | some s => exact Reads.cons ((reads_string (h s rfl)).ret some)

/-! ### Constants -/

/-- A negative integer from its magnitude. -/
lemma neg_natAbs {z : ℤ} (h : z < 0) : -(z.natAbs : ℤ) = z := by omega

lemma toBytesLe_length_lt {n : ℕ} (h : n < 2 ^ 4096) : (toBytesLe n).length < 2 ^ 64 := by
  have h256 : (2 : ℕ) ^ 4096 = 256 ^ 512 := by rw [show (256 : ℕ) = 2 ^ 8 from rfl, ← Nat.pow_mul]
  have hle : (Nat.digits 256 n).length ≤ 512 :=
    (Nat.digits_length_le_iff (by norm_num) n).mpr (lt_of_lt_of_eq h h256)
  rw [toBytesLe, List.length_map]
  omega

/-- Eight bytes are less than a word. -/
lemma lt_of_toBytesLe_length {n : ℕ} (h : (toBytesLe n).length ≤ 8) : n < 2 ^ 64 := by
  have h256 : (256 : ℕ) ^ 8 = 2 ^ 64 := (Nat.pow_mul 2 8 8).symm
  rw [toBytesLe, List.length_map] at h
  exact h256 ▸ (Nat.digits_length_le_iff (by norm_num) n).mp h

/-- The exponent of a power of two in range. -/
lemma log2_le {n : ℕ} (h : n < 2 ^ 4096) : n.log2 ≤ 4096 := by
  rcases Nat.eq_zero_or_pos n with rfl | hpos
  · exact Nat.zero_le _
  · exact ((Nat.log2_lt hpos.ne').mpr h).le

variable {vec : List FieldConst}

lemma reads_pow2 {k : ℕ} (h : k ≤ 4096) : Reads (fieldconst vec) (7 :: putVarint k) (2 ^ k) := by
  have hk : Reads (varint eof >>= fun k =>
      if 4096 < k then throw eof else Pure.pure (2 ^ k : ℤ)) (putVarint k ++ []) (2 ^ k) := by
    refine (reads_varint eof (by omega)).bind ?_
    rw [if_neg (by omega)]
    exact Reads.pure _
  rw [List.append_nil] at hk
  exact Reads.cons hk

lemma reads_negPow2 {k : ℕ} (h : k ≤ 4096) :
    Reads (fieldconst vec) (8 :: putVarint k) (-2 ^ k) := by
  have hk : Reads (varint eof >>= fun k =>
      if 4096 < k then throw eof else Pure.pure (-2 ^ k : ℤ)) (putVarint k ++ []) (-2 ^ k) := by
    refine (reads_varint eof (by omega)).bind ?_
    rw [if_neg (by omega)]
    exact Reads.pure _
  rw [List.append_nil] at hk
  exact Reads.cons hk

lemma reads_smallPos {v : ℕ} (h : v < 2 ^ 64) :
    Reads (fieldconst vec) (3 :: putVarint v) v :=
  Reads.cons ((reads_varint eof h).ret fun v => (v : ℤ))

lemma reads_smallNeg {v : ℕ} (h : v < 2 ^ 64) :
    Reads (fieldconst vec) (4 :: putVarint v) (-(v : ℤ)) :=
  Reads.cons ((reads_varint eof h).ret fun v => -(v : ℤ))

lemma reads_big {sign : UInt8} (hs : sign = 1 ∨ sign = 2) {mag : List UInt8}
    (h : mag.length < 2 ^ 64) :
    Reads (fieldconst vec) (5 :: sign :: (putVarint mag.length ++ mag))
      (if sign = 2 then -(fromBytesLe mag : ℤ) else fromBytesLe mag) := by
  refine Reads.cons (Reads.cons ?_)
  rw [if_pos hs]
  exact (reads_varint eof h).bind ((reads_take eof mag).ret fun mag =>
    if sign = 2 then -(fromBytesLe mag : ℤ) else fromBytesLe mag)

lemma reads_fieldconstPlain {fc : FieldConst} (h : ConstFits fc) :
    Reads (fieldconst vec) (putFieldconstPlain fc) fc := by
  have hlen := toBytesLe_length_lt h
  have hneg : fc < 0 → -(fc.natAbs : ℤ) = fc := neg_natAbs
  have hpos : ¬fc < 0 → (fc.natAbs : ℤ) = fc := fun hs => Int.natAbs_of_nonneg (not_lt.mp hs)
  unfold putFieldconstPlain
  dsimp only
  by_cases h0 : fc = 0
  · rw [if_pos h0, h0]
    exact Reads.cons (Reads.pure 0)
  rw [if_neg h0]
  by_cases h1 : fc = 1
  · rw [if_pos h1, h1]
    exact Reads.cons (Reads.pure 1)
  rw [if_neg h1]
  by_cases h2 : fc = -1
  · rw [if_pos h2, h2]
    exact Reads.cons (Reads.pure (-1))
  rw [if_neg h2]
  by_cases hp : isPowerOfTwo fc.natAbs
  · have hpow : (fc.natAbs : ℤ) = 2 ^ fc.natAbs.log2 := by exact_mod_cast of_decide_eq_true hp
    rw [if_pos hp]
    split_ifs with hs
    · have hr : Reads (fieldconst vec) _ _ := reads_negPow2 (log2_le h)
      rwa [← hpow, hneg hs] at hr
    · have hr : Reads (fieldconst vec) _ _ := reads_pow2 (log2_le h)
      rwa [← hpow, hpos hs] at hr
  rw [if_neg hp]
  by_cases hl : (toBytesLe fc.natAbs).length ≤ 8
  · rw [if_pos hl, fromBytesLe_toBytesLe]
    split_ifs with hs
    · have hr : Reads (fieldconst vec) _ _ := reads_smallNeg (lt_of_toBytesLe_length hl)
      rwa [hneg hs] at hr
    · have hr : Reads (fieldconst vec) _ _ := reads_smallPos (lt_of_toBytesLe_length hl)
      rwa [hpos hs] at hr
  rw [if_neg hl]
  split_ifs with hs
  · have hr : Reads (fieldconst vec) _ _ := reads_big (Or.inr rfl) hlen
    rwa [if_pos rfl, fromBytesLe_toBytesLe, hneg hs] at hr
  · have hr : Reads (fieldconst vec) _ _ := reads_big (Or.inl rfl) hlen
    rwa [if_neg (by decide), fromBytesLe_toBytesLe, hpos hs] at hr

section Pool

variable {pool : PoolMap} (hpool : Agree pool vec)
include hpool

/-- **A field constant is read back**, from the pool or on its own. -/
theorem reads_fieldconst {fc : FieldConst} (h : ConstFits fc) :
    Reads (fieldconst vec) (putFieldconst pool fc) fc := by
  unfold putFieldconst
  split
  · rename_i i hi
    have hfc : vec[i.val]? = some fc := by
      split_ifs at hi
      exact hpool fc i hi
    refine Reads.cons ((reads_varint eof (lt_trans i.isLt (by norm_num))).last ?_)
    rw [hfc]
  · exact reads_fieldconstPlain h

/-! ### Combinations -/

lemma reads_term {prev : ℤ} (hlo : 0 ≤ prev) (hhi : prev < 2 ^ 32) {t : Term}
    (h : ConstFits t.coeff) :
    Reads (term vec prev) (putTerm pool prev t) (t, (t.var.val : ℤ)) := by
  have hlt := t.var.isLt
  have hd : Reads ivarint (putIvarint (t.var.val - prev)) (t.var.val - prev) :=
    reads_ivarint (by omega) (by omega)
  have hr : Reads (term vec prev) (putTerm pool prev t)
      (⟨t.coeff, asU32 (prev + (t.var.val - prev))⟩, prev + (t.var.val - prev)) :=
    (reads_fieldconst hpool h).bind (hd.ret _)
  have hsum : prev + (t.var.val - prev) = (t.var.val : ℤ) := by omega
  rw [hsum, asU32_val] at hr
  exact hr

lemma reads_lc {l : LinearCombination} (h : LcFits l) : Reads (lc vec) (putLc pool l) l := by
  have hterms : Reads (scan (term vec) l.terms.length 0)
      (putScan (putTerm pool) (fun _ t => (t.var.val : ℤ)) 0 l.terms) l.terms := by
    refine Reads.scan (fun prev => 0 ≤ prev ∧ prev < 2 ^ 32) (by norm_num) fun prev hp t ht => ?_
    have hlt := t.var.isLt
    exact ⟨reads_term hpool hp.1 hp.2 (h.coeffs t ht), by omega, by omega⟩
  exact (reads_fieldconst hpool h.constant).bind
    ((reads_varint eof h.length).bind (hterms.ret _))

lemma reads_lcs {ls : List LinearCombination} (h : LcsFit ls) :
    Reads (lcs vec) (putLcs pool ls) ls :=
  (reads_varint eof h.length).bind (Reads.many fun l hl => reads_lc hpool (h.each l hl))

omit hpool in
lemma reads_varIds {ids : List VarId} (h : ids.length < 2 ^ 64) :
    Reads varIds (putVarIds ids) ids := by
  refine (reads_varint eof h).bind ?_
  refine Reads.scan (fun prev => 0 ≤ prev ∧ prev < 2 ^ 32) (by norm_num) fun prev hp v _ => ?_
  have hlt := v.isLt
  have hd : Reads ivarint (putIvarint (v.val - prev)) (v.val - prev) :=
    reads_ivarint (by omega) (by omega)
  have hr : Reads (varId prev) (putIvarint (v.val - prev))
      (asU32 (prev + (v.val - prev)), prev + (v.val - prev)) :=
    hd.ret _
  have hsum : prev + (v.val - prev) = (v.val : ℤ) := by omega
  rw [hsum, asU32_val] at hr
  exact ⟨hr, by omega, by omega⟩

lemma reads_r1csrow {r : R1csRow} (h : (Opcode.constraint r).Fits) :
    Reads (r1csrow vec) (putR1csrow pool r) r :=
  (reads_lc hpool h.1).bind ((reads_lc hpool h.2.1).bind ((reads_lc hpool h.2.2.1).bind
    ((reads_optString h.2.2.2).ret _)))

/-! ### Instructions -/

/-- **An instruction in range is read back.** -/
theorem reads_opcode {o : Opcode} (h : o.Fits) : Reads (opcode vec) (putOpcode pool o) o := by
  cases o with
  | constraint r => exact Reads.cons ((reads_r1csrow hpool h).ret _)
  | witness w =>
      cases w with
      | product out left right =>
          exact Reads.cons ((reads_vu32 out).bind ((reads_lc hpool h.1).bind
            ((reads_lc hpool h.2).ret _)))
      | linear out l => exact Reads.cons ((reads_vu32 out).bind ((reads_lc hpool h).ret _))
      | xor out a b =>
          exact Reads.cons ((reads_vu32 out).bind ((reads_lc hpool h.1).bind
            ((reads_lc hpool h.2).ret _)))
      | or out a b =>
          exact Reads.cons ((reads_vu32 out).bind ((reads_lc hpool h.1).bind
            ((reads_lc hpool h.2).ret _)))
      | inverse out input =>
          exact Reads.cons ((reads_vu32 out).bind ((reads_lc hpool h).ret _))
      | inverseOrZero out input =>
          exact Reads.cons ((reads_vu32 out).bind ((reads_lc hpool h).ret _))
      | bit out input index =>
          exact Reads.cons ((reads_vu32 out).bind ((reads_lc hpool h).bind
            ((reads_vu32 index).ret _)))
      | bits outs input =>
          exact Reads.cons ((reads_varIds h.1).bind ((reads_lc hpool h.2).ret _))
      | divRem q r num den =>
          exact Reads.cons ((reads_vu32 q).bind ((reads_vu32 r).bind ((reads_lc hpool h.1).bind
            ((reads_lc hpool h.2).ret _))))
      | mulModDivMod q r a b modulus limbBits =>
          obtain ⟨hq, hr, ha, hb, hm⟩ := h
          exact Reads.cons ((reads_varIds hq).bind ((reads_varIds hr).bind
            ((reads_lcs hpool ha).bind ((reads_lcs hpool hb).bind ((reads_lcs hpool hm).bind
              ((reads_vu32 limbBits).ret _))))))
      | modInverse out a modulus limbBits =>
          obtain ⟨ho, ha, hm⟩ := h
          exact Reads.cons ((reads_varIds ho).bind ((reads_lcs hpool ha).bind
            ((reads_lcs hpool hm).bind ((reads_vu32 limbBits).ret _))))
      | fakeGlv out u modulus lambda limbBits =>
          obtain ⟨ho, hu, hm, hl⟩ := h
          exact Reads.cons ((reads_varIds ho).bind ((reads_lcs hpool hu).bind
            ((reads_lcs hpool hm).bind ((reads_lcs hpool hl).bind
              ((reads_vu32 limbBits).ret _)))))
      | sub2 qabs r a b c modulus limbBits =>
          obtain ⟨hr, ha, hb, hc, hm⟩ := h
          exact Reads.cons ((reads_vu32 qabs).bind ((reads_varIds hr).bind
            ((reads_lcs hpool ha).bind ((reads_lcs hpool hb).bind ((reads_lcs hpool hc).bind
              ((reads_lcs hpool hm).bind ((reads_vu32 limbBits).ret _)))))))

end Pool

end Bytecode

end XarkCircuit
