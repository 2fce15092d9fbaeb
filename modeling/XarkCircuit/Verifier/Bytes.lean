import XarkCircuit.Verifier.Wire
import Mathlib.Tactic.LinearCombination

/-!
The byte strings of the verifier as integers.

* `leLt_iff`: `le_lt` compares integers.
* `addModR_spec`: the conditional subtraction of `add_mod_r` reduces modulo `r`.
* `batchWeight_mem`: a weight lies in `[2^252, 2^253)`, whatever the hash; so it is canonical and
  not zero modulo `r` (`natCast_batchWeight_ne_zero`).
-/

namespace XarkCircuit

namespace Verifier

open Codec

/-! ### Integers -/

lemma fromBytesLe_frModulusLe : fromBytesLe frModulusLe = rModulus := by
  decide

/-! ### Comparison -/

lemma take_succ_getD {bs : List UInt8} {i : ℕ} (h : i < bs.length) :
    bs.take (i + 1) = bs.take i ++ [bs.getD i 0] := by
  rw [List.take_succ_eq_append_getElem h, List.getD_eq_getElem?_getD, List.getElem?_eq_getElem h,
    Option.getD_some]

lemma leLtBelow_iff {a m : List UInt8} {i : ℕ} (ha : i ≤ a.length) (hm : i ≤ m.length) :
    leLtBelow a m i = true ↔ fromBytesLe (a.take i) < fromBytesLe (m.take i) := by
  induction i with
  | zero => simp [leLtBelow]
  | succ i ih =>
      have hla : (a.take i).length = i := List.length_take_of_le (by omega)
      have hlm : (m.take i).length = i := List.length_take_of_le (by omega)
      have hva := fromBytesLe_lt (a.take i)
      have hvm := fromBytesLe_lt (m.take i)
      rw [hla] at hva
      rw [hlm] at hvm
      rw [take_succ_getD ha, take_succ_getD hm, fromBytesLe_append, fromBytesLe_append, hla, hlm,
        fromBytesLe_cons, fromBytesLe_cons, leLtBelow]
      simp only [fromBytesLe_nil, Nat.mul_zero, Nat.add_zero]
      split_ifs with heq
      · -- the highest byte decides
        rw [decide_eq_true_iff, UInt8.lt_iff_toNat_lt]
        have hne : (a.getD i 0).toNat ≠ (m.getD i 0).toNat := fun h => heq (UInt8.toNat_inj.mp h)
        constructor
        · intro hlt
          nlinarith
        · intro hlt
          by_contra hge
          have hgt : (m.getD i 0).toNat + 1 ≤ (a.getD i 0).toNat := by omega
          nlinarith
      · rw [ih (by omega) (by omega), not_not.mp heq]
        omega

/-- **`le_lt` compares integers.** -/
theorem leLt_iff {a m : List UInt8} (ha : a.length = frBytes) (hm : m.length = frBytes) :
    leLt a m = true ↔ fromBytesLe a < fromBytesLe m := by
  rw [leLt, leLtBelow_iff ha.ge hm.ge, ← ha, List.take_length, ha, ← hm, List.take_length]

lemma scalarIsCanonical_iff {s : List UInt8} (hs : s.length = frBytes) :
    scalarIsCanonical s = true ↔ fromBytesLe s < rModulus := by
  rw [scalarIsCanonical, leLt_iff hs rfl, fromBytesLe_frModulusLe]

/-! ### Sums modulo `r` -/

@[simp] lemma length_addCarry (carry : ℕ) {a x : List UInt8} (h : a.length = x.length) :
    (addCarry carry a x).length = a.length := by
  induction a generalizing carry x with
  | nil => rfl
  | cons b a ih =>
      obtain ⟨c, x, rfl⟩ := List.exists_cons_of_length_eq_add_one h.symm
      simp [addCarry, ih _ (by simpa using h)]

/-- The bytes of a sum, with the carry that they leave. -/
lemma fromBytesLe_addCarry (carry : ℕ) {a x : List UInt8} (h : a.length = x.length) :
    ∃ out, fromBytesLe (addCarry carry a x) + out * 256 ^ a.length
      = fromBytesLe a + fromBytesLe x + carry := by
  induction a generalizing carry x with
  | nil =>
      obtain rfl := List.length_eq_zero_iff.mp h.symm
      exact ⟨carry, by simp [addCarry]⟩
  | cons b a ih =>
      obtain ⟨c, x, rfl⟩ := List.exists_cons_of_length_eq_add_one h.symm
      set t := b.toNat + c.toNat + carry with ht
      obtain ⟨out, hout⟩ := ih (t / 256) (by simpa using h)
      refine ⟨out, ?_⟩
      have hhead : (UInt8.ofNat t).toNat = t % 256 := UInt8.toNat_ofNat' ..
      have hpow : out * 256 ^ (b :: a).length = 256 * (out * 256 ^ a.length) := by
        rw [List.length_cons, Nat.pow_succ]
        ring
      rw [addCarry, fromBytesLe_cons, fromBytesLe_cons, fromBytesLe_cons, hpow, ← ht, hhead]
      omega

@[simp] lemma length_subBorrow (borrow : ℤ) {a m : List UInt8} (h : a.length = m.length) :
    (subBorrow borrow a m).length = a.length := by
  induction a generalizing borrow m with
  | nil => rfl
  | cons b a ih =>
      obtain ⟨c, m, rfl⟩ := List.exists_cons_of_length_eq_add_one h.symm
      simp [subBorrow, ih _ (by simpa using h)]

/-- The bytes of a difference, with the borrow that they leave. -/
lemma fromBytesLe_subBorrow {borrow : ℤ} (hborrow : borrow = 0 ∨ borrow = 1) {a m : List UInt8}
    (h : a.length = m.length) :
    ∃ out : ℤ, (fromBytesLe (subBorrow borrow a m) : ℤ)
      = fromBytesLe a - fromBytesLe m - borrow + out * 256 ^ a.length := by
  induction a generalizing borrow m with
  | nil =>
      obtain rfl := List.length_eq_zero_iff.mp h.symm
      exact ⟨borrow, by simp [subBorrow]⟩
  | cons b a ih =>
      obtain ⟨c, m, rfl⟩ := List.exists_cons_of_length_eq_add_one h.symm
      have hb : b.toNat < 256 := b.toNat_lt
      have hc : c.toNat < 256 := c.toNat_lt
      set t : ℤ := b.toNat - c.toNat - borrow with ht
      set next : ℤ := if t < 0 then 1 else 0 with hnext
      have hnext01 : next = 0 ∨ next = 1 := by
        rw [hnext]
        split_ifs <;> omega
      have hhead : ((UInt8.ofNat (t % 256).toNat).toNat : ℤ) = t + 256 * next := by
        rw [UInt8.toNat_ofNat', hnext]
        split_ifs <;> omega
      obtain ⟨out, hout⟩ := ih hnext01 (by simpa using h)
      refine ⟨out, ?_⟩
      rw [subBorrow, fromBytesLe_cons, fromBytesLe_cons, fromBytesLe_cons, List.length_cons,
        pow_succ]
      push_cast
      rw [hhead, hout, ht]
      ring

lemma length_addModR {acc x : List UInt8} (ha : acc.length = frBytes) (hx : x.length = frBytes) :
    (addModR acc x).length = frBytes := by
  have hsum : (addCarry 0 acc x).length = frBytes := by
    rw [length_addCarry _ (ha.trans hx.symm), ha]
  rw [addModR]
  split_ifs
  · rw [length_subBorrow _ (hsum.trans rfl), hsum]
  · exact hsum

/-- **`add_mod_r` adds modulo `r`.** -/
theorem addModR_spec {acc x : List UInt8} (ha : acc.length = frBytes) (hx : x.length = frBytes)
    (hacc : fromBytesLe acc < rModulus) (hxr : fromBytesLe x < rModulus) :
    fromBytesLe (addModR acc x) = (fromBytesLe acc + fromBytesLe x) % rModulus := by
  have hr : 2 * rModulus < 256 ^ frBytes := by decide
  have hlen := length_addCarry 0 (ha.trans hx.symm)
  rw [ha] at hlen
  -- the sum fits in 32 bytes
  obtain ⟨out, hout⟩ := fromBytesLe_addCarry 0 (ha.trans hx.symm)
  rw [ha] at hout
  have hout0 : out = 0 := by
    by_contra hne
    have hle : 1 * 256 ^ frBytes ≤ out * 256 ^ frBytes :=
      Nat.mul_le_mul_right _ (Nat.one_le_iff_ne_zero.mpr hne)
    omega
  have hsum : fromBytesLe (addCarry 0 acc x) = fromBytesLe acc + fromBytesLe x := by
    rw [hout0] at hout
    omega
  have hlt := leLt_iff hlen (show frModulusLe.length = frBytes from rfl)
  rw [fromBytesLe_frModulusLe, hsum] at hlt
  rw [addModR]
  by_cases hsmall : fromBytesLe acc + fromBytesLe x < rModulus
  · rw [hlt.mpr hsmall, if_neg (by simp), hsum, Nat.mod_eq_of_lt hsmall]
  · have hfalse : leLt (addCarry 0 acc x) frModulusLe = false :=
      Bool.eq_false_iff.mpr fun h => hsmall (hlt.mp h)
    obtain ⟨bout, hbout⟩ := fromBytesLe_subBorrow (Or.inl rfl) (hlen.trans
      (show frBytes = frModulusLe.length from rfl))
    have hbound := fromBytesLe_lt (subBorrow 0 (addCarry 0 acc x) frModulusLe)
    rw [length_subBorrow _ (hlen.trans rfl), hlen] at hbound
    rw [hlen, hsum, fromBytesLe_frModulusLe] at hbout
    -- no borrow is left, since the difference is not negative
    have hbout0 : bout = 0 := by
      have hcast : ((256 : ℤ) ^ frBytes) = ((256 ^ frBytes : ℕ) : ℤ) := by push_cast; rfl
      have hpos : 0 < 256 ^ frBytes := by positivity
      rw [hcast] at hbout
      push_cast at hbout
      nlinarith [hbout]
    rw [hfalse, Bool.not_false, if_pos rfl]
    rw [hbout0] at hbout
    push_cast at hbout
    have hdiff : fromBytesLe (subBorrow 0 (addCarry 0 acc x) frModulusLe)
        = fromBytesLe acc + fromBytesLe x - rModulus := by omega
    rw [hdiff, Nat.mod_eq_sub_mod (not_lt.mp hsmall), Nat.mod_eq_of_lt (by omega)]

/-! ### Chunks of one width -/

lemma length_flatten_const {n : ℕ} {es : List (List UInt8)} (h : ∀ entry ∈ es, entry.length = n) :
    es.flatten.length = es.length * n := by
  induction es with
  | nil => simp
  | cons entry es ih =>
      rw [List.flatten_cons, List.length_append, h entry List.mem_cons_self,
        ih fun d hd => h d (List.mem_cons_of_mem _ hd), List.length_cons]
      ring

lemma chunksExact_flatten {n : ℕ} (hn : 0 < n) {es : List (List UInt8)}
    (h : ∀ entry ∈ es, entry.length = n) : chunksExact n es.flatten = es := by
  induction es with
  | nil => simp [chunksExact]
  | cons entry es ih =>
      have hentry : entry.length = n := h entry List.mem_cons_self
      have hrest : ∀ d ∈ es, d.length = n := fun d hd => h d (List.mem_cons_of_mem _ hd)
      have hcount : (entry :: es).flatten.length / n = es.length + 1 := by
        rw [length_flatten_const h, Nat.mul_div_cancel _ hn, List.length_cons]
      have htail : es.flatten.length / n = es.length := by
        rw [length_flatten_const hrest, Nat.mul_div_cancel _ hn]
      have ih' := ih hrest
      rw [chunksExact, htail] at ih'
      rw [chunksExact, hcount, List.range_succ_eq_map, List.map_cons, List.map_map]
      congr 1
      · simp [slice, ← hentry]
      · refine Eq.trans (List.map_congr_left fun i _ => ?_) ih'
        show ((entry ++ es.flatten).drop ((i + 1) * n)).take n = (es.flatten.drop (i * n)).take n
        have hoff : (i + 1) * n = entry.length + i * n := by
          rw [Nat.succ_mul, hentry, Nat.add_comm]
        rw [hoff, List.drop_length_add_append]

/-! ### Weights -/

lemma length_batchWeight (hash : List UInt8 → Vector UInt8 32) (seed : List UInt8) (i : ℕ) :
    (batchWeight hash seed i).length = frBytes := by
  simp [batchWeight, batchHash, frBytes]

/-- Bits 5 to 7 cleared and bit 4 set. -/
lemma toNat_weightByte (b : UInt8) : ((b &&& 0x0f) ||| 0x10).toNat = b.toNat % 16 + 16 := by
  have hand : b.toNat &&& 15 = b.toNat % 16 := Nat.and_two_pow_sub_one_eq_mod b.toNat 4
  have hlt : b.toNat % 16 < 2 ^ 4 := Nat.mod_lt _ (by decide)
  rw [UInt8.toNat_or, UInt8.toNat_and]
  show b.toNat &&& 15 ||| 16 = b.toNat % 16 + 16
  rw [hand, Nat.or_comm]
  have hor : 2 ^ 4 * 1 + b.toNat % 16 = 16 ||| b.toNat % 16 := Nat.two_pow_add_eq_or_of_lt hlt 1
  omega

/-- **A weight lies in `[2^252, 2^253)`, whatever the hash.** -/
theorem batchWeight_mem (hash : List UInt8 → Vector UInt8 32) (seed : List UInt8) (i : ℕ) :
    2 ^ 252 ≤ fromBytesLe (batchWeight hash seed i) ∧
      fromBytesLe (batchWeight hash seed i) < 2 ^ 253 := by
  set r := batchHash hash [seed, u64LeBytes i] with hr
  have hlen : r.length = 32 := by simp [hr, batchHash]
  have hset : batchWeight hash seed i = r.take 31 ++ [(r.getD 31 0 &&& 0x0f) ||| 0x10] := by
    rw [batchWeight, ← hr, List.set_eq_take_append_cons_drop, if_pos (by omega),
      List.drop_of_length_le (by omega)]
  have htake := fromBytesLe_lt (r.take 31)
  rw [List.length_take, hlen] at htake
  have hbyte := toNat_weightByte (r.getD 31 0)
  have hmod : (r.getD 31 0).toNat % 16 < 16 := Nat.mod_lt _ (by decide)
  rw [hset, fromBytesLe_append, fromBytesLe_cons, hbyte, fromBytesLe_nil, List.length_take, hlen]
  norm_num at htake ⊢
  omega

lemma batchWeight_lt (hash : List UInt8 → Vector UInt8 32) (seed : List UInt8) (i : ℕ) :
    fromBytesLe (batchWeight hash seed i) < rModulus :=
  (batchWeight_mem hash seed i).2.trans (by decide)

/-- A weight is not zero modulo `r`. -/
lemma natCast_batchWeight_ne_zero (hash : List UInt8 → Vector UInt8 32) (seed : List UInt8)
    (i : ℕ) : (fromBytesLe (batchWeight hash seed i) : ZMod rModulus) ≠ 0 := by
  rw [Ne, ZMod.natCast_eq_zero_iff]
  intro hdvd
  have hle := Nat.le_of_dvd ((Nat.two_pow_pos 252).trans_le (batchWeight_mem hash seed i).1) hdvd
  exact absurd (batchWeight_lt hash seed i) (not_lt.mpr hle)

end Verifier

end XarkCircuit
