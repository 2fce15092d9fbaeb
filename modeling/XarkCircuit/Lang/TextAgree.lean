import XarkCircuit.Lang.TextReaders
import XarkCircuit.Schema.GivenOnce

/-!
The readers of a field element agree, but for a negative zero.

* `constant_eq_ok`, `fromLeBytes_eq_ok` and `fromBeBytes_eq_ok`: the constructors that reduce give
  the residue of what they denote.
* `denotes_toDigits`: the decimal of an element stands for the element.
* `text_readers_agree` is the result; a minus sign and zeros is the only text it leaves out.
-/

namespace XarkCircuit

namespace FieldText

open Codec Limbs Verifier Succeeding

/-! ### Constants -/

lemma isDigit_iff (c : Char) : c.isDigit = true ↔ 48 ≤ c.toNat ∧ c.toNat ≤ 57 := by
  rw [Char.isDigit, Bool.and_eq_true, decide_eq_true_iff, decide_eq_true_iff]
  exact Iff.rfl

/-- A digit is one byte. -/
lemma utf8EncodeChar_digit {c : Char} (h : c.isDigit = true) :
    String.utf8EncodeChar c = [UInt8.ofNat c.toNat] := by
  have hle : c.val.toNat ≤ 0x7f := ((isDigit_iff c).mp h).2.trans (by norm_num)
  rw [String.utf8EncodeChar]
  exact if_pos hle

/-- The first byte of another character is no digit. -/
lemma utf8EncodeChar_other {c : Char} (h : c.isDigit = false) :
    ∃ b rest, String.utf8EncodeChar c = b :: rest ∧ ¬(48 ≤ b.toNat ∧ b.toNat ≤ 57) := by
  have hno : ¬(48 ≤ c.val.toNat ∧ c.val.toNat ≤ 57) := by
    intro hc
    rw [(isDigit_iff c).mpr hc] at h
    cases h
  rw [String.utf8EncodeChar]
  split_ifs with h1 h2 h3
  · refine ⟨_, _, rfl, ?_⟩
    rw [UInt8.toNat_ofNat', Nat.mod_eq_of_lt (by omega)]
    exact hno
  · refine ⟨_, _, rfl, ?_⟩
    rw [UInt8.toNat_ofNat']
    omega
  · refine ⟨_, _, rfl, ?_⟩
    rw [UInt8.toNat_ofNat']
    omega
  · refine ⟨_, _, rfl, ?_⟩
    rw [UInt8.toNat_ofNat']
    omega

lemma constantByte_digit {l : Words4} {d : ℕ} (h : d < 10) (l' : Words4) :
    constantByte l (UInt8.ofNat (48 + d)) = .ok l' ↔
      l.value * 10 + d < 2 ^ 256 ∧ l'.value = l.value * 10 + d := by
  obtain ⟨hfit, hval⟩ := mulAdd_spec l 10 d
  have hdigit : '0'.toUInt8 ≤ UInt8.ofNat (48 + d) ∧ UInt8.ofNat (48 + d) ≤ '9'.toUInt8 := by
    interval_cases d <;> decide
  have hsub : (UInt8.ofNat (48 + d) - '0'.toUInt8).toNat = d := by
    interval_cases d <;> rfl
  rw [constantByte, if_neg (not_not.mpr hdigit), hsub]
  by_cases h0 : (l.mulAdd 10 d).2 = 0
  · simp only [ne_eq, h0, not_true_eq_false, if_false, hfit.mp h0, true_and]
    constructor
    · intro heq
      rw [← Except.ok.inj heq, hval h0]
    · intro heq
      rw [Words4.value_injective (heq.trans (hval h0).symm)]
  · simp only [ne_eq, h0, not_false_eq_true, if_true]
    exact ⟨fun heq => (by cases heq), fun heq => absurd (hfit.mpr heq.1) h0⟩

lemma constantByte_other (l : Words4) {b : UInt8} (h : ¬(48 ≤ b.toNat ∧ b.toNat ≤ 57)) :
    constantByte l b = .error .nonNumeric := by
  rw [constantByte, if_pos]
  exact fun hb => h ⟨UInt8.le_iff_toNat_le.mp hb.1, UInt8.le_iff_toNat_le.mp hb.2⟩

/-- The bytes of one character. -/
lemma foldlM_constantByte_char (l l' : Words4) (c : Char) :
    (String.utf8EncodeChar c).foldlM constantByte l = .ok l' ↔
      ∃ d, toDigit 10 c = some d ∧ l.value * 10 + d < 2 ^ 256 ∧ l'.value = l.value * 10 + d := by
  cases hc : c.isDigit with
  | true =>
      obtain ⟨hlo, hhi⟩ := (isDigit_iff c).mp hc
      obtain ⟨d, hd⟩ := Nat.exists_eq_add_of_le hlo
      rw [utf8EncodeChar_digit hc, toDigit_ten hc, hd, Nat.add_sub_cancel_left, List.foldlM_cons]
      simp only [List.foldlM_nil, bind_pure, Option.some.injEq, exists_eq_left']
      exact constantByte_digit (by omega) l'
  | false =>
      obtain ⟨b, rest, hb, hno⟩ := utf8EncodeChar_other hc
      have hnone : toDigit 10 c = none := by
        rw [← isDigit_ten, isDigit] at hc
        exact Option.not_isSome_iff_eq_none.mp (by rw [hc]; exact Bool.false_ne_true)
      rw [hb, List.foldlM_cons, constantByte_other l hno, hnone]
      constructor
      · intro heq
        cases heq
      · rintro ⟨d, hd, -⟩
        cases hd

/-- **The loop over bytes.** -/
lemma foldlM_constantByte (s : List Char) (l l' : Words4) :
    (Calendar.asBytes s).foldlM constantByte l = .ok l' ↔
      ∃ n, readFrom 10 l.value s = some n ∧ n < 2 ^ 256 ∧ l'.value = n := by
  induction s generalizing l with
  | nil =>
      constructor
      · intro h
        cases h
        exact ⟨l'.value, rfl, l'.value_lt, rfl⟩
      · rintro ⟨n, hn, -, hl'⟩
        cases hn
        rw [Words4.value_injective hl']
        rfl
  | cons c s ih =>
      rw [Calendar.asBytes, List.flatMap_cons, List.foldlM_append, bind_eq_ok, readFrom_cons]
      constructor
      · rintro ⟨l₁, h₁, h⟩
        obtain ⟨d, hd, -, hval⟩ := (foldlM_constantByte_char l l₁ c).mp h₁
        rw [hd, Option.bind_some, ← hval]
        exact (ih l₁).mp h
      · rintro ⟨n, hn, hlt, hl'⟩
        obtain ⟨d, hd, hn⟩ := Option.bind_eq_some_iff.mp hn
        have hfit : l.value * 10 + d < 2 ^ 256 := (le_of_readFrom (by norm_num) hn).trans_lt hlt
        obtain ⟨h0, hval⟩ := mulAdd_spec l 10 d
        have hstep := hval (h0.mpr hfit)
        refine ⟨(l.mulAdd 10 d).1, (foldlM_constantByte_char _ _ _).mpr ⟨d, hd, hfit, hstep⟩, ?_⟩
        refine (ih _).mpr ?_
        rw [hstep]
        exact ⟨n, hn, hlt, hl'⟩

/-- Every number below `2 ^ 256` fits the words. -/
lemma exists_value {n : ℕ} (h : n < 2 ^ 256) : ∃ l : Words4, l.value = n := by
  have hwords : Words (2 ^ 64)
      [n % 2 ^ 64, n / 2 ^ 64 % 2 ^ 64, n / 2 ^ 128 % 2 ^ 64, n / 2 ^ 192] := by
    intro w hw
    simp only [List.mem_cons, List.not_mem_nil, or_false] at hw
    omega
  refine ⟨⟨_, rfl, hwords⟩, ?_⟩
  simp only [Words4.value, Nat.ofDigits_cons, Nat.ofDigits_nil]
  omega

/-- **A constant** is the residue of its digits. -/
lemma constant_eq_ok (s : List Char) (f : Field) : constant s = .ok f ↔
    ∃ n, readFrom 10 0 s = some n ∧ n < 2 ^ 256 ∧ f.value = n % rModulus := by
  rw [constant, bind_eq_ok]
  simp only [foldlM_constantByte, Words4.value_zero]
  constructor
  · rintro ⟨l, ⟨n, hn, hlt, hl⟩, h⟩
    refine ⟨n, hn, hlt, ?_⟩
    rw [← Except.ok.inj h, value_reduced, hl]
  · rintro ⟨n, hn, hlt, hf⟩
    obtain ⟨l, hl⟩ := exists_value hlt
    refine ⟨l, ⟨n, hn, hlt, hl⟩, congrArg Except.ok (Field.value_injective ?_)⟩
    rw [value_reduced, hl, hf]

/-! ### Bytes -/

/-- The next byte. -/
lemma value_orByte {l : Words4} {i : ℕ} (hi : i < 32) (hl : l.value < 256 ^ i) (byte : UInt8) :
    (l.orByte i byte).value = l.value + byte.toNat * 256 ^ i := by
  have hpow : (256 : ℕ) ^ i = 2 ^ (i % 8 * 8) * (2 ^ 64) ^ (i / 8) := by
    have hexp : 8 * i = i % 8 * 8 + 64 * (i / 8) := by omega
    rw [show (256 : ℕ) = 2 ^ 8 by norm_num, ← pow_mul, ← pow_mul, ← pow_add, hexp]
  have hword : l.words.getD (i / 8) 0 < 2 ^ (i % 8 * 8) := by
    rw [getD_eq_div_mod l.words_lt]
    refine (Nat.mod_le _ _).trans_lt (Nat.div_lt_of_lt_mul ?_)
    rw [Nat.mul_comm, ← hpow]
    exact hl
  have hor : l.words.getD (i / 8) 0 ||| byte.toNat <<< (i % 8 * 8)
      = l.words.getD (i / 8) 0 + byte.toNat * 2 ^ (i % 8 * 8) := by
    rw [Nat.or_comm, ← Nat.shiftLeft_add_eq_or_of_lt hword, Nat.shiftLeft_eq, Nat.add_comm]
  have hj : i / 8 < l.words.length := by
    rw [l.length_eq]
    omega
  rw [hpow, ← Nat.mul_assoc]
  exact ofDigits_modify_add hj hor

/-- **The loop over bytes** puts them together. -/
lemma value_fromBytes (byte : ℕ → UInt8) {n : ℕ} (hn : n ≤ 32) :
    (fromBytes n byte).value = fromBytesLe ((List.range n).map byte) := by
  induction n with
  | zero => rfl
  | succ n ih =>
      have hprev := ih (by omega)
      have hlt : (fromBytes n byte).value < 256 ^ n := by
        have hbound := fromBytesLe_lt ((List.range n).map byte)
        rwa [List.length_map, List.length_range, ← hprev] at hbound
      have hstep : fromBytes (n + 1) byte = (fromBytes n byte).orByte n (byte n) := by
        rw [fromBytes, List.range_succ, List.foldl_append]
        rfl
      rw [hstep, value_orByte (by omega) hlt, hprev, List.range_succ, List.map_append,
        fromBytesLe_append, List.length_map, List.length_range, List.map_singleton,
        fromBytesLe_cons, fromBytesLe_nil]
      ring

lemma fromBytes_eq_ok {bytes : List UInt8} {byte : ℕ → UInt8} {le : List UInt8}
    (hle : (List.range bytes.length).map byte = le) (f : Field) :
    (if ¬bytes.length ≤ 32 then .error .tooManyBytes
      else .ok (reduced (fromBytes bytes.length byte)) : Except ConstantPanic Field) = .ok f ↔
      bytes.length ≤ 32 ∧ f.value = fromBytesLe le % rModulus := by
  by_cases hlen : bytes.length ≤ 32
  · have hval := value_fromBytes byte hlen
    rw [hle] at hval
    rw [if_neg (not_not.mpr hlen)]
    constructor
    · intro h
      refine ⟨hlen, ?_⟩
      rw [← Except.ok.inj h, value_reduced, hval]
    · rintro ⟨-, hf⟩
      refine congrArg Except.ok (Field.value_injective ?_)
      rw [value_reduced, hval, hf]
  · rw [if_pos hlen]
    constructor
    · intro h
      cases h
    · intro h
      exact absurd h.1 hlen

lemma fromLeBytes_eq_ok (bytes : List UInt8) (f : Field) : fromLeBytes bytes = .ok f ↔
    bytes.length ≤ 32 ∧ f.value = fromBytesLe bytes % rModulus := by
  refine fromBytes_eq_ok (List.ext_getElem (by simp) fun i hi hi' => ?_) f
  rw [List.getElem_map, List.getElem_range, List.getD_eq_getElem?_getD,
    List.getElem?_eq_getElem hi', Option.getD_some]

lemma fromBeBytes_eq_ok (bytes : List UInt8) (f : Field) : fromBeBytes bytes = .ok f ↔
    bytes.length ≤ 32 ∧ f.value = fromBytesLe bytes.reverse % rModulus := by
  refine fromBytes_eq_ok (List.ext_getElem (by simp) fun i hi hi' => ?_) f
  have hlt : bytes.length - 1 - i < bytes.length := by
    rw [List.length_reverse] at hi'
    omega
  rw [List.getElem_map, List.getElem_range, List.getElem_reverse, List.getD_eq_getElem?_getD,
    List.getElem?_eq_getElem hlt, Option.getD_some]

/-! ### Decimals that are written -/

lemma trim_of_digits {t : List Char} (h : ∀ c ∈ t, c.isDigit = true) : trim t = t := by
  have hspace : ∀ c : Char, c.isDigit = true → ¬isWhitespace c = true := by
    intro c hc
    have hrange := (isDigit_iff c).mp hc
    simp only [isWhitespace, Bool.or_eq_true, Bool.and_eq_true, decide_eq_true_eq]
    omega
  have hkeep : ∀ l : List Char, (∀ c ∈ l, c.isDigit = true) → l.dropWhile isWhitespace = l :=
    fun l hl => List.dropWhile_eq_self_iff.mpr fun h0 => hspace _ (hl _ (List.getElem_mem h0))
  rw [trim, hkeep t h, hkeep t.reverse fun c hc => h c (List.mem_reverse.mp hc),
    List.reverse_reverse]

lemma stripHex_of_digits {t : List Char} (h : ∀ c ∈ t, c.isDigit = true) : stripHex t = none := by
  rw [stripHex.eq_def]
  split
  · exact absurd (h 'x' (by simp)) (by decide)
  · exact absurd (h 'X' (by simp)) (by decide)
  · rfl

/-- **The decimal** of a number stands for it. -/
lemma denotes_toDigits (n : ℕ) : denotes (Nat.toDigits 10 n) = some n := by
  have hdigits : ∀ c ∈ Nat.toDigits 10 n, c.isDigit = true := fun c hc =>
    Nat.isDigit_of_mem_toDigits (by norm_num) (by norm_num) hc
  rw [denotes, trim_of_digits hdigits, stripHex_of_digits hdigits]
  exact number_toDigits n

/-- A negative zero is no number. -/
lemma denotes_of_minusZero {s : List Char} (h : MinusZero s) : denotes s = none := by
  obtain ⟨k, hk⟩ := h
  rw [denotes, hk, stripHex_minus]
  dsimp only
  rw [number, if_neg (List.cons_ne_nil _ _), readFrom_cons]
  rfl

/-! ### The three readers together -/

section Library

variable (lib : NumBigint) (asF64 : Input.Number → Option ℚ) (rd : Input.Readers)

/-- The three readers of a text have one answer: no element, or one number below the modulus. -/
def Agree (s : List Char) : Prop :=
  ∃ answer : Option ℕ, (∀ n ∈ answer, n < rModulus) ∧
    (∀ f, tryFromStr s = .ok f ↔ answer = some f.value) ∧
    (∀ t, fieldInputDecimal lib s = .ok t ↔ ∃ n, answer = some n ∧ t = Nat.toDigits 10 n) ∧
    ∀ x, schemaField lib asF64 rd s = .ok x ↔ answer = some x.val

/-- They read an element back from its decimal. -/
def ReadBack (f : Field) : Prop :=
  tryFromStr (toDecimal f) = .ok f ∧ fieldInputDecimal lib (toDecimal f) = .ok (toDecimal f) ∧
    schemaField lib asF64 rd (toDecimal f) = .ok f.value

lemma agree_of_not_minusZero {s : List Char} (h : ¬MinusZero s) : Agree lib asF64 rd s := by
  have hfilter : ∀ n, (denotes s).filter (· < rModulus) = some n ↔
      denotes s = some n ∧ n < rModulus := by
    intro n
    rw [Option.filter_eq_some_iff, decide_eq_true_iff]
  refine ⟨(denotes s).filter (· < rModulus), fun n hn => ((hfilter n).mp hn).2, ?_, ?_, ?_⟩
  · intro f
    rw [tryFromStr_eq_ok, hfilter]
    constructor
    · rintro ⟨n, hn, hlt, rfl⟩
      exact ⟨hn, hlt⟩
    · rintro ⟨hn, hlt⟩
      exact ⟨f.value, hn, hlt, rfl⟩
  · intro t
    rw [fieldInputDecimal_eq_ok]
    simp only [hfilter, h, false_and, or_false, and_assoc]
  · intro x
    rw [schemaField_eq_ok, hfilter]
    constructor
    · rintro ⟨n, hn, hlt, rfl⟩
      rw [ZMod.val_natCast_of_lt hlt]
      exact ⟨hn, hlt⟩
    · rintro ⟨hn, hlt⟩
      exact ⟨x.val, hn, hlt, (ZMod.natCast_zmod_val x).symm⟩

/-- Only the prover's reader accepts a negative zero. -/
lemma not_agree_of_minusZero {s : List Char} (h : MinusZero s) : ¬Agree lib asF64 rd s := by
  rintro ⟨answer, -, hclient, hprover, -⟩
  have hread : fieldInputDecimal lib s = .ok ['0'] :=
    (fieldInputDecimal_eq_ok lib s _).mpr (Or.inr ⟨h, rfl⟩)
  obtain ⟨n, hn, ht⟩ := (hprover _).mp hread
  obtain rfl : n = 0 := by
    have hback := number_toDigits n
    rw [← ht] at hback
    exact (Option.some.inj hback).symm
  have hzero : Field.value ⟨.zero, prime_rModulus.pos⟩ = 0 := Words4.value_zero
  have hanswer : answer = some (Field.value ⟨.zero, prime_rModulus.pos⟩) := by rw [hn, hzero]
  obtain ⟨m, hm, -⟩ := (tryFromStr_eq_ok s _).mp ((hclient _).mpr hanswer)
  rw [denotes_of_minusZero h] at hm
  cases hm

lemma readBack (f : Field) : ReadBack lib asF64 rd f := by
  have hdenotes := denotes_toDigits f.value
  rw [ReadBack, toDecimal_eq]
  refine ⟨?_, ?_, ?_⟩
  · exact (tryFromStr_eq_ok _ f).mpr ⟨f.value, hdenotes, f.value_lt, rfl⟩
  · exact (fieldInputDecimal_eq_ok lib _ _).mpr (Or.inl ⟨f.value, hdenotes, f.value_lt, rfl⟩)
  · exact (schemaField_eq_ok lib asF64 rd _ _).mpr ⟨f.value, hdenotes, f.value_lt, rfl⟩

/-- **The readers of a field element agree** on every text but a minus sign and zeros, which the
prover's takes for zero. All three read the decimal of an element back, and the constructors that
reduce give the residue of what their text or bytes denote. -/
theorem text_readers_agree :
    (∀ s, Agree lib asF64 rd s ↔ ¬MinusZero s) ∧
    (∀ f, ReadBack lib asF64 rd f) ∧
    (∀ s f, constant s = .ok f ↔
      ∃ n, readFrom 10 0 s = some n ∧ n < 2 ^ 256 ∧ f.value = n % rModulus) ∧
    (∀ bytes f, fromLeBytes bytes = .ok f ↔
      bytes.length ≤ 32 ∧ f.value = fromBytesLe bytes % rModulus) ∧
    ∀ bytes f, fromBeBytes bytes = .ok f ↔
      bytes.length ≤ 32 ∧ f.value = fromBytesLe bytes.reverse % rModulus := by
  refine ⟨fun s => ⟨?_, agree_of_not_minusZero lib asF64 rd⟩, readBack lib asF64 rd, constant_eq_ok,
    fromLeBytes_eq_ok, fromBeBytes_eq_ok⟩
  intro h hminus
  exact not_agree_of_minusZero lib asF64 rd hminus h

end Library

/-! ### A library -/

/-- Digits, and a minus sign before them. The readers let no other text through to the library. -/
def parseSigned (t : List Char) (radix : ℕ) : Option ℤ :=
  match t with
  | '-' :: d => (number radix d).map fun n => -(n : ℤ)
  | t => (number radix t).map fun n => (n : ℤ)

lemma parseSigned_digits (radix : ℕ) (t : List Char) (n : ℕ) (hradix : radix = 10 ∨ radix = 16)
    (h : number radix t = some n) : parseSigned t radix = some (n : ℤ) := by
  rw [parseSigned.eq_def]
  split
  · rw [number, if_neg (List.cons_ne_nil _ _), readFrom_cons] at h
    have hminus : toDigit radix '-' = none := by
      rcases hradix with rfl | rfl <;> rfl
    rw [hminus] at h
    cases h
  · rw [h]
    rfl

lemma parseSigned_minus (t : List Char) (n : ℕ) (h : number 10 t = some n) :
    parseSigned ('-' :: t) 10 = some (-(n : ℤ)) := by
  rw [parseSigned, h]
  rfl

/-- `BigInt::to_str_radix(10)`. -/
def signedDigits (z : ℤ) : List Char :=
  if z < 0 then '-' :: Nat.toDigits 10 z.natAbs else Nat.toDigits 10 z.natAbs

lemma signedDigits_nonneg (n : ℕ) : signedDigits n = Nat.toDigits 10 n := by
  rw [signedDigits, if_neg (by omega), Int.natAbs_natCast]

/-- A library for big integers. -/
def bigint : NumBigint where
  parseInt := parseSigned
  parseUint t radix := number radix t
  toStr := signedDigits
  parseInt_digits := parseSigned_digits
  parseInt_minus := parseSigned_minus
  parseUint_digits _ _ _ _ h := h
  toStr_nonneg := signedDigits_nonneg

/-- The prover's reader takes `-0` for zero; the client's and the schema's do not. -/
theorem minus_zero_disagrees :
    fieldInputDecimal bigint ['-', '0'] = .ok ['0'] ∧
    tryFromStr ['-', '0'] = .error (.notANumber ['-', '0']) ∧
    (∀ x, schemaField bigint (fun _ => none) Input.plainReaders ['-', '0'] ≠ .ok x) ∧
    ¬Agree bigint (fun _ => none) Input.plainReaders ['-', '0'] := by
  have hminus : MinusZero ['-', '0'] := ⟨0, rfl⟩
  refine ⟨?_, rfl, ?_, not_agree_of_minusZero _ _ _ hminus⟩
  · exact (fieldInputDecimal_eq_ok _ _ _).mpr (Or.inr ⟨hminus, rfl⟩)
  · intro x hx
    obtain ⟨n, hn, -⟩ := (schemaField_eq_ok _ _ _ _ _).mp hx
    rw [denotes_of_minusZero hminus] at hn
    cases hn

end FieldText

end XarkCircuit
