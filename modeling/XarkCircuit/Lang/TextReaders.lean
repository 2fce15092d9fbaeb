import XarkCircuit.Lang.FieldText
import XarkCircuit.Lib.Succeeds

/-!
What the readers of a field element accept.

* `value_reduced` and `toDecimal_eq`: the two loops over words compute the residue and the digits.
* `tryFromStr_eq_ok` and `schemaField_eq_ok`: both readers accept the numbers below the modulus,
  as decimal or hex digits. `fieldInputDecimal_eq_ok`: and the prover's a negative zero too.
-/

namespace XarkCircuit

namespace FieldText

open Codec Limbs Verifier Succeeding

/-! ### Words -/

/-- **The residue.** -/
lemma value_reduced (l : Words4) : (reduced l).value = l.value % rModulus := by
  induction l using reduced.induct with
  | case1 l h ih =>
      have hle := l.geModulus_iff.mp h
      rw [reduced, dif_pos h, ih, Words4.value_subModulus hle, Nat.mod_eq_sub_mod hle]
  | case2 l h =>
      have hlt : l.value < rModulus := not_le.mp fun hle => h (l.geModulus_iff.mpr hle)
      rw [reduced, dif_neg h, Nat.mod_eq_of_lt hlt]
      rfl

lemma reduced_limbs_eq_iff (l : Words4) : (reduced l).limbs = l ↔ l.value < rModulus := by
  constructor
  · intro h
    rw [← h]
    exact (reduced l).canonical
  · intro h
    refine Words4.value_injective ?_
    rw [← Nat.mod_eq_of_lt h]
    exact value_reduced l

/-- The product fits, and is exact. -/
lemma mulAdd_spec (l : Words4) (m d : ℕ) :
    ((l.mulAdd m d).2 = 0 ↔ l.value * m + d < 2 ^ 256) ∧
      ((l.mulAdd m d).2 = 0 → (l.mulAdd m d).1.value = l.value * m + d) := by
  have heq := ofDigits_mulAdd (B := 2 ^ 64) (m := m) l.words d
  refine ⟨?_, fun h0 => ?_⟩
  · have hiff := mulAdd_carry_iff (B := 2 ^ 64) (m := m) (by norm_num) l.words d
    rwa [l.length_eq, ← pow_mul] at hiff
  · change (Limbs.mulAdd (2 ^ 64) m l.words d).2 = 0 at h0
    rw [h0, mul_zero, add_zero] at heq
    exact heq

lemma divTen_spec (l : Words4) :
    l.divTen.1.value = l.value / 10 ∧ l.divTen.2 = l.value % 10 := by
  have heq : 10 * l.divTen.1.value + l.divTen.2 = l.value :=
    ofDigits_divRem (B := 2 ^ 64) (m := 10) l.words
  have hlt : l.divTen.2 < 10 := divRem_lt (by norm_num) _
  omega

lemma ofNat_digit {r : ℕ} (h : r < 10) : Char.ofNat ('0'.toNat + r) = Nat.digitChar r := by
  interval_cases r <;> rfl

lemma decimalLoop_eq {l : Words4} (h : l ≠ .zero) (digits : List Char) :
    (decimalLoop l digits).reverse = Nat.toDigits 10 l.value ++ digits.reverse := by
  induction l, digits using decimalLoop.induct with
  | case1 digits => exact absurd rfl h
  | case2 l digits hl ih =>
      obtain ⟨hdiv, hrem⟩ := divTen_spec l
      have hlt : l.value % 10 < 10 := Nat.mod_lt _ (by norm_num)
      rw [decimalLoop, if_neg hl]
      by_cases hz : l.divTen.1 = .zero
      · have hsmall : l.value < 10 := by
          rw [hz, Words4.value_zero] at hdiv
          omega
        rw [hz, decimalLoop, if_pos rfl, Nat.toDigits_of_lt_base hsmall, hrem,
          Nat.mod_eq_of_lt hsmall, ofNat_digit hsmall, List.reverse_append]
        rfl
      · have hbig : 10 ≤ l.value := by
          by_contra hsmall
          refine hz (Words4.value_injective ?_)
          rw [hdiv, Words4.value_zero]
          omega
        rw [ih hz, hdiv, hrem, ofNat_digit hlt, Nat.toDigits_of_base_le (by norm_num) hbig,
          List.reverse_append, List.append_assoc]
        rfl

/-- **The digits.** -/
lemma toDecimal_eq (f : Field) : toDecimal f = Nat.toDigits 10 f.value := by
  rw [toDecimal]
  split_ifs with h
  · rw [Field.value, h]
    rfl
  · rw [decimalLoop_eq h, List.reverse_nil, List.append_nil]
    rfl

/-! ### Digits -/

lemma readFrom_cons (radix n : ℕ) (c : Char) (t : List Char) :
    readFrom radix n (c :: t)
      = (toDigit radix c).bind fun d => readFrom radix (n * radix + d) t := by
  rw [readFrom, List.foldlM_cons]
  cases toDigit radix c <;> rfl

lemma le_of_readFrom {radix n v : ℕ} {t : List Char} (hr : 0 < radix)
    (h : readFrom radix n t = some v) : n ≤ v := by
  induction t generalizing n with
  | nil => exact (Option.some.inj h).le
  | cons c t ih =>
      rw [readFrom_cons] at h
      obtain ⟨d, -, h⟩ := Option.bind_eq_some_iff.mp h
      have hmul := Nat.le_mul_of_pos_right n hr
      have hle := ih h
      omega

lemma isSome_readFrom (radix n : ℕ) (t : List Char) :
    (readFrom radix n t).isSome = t.all (isDigit radix) := by
  induction t generalizing n with
  | nil => rfl
  | cons c t ih =>
      rw [readFrom_cons, List.all_cons, isDigit]
      cases toDigit radix c with
      | none => rfl
      | some d => exact ih _

/-- The readers that filter first. -/
lemma number_eq_some_of_all {radix : ℕ} {t : List Char} (hne : t ≠ [])
    (hall : t.all (isDigit radix) = true) : ∃ n, number radix t = some n := by
  rw [← isSome_readFrom radix 0] at hall
  rw [number, if_neg hne]
  exact Option.isSome_iff_exists.mp hall

lemma all_of_number {radix n : ℕ} {t : List Char} (h : number radix t = some n) :
    t ≠ [] ∧ t.all (isDigit radix) = true := by
  rw [number] at h
  split_ifs at h with hne
  refine ⟨hne, ?_⟩
  rw [← isSome_readFrom radix 0, h]
  rfl

lemma toDigit_ten {c : Char} (h : c.isDigit = true) : toDigit 10 c = some (c.toNat - 48) := by
  rw [Char.isDigit, Bool.and_eq_true, decide_eq_true_iff, decide_eq_true_iff] at h
  have hlo : 48 ≤ c.toNat := h.1
  have hhi : c.toNat ≤ 57 := h.2
  simp only [toDigit]
  rw [if_pos ⟨hlo, hhi⟩]
  simp only [Option.filter_some]
  rw [if_pos (by simp; omega)]

lemma isDigit_ten (c : Char) : isDigit 10 c = c.isDigit := by
  cases h : c.isDigit with
  | true => rw [isDigit, toDigit_ten h]; rfl
  | false =>
      have hn : ¬(48 ≤ c.toNat ∧ c.toNat ≤ 57) := by
        intro hc
        rw [Char.isDigit] at h
        simp only [Bool.and_eq_false_iff, decide_eq_false_iff_not] at h
        rcases h with h | h
        · exact h hc.1
        · exact h hc.2
      simp only [isDigit, toDigit]
      rw [if_neg hn]
      split_ifs with h1 h2
      · simp only [Option.filter_some]
        rw [if_neg (by simp; omega)]
        rfl
      · simp only [Option.filter_some]
        rw [if_neg (by simp; omega)]
        rfl
      · rfl

lemma isDigit_sixteen (c : Char) : isDigit 16 c = isAsciiHexdigit c := by
  have hle : ∀ a : Char, (a ≤ c ↔ a.toNat ≤ c.toNat) ∧ (c ≤ a ↔ c.toNat ≤ a.toNat) :=
    fun a => ⟨Iff.rfl, Iff.rfl⟩
  rw [Bool.eq_iff_iff]
  simp only [isAsciiHexdigit, Bool.or_eq_true, Bool.and_eq_true, decide_eq_true_eq, (hle _).1,
    (hle _).2, isDigit, toDigit]
  have h0 : '0'.toNat = 48 ∧ '9'.toNat = 57 ∧ 'a'.toNat = 97 ∧ 'f'.toNat = 102 ∧ 'A'.toNat = 65 ∧
    'F'.toNat = 70 := by decide
  rw [h0.1, h0.2.1, h0.2.2.1, h0.2.2.2.1, h0.2.2.2.2.1, h0.2.2.2.2.2]
  split_ifs with h1 h2 h3
  · simp; omega
  · simp; omega
  · simp; omega
  · simp; omega

lemma readFrom_ten {t : List Char} (h : ∀ c ∈ t, c.isDigit = true) (n : ℕ) :
    readFrom 10 n t = some (Nat.ofDigitChars 10 t n) := by
  induction t generalizing n with
  | nil => rfl
  | cons c t ih =>
      rw [readFrom_cons, toDigit_ten (h c List.mem_cons_self), Option.bind_some,
        ih fun c' hc' => h c' (List.mem_cons_of_mem _ hc'), Nat.ofDigitChars_cons, Nat.mul_comm]
      rfl

lemma number_toDigits (n : ℕ) : number 10 (Nat.toDigits 10 n) = some n := by
  have hdigits : ∀ c ∈ Nat.toDigits 10 n, c.isDigit = true := fun c hc =>
    Nat.isDigit_of_mem_toDigits (by norm_num) (by norm_num) hc
  rw [number, if_neg Nat.toDigits_ne_nil, readFrom_ten hdigits, Nat.ofDigitChars_ten_toDigits]

lemma zeros_of_readFrom {t : List Char} (h : readFrom 10 0 t = some 0) : ∀ c ∈ t, c = '0' := by
  induction t with
  | nil => exact fun c hc => absurd hc List.not_mem_nil
  | cons a t ih =>
      rw [readFrom_cons] at h
      obtain ⟨d, hd, h⟩ := Option.bind_eq_some_iff.mp h
      obtain rfl : d = 0 := by
        have hle := le_of_readFrom (by norm_num) h
        omega
      refine List.forall_mem_cons.mpr ⟨?_, ih h⟩
      have hdigit : a.isDigit = true := by
        rw [← isDigit_ten, isDigit, hd]
        rfl
      rw [toDigit_ten hdigit, Option.some.injEq] at hd
      rw [Char.isDigit, Bool.and_eq_true, decide_eq_true_iff, decide_eq_true_iff] at hdigit
      have hlo : 48 ≤ a.toNat := hdigit.1
      have hval : a.toNat = 48 := by omega
      exact Char.toNat_inj.mp hval

/-- Only zeros stand for zero. -/
lemma number_eq_zero_iff (t : List Char) :
    number 10 t = some 0 ↔ ∃ k, t = List.replicate (k + 1) '0' := by
  constructor
  · intro h
    obtain ⟨hne, -⟩ := all_of_number h
    rw [number, if_neg hne] at h
    obtain ⟨k, hk⟩ := Nat.exists_eq_add_one.mpr (List.length_pos_iff.mpr hne)
    exact ⟨k, List.eq_replicate_iff.mpr ⟨hk, zeros_of_readFrom h⟩⟩
  · rintro ⟨k, rfl⟩
    have hdigits : ∀ c ∈ List.replicate (k + 1) '0', c.isDigit = true := by
      intro c hc
      rw [List.eq_of_mem_replicate hc]
      rfl
    rw [number, if_neg (by simp), readFrom_ten hdigits, Nat.ofDigitChars_replicate_zero, mul_zero]

/-! ### The three readers -/

/-- The number that a text stands for. -/
def denotes (s : List Char) : Option ℕ :=
  match stripHex (trim s) with
  | some h => number 16 h
  | none => number 10 (trim s)

/-- A minus sign and zeros. -/
def MinusZero (s : List Char) : Prop := ∃ k, trim s = '-' :: List.replicate (k + 1) '0'

lemma digitStep_eq_ok {s : List Char} {radix : ℕ} {l l' : Words4} {c : Char} :
    digitStep s radix l c = .ok l' ↔ ∃ d, toDigit radix c = some d ∧
      l.value * radix + d < 2 ^ 256 ∧ l'.value = l.value * radix + d := by
  rw [digitStep]
  cases hd : toDigit radix c with
  | none => simp
  | some d =>
      obtain ⟨hfit, hval⟩ := mulAdd_spec l radix d
      by_cases h0 : (l.mulAdd radix d).2 = 0
      · simp only [ne_eq, h0, not_true_eq_false, if_false, Option.some.injEq, exists_eq_left',
          hfit.mp h0, true_and]
        constructor
        · intro h
          rw [← Except.ok.inj h, hval h0]
        · intro h
          rw [Words4.value_injective (h.trans (hval h0).symm)]
      · simp only [ne_eq, h0, not_false_eq_true, if_true, Option.some.injEq, exists_eq_left']
        exact ⟨fun h => (by cases h), fun h => absurd (hfit.mpr h.1) h0⟩

/-- **The loop over digits** succeeds exactly on digits whose number fits four words. -/
lemma foldlM_digitStep {s : List Char} {radix : ℕ} (hr : 0 < radix) (digits : List Char)
    (l l' : Words4) : digits.foldlM (digitStep s radix) l = .ok l' ↔
      ∃ v, readFrom radix l.value digits = some v ∧ v < 2 ^ 256 ∧ l'.value = v := by
  induction digits generalizing l with
  | nil =>
      constructor
      · intro h
        cases h
        exact ⟨l'.value, rfl, l'.value_lt, rfl⟩
      · rintro ⟨v, hv, -, hl'⟩
        cases hv
        rw [Words4.value_injective hl']
        rfl
  | cons c digits ih =>
      rw [List.foldlM_cons, bind_eq_ok, readFrom_cons]
      constructor
      · rintro ⟨l₁, h₁, h⟩
        obtain ⟨d, hd, -, hval⟩ := digitStep_eq_ok.mp h₁
        rw [hd, Option.bind_some, ← hval]
        exact (ih l₁).mp h
      · rintro ⟨v, hv, hlt, hl'⟩
        obtain ⟨d, hd, hv⟩ := Option.bind_eq_some_iff.mp hv
        have hfit : l.value * radix + d < 2 ^ 256 := (le_of_readFrom hr hv).trans_lt hlt
        obtain ⟨h0, hval⟩ := mulAdd_spec l radix d
        refine ⟨(l.mulAdd radix d).1, digitStep_eq_ok.mpr ⟨d, hd, hfit, hval (h0.mpr hfit)⟩, ?_⟩
        rw [ih, hval (h0.mpr hfit)]
        exact ⟨v, hv, hlt, hl'⟩

lemma rModulus_lt : rModulus < 2 ^ 256 := by norm_num [rModulus]

lemma tryFromDigits_eq_ok {s digits : List Char} {radix : ℕ} (hr : 0 < radix) {f : Field} :
    (do
      if digits = [] then .error (.notANumber s)
      let limbs ← digits.foldlM (digitStep s radix) .zero
      if h : (reduced limbs).limbs = limbs then
        .ok ⟨limbs, h ▸ (reduced limbs).canonical⟩
      else .error (.notBelow s) : Except TextError Field) = .ok f ↔
      ∃ n, number radix digits = some n ∧ n < rModulus ∧ f.value = n := by
  rw [number]
  by_cases hne : digits = []
  · simp only [hne, if_true]
    constructor
    · intro h
      cases h
    · rintro ⟨n, h, -⟩
      cases h
  · simp only [if_neg hne, bind_eq_ok, foldlM_digitStep hr, Words4.value_zero]
    constructor
    · rintro ⟨l, ⟨v, hv, hlt, hl⟩, h⟩
      split_ifs at h with hred
      cases h
      rw [reduced_limbs_eq_iff, hl] at hred
      exact ⟨v, hv, hred, hl⟩
    · rintro ⟨n, hn, hlt, hf⟩
      refine ⟨f.limbs, ⟨n, hn, hlt.trans rModulus_lt, hf⟩, ?_⟩
      rw [dif_pos ((reduced_limbs_eq_iff _).mpr f.canonical)]

/-- **The client's reader.** -/
lemma tryFromStr_eq_ok (s : List Char) (f : Field) : tryFromStr s = .ok f ↔
    ∃ n, denotes s = some n ∧ n < rModulus ∧ f.value = n := by
  rw [tryFromStr, denotes]
  cases stripHex (trim s) with
  | some h => exact tryFromDigits_eq_ok (by norm_num)
  | none => exact tryFromDigits_eq_ok (by norm_num)

section Library

variable (lib : NumBigint) (asF64 : Input.Number → Option ℚ) (rd : Input.Readers)

/-- The schema's reader, of a text. -/
def schemaField (s : List Char) : Except String Input.Fr :=
  (withInteger lib asF64 rd).field (.string (String.ofList s))

/-- A filter of digits before the library reads them. -/
lemma filtered_parse {α : Type} {radix : ℕ} {digits : List Char} {P : List Char → Bool}
    {f : List Char → Option α} {v : ℕ → α}
    (hP : P digits = true ↔ digits ≠ [] ∧ digits.all (isDigit radix) = true)
    (hf : ∀ n, number radix digits = some n → f digits = some (v n)) :
    ((some digits).filter P).bind f = (number radix digits).map v := by
  rw [Option.filter_some]
  split_ifs with h
  · obtain ⟨n, hn⟩ := number_eq_some_of_all (hP.mp h).1 (hP.mp h).2
    rw [Option.bind_some, hf n hn, hn, Option.map_some]
  · cases hn : number radix digits with
    | none => rfl
    | some n => exact absurd (hP.mpr (all_of_number hn)) h

lemma integer_string (display : Input.Value → String) (s : List Char) (n : ℕ) :
    integer lib display asF64 (.string (String.ofList s)) = .ok n ↔ denotes s = some n := by
  have hfilter : ∀ (digits : List Char) (radix : ℕ), radix = 10 ∨ radix = 16 →
      ((some digits).filter fun d => d ≠ [] && d.all (isDigit radix)).bind
        (fun d => lib.parseUint d radix) = (number radix digits).map id :=
    fun digits radix hradix =>
      filtered_parse (by simp) fun n hn => lib.parseUint_digits radix digits n hradix hn
  rw [integer, String.toList_ofList, denotes]
  cases stripHex (trim s) with
  | some h =>
      dsimp only
      rw [hfilter h 16 (Or.inr rfl), Option.map_id]
      cases number 16 h <;> simp
  | none =>
      dsimp only
      rw [hfilter (trim s) 10 (Or.inl rfl), Option.map_id]
      cases number 10 (trim s) <;> simp

/-- **The schema's reader.** -/
lemma schemaField_eq_ok (s : List Char) (x : Input.Fr) : schemaField lib asF64 rd s = .ok x ↔
    ∃ n, denotes s = some n ∧ n < rModulus ∧ x = n := by
  rw [schemaField, Input.Readers.field, bind_eq_ok]
  refine exists_congr fun n => and_congr (integer_string lib asF64 rd.display s n) ?_
  rw [Input.fieldOf]
  split_ifs with h
  · exact ⟨fun h' => (by cases h'), fun h' => absurd h'.1 (not_lt.mpr h)⟩
  · constructor
    · intro h'
      exact ⟨not_le.mp h, (Except.ok.inj h').symm⟩
    · rintro ⟨-, rfl⟩
      rfl

/-- The modulus, as the prover reads it. -/
lemma parse_modulus : lib.parseInt BN254_MODULUS 10 = some (rModulus : ℤ) :=
  lib.parseInt_digits 10 _ _ (Or.inl rfl) (by decide +kernel)

lemma parse_hex {h : List Char} (hne : h ≠ []) :
    (lib.parseInt h 16).filter (fun _ => h.all isAsciiHexdigit)
      = (number 16 h).map fun n : ℕ => (n : ℤ) := by
  have hall : h.all isAsciiHexdigit = h.all (isDigit 16) :=
    congrArg h.all (funext fun c => (isDigit_sixteen c).symm)
  rw [hall]
  cases hn : number 16 h with
  | some n =>
      rw [lib.parseInt_digits 16 h n (Or.inr rfl) hn, Option.filter_some,
        if_pos (all_of_number hn).2]
      rfl
  | none =>
      have hfalse : h.all (isDigit 16) = false := by
        by_contra htrue
        obtain ⟨n, hn'⟩ := number_eq_some_of_all hne (Bool.not_eq_false _ |>.mp htrue)
        rw [hn] at hn'
        cases hn'
      rw [hfalse]
      cases lib.parseInt h 16 <;> rfl

lemma all_isDigit_ten (d : List Char) : d.all Char.isDigit = d.all (isDigit 10) :=
  congrArg d.all (funext fun c => (isDigit_ten c).symm)

/-- What is left of a sign. -/
lemma parse_minus (d : List Char) :
    ((some ('-' :: d)).filter isSignedDecimal).bind (fun t => lib.parseInt t 10)
      = (number 10 d).map fun n : ℕ => -(n : ℤ) := by
  have hsigned : isSignedDecimal ('-' :: d) = (d ≠ [] && d.all (isDigit 10)) := by
    rw [← all_isDigit_ten]
    rfl
  rw [Option.filter_some, hsigned]
  cases hn : number 10 d with
  | some n =>
      obtain ⟨hne, hall⟩ := all_of_number hn
      rw [if_pos (by simp [hne, hall]), Option.bind_some, lib.parseInt_minus d n hn]
      rfl
  | none =>
      rw [if_neg]
      · rfl
      · intro h
        simp only [ne_eq, decide_not, Bool.and_eq_true, Bool.not_eq_true', decide_eq_false_iff_not]
          at h
        obtain ⟨n, hn'⟩ := number_eq_some_of_all h.1 h.2
        rw [hn] at hn'
        cases hn'

lemma parse_unsigned {t : List Char} (ht : ∀ d, t ≠ '-' :: d) :
    ((some t).filter isSignedDecimal).bind (fun t => lib.parseInt t 10)
      = (number 10 t).map fun n : ℕ => (n : ℤ) := by
  refine filtered_parse (f := fun t => lib.parseInt t 10) (v := fun n : ℕ => (n : ℤ)) ?_
    fun n hn => lib.parseInt_digits 10 t n (Or.inl rfl) hn
  have hsigned : isSignedDecimal t = (t ≠ [] && t.all (isDigit 10)) := by
    rw [isSignedDecimal, all_isDigit_ten]
    exact ht
  rw [hsigned]
  simp

/-- The integer that the prover parses. -/
def signedOf (s : List Char) : Option ℤ :=
  match stripHex (trim s) with
  | some h => (number 16 h).map fun n : ℕ => (n : ℤ)
  | none =>
    match trim s with
    | '-' :: d => (number 10 d).map fun n : ℕ => -(n : ℤ)
    | t => (number 10 t).map fun n : ℕ => (n : ℤ)

lemma okOr_eq_ok {α : Type} {e : TextError} {o : Option α} {a : α} :
    okOr e o = .ok a ↔ o = some a := by
  cases o <;> simp [okOr]

lemma parseInput_eq_ok (s : List Char) (bi : ℤ) :
    parseInput lib s = .ok bi ↔ signedOf s = some bi := by
  rw [parseInput, signedOf]
  cases stripHex (trim s) with
  | some h =>
      cases h with
      | nil => exact ⟨fun h => (by cases h), fun h => (by cases h)⟩
      | cons a h =>
          dsimp only
          rw [parse_hex lib (List.cons_ne_nil a h), okOr_eq_ok]
  | none =>
      dsimp only
      rw [okOr_eq_ok]
      split
      · next d hd => rw [hd, parse_minus]
      · next hd => rw [parse_unsigned lib hd]

/-- The range check, and the digits that are written. -/
lemma fieldInputDecimal_iff (s out : List Char) : fieldInputDecimal lib s = .ok out ↔
    ∃ n : ℕ, signedOf s = some (n : ℤ) ∧ n < rModulus ∧ out = Nat.toDigits 10 n := by
  rw [fieldInputDecimal]
  simp only [bind_eq_ok, parseInput_eq_ok, okOr_eq_ok, parse_modulus, Option.some.injEq,
    exists_eq_left']
  constructor
  · rintro ⟨bi, hbi, h⟩
    split_ifs at h with hrange
    obtain ⟨hneg, hlt⟩ := not_or.mp hrange
    obtain ⟨n, rfl⟩ := Int.eq_ofNat_of_zero_le (not_lt.mp hneg)
    exact ⟨n, hbi, by exact_mod_cast not_le.mp hlt, by rw [← Except.ok.inj h, lib.toStr_nonneg]⟩
  · rintro ⟨n, hn, hlt, rfl⟩
    have hrange : ¬((n : ℤ) < 0 ∨ (rModulus : ℤ) ≤ n) := by omega
    exact ⟨n, hn, by rw [if_neg hrange, lib.toStr_nonneg]⟩

lemma stripHex_minus (d : List Char) : stripHex ('-' :: d) = none := rfl

lemma signedOf_eq_some (s : List Char) (n : ℕ) :
    signedOf s = some (n : ℤ) ↔ denotes s = some n ∨ MinusZero s ∧ n = 0 := by
  have hcast : ∀ o : Option ℕ, o.map (fun n : ℕ => (n : ℤ)) = some (n : ℤ) ↔ o = some n := by
    intro o
    cases o <;> simp
  rw [signedOf, denotes]
  cases hx : stripHex (trim s) with
  | some h =>
      have hno : ¬MinusZero s := by
        rintro ⟨k, hk⟩
        rw [hk, stripHex_minus] at hx
        cases hx
      dsimp only
      rw [hcast]
      simp [hno]
  | none =>
      dsimp only
      split
      · next d hd =>
          have hnone : number 10 ('-' :: d) = none := by
            rw [number, if_neg (List.cons_ne_nil _ _), readFrom_cons]
            rfl
          have hzero : MinusZero s ↔ number 10 d = some 0 := by
            rw [number_eq_zero_iff, MinusZero, hd]
            exact exists_congr fun k => ⟨fun h => (List.cons.inj h).2, fun h => by rw [h]⟩
          rw [hd, hnone, hzero]
          constructor
          · intro h
            obtain ⟨m, hm, heq⟩ := Option.map_eq_some_iff.mp h
            obtain ⟨rfl, rfl⟩ : m = 0 ∧ n = 0 := by omega
            exact Or.inr ⟨hm, rfl⟩
          · rintro (h | ⟨h, rfl⟩)
            · cases h
            · rw [h]
              rfl
      · next hd =>
          have hno : ¬MinusZero s := by
            rintro ⟨k, hk⟩
            exact hd _ hk
          rw [hcast]
          simp [hno]

/-- **The prover's reader** accepts a negative zero too. -/
lemma fieldInputDecimal_eq_ok (s out : List Char) : fieldInputDecimal lib s = .ok out ↔
    (∃ n, denotes s = some n ∧ n < rModulus ∧ out = Nat.toDigits 10 n) ∨
      MinusZero s ∧ out = ['0'] := by
  rw [fieldInputDecimal_iff]
  simp only [signedOf_eq_some]
  constructor
  · rintro ⟨n, h | ⟨h, rfl⟩, hlt, rfl⟩
    · exact Or.inl ⟨n, h, hlt, rfl⟩
    · exact Or.inr ⟨h, rfl⟩
  · rintro (⟨n, h, hlt, rfl⟩ | ⟨h, rfl⟩)
    · exact ⟨n, Or.inl h, hlt, rfl⟩
    · exact ⟨0, Or.inr ⟨h, rfl⟩, prime_rModulus.pos, rfl⟩

end Library

end FieldText

end XarkCircuit
