import XarkCircuit.Lib.Limbs
import XarkCircuit.Schema.Encode
import XarkCircuit.Solve.Input
import XarkCircuit.Time.Range

/-!
Field elements on the host, and how they are read from texts and bytes.

* A `Field` is four words below the modulus; the structure carries the bound. `reduced` subtracts
  the modulus until it is (`lang.rs`).
* `constant`, `fromLeBytes` and `fromBeBytes` reduce; `tryFromStr` refuses what is not reduced.
* `fieldInputDecimal` is the prover's reader (`prover/src/lib.rs`) and `integer` the one under the
  schema's (`schema/src/lib.rs`). Both use the functions of `NumBigint`.
-/

namespace XarkCircuit

namespace FieldText

open Codec Limbs Verifier

/-! ### Words -/

/-- `[u64; 4]`, the lowest word first. -/
@[ext] structure Words4 where
  words : List ℕ
  length_eq : words.length = 4
  words_lt : Words (2 ^ 64) words
deriving DecidableEq

namespace Words4

def value (l : Words4) : ℕ := Nat.ofDigits (2 ^ 64) l.words

lemma value_lt (l : Words4) : l.value < 2 ^ 256 := by
  have h := ofDigits_lt l.words_lt
  rwa [l.length_eq, ← pow_mul] at h

lemma value_injective {l l' : Words4} (h : l.value = l'.value) : l = l' :=
  Words4.ext (ofDigits_injective l.words_lt l'.words_lt (l.length_eq.trans l'.length_eq.symm) h)

/-- `[0u64; 4]`. -/
def zero : Words4 := ⟨[0, 0, 0, 0], rfl, by simp [Words]⟩

/-- The modulus. -/
def MODULUS : Words4 :=
  ⟨[0x43e1f593f0000001, 0x2833e84879b97091, 0xb85045b68181585d, 0x30644e72e131a029], rfl,
    by simp [Words]⟩

@[simp] lemma value_zero : zero.value = 0 := rfl

lemma value_MODULUS : MODULUS.value = rModulus := by decide +kernel

/-- `limbs · m + d`, and the carry. -/
def mulAdd (l : Words4) (m d : ℕ) : Words4 × ℕ :=
  (⟨(Limbs.mulAdd (2 ^ 64) m l.words d).1, by rw [length_mulAdd, l.length_eq],
    words_mulAdd (by norm_num) _ _⟩, (Limbs.mulAdd (2 ^ 64) m l.words d).2)

/-- `limbs - p`. -/
def subModulus (l : Words4) : Words4 :=
  have h := sub_spec (by norm_num) l.words_lt MODULUS.words_lt
    (l.length_eq.trans MODULUS.length_eq.symm) false
  ⟨(sub (2 ^ 64) l.words MODULUS.words false).1, h.1.trans l.length_eq, h.2.1⟩

/-- `limbs / 10`, and the remainder. -/
def divTen (l : Words4) : Words4 × ℕ :=
  (⟨(divRem (2 ^ 64) 10 l.words).1, by rw [length_divRem, l.length_eq],
    words_divRem (by norm_num) l.words_lt⟩, (divRem (2 ^ 64) 10 l.words).2)

/-- `limbs[i / 8] |= (byte as u64) << ((i % 8) * 8)`. -/
def orByte (l : Words4) (i : ℕ) (byte : UInt8) : Words4 where
  words := l.words.modify (i / 8) (· ||| byte.toNat <<< (i % 8 * 8))
  length_eq := by rw [List.length_modify, l.length_eq]
  words_lt w hw := by
    obtain ⟨j, hj, rfl⟩ := List.mem_iff_getElem.mp hw
    have hj' : j < l.words.length := by rwa [List.length_modify] at hj
    have hlt := l.words_lt _ (List.getElem_mem hj')
    rw [List.getElem_modify]
    split_ifs with h
    · refine Nat.or_lt_two_pow hlt ?_
      have hbyte : byte.toNat < 2 ^ 8 := byte.toNat_lt
      have hshift : i % 8 * 8 ≤ 56 := by omega
      calc byte.toNat <<< (i % 8 * 8) = byte.toNat * 2 ^ (i % 8 * 8) := Nat.shiftLeft_eq _ _
        _ ≤ byte.toNat * 2 ^ 56 := Nat.mul_le_mul_left _ (Nat.pow_le_pow_right (by decide) hshift)
        _ < 2 ^ 64 := by omega
    · exact hlt

/-- Is it at least the modulus? -/
def geModulus (l : Words4) : Bool := ge l.words MODULUS.words

lemma geModulus_iff (l : Words4) : l.geModulus = true ↔ rModulus ≤ l.value := by
  rw [geModulus, ge_iff l.words_lt MODULUS.words_lt (l.length_eq.trans MODULUS.length_eq.symm),
    ← value_MODULUS]
  rfl

lemma value_subModulus {l : Words4} (h : rModulus ≤ l.value) :
    l.subModulus.value = l.value - rModulus := by
  have hle : MODULUS.value ≤ l.value := by rwa [value_MODULUS]
  have hsub := ofDigits_sub (by norm_num) l.words_lt MODULUS.words_lt
    (l.length_eq.trans MODULUS.length_eq.symm) hle
  rw [← value_MODULUS]
  exact hsub

end Words4

/-! ### Field elements -/

/-- A field element on the host. -/
@[ext] structure Field where
  limbs : Words4
  canonical : limbs.value < rModulus
deriving DecidableEq

/-- The integer. -/
def Field.value (f : Field) : ℕ := f.limbs.value

lemma Field.value_lt (f : Field) : f.value < rModulus := f.canonical

lemma Field.value_injective {f g : Field} (h : f.value = g.value) : f = g :=
  Field.ext (Words4.value_injective h)

/-- The modulus is subtracted until the words are below it. -/
def reduced (limbs : Words4) : Field :=
  if h : limbs.geModulus = true then reduced limbs.subModulus
  else ⟨limbs, not_le.mp fun hle => h (limbs.geModulus_iff.mpr hle)⟩
termination_by limbs.value
decreasing_by
  have hle := limbs.geModulus_iff.mp h
  have hpos : 0 < rModulus := prime_rModulus.pos
  rw [Words4.value_subModulus hle]
  omega

/-- The digits of a number, the lowest first, after those in `digits`. -/
def decimalLoop (limbs : Words4) (digits : List Char) : List Char :=
  if limbs = .zero then digits
  else decimalLoop limbs.divTen.1 (digits ++ [Char.ofNat ('0'.toNat + limbs.divTen.2)])
termination_by limbs.value
decreasing_by
  have hdiv := ofDigits_divRem (B := 2 ^ 64) (m := 10) limbs.words
  have hpos : 0 < limbs.value := Nat.pos_of_ne_zero fun h0 =>
    ‹¬limbs = .zero› (Words4.value_injective h0)
  change Nat.ofDigits (2 ^ 64) (divRem (2 ^ 64) 10 limbs.words).1
    < Nat.ofDigits (2 ^ 64) limbs.words
  change 0 < Nat.ofDigits (2 ^ 64) limbs.words at hpos
  omega

/-- `Field::to_decimal`. -/
def toDecimal (f : Field) : List Char :=
  if f.limbs = .zero then ['0'] else (decimalLoop f.limbs []).reverse

/-! ### The constructors that reduce -/

/-- What stops a constant. -/
inductive ConstantPanic
  | nonNumeric
  | overflow
  | tooManyBytes
deriving DecidableEq, Repr

/-- One byte of a decimal constant. -/
def constantByte (limbs : Words4) (b : UInt8) : Except ConstantPanic Words4 :=
  if ¬('0'.toUInt8 ≤ b ∧ b ≤ '9'.toUInt8) then .error .nonNumeric
  else
    let (limbs, carry) := limbs.mulAdd 10 (b - '0'.toUInt8).toNat
    if carry ≠ 0 then .error .overflow else .ok limbs

/-- `Field::constant`. -/
def constant (decimal : List Char) : Except ConstantPanic Field := do
  let limbs ← (Calendar.asBytes decimal).foldlM constantByte .zero
  return reduced limbs

/-- The loop over the bytes, of which `byte i` is the one of weight `256 ^ i`. -/
def fromBytes (n : ℕ) (byte : ℕ → UInt8) : Words4 :=
  (List.range n).foldl (fun limbs i => limbs.orByte i (byte i)) .zero

/-- `Field::from_le_bytes`. -/
def fromLeBytes (bytes : List UInt8) : Except ConstantPanic Field :=
  if ¬bytes.length ≤ 32 then .error .tooManyBytes
  else .ok (reduced (fromBytes bytes.length fun i => bytes.getD i 0))

/-- `Field::from_be_bytes`. -/
def fromBeBytes (bytes : List UInt8) : Except ConstantPanic Field :=
  if ¬bytes.length ≤ 32 then .error .tooManyBytes
  else .ok (reduced (fromBytes bytes.length fun i => bytes.getD (bytes.length - 1 - i) 0))

/-! ### Texts -/

/-- `char::to_digit`, for a radix of at most `36`. -/
def toDigit (radix : ℕ) (c : Char) : Option ℕ :=
  let n := c.toNat
  let d := if 48 ≤ n ∧ n ≤ 57 then some (n - 48)
    else if 97 ≤ n ∧ n ≤ 122 then some (n - 87)
    else if 65 ≤ n ∧ n ≤ 90 then some (n - 55)
    else none
  d.filter (· < radix)

/-- `char::is_digit`. -/
def isDigit (radix : ℕ) (c : Char) : Bool := (toDigit radix c).isSome

/-- `u8::is_ascii_hexdigit`; a byte of a longer character is none. -/
def isAsciiHexdigit (c : Char) : Bool :=
  ('0' ≤ c && c ≤ '9') || ('a' ≤ c && c ≤ 'f') || ('A' ≤ c && c ≤ 'F')

/-- What follows `0x` or `0X`. -/
def stripHex : List Char → Option (List Char)
  | '0' :: 'x' :: h => some h
  | '0' :: 'X' :: h => some h
  | _ => none

/-- The number that digits stand for, after the number `n`. -/
def readFrom (radix n : ℕ) (t : List Char) : Option ℕ :=
  t.foldlM (fun n c => (toDigit radix c).map (n * radix + ·)) n

/-- The number of one or more digits. -/
def number (radix : ℕ) (t : List Char) : Option ℕ := if t = [] then none else readFrom radix 0 t

/-- What the library for big integers does with digits. -/
structure NumBigint where
  /-- `BigInt::parse_bytes`. -/
  parseInt : List Char → ℕ → Option ℤ
  /-- `BigUint::parse_bytes`. -/
  parseUint : List Char → ℕ → Option ℕ
  /-- `BigInt::to_str_radix(10)`. -/
  toStr : ℤ → List Char
  parseInt_digits : ∀ radix t n, radix = 10 ∨ radix = 16 → number radix t = some n →
    parseInt t radix = some (n : ℤ)
  parseInt_minus : ∀ t n, number 10 t = some n → parseInt ('-' :: t) 10 = some (-(n : ℤ))
  parseUint_digits : ∀ radix t n, radix = 10 ∨ radix = 16 → number radix t = some n →
    parseUint t radix = some n
  toStr_nonneg : ∀ n : ℕ, toStr n = Nat.toDigits 10 n

/-- Why a text is not a field element. -/
inductive TextError
  | emptyHex (s : List Char)
  | invalidHex (s : List Char)
  | notANumber (s : List Char)
  | tooLarge (s : List Char)
  | notBelow (s : List Char)
  | panic
deriving DecidableEq, Repr

/-- One digit of a text. -/
def digitStep (s : List Char) (radix : ℕ) (limbs : Words4) (c : Char) : Except TextError Words4 :=
  match toDigit radix c with
  | none => .error (.notANumber s)
  | some d =>
    let (limbs, carry) := limbs.mulAdd radix d
    if carry ≠ 0 then .error (.tooLarge s) else .ok limbs

/-- `Field::try_from_str`. -/
def tryFromStr (s : List Char) : Except TextError Field := do
  let t := trim s
  let (digits, radix) := match stripHex t with
    | some h => (h, 16)
    | none => (t, 10)
  if digits = [] then .error (.notANumber s)
  let limbs ← digits.foldlM (digitStep s radix) .zero
  if h : (reduced limbs).limbs = limbs then
    .ok ⟨limbs, h ▸ (reduced limbs).canonical⟩
  else .error (.notBelow s)

/-- `BN254_MODULUS`. -/
def BN254_MODULUS : List Char :=
  "21888242871839275222246405745257275088548364400416034343698204186575808495617".toList

section Readers

variable (lib : NumBigint)

/-- What the decimal reader parses: digits, or a minus sign and digits. -/
def isSignedDecimal (t : List Char) : Bool :=
  let d := match t with
    | '-' :: d => d
    | t => t
  d ≠ [] && d.all Char.isDigit

/-- `Option::ok_or`. -/
def okOr {α : Type} (e : TextError) : Option α → Except TextError α
  | some a => .ok a
  | none => .error e

/-- The integer of an input, before its range is checked. -/
def parseInput (s : List Char) : Except TextError ℤ :=
  let t := trim s
  match stripHex t with
  | some [] => .error (.emptyHex s)
  | some h => okOr (.invalidHex s) ((lib.parseInt h 16).filter fun _ => h.all isAsciiHexdigit)
  | none =>
    okOr (.notANumber s) (((some t).filter isSignedDecimal).bind fun t => lib.parseInt t 10)

/-- `field_input_decimal`. -/
def fieldInputDecimal (s : List Char) : Except TextError (List Char) := do
  let bi ← parseInput lib s
  let modulus ← okOr .panic (lib.parseInt BN254_MODULUS 10)
  if bi < 0 ∨ modulus ≤ bi then .error (.notBelow s)
  else .ok (lib.toStr bi)

/-- `integer` of the schema; a number without an exact `u64` is a float (`none` is NaN). -/
def integer (display : Input.Value → String) (asF64 : Input.Number → Option ℚ) :
    Input.Value → Except String ℕ
  | .number (.unsigned n) => .ok n
  | .number n =>
    match asF64 n with
    | none => .error (display (.number n) ++ " is not a whole number")
    | some f =>
      if f < 0 then .error (display (.number n) ++ " is negative")
      else if f.den ≠ 1 then .error (display (.number n) ++ " is not a whole number")
      else if f < 9 * 10 ^ 15 then .ok f.floor.toNat
      else .error (display (.number n) ++ " is too large to write as a JSON number exactly: " ++
        "put it in quotes (\"123…\", or \"0x…\")")
  | .string s =>
    let t := trim s.toList
    let (digits, radix) := match stripHex t with
      | some h => (h, 16)
      | none => (t, 10)
    match ((some digits).filter fun d => d ≠ [] && d.all (isDigit radix)).bind
        fun d => lib.parseUint d radix with
    | some n => .ok n
    | none => .error (display (.string s) ++ " is not a decimal or 0x-hex number")
  | v => .error ("expected a number, got " ++ display v)

/-- The schema's readers of single values, with this `integer`. -/
def withInteger (asF64 : Input.Number → Option ℚ) (rd : Input.Readers) : Input.Readers :=
  { rd with integer := integer lib rd.display asF64 }

end Readers

end FieldText

end XarkCircuit
