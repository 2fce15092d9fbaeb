import XarkCircuit.Solve.Hint

/-!
Reading the inputs (`Fp::from_decimal`, and the loops that seed a solver).
-/

namespace XarkCircuit

/-- `char::is_whitespace`. -/
def isWhitespace (c : Char) : Bool :=
  let n := c.toNat
  (9 ≤ n && n ≤ 13) || n = 0x20 || n = 0x85 || n = 0xa0 || n = 0x1680 ||
    (0x2000 ≤ n && n ≤ 0x200a) || n = 0x2028 || n = 0x2029 || n = 0x202f || n = 0x205f || n = 0x3000

/-- `str::trim`. -/
def trim (cs : List Char) : List Char :=
  ((cs.dropWhile isWhitespace).reverse.dropWhile isWhitespace).reverse

/-- One or more decimal digits. -/
def parseDigits : List Char → Option ℕ
  | [] => none
  | cs => cs.foldl (fun acc c => acc.bind fun n =>
      if c.isDigit then some (10 * n + (c.toNat - '0'.toNat)) else none) (some 0)

/-- `str::parse::<i64>`: an optional sign, then digits, in range. -/
def parseI64 (cs : List Char) : Option ℤ :=
  let n : Option ℤ := match cs with
    | '-' :: ds => (parseDigits ds).map fun n => -(n : ℤ)
    | '+' :: ds => (parseDigits ds).map fun n => (n : ℤ)
    | ds => (parseDigits ds).map fun n => (n : ℤ)
  n.filter fun n => -2 ^ 63 ≤ n && n < 2 ^ 63

section Field

variable (p : ℕ)

/-- `Fp::from_decimal`: a signed decimal string, reduced into the field. -/
def fromDecimal (s : String) : ZMod p :=
  let trimmed := trim s.toList
  match parseI64 trimmed with
  | some n => (n : ZMod p)
  | none =>
    match trimmed with
    | '-' :: mag => -(((parseBigUint (String.ofList mag)).getD 0 : ℕ) : ZMod p)
    | mag => (((parseBigUint (String.ofList mag)).getD 0 : ℕ) : ZMod p)

end Field

example : fromDecimal 7 " -12\n" = 2 := by decide

end XarkCircuit
