import XarkCircuit.Decode.Container
import XarkCircuit.Decode.Parse

/-!
The circuit digest (`function_decode.rs`).

* `digestLc` folds a linear combination into a 128-bit FNV-1a accumulator, and `streamDigest` all
  rows that an artifact expands to.
* `lcText` and `rowText` are the bytes that are folded, `hashedBytes` those of an artifact;
  `streamDigest_eq` says that the digest is the fold of these bytes.
-/

namespace XarkCircuit

open Codec

/-! ### Decimal text -/

/-- The decimal digits of a magnitude, the highest first. -/
def decimalDigits (n : ℕ) : List UInt8 :=
  if n = 0 then [0x30] else ((Nat.digits 10 n).map fun d => UInt8.ofNat (0x30 + d)).reverse

/-- `FieldConst::decimal`, as bytes. -/
def decimal (z : ℤ) : List UInt8 :=
  (if z < 0 then [0x2d] else []) ++ decimalDigits z.natAbs

/-! ### The digest -/

/-- The prime of 128-bit FNV. -/
def fnvPrime : BitVec 128 := 0x0000000001000000000000000000013B#128

/-- The offset basis of 128-bit FNV. -/
def fnvBasis : BitVec 128 := 0x6c62272e07bb014262b821756295c58d#128

/-- `fnv1a_128`. -/
def fnv1a128 (acc : BitVec 128) (bytes : List UInt8) : BitVec 128 :=
  bytes.foldl (fun acc b => (acc ^^^ BitVec.ofNat 128 b.toNat) * fnvPrime) acc

/-- `digest_lc`. -/
def digestLc (acc : BitVec 128) (lc : LinearCombination) : BitVec 128 :=
  let acc := fnv1a128 acc (decimal lc.constant)
  let acc := fnv1a128 acc [0x7c]
  let acc := lc.terms.foldl (fun acc t =>
    let acc := fnv1a128 acc (leBytes 4 t.var.val)
    let acc := fnv1a128 acc (decimal t.coeff)
    fnv1a128 acc [0x2c]) acc
  fnv1a128 acc [0x3b]

/-- One row. -/
def digestRow (acc : BitVec 128) (row : R1csRow) : BitVec 128 :=
  let acc := digestLc acc row.a
  let acc := digestLc acc row.b
  let acc := digestLc acc row.c
  fnv1a128 acc [0x0a]

/-- `stream_digest`. -/
def streamDigest (b : List UInt8) (n : ℕ) : Outcome (BitVec 128) := do
  let (c, _) ← parseContainer b
  let rows ← expandCVisit c.defs n .IDENTITY c.topC
  return rows.foldl digestRow fnvBasis

/-! ### What is hashed -/

/-- The bytes of a term. -/
def termText (t : Term) : List UInt8 := leBytes 4 t.var.val ++ (decimal t.coeff ++ [0x2c])

/-- The bytes of a linear combination. -/
def lcText (lc : LinearCombination) : List UInt8 :=
  decimal lc.constant ++ 0x7c :: (lc.terms.flatMap termText ++ [0x3b])

/-- The bytes of a row. -/
def rowText (row : R1csRow) : List UInt8 :=
  lcText row.a ++ (lcText row.b ++ (lcText row.c ++ [0x0a]))

/-- The bytes of the rows that an artifact expands to. -/
def hashedBytes (b : List UInt8) (n : ℕ) : Outcome (List UInt8) := do
  let (c, _) ← parseContainer b
  let rows ← expandCVisit c.defs n .IDENTITY c.topC
  return rows.flatMap rowText

lemma fnv1a128_append (acc : BitVec 128) (xs ys : List UInt8) :
    fnv1a128 (fnv1a128 acc xs) ys = fnv1a128 acc (xs ++ ys) :=
  (List.foldl_append).symm

lemma digestLc_eq (acc : BitVec 128) (lc : LinearCombination) :
    digestLc acc lc = fnv1a128 acc (lcText lc) := by
  have hterms : ∀ (ts : List Term) (acc : BitVec 128), ts.foldl (fun acc t =>
      fnv1a128 (fnv1a128 (fnv1a128 acc (leBytes 4 t.var.val)) (decimal t.coeff)) [0x2c]) acc
      = fnv1a128 acc (ts.flatMap termText) := by
    intro ts
    induction ts with
    | nil => exact fun _ => rfl
    | cons t ts ih =>
        intro acc
        rw [List.foldl_cons, ih, fnv1a128_append, fnv1a128_append, fnv1a128_append,
          List.flatMap_cons, termText]
        simp only [List.append_assoc]
  rw [digestLc, lcText]
  simp only
  rw [hterms, fnv1a128_append, fnv1a128_append, fnv1a128_append]
  rfl

lemma digestRow_eq (acc : BitVec 128) (row : R1csRow) :
    digestRow acc row = fnv1a128 acc (rowText row) := by
  rw [digestRow, rowText]
  simp only [digestLc_eq, fnv1a128_append, List.append_assoc]

/-- **The digest folds exactly `hashedBytes`.** -/
lemma streamDigest_eq (b : List UInt8) (n : ℕ) :
    streamDigest b n = (hashedBytes b n >>= fun bytes => .ok (fnv1a128 fnvBasis bytes)) := by
  have hrows : ∀ (rows : List R1csRow) (acc : BitVec 128),
      rows.foldl digestRow acc = fnv1a128 acc (rows.flatMap rowText) := by
    intro rows
    induction rows with
    | nil => exact fun _ => rfl
    | cons row rows ih =>
        intro acc
        rw [List.foldl_cons, ih, digestRow_eq, fnv1a128_append, List.flatMap_cons]
  rw [streamDigest, hashedBytes]
  cases parseContainer b with
  | error e => rfl
  | ok c =>
      simp only [Outcome.ok_bind]
      cases expandCVisit c.1.defs n .IDENTITY c.1.topC with
      | error e => rfl
      | ok rows =>
          simp only [Outcome.ok_bind, Outcome.pure_eq_ok]
          rw [hrows]

end XarkCircuit
