import XarkCircuit.Lib.Instances
import Mathlib.Tactic.Ring
import Mathlib.Logic.Equiv.Defs

/-!
Field constants as they are stored (`field.rs`).

* A `FieldConst` is a word when it fits one and a big integer otherwise; the structure carries that
  the split is canonical.
* `add`, `mul` and `neg` work on words until one overflows. `big_add`, `big_mul` and `big_neg` say
  that the value is exact.
* `equivInt`: constants are the integers, so that equality of the stored form is equality of values.
-/

namespace XarkCircuit

namespace Const

/-- The values of `i64`. -/
def FitsI64 (v : ℤ) : Prop := -2 ^ 63 ≤ v ∧ v < 2 ^ 63

instance (v : ℤ) : Decidable (FitsI64 v) := by unfold FitsI64; infer_instance

inductive Repr
  | small (i : Int64)
  | big (value : ℤ)
deriving DecidableEq

/-- Small exactly when it fits (`norm`). -/
def norm (v : ℤ) : Repr := if FitsI64 v then .small (Int64.ofInt v) else .big v

@[ext] structure FieldConst where
  repr : Repr
  canonical : ∀ v, repr = .big v → ¬FitsI64 v
deriving DecidableEq

/-- `checked_add` and its like: the word of an exact result. -/
def checked (v : ℤ) : Option Int64 := if FitsI64 v then some (Int64.ofInt v) else none

lemma fitsI64_toInt (i : Int64) : FitsI64 i.toInt := ⟨i.le_toInt, i.toInt_lt⟩

lemma toInt_ofInt {v : ℤ} (h : FitsI64 v) : (Int64.ofInt v).toInt = v :=
  Int64.toInt_ofInt_of_le h.1 h.2

namespace FieldConst

def fromBigint (value : ℤ) : FieldConst where
  repr := norm value
  canonical v h := by
    rw [norm] at h
    split_ifs at h with hfits
    rwa [← Repr.big.inj h]

def fromI64 (value : Int64) : FieldConst := ⟨.small value, nofun⟩

def zero : FieldConst := fromI64 0

def one : FieldConst := fromI64 1

/-- The value. -/
def big (c : FieldConst) : ℤ :=
  match c.repr with
  | .small i => i.toInt
  | .big v => v

/-- The value, when it is outside `i64`. -/
def asBig (c : FieldConst) : Option ℤ :=
  match c.repr with
  | .small _ => none
  | .big v => some v

def isZero (c : FieldConst) : Bool := c.repr = .small 0

/-- On words while the result fits, and on integers otherwise. -/
def combine (op : ℤ → ℤ → ℤ) (a b : FieldConst) : FieldConst :=
  match a.repr, b.repr with
  | .small i, .small j =>
      match checked (op i.toInt j.toInt) with
      | some s => fromI64 s
      | none => fromBigint (op a.big b.big)
  | _, _ => fromBigint (op a.big b.big)

def add : FieldConst → FieldConst → FieldConst := combine (· + ·)

def mul : FieldConst → FieldConst → FieldConst := combine (· * ·)

def neg (a : FieldConst) : FieldConst :=
  match a.repr with
  | .small i =>
      match checked (-i.toInt) with
      | some n => fromI64 n
      | none => fromBigint (-a.big)
  | .big _ => fromBigint (-a.big)

/-! ### Values -/

@[simp] lemma big_fromI64 (i : Int64) : (fromI64 i).big = i.toInt := rfl

@[simp] lemma big_fromBigint (v : ℤ) : (fromBigint v).big = v := by
  have hrepr : (fromBigint v).repr = if FitsI64 v then .small (Int64.ofInt v) else .big v := rfl
  rw [big, hrepr]
  split_ifs with h
  · exact toInt_ofInt h
  · rfl

@[simp] lemma fromBigint_big (c : FieldConst) : fromBigint c.big = c := by
  obtain ⟨repr, hcanonical⟩ := c
  refine FieldConst.ext ?_
  cases repr with
  | small i =>
      show norm i.toInt = .small i
      rw [norm, if_pos (fitsI64_toInt i), Int64.ofInt_toInt]
  | big v =>
      show norm v = .big v
      rw [norm, if_neg (hcanonical v rfl)]

/-- **Constants are the integers.** -/
def equivInt : FieldConst ≃ ℤ := ⟨big, fromBigint, fromBigint_big, big_fromBigint⟩

/-- Equality of the stored form is equality of values. -/
lemma big_inj {a b : FieldConst} : a.big = b.big ↔ a = b := equivInt.injective.eq_iff

lemma big_of_checked {v : ℤ} {s : Int64} (h : checked v = some s) : s.toInt = v := by
  rw [checked] at h
  split_ifs at h with hfits
  rw [← Option.some.inj h, toInt_ofInt hfits]

lemma big_combine (op : ℤ → ℤ → ℤ) (a b : FieldConst) : (combine op a b).big = op a.big b.big := by
  rw [combine]
  split
  · next i j hi hj =>
    have ha : a.big = i.toInt := by rw [big, hi]
    have hb : b.big = j.toInt := by rw [big, hj]
    split
    · next s hs => rw [big_fromI64, big_of_checked hs, ha, hb]
    · rw [big_fromBigint]
  · rw [big_fromBigint]

@[simp] lemma big_add (a b : FieldConst) : (a.add b).big = a.big + b.big := big_combine _ a b

@[simp] lemma big_mul (a b : FieldConst) : (a.mul b).big = a.big * b.big := big_combine _ a b

@[simp] lemma big_neg (a : FieldConst) : a.neg.big = -a.big := by
  rw [neg]
  split
  · next i hi =>
    have ha : a.big = i.toInt := by rw [big, hi]
    split
    · next s hs => rw [big_fromI64, big_of_checked hs, ha]
    · rw [big_fromBigint]
  · rw [big_fromBigint]

@[simp] lemma big_zero : zero.big = 0 := rfl

lemma isZero_iff (a : FieldConst) : a.isZero ↔ a.big = 0 := by
  rw [← big_zero, big_inj, isZero, decide_eq_true_eq]
  exact ⟨fun h => FieldConst.ext h, fun h => congrArg FieldConst.repr h⟩

/-- What is stored as a big integer. -/
lemma asBig_isSome_iff (a : FieldConst) : a.asBig.isSome ↔ ¬FitsI64 a.big := by
  obtain ⟨repr, hcanonical⟩ := a
  cases repr with
  | small i => simp [asBig, big, fitsI64_toInt]
  | big v => simpa [asBig, big] using hcanonical v rfl

end FieldConst

end Const

end XarkCircuit
