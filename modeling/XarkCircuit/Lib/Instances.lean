import Mathlib.Algebra.Field.Basic
import Mathlib.Algebra.Module.Basic
import Mathlib.Algebra.Order.Ring.Nat
import Mathlib.Data.Nat.Cast.Defs
import Mathlib.Order.Fin.Basic

/-!
Instances under names of their own.

* Numerals of fields and of `Fin n` rest on proofs that instance search finds again in each
  definition. Here they have names, so that definitions share them.
-/

namespace Instances

/-! ### Numerals -/

instance neZero_three : NeZero 3 := ⟨by decide⟩

instance neZero_two_pow_32 : NeZero (2 ^ 32) := ⟨by decide⟩

instance neZero_two_pow_256 : NeZero (2 ^ 256) := ⟨by decide⟩

instance atLeastTwo_two : Nat.AtLeastTwo 2 := ⟨by decide⟩

instance atLeastTwo_three : Nat.AtLeastTwo 3 := ⟨by decide⟩

instance atLeastTwo_four : Nat.AtLeastTwo 4 := ⟨by decide⟩

instance atLeastTwo_five : Nat.AtLeastTwo 5 := ⟨by decide⟩

/-! ### Equality and scalars -/

instance lawfulBEq_fin {n : ℕ} : LawfulBEq (Fin n) := inferInstance

instance smulCommClass_field {F M : Type} [Field F] [AddCommGroup M] [Module F M] :
    SMulCommClass F F M := smulCommClass_self F M

end Instances
