import XarkCircuit.Lib.Lucas
import Mathlib.Tactic.NormNum.Prime
import Mathlib.Tactic.ReduceModChar

/-!
The order of the scalar field of BN254 is prime.

* `prime_rModulus`, by Lucas's test down its tree of prime factors.
-/

namespace XarkCircuit

namespace Verifier

/-- The order `r` of the scalar field. -/
def rModulus : ℕ :=
  21888242871839275222246405745257275088548364400416034343698204186575808495617

/-! ### The prime factors of `r - 1` that are not small -/

lemma prime_r9 : Nat.Prime 405928799 := by
  refine Lucas.prime_of_factors (p := 405928799) 22
    [2, 11, 3691, 4999]
    [1, 1, 1, 1] ?_ rfl ?_ ?_
  · simp only [List.forall_mem_cons]
    exact ⟨by norm_num, by norm_num, by norm_num, by norm_num, by simp⟩
  · reduce_mod_char
  · norm_num only [List.forall_mem_cons]
    refine ⟨?_, ?_, ?_, ?_, ?_⟩ <;> reduce_mod_char <;> decide

lemma prime_s9 : Nat.Prime 639533339 := by
  refine Lucas.prime_of_factors (p := 639533339) 2
    [2, 229, 853, 1637]
    [1, 1, 1, 1] ?_ rfl ?_ ?_
  · simp only [List.forall_mem_cons]
    exact ⟨by norm_num, by norm_num, by norm_num, by norm_num, by simp⟩
  · reduce_mod_char
  · norm_num only [List.forall_mem_cons]
    refine ⟨?_, ?_, ?_, ?_, ?_⟩ <;> reduce_mod_char <;> decide

lemma prime_r11 : Nat.Prime 12048837557 := by
  refine Lucas.prime_of_factors (p := 12048837557) 2
    [2, 7, 661, 93001]
    [2, 2, 1, 1] ?_ rfl ?_ ?_
  · simp only [List.forall_mem_cons]
    exact ⟨by norm_num, by norm_num, by norm_num, by norm_num, by simp⟩
  · reduce_mod_char
  · norm_num only [List.forall_mem_cons]
    refine ⟨?_, ?_, ?_, ?_, ?_⟩ <;> reduce_mod_char <;> decide

lemma prime_r13 : Nat.Prime 5156902474397 := by
  refine Lucas.prime_of_factors (p := 5156902474397) 2
    [2, 107, 12048837557]
    [2, 1, 1] ?_ rfl ?_ ?_
  · simp only [List.forall_mem_cons]
    exact ⟨by norm_num, by norm_num, prime_r11, by simp⟩
  · reduce_mod_char
  · norm_num only [List.forall_mem_cons]
    refine ⟨?_, ?_, ?_, ?_⟩ <;> reduce_mod_char <;> decide

lemma prime_r16 : Nat.Prime 1670836401704629 := by
  refine Lucas.prime_of_factors (p := 1670836401704629) 2
    [2, 3, 5156902474397]
    [2, 4, 1] ?_ rfl ?_ ?_
  · simp only [List.forall_mem_cons]
    exact ⟨by norm_num, by norm_num, prime_r13, by simp⟩
  · reduce_mod_char
  · norm_num only [List.forall_mem_cons]
    refine ⟨?_, ?_, ?_, ?_⟩ <;> reduce_mod_char <;> decide

lemma prime_r17 : Nat.Prime 65865678001877903 := by
  refine Lucas.prime_of_factors (p := 65865678001877903) 5
    [2, 83, 379, 1637, 639533339]
    [1, 1, 1, 1, 1] ?_ rfl ?_ ?_
  · simp only [List.forall_mem_cons]
    exact ⟨by norm_num, by norm_num, by norm_num, by norm_num, prime_s9, by simp⟩
  · reduce_mod_char
  · norm_num only [List.forall_mem_cons]
    refine ⟨?_, ?_, ?_, ?_, ?_, ?_⟩ <;> reduce_mod_char <;> decide

lemma prime_r29 : Nat.Prime 13818364434197438864469338081 := by
  refine Lucas.prime_of_factors (p := 13818364434197438864469338081) 3
    [2, 5, 823, 1593227, 65865678001877903]
    [5, 1, 1, 1, 1] ?_ rfl ?_ ?_
  · simp only [List.forall_mem_cons]
    exact ⟨by norm_num, by norm_num, by norm_num, by norm_num, prime_r17, by simp⟩
  · reduce_mod_char
  · norm_num only [List.forall_mem_cons]
    refine ⟨?_, ?_, ?_, ?_, ?_, ?_⟩ <;> reduce_mod_char <;> decide

/-! ### The order itself -/

/-- **The order of the scalar field is prime.** -/
theorem prime_rModulus : rModulus.Prime := by
  unfold rModulus
  refine Lucas.prime_of_factors (p := 21888242871839275222246405745257275088548364400416034343698204186575808495617) 5
    [2, 3, 13, 29, 983, 11003, 237073, 405928799, 1670836401704629, 13818364434197438864469338081]
    [28, 2, 1, 1, 1, 1, 1, 1, 1, 1] ?_ rfl ?_ ?_
  · simp only [List.forall_mem_cons]
    exact ⟨by norm_num, by norm_num, by norm_num, by norm_num, by norm_num, by norm_num, by norm_num, prime_r9, prime_r16, prime_r29, by simp⟩
  · reduce_mod_char
  · norm_num only [List.forall_mem_cons]
    refine ⟨?_, ?_, ?_, ?_, ?_, ?_, ?_, ?_, ?_, ?_, ?_⟩ <;> reduce_mod_char <;> decide

instance : Fact rModulus.Prime := ⟨prime_rModulus⟩

end Verifier

end XarkCircuit
