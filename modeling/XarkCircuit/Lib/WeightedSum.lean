import XarkCircuit.Lib.Instances
import Mathlib.Algebra.Module.LinearMap.Defs

/-!
Sums with a weight for each position.

* `weightedSum w i l` weighs the elements of `l` by `w i`, `w (i + 1)`, ...
* It is additive and linear in the elements (`weightedSum_map_add`, `weightedSum_map_linear`), and a
  constant comes out with the total of the weights (`weightedSum_map_const`).
* `weightedSum_eq_zero` and `weightedSum_ne_zero`: no term, and exactly one term, that is not zero.
-/

section WeightedSum

variable {R M N ι : Type*} [Semiring R] [AddCommMonoid M] [Module R M] [AddCommMonoid N] [Module R N]

/-- The sum of the elements, weighted from position `i` on. -/
def weightedSum (w : ℕ → R) : ℕ → List M → M
  | _, [] => 0
  | i, g :: gs => w i • g + weightedSum w (i + 1) gs

@[simp] lemma weightedSum_nil (w : ℕ → R) (i : ℕ) : weightedSum w i ([] : List M) = 0 := rfl

lemma weightedSum_cons (w : ℕ → R) (i : ℕ) (g : M) (gs : List M) :
    weightedSum w i (g :: gs) = w i • g + weightedSum w (i + 1) gs := rfl

/-- The weights of `n` positions from `i` on. -/
def weightTotal (w : ℕ → R) : ℕ → ℕ → R
  | _, 0 => 0
  | i, n + 1 => w i + weightTotal w (i + 1) n

@[simp] lemma weightTotal_zero (w : ℕ → R) (i : ℕ) : weightTotal w i 0 = 0 := rfl

lemma weightTotal_succ (w : ℕ → R) (i n : ℕ) :
    weightTotal w i (n + 1) = w i + weightTotal w (i + 1) n := rfl

lemma natCast_weightTotal (w : ℕ → ℕ) (i n : ℕ) :
    ((weightTotal w i n : ℕ) : R) = weightTotal (fun j => (w j : R)) i n := by
  induction n generalizing i with
  | zero => simp
  | succ n ih => rw [weightTotal_succ, weightTotal_succ, Nat.cast_add, ih]

lemma weightedSum_map_add (w : ℕ → R) (f g : ι → M) (i : ℕ) (l : List ι) :
    weightedSum w i (l.map fun a => f a + g a)
      = weightedSum w i (l.map f) + weightedSum w i (l.map g) := by
  induction l generalizing i with
  | nil => simp
  | cons a l ih =>
      simp only [List.map_cons, weightedSum_cons]
      rw [ih, smul_add, add_add_add_comm]

lemma weightedSum_map_linear (w : ℕ → R) (φ : M →ₗ[R] N) (f : ι → M) (i : ℕ) (l : List ι) :
    weightedSum w i (l.map fun a => φ (f a)) = φ (weightedSum w i (l.map f)) := by
  induction l generalizing i with
  | nil => simp
  | cons a l ih =>
      simp only [List.map_cons, weightedSum_cons]
      rw [ih, map_add, map_smul]

lemma weightedSum_map_const (w : ℕ → R) (g : M) (i : ℕ) (l : List ι) :
    weightedSum w i (l.map fun _ => g) = weightTotal w i l.length • g := by
  induction l generalizing i with
  | nil => simp
  | cons a l ih =>
      simp only [List.map_cons, weightedSum_cons, List.length_cons, weightTotal_succ]
      rw [ih, add_smul]

/-- No term is left. -/
lemma weightedSum_eq_zero (w : ℕ → R) (i : ℕ) {l : List M} (h : ∀ g ∈ l, g = 0) :
    weightedSum w i l = 0 := by
  induction l generalizing i with
  | nil => rfl
  | cons a l ih =>
      rw [weightedSum_cons, h a List.mem_cons_self, smul_zero, zero_add,
        ih _ fun g hg => h g (List.mem_cons_of_mem _ hg)]

end WeightedSum

/-- **One term that is not zero stands alone**: its weight is not zero either, so nothing cancels
it. -/
theorem weightedSum_ne_zero {R : Type*} [Semiring R] [NoZeroDivisors R] {w : ℕ → R}
    (hw : ∀ i, w i ≠ 0) {l : List R} {k : ℕ} (hk : k < l.length) (hne : l[k] ≠ 0)
    (hzero : ∀ (j : ℕ) (hj : j < l.length), j ≠ k → l[j] = 0) (i : ℕ) : weightedSum w i l ≠ 0 := by
  induction l generalizing k i with
  | nil => simp at hk
  | cons a l ih =>
      rw [weightedSum_cons]
      cases k with
      | zero =>
          have hrest : ∀ g ∈ l, g = 0 := by
            intro g hg
            obtain ⟨j, hj, rfl⟩ := List.getElem_of_mem hg
            exact hzero (j + 1) (Nat.succ_lt_succ hj) (Nat.succ_ne_zero j)
          rw [weightedSum_eq_zero _ _ hrest, add_zero, smul_eq_mul]
          exact mul_ne_zero (hw i) hne
      | succ k =>
          have ha : a = 0 := hzero 0 (Nat.zero_lt_succ _) (Nat.succ_ne_zero k).symm
          rw [ha, smul_zero, zero_add]
          refine ih (Nat.lt_of_succ_lt_succ hk) hne (fun j hj hjk => ?_) (i + 1)
          exact hzero (j + 1) (Nat.succ_lt_succ hj) fun h => hjk (Nat.succ_injective h)
