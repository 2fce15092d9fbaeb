import XarkCircuit.Lib.Instances
import Mathlib.Algebra.BigOperators.Ring.Finset
import Mathlib.Algebra.BigOperators.Group.Finset.Sigma
import Mathlib.Data.Finset.Prod
import Mathlib.Data.Prod.Lex
import Mathlib.Tactic.Ring

/-!
Quadratic forms that are squares of linear forms.

* `pairs K` are the pairs `a ≤ b` of `K`; `sum_pairs` folds a symmetric sum over all pairs onto
  them, and `card_pairs` counts them.
* `sum_eq_sq`: a list of distinct pairs that is as long as `pairs K`, with the coefficients of
  `d · S²`, adds up to `d · S²`.
-/

namespace SquareForm

variable {κ : Type*} [LinearOrder κ]

/-- The pairs `a ≤ b` of `K`. -/
def pairs (K : Finset κ) : Finset (κ × κ) := (K ×ˢ K).filter fun q => q.1 ≤ q.2

lemma mem_pairs {K : Finset κ} {q : κ × κ} :
    q ∈ pairs K ↔ (q.1 ∈ K ∧ q.2 ∈ K) ∧ q.1 ≤ q.2 := by
  rw [pairs, Finset.mem_filter, Finset.mem_product]

/-- A symmetric sum over all pairs, folded onto the pairs `a ≤ b`. -/
lemma sum_pairs {M : Type*} [AddCommMonoid M] (K : Finset κ) {f : κ × κ → M}
    (hf : ∀ q, f q.swap = f q) :
    ∑ q ∈ K ×ˢ K, f q = ∑ q ∈ pairs K, if q.1 ≠ q.2 then f q + f q else f q := by
  have hsplit : ∀ q : κ × κ, (if q.1 ≠ q.2 then f q + f q else f q)
      = f q + if q.1 ≠ q.2 then f q else 0 := by
    intro q
    split_ifs <;> simp
  -- the pairs above the diagonal are the mirror images of those below
  have hswap : ∑ q ∈ (K ×ˢ K).filter (fun q => ¬ q.1 ≤ q.2), f q
      = ∑ q ∈ (pairs K).filter (fun q => q.1 ≠ q.2), f q := by
    refine Finset.sum_nbij' Prod.swap Prod.swap ?_ ?_ ?_ ?_ ?_
    · intro q hq
      rw [Finset.mem_filter, Finset.mem_product, not_le] at hq
      rw [Finset.mem_filter, mem_pairs]
      exact ⟨⟨⟨hq.1.2, hq.1.1⟩, hq.2.le⟩, hq.2.ne⟩
    · intro q hq
      rw [Finset.mem_filter, mem_pairs] at hq
      rw [Finset.mem_filter, Finset.mem_product, not_le]
      exact ⟨⟨hq.1.1.2, hq.1.1.1⟩, lt_of_le_of_ne hq.1.2 hq.2⟩
    · exact fun q _ => q.swap_swap
    · exact fun q _ => q.swap_swap
    · exact fun q _ => (hf q).symm
  calc ∑ q ∈ K ×ˢ K, f q
      = ∑ q ∈ pairs K, f q + ∑ q ∈ (K ×ˢ K).filter (fun q => ¬ q.1 ≤ q.2), f q :=
        (Finset.sum_filter_add_sum_filter_not _ _ _).symm
    _ = ∑ q ∈ pairs K, f q + ∑ q ∈ pairs K, if q.1 ≠ q.2 then f q else 0 := by
        rw [hswap, Finset.sum_filter]
    _ = ∑ q ∈ pairs K, if q.1 ≠ q.2 then f q + f q else f q := by
        rw [← Finset.sum_add_distrib]
        exact Finset.sum_congr rfl fun q _ => (hsplit q).symm

/-- There are `n (n + 1) / 2` of them. -/
lemma card_pairs (K : Finset κ) : (pairs K).card = K.card * (K.card + 1) / 2 := by
  have hdiag : (pairs K).filter (fun q => q.1 = q.2) = K.diag := by
    ext q
    rw [Finset.mem_filter, mem_pairs, Finset.mem_diag]
    constructor
    · exact fun h => ⟨h.1.1.1, h.2⟩
    · exact fun h => ⟨⟨⟨h.1, h.2 ▸ h.1⟩, h.2.le⟩, h.2⟩
  have hcount : K.card * K.card = ∑ q ∈ pairs K, if q.1 ≠ q.2 then 1 + 1 else 1 := by
    rw [← sum_pairs K (f := fun _ => 1) fun _ => rfl, ← Finset.card_eq_sum_ones,
      Finset.card_product]
  -- each pair counts twice, those of the diagonal once too few
  have htwice : 2 * (pairs K).card = K.card * K.card + K.card := by
    calc 2 * (pairs K).card
        = ∑ q ∈ pairs K, ((if q.1 ≠ q.2 then 1 + 1 else 1) + if q.1 = q.2 then 1 else 0) := by
          rw [mul_comm, Finset.card_eq_sum_ones, Finset.sum_mul]
          refine Finset.sum_congr rfl fun q _ => ?_
          by_cases h : q.1 = q.2 <;> simp [h]
      _ = K.card * K.card + K.card := by
          rw [Finset.sum_add_distrib, ← hcount, ← Finset.sum_filter, hdiag,
            ← Finset.card_eq_sum_ones, Finset.diag_card]
  rw [mul_add, mul_one, ← htwice, Nat.mul_div_cancel_left _ two_pos]

/-- **A form that lists every pair with the coefficients of `d · S²` is `d · S²`.** -/
theorem sum_eq_sq {R : Type*} [CommRing R] {K : Finset κ} {d : R} (s : κ → R)
    (quad : List ((κ × κ) × R)) (hnodup : (quad.map Prod.fst).Nodup)
    (hkeys : ∀ q ∈ quad, q.1 ∈ pairs K) (hlen : quad.length = K.card * (K.card + 1) / 2)
    (hcoeff : ∀ q ∈ quad, q.2 = if q.1.1 ≠ q.1.2 then d * s q.1.1 * s q.1.2 + d * s q.1.1 * s q.1.2
      else d * s q.1.1 * s q.1.2) (x : κ → R) :
    (quad.map fun q => q.2 * (x q.1.1 * x q.1.2)).sum = d * (∑ v ∈ K, s v * x v) ^ 2 := by
  set f : κ × κ → R := fun q => d * (s q.1 * x q.1) * (s q.2 * x q.2) with hf
  have hall : (quad.map Prod.fst).toFinset = pairs K := by
    refine Finset.eq_of_subset_of_card_le (fun q hq => ?_) ?_
    · obtain ⟨e, he, rfl⟩ := List.mem_map.mp (List.mem_toFinset.mp hq)
      exact hkeys e he
    · rw [List.toFinset_card_of_nodup hnodup, List.length_map, hlen, card_pairs]
  have hterm : ∀ q ∈ quad, q.2 * (x q.1.1 * x q.1.2)
      = if q.1.1 ≠ q.1.2 then f q.1 + f q.1 else f q.1 := by
    intro q hq
    rw [hcoeff q hq]
    split_ifs <;> rw [hf] <;> ring
  calc (quad.map fun q => q.2 * (x q.1.1 * x q.1.2)).sum
      = ((quad.map Prod.fst).map fun q => if q.1 ≠ q.2 then f q + f q else f q).sum := by
        rw [List.map_map]
        exact congrArg List.sum (List.map_congr_left hterm)
    _ = ∑ q ∈ pairs K, if q.1 ≠ q.2 then f q + f q else f q := by
        rw [← hall, List.sum_toFinset _ hnodup]
    _ = ∑ q ∈ K ×ˢ K, f q := by
        refine (sum_pairs K fun q => ?_).symm
        simp only [hf, Prod.fst_swap, Prod.snd_swap]
        ring
    _ = d * (∑ v ∈ K, s v * x v) ^ 2 := by
        rw [Finset.sum_product, pow_two, Finset.sum_mul_sum, Finset.mul_sum]
        refine Finset.sum_congr rfl fun v _ => ?_
        rw [Finset.mul_sum]
        exact Finset.sum_congr rfl fun w _ => by rw [hf]; ring

end SquareForm
