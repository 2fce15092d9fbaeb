import XarkCircuit.Solve.Lll
import XarkCircuit.Lib.GramMinor

/-!
Lattice reduction ends, and reduces.

* `gram_eq`: what `gram` computes are Gram determinants, and its divisions are exact.
* `reduceAt_spec` and `step_spec`: one step keeps the lattice and what is reduced already, and
  either goes on or makes the product of the determinants smaller.
* `lll_reduces`: the whole run.
-/

namespace XarkCircuit

namespace Lll

open Outcome GramMinor Function

/-- A division that is right where it is exact. -/
def Exact (div : ℤ → ℤ → Outcome ℤ) : Prop := ∀ w y, y ≠ 0 → div (y * w) y = .ok w

lemma exact_divide : Exact divide := fun w y hy => by
  rw [divide, if_neg hy, Int.mul_tdiv_cancel_left w hy]

lemma exact_divideExact : Exact divideExact := fun w y hy => by
  rw [divideExact, if_neg (not_or.mpr ⟨hy, not_not.mpr (dvd_mul_right y w)⟩),
    Int.mul_tdiv_cancel_left w hy]

/-! ### The coefficients -/

/-- `d_i`: the Gram determinant of the first `i` rows. -/
def d (b : Rows) (i : ℕ) : ℤ := gramDet (row b) i

/-- `λ_kj`. -/
def lam (b : Rows) (k j : ℕ) : ℤ := bordered (row b) j (row b k) (row b j)

/-- The coefficients before entry `j` of row `k`. -/
def gsUpTo (b : Rows) (k j : ℕ) : Gs where
  d i := if i ≤ k then d b i else 1
  lam l i := if i < l ∧ (l < k ∨ l = k ∧ i < j) then lam b l i else 0

/-- A loop whose states are known. -/
lemma foldlM_range {σ : Type} {f : σ → ℕ → Outcome σ} {s : ℕ → σ} {n : ℕ}
    (h : ∀ i < n, f (s i) i = .ok (s (i + 1))) : (List.range n).foldlM f (s 0) = .ok (s n) := by
  induction n with
  | zero => rfl
  | succ n ih =>
      rw [List.range_succ, List.foldlM_append, ih fun i hi => h i (by omega), ok_bind,
        List.foldlM_cons, h n (by omega), ok_bind, List.foldlM_nil, pure_eq_ok]

section Coefficients

variable {div : ℤ → ℤ → Outcome ℤ} (hdiv : Exact div) {b : Rows} (hb : ∀ i < 4, d b i ≠ 0)
include hdiv hb

/-- The inner loop runs through the bordered determinants. -/
lemma inner_eq {k j : ℕ} (hjk : j ≤ k) (hk : k < 4) :
    (List.range j).foldlM (fun v i => div ((gsUpTo b k j).d (i + 1) * v
      - (gsUpTo b k j).lam k i * (gsUpTo b k j).lam j i) ((gsUpTo b k j).d i))
      (row b k ⬝ᵥ row b j) = .ok (bordered (row b) j (row b k) (row b j)) := by
  have hstep : ∀ i < j, div ((gsUpTo b k j).d (i + 1) * bordered (row b) i (row b k) (row b j)
      - (gsUpTo b k j).lam k i * (gsUpTo b k j).lam j i) ((gsUpTo b k j).d i)
      = .ok (bordered (row b) (i + 1) (row b k) (row b j)) := by
    intro i hi
    have hd : ∀ l ≤ k, (gsUpTo b k j).d l = gramDet (row b) l := fun l hl => if_pos hl
    have hlk : (gsUpTo b k j).lam k i = bordered (row b) i (row b k) (row b i) :=
      if_pos ⟨by omega, Or.inr ⟨rfl, hi⟩⟩
    have hlj : (gsUpTo b k j).lam j i = bordered (row b) i (row b i) (row b j) := by
      rw [bordered_comm]
      exact if_pos ⟨hi, by omega⟩
    have hne : gramDet (row b) i ≠ 0 := hb i (by omega)
    rw [hd (i + 1) (by omega), hd i (by omega), hlk, hlj, ← sylvester hne]
    exact hdiv _ _ hne
  rw [← bordered_zero (row b)]
  exact foldlM_range (s := fun i => bordered (row b) i (row b k) (row b j)) hstep

lemma entry_eq {k j : ℕ} (hjk : j < k) (hk : k < 4) :
    entry div b k (gsUpTo b k j) j = .ok (gsUpTo b k (j + 1)) := by
  rw [entry, inner_eq hdiv hb hjk.le hk, ok_bind, if_pos hjk, pure_eq_ok]
  refine congrArg Except.ok ?_
  rw [gsUpTo, gsUpTo]
  refine congrArg (Gs.mk _) (funext fun l => funext fun i => ?_)
  by_cases hl : l = k
  · subst hl
    rw [update_self]
    by_cases hi : i = j
    · subst hi
      rw [update_self, if_pos ⟨hjk, Or.inr ⟨rfl, Nat.lt_succ_self i⟩⟩, lam]
    · rw [update_of_ne hi]
      refine if_congr ?_ rfl rfl
      omega
  · rw [update_of_ne hl]
    refine if_congr ?_ rfl rfl
    omega

lemma entry_diagonal {k : ℕ} (hk : k < 4) :
    entry div b k (gsUpTo b k k) k = .ok (gsUpTo b (k + 1) 0) := by
  rw [entry, inner_eq hdiv hb le_rfl hk, ok_bind, if_neg (lt_irrefl k), pure_eq_ok, bordered_self]
  refine congrArg Except.ok ?_
  rw [gsUpTo, gsUpTo]
  refine congr (congrArg Gs.mk (funext fun i => ?_)) (funext fun l => funext fun i => ?_)
  · by_cases hi : i = k + 1
    · rw [hi, update_self, if_pos le_rfl, d]
    · rw [update_of_ne hi]
      refine if_congr ?_ rfl rfl
      omega
  · refine if_congr ?_ rfl rfl
    omega

/-- **The coefficients** are Gram determinants, and every division is exact. -/
theorem gram_eq : gram div b = .ok (gsUpTo b 4 0) := by
  have hrow : ∀ k < 4, (List.range (k + 1)).foldlM (entry div b k) (gsUpTo b k 0)
      = .ok (gsUpTo b (k + 1) 0) := by
    intro k hk
    have hloop := foldlM_range (s := gsUpTo b k) fun j hj => entry_eq hdiv hb hj hk
    rw [List.range_succ, List.foldlM_append, hloop, ok_bind, List.foldlM_cons,
      entry_diagonal hdiv hb hk, ok_bind, List.foldlM_nil, pure_eq_ok]
  have hstart : (⟨fun _ => 1, fun _ _ => 0⟩ : Gs) = gsUpTo b 0 0 := by
    rw [gsUpTo]
    refine congr (congrArg Gs.mk (funext fun i => ?_)) (funext fun l => funext fun i => ?_)
    · split_ifs with hi
      · rw [Nat.le_zero.mp hi, d, gramDet_zero]
      · rfl
    · rw [if_neg (by omega)]
  rw [gram, hstart]
  exact foldlM_range (s := fun k => gsUpTo b k 0) hrow

end Coefficients

/-! ### Rows -/

/-- The lattice that the rows span. -/
def lattice (b : Rows) : Submodule ℤ (Fin 4 → ℤ) := Submodule.span ℤ (Set.range b)

section Changes

variable {b b' : Rows} {k j i l : ℕ}

@[simp] lemma row_val (b : Rows) (i : Fin 4) : row b i = b i := dif_pos i.isLt

lemma row_setRow_self (b : Rows) (hk : k < 4) (x : Fin 4 → ℤ) : row (setRow b k x) k = x := by
  rw [row, dif_pos hk, setRow, if_pos rfl]

lemma row_setRow_of_ne (b : Rows) (x : Fin 4 → ℤ) (h : i ≠ k) :
    row (setRow b k x) i = row b i := by
  rw [row, row]
  split_ifs
  · exact if_neg h
  · rfl

lemma row_mem_lattice (b : Rows) (i : ℕ) : row b i ∈ lattice b := by
  rw [row]
  split_ifs
  · exact Submodule.subset_span (Set.mem_range_self _)
  · exact Submodule.zero_mem _

lemma lattice_le (h : ∀ i < 4, row b i ∈ lattice b') : lattice b ≤ lattice b' := by
  refine Submodule.span_le.mpr ?_
  rintro _ ⟨i, rfl⟩
  rw [← row_val b i]
  exact h i i.isLt

/-- Rows up to `l` that agree have the same coefficients. -/
lemma lam_congr (h : ∀ a ≤ l, row b' a = row b a) (hi : i ≤ l) : lam b' l i = lam b l i := by
  rw [lam, lam, h l le_rfl, h i hi]
  exact bordered_congr (fun a ha => h a (by omega)) _ _

/-- Independent rows. -/
lemma d_pos (hb : d b 4 ≠ 0) (hi : i ≤ 4) : 0 < d b i := gramDet_pos hb hi

/-! ### Size reduction -/

variable (hjk : j < k) (hk : k < 4) (q : ℤ)

include hjk hk in
lemma d_setRow (i : ℕ) : d (setRow b k (row b k - q • row b j)) i = d b i :=
  gramDet_of_sub_smul hjk (row_setRow_self b hk _) (fun _ h => row_setRow_of_ne b _ h) i

include hk in
lemma lam_setRow (hi : i < k) : lam (setRow b k (row b k - q • row b j)) k i
    = lam b k i - q * bordered (row b) i (row b j) (row b i) := by
  rw [lam, row_setRow_self b hk, row_setRow_of_ne b _ hi.ne, lam, ← bordered_sub_smul]
  exact bordered_congr (fun a ha => row_setRow_of_ne b _ (by omega)) _ _

include hjk hk in
lemma lattice_setRow : lattice (setRow b k (row b k - q • row b j)) = lattice b := by
  set b' := setRow b k (row b k - q • row b j) with hb'
  have hrow : row b' k = row b k - q • row b j := row_setRow_self b hk _
  have hrest : ∀ i, i ≠ k → row b' i = row b i := fun i hi => row_setRow_of_ne b _ hi
  refine le_antisymm (lattice_le fun i _ => ?_) (lattice_le fun i _ => ?_)
  · by_cases hi : i = k
    · rw [hi, hrow]
      exact Submodule.sub_mem _ (row_mem_lattice b k)
        (Submodule.smul_mem _ q (row_mem_lattice b j))
    · rw [hrest i hi]
      exact row_mem_lattice b i
  · by_cases hi : i = k
    · have hback : row b k = row b' k + q • row b' j := by
        rw [hrow, hrest j hjk.ne, sub_add_cancel]
      rw [hi, hback]
      exact Submodule.add_mem _ (row_mem_lattice b' k)
        (Submodule.smul_mem _ q (row_mem_lattice b' j))
    · rw [← hrest i hi]
      exact row_mem_lattice b' i

end Changes

/-- The rounded quotient leaves at most half of the divisor. -/
lemma round_spec (x : ℤ) {y : ℤ} (hy : 0 < y) :
    ∃ q, round x y = .ok q ∧ |2 * (x - q * y)| ≤ y := by
  have hne : y * 2 ≠ 0 := by omega
  have hdiv := Int.mul_tdiv_add_tmod (x * 2 + y) (y * 2)
  have hlt := Int.tmod_lt_of_pos (x * 2 + y) (by omega : 0 < y * 2)
  have hgt := Int.lt_tmod_of_pos (x * 2 + y) (by omega : 0 < y * 2)
  have hround : round x y = .ok (if (x * 2 + y).tmod (y * 2) < 0
      then (x * 2 + y).tdiv (y * 2) - 1 else (x * 2 + y).tdiv (y * 2)) := by
    rw [round, divide, if_neg hne, ok_bind, remainder, if_neg hne, ok_bind, pure_eq_ok]
  refine ⟨_, hround, ?_⟩
  set q := (x * 2 + y).tdiv (y * 2)
  set r := (x * 2 + y).tmod (y * 2)
  split_ifs with hneg
  · have hval : 2 * (x - (q - 1) * y) = r + y := by linear_combination hdiv.symm
    rw [hval, abs_le]
    omega
  · have hval : 2 * (x - q * y) = r - y := by linear_combination hdiv.symm
    rw [hval, abs_le]
    omega

/-- Row `k` of `b` is that of `b₀`, reduced by the rows from `j` on. -/
structure Partly (b₀ : Rows) (k j : ℕ) (b : Rows) : Prop where
  rest : ∀ i, i ≠ k → row b i = row b₀ i
  det : ∀ i, d b i = d b₀ i
  lattice : lattice b = lattice b₀
  small : ∀ i, j ≤ i → i < k → |2 * lam b k i| ≤ d b (i + 1)

lemma gsUpTo_d (b : Rows) {i : ℕ} (hi : i ≤ 4) : (gsUpTo b 4 0).d i = d b i := if_pos hi

lemma gsUpTo_lam (b : Rows) {k i : ℕ} (hk : k < 4) (hi : i < k) :
    (gsUpTo b 4 0).lam k i = lam b k i := if_pos ⟨hi, Or.inl hk⟩

/-- **One row taken off another.** -/
theorem reduceAt_spec {b₀ b : Rows} {k j : ℕ} (hk : k < 4) (hj : j < k) (h₀ : d b₀ 4 ≠ 0)
    (h : Partly b₀ k (j + 1) b) :
    ∃ b', (∀ div, Exact div → reduceAt div k b j = .ok b') ∧ Partly b₀ k j b' := by
  have hne : d b 4 ≠ 0 := by rwa [h.det]
  have hpos : 0 < d b (j + 1) := d_pos hne (by omega)
  have hgram : ∀ div, Exact div → gram div b = .ok (gsUpTo b 4 0) := fun div hdiv =>
    gram_eq hdiv fun i hi => (d_pos hne hi.le).ne'
  by_cases hbig : (d b (j + 1)).natAbs < (lam b k j * 2).natAbs
  · obtain ⟨q, hq, hsmall⟩ := round_spec (lam b k j) hpos
    refine ⟨setRow b k (row b k - q • row b j), fun div hdiv => ?_, fun i hi => ?_, fun i => ?_, ?_,
      fun i hji hik => ?_⟩
    · rw [reduceAt, hgram div hdiv, ok_bind, gsUpTo_d b (by omega), gsUpTo_lam b hk hj, if_pos hbig,
        hq, ok_bind, pure_eq_ok]
    · rw [row_setRow_of_ne b _ hi, h.rest i hi]
    · rw [d_setRow hj hk, h.det]
    · rw [lattice_setRow hj hk, h.lattice]
    · rw [lam_setRow hk q hik, d_setRow hj hk]
      rcases Nat.lt_or_ge j i with hlt | hge
      · -- what is reduced already stays
        rw [bordered_of_lt (row b) hlt, mul_zero, sub_zero]
        exact h.small i hlt hik
      · obtain rfl : i = j := by omega
        rw [bordered_self]
        exact hsmall
  · refine ⟨b, fun div hdiv => ?_, h.rest, h.det, h.lattice, fun i hji hik => ?_⟩
    · rw [reduceAt, hgram div hdiv, ok_bind, gsUpTo_d b (by omega), gsUpTo_lam b hk hj, if_neg hbig,
        pure_eq_ok]
    · rcases Nat.lt_or_ge j i with hlt | hge
      · exact h.small i hlt hik
      · obtain rfl : i = j := by omega
        rw [abs_le]
        omega

/-- A loop downwards, the same for every `x`. -/
lemma foldlM_reverse_range {ι σ : Type} {P : ι → Prop} {f : ι → σ → ℕ → Outcome σ}
    {Inv : ℕ → σ → Prop} {n : ℕ} {s : σ} (h : Inv n s)
    (hstep : ∀ i < n, ∀ s, Inv (i + 1) s → ∃ s', (∀ x, P x → f x s i = .ok s') ∧ Inv i s') :
    ∃ s', (∀ x, P x → (List.range n).reverse.foldlM (f x) s = .ok s') ∧ Inv 0 s' := by
  induction n generalizing s with
  | zero => exact ⟨s, fun _ _ => rfl, h⟩
  | succ n ih =>
      obtain ⟨s₁, hs₁, hinv₁⟩ := hstep n (Nat.lt_succ_self n) s h
      obtain ⟨s₂, hs₂, hinv₂⟩ := ih hinv₁ fun i hi => hstep i (by omega)
      refine ⟨s₂, fun x hx => ?_, hinv₂⟩
      rw [List.range_succ, List.reverse_append, List.reverse_singleton, List.singleton_append,
        List.foldlM_cons, hs₁ x hx, ok_bind, hs₂ x hx]

/-! ### Swaps -/

section Swap

variable {b : Rows} {m : ℕ} (hm : m + 1 < 4)
include hm

lemma row_swap_left : row (swap b (m + 1) m) m = row b (m + 1) := by
  have hlt : m < 4 := by omega
  rw [row, dif_pos hlt]
  show (if m = m + 1 then _ else if m = m then _ else _) = _
  rw [if_neg (by omega), if_pos rfl]

lemma row_swap_right : row (swap b (m + 1) m) (m + 1) = row b m := by
  rw [row, dif_pos hm]
  exact if_pos rfl

omit hm in
lemma row_swap_of_ne {i : ℕ} (h : i ≠ m) (h' : i ≠ m + 1) :
    row (swap b (m + 1) m) i = row b i := by
  rw [row, row]
  split_ifs
  · show (if i = m + 1 then _ else if i = m then _ else _) = _
    rw [if_neg h', if_neg h]
  · rfl

lemma d_swap_of_ne {i : ℕ} (hi : i ≠ m + 1) : d (swap b (m + 1) m) i = d b i :=
  gramDet_of_swap (row_swap_left hm) (row_swap_right hm) (fun _ h h' => row_swap_of_ne h h') hi

/-- **The determinant that changes.** -/
lemma d_swap (hb : d b 4 ≠ 0) : d b (m + 1) * d (swap b (m + 1) m) (m + 1)
    = d b m * d b (m + 2) + lam b (m + 1) m ^ 2 := by
  have hswap : d (swap b (m + 1) m) (m + 1)
      = bordered (row b) m (row b (m + 1)) (row b (m + 1)) := by
    rw [d, ← bordered_self, row_swap_left hm]
    exact bordered_congr (fun a ha => row_swap_of_ne (by omega) (by omega)) _ _
  have hne : gramDet (row b) m ≠ 0 := (d_pos hb (by omega)).ne'
  have hsyl := sylvester hne (row b (m + 1)) (row b (m + 1))
  rw [bordered_self, bordered_comm (row b) m (row b m)] at hsyl
  rw [hswap, d, d, d, lam]
  linear_combination -hsyl

lemma lattice_swap : lattice (swap b (m + 1) m) = lattice b := by
  have hlt : m < 4 := by omega
  refine le_antisymm (lattice_le fun i hi => ?_) (lattice_le fun i hi => ?_)
  · by_cases h : i = m
    · rw [h, row_swap_left hm]
      exact row_mem_lattice b _
    · by_cases h' : i = m + 1
      · rw [h', row_swap_right hm]
        exact row_mem_lattice b _
      · rw [row_swap_of_ne h h']
        exact row_mem_lattice b _
  · by_cases h : i = m
    · rw [h, ← row_swap_right hm]
      exact row_mem_lattice _ _
    · by_cases h' : i = m + 1
      · rw [h', ← row_swap_left hm]
        exact row_mem_lattice _ _
      · rw [← row_swap_of_ne h h']
        exact row_mem_lattice _ _

end Swap

/-! ### One round -/

/-- The rows before row `k` are reduced. -/
structure ReducedTo (b : Rows) (k : ℕ) : Prop where
  size : ∀ l < k, ∀ i < l, |2 * lam b l i| ≤ d b (i + 1)
  lovasz : ∀ l, l + 1 < k →
    99 * d b (l + 1) ^ 2 - 100 * lam b (l + 1) l ^ 2 ≤ 100 * (d b (l + 2) * d b l)

/-- The product of the determinants that a swap can change. -/
def potential (b : Rows) : ℤ := d b 1 * d b 2 * d b 3

lemma potential_pos {b : Rows} (hb : d b 4 ≠ 0) : 0 < potential b :=
  mul_pos (mul_pos (d_pos hb (by omega)) (d_pos hb (by omega))) (d_pos hb (by omega))

lemma potential_congr {b b' : Rows} (h : ∀ i, d b' i = d b i) : potential b' = potential b := by
  rw [potential, potential, h, h, h]

/-- A smaller determinant makes a smaller product. -/
lemma potential_lt {b b' : Rows} (hb : d b 4 ≠ 0) {m : ℕ} (hm : m + 1 < 4)
    (hrest : ∀ i, i ≠ m + 1 → d b' i = d b i) (hlt : d b' (m + 1) < d b (m + 1)) :
    potential b' < potential b := by
  have h1 : 0 < d b 1 := d_pos hb (by omega)
  have h2 : 0 < d b 2 := d_pos hb (by omega)
  have h3 : 0 < d b 3 := d_pos hb (by omega)
  rw [potential, potential]
  obtain rfl | rfl | rfl : m = 0 ∨ m = 1 ∨ m = 2 := by omega
  · rw [hrest 2 (by omega), hrest 3 (by omega)]
    exact mul_lt_mul_of_pos_right (mul_lt_mul_of_pos_right hlt h2) h3
  · rw [hrest 1 (by omega), hrest 3 (by omega)]
    exact mul_lt_mul_of_pos_right (mul_lt_mul_of_pos_left hlt h1) h3
  · rw [hrest 1 (by omega), hrest 2 (by omega)]
    exact mul_lt_mul_of_pos_left hlt (mul_pos h1 h2)

/-- Rows that agree up to a place are reduced alike. -/
lemma ReducedTo.congr {b b' : Rows} {k k' : ℕ} (h : ReducedTo b k) (hk : k' ≤ k)
    (hrow : ∀ a < k', row b' a = row b a) : ReducedTo b' k' := by
  have hd : ∀ i ≤ k', d b' i = d b i := fun i hi => gramDet_congr fun a ha => hrow a (by omega)
  have hlam : ∀ l < k', ∀ i ≤ l, lam b' l i = lam b l i := fun l hl i hi =>
    lam_congr (fun a ha => hrow a (by omega)) hi
  refine ⟨fun l hl i hi => ?_, fun l hl => ?_⟩
  · rw [hlam l hl i hi.le, hd (i + 1) (by omega)]
    exact h.size l (by omega) i hi
  · rw [hd (l + 1) (by omega), hlam (l + 1) hl l (by omega), hd (l + 2) (by omega),
      hd l (by omega)]
    exact h.lovasz l (by omega)

/-- **One round** keeps the lattice and what is reduced; it goes on by one row, or the product of
the determinants gets smaller. -/
theorem step_spec {b : Rows} {m : ℕ} (hm : m + 1 < 4) (hb : d b 4 ≠ 0)
    (hred : ReducedTo b (m + 1)) : ∃ b' k', (∀ div, Exact div → step div b (m + 1) = .ok (b', k')) ∧
      d b' 4 ≠ 0 ∧ lattice b' = lattice b ∧ ReducedTo b' k' ∧
      (k' = m + 2 ∧ potential b' = potential b ∨
        k' = max m 1 ∧ potential b' < potential b) := by
  have hstart : Partly b (m + 1) (m + 1) b :=
    ⟨fun _ _ => rfl, fun _ => rfl, rfl, fun i hi hi' => absurd hi' (by omega)⟩
  obtain ⟨b₁, hb₁, h₁⟩ := foldlM_reverse_range (P := Exact) (f := fun div => reduceAt div (m + 1))
    hstart fun j hj s hs => reduceAt_spec hm hj hb hs
  have hne : d b₁ 4 ≠ 0 := by rwa [h₁.det]
  have hgram : ∀ div, Exact div → gram div b₁ = .ok (gsUpTo b₁ 4 0) := fun div hdiv =>
    gram_eq hdiv fun i hi => (d_pos hne hi.le).ne'
  have hred₁ : ReducedTo b₁ (m + 1) := hred.congr le_rfl fun a ha => h₁.rest a (by omega)
  by_cases hswap : d b₁ (m + 2) * d b₁ m * 100
      < d b₁ (m + 1) * d b₁ (m + 1) * 99 - lam b₁ (m + 1) m * lam b₁ (m + 1) m * 100
  · refine ⟨swap b₁ (m + 1) m, max m 1, fun div hdiv => ?_, ?_, ?_, ?_, Or.inr ⟨rfl, ?_⟩⟩
    · rw [step, hb₁ div hdiv, ok_bind, hgram div hdiv, ok_bind]
      dsimp only
      rw [Nat.add_sub_cancel, gsUpTo_d b₁ (by omega), gsUpTo_d b₁ (by omega),
        gsUpTo_d b₁ (by omega), gsUpTo_lam b₁ hm (by omega), if_pos hswap, pure_eq_ok]
    · rwa [d_swap_of_ne hm (by omega)]
    · rw [lattice_swap hm, h₁.lattice]
    · rcases Nat.eq_zero_or_pos m with rfl | hpos
      · exact ⟨fun l hl i hi => by omega, fun l hl => by omega⟩
      · rw [max_eq_left hpos]
        exact hred₁.congr (by omega) fun a ha => row_swap_of_ne (by omega) (by omega)
    · -- the condition says that the new determinant is less than 99 hundredths of the old one
      have hpos : 0 < d b₁ (m + 1) := d_pos hne (by omega)
      have hchange := d_swap hm hne
      have hlt : d (swap b₁ (m + 1) m) (m + 1) < d b₁ (m + 1) := by
        have hmul : d b₁ (m + 1) * (100 * d (swap b₁ (m + 1) m) (m + 1))
            < d b₁ (m + 1) * (99 * d b₁ (m + 1)) := by
          calc d b₁ (m + 1) * (100 * d (swap b₁ (m + 1) m) (m + 1))
              = d b₁ (m + 2) * d b₁ m * 100 + lam b₁ (m + 1) m * lam b₁ (m + 1) m * 100 := by
                linear_combination 100 * hchange
            _ < d b₁ (m + 1) * (99 * d b₁ (m + 1)) := by linarith only [hswap]
        have hcancel := lt_of_mul_lt_mul_left hmul hpos.le
        omega
      calc potential (swap b₁ (m + 1) m) < potential b₁ :=
            potential_lt hne hm (fun i hi => d_swap_of_ne hm hi) hlt
        _ = potential b := potential_congr h₁.det
  · refine ⟨b₁, m + 2, fun div hdiv => ?_, hne, h₁.lattice, ⟨fun l hl i hi => ?_, fun l hl => ?_⟩,
      Or.inl ⟨rfl, potential_congr h₁.det⟩⟩
    · rw [step, hb₁ div hdiv, ok_bind, hgram div hdiv, ok_bind]
      dsimp only
      rw [Nat.add_sub_cancel, gsUpTo_d b₁ (by omega), gsUpTo_d b₁ (by omega),
        gsUpTo_d b₁ (by omega), gsUpTo_lam b₁ hm (by omega), if_neg hswap, pure_eq_ok]
    · rcases Nat.lt_succ_iff_lt_or_eq.mp hl with hlt | rfl
      · exact hred₁.size l hlt i hi
      · exact h₁.small i (Nat.zero_le i) hi
    · rcases Nat.lt_succ_iff_lt_or_eq.mp hl with hlt | heq
      · exact hred₁.lovasz l hlt
      · obtain rfl : l = m := by omega
        linarith only [not_lt.mp hswap]

/-! ### The run -/

/-- **The loop ends**, the same for every exact division. -/
theorem loop_spec (N : ℕ) {b : Rows} {k : ℕ} (hk : 1 ≤ k) (hk' : k ≤ 4) (hb : d b 4 ≠ 0)
    (hred : ReducedTo b k) (hN : 2 * (potential b).toNat + (4 - k) < N) :
    ∃ b', (∀ div n, Exact div → N ≤ n → loop div n b k = .ok b') ∧ d b' 4 ≠ 0 ∧
      lattice b' = lattice b ∧ ReducedTo b' 4 := by
  induction N generalizing b k with
  | zero => exact absurd hN (Nat.not_lt_zero _)
  | succ N ih =>
      rcases Nat.lt_or_eq_of_le hk' with hlt | rfl
      · obtain ⟨m, rfl⟩ : ∃ m, k = m + 1 := ⟨k - 1, by omega⟩
        obtain ⟨b₁, k₁, hstep, hb₁, hlattice, hred₁, hless⟩ := step_spec hlt hb hred
        have hpos := potential_pos hb
        have hpos₁ := potential_pos hb₁
        obtain ⟨b', hloop, hb', hlattice', hred'⟩ := ih (by omega) (by omega) hb₁ hred₁ (by omega)
        refine ⟨b', fun div n hdiv hn => ?_, hb', hlattice'.trans hlattice, hred'⟩
        obtain ⟨n, rfl⟩ : ∃ l, n = l + 1 := ⟨n - 1, by omega⟩
        rw [loop, if_pos hlt, hstep div hdiv, ok_bind]
        exact hloop div n hdiv (by omega)
      · refine ⟨b, fun div n hdiv hn => ?_, hb, rfl, hred⟩
        obtain ⟨n, rfl⟩ : ∃ l, n = l + 1 := ⟨n - 1, by omega⟩
        rw [loop, if_neg (lt_irrefl 4)]

/-- The last determinant is a square. -/
lemma d_four (b : Rows) : d b 4 = (Matrix.of b).det * (Matrix.of b).det := by
  have hmul : pairing 4 (row b) (row b) = Matrix.of b * (Matrix.of b).transpose := by
    ext i j
    show row b i ⬝ᵥ row b j = _
    rw [row_val, row_val]
    rfl
  rw [d, gramDet, minor, hmul, Matrix.det_mul, Matrix.det_transpose]

/-- Independent rows are those with a determinant. -/
lemma linearIndependent_iff {b : Rows} : LinearIndependent ℤ b ↔ d b 4 ≠ 0 := by
  rw [d_four, Ne, mul_self_eq_zero]
  constructor
  · intro hb hzero
    obtain ⟨v, hv, hvb⟩ := Matrix.exists_vecMul_eq_zero_iff.mpr hzero
    rw [Matrix.vecMul_eq_sum] at hvb
    exact hv (funext (Fintype.linearIndependent_iff.mp hb v hvb))
  · exact fun hb => Matrix.linearIndependent_rows_of_det_ne_zero hb

/-- **Lattice reduction terminates and reduces.** On independent rows the loop ends without a
division by zero, and so it does, with the same result, when every division has to be exact. The rows that it
leaves are a basis of the same lattice. The coefficients that `gram` computes for them are the Gram
determinants, which are positive, and their bordered forms; the rows are size-reduced and satisfy
the condition of Lovász with 0.99. -/
theorem lll_reduces (b : Rows) (hb : LinearIndependent ℤ b) :
    ∃ N b' g, (∀ n, N ≤ n → lll divide n b = .ok b' ∧ lll divideExact n b = .ok b') ∧
      LinearIndependent ℤ b' ∧ lattice b' = lattice b ∧
      gram divide b' = .ok g ∧ gram divideExact b' = .ok g ∧
      (∀ i ≤ 4, g.d i = gramDet (row b') i ∧ 0 < g.d i) ∧
      (∀ k < 4, ∀ j < k, g.lam k j = bordered (row b') j (row b' k) (row b' j)) ∧
      (∀ k < 4, ∀ j < k, |2 * g.lam k j| ≤ g.d (j + 1)) ∧
      ∀ k, 1 ≤ k → k < 4 →
        99 * g.d k ^ 2 - 100 * g.lam k (k - 1) ^ 2 ≤ 100 * (g.d (k + 1) * g.d (k - 1)) := by
  have hne := linearIndependent_iff.mp hb
  have hstart : ReducedTo b 1 := ⟨fun l hl i hi => by omega, fun l hl => by omega⟩
  obtain ⟨b', hloop, hb', hlattice, hred⟩ := loop_spec (2 * (potential b).toNat + 4) le_rfl
    (by omega) hne hstart (by omega)
  have hgram : ∀ div, Exact div → gram div b' = .ok (gsUpTo b' 4 0) := fun div hdiv =>
    gram_eq hdiv fun i hi => (d_pos hb' hi.le).ne'
  refine ⟨_, b', gsUpTo b' 4 0, fun n hn => ⟨hloop _ n exact_divide hn,
    hloop _ n exact_divideExact hn⟩, linearIndependent_iff.mpr hb', hlattice,
    hgram _ exact_divide, hgram _ exact_divideExact, fun i hi => ?_, fun k hk j hj => ?_,
    fun k hk j hj => ?_, fun k hk hk' => ?_⟩
  · rw [gsUpTo_d b' hi]
    exact ⟨rfl, d_pos hb' hi⟩
  · rw [gsUpTo_lam b' hk hj, lam]
  · rw [gsUpTo_lam b' hk hj, gsUpTo_d b' (by omega)]
    exact hred.size k hk j hj
  · obtain ⟨m, rfl⟩ : ∃ m, k = m + 1 := ⟨k - 1, by omega⟩
    rw [Nat.add_sub_cancel, gsUpTo_lam b' hk' (by omega), gsUpTo_d b' (by omega),
      gsUpTo_d b' (by omega), gsUpTo_d b' (by omega)]
    exact hred.lovasz m hk'

/-- The rows for `u = 2`, `λ = 3` modulo `7`. -/
def rowsOfSeven : Rows := ![![7, 0, 0, 0], ![-3, 1, 0, 0], ![2, 0, 1, 0], ![6, 0, 0, 1]]

/-- They are reduced. -/
theorem lll_reduces_seven : ∃ N b', (∀ n, N ≤ n → lll divide n rowsOfSeven = .ok b') ∧
    lattice b' = lattice rowsOfSeven := by
  have hdet : (Matrix.of rowsOfSeven).det ≠ 0 := by decide
  have hind : LinearIndependent ℤ rowsOfSeven :=
    Matrix.linearIndependent_rows_of_det_ne_zero hdet
  obtain ⟨N, b', -, hrun, -, hlattice, -⟩ := lll_reduces rowsOfSeven hind
  exact ⟨N, b', fun n hn => (hrun n hn).1, hlattice⟩

end Lll

end XarkCircuit
