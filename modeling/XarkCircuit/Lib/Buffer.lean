import XarkCircuit.Lib.Instances
import Mathlib.Algebra.GroupWithZero.Basic
import Mathlib.Data.Nat.Bitwise
import Mathlib.Data.List.Basic
import Mathlib.Logic.Function.Basic
import Mathlib.Tactic.Ring

/-!
Loops over buffers, as functions on places.

* A buffer is a function; what stands past its length doesn't matter.
* `write` sets the places of a list (`write_eq`), `permute` swaps places in pairs
  (`permute_eq`), `scaleBy` multiplies by a geometric progression (`scaleBy_eq`), and `chunks`
  works on chunks of one length (`chunks_apply`).
* `rev k` reverses `k` bits.
-/

namespace Buffer

variable {α β : Type*}

/-! ### Writes -/

/-- Set places one after another. -/
def write (a : ℕ → α) (es : List (ℕ × α)) : ℕ → α :=
  es.foldl (fun a e => Function.update a e.1 e.2) a

/-- Writes that agree, in any order. -/
lemma write_eq {v : ℕ → α} {es : List (ℕ × α)} (h : ∀ e ∈ es, e.2 = v e.1) (a : ℕ → α) (p : ℕ) :
    write a es p = if p ∈ es.map Prod.fst then v p else a p := by
  induction es generalizing a with
  | nil => simp [write]
  | cons e es ih =>
      have htail := ih (fun e' he' => h e' (List.mem_cons_of_mem _ he')) (Function.update a e.1 e.2)
      rw [write, List.foldl_cons]
      refine htail.trans ?_
      rw [List.map_cons]
      by_cases hp : p ∈ es.map Prod.fst
      · rw [if_pos hp, if_pos (List.mem_cons_of_mem _ hp)]
      · rw [if_neg hp]
        by_cases hpe : p = e.1
        · subst hpe
          rw [Function.update_self, if_pos List.mem_cons_self, h e List.mem_cons_self]
        · rw [Function.update_of_ne hpe, if_neg (by simp [hpe, hp])]

section Grid

variable {n b : ℕ} {q : ℕ → ℕ → ℕ} {val : ℕ → ℕ → α} {v : ℕ → α}

/-- The places of a grid. -/
lemma write_grid (h : ∀ r < n, ∀ j < b, val r j = v (q r j)) (a : ℕ → α) {r j : ℕ} (hr : r < n)
    (hj : j < b) :
    write a ((List.range n).flatMap fun r => (List.range b).map fun j => (q r j, val r j))
      (q r j) = val r j := by
  rw [write_eq (v := v), if_pos, h r hr j hj]
  · rw [List.map_flatMap, List.mem_flatMap]
    refine ⟨r, List.mem_range.mpr hr, ?_⟩
    rw [List.map_map, List.mem_map]
    exact ⟨j, List.mem_range.mpr hj, rfl⟩
  · intro e he
    obtain ⟨r, hr, he⟩ := List.mem_flatMap.mp he
    obtain ⟨j, hj, rfl⟩ := List.mem_map.mp he
    exact h r (List.mem_range.mp hr) j (List.mem_range.mp hj)

/-- The places off a grid. -/
lemma write_grid_of_ne (h : ∀ r < n, ∀ j < b, val r j = v (q r j)) (a : ℕ → α) {p : ℕ}
    (hp : ∀ r < n, ∀ j < b, p ≠ q r j) :
    write a ((List.range n).flatMap fun r => (List.range b).map fun j => (q r j, val r j)) p
      = a p := by
  rw [write_eq (v := v), if_neg]
  · rw [List.map_flatMap, List.mem_flatMap]
    rintro ⟨r, hr, hmem⟩
    rw [List.map_map, List.mem_map] at hmem
    obtain ⟨j, hj, hpos⟩ := hmem
    exact hp r (List.mem_range.mp hr) j (List.mem_range.mp hj) hpos.symm
  · intro e he
    obtain ⟨r, hr, he⟩ := List.mem_flatMap.mp he
    obtain ⟨j, hj, rfl⟩ := List.mem_map.mp he
    exact h r (List.mem_range.mp hr) j (List.mem_range.mp hj)

end Grid

/-- Three runs of places, side by side. -/
lemma write_three (a : ℕ → α) (m : ℕ) (f g h : ℕ → α) {k : ℕ} (hk : k < m) :
    let b := write a ((List.range m).flatMap fun k =>
      [(k, f k), (m + k, g k), (2 * m + k, h k)])
    b k = f k ∧ b (m + k) = g k ∧ b (2 * m + k) = h k := by
  set es := (List.range m).flatMap fun k => [(k, f k), (m + k, g k), (2 * m + k, h k)] with hes
  set v : ℕ → α := fun p => if p < m then f p else if p < 2 * m then g (p - m) else h (p - 2 * m)
    with hv
  have hvf : ∀ k < m, v k = f k := fun k hk => if_pos hk
  have hvg : ∀ k < m, v (m + k) = g k := fun k hk => by
    have h1 : ¬ m + k < m := by omega
    have h2 : m + k < 2 * m := by omega
    simp [hv, h2]
  have hvh : ∀ k < m, v (2 * m + k) = h k := fun k hk => by
    have h1 : ¬ 2 * m + k < m := by omega
    simp [hv, h1]
  have hall : ∀ e ∈ es, e.2 = v e.1 := by
    intro e he
    obtain ⟨k, hk, he⟩ := List.mem_flatMap.mp he
    have hk := List.mem_range.mp hk
    simp only [List.mem_cons, List.not_mem_nil, or_false] at he
    rcases he with rfl | rfl | rfl
    · exact (hvf k hk).symm
    · exact (hvg k hk).symm
    · exact (hvh k hk).symm
  have hmem : ∀ {p : ℕ}, p ∈ [k, m + k, 2 * m + k] → p ∈ es.map Prod.fst := by
    intro p hp
    rw [hes, List.map_flatMap, List.mem_flatMap]
    exact ⟨k, List.mem_range.mpr hk, hp⟩
  refine ⟨?_, ?_, ?_⟩
  · rw [write_eq hall, if_pos (hmem (by simp)), hvf k hk]
  · rw [write_eq hall, if_pos (hmem (by simp)), hvg k hk]
  · rw [write_eq hall, if_pos (hmem (by simp)), hvh k hk]

/-! ### Swaps -/

/-- Exchange two places. -/
def swap (a : ℕ → α) (i j : ℕ) : ℕ → α := Function.update (Function.update a i (a j)) j (a i)

lemma swap_apply (a : ℕ → α) {i j : ℕ} (p : ℕ) :
    swap a i j p = if p = j then a i else if p = i then a j else a p := by
  rw [swap, Function.update_apply, Function.update_apply]

/-- Swap every place below `n` with its partner, once. -/
def permute (ρ : ℕ → ℕ) (n : ℕ) (a : ℕ → α) : ℕ → α :=
  (List.range n).foldl (fun a i => if i < ρ i then swap a i (ρ i) else a) a

/-- **Swapping in pairs** permutes. -/
theorem permute_eq {ρ : ℕ → ℕ} {n : ℕ} (hinv : ∀ i < n, ρ (ρ i) = i) (hlt : ∀ i < n, ρ i < n)
    (a : ℕ → α) {p : ℕ} (hp : p < n) : permute ρ n a p = a (ρ p) := by
  -- after `k` rounds the pairs that begin below `k` are exchanged
  have hround : ∀ k ≤ n, ∀ p < n, permute ρ k a p
      = if min p (ρ p) < k then a (ρ p) else a p := by
    intro k
    induction k with
    | zero => simp [permute]
    | succ k ih =>
        intro hk p hp
        have hk' : k < n := hk
        have hprev := ih (Nat.le_of_lt hk)
        have hstep : permute ρ (k + 1) a p
            = (if k < ρ k then swap (permute ρ k a) k (ρ k) else permute ρ k a) p := by
          rw [permute, List.range_succ, List.foldl_append]
          rfl
        rw [hstep]
        by_cases hlow : k < ρ k
        · rw [if_pos hlow, swap_apply]
          by_cases hpj : p = ρ k
          · subst hpj
            have hk0 : ¬ min k (ρ k) < k := by omega
            rw [if_pos rfl, hprev k hk', if_neg hk0, hinv k hk']
            rw [if_pos (by omega)]
          · rw [if_neg hpj]
            by_cases hpk : p = k
            · subst hpk
              have hj0 : ¬ min (ρ p) (ρ (ρ p)) < p := by rw [hinv p hk']; omega
              rw [if_pos rfl, hprev (ρ p) (hlt p hk'), if_neg hj0, if_pos (by omega)]
            · rw [if_neg hpk, hprev p hp]
              have hne : min p (ρ p) ≠ k := by
                intro hmin
                rcases min_choice p (ρ p) with h | h
                · exact hpk (h.symm.trans hmin)
                · refine hpj ?_
                  rw [← hmin, h, hinv p hp]
              by_cases hlt' : min p (ρ p) < k
              · rw [if_pos hlt', if_pos (by omega)]
              · rw [if_neg hlt', if_neg (by omega)]
        · rw [if_neg hlow, hprev p hp]
          by_cases hlt' : min p (ρ p) < k
          · rw [if_pos hlt', if_pos (by omega)]
          · rw [if_neg hlt']
            by_cases heq : min p (ρ p) = k
            · -- `k` is the larger of its pair, or alone
              rw [if_pos (by omega)]
              have hfix : ρ p = p := by
                rcases min_choice p (ρ p) with h | h
                · have hpk : p = k := h.symm.trans heq
                  subst hpk
                  omega
                · have hρ : ρ p = k := h.symm.trans heq
                  have hpk : ρ k = p := by rw [← hρ, hinv p hp]
                  omega
              rw [hfix]
            · rw [if_neg (by omega)]
  rw [hround n le_rfl p hp, if_pos (lt_of_le_of_lt (Nat.min_le_left _ _) hp)]

/-! ### Progressions -/

/-- Multiply the first places by `cur`, `cur · step`, `cur · step²`, … -/
def scaleBy [Mul α] (len : ℕ) (cur step : α) (a : ℕ → α) : ℕ → α :=
  ((List.range len).foldl (fun (a, cur) i => (Function.update a i (a i * cur), cur * step))
    (a, cur)).1

lemma scaleBy_eq [Monoid α] (len : ℕ) (cur step : α) (a : ℕ → α) (p : ℕ) :
    scaleBy len cur step a p = if p < len then a p * (cur * step ^ p) else a p := by
  have hround : ∀ k, (List.range k).foldl (fun (a, cur) i =>
      (Function.update a i (a i * cur), cur * step)) (a, cur)
        = (fun p => if p < k then a p * (cur * step ^ p) else a p, cur * step ^ k) := by
    intro k
    induction k with
    | zero => simp
    | succ k ih =>
        rw [List.range_succ, List.foldl_append, ih, List.foldl_cons, List.foldl_nil]
        refine Prod.ext (funext fun p => ?_) ?_
        · by_cases hpk : p = k
          · subst hpk
            simp
          · have hiff : p < k + 1 ↔ p < k := by omega
            simp [Function.update_of_ne hpk, hiff]
        · simp [pow_succ, mul_assoc]
  rw [scaleBy, hround]

/-! ### Chunks -/

/-- Work on chunks of `len` places, each with its number. -/
def chunks (len : ℕ) (f : ℕ → (ℕ → α) → ℕ → β) (a : ℕ → α) : ℕ → β := fun p =>
  f (p / len) (fun q => a (p / len * len + q)) (p % len)

lemma chunks_apply {len : ℕ} (f : ℕ → (ℕ → α) → ℕ → β) (a : ℕ → α) (i : ℕ) {q : ℕ} (hq : q < len) :
    chunks len f a (i * len + q) = f i (fun q => a (i * len + q)) q := by
  have hdiv : (i * len + q) / len = i := by
    rw [mul_comm, Nat.mul_add_div (by omega), Nat.div_eq_of_lt hq, add_zero]
  have hmod : (i * len + q) % len = q := by
    rw [mul_comm, Nat.mul_add_mod, Nat.mod_eq_of_lt hq]
  rw [chunks, hdiv, hmod]

/-! ### Bit reversal -/

/-- The lowest `k` bits in reverse. -/
def rev : ℕ → ℕ → ℕ
  | 0, _ => 0
  | k + 1, i => i % 2 * 2 ^ k + rev k (i / 2)

lemma rev_lt (k i : ℕ) : rev k i < 2 ^ k := by
  induction k generalizing i with
  | zero => exact Nat.one_pos
  | succ k ih =>
      have hlow := ih (i / 2)
      have hbit : i % 2 * 2 ^ k ≤ 1 * 2 ^ k := Nat.mul_le_mul_right _ (by omega)
      rw [rev, pow_succ]
      omega

lemma rev_double (k i : ℕ) : rev (k + 1) (2 * i) = rev k i := by
  rw [rev, Nat.mul_mod_right, zero_mul, zero_add, Nat.mul_div_cancel_left i (by norm_num)]

lemma rev_double_add_one (k i : ℕ) : rev (k + 1) (2 * i + 1) = 2 ^ k + rev k i := by
  have hmod : (2 * i + 1) % 2 = 1 := by omega
  have hdiv : (2 * i + 1) / 2 = i := by omega
  rw [rev, hmod, hdiv, one_mul]

lemma testBit_rev (k i j : ℕ) :
    (rev k i).testBit j = (decide (j < k) && i.testBit (k - 1 - j)) := by
  induction k generalizing i j with
  | zero => simp [rev]
  | succ k ih =>
      have hbit : i % 2 * 2 ^ k + rev k (i / 2) = 2 ^ k * (i % 2) + rev k (i / 2) := by
        rw [mul_comm]
      rw [rev, hbit, Nat.testBit_two_pow_mul_add _ (rev_lt k (i / 2)), ih]
      by_cases hj : j < k
      · have hsub : k + 1 - 1 - j = (k - 1 - j) + 1 := by omega
        rw [if_pos hj, hsub, Nat.testBit_succ]
        simp [hj, Nat.lt_succ_of_lt hj]
      · rw [if_neg hj]
        by_cases hjk : j = k
        · subst hjk
          rcases Nat.mod_two_eq_zero_or_one i with h | h <;> simp [h, Nat.testBit_zero]
        · have hbig : ¬ j < k + 1 := by omega
          obtain ⟨d, hd⟩ := Nat.exists_eq_add_of_lt (show k < j by omega)
          have hsub : j - k = d + 1 := by omega
          have hhalf : i % 2 / 2 = 0 := by omega
          simp [hbig, hsub, Nat.testBit_succ, hhalf]

lemma rev_rev {k i : ℕ} (hi : i < 2 ^ k) : rev k (rev k i) = i := by
  refine Nat.eq_of_testBit_eq fun j => ?_
  rw [testBit_rev, testBit_rev]
  by_cases hj : j < k
  · have h1 : k - 1 - j < k := by omega
    have h2 : k - 1 - (k - 1 - j) = j := by omega
    simp [hj, h1, h2]
  · have hhigh : i < 2 ^ j := hi.trans_le (Nat.pow_le_pow_right (by norm_num) (by omega))
    rw [Nat.testBit_lt_two_pow hhigh]
    simp [hj]

/-- The upper `k` bits of a word, reversed. -/
lemma reverse_shiftRight {w k : ℕ} (hk : k ≤ w) (i : ℕ) :
    (BitVec.ofNat w i).reverse.toNat >>> (w - k) = rev k i := by
  refine Nat.eq_of_testBit_eq fun j => ?_
  rw [Nat.testBit_shiftRight, testBit_rev, ← BitVec.getLsbD, BitVec.getLsbD_reverse,
    BitVec.getMsbD, BitVec.getLsbD_ofNat]
  by_cases hj : j < k
  · have h1 : w - k + j < w := by omega
    have h2 : w - 1 - (w - k + j) = k - 1 - j := by omega
    have h3 : k - 1 - j < w := by omega
    simp [h1, h2, h3, hj]
  · have h1 : ¬ w - k + j < w := by omega
    simp [h1, hj]

end Buffer
