import XarkCircuit.Lib.Instances
import Mathlib.Data.Nat.Digits.Defs
import Mathlib.Data.Nat.Digits.Lemmas
import Mathlib.Tactic.Ring
import Mathlib.Tactic.Linarith

/-!
Numbers as lists of digits in base `B`, the lowest first, and the loops that compute with them.

* `mulAdd` multiplies by a small number and adds another, with a carry: `ofDigits_mulAdd`.
* `ge` compares from the highest digit: `ge_iff`.
* `sub` subtracts with a borrow: `ofDigits_sub`.
* `divRem` divides by a small number from the highest digit: `ofDigits_divRem`.
-/

namespace Limbs

open Nat

variable {B m : ℕ}

/-- Every digit is below the base. -/
def Words (B : ℕ) (ls : List ℕ) : Prop := ∀ l ∈ ls, l < B

lemma Words.head {l : ℕ} {ls : List ℕ} (h : Words B (l :: ls)) : l < B := h l List.mem_cons_self

lemma Words.tail {l : ℕ} {ls : List ℕ} (h : Words B (l :: ls)) : Words B ls :=
  fun x hx => h x (List.mem_cons_of_mem _ hx)

lemma Words.cons {l : ℕ} {ls : List ℕ} (hl : l < B) (h : Words B ls) : Words B (l :: ls) :=
  List.forall_mem_cons.mpr ⟨hl, h⟩

lemma ofDigits_lt {ls : List ℕ} (h : Words B ls) : ofDigits B ls < B ^ ls.length := by
  induction ls with
  | nil => simp
  | cons l ls ih =>
      have hl := h.head
      have hls := ih h.tail
      rw [ofDigits_cons, List.length_cons, Nat.pow_succ']
      calc l + B * ofDigits B ls < B + B * ofDigits B ls := by omega
        _ = B * (ofDigits B ls + 1) := by ring
        _ ≤ B * B ^ ls.length := Nat.mul_le_mul_left B hls

/-- A digit of a number. -/
lemma getD_eq_div_mod {ls : List ℕ} (h : Words B ls) (j : ℕ) :
    ls.getD j 0 = ofDigits B ls / B ^ j % B := by
  induction ls generalizing j with
  | nil => simp
  | cons l ls ih =>
      have hl := h.head
      rw [ofDigits_cons]
      cases j with
      | zero => simp [Nat.mod_eq_of_lt hl]
      | succ j =>
          rw [List.getD_cons_succ, ih h.tail, Nat.pow_succ', ← Nat.div_div_eq_div_mul,
            Nat.add_mul_div_left _ _ (by omega), Nat.div_eq_of_lt hl, zero_add]

/-- The number determines its digits. -/
lemma ofDigits_injective {xs ys : List ℕ} (hx : Words B xs) (hy : Words B ys)
    (hlen : xs.length = ys.length) (h : ofDigits B xs = ofDigits B ys) : xs = ys := by
  refine List.ext_getElem hlen fun i hi hi' => ?_
  have hget := getD_eq_div_mod hx i
  rw [h, ← getD_eq_div_mod hy i] at hget
  simpa [List.getD_eq_getElem?_getD, hi, hi'] using hget

/-- A digit that grows. -/
lemma ofDigits_modify_add {ls : List ℕ} {j d : ℕ} {f : ℕ → ℕ} (hj : j < ls.length)
    (hf : f (ls.getD j 0) = ls.getD j 0 + d) :
    ofDigits B (ls.modify j f) = ofDigits B ls + d * B ^ j := by
  induction ls generalizing j with
  | nil => simp at hj
  | cons l ls ih =>
      cases j with
      | zero =>
          rw [List.getD_cons_zero] at hf
          rw [List.modify_zero_cons, ofDigits_cons, ofDigits_cons, hf]
          ring
      | succ j =>
          rw [List.modify_succ_cons, ofDigits_cons, ofDigits_cons,
            ih (Nat.lt_of_succ_lt_succ hj) (by simpa using hf)]
          ring

/-! ### Multiplication by a small number -/

/-- `x · m + carry`, and the carry out. -/
def mulAdd (B m : ℕ) : List ℕ → ℕ → List ℕ × ℕ
  | [], carry => ([], carry)
  | l :: ls, carry =>
      let v := l * m + carry
      let rest := mulAdd B m ls (v / B)
      (v % B :: rest.1, rest.2)

lemma length_mulAdd (ls : List ℕ) (carry : ℕ) :
    (mulAdd B m ls carry).1.length = ls.length := by
  induction ls generalizing carry with
  | nil => rfl
  | cons l ls ih => rw [mulAdd, List.length_cons, ih, List.length_cons]

lemma words_mulAdd (hB : 0 < B) (ls : List ℕ) (carry : ℕ) : Words B (mulAdd B m ls carry).1 := by
  induction ls generalizing carry with
  | nil => exact fun _ h => absurd h List.not_mem_nil
  | cons l ls ih => exact .cons (Nat.mod_lt _ hB) (ih _)

/-- **The product and the carry** are the exact value. -/
lemma ofDigits_mulAdd (ls : List ℕ) (carry : ℕ) :
    ofDigits B (mulAdd B m ls carry).1 + B ^ ls.length * (mulAdd B m ls carry).2
      = ofDigits B ls * m + carry := by
  induction ls generalizing carry with
  | nil => simp [mulAdd]
  | cons l ls ih =>
      simp only [mulAdd, ofDigits_cons, List.length_cons]
      set v := l * m + carry with hv
      have hdiv := Nat.mod_add_div v B
      calc v % B + B * ofDigits B (mulAdd B m ls (v / B)).1
            + B ^ (ls.length + 1) * (mulAdd B m ls (v / B)).2
          = v % B + B * (ofDigits B (mulAdd B m ls (v / B)).1
              + B ^ ls.length * (mulAdd B m ls (v / B)).2) := by ring
        _ = v % B + B * (v / B) + B * (ofDigits B ls * m) := by rw [ih]; ring
        _ = (l + B * ofDigits B ls) * m + carry := by rw [hdiv, hv]; ring

/-- There is no carry exactly when the value fits. -/
lemma mulAdd_carry_iff (hB : 0 < B) (ls : List ℕ) (carry : ℕ) :
    (mulAdd B m ls carry).2 = 0 ↔ ofDigits B ls * m + carry < B ^ ls.length := by
  have heq := ofDigits_mulAdd (B := B) (m := m) ls carry
  have hlt := ofDigits_lt (words_mulAdd (m := m) hB ls carry)
  rw [length_mulAdd] at hlt
  constructor
  · intro h0
    rw [h0, mul_zero, add_zero] at heq
    omega
  · intro hfit
    by_contra hne
    have hle := Nat.le_mul_of_pos_right (B ^ ls.length) (Nat.pos_of_ne_zero hne)
    omega

/-! ### Comparison -/

/-- `x ≥ y` for digits with the highest first: the first difference decides. -/
def geFrom : List ℕ → List ℕ → Bool
  | x :: xs, y :: ys => if x ≠ y then y < x else geFrom xs ys
  | _, _ => true

/-- `x ≥ y`, from the highest digit. -/
def ge (xs ys : List ℕ) : Bool := geFrom xs.reverse ys.reverse

lemma ge_iff {xs ys : List ℕ} (hx : Words B xs) (hy : Words B ys)
    (hlen : xs.length = ys.length) : ge xs ys = true ↔ ofDigits B ys ≤ ofDigits B xs := by
  induction xs using List.reverseRecOn generalizing ys with
  | nil =>
      obtain rfl := List.length_eq_zero_iff.mp hlen.symm
      simp [ge, geFrom]
  | append_singleton xs x ih =>
      obtain ⟨ys, y, rfl⟩ : ∃ ys' y, ys = ys' ++ [y] := by
        have hne : ys ≠ [] := by
          rintro rfl
          simp at hlen
        exact ⟨_, _, (List.dropLast_append_getLast hne).symm⟩
      have hlen' : xs.length = ys.length := by simpa using hlen
      have hx' : Words B xs := fun l hl => hx l (List.mem_append_left _ hl)
      have hy' : Words B ys := fun l hl => hy l (List.mem_append_left _ hl)
      have hxlt := ofDigits_lt hx'
      have hylt := ofDigits_lt hy'
      rw [ge, List.reverse_concat, List.reverse_concat, geFrom, ofDigits_append, ofDigits_append,
        ofDigits_singleton, ofDigits_singleton]
      rw [hlen'] at hxlt ⊢
      rcases lt_trichotomy x y with h | rfl | h
      · -- the highest digit is smaller
        have hmul := Nat.mul_le_mul_left (B ^ ys.length) (Nat.succ_le_of_lt h)
        rw [Nat.mul_succ] at hmul
        rw [if_pos h.ne, decide_eq_true_eq]
        constructor <;> intro h' <;> omega
      · rw [if_neg (not_not.mpr rfl)]
        exact (ih hx' hy' hlen').trans (by omega)
      · have hmul := Nat.mul_le_mul_left (B ^ ys.length) (Nat.succ_le_of_lt h)
        rw [Nat.mul_succ] at hmul
        rw [if_pos h.ne', decide_eq_true_eq]
        constructor <;> intro h' <;> omega

/-! ### Subtraction -/

/-- `x - y` modulo `B`, and whether it wrapped (`overflowing_sub`). -/
def overflowingSub (B x y : ℕ) : ℕ × Bool := ((x + B - y) % B, x < y)

lemma overflowingSub_spec {x y : ℕ} (hx : x < B) (hy : y < B) :
    (overflowingSub B x y).1 < B ∧
      (overflowingSub B x y).1 + y = x + B * (overflowingSub B x y).2.toNat := by
  rw [overflowingSub]
  refine ⟨Nat.mod_lt _ (by omega), ?_⟩
  by_cases h : x < y
  · rw [decide_eq_true h, Bool.toNat_true, Nat.mod_eq_of_lt (by omega)]
    omega
  · have hsub : (x + B - y) % B = x - y := by
      rw [show x + B - y = x - y + B by omega, Nat.add_mod_right, Nat.mod_eq_of_lt (by omega)]
    rw [decide_eq_false h, Bool.toNat_false, hsub]
    omega

/-- `x - y - borrow`, and the borrow out. -/
def sub (B : ℕ) : List ℕ → List ℕ → Bool → List ℕ × Bool
  | x :: xs, y :: ys, borrow =>
      let d := overflowingSub B x y
      let d' := overflowingSub B d.1 borrow.toNat
      let rest := sub B xs ys (d.2 || d'.2)
      (d'.1 :: rest.1, rest.2)
  | _, _, borrow => ([], borrow)

lemma sub_spec (hB : 1 < B) {xs ys : List ℕ} (hx : Words B xs) (hy : Words B ys)
    (hlen : xs.length = ys.length) (borrow : Bool) :
    (sub B xs ys borrow).1.length = xs.length ∧ Words B (sub B xs ys borrow).1 ∧
      ofDigits B (sub B xs ys borrow).1 + ofDigits B ys + borrow.toNat
        = ofDigits B xs + B ^ xs.length * (sub B xs ys borrow).2.toNat := by
  induction xs generalizing ys borrow with
  | nil =>
      obtain rfl := List.length_eq_zero_iff.mp hlen.symm
      exact ⟨rfl, fun _ h => absurd h List.not_mem_nil, by simp [sub]⟩
  | cons x xs ih =>
      obtain ⟨y, ys, rfl⟩ := List.exists_cons_of_length_eq_add_one hlen.symm
      obtain ⟨hd, hdeq⟩ := overflowingSub_spec hx.head hy.head
      have hborrow : borrow.toNat < B := lt_of_le_of_lt (Bool.toNat_le borrow) hB
      obtain ⟨hd', hdeq'⟩ := overflowingSub_spec hd hborrow
      obtain ⟨hlen', hwords, heq⟩ := ih hx.tail hy.tail (by simpa using hlen)
        ((overflowingSub B x y).2 || (overflowingSub B (overflowingSub B x y).1 borrow.toNat).2)
      simp only [sub, ofDigits_cons, List.length_cons]
      refine ⟨by rw [hlen'], .cons hd' hwords, ?_⟩
      set d := overflowingSub B x y
      set d' := overflowingSub B d.1 borrow.toNat
      set rest := sub B xs ys (d.2 || d'.2)
      -- at most one of the two differences wraps
      have hor : (d.2 || d'.2).toNat = d.2.toNat + d'.2.toNat := by
        cases hb : d.2 <;> cases hb' : d'.2 <;> try rfl
        exfalso
        rw [hb, Bool.toNat_true] at hdeq
        rw [hb', Bool.toNat_true] at hdeq'
        have hy' := hy.head
        have hle := Bool.toNat_le borrow
        omega
      rw [hor] at heq
      have hmul := congrArg (B * ·) heq
      simp only [Nat.mul_add] at hmul
      rw [Nat.pow_succ']
      linarith [hmul]

/-- **The difference**, where there is no borrow. -/
lemma ofDigits_sub (hB : 1 < B) {xs ys : List ℕ} (hx : Words B xs) (hy : Words B ys)
    (hlen : xs.length = ys.length) (hle : ofDigits B ys ≤ ofDigits B xs) :
    ofDigits B (sub B xs ys false).1 = ofDigits B xs - ofDigits B ys := by
  obtain ⟨hlen', hwords, heq⟩ := sub_spec hB hx hy hlen false
  have hlt := ofDigits_lt hwords
  have hxlt := ofDigits_lt hx
  rw [hlen'] at hlt
  cases hb : (sub B xs ys false).2
  · rw [hb] at heq
    simp only [Bool.toNat_false, mul_zero, add_zero] at heq
    omega
  · rw [hb] at heq
    simp only [Bool.toNat_false, Bool.toNat_true, mul_one, add_zero] at heq
    omega

/-! ### Division by a small number -/

/-- The quotient by `m` and the remainder, from the highest digit. -/
def divRem (B m : ℕ) : List ℕ → List ℕ × ℕ
  | [] => ([], 0)
  | l :: ls =>
      let rest := divRem B m ls
      let cur := rest.2 * B + l
      (cur / m :: rest.1, cur % m)

lemma length_divRem (ls : List ℕ) : (divRem B m ls).1.length = ls.length := by
  induction ls with
  | nil => rfl
  | cons l ls ih => rw [divRem, List.length_cons, ih, List.length_cons]

lemma divRem_lt (hm : 0 < m) (ls : List ℕ) : (divRem B m ls).2 < m := by
  cases ls with
  | nil => exact hm
  | cons l ls => exact Nat.mod_lt _ hm

lemma words_divRem (hm : 0 < m) {ls : List ℕ} (h : Words B ls) : Words B (divRem B m ls).1 := by
  induction ls with
  | nil => exact fun _ h => absurd h List.not_mem_nil
  | cons l ls ih =>
      refine .cons (Nat.div_lt_of_lt_mul ?_) (ih h.tail)
      have hr := divRem_lt (B := B) hm ls
      have hl := h.head
      calc (divRem B m ls).2 * B + l < (divRem B m ls).2 * B + B := by omega
        _ = ((divRem B m ls).2 + 1) * B := by ring
        _ ≤ m * B := Nat.mul_le_mul_right B hr

/-- **The quotient and the remainder** give the number back. -/
lemma ofDigits_divRem (ls : List ℕ) :
    m * ofDigits B (divRem B m ls).1 + (divRem B m ls).2 = ofDigits B ls := by
  induction ls with
  | nil => simp [divRem]
  | cons l ls ih =>
      simp only [divRem, ofDigits_cons]
      set rest := divRem B m ls
      have hdiv := Nat.div_add_mod (rest.2 * B + l) m
      calc m * ((rest.2 * B + l) / m + B * ofDigits B rest.1) + (rest.2 * B + l) % m
          = m * ((rest.2 * B + l) / m) + (rest.2 * B + l) % m + B * (m * ofDigits B rest.1) := by
            ring
        _ = l + B * (m * ofDigits B rest.1 + rest.2) := by rw [hdiv]; ring
        _ = l + B * ofDigits B ls := by rw [ih]

end Limbs
