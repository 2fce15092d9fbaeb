import XarkCircuit.Lib.Instances
import Mathlib.Data.List.DropRight

/-!
Texts as lists of characters: decimal numbers, and cutting a text at a separator.

* `natOf` reads decimal digits, and `padded w n` writes at least `w` of them; `natOf_padded`.
* `splitFirst p l` and `splitLast p l` cut `l` at the first and the last element in `p`: the first is
  `l` without it (`splitFirst_append_cons`, `splitFirst_none`), the last keeps it with what follows
  (`splitLast_append_cons`).
* `trimmed p l` takes the elements in `p` off both ends.
-/

namespace Text

/-! ### Decimal numbers -/

/-- The number that decimal digits stand for, if there are only digits, at least one. -/
def natOf (t : List Char) : Option ℕ :=
  if t ≠ [] ∧ t.all Char.isDigit = true then some (Nat.ofDigitChars 10 t 0) else none

/-- The decimal digits of `n`, after enough zeros to have `w` digits. -/
def padded (w n : ℕ) : List Char :=
  List.replicate (w - (Nat.toDigits 10 n).length) '0' ++ Nat.toDigits 10 n

lemma isDigit_of_natOf {t : List Char} {n : ℕ} (h : natOf t = some n) : ∀ c ∈ t, c.isDigit := by
  rw [natOf] at h
  split_ifs at h with hd
  exact fun c hc => List.all_eq_true.mp hd.2 c hc

lemma ne_nil_of_natOf {t : List Char} {n : ℕ} (h : natOf t = some n) : t ≠ [] := by
  rw [natOf] at h
  split_ifs at h with hd
  exact hd.1

lemma isDigit_of_mem_padded {w n : ℕ} : ∀ c ∈ padded w n, c.isDigit := by
  intro c hc
  rcases List.mem_append.mp hc with h | h
  · rw [List.eq_of_mem_replicate h]
    decide
  · exact Nat.isDigit_of_mem_toDigits (by decide) (by decide) h

lemma natOf_padded (w n : ℕ) : natOf (padded w n) = some n := by
  have hne : padded w n ≠ [] := List.append_ne_nil_of_right_ne_nil _ Nat.toDigits_ne_nil
  have hdigits : (padded w n).all Char.isDigit = true := List.all_eq_true.mpr isDigit_of_mem_padded
  rw [natOf, if_pos ⟨hne, hdigits⟩, padded, Nat.ofDigitChars_append, Nat.ofDigitChars_replicate_zero,
    Nat.mul_zero, Nat.ofDigitChars_ten_toDigits]

lemma length_padded {w n : ℕ} (hw : 0 < w) (h : n < 10 ^ w) : (padded w n).length = w := by
  have hle : (Nat.toDigits 10 n).length ≤ w := (Nat.length_toDigits_le_iff (by decide) hw).mpr h
  rw [padded, List.length_append, List.length_replicate]
  omega

/-! ### Cutting -/

variable {α : Type} (p : α → Bool)

/-- What stands before the first element in `p`, and what after it. -/
def splitFirst (l : List α) : Option (List α × List α) :=
  match l.dropWhile (fun a => !p a) with
  | [] => none
  | _ :: rest => some (l.takeWhile (fun a => !p a), rest)

/-- What stands before the last element in `p`, and what from it on. -/
def splitLast (l : List α) : Option (List α × List α) :=
  match l.reverse.dropWhile (fun a => !p a) with
  | [] => none
  | a :: rest => some (rest.reverse, a :: (l.reverse.takeWhile (fun a => !p a)).reverse)

/-- `l` without the elements in `p` at both ends. -/
def trimmed (l : List α) : List α := (l.dropWhile p).rdropWhile p

variable {p}

lemma splitFirst_append_cons {l rest : List α} {a : α} (hl : ∀ b ∈ l, p b = false)
    (ha : p a = true) : splitFirst p (l ++ a :: rest) = some (l, rest) := by
  have hall : ∀ b ∈ l, (!p b) = true := fun b hb => by rw [hl b hb]; rfl
  rw [splitFirst, List.dropWhile_append_of_pos hall, List.takeWhile_append_of_pos hall]
  simp [ha]

lemma splitFirst_none {l : List α} (h : ∀ a ∈ l, p a = false) : splitFirst p l = none := by
  have hnil : l.dropWhile (fun a => !p a) = [] :=
    List.dropWhile_eq_nil_iff.mpr fun a ha => by rw [h a ha]; rfl
  rw [splitFirst, hnil]

/-- A list has no element in `p`, or it is cut at the first one. -/
lemma exists_first (p : α → Bool) (l : List α) : (∀ a ∈ l, p a = false) ∨
    ∃ l₁ a l₂, l = l₁ ++ a :: l₂ ∧ p a = true ∧ ∀ b ∈ l₁, p b = false := by
  induction l with
  | nil => exact .inl fun a h => absurd h List.not_mem_nil
  | cons b l ih =>
      cases hb : p b with
      | true => exact .inr ⟨[], b, l, rfl, hb, fun c h => absurd h List.not_mem_nil⟩
      | false =>
          rcases ih with h | ⟨l₁, a, l₂, rfl, ha, h₁⟩
          · exact .inl (List.forall_mem_cons.mpr ⟨hb, h⟩)
          · exact .inr ⟨b :: l₁, a, l₂, rfl, ha, List.forall_mem_cons.mpr ⟨hb, h₁⟩⟩

lemma splitLast_append_cons {l rest : List α} {a : α} (hrest : ∀ b ∈ rest, p b = false)
    (ha : p a = true) : splitLast p (l ++ a :: rest) = some (l, a :: rest) := by
  have hall : ∀ b ∈ rest.reverse, (!p b) = true := fun b hb => by
    rw [hrest b (List.mem_reverse.mp hb)]
    rfl
  rw [splitLast, List.reverse_append, List.reverse_cons, List.append_assoc,
    List.dropWhile_append_of_pos hall, List.takeWhile_append_of_pos hall]
  simp [ha]

/-- Nothing is taken off an end that is not in `p`. -/
lemma trimmed_append {l rest : List α} {a b : α} (ha : p a = false) (hb : p b = false)
    (h : ∃ m, rest = a :: m ∧ ∃ m', rest = m' ++ [b]) :
    trimmed p (l ++ rest) = l.dropWhile p ++ rest := by
  obtain ⟨m, hm, m', hm'⟩ := h
  have hdrop : (l ++ rest).dropWhile p = l.dropWhile p ++ rest := by
    induction l with
    | nil =>
        rw [hm]
        simp [ha]
    | cons c l ih =>
        rw [List.cons_append, List.dropWhile_cons, List.dropWhile_cons, ih]
        split_ifs <;> rfl
  rw [trimmed, hdrop, hm', ← List.append_assoc, List.rdropWhile_concat_neg _ _ _ (by simp [hb])]

end Text
