import Mathlib.Data.Finset.Card
import Mathlib.Data.Finset.Range
import Mathlib.Data.List.GetD
import XarkCircuit.Lib.Codec

/-!
Memories addressed by natural numbers.

* `write m a n f` replaces the `n` cells from `a` on; `write_append` splits a write into two, and
  `comp_write` maps it cell by cell.
* `byteAt x k` is byte `k` of `x`, and `fromBytesLe` takes the bytes back together.
* `granule w p g` counts the cells with `p` in the `g`-th of the blocks of `w` cells.
-/

namespace ByteMemory

open Codec

variable {β γ : Type*}

/-! ### Writing -/

/-- The `n` cells from `a` on become `f 0`, `f 1`, and so on. -/
def write (m : ℕ → β) (a n : ℕ) (f : ℕ → β) : ℕ → β := fun x =>
  if a ≤ x ∧ x < a + n then f (x - a) else m x

@[simp] lemma write_zero (m : ℕ → β) (a : ℕ) (f : ℕ → β) : write m a 0 f = m :=
  funext fun _ => if_neg (by omega)

lemma write_one (m : ℕ → β) (a : ℕ) (f : ℕ → β) :
    write m a 1 f = Function.update m a (f 0) := by
  funext x
  by_cases hx : x = a
  · simp [write, hx]
  · rw [write, if_neg (by omega), Function.update_of_ne hx]

/-- One write after the other. -/
lemma write_append (m : ℕ → β) (a n k : ℕ) (f : ℕ → β) :
    write m a (n + k) f = write (write m a n f) (a + n) k fun i => f (n + i) := by
  funext x
  by_cases hlo : a ≤ x ∧ x < a + n
  · simp only [write]
    rw [if_pos (by omega), if_neg (by omega), if_pos hlo]
  · simp only [write]
    by_cases hhi : a + n ≤ x ∧ x < a + n + k
    · rw [if_pos (by omega), if_pos hhi]
      congr 1
      omega
    · rw [if_neg (by omega), if_neg hhi, if_neg hlo]

lemma write_succ (m : ℕ → β) (a n : ℕ) (f : ℕ → β) :
    write m a (n + 1) f = Function.update (write m a n f) (a + n) (f n) := by
  rw [write_append, write_one]
  rfl

/-- Only the cells written matter. -/
lemma write_congr {m : ℕ → β} {a n : ℕ} {f g : ℕ → β} (h : ∀ i < n, f i = g i) :
    write m a n f = write m a n g := by
  funext x
  rw [write, write]
  split_ifs with hx
  · exact h _ (by omega)
  · rfl

lemma comp_write (e : β → γ) (m : ℕ → β) (a n : ℕ) (f : ℕ → β) :
    e ∘ write m a n f = write (e ∘ m) a n (e ∘ f) := by
  funext x
  simp only [Function.comp_apply, write]
  split_ifs <;> rfl

/-! ### Bytes of a value -/

/-- Byte `k` of `x`. -/
def byteAt (x k : ℕ) : UInt8 := UInt8.ofNat (x / 256 ^ k)

lemma byteAt_eq_zero {x k : ℕ} (h : x < 256 ^ k) : byteAt x k = 0 := by
  rw [byteAt, Nat.div_eq_of_lt h]
  rfl

lemma byteAt_fromBytesLe (bs : List UInt8) (k : ℕ) : byteAt (fromBytesLe bs) k = bs.getD k 0 := by
  induction bs generalizing k with
  | nil => simp [byteAt]
  | cons b bs ih =>
      rw [fromBytesLe_cons]
      cases k with
      | zero =>
          rw [byteAt, Nat.pow_zero, Nat.div_one, ← UInt8.toNat_inj, UInt8.toNat_ofNat']
          have hb := b.toNat_lt
          simp only [List.getD_cons_zero]
          omega
      | succ k =>
          have hdiv : (b.toNat + 256 * fromBytesLe bs) / 256 ^ (k + 1)
              = fromBytesLe bs / 256 ^ k := by
            rw [Nat.pow_succ', ← Nat.div_div_eq_div_mul]
            have hb := b.toNat_lt
            congr 1
            omega
          rw [byteAt, hdiv, List.getD_cons_succ]
          exact ih k

/-- The bytes of a number that fits are the number. -/
lemma fromBytesLe_byteAt (x n : ℕ) :
    fromBytesLe ((List.range n).map (byteAt x)) = x % 256 ^ n := by
  induction n with
  | zero => simp [Nat.mod_one]
  | succ n ih =>
      rw [List.range_succ, List.map_append, fromBytesLe_append, ih, List.map_singleton,
        fromBytesLe_cons, fromBytesLe_nil, List.length_map, List.length_range, Nat.pow_succ,
        Nat.mod_mul, Nat.mul_zero, Nat.add_zero, byteAt, UInt8.toNat_ofNat']

/-- The number at `a`, of `n` bytes. -/
def read (m : ℕ → UInt8) (a n : ℕ) : ℕ := fromBytesLe ((List.range n).map fun i => m (a + i))

lemma byteAt_read (m : ℕ → UInt8) (a : ℕ) {n i : ℕ} (hi : i < n) :
    byteAt (read m a n) i = m (a + i) := by
  rw [read, byteAt_fromBytesLe, List.getD_eq_getElem _ _ (by simpa using hi)]
  simp

/-! ### Blocks -/

/-- How many cells of block `g` have `p`. -/
def granule (w : ℕ) (p : ℕ → Bool) (g : ℕ) : ℕ :=
  ((Finset.range w).filter fun i => p (w * g + i)).card

variable {w : ℕ} {p : ℕ → Bool}

lemma granule_eq_zero {g : ℕ} :
    granule w p g = 0 ↔ ∀ i < w, p (w * g + i) = false := by
  simp [granule, Finset.filter_eq_empty_iff]

/-- Another block than the one of a cell does not see the cell. -/
lemma granule_update_of_ne {a g : ℕ} (b : Bool) (hg : a / w ≠ g) :
    granule w (Function.update p a b) g = granule w p g := by
  rw [granule, granule]
  congr 1
  refine Finset.filter_congr fun i hi => ?_
  have hi' := Finset.mem_range.mp hi
  have hne : w * g + i ≠ a := by
    rintro rfl
    exact hg (by rw [Nat.mul_add_div (by omega), Nat.div_eq_of_lt hi', Nat.add_zero])
  rw [Function.update_of_ne hne]

private lemma update_in_block (a : ℕ) (b : Bool) (i : ℕ) :
    Function.update p a b (w * (a / w) + i) = if i = a % w then b else p (w * (a / w) + i) := by
  have hdiv := Nat.div_add_mod a w
  by_cases hia : i = a % w
  · rw [if_pos hia, hia, hdiv, Function.update_self]
  · rw [if_neg hia, Function.update_of_ne (by omega)]

/-- A cell that gets `p` counts once more. -/
lemma granule_insert {a : ℕ} (hw : 0 < w) (ha : p a = false) :
    granule w (Function.update p a true) (a / w) = granule w p (a / w) + 1 := by
  have hmod := Nat.mod_lt a hw
  have hdiv := Nat.div_add_mod a w
  have hfilter : (Finset.range w).filter (fun i => Function.update p a true (w * (a / w) + i))
      = insert (a % w) ((Finset.range w).filter fun i => p (w * (a / w) + i)) := by
    ext i
    by_cases hi : i < w
    · rw [Finset.mem_filter, update_in_block]
      simp only [Finset.mem_insert, Finset.mem_filter, Finset.mem_range, hi, true_and]
      split_ifs with hia <;> simp [hia]
    · have hia : i ≠ a % w := by omega
      simp [hi, hia]
  rw [granule, hfilter, Finset.card_insert_of_notMem, granule]
  simp [hdiv, ha]

/-- A cell that loses `p` counts once less. -/
lemma granule_erase {a : ℕ} (hw : 0 < w) (ha : p a = true) :
    granule w (Function.update p a false) (a / w) + 1 = granule w p (a / w) := by
  have hself : Function.update (Function.update p a false) a true = p := by
    rw [Function.update_idem, ← ha, Function.update_eq_self]
  have h := granule_insert (p := Function.update p a false) hw (Function.update_self a false p)
  rwa [hself, eq_comm] at h

lemma granule_pos {a : ℕ} (hw : 0 < w) (ha : p a = true) : granule w p (a / w) ≠ 0 := by
  have h := granule_erase hw ha
  omega

end ByteMemory
