import Mathlib.Algebra.Field.ZMod
import XarkCircuit.Lib.Bits
import XarkCircuit.Lib.Succeeds
import XarkCircuit.Schema.Coded

/-!
Checks of choices and sets of variants (`types.rs`).

* `toBitsN` decomposes a field element into bits that a prover supplies; `toBitsN_eq_some` says what it
  proves.
* `requireIn`, `requireSingle`, `requireOneOf` and `requireSubsetOf` are the checks of `Choice` and
  `Bitfield`. They return if and only if their constraints hold, for the bits supplied.
* `variant_checks`: which values have bits that satisfy them.
-/

namespace XarkCircuit

namespace Lang

open Input (Fr Variants val_natCast)
open Bits

/-! ### Constraints -/

/-- A circuit function: its result, if its constraints hold. -/
abbrev Checked (α : Type) := Option α

/-- `require_eq`. -/
def requireEq (a b : Fr) : Checked Unit := if a = b then some () else none

/-- `Field::require_bool`: `self² == self`. -/
def requireBool (self : Fr) : Checked Unit := requireEq (self * self) self

/-- One bit of a decomposition: the sum so far, and the power of two. -/
def addBit (hint : ℕ → Fr) (s : Fr × Fr) (i : ℕ) : Checked (Fr × Fr) := do
  requireBool (hint i)
  some (s.1 + hint i * s.2, s.2 + s.2)

/-- `Field::to_bits_n`, with the bits that the prover supplies: each is boolean, and together they are
the element. -/
def toBitsN (hint : ℕ → Fr) (self : Fr) (n : ℕ) : Checked (ℕ → Fr) :=
  if 253 < n then none
  else do
    let (acc, _) ← (List.range n).foldlM (addBit hint) (0, 1)
    requireEq acc self
    some fun i => if i < n then hint i else 0

/-! ### Choices and sets -/

/-- `Bitfield::bits`. -/
def bits (v : Variants) (hint : ℕ → Fr) (self : Fr) : Checked (ℕ → Fr) :=
  toBitsN hint self v.names.length

/-- The width of a choice: `2ʷ` is the least power of two at or above the variant count. -/
def choiceWidth (n : ℕ) : ℕ := if n ≤ 1 then 0 else (n - 1).log2 + 1

/-- `Choice::require_in`. -/
def requireIn (v : Variants) (setHint choiceHint : ℕ → Fr) (self allowed : Fr) : Checked Unit := do
  let n := v.names.length
  let a ← bits v setHint allowed
  let w := choiceWidth n
  let _ ← toBitsN choiceHint self w
  let k : Fr := ((2 ^ w : ℕ) : Fr)
  let product := (List.range n).foldl
    (fun product i => product * (self - ((i : ℕ) : Fr) + (1 - a i) * k)) (1 : Fr)
  requireEq product 0

/-- `Bitfield::require_single`. -/
def requireSingle (v : Variants) (hint : ℕ → Fr) (self : Fr) : Checked Unit := do
  let b ← bits v hint self
  let n := (List.range v.names.length).foldl (fun n i => n + b i) (0 : Fr)
  requireEq n 1

/-- `Bitfield::require_one_of`. -/
def requireOneOf (v : Variants) (hint allowedHint : ℕ → Fr) (self allowed : Fr) : Checked Unit := do
  let c ← bits v hint self
  let a ← bits v allowedHint allowed
  let (hot, hit) := (List.range v.names.length).foldl
    (fun s i => (s.1 + c i, s.2 + c i * a i)) ((0, 0) : Fr × Fr)
  requireEq hot 1
  requireEq hit 1

/-- `Bitfield::require_subset_of`. -/
def requireSubsetOf (v : Variants) (hint otherHint : ℕ → Fr) (self other : Fr) : Checked Unit := do
  let a ← bits v hint self
  let b ← bits v otherHint other
  (List.range v.names.length).forM fun i => requireEq (a i * b i) (a i)

/-! ### What bits prove -/

lemma requireEq_eq_some {a b : Fr} {u : Unit} : requireEq a b = some u ↔ a = b := by
  rw [requireEq]
  split_ifs with h
  · simp [h]
  · simp [h]

lemma requireBool_eq_some {a : Fr} {u : Unit} : requireBool a = some u ↔ a = 0 ∨ a = 1 := by
  rw [requireBool, requireEq_eq_some]
  constructor
  · intro h
    have hmul : a * (a - 1) = 0 := by rw [mul_sub, mul_one, h, sub_self]
    exact (mul_eq_zero.mp hmul).imp_right sub_eq_zero.mp
  · rintro (rfl | rfl)
    · rw [mul_zero]
    · rw [mul_one]

lemma addBit_eq_some {hint : ℕ → Fr} {s s' : Fr × Fr} {i : ℕ} : addBit hint s i = some s' ↔
    (hint i = 0 ∨ hint i = 1) ∧ s' = (s.1 + hint i * s.2, s.2 + s.2) := by
  simp only [addBit, Option.bind_eq_bind, Option.bind_eq_some_iff, requireBool_eq_some,
    Option.some_inj]
  constructor
  · rintro ⟨_, hbool, rfl⟩
    exact ⟨hbool, rfl⟩
  · rintro ⟨hbool, rfl⟩
    exact ⟨(), hbool, rfl⟩

/-- The loop of a decomposition: the bits are boolean, and add up. -/
lemma toBits_fold {hint : ℕ → Fr} {n : ℕ} {s : Fr × Fr} :
    (List.range n).foldlM (addBit hint) (0, 1) = some s ↔
    (∀ i < n, hint i = 0 ∨ hint i = 1) ∧
      s = (∑ i ∈ Finset.range n, hint i * 2 ^ i, 2 ^ n) := by
  induction n generalizing s with
  | zero => simp [eq_comm]
  | succ n ih =>
      have hstep : (List.range (n + 1)).foldlM (addBit hint) (0, 1) = some s ↔
          ∃ s', (List.range n).foldlM (addBit hint) (0, 1) = some s' ∧ addBit hint s' n = some s := by
        rw [List.range_succ, List.foldlM_append]
        simp [Option.bind_eq_some_iff]
      have htwo : (2 : Fr) ^ n + 2 ^ n = 2 ^ (n + 1) := by ring
      rw [hstep, Finset.sum_range_succ]
      constructor
      · rintro ⟨s', hs', hs⟩
        obtain ⟨hbools, rfl⟩ := ih.mp hs'
        obtain ⟨hbool, rfl⟩ := addBit_eq_some.mp hs
        refine ⟨fun i hi => ?_, by rw [htwo]⟩
        rcases Nat.lt_succ_iff_lt_or_eq.mp hi with hlt | rfl
        · exact hbools i hlt
        · exact hbool
      · rintro ⟨hbools, rfl⟩
        refine ⟨_, ih.mpr ⟨fun i hi => hbools i (Nat.lt_succ_of_lt hi), rfl⟩, ?_⟩
        exact addBit_eq_some.mpr ⟨hbools n (Nat.lt_succ_self n), by rw [htwo]⟩

lemma bitOf_of_lt {x n i : ℕ} (hx : x < 2 ^ n) (hi : n ≤ i) : (Bits.bitOf x i : Fr) = 0 := by
  have hlt : x < 2 ^ i := lt_of_lt_of_le hx (Nat.pow_le_pow_right (by norm_num) hi)
  rw [Bits.bitOf, Nat.testBit_lt_two_pow hlt]
  rfl

/-- **Bits that are supplied** are accepted if and only if the element is below `2ⁿ` and they are its
bits. -/
lemma toBitsN_eq_some {hint : ℕ → Fr} {x : Fr} {n : ℕ} {b : ℕ → Fr} :
    toBitsN hint x n = some b ↔ n ≤ 253 ∧ x.val < 2 ^ n ∧ (∀ i < n, hint i = Bits.bitOf x.val i) ∧
      b = Bits.bitOf x.val := by
  have hiff : toBitsN hint x n = some b ↔ n ≤ 253 ∧ (∀ i < n, hint i = 0 ∨ hint i = 1) ∧
      ∑ i ∈ Finset.range n, hint i * 2 ^ i = x ∧ b = fun i => if i < n then hint i else 0 := by
    rw [toBitsN]
    split_ifs with h
    · simp [Nat.not_le_of_lt h]
    · simp only [Option.bind_eq_bind, Option.bind_eq_some_iff, toBits_fold, requireEq_eq_some,
        Option.some_inj]
      constructor
      · rintro ⟨_, ⟨hbools, rfl⟩, _, hsum, rfl⟩
        exact ⟨Nat.le_of_not_lt h, hbools, hsum, rfl⟩
      · rintro ⟨-, hbools, hsum, rfl⟩
        exact ⟨_, ⟨hbools, rfl⟩, (), hsum, rfl⟩
  rw [hiff]
  constructor
  · rintro ⟨hn, hbools, hsum, rfl⟩
    rw [sum_mul_two_pow hbools] at hsum
    have hval : x.val = number hint n := by
      rw [← hsum, val_natCast (number_lt hint n) hn]
    have hlt : x.val < 2 ^ n := hval ▸ number_lt hint n
    have hbits : ∀ i < n, hint i = Bits.bitOf x.val i := by
      intro i hi
      rw [Bits.bitOf, hval, testBit_number hint hi]
      rcases hbools i hi with h0 | h1
      · simp [h0]
      · simp [h1]
    refine ⟨hn, hlt, hbits, funext fun i => ?_⟩
    split_ifs with hi
    · exact hbits i hi
    · exact (bitOf_of_lt hlt (Nat.le_of_not_lt hi)).symm
  · rintro ⟨hn, hlt, hbits, rfl⟩
    refine ⟨hn, fun i hi => by rw [hbits i hi]; exact bitOf_eq_zero_or_one _ _, ?_, funext fun i => ?_⟩
    · calc ∑ i ∈ Finset.range n, hint i * 2 ^ i
          = ∑ i ∈ Finset.range n, Bits.bitOf x.val i * 2 ^ i :=
            Finset.sum_congr rfl fun i hi => by rw [hbits i (Finset.mem_range.mp hi)]
        _ = ((number (fun i => (Bits.bitOf x.val i : Fr)) n : ℕ) : Fr) :=
            sum_mul_two_pow fun i _ => bitOf_eq_zero_or_one _ _
        _ = x := by rw [number_bitOf hlt, ZMod.natCast_zmod_val]
    · split_ifs with hi
      · exact (hbits i hi).symm
      · exact bitOf_of_lt hlt (Nat.le_of_not_lt hi)

/-! ### Loops -/

lemma foldl_mul (f : ℕ → Fr) (n : ℕ) :
    (List.range n).foldl (fun x i => x * f i) 1 = ∏ i ∈ Finset.range n, f i := by
  induction n with
  | zero => rfl
  | succ n ih =>
      rw [List.range_succ, List.foldl_append, ih, Finset.prod_range_succ]
      rfl

lemma foldl_add (f : ℕ → Fr) (n : ℕ) :
    (List.range n).foldl (fun x i => x + f i) 0 = ∑ i ∈ Finset.range n, f i := by
  induction n with
  | zero => rfl
  | succ n ih =>
      rw [List.range_succ, List.foldl_append, ih, Finset.sum_range_succ]
      rfl

lemma foldl_add_pair (f g : ℕ → Fr) (n : ℕ) :
    (List.range n).foldl (fun s i => (s.1 + f i, s.2 + g i)) ((0, 0) : Fr × Fr)
      = (∑ i ∈ Finset.range n, f i, ∑ i ∈ Finset.range n, g i) := by
  induction n with
  | zero => rfl
  | succ n ih =>
      rw [List.range_succ, List.foldl_append, ih, Finset.sum_range_succ, Finset.sum_range_succ]
      rfl

lemma forM_eq_some {f : ℕ → Checked Unit} {l : List ℕ} {u : Unit} :
    l.forM f = some u ↔ ∀ i ∈ l, f i = some () := by
  induction l with
  | nil => simp
  | cons i l ih =>
      change (f i).bind (fun _ => l.forM f) = some u ↔ _
      rw [Option.bind_eq_some_iff, List.forall_mem_cons]
      constructor
      · rintro ⟨_, hi, hl⟩
        exact ⟨hi, ih.mp hl⟩
      · rintro ⟨hi, hl⟩
        exact ⟨(), hi, ih.mpr hl⟩

/-! ### Choices -/

lemma le_two_pow_choiceWidth (n : ℕ) : n ≤ 2 ^ choiceWidth n := by
  rw [choiceWidth]
  split_ifs with h
  · simpa using h
  · have hlt := @Nat.lt_log2_self (n - 1)
    omega

lemma choiceWidth_le {n : ℕ} (h : n ≤ 253) : choiceWidth n ≤ 8 := by
  rw [choiceWidth]
  split_ifs with h1
  · omega
  · have hlog : (n - 1).log2 < 8 := (Nat.log2_lt (by omega)).mpr (by norm_num; omega)
    omega

/-- Small numbers are equal in the field only if they are equal. -/
lemma natCast_inj {m k : ℕ} (hm : m < 2 ^ 253) (hk : k < 2 ^ 253) :
    ((m : ℕ) : Fr) = ((k : ℕ) : Fr) ↔ m = k := by
  constructor
  · intro heq
    have hval := congrArg ZMod.val heq
    rwa [val_natCast hm le_rfl, val_natCast hk le_rfl] at hval
  · rintro rfl
    rfl

/-- The factor of variant `i` vanishes exactly where the choice is variant `i`, and it is allowed. -/
lemma factor_eq_zero_iff {c : Fr} {s n i : ℕ} (hn : n ≤ 253) (hi : i < n)
    (hc : c.val < 2 ^ choiceWidth n) :
    c - ((i : ℕ) : Fr) + (1 - Bits.bitOf s i) * ((2 ^ choiceWidth n : ℕ) : Fr) = 0 ↔
      c = ((i : ℕ) : Fr) ∧ s.testBit i := by
  rw [Bits.bitOf]
  split_ifs with hbit
  · rw [sub_self, zero_mul, add_zero, sub_eq_zero]
    simp [hbit]
  · -- a variant that is not allowed has a factor between `2ʷ - n` and `2ʷ⁺¹`
    have hle := le_two_pow_choiceWidth n
    have hw := choiceWidth_le hn
    have hpow : 2 ^ choiceWidth n ≤ 2 ^ 8 := Nat.pow_le_pow_right (by norm_num) hw
    have hsum : c - ((i : ℕ) : Fr) + (1 - 0) * ((2 ^ choiceWidth n : ℕ) : Fr)
        = ((c.val + (2 ^ choiceWidth n - i) : ℕ) : Fr) := by
      rw [Nat.cast_add, ZMod.natCast_zmod_val, Nat.cast_sub (by omega)]
      ring
    rw [hsum, ← Nat.cast_zero, natCast_inj (by omega) (by norm_num)]
    constructor
    · intro h
      omega
    · rintro ⟨-, h⟩
      exact absurd h hbit

/-- **A choice** passes if and only if it is a variant that the set has. -/
theorem requireIn_iff (v : Variants) (hn : v.names.length ≤ 253) (c s : Fr) :
    (∃ setHint choiceHint, requireIn v setHint choiceHint c s = some ()) ↔
      s.val < 2 ^ v.names.length ∧
        ∃ i < v.names.length, c = ((i : ℕ) : Fr) ∧ s.val.testBit i := by
  have hiff : ∀ hs hc, requireIn v hs hc c s = some () ↔ ∃ a, bits v hs s = some a ∧
      ∃ b, toBitsN hc c (choiceWidth v.names.length) = some b ∧
        ∏ i ∈ Finset.range v.names.length, (c - ((i : ℕ) : Fr)
          + (1 - a i) * ((2 ^ choiceWidth v.names.length : ℕ) : Fr)) = 0 := by
    intro hs hc
    simp only [requireIn, Option.bind_eq_bind, Option.bind_eq_some_iff, foldl_mul, requireEq_eq_some]
  have hwidth : choiceWidth v.names.length ≤ 253 := (choiceWidth_le hn).trans (by norm_num)
  simp only [hiff, bits, toBitsN_eq_some, Finset.prod_eq_zero_iff, Finset.mem_range]
  constructor
  · rintro ⟨hs, hc, a, ⟨-, hslt, -, rfl⟩, b, ⟨-, hclt, -, -⟩, i, hi, hzero⟩
    exact ⟨hslt, i, hi, (factor_eq_zero_iff hn hi hclt).mp hzero⟩
  · rintro ⟨hslt, i, hi, rfl, hbit⟩
    have hval : ((i : ℕ) : Fr).val = i := by
      have hi8 : i < 2 ^ 8 := by omega
      exact val_natCast hi8 (by norm_num)
    have hclt : ((i : ℕ) : Fr).val < 2 ^ choiceWidth v.names.length := by
      rw [hval]
      exact hi.trans_le (le_two_pow_choiceWidth _)
    exact ⟨Bits.bitOf s.val, Bits.bitOf ((i : ℕ) : Fr).val, _, ⟨hn, hslt, fun _ _ => rfl, rfl⟩, _,
      ⟨hwidth, hclt, fun _ _ => rfl, rfl⟩, i, hi, (factor_eq_zero_iff hn hi hclt).mpr ⟨rfl, hbit⟩⟩

/-! ### Sets -/

/-- One bit of `x` is set, bit `i`. -/
def OneBit (x i : ℕ) : Prop := ∀ j, x.testBit j ↔ j = i

lemma lt_of_testBit {x n i : ℕ} (hx : x < 2 ^ n) (h : x.testBit i) : i < n := by
  by_contra hle
  have hlt : x < 2 ^ i := lt_of_lt_of_le hx (Nat.pow_le_pow_right (by norm_num) (by omega))
  rw [Nat.testBit_lt_two_pow hlt] at h
  cases h

lemma mem_setBits_of_lt {x n i : ℕ} (hx : x < 2 ^ n) : i ∈ setBits x n ↔ x.testBit i :=
  mem_setBits.trans ⟨fun h => h.2, fun h => ⟨lt_of_testBit hx h, h⟩⟩

/-- The bits of a set add up to one exactly where one is set. -/
lemma sum_eq_one_iff {x n : ℕ} (hn : n ≤ 253) (hx : x < 2 ^ n) :
    ∑ i ∈ Finset.range n, (Bits.bitOf x i : Fr) = 1 ↔ ∃ i, OneBit x i := by
  have hcard := card_setBits_le x n
  rw [sum_bitOf, ← Nat.cast_one, natCast_inj (by omega) (by norm_num), Finset.card_eq_one]
  refine exists_congr fun i => ?_
  rw [Finset.ext_iff]
  exact forall_congr' fun j => by rw [mem_setBits_of_lt hx, Finset.mem_singleton]

/-- **A single variant** passes if and only if the set has one bit, below the number of variants. -/
theorem requireSingle_iff (v : Variants) (hn : v.names.length ≤ 253) (s : Fr) :
    (∃ hint, requireSingle v hint s = some ()) ↔
      s.val < 2 ^ v.names.length ∧ ∃ i, OneBit s.val i := by
  have hiff : ∀ h, requireSingle v h s = some () ↔ ∃ b, bits v h s = some b ∧
      ∑ i ∈ Finset.range v.names.length, b i = 1 := by
    intro h
    simp only [requireSingle, Option.bind_eq_bind, Option.bind_eq_some_iff, foldl_add,
      requireEq_eq_some]
  simp only [hiff, bits, toBitsN_eq_some]
  constructor
  · rintro ⟨h, b, ⟨-, hlt, -, rfl⟩, hsum⟩
    exact ⟨hlt, (sum_eq_one_iff hn hlt).mp hsum⟩
  · rintro ⟨hlt, hone⟩
    exact ⟨Bits.bitOf s.val, _, ⟨hn, hlt, fun _ _ => rfl, rfl⟩, (sum_eq_one_iff hn hlt).mpr hone⟩

/-- Where one bit of `x` is set, the bits set in `x` and `y` add up to one exactly where it is set
in `y`. -/
lemma sum_mul_eq_one_iff {x y n i : ℕ} (hn : n ≤ 253) (hx : x < 2 ^ n) (hone : OneBit x i) :
    ∑ j ∈ Finset.range n, (Bits.bitOf x j * Bits.bitOf y j : Fr) = 1 ↔ y.testBit i := by
  have hmem : ∀ j, j ∈ setBits (x &&& y) n ↔ j = i ∧ y.testBit i := by
    intro j
    rw [mem_setBits, Nat.testBit_and, Bool.and_eq_true, hone j]
    constructor
    · rintro ⟨-, rfl, hy⟩
      exact ⟨rfl, hy⟩
    · rintro ⟨rfl, hy⟩
      exact ⟨lt_of_testBit hx ((hone j).mpr rfl), rfl, hy⟩
  have hcard := card_setBits_le (x &&& y) n
  rw [sum_bitOf_mul, ← Nat.cast_one, natCast_inj (by omega) (by norm_num), Finset.card_eq_one]
  constructor
  · rintro ⟨k, hk⟩
    exact ((hmem k).mp (by rw [hk]; exact Finset.mem_singleton_self k)).2
  · intro hy
    refine ⟨i, Finset.ext fun j => ?_⟩
    rw [hmem, Finset.mem_singleton]
    exact and_iff_left hy

/-- **One of a set** passes if and only if one variant is set, and the other set has it. -/
theorem requireOneOf_iff (v : Variants) (hn : v.names.length ≤ 253) (s t : Fr) :
    (∃ hint allowedHint, requireOneOf v hint allowedHint s t = some ()) ↔
      s.val < 2 ^ v.names.length ∧ t.val < 2 ^ v.names.length ∧
        ∃ i, OneBit s.val i ∧ t.val.testBit i := by
  have hiff : ∀ hs ht, requireOneOf v hs ht s t = some () ↔ ∃ c, bits v hs s = some c ∧
      ∃ a, bits v ht t = some a ∧ ∑ i ∈ Finset.range v.names.length, c i = 1 ∧
        ∑ i ∈ Finset.range v.names.length, c i * a i = 1 := by
    intro hs ht
    simp only [requireOneOf, Option.bind_eq_bind, Option.bind_eq_some_iff, foldl_add_pair,
      requireEq_eq_some, exists_const]
  simp only [hiff, bits, toBitsN_eq_some]
  constructor
  · rintro ⟨hs, ht, c, ⟨-, hslt, -, rfl⟩, a, ⟨-, htlt, -, rfl⟩, hot, hit⟩
    obtain ⟨i, hone⟩ := (sum_eq_one_iff hn hslt).mp hot
    exact ⟨hslt, htlt, i, hone, (sum_mul_eq_one_iff hn hslt hone).mp hit⟩
  · rintro ⟨hslt, htlt, i, hone, hbit⟩
    exact ⟨Bits.bitOf s.val, Bits.bitOf t.val, _, ⟨hn, hslt, fun _ _ => rfl, rfl⟩, _,
      ⟨hn, htlt, fun _ _ => rfl, rfl⟩, (sum_eq_one_iff hn hslt).mpr ⟨i, hone⟩,
      (sum_mul_eq_one_iff hn hslt hone).mpr hbit⟩

/-- **A subset** passes if and only if every bit of it is set in the other set. -/
theorem requireSubsetOf_iff (v : Variants) (hn : v.names.length ≤ 253) (s t : Fr) :
    (∃ hint otherHint, requireSubsetOf v hint otherHint s t = some ()) ↔
      s.val < 2 ^ v.names.length ∧ t.val < 2 ^ v.names.length ∧
        ∀ i, s.val.testBit i → t.val.testBit i := by
  have hiff : ∀ hs ht, requireSubsetOf v hs ht s t = some () ↔ ∃ a, bits v hs s = some a ∧
      ∃ b, bits v ht t = some b ∧ ∀ i < v.names.length, a i * b i = a i := by
    intro hs ht
    simp only [requireSubsetOf, Option.bind_eq_bind, Option.bind_eq_some_iff, forM_eq_some,
      requireEq_eq_some, List.mem_range]
  have hbit : ∀ x y i : ℕ, (Bits.bitOf x i * Bits.bitOf y i : Fr) = Bits.bitOf x i ↔
      (x.testBit i → y.testBit i) := by
    intro x y i
    simp only [Bits.bitOf]
    cases x.testBit i <;> cases y.testBit i <;> simp
  simp only [hiff, bits, toBitsN_eq_some]
  constructor
  · rintro ⟨hs, ht, a, ⟨-, hslt, -, rfl⟩, b, ⟨-, htlt, -, rfl⟩, hall⟩
    exact ⟨hslt, htlt, fun i hi => (hbit _ _ i).mp (hall i (lt_of_testBit hslt hi)) hi⟩
  · rintro ⟨hslt, htlt, hsub⟩
    exact ⟨Bits.bitOf s.val, Bits.bitOf t.val, _, ⟨hn, hslt, fun _ _ => rfl, rfl⟩, _,
      ⟨hn, htlt, fun _ _ => rfl, rfl⟩, fun i _ => (hbit _ _ i).mpr (hsub i)⟩

/-- **Checks of choices and sets** mean what they say, for enums of up to 253 variants. -/
theorem variant_checks (v : Variants) (hn : v.names.length ≤ 253) (c s t : Fr) :
    ((∃ setHint choiceHint, requireIn v setHint choiceHint c s = some ()) ↔
      s.val < 2 ^ v.names.length ∧
        ∃ i < v.names.length, c = ((i : ℕ) : Fr) ∧ s.val.testBit i) ∧
    ((∃ hint allowedHint, requireOneOf v hint allowedHint s t = some ()) ↔
      s.val < 2 ^ v.names.length ∧ t.val < 2 ^ v.names.length ∧
        ∃ i, OneBit s.val i ∧ t.val.testBit i) ∧
    ((∃ hint, requireSingle v hint s = some ()) ↔
      s.val < 2 ^ v.names.length ∧ ∃ i, OneBit s.val i) ∧
    ((∃ hint otherHint, requireSubsetOf v hint otherHint s t = some ()) ↔
      s.val < 2 ^ v.names.length ∧ t.val < 2 ^ v.names.length ∧
        ∀ i, s.val.testBit i → t.val.testBit i) :=
  ⟨requireIn_iff v hn c s, requireOneOf_iff v hn s t, requireSingle_iff v hn s,
    requireSubsetOf_iff v hn s t⟩

/-- Three variants: a choice of the third in the set of the first and the third, of which the set of
the third is a subset. -/
theorem variant_checks_three : let v : Variants := ⟨"Kind", ["A", "B", "C"]⟩
    (∃ hs hc, requireIn v hs hc 2 5 = some ()) ∧ (∃ hs ht, requireOneOf v hs ht 4 5 = some ()) ∧
    (∃ h, requireSingle v h 4 = some ()) ∧ ∃ hs ht, requireSubsetOf v hs ht 4 5 = some () := by
  intro v
  have h4 : (4 : Fr).val = 4 := val_natCast (n := 4) (b := 3) (by norm_num) (by norm_num)
  have h5 : (5 : Fr).val = 5 := val_natCast (n := 5) (b := 3) (by norm_num) (by norm_num)
  obtain ⟨hin, -, -, -⟩ := variant_checks v (by decide) 2 5 0
  obtain ⟨-, hone, hsingle, hsubset⟩ := variant_checks v (by decide) 0 4 5
  have hbit : OneBit 4 2 := fun j => by
    rw [show 4 = 2 ^ 2 from rfl, Nat.testBit_two_pow, decide_eq_true_iff, eq_comm]
  refine ⟨hin.mpr ⟨?_, 2, by decide, rfl, ?_⟩, hone.mpr ⟨?_, ?_, 2, ?_, ?_⟩, hsingle.mpr ⟨?_, 2, ?_⟩,
    hsubset.mpr ⟨?_, ?_, fun i hi => ?_⟩⟩
  · rw [h5]; decide
  · rw [h5]; decide
  · rw [h4]; decide
  · rw [h5]; decide
  · rw [h4]; exact hbit
  · rw [h5]; decide
  · rw [h4]; decide
  · rw [h4]; exact hbit
  · rw [h4]; decide
  · rw [h5]; decide
  · rw [h4] at hi
    rw [h5, (hbit i).mp hi]
    decide

/-- A single bit past the variants is refused, and so is a set that has it, of itself. -/
theorem variant_checks_past : let v : Variants := ⟨"Kind", ["A", "B", "C"]⟩
    OneBit (8 : Fr).val 3 ∧ (¬∃ h, requireSingle v h 8 = some ()) ∧
      ¬∃ hs ht, requireSubsetOf v hs ht 8 8 = some () := by
  intro v
  have h8 : (8 : Fr).val = 8 := val_natCast (n := 8) (b := 4) (by norm_num) (by norm_num)
  refine ⟨fun j => ?_, ?_, ?_⟩
  · rw [h8, show 8 = 2 ^ 3 from rfl, Nat.testBit_two_pow, decide_eq_true_iff, eq_comm]
  · rw [requireSingle_iff v (by decide), h8]
    exact fun h => absurd h.1 (by decide)
  · rw [requireSubsetOf_iff v (by decide), h8]
    exact fun h => absurd h.1 (by decide)

end Lang

end XarkCircuit
