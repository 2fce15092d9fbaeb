import XarkCircuit.Groth16.MsmSound

/-!
The classes of the fast sum.

* `pippenger_eq`: the windows and slices of a class sum up, where no slice begins past the end of its
  class or nothing checks that (`Fits`).
* `classify_some` and `sum_classes`: the classes lose no scalar.
-/

namespace XarkCircuit

open Verifier ShortWeierstrass Succeeding

namespace Msm

/-! ### Loops that panic at some indices -/

section Loops

variable {ι α : Type} {bad : ι → Prop} [DecidablePred bad]

lemma mapM_ite (v : ι → α) (l : List ι) :
    l.mapM (fun t => if bad t then (.error .panic : Outcome α) else .ok (v t))
      = if ∃ t ∈ l, bad t then .error .panic else .ok (l.map v) := by
  induction l with
  | nil => simp
  | cons t l ih =>
      rw [List.mapM_cons, ih]
      by_cases ht : bad t
      · simp [ht]
      · by_cases hl : ∃ t ∈ l, bad t <;> simp [ht, hl]

lemma foldlM_ite [AddCommMonoid α] (v : ι → α) (l : List ι) (total : α) :
    l.foldlM (fun total t => if bad t then (.error .panic : Outcome α) else .ok (total + v t)) total
      = if ∃ t ∈ l, bad t then .error .panic else .ok (total + (l.map v).sum) := by
  induction l generalizing total with
  | nil => simp
  | cons t l ih =>
      rw [List.foldlM_cons]
      by_cases ht : bad t
      · simp [ht]
      · simp only [ht, if_false, Outcome.ok_bind, ih]
        by_cases hl : ∃ t ∈ l, bad t <;> simp [ht, hl, add_assoc]

end Loops

/-! ### One class -/

/-- No slice of a class begins past its end, or the lengths of slices aren't computed with checks. -/
def Fits (cfg : Config) (n bits : ℕ) : Prop :=
  n ≠ 0 → cfg.batchAffine = true → cfg.overflowChecks = true →
    ∀ part < parts cfg n bits (cfg.windowBits n bits),
      part * partLen n (parts cfg n bits (cfg.windowBits n bits)) ≤ n

section Class

variable {F : Type} [Field F] [DecidableEq F] {a b : F}
  {ofAffine : Affine F → (curve a b).Point}

lemma weighted_append (s t : List (ℤ × Affine F)) :
    weighted ofAffine (s ++ t) = weighted ofAffine s + weighted ofAffine t := by
  rw [weighted, List.map_append, List.sum_append]
  rfl

/-- The slices of a row are the row. -/
lemma sum_slices (row : List (ℤ × Affine F)) (len p : ℕ) (h : row.length ≤ p * len) :
    ∑ part ∈ Finset.range p,
        weighted ofAffine ((row.take (min row.length (part * len + len))).drop (part * len))
      = weighted ofAffine row := by
  have hfirst : ∀ q, ∑ part ∈ Finset.range q,
      weighted ofAffine ((row.take (min row.length (part * len + len))).drop (part * len))
        = weighted ofAffine (row.take (q * len)) := by
    intro q
    induction q with
    | zero => simp [weighted]
    | succ q ih =>
        have hmin : row.take (min row.length (q * len + len)) = row.take (q * len + len) :=
          List.take_eq_take_iff.mpr (by omega)
        rw [Finset.sum_range_succ, ih, hmin, List.drop_take, ← weighted_append,
          Nat.add_sub_cancel_left, Nat.succ_mul, List.take_add]
  rw [hfirst, List.take_of_length_le h]

lemma parts_pos (cfg : Config) (n bits c : ℕ) : 0 < parts cfg n bits c := by
  rw [parts]
  omega

lemma le_parts_mul {n p : ℕ} (hp : 0 < p) : n ≤ p * partLen n p := by
  have hdiv := Nat.div_add_mod (n + p - 1) p
  have hmod := Nat.mod_lt (n + p - 1) hp
  rw [partLen]
  omega

/-- An entry of a class of `bits` bits: its point has order `r`, its magnitude is that of the scalar
or of its opposite. -/
structure EntryOk (ofAffine : Affine F → (curve a b).Point) (r : ℕ) (bases : List (Affine F))
    (scalars : List Scalar) (bits : ℕ) (e : Entry) : Prop where
  point : ∃ P : (curve a b).Point, coords P = bases.getD e.1 none
  order : r • ofAffine (bases.getD e.1 none) = 0
  lt : magnitude r scalars e < 2 ^ bits
  le : e.2 = true → (scalars.getD e.1 0).val ≤ r

/-- The term of an entry. -/
def term (ofAffine : Affine F → (curve a b).Point) (bases : List (Affine F)) (scalars : List Scalar)
    (e : Entry) : (curve a b).Point :=
  (scalars.getD e.1 0).val • ofAffine (bases.getD e.1 none)

variable {r : ℕ} {bases : List (Affine F)} {scalars : List Scalar} {bits : ℕ} {e : Entry}

/-- A signed magnitude stands for its scalar. -/
lemma EntryOk.signed (h : EntryOk ofAffine r bases scalars bits e) :
    (if e.2 then -(magnitude r scalars e : ℤ) else magnitude r scalars e)
        • ofAffine (bases.getD e.1 none) = term ofAffine bases scalars e := by
  rw [term, magnitude]
  cases hneg : e.2
  · simp only [Bool.false_eq_true, if_false]
    exact natCast_zsmul _ _
  · have hle := h.le hneg
    simp only [if_true]
    rw [Nat.cast_sub hle, neg_sub, sub_smul, natCast_zsmul, natCast_zsmul, h.order, sub_zero]

/-- The windows of an entry recombine to its term. -/
lemma EntryOk.windows (h : EntryOk ofAffine r bases scalars bits e) (hbits : bits ≤ 256) {c : ℕ}
    (hc : 0 < c) (hc' : c < 63) :
    ∑ w ∈ Finset.range (windows bits c), (2 ^ c) ^ w •
        ((if e.2 then -boothDigit (magnitude r scalars e) w c
          else boothDigit (magnitude r scalars e) w c) • ofAffine (bases.getD e.1 none))
      = term ofAffine bases scalars e := by
  have hsum := sum_boothDigit h.lt hbits hc hc'
  have hsigned : ∑ w ∈ Finset.range (Msm.windows bits c),
      (if e.2 then -boothDigit (magnitude r scalars e) w c
        else boothDigit (magnitude r scalars e) w c) * ((2 ^ c) ^ w : ℤ)
      = if e.2 then -(magnitude r scalars e : ℤ) else magnitude r scalars e := by
    cases e.2
    · simpa using hsum
    · simpa using congrArg Neg.neg hsum
  rw [← h.signed, ← hsigned, Finset.sum_smul]
  refine Finset.sum_congr rfl fun w _ => ?_
  rw [mul_comm, mul_smul, ← natCast_zsmul _ ((2 ^ c) ^ w)]
  push_cast
  rfl

/-- The windows of a class recombine to its terms. -/
lemma sum_rows (hbits : bits ≤ 256) {c : ℕ} (hc : 0 < c) (hc' : c < 63) {entries : List Entry}
    (h : ∀ e ∈ entries, EntryOk ofAffine r bases scalars bits e) :
    ∑ w ∈ Finset.range (windows bits c), (2 ^ c) ^ w •
        weighted ofAffine (row r bases scalars entries c w)
      = (entries.map (term ofAffine bases scalars)).sum := by
  induction entries with
  | nil => simp [weighted, row]
  | cons e entries ih =>
      have hcons : ∀ w, weighted ofAffine (row r bases scalars (e :: entries) c w)
          = (if e.2 then -boothDigit (magnitude r scalars e) w c
              else boothDigit (magnitude r scalars e) w c) • ofAffine (bases.getD e.1 none)
            + weighted ofAffine (row r bases scalars entries c w) := fun w => List.sum_cons
      simp only [hcons, smul_add, Finset.sum_add_distrib]
      rw [ih fun e' he' => h e' (List.mem_cons_of_mem _ he'),
        (h e List.mem_cons_self).windows hbits hc hc', List.map_cons, List.sum_cons]

/-- The loop over the windows, with the sums of its slices. -/
lemma fold_windows {G : Type} [AddCommGroup G] (c p W : ℕ) (S V : ℕ → G)
    (hV : ∀ w < W, ∑ part ∈ Finset.range p, S (w * p + part) = V w) :
    (List.range W).reverse.foldl (fun total w =>
        (List.range p).foldl (fun total part => total + S (w * p + part))
          ((fun total => total + total)^[c] total)) 0
      = ∑ w ∈ Finset.range W, (2 ^ c) ^ w • V w := by
  have hinner : ∀ (w q : ℕ) (total : G),
      (List.range q).foldl (fun total part => total + S (w * p + part)) total
        = total + ∑ part ∈ Finset.range q, S (w * p + part) := by
    intro w q total
    induction q with
    | zero => simp
    | succ q ih =>
        rw [List.range_succ, List.foldl_append, ih, List.foldl_cons, List.foldl_nil,
          Finset.sum_range_succ, add_assoc]
  have hstep : ∀ ws : List ℕ, (∀ w ∈ ws, w < W) → ∀ total : G,
      ws.foldl (fun total w => (List.range p).foldl (fun total part => total + S (w * p + part))
        ((fun total => total + total)^[c] total)) total
      = ws.foldl (fun total w => 2 ^ c • total + V w) total := by
    intro ws hws
    induction ws with
    | nil => exact fun _ => rfl
    | cons w ws ih =>
        intro total
        rw [List.foldl_cons, List.foldl_cons, hinner, hV w (hws w List.mem_cons_self),
          SignedDigits.iterate_double, ih fun w' hw' => hws w' (List.mem_cons_of_mem _ hw')]
  rw [hstep _ (fun w hw => List.mem_range.mp (List.mem_reverse.mp hw)), SignedDigits.horner,
    smul_zero, zero_add]

variable (hof : ∀ P : (curve a b).Point, ofAffine (coords P) = P) (h2 : (2 : F) ≠ 0)
include hof h2

/-- The tasks: a slice each, or a panic. -/
lemma tasks_eq (cfg : Config) {c n p W len : ℕ} (hp : 0 < p) (hW : 0 < W)
    {R : ℕ → List (ℤ × Affine F)} (hrow : ∀ w, Sliced a b (2 ^ (c - 1)) (R w))
    [Decidable (cfg.batchAffine = true → cfg.overflowChecks = true → ∀ part < p, part * len ≤ n)] :
    (List.range (W * p)).mapM (fun t =>
        taskSum a ofAffine cfg c (R (t / p)) (t % p * len) (min n (t % p * len + len)))
      = if cfg.batchAffine = true → cfg.overflowChecks = true → ∀ part < p, part * len ≤ n then
          .ok ((List.range (W * p)).map fun t => weighted ofAffine
            (((R (t / p)).take (min n (t % p * len + len))).drop (t % p * len)))
        else .error .panic := by
  have hmin : ∀ lo, min n (lo + len) < lo ↔ n < lo := by omega
  have hbad : (∃ t ∈ List.range (W * p), cfg.batchAffine = true ∧ cfg.overflowChecks = true ∧
        min n (t % p * len + len) < t % p * len) ↔
      ¬ (cfg.batchAffine = true → cfg.overflowChecks = true → ∀ part < p, part * len ≤ n) := by
    simp only [hmin]
    constructor
    · rintro ⟨t, -, hba, hoc, hlt⟩ hfit
      exact absurd (hfit hba hoc (t % p) (Nat.mod_lt _ hp)) (Nat.not_le.mpr hlt)
    · intro hnot
      push Not at hnot
      obtain ⟨hba, hoc, part, hpart, hlt⟩ := hnot
      have hmem : part < W * p := hpart.trans_le (Nat.le_mul_of_pos_left p hW)
      refine ⟨part, List.mem_range.mpr hmem, hba, hoc, ?_⟩
      rwa [Nat.mod_eq_of_lt hpart]
  simp only [taskSum_eq hof h2 cfg _ _ (hrow _), mapM_ite, hbad]
  exact ite_not _ _ _

/-- **One class sums up.** -/
theorem pippenger_eq (cfg : Config) {entries : List Entry} (hbits : bits ≤ 256)
    (h : ∀ e ∈ entries, EntryOk ofAffine r bases scalars bits e)
    [Decidable (Fits cfg entries.length bits)] :
    pippenger a ofAffine r cfg bases scalars entries bits
      = if Fits cfg entries.length bits then .ok (entries.map (term ofAffine bases scalars)).sum
        else .error .panic := by
  classical
  rw [pippenger]
  by_cases hn : entries.length = 0
  · have hfits : Fits cfg entries.length bits := fun h0 => absurd hn h0
    rw [if_pos hn, if_pos hfits, List.length_eq_zero_iff.mp hn]
    rfl
  rw [if_neg hn]
  obtain ⟨hlo, hhi⟩ := cfg.windowBits_mem entries.length bits
  have hc : 0 < cfg.windowBits entries.length bits := by omega
  have hc' : cfg.windowBits entries.length bits < 63 := by omega
  have hfits : Fits cfg entries.length bits ↔
      (cfg.batchAffine = true → cfg.overflowChecks = true →
        ∀ part < parts cfg entries.length bits (cfg.windowBits entries.length bits), part *
          partLen entries.length (parts cfg entries.length bits (cfg.windowBits entries.length bits))
          ≤ entries.length) := ⟨fun hf => hf hn, fun hf _ => hf⟩
  simp only [hfits]
  generalize cfg.windowBits entries.length bits = c at hc hc' ⊢
  have hp := parts_pos cfg entries.length bits c
  generalize parts cfg entries.length bits c = p at hp ⊢
  have hW : 0 < windows bits c := by
    have hcover := le_windows bits hc
    exact Nat.pos_of_ne_zero fun h0 => by rw [h0] at hcover; omega
  have hcover := le_parts_mul (n := entries.length) hp
  generalize partLen entries.length p = len at hcover ⊢
  have hrow : ∀ w, Sliced a b (2 ^ (c - 1)) (row r bases scalars entries c w) := by
    intro w e he
    obtain ⟨e, hmem, rfl⟩ := List.mem_map.mp he
    have hs := (h e hmem).lt.trans_le (Nat.pow_le_pow_right (by norm_num) hbits)
    refine ⟨?_, (h e hmem).point⟩
    have hle := natAbs_boothDigit_le hs hc hc' w
    cases e.2
    · simpa using hle
    · simpa using hle
  have hlen : ∀ w, (row r bases scalars entries c w).length = entries.length := fun w =>
    List.length_map _
  rw [tasks_eq hof h2 cfg hp hW hrow]
  split_ifs
  swap
  · rfl
  change Except.ok _ = _
  rw [← sum_rows hbits hc hc' h]
  set sums := (List.range (windows bits c * p)).map fun t => weighted ofAffine
    (((row r bases scalars entries c (t / p)).take (min entries.length (t % p * len + len))).drop
      (t % p * len)) with hsums
  refine congrArg Except.ok (fold_windows c p _ (fun t => sums.getD t 0) _ fun w hw => ?_)
  rw [← sum_slices (row r bases scalars entries c w) len p (by rw [hlen]; exact hcover)]
  refine Finset.sum_congr rfl fun part hpart => ?_
  have hpart := Finset.mem_range.mp hpart
  have hlt : w * p + part < windows bits c * p :=
    calc w * p + part < w * p + p := by omega
      _ = (w + 1) * p := (Nat.succ_mul w p).symm
      _ ≤ windows bits c * p := Nat.mul_le_mul_right p hw
  have hdiv : (w * p + part) / p = w := by
    rw [mul_comm, Nat.mul_add_div hp, Nat.div_eq_of_lt hpart, add_zero]
  have hmod : (w * p + part) % p = part := by
    rw [mul_comm, Nat.mul_add_mod, Nat.mod_eq_of_lt hpart]
  rw [hsums, List.getD_eq_getElem?_getD, List.getElem?_map, List.getElem?_range hlt,
    Option.map_some, Option.getD_some, hdiv, hmod, hlen]

end Class

/-! ### The classes -/

section Classes

variable {r : ℕ} {scalars : List Scalar} {i : ℕ}

/-- What a scalar is put into a class by: the bits of `s`, or of `r - s`. -/
lemma classify_eq (r : ℕ) (scalars : List Scalar) (i : ℕ) :
    ((scalars.getD i 0).val = 0 ∧ classify r scalars i = none) ∨
      (scalars.getD i 0).val ≠ 0 ∧ ∃ neg : Bool,
        (neg = true → (scalars.getD i 0).val < r) ∧
        (magnitude r scalars (i, neg)).size ≤ 256 ∧ magnitude r scalars (i, neg) ≠ 0 ∧
        classify r scalars i = (classBits.findIdx? fun b =>
          decide ((magnitude r scalars (i, neg)).size ≤ b)).map fun c => (c, (i, neg)) := by
  have hs : (scalars.getD i 0).val.size ≤ 256 := Nat.size_le.mpr (scalars.getD i 0).isLt
  by_cases h0 : (scalars.getD i 0).val = 0
  · exact Or.inl ⟨h0, by rw [classify, if_pos h0]⟩
  refine Or.inr ⟨h0, ?_⟩
  have hsize : ∀ {m : ℕ}, m ≠ 0 → m.size ≠ 0 := fun hm hz => hm (Nat.size_eq_zero.mp hz)
  rw [classify, if_neg h0]
  by_cases hneg : 128 < (scalars.getD i 0).val.size ∧ (scalars.getD i 0).val < r ∧
      (r - (scalars.getD i 0).val).size < (scalars.getD i 0).val.size
  · obtain ⟨hbits, hlt, hless⟩ := hneg
    have hm : r - (scalars.getD i 0).val ≠ 0 := by omega
    refine ⟨true, fun _ => hlt, hless.le.trans hs, hm, ?_⟩
    simp only [if_pos (And.intro hbits hlt), if_pos hless, if_neg (hsize hm)]
    rfl
  · refine ⟨false, fun h => absurd h Bool.false_ne_true, hs, h0, ?_⟩
    have hpick : (if 128 < (scalars.getD i 0).val.size ∧ (scalars.getD i 0).val < r then
          if (r - (scalars.getD i 0).val).size < (scalars.getD i 0).val.size then
            ((r - (scalars.getD i 0).val).size, true)
          else ((scalars.getD i 0).val.size, false)
        else ((scalars.getD i 0).val.size, false)) = ((scalars.getD i 0).val.size, false) := by
      split_ifs with h1 h3
      · exact absurd ⟨h1.1, h1.2, h3⟩ hneg
      · rfl
      · rfl
    simp only [hpick, if_neg (hsize h0)]
    rfl

/-- **A scalar in no class** is zero. -/
lemma classify_none (h : classify r scalars i = none) : (scalars.getD i 0).val = 0 := by
  rcases classify_eq r scalars i with ⟨h0, -⟩ | ⟨-, neg, -, hsize, -, heq⟩
  · exact h0
  · rw [heq, Option.map_eq_none_iff, List.findIdx?_eq_none_iff] at h
    have hlast := h 256 (by decide)
    exact absurd hsize (of_decide_eq_false hlast)

/-- **A scalar in a class** fits its bits, or its opposite does. -/
lemma classify_some {c : ℕ} {e : Entry} (h : classify r scalars i = some (c, e)) :
    e.1 = i ∧ c < 6 ∧ (e.2 = true → (scalars.getD i 0).val < r) ∧ magnitude r scalars e ≠ 0 ∧
      magnitude r scalars e < 2 ^ classBits.getD c 0 := by
  rcases classify_eq r scalars i with ⟨-, heq⟩ | ⟨-, neg, hlt, -, hm, heq⟩
  · rw [heq] at h
    cases h
  · rw [heq] at h
    obtain ⟨c, hc, hce⟩ := Option.map_eq_some_iff.mp h
    cases hce
    obtain ⟨hlen, hfits, -⟩ := List.findIdx?_eq_some_iff_getElem.mp hc
    refine ⟨rfl, hlen, hlt, hm, ?_⟩
    rw [List.getD_eq_getElem?_getD, List.getElem?_eq_getElem hlen, Option.getD_some]
    exact Nat.size_le.mp (of_decide_eq_true hfits)

lemma mem_entriesOf {n c : ℕ} {e : Entry} (h : e ∈ entriesOf r scalars n c) :
    e.1 < n ∧ classify r scalars e.1 = some (c, e) := by
  obtain ⟨i, hi, hsome⟩ := List.mem_filterMap.mp h
  cases hcl : classify r scalars i with
  | none => rw [hcl] at hsome; cases hsome
  | some ce =>
      obtain ⟨c', e'⟩ := ce
      rw [hcl] at hsome
      obtain ⟨hc, he⟩ := Option.ite_none_right_eq_some.mp hsome
      cases he
      subst hc
      obtain ⟨rfl, -⟩ := classify_some hcl
      exact ⟨List.mem_range.mp hi, hcl⟩

lemma sum_map_range {G : Type} [AddCommMonoid G] (f : ℕ → G) (n : ℕ) :
    ((List.range n).map f).sum = ∑ i ∈ Finset.range n, f i := by
  induction n with
  | zero => rfl
  | succ n ih => rw [List.range_succ, List.map_append, List.sum_append, ih, Finset.sum_range_succ,
      List.map_singleton, List.sum_singleton]

/-- **The classes lose no scalar**: a sum over the scalars is a sum over the classes. -/
theorem sum_classes {G : Type} [AddCommMonoid G] (n : ℕ) (f : Entry → G) (g : ℕ → G)
    (hnone : ∀ i < n, classify r scalars i = none → g i = 0)
    (hsome : ∀ i < n, ∀ c e, classify r scalars i = some (c, e) → g i = f e) :
    ((List.range 6).map fun c => ((entriesOf r scalars n c).map f).sum).sum
      = ((List.range n).map g).sum := by
  have hclass : ∀ c, ((entriesOf r scalars n c).map f).sum = ∑ i ∈ Finset.range n,
      (classify r scalars i).elim 0 fun ce => if ce.1 = c then f ce.2 else 0 := by
    intro c
    rw [← sum_map_range, entriesOf]
    generalize List.range n = l
    induction l with
    | nil => rfl
    | cons i l ih =>
        rw [List.map_cons, List.sum_cons, ← ih, List.filterMap_cons]
        cases classify r scalars i with
        | none => exact (zero_add _).symm
        | some ce =>
            by_cases hc : ce.1 = c
            · simp [hc]
            · simp [hc]
  rw [sum_map_range, sum_map_range]
  simp only [hclass]
  rw [Finset.sum_comm]
  refine Finset.sum_congr rfl fun i hi => ?_
  have hi := Finset.mem_range.mp hi
  cases hcl : classify r scalars i with
  | none => simp [hnone i hi hcl]
  | some ce =>
      obtain ⟨c, e⟩ := ce
      have hc := (classify_some hcl).2.1
      simp [hsome i hi c e hcl, Finset.sum_ite_eq, hc]

end Classes

end Msm

end XarkCircuit
