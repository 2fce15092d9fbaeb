import XarkCircuit.Groth16.FixedBase
import XarkCircuit.Lib.SignedDigits
import XarkCircuit.Lib.Succeeds
import Mathlib.Algebra.Group.Nat.TypeTags
import Mathlib.GroupTheory.OrderOfElement

/-!
Fixed-base multiplication is scalar multiplication.

* `digitsFrom_eq`: the digits are the signed digits of the scalar, and no carry is left
  (`carry_windows`).
* `addWindow_spec`: one window adds the entry of each digit, and its inversion is not of zero.
* `fixed_base_multiplies`: all windows together multiply.
-/

namespace XarkCircuit

open Verifier ShortWeierstrass Succeeding

namespace FixedBase

/-! ### The windows -/

lemma width_bounds {n : ℕ} (h : n < 2 ^ 64) : 4 ≤ width n ∧ width n ≤ 44 := by
  rw [width]
  split_ifs with hn
  · omega
  · have hlo : 5 ≤ n.log2 := (Nat.le_log2 (by omega)).mpr (by omega)
    have hhi : n.log2 < 64 := (Nat.log2_lt (by omega)).mpr h
    omega

lemma windows_pos {w : ℕ} (hw : 0 < w) (h : w ≤ 44) : 0 < windows w :=
  Nat.div_pos (by omega) hw

/-- The windows cover one bit more than a scalar has. -/
lemma le_windows {w : ℕ} (hw : 0 < w) : 255 ≤ w * windows w := by
  have hdiv := Nat.div_add_mod (254 + 1 + w - 1) w
  have hmod := Nat.mod_lt (254 + 1 + w - 1) hw
  rw [windows]
  omega

/-! ### The digits -/

/-- A window is read off the two limbs around it. -/
lemma bits_bigInt {s w : ℕ} (hs : s < 2 ^ 256) (hw : w ≤ 64) (k : ℕ) :
    bits w (Points.bigInt s) k = s / (2 ^ w) ^ k % 2 ^ w := by
  set i := k * w / 64 with hi
  set sh := k * w % 64 with hsh
  have hlt : sh < 64 := Nat.mod_lt _ (by norm_num)
  have hpair : limb (Points.bigInt s) i ||| limb (Points.bigInt s) (i + 1) <<< 64
      = s / 2 ^ (64 * i) % 2 ^ 128 := by
    have hlow : s / 2 ^ (64 * i) % 2 ^ 64 < 2 ^ 64 := Nat.mod_lt _ (by norm_num)
    have hnext : s / 2 ^ (64 * (i + 1)) = s / 2 ^ (64 * i) / 2 ^ 64 := by
      rw [Nat.div_div_eq_div_mul, ← pow_add]
      rfl
    have hsquare : (2 : ℕ) ^ 128 = 2 ^ 64 * 2 ^ 64 := by norm_num
    rw [limb, limb, Points.getD_bigInt hs, Points.getD_bigInt hs, Nat.or_comm,
      ← Nat.shiftLeft_add_eq_or_of_lt hlow, Nat.shiftLeft_eq, hnext, hsquare, Nat.mod_mul]
    ring
  have hkw : k * w = 64 * i + sh := (Nat.div_add_mod (k * w) 64).symm
  calc bits w (Points.bigInt s) k
      = s / 2 ^ (64 * i) % 2 ^ 128 / 2 ^ sh % 2 ^ 64 % 2 ^ w := by
        rw [bits, ← hi, ← hsh, hpair, Nat.and_two_pow_sub_one_eq_mod, Nat.shiftRight_eq_div_pow]
    _ = s / 2 ^ (64 * i) % 2 ^ 128 / 2 ^ sh % 2 ^ w :=
        Nat.mod_mod_of_dvd _ (pow_dvd_pow 2 hw)
    _ = s / 2 ^ (64 * i) / 2 ^ sh % 2 ^ (128 - sh) % 2 ^ w := by
        have hsplit : (2 : ℕ) ^ 128 = 2 ^ sh * 2 ^ (128 - sh) := by
          rw [← pow_add, Nat.add_sub_cancel' (by omega)]
        rw [hsplit, Nat.mod_mul_right_div_self]
    _ = s / 2 ^ (64 * i) / 2 ^ sh % 2 ^ w :=
        Nat.mod_mod_of_dvd _ (pow_dvd_pow 2 (by omega))
    _ = s / (2 ^ w) ^ k % 2 ^ w := by
        rw [Nat.div_div_eq_div_mul, ← pow_add, ← hkw, mul_comm, pow_mul]

/-- The carry into window `k`. -/
def carry (w s : ℕ) : ℕ → ℤ
  | 0 => 0
  | k + 1 => if ((s / (2 ^ w) ^ k % 2 ^ w : ℕ) : ℤ) + carry w s k > 2 ^ (w - 1) then 1 else 0

lemma carry_nonneg (w s k : ℕ) : 0 ≤ carry w s k ∧ carry w s k ≤ 1 := by
  cases k with
  | zero => simp [carry]
  | succ k => rw [carry]; split_ifs <;> norm_num

/-- **The digits that are computed** are signed digits. -/
theorem digitsFrom_eq {w s : ℕ} (hs : s < 2 ^ 256) (hw : w ≤ 64) (count k : ℕ) :
    digitsFrom w (Points.bigInt s) count k (carry w s k)
      = ((List.range' k count).map (SignedDigits.digit (2 ^ w) s (carry w s)),
          carry w s (k + count)) := by
  induction count generalizing k with
  | zero => rfl
  | succ count ih =>
      have hnext : (if (bits w (Points.bigInt s) k : ℤ) + carry w s k > 2 ^ (w - 1) then (1 : ℤ)
          else 0) = carry w s (k + 1) := by rw [bits_bigInt hs hw]; rfl
      have hdigit : (bits w (Points.bigInt s) k : ℤ) + carry w s k - carry w s (k + 1) * 2 ^ w
          = SignedDigits.digit (2 ^ w) s (carry w s) k := by
        rw [bits_bigInt hs hw, SignedDigits.digit]
        push_cast
        ring
      simp only [digitsFrom, hnext, ih (k + 1), hdigit, List.range'_succ, List.map_cons,
        Nat.add_right_comm k 1 count]
      rfl

/-- A digit and its bounds. -/
lemma digit_bounds {w : ℕ} (hw : 0 < w) (s k : ℕ) :
    -2 ^ (w - 1) < SignedDigits.digit (2 ^ w) s (carry w s) k ∧
      SignedDigits.digit (2 ^ w) s (carry w s) k ≤ 2 ^ (w - 1) := by
  obtain ⟨w, rfl⟩ := Nat.exists_eq_add_one.mpr hw
  have hbits : s / (2 ^ (w + 1)) ^ k % 2 ^ (w + 1) < 2 ^ (w + 1) := Nat.mod_lt _ (by positivity)
  have hcarry := carry_nonneg (w + 1) s k
  rw [SignedDigits.digit, carry, Nat.add_sub_cancel]
  generalize s / (2 ^ (w + 1)) ^ k % 2 ^ (w + 1) = v at hbits ⊢
  have hpow : ((2 ^ (w + 1) : ℕ) : ℤ) = 2 * 2 ^ w := by push_cast; ring
  zify at hbits
  rw [pow_succ (2 : ℤ)] at hbits
  rw [hpow]
  split_ifs with h <;> constructor <;> omega

lemma natAbs_digit_le {w : ℕ} (hw : 0 < w) (s k : ℕ) :
    (SignedDigits.digit (2 ^ w) s (carry w s) k).natAbs ≤ 2 ^ (w - 1) := by
  obtain ⟨hlo, hhi⟩ := digit_bounds hw s k
  zify
  exact abs_le.mpr ⟨hlo.le, hhi⟩

/-- **No carry is left** after the top window. -/
theorem carry_windows {w s : ℕ} (hw : 0 < w) (hw' : w ≤ 44) (hs : s < 2 ^ 254) :
    carry w s (windows w) = 0 := by
  obtain ⟨n, hn⟩ := Nat.exists_eq_add_one.mpr (windows_pos hw hw')
  have hcover := le_windows hw
  rw [hn] at hcover ⊢
  have htop : s / (2 ^ w) ^ n < 2 ^ (w - 1) := by
    rw [Nat.div_lt_iff_lt_mul (by positivity), ← pow_mul, ← pow_add]
    refine hs.trans_le (Nat.pow_le_pow_right (by norm_num) ?_)
    rw [Nat.mul_succ] at hcover
    omega
  have hmod : s / (2 ^ w) ^ n % 2 ^ w ≤ s / (2 ^ w) ^ n := Nat.mod_le _ _
  have hcarry := (carry_nonneg w s n).2
  rw [carry, if_neg]
  zify at htop hmod
  push_cast
  omega

/-! ### The table -/

variable {F : Type} [Field F] [DecidableEq F] {a b : F}

lemma doubled_eq (w : ℕ) (P : (curve a b).Point) : doubled w P = 2 ^ w • P :=
  SignedDigits.iterate_double w P

lemma iterate_doubled (w k : ℕ) (P : (curve a b).Point) :
    (doubled w)^[k] P = (2 ^ w) ^ k • P := by
  induction k with
  | zero => simp
  | succ k ih => rw [Function.iterate_succ_apply', ih, doubled_eq, ← mul_nsmul', pow_succ']

lemma iterate_add (j : ℕ) (P : (curve a b).Point) : (· + P)^[j] P = (j + 1) • P := by
  induction j with
  | zero => simp
  | succ j ih => rw [Function.iterate_succ_apply', ih, ← succ_nsmul]

/-- **The table**: every multiple of every window's point. -/
theorem table_new (base : (curve a b).Point) (n : ℕ) :
    (new base n).table = (List.range (windows (width n))).map fun k =>
      (List.range (2 ^ (width n - 1))).map fun j =>
        coords ((j + 1) • (2 ^ width n) ^ k • base) := by
  simp only [new, ← List.range_map_iterate, List.map_map]
  refine List.map_congr_left fun k _ => List.map_congr_left fun j _ => ?_
  simp only [Function.comp_apply, iterate_doubled, iterate_add]

/-- `tab` holds `1 · B, ..., half · B`. -/
def Multiples (half : ℕ) (B : (curve a b).Point) (tab : List (Affine F)) : Prop :=
  ∀ j < half, tab[j]? = some (coords ((j + 1) • B))

omit [DecidableEq F] in
lemma neg_coords (P : (curve a b).Point) : neg (coords P) = coords (-P) := (coords_neg P).symm

/-- The entry of a digit, with its sign. -/
lemma Multiples.entry {half : ℕ} {B : (curve a b).Point} {tab : List (Affine F)}
    (h : Multiples half B tab) {d : ℤ} (h0 : d ≠ 0) (hd : d.natAbs ≤ half) :
    ∃ q, tab[d.natAbs - 1]? = some q ∧ (if d < 0 then neg q else q) = coords (d • B) := by
  have hpos : 0 < d.natAbs := Int.natAbs_pos.mpr h0
  refine ⟨_, h (d.natAbs - 1) (by omega), ?_⟩
  rw [Nat.sub_add_cancel hpos]
  split_ifs with hneg
  · rw [neg_coords, ← natCast_zsmul, ← neg_zsmul]
    congr 2
    omega
  · rw [← natCast_zsmul]
    congr 2
    omega

/-! ### One window -/

section Window

variable (P : ℕ → (curve a b).Point) (B : (curve a b).Point) (digit : ℕ → ℤ)

/-- An addition that waits: the sum and the entry lie on a chord. -/
structure Waits (acc : ℕ → Affine F) (e : ℕ × Affine F) : Prop where
  sum : acc e.1 = coords (P e.1)
  entry : e.2 = coords (digit e.1 • B)
  sum_ne : P e.1 ≠ 0
  entry_ne : digit e.1 • B ≠ 0
  chord : (xy (acc e.1)).1 ≠ (xy e.2).1

/-- After the scalars below `m`: they have their entry, or wait for it. -/
structure Visited (acc : ℕ → Affine F) (m : ℕ) (st : Pending F) : Prop where
  rest : ∀ i, m ≤ i → st.1 i = acc i
  nodup : (st.2.map Prod.fst).Nodup
  lt : ∀ e ∈ st.2, e.1 < m
  waits : ∀ e ∈ st.2, Waits P B digit st.1 e
  done : ∀ i < m, i ∉ st.2.map Prod.fst → st.1 i = coords (P i + digit i • B)

variable {P B digit} {acc : ℕ → Affine F} {m : ℕ} {st : Pending F}

lemma Visited.not_pending (h : Visited P B digit acc m st) : m ∉ st.2.map Prod.fst := by
  intro hmem
  obtain ⟨e, he, heq⟩ := List.mem_map.mp hmem
  exact absurd (h.lt e he) (by omega)

/-- Scalar `m` has got its entry at once. -/
lemma Visited.update (h : Visited P B digit acc m st) {q : Affine F}
    (hq : q = coords (P m + digit m • B)) :
    Visited P B digit acc (m + 1) (Function.update st.1 m q, st.2) := by
  have hne : ∀ {i}, i ≠ m → Function.update st.1 m q i = st.1 i := fun hi =>
    Function.update_of_ne hi _ _
  constructor
  · intro i hi
    exact (hne (by omega)).trans (h.rest i (by omega))
  · exact h.nodup
  · exact fun e he => (h.lt e he).trans (Nat.lt_succ_self m)
  · intro e he
    have hwait := h.waits e he
    have hsame : Function.update st.1 m q e.1 = st.1 e.1 := hne (h.lt e he).ne
    have hchord : (xy (Function.update st.1 m q e.1)).1 ≠ (xy e.2).1 := by
      rw [hsame]
      exact hwait.chord
    exact ⟨hsame.trans hwait.sum, hwait.entry, hwait.sum_ne, hwait.entry_ne, hchord⟩
  · intro i hi hfree
    rcases Nat.lt_succ_iff_lt_or_eq.mp hi with hlt | rfl
    · exact (hne hlt.ne).trans (h.done i hlt hfree)
    · exact (Function.update_self _ _ _).trans hq

/-- Scalar `m` waits. -/
lemma Visited.push (h : Visited P B digit acc m st) {q : Affine F}
    (hq : Waits P B digit st.1 (m, q)) :
    Visited P B digit acc (m + 1) (st.1, st.2 ++ [(m, q)]) := by
  have hfst : (st.2 ++ [(m, q)]).map Prod.fst = st.2.map Prod.fst ++ [m] := List.map_append
  constructor
  · exact fun i hi => h.rest i (by omega)
  · change ((st.2 ++ [(m, q)]).map Prod.fst).Nodup
    rw [hfst]
    exact h.nodup.append (List.nodup_singleton m) (by simpa using h.not_pending)
  · intro e he
    rcases List.mem_append.mp he with hmem | hmem
    · exact (h.lt e hmem).trans (Nat.lt_succ_self m)
    · exact List.mem_singleton.mp hmem ▸ Nat.lt_succ_self m
  · intro e he
    rcases List.mem_append.mp he with hmem | hmem
    · exact h.waits e hmem
    · exact List.mem_singleton.mp hmem ▸ hq
  · intro i hi hfree
    change i ∉ (st.2 ++ [(m, q)]).map Prod.fst at hfree
    rw [hfst, List.mem_append, not_or, List.mem_singleton] at hfree
    exact h.done i (by omega) hfree.1

variable {add : Affine F → Affine F → Affine F}
  (hadd : ∀ P Q : (curve a b).Point, add (coords P) (coords Q) = coords (P + Q))
  {half : ℕ} {tab : List (Affine F)} (htab : Multiples half B tab)
include hadd htab

/-- One scalar. -/
lemma visit_spec (hacc : acc m = coords (P m)) (hd : (digit m).natAbs ≤ half)
    (hne : digit m ≠ 0 → digit m • B ≠ 0) (h : Visited P B digit acc m st) :
    Succeeds (visit add tab digit st m) (Visited P B digit acc (m + 1)) := by
  have hm : st.1 m = coords (P m) := (h.rest m le_rfl).trans hacc
  rw [visit]
  by_cases h0 : digit m = 0
  · have hsum : st.1 m = coords (P m + digit m • B) := by rw [hm, h0, zero_smul, add_zero]
    have hself : (Function.update st.1 m (st.1 m), st.2) = st := by rw [Function.update_eq_self]
    simp only [h0, if_true]
    exact .ok (hself ▸ h.update hsum)
  · obtain ⟨q, hget, hsign⟩ := htab.entry h0 hd
    simp only [h0, if_false, hget, Outcome.orPanic_some, Outcome.ok_bind, hsign]
    split_ifs with hnone hx
    · have hP : P m = 0 := coords_eq_none.mp (hm ▸ hnone)
      exact .ok (h.update (by rw [hP, zero_add]))
    · exact .ok (h.update (by rw [hm, hadd]))
    · have hP : P m ≠ 0 := fun h0 => hnone (by rw [hm, h0]; rfl)
      exact .ok (h.push ⟨hm, rfl, hP, hne h0, hx⟩)

/-- **One window** adds the entry of every digit, and divides by no zero. -/
theorem addWindow_spec {n : ℕ} (hacc : ∀ i < n, acc i = coords (P i))
    (hd : ∀ i < n, (digit i).natAbs ≤ half) (hne : ∀ i < n, digit i ≠ 0 → digit i • B ≠ 0) :
    Succeeds (addWindow add n acc tab digit)
      fun acc' => ∀ i < n, acc' i = coords (P i + digit i • B) := by
  have hstart : Visited P B digit acc 0 (acc, []) :=
    ⟨fun _ _ => rfl, List.nodup_nil, fun _ h => absurd h List.not_mem_nil,
      fun _ h => absurd h List.not_mem_nil, fun i hi => absurd hi (Nat.not_lt_zero i)⟩
  have hloop : Succeeds ((List.range n).foldlM (visit add tab digit) (acc, []))
      (Visited P B digit acc (List.range n).length) :=
    Succeeds.foldlM (fun i => Visited P B digit acc i) hstart fun i hi st hst => by
      rw [List.length_range] at hi
      rw [List.getElem_range]
      exact visit_spec hadd htab (hacc i hi) (hd i hi) (hne i hi) hst
  rw [List.length_range] at hloop
  refine hloop.bind fun st hst => ?_
  have hden : ∀ e ∈ st.2, chord.den (st.1 e.1) e.2 ≠ 0 := fun e he =>
    sub_ne_zero.mpr (hst.waits e he).chord.symm
  obtain ⟨out, hout, hupd, hkeep⟩ := BatchInverse.run_spec hst.nodup hden
  change Succeeds (Outcome.orPanic (BatchInverse.run chord st.2 st.1)) _
  rw [hout]
  refine .ok fun i hi => ?_
  by_cases hmem : i ∈ st.2.map Prod.fst
  · obtain ⟨⟨i, q⟩, he, rfl⟩ := List.mem_map.mp hmem
    have hwait := hst.waits _ he
    obtain ⟨x₁, y₁, hP⟩ := exists_coords hwait.sum_ne
    obtain ⟨x₂, y₂, hQ⟩ := exists_coords hwait.entry_ne
    have hx : x₁ ≠ x₂ := by
      have hchord := hwait.chord
      rwa [hwait.sum, hwait.entry, hP, hQ] at hchord
    have hslot := hupd _ he
    rw [hwait.sum, hwait.entry, hP, hQ] at hslot
    rw [hslot, coords_add_chord hP hQ hx]
    rfl
  · rw [hkeep i hmem]
    exact hst.done i hi hmem

end Window

/-! ### All windows -/

/-- The multiples in the table are not infinity. -/
lemma smul_ne_zero {base : (curve a b).Point} (hbase : addOrderOf base = rModulus) {w : ℕ}
    (hw : w ≤ 44) (k : ℕ) {d : ℤ} (h0 : d ≠ 0) (hd : d.natAbs ≤ 2 ^ (w - 1)) :
    d • (2 ^ w) ^ k • base ≠ 0 := by
  intro hzero
  rw [← natCast_zsmul, smul_smul, ← addOrderOf_dvd_iff_zsmul_eq_zero, hbase,
    ← Int.natAbs_dvd_natAbs, Int.natAbs_mul, Int.natAbs_natCast, Int.natAbs_natCast,
    prime_rModulus.dvd_mul] at hzero
  have hpow : (2 : ℕ) ^ (w - 1) ≤ 2 ^ 43 := Nat.pow_le_pow_right (by norm_num) (by omega)
  have hr : 2 ^ 43 < rModulus := by norm_num [rModulus]
  rcases hzero with hdvd | hdvd
  · have hle := Nat.le_of_dvd (Int.natAbs_pos.mpr h0) hdvd
    omega
  · have h2 := prime_rModulus.dvd_of_dvd_pow (prime_rModulus.dvd_of_dvd_pow hdvd)
    have hle := Nat.le_of_dvd (by norm_num) h2
    omega

variable {base : (curve a b).Point} {n : ℕ}

lemma length_table (base : (curve a b).Point) (n : ℕ) :
    (new base n).table.length = windows (width n) := by
  rw [table_new, List.length_map, List.length_range]

lemma multiples_table (base : (curve a b).Point) (n : ℕ) {k : ℕ} {tab : List (Affine F)}
    (h : (new base n).table[k]? = some tab) :
    Multiples (2 ^ (width n - 1)) ((2 ^ width n) ^ k • base) tab := by
  rw [table_new, List.getElem?_map] at h
  obtain ⟨k', hk', rfl⟩ := Option.map_eq_some_iff.mp h
  have hk : k < windows (width n) := by
    by_contra hge
    rw [List.getElem?_eq_none (by simpa using hge)] at hk'
    cases hk'
  obtain rfl : k = k' := by
    rw [List.getElem?_range hk] at hk'
    exact Option.some.inj hk'
  intro j hj
  rw [List.getElem?_map, List.getElem?_range hj]
  rfl

lemma val_lt_two_pow (s : Fr) : s.val < 2 ^ 254 :=
  (ZMod.val_lt s).trans (by norm_num [rModulus])

/-- The digits of a scalar. -/
lemma digits_eq (hn : n < 2 ^ 64) (s : Fr) :
    (new base n).digits s
      = ((List.range (windows (width n))).map
          (SignedDigits.digit (2 ^ width n) s.val (carry (width n) s.val)), 0) := by
  obtain ⟨hlo, hhi⟩ := width_bounds hn
  have hs := val_lt_two_pow s
  have heq := digitsFrom_eq (w := width n) (hs.trans (by norm_num)) (by omega)
    (windows (width n)) 0
  rw [digits, length_table]
  refine heq.trans ?_
  rw [zero_add, carry_windows (by omega) hhi hs, List.range_eq_range']

section Multiply

variable {add : Affine F → Affine F → Affine F}
  (hadd : ∀ P Q : (curve a b).Point, add (coords P) (coords Q) = coords (P + Q))
  (hbase : addOrderOf base = rModulus) (hn : n < 2 ^ 64)
include hadd hbase hn

/-- The loop over the tables: the digits of every window, each times its power. -/
lemma foldlM_addWindow (sc : List Fr) :
    Succeeds ((new base n).table.zipIdx.foldlM (fun acc (tab, k) =>
        addWindow add sc.length acc tab fun i =>
          ((sc.map fun s => ((new base n).digits s).1).getD i []).getD k 0) fun _ => none)
      fun acc => ∀ i < sc.length, acc i = coords (∑ j ∈ Finset.range (windows (width n)),
        SignedDigits.digit (2 ^ width n) (sc.getD i 0).val (carry (width n) (sc.getD i 0).val) j
          • (2 ^ width n) ^ j • base) := by
  obtain ⟨hlo, hhi⟩ := width_bounds hn
  set w := width n with hw
  set T := new base n with hT
  -- the digit of scalar `i` in window `k`, and the sum of the windows before
  let d : ℕ → ℕ → ℤ := fun i => SignedDigits.digit (2 ^ w) (sc.getD i 0).val
    (carry w (sc.getD i 0).val)
  let P : ℕ → ℕ → (curve a b).Point := fun k i =>
    ∑ j ∈ Finset.range k, d i j • (2 ^ w) ^ j • base
  have hdigit : ∀ i < sc.length, ∀ k < windows w,
      ((sc.map fun s => (T.digits s).1).getD i []).getD k 0 = d i k := by
    intro i hi k hk
    have hget : sc[i]? = some (sc.getD i 0) := by
      rw [List.getD_eq_getElem?_getD, List.getElem?_eq_getElem hi, Option.getD_some]
    have hds : (sc.map fun s => (T.digits s).1).getD i [] = (T.digits (sc.getD i 0)).1 := by
      rw [List.getD_eq_getElem?_getD, List.getElem?_map, hget]
      rfl
    rw [hds, hT, digits_eq hn, List.getD_eq_getElem?_getD, List.getElem?_map,
      List.getElem?_range hk]
    rfl
  refine (Succeeds.foldlM (fun k (acc : ℕ → Affine F) => ∀ i < sc.length, acc i = coords (P k i))
    (fun i _ => by simp [P]) fun k hk acc hacc => ?_).mono fun acc hacc => by
      rwa [List.length_zipIdx, hT, length_table] at hacc
  rw [List.length_zipIdx] at hk
  have hkw : k < windows w := by rwa [hT, length_table] at hk
  rw [List.getElem_zipIdx, zero_add]
  have htab : Multiples (2 ^ (w - 1)) ((2 ^ w) ^ k • base) T.table[k] :=
    multiples_table base n (List.getElem?_eq_getElem hk)
  refine (addWindow_spec hadd htab hacc ?_ ?_).mono fun acc' hacc' i hi => ?_
  · intro i hi
    rw [hdigit i hi k hkw]
    exact natAbs_digit_le (by omega) _ k
  · intro i hi h0
    rw [hdigit i hi k hkw] at h0 ⊢
    exact smul_ne_zero hbase hhi k h0 (natAbs_digit_le (by omega) _ k)
  · rw [hacc' i hi, hdigit i hi k hkw]
    congr 1
    exact (Finset.sum_range_succ _ k).symm

/-- A chunk of scalars. -/
lemma mulChunk_spec (sc : List Fr) :
    Succeeds (mulChunk add (new base n) sc)
      fun out => out = sc.map fun s => coords (s.val • base) := by
  obtain ⟨hlo, hhi⟩ := width_bounds hn
  set w := width n with hw
  refine (foldlM_addWindow hadd hbase hn sc).bind fun acc hacc => .ok ?_
  refine List.ext_getElem (by simp) fun i hi hi' => ?_
  have hi : i < sc.length := by simpa using hi
  have hs := val_lt_two_pow sc[i]
  have hget : sc.getD i 0 = sc[i] := by
    rw [List.getD_eq_getElem?_getD, List.getElem?_eq_getElem hi, Option.getD_some]
  have hpow : sc[i].val < (2 ^ w) ^ windows w := by
    rw [← pow_mul]
    exact hs.trans_le (Nat.pow_le_pow_right (by norm_num) ((Nat.le_succ _).trans
      (le_windows (by omega))))
  rw [List.getElem_map, List.getElem_range, List.getElem_map, hacc i hi]
  congr 1
  have hsum := SignedDigits.sum_smul_signed (o := carry w sc[i].val) rfl
    (carry_windows (by omega) hhi hs) hpow base
  rw [hget]
  exact hsum

/-- All scalars. -/
lemma mul_spec (scalars : List Fr) :
    mul add (new base n) scalars = .ok (scalars.map fun s => coords (s.val • base)) := by
  have hchunks : Succeeds
      ((parChunks fixedBaseBatch scalars.length scalars).mapM (mulChunk add (new base n)))
      (List.Forall₂ (fun sc out => out = sc.map fun s => coords (s.val • base))
        (parChunks fixedBaseBatch scalars.length scalars)) :=
    Succeeds.mapM fun sc _ => mulChunk_spec hadd hbase hn sc
  obtain ⟨outs, houts, hall⟩ := hchunks
  have heq : outs = (parChunks fixedBaseBatch scalars.length scalars).map
      fun sc => sc.map fun s => coords (s.val • base) := by
    rw [← List.forall₂_eq_eq_eq, List.forall₂_map_right_iff]
    exact hall.flip
  rw [mul, houts]
  change Except.ok outs.flatten = _
  rw [heq, ← List.map_flatten, flatten_parChunks (by decide) le_rfl]

omit hadd hbase in
/-- What the digits of a scalar are to satisfy. -/
lemma digits_spec (s : Fr) :
    ((new base n).digits s).2 = 0 ∧
      (∀ d ∈ ((new base n).digits s).1, -2 ^ (width n - 1) < d ∧ d ≤ 2 ^ (width n - 1)) ∧
      ∑ k ∈ Finset.range (windows (width n)),
        ((new base n).digits s).1.getD k 0 * (2 ^ width n) ^ k = (s.val : ℤ) := by
  obtain ⟨hlo, hhi⟩ := width_bounds hn
  have hs := val_lt_two_pow s
  rw [digits_eq hn]
  refine ⟨rfl, fun d hd => ?_, ?_⟩
  · obtain ⟨k, -, rfl⟩ := List.mem_map.mp hd
    exact digit_bounds (by omega) _ _
  · have hpow : s.val < (2 ^ width n) ^ windows (width n) := by
      rw [← pow_mul]
      exact hs.trans_le (Nat.pow_le_pow_right (by norm_num) ((Nat.le_succ _).trans
        (le_windows (by omega))))
    rw [← SignedDigits.sum_eq (o := carry (width n) s.val) rfl
      (carry_windows (by omega) hhi hs) hpow]
    refine Finset.sum_congr rfl fun k hk => ?_
    rw [List.getD_eq_getElem?_getD, List.getElem?_map,
      List.getElem?_range (Finset.mem_range.mp hk)]
    push_cast
    rfl

omit hadd hbase in
/-- A digit finds its entry. -/
lemma digit_index (s : Fr) {tab : List (Affine F)} (htab : tab ∈ (new base n).table) {d : ℤ}
    (hd : d ∈ ((new base n).digits s).1) (h0 : d ≠ 0) : d.natAbs - 1 < tab.length := by
  obtain ⟨hlo, hhi⟩ := width_bounds hn
  rw [table_new] at htab
  obtain ⟨k, -, rfl⟩ := List.mem_map.mp htab
  rw [digits_eq hn] at hd
  obtain ⟨k', -, rfl⟩ := List.mem_map.mp hd
  have hle := natAbs_digit_le (w := width n) (by omega) s.val k'
  have hpos := Int.natAbs_pos.mpr h0
  rw [List.length_map, List.length_range]
  omega

end Multiply

/-- **Fixed-base multiplication is scalar multiplication**, for a point of order `r` and any number
of scalars that the tables are made for. Every digit is in `(-2^(w-1), 2^(w-1)]` and finds its
entry, the digits recombine to the scalar and no carry is left. `add` is the library's sum. -/
theorem fixed_base_multiplies (a b : F) (add : Affine F → Affine F → Affine F)
    (hadd : ∀ P Q : (curve a b).Point, add (coords P) (coords Q) = coords (P + Q))
    (base : (curve a b).Point) (hbase : addOrderOf base = rModulus) (n : ℕ) (hn : n < 2 ^ 64) :
    (∀ scalars : List Fr,
      mul add (new base n) scalars = .ok (scalars.map fun s => coords (s.val • base))) ∧
    ∀ s : Fr, ((new base n).digits s).2 = 0 ∧
      (∀ d ∈ ((new base n).digits s).1, -2 ^ (width n - 1) < d ∧ d ≤ 2 ^ (width n - 1)) ∧
      ∑ k ∈ Finset.range (windows (width n)),
        ((new base n).digits s).1.getD k 0 * (2 ^ width n) ^ k = (s.val : ℤ) ∧
      ∀ tab ∈ (new base n).table, ∀ d ∈ ((new base n).digits s).1, d ≠ 0 →
        d.natAbs - 1 < tab.length := by
  refine ⟨mul_spec hadd hbase hn, fun s => ?_⟩
  obtain ⟨hcarry, hbounds, hsum⟩ := @digits_spec F _ _ a b base n hn s
  exact ⟨hcarry, hbounds, hsum, fun tab htab d hd h0 => digit_index hn s htab hd h0⟩

lemma two_ne_zero_fr : (2 : Fr) ≠ 0 := by
  have hval : ((2 : ℕ) : Fr) ≠ 0 := by
    rw [Ne, ZMod.natCast_eq_zero_iff]
    exact Nat.not_dvd_of_pos_of_lt (by norm_num) (by norm_num [rModulus])
  exact_mod_cast hval

/-- On the cusp over the scalar field, whose point `(1, 1)` has order `r`. -/
theorem fixed_base_multiplies_cusp :
    mul (affineAdd 0) (new (cusp two_ne_zero_fr) 1000) [5, -1]
      = .ok ([5, -1].map fun s : Fr => coords (s.val • cusp two_ne_zero_fr)) :=
  (fixed_base_multiplies 0 0 (affineAdd 0) (affineAdd_coords two_ne_zero_fr)
    (cusp two_ne_zero_fr) (addOrderOf_cusp two_ne_zero_fr) 1000 (by norm_num)).1 [5, -1]

end FixedBase

end XarkCircuit
