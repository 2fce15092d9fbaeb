import XarkCircuit.Lib.Instances
import Mathlib.Data.ZMod.Basic
import Mathlib.Tactic.Linarith
import Mathlib.Tactic.Ring

/-!
Integer windows onto the residues modulo `p`.

* `wrap p z` is the representative of `z` in `[0, p)`, `floorDiv` and `ceilDiv` are the quotients
  rounded down and up, all three written with the truncated division of machine integers.
* `Window p lo hi x`: one of the integers `lo, …, hi` is the residue `x`. `contains` decides it
  (`contains_iff`).
* `meet` intersects two windows narrower than `p`, which may meet in one piece, in two or not at
  all; `meet_one` and `meet_ne_apart` say that no common residue is lost.
-/

/-! ### Rounding -/

/-- The representative in `[0, p)`. -/
def wrap (p : ℕ) (z : ℤ) : ℤ := (z.tmod p + p).tmod p

/-- The quotient, rounded down. -/
def floorDiv (a b : ℤ) : ℤ :=
  if a.tmod b ≠ 0 ∧ decide (a.tmod b < 0) ≠ decide (b < 0) then a.tdiv b - 1 else a.tdiv b

/-- The quotient, rounded up. -/
def ceilDiv (a b : ℤ) : ℤ := -floorDiv (-a) b

lemma wrap_eq_emod {p : ℕ} (hp : 0 < p) (z : ℤ) : wrap p z = z % p := by
  have hlow : -(p : ℤ) < z.tmod p := Int.lt_tmod_of_pos z (by omega)
  rw [wrap, Int.tmod_eq_emod_of_nonneg (by omega), Int.add_emod_right]
  calc z.tmod p % p
      = (p * z.tdiv p + z.tmod p) % p := by rw [Int.mul_add_emod_self_left]
    _ = z % p := by rw [Int.mul_tdiv_add_tmod]

lemma wrap_nonneg {p : ℕ} (hp : 0 < p) (z : ℤ) : 0 ≤ wrap p z := by
  rw [wrap_eq_emod hp]
  exact Int.emod_nonneg _ (by omega)

lemma wrap_lt {p : ℕ} (hp : 0 < p) (z : ℤ) : wrap p z < p := by
  rw [wrap_eq_emod hp]
  exact Int.emod_lt_of_pos _ (by omega)

@[simp] lemma cast_wrap {p : ℕ} (hp : 0 < p) (z : ℤ) : ((wrap p z : ℤ) : ZMod p) = z := by
  rw [wrap_eq_emod hp, ZMod.intCast_mod]

/-- What is left over by rounding down a quotient by a positive number. -/
lemma floorDiv_pos {a b : ℤ} (hb : 0 < b) :
    floorDiv a b * b ≤ a ∧ a < (floorDiv a b + 1) * b := by
  have hdiv : b * a.tdiv b + a.tmod b = a := Int.mul_tdiv_add_tmod a b
  have hlow : -b < a.tmod b := Int.lt_tmod_of_pos a hb
  have hhigh : a.tmod b < b := Int.tmod_lt_of_pos a hb
  have hneg : ¬ b < 0 := by omega
  rw [floorDiv]
  split_ifs with h
  · simp only [hneg, decide_false, ne_eq, decide_eq_false_iff_not, not_not] at h
    constructor <;> linarith [h.2, mul_comm b (a.tdiv b), sub_mul (a.tdiv b) 1 b,
      add_mul (a.tdiv b - 1) 1 b]
  · simp only [hneg, decide_false, ne_eq, decide_eq_false_iff_not, not_and, not_not] at h
    have hnonneg : 0 ≤ a.tmod b := by
      by_contra hr
      exact h (by omega) (by omega)
    constructor <;> linarith [mul_comm b (a.tdiv b), add_mul (a.tdiv b) 1 b]

/-- What is left over by rounding down a quotient by a negative number. -/
lemma floorDiv_neg {a b : ℤ} (hb : b < 0) :
    a ≤ floorDiv a b * b ∧ (floorDiv a b + 1) * b < a := by
  have hdiv : b * a.tdiv b + a.tmod b = a := Int.mul_tdiv_add_tmod a b
  have hmod : a.tmod b = a.tmod (-b) := (Int.tmod_neg a b).symm
  have hlow : b < a.tmod b := by
    rw [hmod]
    linarith [Int.lt_tmod_of_pos a (b := -b) (by omega)]
  have hhigh : a.tmod b < -b := by
    rw [hmod]
    exact Int.tmod_lt_of_pos a (by omega)
  rw [floorDiv]
  split_ifs with h
  · simp only [hb, decide_true, ne_eq, decide_eq_true_eq, not_lt] at h
    have hpos : 0 < a.tmod b := by omega
    constructor <;> linarith [mul_comm b (a.tdiv b), sub_mul (a.tdiv b) 1 b,
      add_mul (a.tdiv b - 1) 1 b]
  · simp only [hb, decide_true, ne_eq, decide_eq_true_eq, not_lt, not_and, not_le] at h
    have hnonpos : a.tmod b ≤ 0 := by
      by_contra hr
      linarith [h (by omega)]
    constructor <;> linarith [mul_comm b (a.tdiv b), add_mul (a.tdiv b) 1 b]

lemma le_floorDiv_of_pos {a b v : ℤ} (hb : 0 < b) : v ≤ floorDiv a b ↔ v * b ≤ a := by
  obtain ⟨hle, hlt⟩ := floorDiv_pos (a := a) hb
  constructor
  · intro h
    exact (mul_le_mul_of_nonneg_right h hb.le).trans hle
  · intro h
    exact Int.lt_add_one_iff.mp (lt_of_mul_lt_mul_right (h.trans_lt hlt) hb.le)

lemma le_floorDiv_of_neg {a b v : ℤ} (hb : b < 0) : v ≤ floorDiv a b ↔ a ≤ v * b := by
  obtain ⟨hle, hlt⟩ := floorDiv_neg (a := a) hb
  constructor
  · intro h
    exact hle.trans (mul_le_mul_of_nonpos_right h hb.le)
  · intro h
    by_contra hv
    have hv : floorDiv a b + 1 ≤ v := by omega
    exact absurd (h.trans (mul_le_mul_of_nonpos_right hv hb.le)) (not_le.mpr hlt)

lemma ceilDiv_le_of_pos {a b v : ℤ} (hb : 0 < b) : ceilDiv a b ≤ v ↔ a ≤ v * b := by
  rw [ceilDiv, neg_le, le_floorDiv_of_pos hb, neg_mul, neg_le_neg_iff]

lemma ceilDiv_le_of_neg {a b v : ℤ} (hb : b < 0) : ceilDiv a b ≤ v ↔ v * b ≤ a := by
  rw [ceilDiv, neg_le, le_floorDiv_of_neg hb, neg_mul, neg_le_neg_iff]

/-! ### Windows -/

/-- One of the integers `lo, …, hi` is the residue `x`. -/
def Window (p : ℕ) (lo hi : ℤ) (x : ZMod p) : Prop := ∃ z : ℤ, lo ≤ z ∧ z ≤ hi ∧ (z : ZMod p) = x

/-- Is the representative of `x` that follows `lo` at most `hi`? -/
def contains (p : ℕ) (lo hi : ℤ) (x : ZMod p) : Bool := lo + wrap p (x.val - lo) ≤ hi

lemma Window.mono {p : ℕ} {lo hi lo' hi' : ℤ} {x : ZMod p} (h : Window p lo hi x)
    (hlo : lo' ≤ lo) (hhi : hi ≤ hi') : Window p lo' hi' x := by
  obtain ⟨z, hz, hz', hx⟩ := h
  exact ⟨z, hlo.trans hz, hz'.trans hhi, hx⟩

/-- Negation mirrors a window. -/
lemma Window.neg {p : ℕ} {lo hi : ℤ} {x : ZMod p} (h : Window p lo hi x) :
    Window p (-hi) (-lo) (-x) := by
  obtain ⟨z, hlo, hhi, hx⟩ := h
  exact ⟨-z, by omega, by omega, by rw [Int.cast_neg, hx]⟩

/-- A window of one integer. -/
lemma window_self {p : ℕ} {z : ℤ} {x : ZMod p} : Window p z z x ↔ x = z := by
  constructor
  · rintro ⟨w, hle, hge, rfl⟩
    rw [le_antisymm hge hle]
  · rintro rfl
    exact ⟨z, le_rfl, le_rfl, rfl⟩

/-- Two integers of one residue that are less than `p` apart are equal. -/
lemma eq_of_cast_eq {p : ℕ} {z w : ℤ} (h : (z : ZMod p) = w) (hlt : z - w < p) (hgt : w - z < p) :
    z = w := by
  obtain ⟨k, hk⟩ := (ZMod.intCast_eq_intCast_iff_dvd_sub z w p).mp h
  have hk0 : k = 0 := by nlinarith
  rw [hk0, mul_zero] at hk
  omega

section Contains

variable {p : ℕ} [NeZero p]

omit [NeZero p] in
lemma cast_eq_add_mul {z w : ℤ} (h : (z : ZMod p) = w) : ∃ k : ℤ, z = w + p * k := by
  obtain ⟨k, hk⟩ := (ZMod.intCast_eq_intCast_iff_dvd_sub w z p).mp h.symm
  exact ⟨k, by omega⟩

lemma contains_iff {lo hi : ℤ} {x : ZMod p} : contains p lo hi x = true ↔ Window p lo hi x := by
  have hp : 0 < p := Nat.pos_of_ne_zero (NeZero.ne p)
  have hval : ((lo + wrap p (x.val - lo) : ℤ) : ZMod p) = x := by
    push_cast [cast_wrap hp]
    rw [ZMod.natCast_val, ZMod.cast_id', id_eq]
    ring
  rw [contains, decide_eq_true_iff]
  constructor
  · intro h
    exact ⟨_, by linarith [wrap_nonneg hp (x.val - lo)], h, hval⟩
  · rintro ⟨z, hlo, hhi, hz⟩
    obtain ⟨k, hk⟩ := cast_eq_add_mul (z := z) (hz.trans hval.symm)
    -- `z` is at least `lo`, so it does not come before the first representative
    have hk0 : 0 ≤ k := by
      by_contra hneg
      have : (p : ℤ) * k ≤ -p := by nlinarith
      linarith [wrap_lt hp (x.val - lo)]
    have : 0 ≤ (p : ℤ) * k := by positivity
    linarith

end Contains

/-! ### Intersections -/

/-- How two windows meet. -/
inductive Meet
  /-- Not at all. -/
  | apart
  /-- In one window. -/
  | one (lo hi : ℤ)
  /-- In two pieces. -/
  | pieces
deriving DecidableEq

/-- Add the piece `[l, h]`, if it is one. -/
def Meet.add (best : Meet) (l h : ℤ) : Meet :=
  if l ≤ h then
    match best with
    | .apart => .one l h
    | _ => .pieces
  else best

/-- The part of `[a, b]` whose residues `[lo, hi]` has: `[lo, hi]` is moved next to `a`, and its
neighbours are tried too. -/
def meet (p : ℕ) (a b lo hi : ℤ) : Meet :=
  let shift := floorDiv (a - lo) p * p
  let lo2 := lo + shift
  let hi2 := hi + shift
  ([-1, 0, 1] : List ℤ).foldl (fun best k => best.add (max (lo2 + p * k) a) (min (hi2 + p * k) b))
    .apart

example : meet 7 3 5 11 14 = .one 4 5 := by decide

lemma Meet.add_cases (best : Meet) (l h : ℤ) :
    (¬ l ≤ h ∧ best.add l h = best) ∨ (l ≤ h ∧ best = .apart ∧ best.add l h = .one l h) ∨
      (l ≤ h ∧ best ≠ .apart ∧ best.add l h = .pieces) := by
  unfold Meet.add
  by_cases hlh : l ≤ h
  · cases best <;> simp [hlh]
  · exact Or.inl ⟨hlh, by rw [if_neg hlh]⟩

/-- Pieces added up: nothing was added, or there is one piece, or more than one. -/
lemma foldl_add (f : ℤ → ℤ × ℤ) (ks : List ℤ) :
    match ks.foldl (fun best k => best.add (f k).1 (f k).2) Meet.apart with
    | .apart => ∀ k ∈ ks, ¬ (f k).1 ≤ (f k).2
    | .one l h => l ≤ h ∧ (∃ k ∈ ks, f k = (l, h)) ∧
        ∀ k ∈ ks, (f k).1 ≤ (f k).2 → f k = (l, h)
    | .pieces => True := by
  induction ks using List.reverseRecOn with
  | nil => simp
  | append_singleton ks k ih =>
      rw [List.foldl_append, List.foldl_cons, List.foldl_nil]
      generalize ks.foldl (fun best k => best.add (f k).1 (f k).2) Meet.apart = best at ih
      rcases best.add_cases (f k).1 (f k).2 with ⟨hk, h⟩ | ⟨hk, rfl, h⟩ | ⟨hk, hb, h⟩
      · rw [h]
        cases best with
        | apart =>
            intro k' hk'
            rcases List.mem_append.mp hk' with hk' | hk'
            · exact ih k' hk'
            · rwa [List.mem_singleton.mp hk']
        | one l h =>
            obtain ⟨hlh, ⟨k₀, hk₀, hf⟩, hall⟩ := ih
            refine ⟨hlh, ⟨k₀, List.mem_append_left _ hk₀, hf⟩, fun k' hk' hle => ?_⟩
            rcases List.mem_append.mp hk' with hk' | hk'
            · exact hall k' hk' hle
            · exact absurd (List.mem_singleton.mp hk' ▸ hle) hk
        | pieces => trivial
      · rw [h]
        refine ⟨hk, ⟨k, by simp, rfl⟩, fun k' hk' hle => ?_⟩
        rcases List.mem_append.mp hk' with hk' | hk'
        · exact absurd hle (ih k' hk')
        · rw [List.mem_singleton.mp hk']
      · rw [h]
        trivial

section Meet

variable {p : ℕ} [NeZero p] {a b lo hi : ℤ}

/-- A residue of both windows lies in one of the pieces. -/
lemma exists_piece (hab : b - a < p) (hlh : hi - lo < p) {x : ZMod p} (hx : Window p a b x)
    (hx' : Window p lo hi x) :
    ∃ k ∈ ([-1, 0, 1] : List ℤ), ∃ z : ℤ, (z : ZMod p) = x ∧
      max (lo + floorDiv (a - lo) p * p + p * k) a ≤ z ∧
      z ≤ min (hi + floorDiv (a - lo) p * p + p * k) b := by
  have hp : (0 : ℤ) < p := by exact_mod_cast Nat.pos_of_ne_zero (NeZero.ne p)
  obtain ⟨z, hza, hzb, rfl⟩ := hx
  obtain ⟨w, hwl, hwh, hw⟩ := hx'
  obtain ⟨hle, hlt⟩ := floorDiv_pos (a := a - lo) hp
  obtain ⟨k, hk⟩ := cast_eq_add_mul (z := z) (w := w + floorDiv (a - lo) p * p)
    (by push_cast; rw [hw, ZMod.natCast_self]; ring)
  rw [add_mul, one_mul] at hlt
  -- both windows are narrower than `p`, so the moved one is at most one period off
  have hk1 : k < 2 := by
    by_contra hge
    have : (p : ℤ) * 2 ≤ p * k := by nlinarith
    linarith
  have hk2 : -1 < k := by
    by_contra hle
    have : (p : ℤ) * k ≤ -p := by nlinarith
    linarith
  refine ⟨k, ?_, z, rfl, max_le (by linarith) hza, le_min (by linarith) hzb⟩
  have : k = 0 ∨ k = 1 := by omega
  rcases this with rfl | rfl <;> simp

/-- Windows with a common residue meet. -/
lemma meet_ne_apart (hab : b - a < p) (hlh : hi - lo < p) {x : ZMod p} (hx : Window p a b x)
    (hx' : Window p lo hi x) : meet p a b lo hi ≠ .apart := by
  intro h
  obtain ⟨k, hk, z, -, hz, hz'⟩ := exists_piece hab hlh hx hx'
  have hall := foldl_add (fun k => (max (lo + floorDiv (a - lo) p * p + p * k) a,
    min (hi + floorDiv (a - lo) p * p + p * k) b)) [-1, 0, 1]
  rw [meet] at h
  rw [h] at hall
  exact hall k hk (hz.trans hz')

/-- Where the windows meet in one piece, it has every common residue. -/
lemma window_of_meet_eq_one (hab : b - a < p) (hlh : hi - lo < p) {l h : ℤ}
    (hm : meet p a b lo hi = .one l h) {x : ZMod p} (hx : Window p a b x)
    (hx' : Window p lo hi x) : Window p l h x := by
  obtain ⟨k, hk, z, hzx, hz, hz'⟩ := exists_piece hab hlh hx hx'
  have hall := foldl_add (fun k => (max (lo + floorDiv (a - lo) p * p + p * k) a,
    min (hi + floorDiv (a - lo) p * p + p * k) b)) [-1, 0, 1]
  rw [meet] at hm
  rw [hm] at hall
  have hpiece := hall.2.2 k hk (hz.trans hz')
  rw [Prod.mk.injEq] at hpiece
  exact ⟨z, hpiece.1 ▸ hz, hpiece.2 ▸ hz', hzx⟩

omit [NeZero p] in
/-- The piece is part of the first window. -/
lemma meet_one_le {l h : ℤ} (hm : meet p a b lo hi = .one l h) : a ≤ l ∧ h ≤ b ∧ l ≤ h := by
  have hall := foldl_add (fun k => (max (lo + floorDiv (a - lo) p * p + p * k) a,
    min (hi + floorDiv (a - lo) p * p + p * k) b)) [-1, 0, 1]
  rw [meet] at hm
  rw [hm] at hall
  obtain ⟨hlh, ⟨k, -, hk⟩, -⟩ := hall
  rw [Prod.mk.injEq] at hk
  exact ⟨hk.1 ▸ le_max_right _ _, hk.2 ▸ min_le_right _ _, hlh⟩

/-- A part of a window narrower than `p` meets it in itself. -/
lemma meet_of_le (hab : b - a < p) (hlo : a ≤ lo) (hle : lo ≤ hi) (hhi : hi ≤ b) :
    meet p a b lo hi = .one lo hi := by
  have hp : (0 : ℤ) < p := by exact_mod_cast Nat.pos_of_ne_zero (NeZero.ne p)
  obtain ⟨hfloor, hfloor'⟩ := floorDiv_pos (a := a - lo) hp
  have hshift : floorDiv (a - lo) p = 0 ∧ a = lo ∨ floorDiv (a - lo) p = -1 := by
    have h0 : floorDiv (a - lo) p < 1 := by nlinarith
    have h1 : -2 < floorDiv (a - lo) p := by nlinarith
    rcases (by omega : floorDiv (a - lo) p = 0 ∨ floorDiv (a - lo) p = -1) with h | h
    · exact Or.inl ⟨h, by rw [h] at hfloor; omega⟩
    · exact Or.inr h
  -- only the copy that is the window itself reaches into `[a, b]`
  have hpiece : ∀ best : Meet, ∀ l h : ℤ, l = lo → h = hi →
      best.add (max l a) (min h b) = best.add lo hi := by
    rintro best l h rfl rfl
    rw [max_eq_left hlo, min_eq_left hhi]
  have hout : ∀ best : Meet, ∀ l h : ℤ, h < a ∨ b < l → best.add (max l a) (min h b) = best := by
    intro best l h hout
    unfold Meet.add
    rw [if_neg]
    omega
  have hone : Meet.apart.add lo hi = .one lo hi := by
    unfold Meet.add
    rw [if_pos hle]
  simp only [meet, List.foldl_cons, List.foldl_nil]
  rcases hshift with ⟨h, hal⟩ | h
  · have hbefore := hout .apart (lo + 0 * p + p * -1) (hi + 0 * p + p * -1) (by omega)
    have hself := hpiece .apart (lo + 0 * p + p * 0) (hi + 0 * p + p * 0) (by omega) (by omega)
    have hafter := hout (.one lo hi) (lo + 0 * p + p * 1) (hi + 0 * p + p * 1) (by omega)
    rw [h, hbefore, hself, hone, hafter]
  · have hfirst := hout .apart (lo + -1 * p + p * -1) (hi + -1 * p + p * -1) (by omega)
    have hbefore := hout .apart (lo + -1 * p + p * 0) (hi + -1 * p + p * 0) (by omega)
    have hself := hpiece .apart (lo + -1 * p + p * 1) (hi + -1 * p + p * 1) (by omega) (by omega)
    rw [h, hfirst, hbefore, hself, hone]

end Meet
