import XarkCircuit.Search.Process
import XarkCircuit.Search.Moves
import Mathlib.Algebra.Order.BigOperators.Group.List

/-!
What `linear` and `intervals` conclude.

* `Facts.Unknown v`: the variable has neither a value nor an alias.
* `terms_bounds`: integers whose sum is known are bounded by the sum and each other's ranges.
* `intervals_spec` and `linear_spec`: both only conclude what follows from the linear relation.
-/

namespace XarkCircuit.Search

variable {p n m : ℕ} {rows : Fin m → Row p n} {fuel : ℕ}

/-- A variable that has neither a value nor an alias. -/
def Facts.Unknown (f : Facts p n) (v : Fin n) : Prop :=
  f.aliasOf v = none ∧ ∀ x, f.dom v ≠ .val x

section Field

variable [Fact p.Prime]

lemma inverse_eq_some {c i : ZMod p} (h : inverse c = some i) : c ≠ 0 ∧ i = c⁻¹ := by
  rw [inverse] at h
  split_ifs at h with hc
  exact ⟨hc, (Option.some.inj h).symm⟩

lemma small_eq_some {c : ZMod p} {z : ℤ} (h : small c = some z) : (z : ZMod p) = c := by
  simp only [small] at h
  split_ifs at h with h₁ h₂
  · obtain rfl := Option.some.inj h
    push_cast
    rw [ZMod.natCast_self, sub_zero, ZMod.natCast_val, ZMod.cast_id', id_eq]
  · obtain rfl := Option.some.inj h
    rw [Int.cast_natCast, ZMod.natCast_val, ZMod.cast_id', id_eq]

/-! ### Sums of bounded terms -/

/-- Terms between their bounds: what one of them is over its lower bound, the sum is at least. -/
lemma sub_le_sum {α : Type*} (f g : α → ℤ) {l : List α} (h : ∀ a ∈ l, g a ≤ f a) {a : α}
    (ha : a ∈ l) : f a - g a ≤ (l.map f).sum - (l.map g).sum := by
  induction l with
  | nil => exact absurd ha List.not_mem_nil
  | cons b l ih =>
      have hle : (l.map g).sum ≤ (l.map f).sum :=
        List.sum_le_sum fun c hc => h c (List.mem_cons_of_mem _ hc)
      have hb := h b List.mem_cons_self
      rw [List.map_cons, List.map_cons, List.sum_cons, List.sum_cons]
      rcases List.mem_cons.mp ha with rfl | ha
      · linarith
      · linarith [ih (fun c hc => h c (List.mem_cons_of_mem _ hc)) ha]

/-- The integer that stands for `x v` in the window of `v`. -/
lemma exists_reps {st : State p n m} {x : Fin n → ZMod p} (hx : st.Respects x) :
    ∃ ζ : Fin n → ℤ, ∀ v lo hi, st.dom v = .range lo hi →
      lo ≤ ζ v ∧ ζ v ≤ hi ∧ (ζ v : ZMod p) = x v := by
  have hrep : ∀ v, ∃ z : ℤ, ∀ lo hi, st.dom v = .range lo hi →
      lo ≤ z ∧ z ≤ hi ∧ (z : ZMod p) = x v := by
    intro v
    cases hdom : st.dom v with
    | range a b =>
        have hmem := hx.dom v
        rw [hdom] at hmem
        obtain ⟨z, hlo, hhi, hz⟩ := hmem
        exact ⟨z, fun lo hi h => by obtain ⟨rfl, rfl⟩ := Dom.range.inj h; exact ⟨hlo, hhi, hz⟩⟩
    | val y => exact ⟨0, fun lo hi h => absurd h (by simp)⟩
    | free => exact ⟨0, fun lo hi h => absurd h (by simp)⟩
  exact ⟨fun v => (hrep v).choose, fun v => (hrep v).choose_spec⟩

omit [Fact p.Prime] in
/-- What is in the window of its variable is in the range of the term. -/
lemma termRange_spec {st : State p n m} {e : Fin n × ℤ} {b : ℤ × ℤ}
    (h : termRange st e = .ok b) :
    ∃ lo hi, st.dom e.1 = .range lo hi ∧
      ∀ z, lo ≤ z → z ≤ hi → b.1 ≤ e.2 * z ∧ e.2 * z ≤ b.2 := by
  unfold termRange at h
  cases hdom : st.dom e.1 with
  | val y => rw [hdom] at h; exact absurd h (by simp)
  | free => rw [hdom] at h; exact absurd h (by simp)
  | range lo hi =>
      rw [hdom] at h
      obtain rfl := Except.ok.inj h
      refine ⟨lo, hi, rfl, fun z hlo hhi => ?_⟩
      rcases le_total 0 e.2 with hc | hc
      · have h₁ := mul_le_mul_of_nonneg_left hlo hc
        have h₂ := mul_le_mul_of_nonneg_left hhi hc
        rw [if_pos (h₁.trans h₂)]
        exact ⟨h₁, h₂⟩
      · have h₁ := mul_le_mul_of_nonpos_left hlo hc
        have h₂ := mul_le_mul_of_nonpos_left hhi hc
        split_ifs with hle
        · have heq : e.2 * lo = e.2 * hi := le_antisymm hle (h₂.trans h₁)
          exact ⟨heq ▸ h₂, heq ▸ h₁⟩
        · exact ⟨h₂, h₁⟩

omit [Fact p.Prime] in
lemma quotients_spec {lo hi c z : ℤ} (hc : c ≠ 0) :
    (quotients lo hi c).1 ≤ z ∧ z ≤ (quotients lo hi c).2 ↔ lo ≤ c * z ∧ c * z ≤ hi := by
  rw [quotients, mul_comm c z]
  split_ifs with hpos
  · rw [ceilDiv_le_of_pos hpos, le_floorDiv_of_pos hpos]
  · have hneg : c < 0 := by omega
    rw [ceilDiv_le_of_neg hneg, le_floorDiv_of_neg hneg, and_comm]

/-! ### `intervals` -/

/-- The conclusion about one term: it is what the sum leaves over. -/
def TermBound (sumLo sumHi mn mx : ℤ) (st : State p n m) (x : Fin n → ZMod p)
    (e : (Fin n × ℤ) × (ℤ × ℤ)) : Prop :=
  ∀ a b, st.dom e.1.1 = .range a b → ∃ z : ℤ, a ≤ z ∧ z ≤ b ∧ (z : ZMod p) = x e.1.1 ∧
    sumLo - (mx - e.2.2) ≤ e.1.2 * z ∧ e.1.2 * z ≤ sumHi - (mn - e.2.1)

/-- Bounding the terms one after the other only concludes from the bounds of each. -/
lemma boundTerms_spec {sumLo sumHi mn mx : ℤ} {P : (Fin n → ZMod p) → Prop}
    {st : State p n m} {es : List ((Fin n × ℤ) × (ℤ × ℤ))} {r : State p n m × Bool}
    (hok : st.Ok) (hal : ∀ e ∈ es, st.aliasOf e.1.1 = none)
    (hnodup : (es.map fun e => e.1.1).Nodup)
    (hP : ∀ x, st.Respects x → P x → ∀ e ∈ es, TermBound sumLo sumHi mn mx st x e)
    (h : boundTerms rows fuel sumLo sumHi mn mx st es = .ok r) : Deduces rows st P r := by
  induction es generalizing st with
  | nil =>
      obtain rfl := Except.ok.inj h
      exact .pass hok
  | cons e es ih =>
      obtain ⟨⟨v, c⟩, b0, b1⟩ := e
      obtain ⟨hv, hes⟩ := List.nodup_cons.mp hnodup
      have halv : st.aliasOf v = none := hal _ List.mem_cons_self
      have hrest : ∀ x, st.Respects x → P x → ∀ e ∈ es, TermBound sumLo sumHi mn mx st x e :=
        fun x hx hPx e he => hP x hx hPx e (List.mem_cons_of_mem _ he)
      rw [boundTerms] at h
      dsimp only at h
      split_ifs at h with hc
      cases hdom : st.dom v with
      | val y => rw [hdom] at h; exact absurd h (by simp)
      | free => rw [hdom] at h; exact absurd h (by simp)
      | range a b =>
          rw [hdom] at h
          dsimp only at h
          generalize hq : quotients (sumLo - (mx - b1)) (sumHi - (mn - b0)) c = q at h
          -- the integer of `v` is between the quotients and in the window of `v`
          have hwin : ∀ x, st.Respects x → P x → Window p (max q.1 a) (min q.2 b) (x v) := by
            intro x hx hPx
            obtain ⟨z, hza, hzb, hzx, hlo, hhi⟩ := hP x hx hPx _ List.mem_cons_self a b hdom
            have hz := (quotients_spec hc).mpr ⟨hlo, hhi⟩
            rw [hq] at hz
            exact ⟨z, max_le hz.1 hza, le_min hz.2 hzb, hzx⟩
          have hab := hok.range v a b hdom
          split_ifs at h with hempty hshrink
          · obtain rfl := Except.ok.inj h
            refine .fail hok fun x hx hPx => ?_
            obtain ⟨z, hlo, hhi, -⟩ := hwin x hx hPx
            omega
          · obtain ⟨⟨st', ok⟩, hnarrow, h⟩ := Outcome.bind_eq_ok.mp h
            have hlt : min q.2 b - max q.1 a < p := by
              have := min_le_right q.2 b
              have := le_max_right q.1 a
              omega
            obtain ⟨hded, hframe⟩ := narrow_spec hok halv hlt hnarrow
            have hded' := hded.mono hwin
            cases ok with
            | false =>
                obtain rfl := Except.ok.inj h
                exact hded'
            | true =>
                refine hded'.andThen (ih hded.advance.ok (fun e he => ?_) hes ?_ h)
                · rw [hframe.1]
                  exact hal e (List.mem_cons_of_mem _ he)
                · intro x hx hPx e he a' b' hdom'
                  have hne : e.1.1 ≠ v := fun h => hv (List.mem_map.mpr ⟨e, he, h⟩)
                  have hsame := hframe.2 e.1.1 hne (hal e (List.mem_cons_of_mem _ he))
                  exact hrest x (hded.advance.refines x hx) hPx e he a' b' (hsame ▸ hdom')
          · exact ih hok (fun e he => hal e (List.mem_cons_of_mem _ he)) hes hrest h

/-- Small coefficients are the coefficients. -/
lemma mapM_small {lin : List (Fin n × ZMod p)} {terms : List (Fin n × ℤ)}
    (h : (lin.mapM fun e => (small e.2).map (e.1, ·)) = some terms) :
    terms.map Prod.fst = lin.map Prod.fst ∧ ∀ x : Fin n → ZMod p,
      SparseForm.evalEntries lin x = (terms.map fun e => (e.2 : ZMod p) * x e.1).sum := by
  induction lin generalizing terms with
  | nil =>
      obtain rfl := Option.some.inj h
      exact ⟨rfl, fun _ => rfl⟩
  | cons e lin ih =>
      rw [List.mapM_cons] at h
      obtain ⟨e', he', h⟩ := Option.bind_eq_some_iff.mp h
      obtain ⟨terms', hterms', h⟩ := Option.bind_eq_some_iff.mp h
      obtain rfl := Option.some.inj h
      obtain ⟨z, hz, rfl⟩ := Option.map_eq_some_iff.mp he'
      obtain ⟨hkeys, hsum⟩ := ih hterms'
      refine ⟨by rw [List.map_cons, List.map_cons, hkeys], fun x => ?_⟩
      rw [SparseForm.evalEntries_cons, List.map_cons, List.sum_cons, hsum, small_eq_some hz]

omit [Fact p.Prime] in
/-- The bounds found for terms whose variables are represented by `ζ`. -/
lemma sumRange_spec {st : State p n m} {terms : List (Fin n × ℤ)} {bounds : List (ℤ × ℤ)}
    {mn mx : ℤ} (h : sumRange st terms = .ok (bounds, mn, mx)) :
    (terms.zip bounds).map Prod.fst = terms ∧ (∀ e ∈ terms, ∃ lo hi, st.dom e.1 = .range lo hi) ∧
      ∀ ζ : Fin n → ℤ, (∀ v lo hi, st.dom v = .range lo hi → lo ≤ ζ v ∧ ζ v ≤ hi) →
        let S := (terms.map fun e => e.2 * ζ e.1).sum
        mn ≤ S ∧ S ≤ mx ∧ ∀ e ∈ terms.zip bounds,
          e.1.2 * ζ e.1.1 - e.2.1 ≤ S - mn ∧ e.2.2 - e.1.2 * ζ e.1.1 ≤ mx - S := by
  obtain ⟨bounds', hbounds, h⟩ := Outcome.bind_eq_ok.mp h
  rw [Outcome.pure_eq_ok, Except.ok.injEq, Prod.mk.injEq, Prod.mk.injEq] at h
  obtain ⟨rfl, rfl, rfl⟩ := h
  obtain ⟨hlen, hzip⟩ : bounds'.length = terms.length ∧
      ∀ e ∈ terms.zip bounds', termRange st e.1 = .ok e.2 := by
    clear * - hbounds
    induction terms generalizing bounds' with
    | nil =>
        obtain rfl := Except.ok.inj hbounds
        exact ⟨rfl, by simp⟩
    | cons t terms ih =>
        rw [List.mapM_cons] at hbounds
        obtain ⟨b, hb, hbounds⟩ := Outcome.bind_eq_ok.mp hbounds
        obtain ⟨bs, hbs, hbounds⟩ := Outcome.bind_eq_ok.mp hbounds
        obtain rfl := Except.ok.inj hbounds
        obtain ⟨hlen, hall⟩ := ih bs hbs
        refine ⟨by rw [List.length_cons, List.length_cons, hlen], fun e he => ?_⟩
        rcases List.mem_cons.mp he with rfl | he
        · exact hb
        · exact hall e he
  have hfst : (terms.zip bounds').map Prod.fst = terms := List.map_fst_zip hlen.ge
  have hsnd : (terms.zip bounds').map Prod.snd = bounds' := List.map_snd_zip hlen.le
  refine ⟨hfst, fun e he => ?_, fun ζ hζ => ?_⟩
  · rw [← hfst] at he
    obtain ⟨q, hq, rfl⟩ := List.mem_map.mp he
    obtain ⟨lo, hi, hdom, -⟩ := termRange_spec (hzip q hq)
    exact ⟨lo, hi, hdom⟩
  · have hterm : ∀ e ∈ terms.zip bounds', e.2.1 ≤ e.1.2 * ζ e.1.1 ∧ e.1.2 * ζ e.1.1 ≤ e.2.2 := by
      intro e he
      obtain ⟨lo, hi, hdom, hb⟩ := termRange_spec (hzip e he)
      exact hb _ (hζ _ lo hi hdom).1 (hζ _ lo hi hdom).2
    have hS : (terms.map fun e => e.2 * ζ e.1).sum
        = ((terms.zip bounds').map fun e => e.1.2 * ζ e.1.1).sum := by
      conv_lhs => rw [← hfst, List.map_map]
      rfl
    have hmn : (bounds'.map Prod.fst).sum = ((terms.zip bounds').map fun e => e.2.1).sum := by
      conv_lhs => rw [← hsnd, List.map_map]
      rfl
    have hmx : (bounds'.map Prod.snd).sum = ((terms.zip bounds').map fun e => e.2.2).sum := by
      conv_lhs => rw [← hsnd, List.map_map]
      rfl
    dsimp only
    rw [hS, hmn, hmx]
    refine ⟨List.sum_le_sum fun e he => (hterm e he).1, List.sum_le_sum fun e he => (hterm e he).2,
      fun e he => ⟨?_, ?_⟩⟩
    · exact sub_le_sum (fun e : (Fin n × ℤ) × (ℤ × ℤ) => e.1.2 * ζ e.1.1) (fun e => e.2.1)
        (fun e he => (hterm e he).1) he
    · exact sub_le_sum (fun e : (Fin n × ℤ) × (ℤ × ℤ) => e.2.2) (fun e => e.1.2 * ζ e.1.1)
        (fun e he => (hterm e he).2) he

/-- The integer sum of the representatives is the sum in the field. -/
lemma cast_sum {st : State p n m} {x : Fin n → ZMod p} {ζ : Fin n → ℤ}
    (hζ : ∀ v lo hi, st.dom v = .range lo hi → lo ≤ ζ v ∧ ζ v ≤ hi ∧ (ζ v : ZMod p) = x v)
    {terms : List (Fin n × ℤ)} (h : ∀ e ∈ terms, ∃ lo hi, st.dom e.1 = .range lo hi) :
    (((terms.map fun e => e.2 * ζ e.1).sum : ℤ) : ZMod p)
      = (terms.map fun e => (e.2 : ZMod p) * x e.1).sum := by
  induction terms with
  | nil => simp
  | cons e terms ih =>
      obtain ⟨lo, hi, hdom⟩ := h e List.mem_cons_self
      rw [List.map_cons, List.sum_cons, Int.cast_add, Int.cast_mul, (hζ _ lo hi hdom).2.2,
        ih fun e he => h e (List.mem_cons_of_mem _ he), List.map_cons, List.sum_cons]

/-- The terms add up to one of `t, …, t + w` under `x`. -/
def Within (terms : List (Fin n × ℤ)) (t : ℤ) (w : ℕ) (x : Fin n → ZMod p) : Prop :=
  ∃ j : ℕ, j ≤ w ∧ (terms.map fun e => (e.2 : ZMod p) * x e.1).sum = t + j

/-- `boundAll` only concludes what follows from the sum. -/
lemma boundAll_spec {st : State p n m} {terms : List (Fin n × ℤ)} {t : ℤ} {w : ℕ}
    {r : State p n m × Bool} (hok : st.Ok) (hal : ∀ e ∈ terms, st.aliasOf e.1 = none)
    (hnodup : (terms.map Prod.fst).Nodup) (h : boundAll rows fuel st terms t w = .ok r) :
    Deduces rows st (Within terms t w) r := by
  have hp : 0 < p := Nat.pos_of_ne_zero (NeZero.ne p)
  obtain ⟨⟨bounds, mn, mx⟩, hsum, h⟩ := Outcome.bind_eq_ok.mp h
  obtain ⟨hfst, hdom, hbounds⟩ := sumRange_spec hsum
  dsimp only at h
  split_ifs at h with hwide hempty
  · obtain rfl := Except.ok.inj h
    exact .pass hok
  all_goals
    generalize hu : mn - w + wrap p (t - (mn - w)) = u at h hempty
    have hlow : mn - w ≤ u := by linarith [wrap_nonneg hp (t - (mn - w))]
    have hhigh : u < mn - w + p := by linarith [wrap_lt hp (t - (mn - w))]
    have hcast : (u : ZMod p) = t := by
      rw [← hu, Int.cast_add, cast_wrap hp]
      push_cast
      ring
    -- the integer sum is one of `u, …, u + w`, as no other integer near it has its residue
    have hS : ∀ x, st.Respects x → Within terms t w x → ∃ ζ : Fin n → ℤ,
        (∀ v lo hi, st.dom v = .range lo hi → lo ≤ ζ v ∧ ζ v ≤ hi ∧ (ζ v : ZMod p) = x v) ∧
        max u mn ≤ (terms.map fun e => e.2 * ζ e.1).sum ∧
        (terms.map fun e => e.2 * ζ e.1).sum ≤ min (u + w) mx := by
      rintro x hx ⟨j, hj, hxj⟩
      obtain ⟨ζ, hζ⟩ := exists_reps hx
      obtain ⟨hmn, hmx, -⟩ := hbounds ζ fun v lo hi h => ⟨(hζ v lo hi h).1, (hζ v lo hi h).2.1⟩
      have hSu : (terms.map fun e => e.2 * ζ e.1).sum - j = u := by
        refine eq_of_cast_eq (p := p) ?_ (by omega) (by omega)
        rw [Int.cast_sub, cast_sum hζ hdom, hxj, hcast, Int.cast_natCast, add_sub_cancel_right]
      exact ⟨ζ, hζ, max_le (by omega) hmn, le_min (by omega) hmx⟩
  · obtain rfl := Except.ok.inj h
    refine .fail hok fun x hx hP => ?_
    obtain ⟨ζ, -, hlo, hhi⟩ := hS x hx hP
    exact absurd (hlo.trans hhi) (not_le.mpr hempty)
  · refine boundTerms_spec hok (fun e he => hal _ ?_) ?_ (fun x hx hP e he a b hab => ?_) h
    · rw [← hfst]
      exact List.mem_map_of_mem he
    · rw [← hfst, List.map_map] at hnodup
      exact hnodup
    · obtain ⟨ζ, hζ, hlo, hhi⟩ := hS x hx hP
      obtain ⟨-, -, hterm⟩ := hbounds ζ fun v lo hi h => ⟨(hζ v lo hi h).1, (hζ v lo hi h).2.1⟩
      obtain ⟨ha, hb, hz⟩ := hζ _ a b hab
      exact ⟨ζ e.1.1, ha, hb, hz, by linarith [(hterm e he).2], by linarith [(hterm e he).1]⟩

/-- `boundFree` only concludes what follows from the sum. -/
lemma boundFree_spec {st : State p n m} {others : List (Fin n × ℤ)} {v : Fin n} {c t : ℤ} {w : ℕ}
    {r : State p n m × Bool} (hok : st.Ok) (hal : st.aliasOf v = none) (hc : c.natAbs = 1)
    (h : boundFree rows fuel st others v c t w = .ok r) :
    Deduces rows st (Within ((v, c) :: others) t w) r := by
  obtain ⟨⟨bounds, mn, mx⟩, hsum, h⟩ := Outcome.bind_eq_ok.mp h
  obtain ⟨-, hdom, hbounds⟩ := sumRange_spec hsum
  dsimp only at h
  -- `c · v` is what the others leave over
  have hcv : ∀ x, st.Respects x → Within ((v, c) :: others) t w x →
      Window p (t - mx) (t + w - mn) ((c : ZMod p) * x v) := by
    rintro x hx ⟨j, hj, hxj⟩
    obtain ⟨ζ, hζ⟩ := exists_reps hx
    obtain ⟨hmn, hmx, -⟩ := hbounds ζ fun v lo hi h => ⟨(hζ v lo hi h).1, (hζ v lo hi h).2.1⟩
    refine ⟨t + j - (others.map fun e => e.2 * ζ e.1).sum, by omega, by omega, ?_⟩
    rw [Int.cast_sub, cast_sum hζ hdom, Int.cast_add, Int.cast_natCast, ← hxj, List.map_cons,
      List.sum_cons, add_sub_cancel_right]
  split_ifs at h with hwide hpos
  · obtain rfl := Except.ok.inj h
    exact .pass hok
  · refine (narrow_spec hok hal (by omega) h).1.mono fun x hx hP => ?_
    have hone : c = 1 := by omega
    simpa [hone] using hcv x hx hP
  · refine (narrow_spec hok hal (by omega) h).1.mono fun x hx hP => ?_
    have hone : c = -1 := by omega
    simpa [hone] using (hcv x hx hP).neg

/-- `lin + konst` is one of `0, …, w` under `x`. -/
def WithinEntries (lin : List (Fin n × ZMod p)) (konst : ZMod p) (w : ℕ) (x : Fin n → ZMod p) :
    Prop := ∃ j : ℕ, j ≤ w ∧ SparseForm.evalEntries lin x + konst = j

/-- **`intervals`** only concludes what follows from its relation. -/
theorem intervals_spec {st : State p n m} {lin : List (Fin n × ZMod p)} {konst : ZMod p} {w : ℕ}
    {r : State p n m × Bool} (hok : st.Ok) (hun : ∀ e ∈ lin, st.Unknown e.1)
    (hnodup : (lin.map Prod.fst).Nodup) (h : intervals rows fuel st lin konst w = .ok r) :
    Deduces rows st (WithinEntries lin konst w) r := by
  unfold intervals at h
  cases hsmall : lin.mapM fun e => (small e.2).map (e.1, ·) with
  | none =>
      rw [hsmall] at h
      obtain rfl := Except.ok.inj h
      exact .pass hok
  | some terms =>
      rw [hsmall] at h
      dsimp only at h
      obtain ⟨hkeys, heval⟩ := mapM_small hsmall
      have hal : ∀ e ∈ terms, st.aliasOf e.1 = none := by
        intro e he
        have hmem : e.1 ∈ lin.map Prod.fst := hkeys ▸ List.mem_map_of_mem he
        obtain ⟨e', he', heq⟩ := List.mem_map.mp hmem
        exact heq ▸ (hun e' he').1
      have hwithin : ∀ x, WithinEntries lin konst w x → Within terms (-konst).val w x := by
        rintro x ⟨j, hj, hxj⟩
        refine ⟨j, hj, ?_⟩
        rw [← heval, Int.cast_natCast, ZMod.natCast_val, ZMod.cast_id', id_eq, ← hxj]
        ring
      cases hfree : terms.zipIdx.filter fun e => st.dom e.1.1 = .free with
      | nil =>
          rw [hfree] at h
          exact (boundAll_spec hok hal (hkeys ▸ hnodup) h).mono fun x _ hx => hwithin x hx
      | cons q qs =>
          obtain ⟨⟨v, c⟩, k⟩ := q
          rw [hfree] at h
          cases qs with
          | cons => exact Except.ok.inj h ▸ .pass hok
          | nil =>
              dsimp only at h
              split_ifs at h with hc
              · have hmem : ((v, c), k) ∈ terms.zipIdx :=
                  List.mem_of_mem_filter (hfree ▸ List.mem_singleton_self _)
                obtain ⟨hk, hget⟩ := List.mem_zipIdx' hmem
                have hperm : ((v, c) :: terms.eraseIdx k).Perm terms :=
                  hget ▸ List.getElem_cons_eraseIdx_perm hk
                refine (boundFree_spec hok (hal (v, c) (hget ▸ List.getElem_mem hk)) hc h).mono ?_
                intro x _ hx
                obtain ⟨j, hj, hxj⟩ := hwithin x hx
                exact ⟨j, hj, ((hperm.map _).sum_eq).trans hxj⟩
              · exact Except.ok.inj h ▸ .pass hok

/-! ### `linear` -/

/-- An alias is what the row of two unknowns says. -/
lemma aliasTo_spec {st : State p n m} {ev eu : Fin n × ZMod p} {konst : ZMod p}
    {r : State p n m × Bool} (hok : st.Ok) (hv : st.Unknown ev.1) (hu : st.Unknown eu.1)
    (hne : eu.1 ≠ ev.1) (hfree : st.dom ev.1 = .free)
    (h : aliasTo rows fuel st ev eu konst = .ok r) :
    Deduces rows st (fun x => ev.2 * x ev.1 + eu.2 * x eu.1 + konst = 0) r := by
  obtain ⟨i, hi, h⟩ := Outcome.bind_eq_ok.mp h
  obtain ⟨st', halias, h⟩ := Outcome.bind_eq_ok.mp h
  obtain rfl := Except.ok.inj h
  cases hinv : inverse ev.2 with
  | none => rw [hinv] at hi; exact absurd hi (by simp)
  | some i' =>
      rw [hinv, Outcome.orPanic_some, Except.ok.injEq] at hi
      subst hi
      obtain ⟨hc, rfl⟩ := inverse_eq_some hinv
      refine ⟨setAlias_advance hok hv.1 hfree hu.1 hu.2 hne halias, fun _ x hx hP => ?_, by simp⟩
      refine setAlias_sound hok.toOk hv.1 hfree halias hx ?_
      field_simp
      linear_combination hP

/-- **`linear`** only concludes what follows from its row. -/
theorem linear_spec {st : State p n m} {lin : List (Fin n × ZMod p)} {konst : ZMod p}
    {r : State p n m × Bool} (hok : st.Ok) (hun : ∀ e ∈ lin, st.Unknown e.1)
    (hnodup : (lin.map Prod.fst).Nodup) (h : linear rows fuel st lin konst = .ok r) :
    Deduces rows st (fun x => SparseForm.evalEntries lin x + konst = 0) r := by
  have hintervals : intervals rows fuel st lin konst 0 = .ok r →
      Deduces rows st (fun x => SparseForm.evalEntries lin x + konst = 0) r := fun h =>
    (intervals_spec hok hun hnodup h).mono fun x _ hx => ⟨0, le_rfl, by rw [hx, Nat.cast_zero]⟩
  unfold linear at h
  match lin, hun, hnodup, h, hintervals with
  | [], _, _, h, _ =>
      obtain rfl := Except.ok.inj h
      by_cases hk : konst = 0
      · rw [decide_eq_true hk]
        exact .pass hok
      · rw [decide_eq_false hk]
        exact .fail hok fun x _ hx => hk (by simpa using hx)
  | [(v, c)], hun, _, h, _ =>
      obtain ⟨i, hi, h⟩ := Outcome.bind_eq_ok.mp h
      cases hinv : inverse c with
      | none => rw [hinv] at hi; exact absurd hi (by simp)
      | some i' =>
          rw [hinv, Outcome.orPanic_some, Except.ok.injEq] at hi
          subst hi
          obtain ⟨hc, rfl⟩ := inverse_eq_some hinv
          refine (assign_spec hok (hun (v, c) List.mem_cons_self).1 h).mono fun x _ hx => ?_
          rw [SparseForm.evalEntries_cons, SparseForm.evalEntries_nil, add_zero] at hx
          field_simp
          linear_combination hx
  | [e0, e1], hun, hnodup, h, hintervals =>
      have h0 := hun e0 (by simp)
      have h1 := hun e1 (by simp)
      have hne : e0.1 ≠ e1.1 := by simpa using hnodup
      have hsum : ∀ x : Fin n → ZMod p, SparseForm.evalEntries [e0, e1] x
          = e0.2 * x e0.1 + e1.2 * x e1.1 := fun x => by simp
      dsimp only at h
      split_ifs at h with hfree hfree
      · refine (aliasTo_spec hok h1 h0 hne hfree h).mono fun x _ hx => ?_
        linear_combination hx - hsum x
      · refine (aliasTo_spec hok h0 h1 hne.symm hfree h).mono fun x _ hx => ?_
        linear_combination hx - hsum x
      · exact hintervals h
  | _ :: _ :: _ :: _, _, _, h, hintervals => exact hintervals h

end Field

end XarkCircuit.Search
