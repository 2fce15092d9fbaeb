import XarkCircuit.Search.LinearSound
import XarkCircuit.Lib.SquareForm
import Mathlib.Tactic.FieldSimp

/-!
What `squareOfLinear` concludes.

* `entriesOf` and `formOf`: the linear form `S` that is found, and its variables.
* `quad_eq_sq` and `lin_eq_form`: once the lengths and the coefficients agree, the row is
  `d · S² + λ · S + konst = 0`.
* `squareOfLinear_spec`: what is concluded about `S` follows from the row.
-/

namespace XarkCircuit.Search

variable {p n m : ℕ} {rows : Fin m → Row p n} {fuel : ℕ}

/-! ### The linear form -/

lemma mem_entriesOf {s : Fin n → Option (ZMod p)} {e : Fin n × ZMod p} :
    e ∈ entriesOf s ↔ s e.1 = some e.2 := by
  rw [entriesOf, List.mem_filterMap]
  constructor
  · rintro ⟨v, -, hv⟩
    obtain ⟨c, hc, rfl⟩ := Option.map_eq_some_iff.mp hv
    exact hc
  · intro h
    exact ⟨e.1, List.mem_finRange _, by rw [h, Option.map_some]⟩

lemma nodup_entriesOf (s : Fin n → Option (ZMod p)) : ((entriesOf s).map Prod.fst).Nodup := by
  have hsub : ((entriesOf s).map Prod.fst).Sublist (List.finRange n) := by
    rw [entriesOf, List.map_filterMap]
    have hid : (List.finRange n).filterMap (fun v => ((s v).map (v, ·)).map Prod.fst)
        = (List.finRange n).filter fun v => (s v).isSome := by
      rw [← List.filterMap_eq_filter]
      refine List.filterMap_congr fun v _ => ?_
      cases h : s v <;> simp [Option.guard, h]
    rw [hid]
    exact List.filter_sublist
  exact hsub.nodup (List.nodup_finRange n)

/-- The variables of the form, as a set. -/
def support (s : Fin n → Option (ZMod p)) : Finset (Fin n) :=
  ((entriesOf s).map Prod.fst).toFinset

lemma mem_support {s : Fin n → Option (ZMod p)} {v : Fin n} : v ∈ support s ↔ ∃ c, s v = some c := by
  rw [support, List.mem_toFinset, List.mem_map]
  constructor
  · rintro ⟨e, he, rfl⟩
    exact ⟨e.2, mem_entriesOf.mp he⟩
  · rintro ⟨c, hc⟩
    exact ⟨(v, c), mem_entriesOf.mpr hc, rfl⟩

lemma card_support (s : Fin n → Option (ZMod p)) : (support s).card = (entriesOf s).length := by
  rw [support, List.toFinset_card_of_nodup (nodup_entriesOf s), List.length_map]

/-- The value of the form. -/
lemma evalEntries_entriesOf (s : Fin n → Option (ZMod p)) (x : Fin n → ZMod p) :
    SparseForm.evalEntries (entriesOf s) x = ∑ v ∈ support s, (s v).getD 0 * x v := by
  rw [support, List.sum_toFinset _ (nodup_entriesOf s), List.map_map, SparseForm.evalEntries]
  refine congrArg List.sum (List.map_congr_left fun e he => ?_)
  rw [Function.comp_apply, mem_entriesOf.mp he, Option.getD_some]

lemma evalEntries_scale (es : List (Fin n × ZMod p)) (scale : ZMod p) (x : Fin n → ZMod p) :
    SparseForm.evalEntries (es.map fun e => (e.1, e.2 * scale)) x
      = SparseForm.evalEntries es x * scale := by
  induction es with
  | nil => simp
  | cons e es ih =>
      rw [List.map_cons, SparseForm.evalEntries_cons, SparseForm.evalEntries_cons, ih]
      ring

/-- What the fold over the products puts in comes from one of them. -/
lemma isSome_foldl_cross {piv : Fin n} {inv2d : ZMod p} {v : Fin n}
    (l : List ((Fin n ×ₗ Fin n) × ZMod p)) (s : Fin n → Option (ZMod p))
    (hs : (l.foldl (fun s q =>
        let (u1, u2) := ofLex q.1
        if u1 ≠ u2 ∧ (u1 = piv ∨ u2 = piv) then
          Function.update s (if u1 = piv then u2 else u1) (some (q.2 * inv2d))
        else s) s v).isSome) :
    (s v).isSome ∨ ∃ q ∈ l, v = (ofLex q.1).1 ∨ v = (ofLex q.1).2 := by
  induction l generalizing s with
  | nil => exact Or.inl hs
  | cons q l ih =>
      rcases ih _ hs with hs | ⟨q', hq', hv⟩
      · dsimp only at hs
        split_ifs at hs with hcross hpiv
        · by_cases hv : v = (ofLex q.1).2
          · exact Or.inr ⟨q, List.mem_cons_self, Or.inr hv⟩
          · rw [Function.update_of_ne hv] at hs
            exact Or.inl hs
        · by_cases hv : v = (ofLex q.1).1
          · exact Or.inr ⟨q, List.mem_cons_self, Or.inl hv⟩
          · rw [Function.update_of_ne hv] at hs
            exact Or.inl hs
        · exact Or.inl hs
      · exact Or.inr ⟨q', List.mem_cons_of_mem _ hq', hv⟩

/-- The variables of the form are those of the products. -/
lemma mem_support_formOf {quad : List ((Fin n ×ₗ Fin n) × ZMod p)} {piv : Fin n} {inv2d : ZMod p}
    {v : Fin n} (h : v ∈ support (formOf quad piv inv2d)) :
    v = piv ∨ ∃ q ∈ quad, v = (ofLex q.1).1 ∨ v = (ofLex q.1).2 := by
  obtain ⟨c, hc⟩ := mem_support.mp h
  rcases isSome_foldl_cross quad _ (Option.isSome_iff_exists.mpr ⟨c, hc⟩) with hv | hv
  · by_cases hpiv : v = piv
    · exact Or.inl hpiv
    · rw [Function.update_of_ne hpiv] at hv
      exact absurd hv (by simp)
  · exact Or.inr hv

/-! ### The row in terms of the form -/

/-- The value of the products. -/
def evalQuad (quad : List ((Fin n ×ₗ Fin n) × ZMod p)) (x : Fin n → ZMod p) : ZMod p :=
  SparseForm.evalEntries quad fun k => x (ofLex k).1 * x (ofLex k).2

lemma isSquareTerm_eq_true {s : Fin n → Option (ZMod p)} {d : ZMod p}
    {q : (Fin n ×ₗ Fin n) × ZMod p} (h : isSquareTerm s d q = true) :
    (ofLex q.1).1 ∈ support s ∧ (ofLex q.1).2 ∈ support s ∧
      q.2 = if (ofLex q.1).1 ≠ (ofLex q.1).2 then
        d * (s (ofLex q.1).1).getD 0 * (s (ofLex q.1).2).getD 0
          + d * (s (ofLex q.1).1).getD 0 * (s (ofLex q.1).2).getD 0
      else d * (s (ofLex q.1).1).getD 0 * (s (ofLex q.1).2).getD 0 := by
  rw [isSquareTerm] at h
  dsimp only at h
  split at h
  · rename_i a b ha hb
    refine ⟨mem_support.mpr ⟨a, ha⟩, mem_support.mpr ⟨b, hb⟩, ?_⟩
    rw [ha, hb, Option.getD_some, Option.getD_some]
    exact of_decide_eq_true h
  · exact absurd h (by simp)

/-- All the terms of a square, and as many as it has: the products are `d · S²`. -/
lemma quad_eq_sq {quad : List ((Fin n ×ₗ Fin n) × ZMod p)} {s : Fin n → Option (ZMod p)}
    {d : ZMod p} (hnodup : (quad.map Prod.fst).Nodup)
    (hle : ∀ q ∈ quad, (ofLex q.1).1 ≤ (ofLex q.1).2)
    (hlen : quad.length = (entriesOf s).length * ((entriesOf s).length + 1) / 2)
    (hterm : ∀ q ∈ quad, isSquareTerm s d q = true) (x : Fin n → ZMod p) :
    evalQuad quad x = d * SparseForm.evalEntries (entriesOf s) x ^ 2 := by
  rw [evalEntries_entriesOf, ← SquareForm.sum_eq_sq (fun v => (s v).getD 0)
    (quad.map fun q => (ofLex q.1, q.2))]
  · rw [evalQuad, SparseForm.evalEntries, List.map_map]
    rfl
  · rw [List.map_map]
    have hcomp : (Prod.fst ∘ fun q : (Fin n ×ₗ Fin n) × ZMod p => (ofLex q.1, q.2))
        = ofLex ∘ Prod.fst := rfl
    rw [hcomp, ← List.map_map]
    exact hnodup.map ofLex.injective
  · intro q hq
    obtain ⟨q', hq', rfl⟩ := List.mem_map.mp hq
    obtain ⟨h₁, h₂, -⟩ := isSquareTerm_eq_true (hterm q' hq')
    exact SquareForm.mem_pairs.mpr ⟨⟨h₁, h₂⟩, hle q' hq'⟩
  · rw [List.length_map, hlen, card_support]
  · intro q hq
    obtain ⟨q', hq', rfl⟩ := List.mem_map.mp hq
    exact (isSquareTerm_eq_true (hterm q' hq')).2.2

/-- A multiple of the form, and all of it: the linear part is `λ · S`. -/
lemma lin_eq_form {lin : List (Fin n × ZMod p)} {s : Fin n → Option (ZMod p)} {lambda : ZMod p}
    (hnodup : (lin.map Prod.fst).Nodup)
    (hlen : lin.length = if lambda = 0 then 0 else (entriesOf s).length)
    (hall : ∀ e ∈ lin, (s e.1).map (lambda * ·) = some e.2) (x : Fin n → ZMod p) :
    SparseForm.evalEntries lin x = lambda * SparseForm.evalEntries (entriesOf s) x := by
  split_ifs at hlen with h0
  · rw [List.length_eq_zero_iff.mp hlen, h0, zero_mul, SparseForm.evalEntries_nil]
  · have hkeys : (lin.map Prod.fst).toFinset = support s := by
      refine Finset.eq_of_subset_of_card_le (fun v hv => ?_) ?_
      · obtain ⟨e, he, rfl⟩ := List.mem_map.mp (List.mem_toFinset.mp hv)
        obtain ⟨c, hc, -⟩ := Option.map_eq_some_iff.mp (hall e he)
        exact mem_support.mpr ⟨c, hc⟩
      · rw [card_support, List.toFinset_card_of_nodup hnodup, List.length_map, hlen]
    rw [evalEntries_entriesOf, ← hkeys, List.sum_toFinset _ hnodup, List.map_map,
      SparseForm.evalEntries, ← List.sum_map_mul_left]
    refine congrArg List.sum (List.map_congr_left fun e he => ?_)
    obtain ⟨c, hc, hce⟩ := Option.map_eq_some_iff.mp (hall e he)
    rw [Function.comp_apply, hc, Option.getD_some, ← hce]
    ring

/-! ### Roots -/

section Field

variable [Fact p.Prime]

/-- The root of the discriminant, and the two values of the form. -/
lemma form_of_root {d inv2d lambda konst root S : ZMod p} (hinv : (d + d) * inv2d = 1)
    (hroot : root ^ 2 = lambda * lambda - (d + d + d + d) * konst)
    (hrow : lambda * S + d * S ^ 2 + konst = 0) :
    S = (-lambda - root) * inv2d ∨ S = (-lambda + root) * inv2d := by
  have hprod : ((d + d) * S + lambda + root) * ((d + d) * S + lambda - root) = 0 := by
    linear_combination (4 * d) * hrow - hroot
  rcases mul_eq_zero.mp hprod with h | h
  · exact Or.inl (by linear_combination inv2d * h - S * hinv)
  · exact Or.inr (by linear_combination inv2d * h - S * hinv)

/-- `solveForm` only concludes what follows from the equation of the form. -/
lemma solveForm_spec {st : State p n m} {s : Fin n → Option (ZMod p)}
    {d inv2d lambda konst : ZMod p} {r : State p n m × Bool} (hok : st.Ok)
    (hun : ∀ v ∈ support s, st.Unknown v) (hinv : (d + d) * inv2d = 1)
    (h : solveForm rows fuel st s d inv2d lambda konst = .ok r) :
    Deduces rows st (fun x => lambda * SparseForm.evalEntries (entriesOf s) x
      + d * SparseForm.evalEntries (entriesOf s) x ^ 2 + konst = 0) r := by
  have hform : ∀ scale : ZMod p, ∀ e ∈ (entriesOf s).map fun e => (e.1, e.2 * scale),
      st.Unknown e.1 := by
    intro scale e he
    obtain ⟨e', he', rfl⟩ := List.mem_map.mp he
    exact hun e'.1 (mem_support.mpr ⟨e'.2, mem_entriesOf.mp he'⟩)
  have hnodup : ∀ scale : ZMod p,
      (((entriesOf s).map fun e => (e.1, e.2 * scale)).map Prod.fst).Nodup := by
    intro scale
    rw [List.map_map]
    exact nodup_entriesOf s
  obtain ⟨out, hsqrt, h⟩ := Outcome.bind_eq_ok.mp h
  obtain ⟨hnone, hsome⟩ := sqrtMod_spec hsqrt
  rw [ZMod.natCast_val, ZMod.cast_id', id_eq] at hnone hsome
  cases out with
  | none =>
      obtain rfl := Except.ok.inj h
      refine .fail hok fun x _ hrow => hnone rfl ?_
      -- the discriminant of an equation with a solution is a square
      refine ⟨(d + d) * SparseForm.evalEntries (entriesOf s) x + lambda, ?_⟩
      linear_combination (-4 * d) * hrow
  | some root =>
      have hroot := hsome root rfl
      dsimp only at h
      split_ifs at h with h0
      · refine (linear_spec hok (hform 1) (hnodup 1) h).mono fun x _ hrow => ?_
        rw [evalEntries_scale, mul_one]
        rcases form_of_root hinv hroot hrow with hS | hS
        · rw [hS]
          ring
        · rw [hS, h0]
          ring
      · obtain ⟨i, hi, h⟩ := Outcome.bind_eq_ok.mp h
        cases hiroot : inverse (root : ZMod p) with
        | none => rw [hiroot] at hi; exact absurd hi (by simp)
        | some i' =>
            rw [hiroot, Outcome.orPanic_some, Except.ok.injEq] at hi
            subst hi
            obtain ⟨hne, rfl⟩ := inverse_eq_some hiroot
            refine (intervals_spec hok (hform _) (hnodup _) h).mono fun x _ hrow => ?_
            -- `(S - t₂) · d / √D` is zero at one root and one at the other
            rcases form_of_root hinv hroot hrow with hS | hS
            · refine ⟨0, zero_le_one, ?_⟩
              rw [evalEntries_scale, hS, Nat.cast_zero]
              ring
            · refine ⟨1, le_rfl, ?_⟩
              rw [evalEntries_scale, hS, Nat.cast_one]
              have hone : (root : ZMod p) * (root : ZMod p)⁻¹ = 1 := mul_inv_cancel₀ hne
              linear_combination hinv + (d + d) * inv2d * hone

/-- **`squareOfLinear`** only concludes what follows from its row. -/
theorem squareOfLinear_spec {st : State p n m} {quad : List ((Fin n ×ₗ Fin n) × ZMod p)}
    {lin : List (Fin n × ZMod p)} {konst : ZMod p} {r : State p n m × Bool} (hok : st.Ok)
    (hquad : ∀ q ∈ quad, st.Unknown (ofLex q.1).1 ∧ st.Unknown (ofLex q.1).2)
    (hle : ∀ q ∈ quad, (ofLex q.1).1 ≤ (ofLex q.1).2) (hqnodup : (quad.map Prod.fst).Nodup)
    (hlnodup : (lin.map Prod.fst).Nodup)
    (h : squareOfLinear rows fuel st quad lin konst = .ok r) :
    Deduces rows st (fun x => SparseForm.evalEntries lin x + evalQuad quad x + konst = 0) r := by
  unfold squareOfLinear at h
  cases hfind : quad.find? fun q => (ofLex q.1).1 = (ofLex q.1).2 with
  | none =>
      rw [hfind] at h
      exact Except.ok.inj h ▸ .pass hok
  | some q =>
      rw [hfind] at h
      dsimp only at h
      cases hinv : inverse (q.2 + q.2) with
      | none =>
          rw [hinv] at h
          exact Except.ok.inj h ▸ .pass hok
      | some inv2d =>
          rw [hinv] at h
          dsimp only at h
          obtain ⟨hd, hinv2d⟩ := inverse_eq_some hinv
          generalize hs : formOf quad (ofLex q.1).1 inv2d = s at h
          generalize ((lin.find? fun e => e.1 = (ofLex q.1).1).map Prod.snd).getD 0 = lambda at h
          by_cases hlen : quad.length = (entriesOf s).length * ((entriesOf s).length + 1) / 2
          swap
          · rw [if_pos hlen] at h
            exact Except.ok.inj h ▸ .pass hok
          rw [if_neg (not_not.mpr hlen)] at h
          by_cases hterms : quad.any (fun q' => !isSquareTerm s q.2 q') = true
          · rw [if_pos hterms] at h
            exact Except.ok.inj h ▸ .pass hok
          rw [if_neg hterms] at h
          by_cases hllen : lin.length = if lambda = 0 then 0 else (entriesOf s).length
          swap
          · rw [if_pos hllen] at h
            exact Except.ok.inj h ▸ .pass hok
          rw [if_neg (not_not.mpr hllen)] at h
          by_cases hcoeffs : lin.any (fun e => (s e.1).map (lambda * ·) ≠ some e.2) = true
          · rw [if_pos hcoeffs] at h
            exact Except.ok.inj h ▸ .pass hok
          rw [if_neg hcoeffs] at h
          have hquadS := quad_eq_sq hqnodup hle hlen (by simpa using hterms)
          have hlinS := lin_eq_form hlnodup hllen (by simpa using hcoeffs)
          have hqmem : q ∈ quad := List.mem_of_find?_eq_some hfind
          refine (solveForm_spec hok (fun v hv => ?_)
            (by rw [hinv2d, mul_inv_cancel₀ hd]) h).mono fun x _ hrow => ?_
          · rw [← hs] at hv
            rcases mem_support_formOf hv with rfl | ⟨q', hq', rfl | rfl⟩
            · exact (hquad q hqmem).1
            · exact (hquad q' hq').1
            · exact (hquad q' hq').2
          · rw [← hquadS, ← hlinS]
            exact hrow

end Field

end XarkCircuit.Search
