import XarkCircuit.Analyze.StreamSound

/-!
The flat under-constraint analysis is exact, variable by variable.

* `sat_update_iff`: with every variable but `v` fixed, a row is the polynomial `univariateR1cs`.
* `forgeable_iff`: another value of `v` satisfies the rows exactly when the polynomials of the rows
  that reference `v` vanish at it.
* `verdict_isSome_iff`: a variable is listed as free or two-valued exactly when the polynomials,
  which vanish at its value, have another common zero. A common second zero is the second root of
  each quadratic one (`eq_secondRoot`), so it is among the candidates.
* `analyze_underconstrained_exact` is the result for a program.
-/

namespace XarkCircuit

/-! ### Rows as polynomials in one variable -/

section Polynomial

variable {p : ℕ} {x : VarId → ZMod p}

/-- The value of the polynomial. -/
def Univariate.at (u : Univariate (ZMod p)) (β : ZMod p) : ZMod p := u.a * β * β + u.b * β + u.c

/-- A form with the value of `v` changed. -/
lemma eval_update (lc : LinearCombination) (v : VarId) (x : VarId → ZMod p) (β : ZMod p) :
    lc.eval (Function.update x v β) = (splitLc lc v x).2 + (splitLc lc v x).1 * β := by
  have key : ∀ (ts : List Term) (a b : ZMod p),
      b + a * β + LinearCombination.evalTerms ts (Function.update x v β)
        = (ts.foldl (fun s t => if t.var = v then (s.1 + (t.coeff : ZMod p), s.2)
            else (s.1, s.2 + t.coeff * x t.var)) (a, b)).2
          + (ts.foldl (fun s t => if t.var = v then (s.1 + (t.coeff : ZMod p), s.2)
            else (s.1, s.2 + t.coeff * x t.var)) (a, b)).1 * β := by
    intro ts
    induction ts with
    | nil => simp
    | cons t ts ih =>
        intro a b
        rw [List.foldl_cons]
        by_cases ht : t.var = v
        · rw [if_pos ht, ← ih, LinearCombination.evalTerms_cons, ht, Function.update_self]
          ring
        · rw [if_neg ht, ← ih, LinearCombination.evalTerms_cons, Function.update_of_ne ht]
          ring
  have h := key lc.terms 0 lc.constant
  rw [zero_mul, add_zero] at h
  rw [LinearCombination.eval, h, splitLc]

/-- **A row with every variable but one fixed** is a polynomial in that one. -/
lemma sat_update_iff (r : R1csRow) (v : VarId) (x : VarId → ZMod p) (β : ZMod p) :
    r.Sat (Function.update x v β) ↔ (univariateR1cs r v x).at β = 0 := by
  rw [R1csRow.Sat, eval_update, eval_update, eval_update, ← sub_eq_zero, Univariate.at,
    univariateR1cs]
  refine Eq.congr ?_ rfl
  ring

lemma sat_iff_at (r : R1csRow) (v : VarId) (x : VarId → ZMod p) :
    r.Sat x ↔ (univariateR1cs r v x).at (x v) = 0 := by
  rw [← sat_update_iff, Function.update_eq_self]

/-- Some other value of `v` satisfies the rows too, the other variables unchanged. -/
def Forgeable (rows : List R1csRow) (x : VarId → ZMod p) (v : VarId) : Prop :=
  ∃ β, β ≠ x v ∧ ∀ r ∈ rows, r.Sat (Function.update x v β)

/-- Only the rows that reference the variable matter. -/
lemma forgeable_iff {rows : List R1csRow} (hsat : ∀ r ∈ rows, r.Sat x) (v : VarId) :
    Forgeable rows x v ↔ ∃ β, β ≠ x v ∧ ∀ u ∈ reductions rows v x, u.at β = 0 := by
  refine exists_congr fun β => and_congr_right fun _ => ?_
  constructor
  · intro h u hu
    obtain ⟨r, hr, -, rfl⟩ := mem_reductions.mp hu
    exact (sat_update_iff r v x β).mp (h r hr)
  · intro h r hr
    by_cases hv : v ∈ r.vars
    · exact (sat_update_iff r v x β).mpr (h _ (mem_reductions.mpr ⟨r, hr, hv, rfl⟩))
    · refine (r.sat_congr fun w hw => ?_).mpr (hsat r hr)
      exact Function.update_of_ne (ne_of_mem_of_not_mem hw hv) β x

end Polynomial

/-! ### Common zeros -/

section Zeros

variable {p : ℕ} [Fact p.Prime]

/-- A zero of a quadratic polynomial other than `α`, itself a zero, is the second root. -/
lemma eq_secondRoot {u : Univariate (ZMod p)} {α β : ZMod p} (ha : u.a ≠ 0) (hα : u.at α = 0)
    (hβ : u.at β = 0) (hne : β ≠ α) : β = secondRoot u α := by
  have hfactor : (β - α) * (u.a * (β + α) + u.b) = 0 := by
    have hsub : u.at β - u.at α = 0 := by rw [hα, hβ, sub_zero]
    rw [← hsub, Univariate.at, Univariate.at]
    ring
  have hsum := (mul_eq_zero.mp hfactor).resolve_left (sub_ne_zero.mpr hne)
  have hmul : u.a * (β + α) = -u.b := eq_neg_of_add_eq_zero_left hsum
  rw [secondRoot, ← hmul, mul_comm u.a, mul_inv_cancel_right₀ ha, add_sub_cancel_right]

/-- A linear polynomial has one zero. -/
lemma eq_of_linear {u : Univariate (ZMod p)} {α β : ZMod p} (hu : u.linear) (hα : u.at α = 0)
    (hβ : u.at β = 0) : β = α := by
  simp only [Univariate.linear, Bool.and_eq_true, decide_eq_true_eq] at hu
  have hfactor : u.b * (β - α) = 0 := by
    have hsub : u.at β - u.at α = 0 := by rw [hα, hβ, sub_zero]
    rw [← hsub, Univariate.at, Univariate.at, hu.1]
    ring
  exact sub_eq_zero.mp ((mul_eq_zero.mp hfactor).resolve_left hu.2)

/-- A polynomial with neither a square nor a linear part that vanishes somewhere vanishes
everywhere. -/
lemma at_of_trivial {u : Univariate (ZMod p)} {α : ZMod p} (hu : u.trivial) (hα : u.at α = 0)
    (β : ZMod p) : u.at β = 0 := by
  simp only [Univariate.trivial, Bool.and_eq_true, decide_eq_true_eq] at hu
  rw [Univariate.at, hu.1, hu.2] at hα ⊢
  linear_combination hα

lemma vanishes_iff {us : List (Univariate (ZMod p))} {β : ZMod p} :
    vanishes us β ↔ ∀ u ∈ us, u.at β = 0 := by
  simp only [vanishes, List.all_eq_true, decide_eq_true_eq]
  rfl

lemma twoValued_iff {us : List (Univariate (ZMod p))} {α : ZMod p} :
    twoValued us α ↔ ∃ β, β ≠ α ∧ (∃ u ∈ us, u.a ≠ 0 ∧ secondRoot u α = β) ∧
      ∀ u ∈ us, u.at β = 0 := by
  simp only [twoValued, List.any_eq_true, List.mem_filterMap, Bool.and_eq_true, decide_eq_true_eq,
    vanishes_iff]
  constructor
  · rintro ⟨β, ⟨u, hu, hβ⟩, hne, hall⟩
    split_ifs at hβ with ha
    exact ⟨β, hne, ⟨u, hu, ha, Option.some.inj hβ⟩, hall⟩
  · rintro ⟨β, hne, ⟨u, hu, ha, hβ⟩, hall⟩
    exact ⟨β, ⟨u, hu, by rw [if_neg ha, hβ]⟩, hne, hall⟩

/-- **The verdict on polynomials that vanish at `α`**: free or two-valued exactly when they have
another common zero. -/
lemma verdict_isSome_iff {us : List (Univariate (ZMod p))} {α : ZMod p}
    (hα : ∀ u ∈ us, u.at α = 0) :
    (verdict us α).isSome ↔ ∃ β, β ≠ α ∧ ∀ u ∈ us, u.at β = 0 := by
  rw [verdict]
  split_ifs with hlin hfree htwo
  · -- a linear row pins the variable
    obtain ⟨u, hu, hl⟩ := List.any_eq_true.mp hlin
    refine iff_of_false (by simp) ?_
    rintro ⟨β, hne, hβ⟩
    exact hne (eq_of_linear hl (hα u hu) (hβ u hu))
  · refine iff_of_true rfl ⟨α + 1, by simp, fun u hu => ?_⟩
    exact at_of_trivial (List.all_eq_true.mp hfree u hu) (hα u hu) _
  · obtain ⟨β, hne, -, hβ⟩ := twoValued_iff.mp htwo
    exact iff_of_true rfl ⟨β, hne, hβ⟩
  · -- some row is quadratic, and a common zero is its second root
    refine iff_of_false (by simp) ?_
    rintro ⟨β, hne, hβ⟩
    have hquad : ∃ u ∈ us, u.a ≠ 0 := by
      by_contra hnone
      push Not at hnone
      refine hfree (List.all_eq_true.mpr fun u hu => ?_)
      have hb : u.b = 0 := by
        by_contra hb
        exact hlin (List.any_eq_true.mpr ⟨u, hu, by simp [Univariate.linear, hnone u hu, hb]⟩)
      simp [Univariate.trivial, hnone u hu, hb]
    obtain ⟨u, hu, ha⟩ := hquad
    exact htwo (twoValued_iff.mpr
      ⟨β, hne, ⟨u, hu, ha, (eq_secondRoot ha (hα u hu) (hβ u hu) hne).symm⟩, hβ⟩)

/-- The analysis of one variable, under an assignment that satisfies the rows. -/
lemma checkOneVarCp_isSome_iff {x : VarId → ZMod p} (var : Var) {rows : List R1csRow}
    (hsat : ∀ r ∈ rows, r.Sat x) :
    (checkOneVarCp var rows x).isSome ↔ Forgeable rows x var.id := by
  have hα : ∀ u ∈ reductions rows var.id x, u.at (x var.id) = 0 := by
    intro u hu
    obtain ⟨r, hr, -, rfl⟩ := mem_reductions.mp hu
    exact (sat_iff_at r var.id x).mp (hsat r hr)
  rw [checkOneVarCp_eq, forgeable_iff hsat]
  split_ifs with hnil
  · -- no row references the variable, so any other value does
    refine iff_of_true rfl ⟨x var.id + 1, by simp, fun u hu => ?_⟩
    rw [hnil] at hu
    exact absurd hu List.not_mem_nil
  · rw [Option.isSome_map, verdict_isSome_iff hα]

lemma var_of_checkOneVarCp {x : VarId → ZMod p} {var : Var} {rows : List R1csRow}
    {u : UnderConstrained} (h : checkOneVarCp var rows x = some u) : u.var = var.id := by
  rw [checkOneVarCp_eq] at h
  split_ifs at h
  · cases h
    rfl
  · obtain ⟨r, -, rfl⟩ := Option.map_eq_some_iff.mp h
    rfl

/-- **The analysis is exact per variable**: under an assignment that satisfies every row, a derived
variable is listed exactly when changing its value alone can satisfy every row again. -/
theorem analyze_underconstrained_exact (program : CircuitProgram)
    (assign : VarId → Option (ZMod p))
    (hsat : ∀ r ∈ program.constraints, r.Sat (readMap assign)) (var : Var)
    (hvar : var ∈ program.vars) (hrole : var.role = .derived) :
    (∃ u ∈ analyzeUnderconstrainedCp program assign, u.var = var.id) ↔
      ∃ β, β ≠ readMap assign var.id ∧
        ∀ r ∈ program.constraints, r.Sat (Function.update (readMap assign) var.id β) := by
  refine Iff.trans ?_ (checkOneVarCp_isSome_iff var hsat)
  constructor
  · rintro ⟨u, hu, huv⟩
    obtain ⟨w, -, hw⟩ := List.mem_filterMap.mp hu
    -- the entry may come from another declaration of the same id
    have hid : w.id = var.id := (var_of_checkOneVarCp hw).symm.trans huv
    have hsome : (checkOneVarCp w program.constraints (readMap assign)).isSome := by
      rw [hw]
      rfl
    rw [checkOneVarCp_isSome_iff w hsat, hid, ← checkOneVarCp_isSome_iff var hsat] at hsome
    exact hsome
  · intro h
    obtain ⟨u, hu⟩ := Option.isSome_iff_exists.mp h
    refine ⟨u, List.mem_filterMap.mpr ⟨var, ?_, hu⟩, var_of_checkOneVarCp hu⟩
    exact List.mem_filter.mpr ⟨hvar, decide_eq_true hrole⟩

/-- The bit that only its booleanity constrains may also be `0`. -/
theorem analyze_underconstrained_exact_looseBit :
    (∃ u ∈ analyzeUnderconstrainedCp (p := 7) looseBitProgram (slotsIntoMap [some 3, some 1]),
      u.var = 1) ↔
      ∃ β, β ≠ readMap (p := 7) (slotsIntoMap [some 3, some 1]) 1 ∧
        ∀ r ∈ looseBitProgram.constraints,
          r.Sat (Function.update (readMap (slotsIntoMap [some 3, some 1])) 1 β) :=
  analyze_underconstrained_exact (p := 7) looseBitProgram (slotsIntoMap [some 3, some 1])
    (by decide +kernel) ⟨1, "v1", .derived⟩ (by decide) rfl

end Zeros

end XarkCircuit
