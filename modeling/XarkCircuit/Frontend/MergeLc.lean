import XarkCircuit.Ir.FieldConst
import XarkCircuit.Ir.LinearArith

/-!
The merge of the host (`merge_lc` of `host.rs`) and the arithmetic of linear combinations.

* `mergeLc` adds or subtracts term lists where they lie. `mergeLc_eq` says that its result is the sum
  or the difference, term for term, whatever the operands.
* `linear_arith_exact`: constants and combinations compute exactly, and results are canonical.
-/

namespace XarkCircuit

namespace Host

open LinearCombination

/-- A constant of the right operand. -/
def nb (negB : Bool) (c : FieldConst) : FieldConst := if negB then -c else c

/-- A term of the right operand. -/
def bTerm (negB : Bool) (t : Term) : Term := ⟨nb negB t.coeff, t.var⟩

/-- Is this stored as a big integer? -/
def isBig (c : FieldConst) : Bool := !decide (Const.FitsI64 c)

/-- The loop of the merge: the terms, and whether a sum is big. -/
def mergeLoop (negB : Bool) : List Term → List Term → List Term × Bool
  | [], [] => ([], false)
  | x :: ta, [] =>
      let (out, big) := mergeLoop negB ta []
      (x :: out, big)
  | [], y :: tb =>
      let (out, big) := mergeLoop negB [] tb
      (bTerm negB y :: out, big)
  | x :: ta, y :: tb =>
      if x.var < y.var then
        let (out, big) := mergeLoop negB ta (y :: tb)
        (x :: out, big)
      else if y.var < x.var then
        let (out, big) := mergeLoop negB (x :: ta) tb
        (bTerm negB y :: out, big)
      else
        let c := x.coeff + nb negB y.coeff
        let (out, big) := mergeLoop negB ta tb
        if c ≠ 0 then (⟨c, x.var⟩ :: out, isBig c || big) else (out, big)
termination_by ta tb => ta.length + tb.length

/-- `merge_lc`: `(ca + Σ ta) ± (cb + Σ tb)`, and whether a computed value is big. -/
def mergeLc (ca : FieldConst) (ta : List Term) (cb : FieldConst) (tb : List Term) (negB : Bool) :
    LinearCombination × Bool :=
  let constant := ca + nb negB cb
  let big := isBig constant
  if ¬(Canonical ta ∧ Canonical tb) then
    let a : LinearCombination := ⟨0, ta⟩
    let b : LinearCombination := ⟨0, tb⟩
    let r := if negB then a - b else a + b
    (⟨constant, r.terms⟩, true)
  else
    match ta.head?, ta.getLast?, tb.head?, tb.getLast? with
    | some fa, some la, some fb, some lb =>
        -- the ranges of the variables are disjoint
        if la.var < fb.var then (⟨constant, ta ++ tb.map (bTerm negB)⟩, big)
        else if lb.var < fa.var then (⟨constant, tb.map (bTerm negB) ++ ta⟩, big)
        else
          let (out, merged) := mergeLoop negB ta tb
          (⟨constant, out⟩, big || merged)
    | _, _, _, _ => (⟨constant, ta ++ tb.map (bTerm negB)⟩, big)

/-! ### The merge is the sum -/

lemma nb_eq_zero {negB : Bool} {c : FieldConst} : nb negB c = 0 ↔ c = 0 := by
  cases negB <;> simp [nb]

lemma mergeTerms_nil (as : List Term) : mergeTerms as [] = as := by cases as <;> rfl

section Steps

variable {x y : Term} {as bs : List Term}

lemma mergeTerms_lt (h : x.var < y.var) :
    mergeTerms (x :: as) (y :: bs) = x :: mergeTerms as (y :: bs) := by
  rw [mergeTerms, mergeNext, if_neg h.ne, if_pos h]

lemma mergeTerms_gt (h : y.var < x.var) :
    mergeTerms (x :: as) (y :: bs) = y :: mergeTerms (x :: as) bs := by
  rw [mergeTerms, mergeNext, if_neg h.ne', if_neg h.not_gt]

lemma mergeTerms_eq (h : x.var = y.var) :
    mergeTerms (x :: as) (y :: bs) = if x.coeff + y.coeff = 0 then mergeTerms as bs
      else ⟨x.coeff + y.coeff, x.var⟩ :: mergeTerms as bs := by
  rw [mergeTerms, mergeNext, if_pos h]

end Steps

/-- The loop is that of `impl Add` on the terms that it adds. -/
lemma mergeLoop_fst (negB : Bool) (ta tb : List Term) :
    (mergeLoop negB ta tb).1 = mergeTerms ta (tb.map (bTerm negB)) := by
  fun_induction mergeLoop negB ta tb with
  | case1 => rfl
  | case2 x ta out big heq ih =>
      rw [heq, List.map_nil, mergeTerms_nil] at ih
      rw [List.map_nil, mergeTerms_nil, ← ih]
  | case3 y tb out big heq ih =>
      rw [heq] at ih
      exact congrArg (bTerm negB y :: ·) ih
  | case4 x ta y tb hlt out big heq ih =>
      have hlt' : x.var < (bTerm negB y).var := hlt
      rw [heq, List.map_cons] at ih
      rw [List.map_cons, mergeTerms_lt hlt', ← ih]
  | case5 x ta y tb hge hlt out big heq ih =>
      have hlt' : (bTerm negB y).var < x.var := hlt
      rw [heq] at ih
      rw [List.map_cons, mergeTerms_gt hlt', ← ih]
  | case6 x ta y tb hge hle c out big heq hc ih =>
      have hvar : x.var = (bTerm negB y).var := le_antisymm (not_lt.mp hle) (not_lt.mp hge)
      have hc' : x.coeff + (bTerm negB y).coeff ≠ 0 := hc
      rw [heq] at ih
      rw [List.map_cons, mergeTerms_eq hvar, if_neg hc', ← ih]
      rfl
  | case7 x ta y tb hge hle c out big heq hc ih =>
      have hvar : x.var = (bTerm negB y).var := le_antisymm (not_lt.mp hle) (not_lt.mp hge)
      have hc' : x.coeff + (bTerm negB y).coeff = 0 := not_not.mp hc
      rw [heq] at ih
      rw [List.map_cons, mergeTerms_eq hvar, if_pos hc', ← ih]

/-- Everything on the right comes first. -/
lemma mergeTerms_of_lt {as bs : List Term} (h : ∀ a ∈ as, ∀ b ∈ bs, b.var < a.var) :
    mergeTerms as bs = bs ++ as := by
  cases as with
  | nil => simp [mergeTerms]
  | cons x as =>
      rw [mergeTerms]
      induction bs with
      | nil => rfl
      | cons y bs ih =>
          have hlt := h x List.mem_cons_self y List.mem_cons_self
          rw [mergeNext, if_neg hlt.ne', if_neg hlt.not_gt, List.cons_append,
            ih fun a ha b hb => h a ha b (List.mem_cons_of_mem _ hb)]

lemma canonical_map_bTerm {negB : Bool} {ts : List Term} :
    Canonical (ts.map (bTerm negB)) ↔ Canonical ts := by
  rw [Canonical, Canonical, List.pairwise_map, List.forall_mem_map]
  exact and_congr Iff.rfl (forall₂_congr fun t _ => not_congr nb_eq_zero)

lemma map_bTerm_false (ts : List Term) : ts.map (bTerm false) = ts := by
  have hid : bTerm false = id := funext fun t => rfl
  rw [hid, List.map_id]

/-- The sum or the difference as one sum. -/
lemma signed_eq (negB : Bool) (ca cb : FieldConst) (ta tb : List Term) :
    (if negB then (⟨ca, ta⟩ - ⟨cb, tb⟩ : LinearCombination) else ⟨ca, ta⟩ + ⟨cb, tb⟩)
      = add ⟨ca, ta⟩ ⟨nb negB cb, tb.map (bTerm negB)⟩ := by
  cases negB with
  | false =>
      rw [map_bTerm_false]
      rfl
  | true => rfl

/-- `simplified` does not look at the constant. -/
lemma terms_simplified (c c' : FieldConst) (ts : List Term) :
    (simplified ⟨c, ts⟩).terms = (simplified ⟨c', ts⟩).terms := by
  unfold simplified
  split_ifs <;> rfl

/-- In a canonical list the first variable is the least, and the last is the greatest. -/
lemma between_of_canonical {ts : List Term} (h : Canonical ts) {f l t : Term}
    (hf : ts.head? = some f) (hl : ts.getLast? = some l) (ht : t ∈ ts) :
    f.var ≤ t.var ∧ t.var ≤ l.var := by
  constructor
  · obtain ⟨tail, rfl⟩ := List.head?_eq_some_iff.mp hf
    rcases List.mem_cons.mp ht with rfl | ht
    · exact le_rfl
    · exact (h.lt (List.mem_map_of_mem ht)).le
  · obtain ⟨init, rfl⟩ := List.getLast?_eq_some_iff.mp hl
    rcases List.mem_append.mp ht with ht | ht
    · exact ((List.pairwise_append.mp h.1).2.2 t ht l (List.mem_singleton_self l)).le
    · rw [List.mem_singleton.mp ht]

/-- **The merge of the host** is the sum or the difference, term for term. -/
theorem mergeLc_eq (ca : FieldConst) (ta : List Term) (cb : FieldConst) (tb : List Term)
    (negB : Bool) : (mergeLc ca ta cb tb negB).1
      = if negB then (⟨ca, ta⟩ - ⟨cb, tb⟩ : LinearCombination) else ⟨ca, ta⟩ + ⟨cb, tb⟩ := by
  rw [signed_eq, mergeLc]
  by_cases hcanonical : Canonical ta ∧ Canonical tb
  · have hadd : Canonical ta ∧ Canonical (tb.map (bTerm negB)) :=
      hcanonical.imp_right canonical_map_bTerm.mpr
    rw [if_neg (not_not.mpr hcanonical), add, if_pos hadd, addTerms, List.head?_map]
    cases hla : ta.getLast? with
    | none =>
        rw [List.getLast?_eq_none_iff.mp hla]
        cases tb <;> rfl
    | some la =>
        cases hfb : tb.head? with
        | none =>
            rw [List.head?_eq_none_iff.mp hfb]
            cases ta <;> simp
        | some fb =>
            obtain ⟨fa, hfa⟩ : ∃ fa, ta.head? = some fa :=
              Option.ne_none_iff_exists'.mp fun h => by simp_all
            obtain ⟨lb, hlb⟩ : ∃ lb, tb.getLast? = some lb :=
              Option.ne_none_iff_exists'.mp fun h => by simp_all
            rw [hfa, hlb, Option.map_some]
            dsimp only
            rw [show (bTerm negB fb).var = fb.var from rfl]
            by_cases hlt : la.var < fb.var
            · rw [if_pos hlt, if_pos hlt]
            · rw [if_neg hlt, if_neg hlt]
              by_cases hgt : lb.var < fa.var
              · -- everything on the right comes first, and the merge would find that too
                have hall : ∀ a ∈ ta, ∀ b ∈ tb.map (bTerm negB), b.var < a.var := by
                  intro a ha b hb
                  obtain ⟨t, ht, rfl⟩ := List.mem_map.mp hb
                  calc t.var ≤ lb.var := (between_of_canonical hcanonical.2 hfb hlb ht).2
                    _ < fa.var := hgt
                    _ ≤ a.var := (between_of_canonical hcanonical.1 hfa hla ha).1
                rw [if_pos hgt, mergeTerms_of_lt hall]
              · rw [if_neg hgt, mergeLoop_fst]
  · have hadd : ¬(Canonical ta ∧ Canonical (tb.map (bTerm negB))) := fun h =>
      hcanonical (h.imp_right canonical_map_bTerm.mp)
    have hterms := signed_eq negB 0 0 ta tb
    rw [add, if_neg hadd] at hterms
    rw [if_pos hcanonical, add, if_neg hadd]
    dsimp only
    rw [hterms]
    refine LinearCombination.ext ?_ (terms_simplified _ _ _)
    rw [constant_simplified]

/-- **Linear arithmetic is exact and canonical.** The stored constants compute as the integers and
are equal exactly when their values are; sums, differences, negations, multiples and `simplified`
have the values they say, under every assignment; all but negations are canonical, whatever the
operands; and the merge of the host is the sum or the difference. -/
theorem linear_arith_exact :
    (∀ a b : Const.FieldConst, (a.add b).big = a.big + b.big ∧ (a.mul b).big = a.big * b.big ∧
      a.neg.big = -a.big ∧ (a.isZero ↔ a.big = 0) ∧ (a = b ↔ a.big = b.big)) ∧
    (∀ (a b : LinearCombination) (c : FieldConst) (x : VarId → ℤ),
      (a + b).eval x = a.eval x + b.eval x ∧ (a - b).eval x = a.eval x - b.eval x ∧
      (-a).eval x = -a.eval x ∧ (a.scale c).eval x = a.eval x * c ∧
      a.simplified.eval x = a.eval x) ∧
    (∀ (a b : LinearCombination) (c : FieldConst), Canonical (a + b).terms ∧
      Canonical (a - b).terms ∧ Canonical (a.scale c).terms ∧ Canonical a.simplified.terms) ∧
    (∀ (a : LinearCombination), Canonical (-a).terms ↔ Canonical a.terms) ∧
    (∀ ca ta cb tb negB, (mergeLc ca ta cb tb negB).1
      = if negB then (⟨ca, ta⟩ - ⟨cb, tb⟩ : LinearCombination) else ⟨ca, ta⟩ + ⟨cb, tb⟩) := by
  refine ⟨fun a b => ⟨?_, ?_, ?_, a.isZero_iff, Const.FieldConst.big_inj.symm⟩, fun a b c x => ?_,
    fun a b c => ⟨canonical_add a b, canonical_sub a b, canonical_scale a c,
      canonical_simplified a⟩, fun a => @canonical_map_bTerm true a.terms, mergeLc_eq⟩
  · exact a.big_add b
  · exact a.big_mul b
  · exact a.big_neg
  · exact ⟨eval_add x a b, eval_sub x a b, eval_neg x a, eval_scale x a c, eval_simplified a x⟩

end Host

end XarkCircuit
