import XarkCircuit.Lib.Instances
import Mathlib.Algebra.BigOperators.Group.List.Basic
import Mathlib.Algebra.Ring.Int.Defs
import Mathlib.Data.Int.Cast.Lemmas
import Mathlib.Data.List.Sort
import Mathlib.Order.Fin.Basic
import Mathlib.Tactic.Ring
import Mathlib.Tactic.LinearCombination

/-!
Linear combinations over circuit variables (`linear_combination.rs`).

* `VarId` is the source's `u32`, with its wrapping arithmetic; `FieldConst` is an exact signed
  integer, not reduced modulo the field.
* `LinearCombination.eval` reads one in any commutative ring, the constants cast from the integers.
* `simplified` sorts the terms by variable, adds the coefficients of a repeated one and drops the
  zeros. `eval_simplified` says that the value stays, `mem_vars_simplified` that no variable is
  new, and `canonical_simplified` that the result is in the form `is_canonical` tests.
-/

namespace XarkCircuit

/-- A variable id: `u32`. -/
abbrev VarId := Fin (2 ^ 32)

instance lawfulBEq_varId : LawfulBEq VarId := inferInstance

/-- A field constant, stored as an exact signed integer. -/
abbrev FieldConst := ℤ

/-- `coeff · var`. -/
@[ext] structure Term where
  coeff : FieldConst
  var : VarId
deriving DecidableEq, Repr

/-- `constant + Σ coeff · var`. -/
@[ext] structure LinearCombination where
  constant : FieldConst
  terms : List Term
deriving DecidableEq, Repr

namespace LinearCombination

/-- The zero combination. -/
def zero : LinearCombination := ⟨0, []⟩

/-- The constant one. -/
def one : LinearCombination := ⟨1, []⟩

/-- `1 · v`. -/
def ofVar (v : VarId) : LinearCombination := ⟨0, [⟨1, v⟩]⟩

/-- Is this a bare constant? -/
def isConstant (l : LinearCombination) : Bool := l.terms.isEmpty

/-- The variables of the terms, in order. -/
def vars (l : LinearCombination) : List VarId := l.terms.map Term.var

/-! ### `simplified` -/

/-- Strictly increasing variables and no zero coefficient (`is_canonical`). -/
def Canonical (ts : List Term) : Prop :=
  ts.Pairwise (fun s t => s.var < t.var) ∧ ∀ t ∈ ts, t.coeff ≠ 0

instance (ts : List Term) : Decidable (Canonical ts) := by
  unfold Canonical; infer_instance

/-- The merge loop of `simplified`, with `last` the last term pushed so far. -/
def mergeInto (last : Term) : List Term → List Term
  | [] => [last]
  | t :: ts =>
      if last.var = t.var then mergeInto ⟨last.coeff + t.coeff, last.var⟩ ts
      else last :: mergeInto t ts

/-- Neighbouring terms of one variable added up. -/
def merged : List Term → List Term
  | [] => []
  | t :: ts => mergeInto t ts

/-- Terms in (stable) order of the variable. -/
def sortTerms (ts : List Term) : List Term := ts.insertionSort fun s t => s.var ≤ t.var

/-- Combine repeated variables, drop zero coefficients and sort by variable; terms that are
already so are left as they are. -/
def simplified (l : LinearCombination) : LinearCombination :=
  if Canonical l.terms then l
  else ⟨l.constant, (merged (sortTerms l.terms)).filter fun t => t.coeff ≠ 0⟩

lemma sortTerms_perm (ts : List Term) : (sortTerms ts).Perm ts := List.perm_insertionSort _ ts

lemma simplified_of_canonical {l : LinearCombination} (h : Canonical l.terms) :
    l.simplified = l := if_pos h

@[simp] lemma constant_simplified (l : LinearCombination) :
    l.simplified.constant = l.constant := by
  unfold simplified; split <;> rfl

/-! ### Values -/

section Eval

variable {R : Type*} [CommRing R]

/-- The value of a list of terms under `x`. -/
def evalTerms (ts : List Term) (x : VarId → R) : R := (ts.map fun t => (t.coeff : R) * x t.var).sum

/-- The value of a linear combination under `x`. -/
def eval (l : LinearCombination) (x : VarId → R) : R := l.constant + evalTerms l.terms x

/-- A linear combination as a functional on the columns of a matrix, `u` at the constant column
and `x` at the variables. -/
def dot (u : R) (x : VarId → R) (l : LinearCombination) : R :=
  l.constant * u + evalTerms l.terms x

lemma dot_one (x : VarId → R) (l : LinearCombination) : l.dot 1 x = l.eval x := by
  rw [dot, mul_one, eval]

@[simp] lemma evalTerms_nil (x : VarId → R) : evalTerms [] x = 0 := rfl

@[simp] lemma evalTerms_cons (t : Term) (ts : List Term) (x : VarId → R) :
    evalTerms (t :: ts) x = t.coeff * x t.var + evalTerms ts x := by simp [evalTerms]

@[simp] lemma evalTerms_append (ss ts : List Term) (x : VarId → R) :
    evalTerms (ss ++ ts) x = evalTerms ss x + evalTerms ts x := by simp [evalTerms]

@[simp] lemma eval_ofVar (v : VarId) (x : VarId → R) : (ofVar v).eval x = x v := by
  simp [eval, ofVar]

lemma evalTerms_perm {ss ts : List Term} (h : ss.Perm ts) (x : VarId → R) :
    evalTerms ss x = evalTerms ts x := (h.map _).sum_eq

/-- The value depends on the variables of the terms only. -/
lemma eval_congr (l : LinearCombination) {x y : VarId → R} (h : ∀ v ∈ l.vars, x v = y v) :
    l.eval x = l.eval y := by
  unfold eval evalTerms
  refine congrArg _ (congrArg List.sum (List.map_congr_left fun t ht => ?_))
  rw [h t.var (List.mem_map_of_mem ht)]

lemma evalTerms_mergeInto (t : Term) (ts : List Term) (x : VarId → R) :
    evalTerms (mergeInto t ts) x = t.coeff * x t.var + evalTerms ts x := by
  induction ts generalizing t with
  | nil => simp [mergeInto]
  | cons u ts ih =>
      rw [mergeInto]
      split_ifs with h
      · rw [ih, evalTerms_cons, ← h]
        push_cast
        ring
      · rw [evalTerms_cons, ih, evalTerms_cons]

lemma evalTerms_merged (ts : List Term) (x : VarId → R) :
    evalTerms (merged ts) x = evalTerms ts x := by
  cases ts with
  | nil => rfl
  | cons t ts => rw [merged, evalTerms_mergeInto, evalTerms_cons]

/-- Dropping zero coefficients keeps the value. -/
lemma evalTerms_filter_ne_zero (ts : List Term) (x : VarId → R) :
    evalTerms (ts.filter fun t => t.coeff ≠ 0) x = evalTerms ts x := by
  induction ts with
  | nil => rfl
  | cons t ts ih =>
      by_cases h : t.coeff = 0
      · rw [List.filter_cons_of_neg (by simpa using h), ih, evalTerms_cons, h]
        simp
      · rw [List.filter_cons_of_pos (by simpa using h), evalTerms_cons, ih, evalTerms_cons]

lemma evalTerms_simplified (l : LinearCombination) (x : VarId → R) :
    evalTerms l.simplified.terms x = evalTerms l.terms x := by
  unfold simplified
  split_ifs with h
  · rfl
  · rw [evalTerms_filter_ne_zero, evalTerms_merged, evalTerms_perm (sortTerms_perm l.terms)]

/-- **`simplified` keeps the value**, in every ring and under every assignment. -/
@[simp] lemma eval_simplified (l : LinearCombination) (x : VarId → R) :
    l.simplified.eval x = l.eval x := by
  rw [eval, eval, constant_simplified, evalTerms_simplified]

@[simp] lemma dot_simplified (u : R) (x : VarId → R) (l : LinearCombination) :
    l.simplified.dot u x = l.dot u x := by
  rw [dot, dot, constant_simplified, evalTerms_simplified]

end Eval

/-! ### Variables and canonical form -/

lemma var_mem_mergeInto {t u : Term} {ts : List Term} (h : u ∈ mergeInto t ts) :
    u.var = t.var ∨ ∃ s ∈ ts, s.var = u.var := by
  induction ts generalizing t with
  | nil =>
      rw [mergeInto, List.mem_singleton] at h
      exact Or.inl (congrArg Term.var h)
  | cons s ts ih =>
      rw [mergeInto] at h
      split_ifs at h with hst
      · rcases ih h with h | ⟨r, hr, hru⟩
        · exact Or.inl h
        · exact Or.inr ⟨r, List.mem_cons_of_mem _ hr, hru⟩
      · rcases List.mem_cons.mp h with rfl | h
        · exact Or.inl rfl
        · rcases ih h with h | ⟨r, hr, hru⟩
          · exact Or.inr ⟨s, List.mem_cons_self, h.symm⟩
          · exact Or.inr ⟨r, List.mem_cons_of_mem _ hr, hru⟩

/-- `simplified` brings in no variable. -/
lemma mem_vars_simplified {l : LinearCombination} {v : VarId} (h : v ∈ l.simplified.vars) :
    v ∈ l.vars := by
  unfold simplified at h
  split_ifs at h
  · exact h
  · obtain ⟨u, hu, rfl⟩ := List.mem_map.mp h
    have hu := List.mem_of_mem_filter hu
    have hperm := sortTerms_perm l.terms
    cases hs : sortTerms l.terms with
    | nil => rw [hs] at hu; simp [merged] at hu
    | cons t ts =>
        rw [hs] at hu hperm
        rcases var_mem_mergeInto hu with h | ⟨s, hs', hsu⟩
        · exact List.mem_map.mpr ⟨t, hperm.subset List.mem_cons_self, h.symm⟩
        · exact List.mem_map.mpr ⟨s, hperm.subset (List.mem_cons_of_mem _ hs'), hsu⟩

/-- Merging a sorted list leaves strictly increasing variables. -/
lemma pairwise_mergeInto {t : Term} {ts : List Term}
    (h : (t :: ts).Pairwise fun s u => s.var ≤ u.var) :
    (mergeInto t ts).Pairwise fun s u => s.var < u.var := by
  induction ts generalizing t with
  | nil => simp [mergeInto]
  | cons u ts ih =>
      obtain ⟨hhd, htl⟩ := List.pairwise_cons.mp h
      obtain ⟨huhd, hutl⟩ := List.pairwise_cons.mp htl
      rw [mergeInto]
      split_ifs with htu
      · refine ih (List.pairwise_cons.mpr ⟨fun s hs => ?_, hutl⟩)
        exact hhd s (List.mem_cons_of_mem _ hs)
      · have hlt : t.var < u.var := lt_of_le_of_ne (hhd u List.mem_cons_self) htu
        refine List.pairwise_cons.mpr ⟨fun s hs => ?_, ih htl⟩
        rcases var_mem_mergeInto hs with hsu | ⟨r, hr, hrs⟩
        · exact hsu ▸ hlt
        · exact hrs ▸ hlt.trans_le (huhd r hr)

/-- `simplified` is canonical on every operand. -/
lemma canonical_simplified (l : LinearCombination) : Canonical l.simplified.terms := by
  unfold simplified
  split_ifs with h
  · exact h
  · refine ⟨List.Pairwise.filter _ ?_, fun t ht => by simpa using (List.mem_filter.mp ht).2⟩
    have hsort := List.pairwise_insertionSort (fun s t : Term => s.var ≤ t.var) l.terms
    cases hs : sortTerms l.terms with
    | nil => exact List.Pairwise.nil
    | cons t ts => exact pairwise_mergeInto (hs ▸ hsort)

example : simplified ⟨7, [⟨2, 5⟩, ⟨1, 3⟩, ⟨-2, 5⟩]⟩ = ⟨7, [⟨1, 3⟩]⟩ := by decide

end LinearCombination

end XarkCircuit
