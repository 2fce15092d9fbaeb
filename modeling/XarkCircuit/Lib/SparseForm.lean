import XarkCircuit.Lib.Instances
import Mathlib.Algebra.Field.Basic
import Mathlib.Algebra.BigOperators.Group.List.Basic
import Mathlib.Order.Basic
import Mathlib.Data.List.Sort
import Mathlib.Tactic.Ring
import Mathlib.Tactic.LinearCombination

/-!
Sparse linear forms: finitely many variables of an ordered type, each with a nonzero
coefficient, kept in increasing order of the variable.

* `SparseForm` carries both invariants as fields, so that a form with a repeated variable or a
  zero coefficient cannot be built.
* `addAt` adds to one coefficient (and forgets the variable when the sum is zero), `erase` drops a
  variable, `scale` multiplies and `axpy` adds a multiple of another form.
* `eval` is the value of a form under an assignment; each operation has one lemma that says what
  it does to the value (`eval_addAt`, `eval_erase`, `eval_scale`, `eval_axpy`) and one that says
  what it does to the variables (`mem_vars_addAt`, `mem_vars_erase`, `mem_vars_axpy`).
-/

/-- Key-value pairs with strictly increasing keys and no zero value. -/
@[ext] structure SparseForm (κ R : Type*) [LT κ] [Zero R] where
  entries : List (κ × R)
  sorted : entries.Pairwise fun p q => p.1 < q.1
  nonzero : ∀ p ∈ entries, p.2 ≠ 0

namespace SparseForm

variable {κ R : Type*} [LinearOrder κ]

/-! ### Operations on the list of entries -/

section Entries

variable [AddMonoid R] [DecidableEq R]

/-- Add `c` to the coefficient of `v`; a coefficient that becomes zero is removed. -/
def addEntry (v : κ) (c : R) : List (κ × R) → List (κ × R)
  | [] => if c = 0 then [] else [(v, c)]
  | (u, d) :: es =>
      if v < u then if c = 0 then (u, d) :: es else (v, c) :: (u, d) :: es
      else if v = u then if d + c = 0 then es else (u, d + c) :: es
      else (u, d) :: addEntry v c es

/-- The keys after `addEntry` are old keys or the new one. -/
lemma key_mem_addEntry {v : κ} {c : R} {es : List (κ × R)} {p : κ × R}
    (hp : p ∈ addEntry v c es) : p.1 = v ∨ ∃ q ∈ es, q.1 = p.1 := by
  induction es with
  | nil =>
      rw [addEntry] at hp
      split at hp <;> simp_all
  | cons e es ih =>
      obtain ⟨u, d⟩ := e
      rw [addEntry] at hp
      split_ifs at hp with h1 h2 h3 h4
      · exact Or.inr ⟨p, hp, rfl⟩
      · rcases List.mem_cons.mp hp with rfl | hp
        · exact Or.inl rfl
        · exact Or.inr ⟨p, hp, rfl⟩
      · exact Or.inr ⟨p, List.mem_cons_of_mem _ hp, rfl⟩
      · rcases List.mem_cons.mp hp with rfl | hp
        · exact Or.inl h3.symm
        · exact Or.inr ⟨p, List.mem_cons_of_mem _ hp, rfl⟩
      · rcases List.mem_cons.mp hp with rfl | hp
        · exact Or.inr ⟨_, List.mem_cons_self, rfl⟩
        · rcases ih hp with h | ⟨q, hq, hqp⟩
          · exact Or.inl h
          · exact Or.inr ⟨q, List.mem_cons_of_mem _ hq, hqp⟩

/-- A key other than `v` is untouched by `addEntry v`. -/
lemma key_mem_addEntry_of_ne {v w : κ} {c : R} (hw : w ≠ v) {es : List (κ × R)}
    (h : ∃ q ∈ es, q.1 = w) : ∃ q ∈ addEntry v c es, q.1 = w := by
  induction es with
  | nil => simp at h
  | cons e es ih =>
      obtain ⟨u, d⟩ := e
      obtain ⟨q, hq, rfl⟩ := h
      rw [addEntry]
      split_ifs with h1 h2 h3 h4
      · exact ⟨q, hq, rfl⟩
      · exact ⟨q, List.mem_cons_of_mem _ hq, rfl⟩
      · rcases List.mem_cons.mp hq with rfl | hq
        · exact absurd h3.symm hw
        · exact ⟨q, hq, rfl⟩
      · rcases List.mem_cons.mp hq with rfl | hq
        · exact absurd h3.symm hw
        · exact ⟨q, List.mem_cons_of_mem _ hq, rfl⟩
      · rcases List.mem_cons.mp hq with rfl | hq
        · exact ⟨_, List.mem_cons_self, rfl⟩
        · obtain ⟨q', hq', hqq⟩ := ih ⟨q, hq, rfl⟩
          exact ⟨q', List.mem_cons_of_mem _ hq', hqq⟩

/-- `addEntry` keeps the keys increasing. -/
lemma sorted_addEntry (v : κ) (c : R) {es : List (κ × R)}
    (h : es.Pairwise fun p q => p.1 < q.1) :
    (addEntry v c es).Pairwise fun p q => p.1 < q.1 := by
  induction es with
  | nil => rw [addEntry]; split <;> simp
  | cons e es ih =>
      obtain ⟨u, d⟩ := e
      obtain ⟨hhd, htl⟩ := List.pairwise_cons.mp h
      rw [addEntry]
      split_ifs with h1 h2 h3 h4
      · exact h
      · refine List.pairwise_cons.mpr ⟨fun p hp => ?_, h⟩
        rcases List.mem_cons.mp hp with rfl | hp
        · exact h1
        · exact h1.trans (hhd p hp)
      · exact htl
      · exact List.pairwise_cons.mpr ⟨fun p hp => hhd p hp, htl⟩
      · refine List.pairwise_cons.mpr ⟨fun p hp => ?_, ih htl⟩
        rcases key_mem_addEntry hp with hv | ⟨q, hq, hqp⟩
        · rw [hv]
          exact lt_of_le_of_ne (not_lt.mp h1) (fun h => h3 h.symm)
        · rw [← hqp]
          exact hhd q hq

/-- `addEntry` stores no zero. -/
lemma nonzero_addEntry (v : κ) (c : R) {es : List (κ × R)} (h : ∀ p ∈ es, p.2 ≠ 0) :
    ∀ p ∈ addEntry v c es, p.2 ≠ 0 := by
  induction es with
  | nil => rw [addEntry]; split <;> simp_all
  | cons e es ih =>
      obtain ⟨u, d⟩ := e
      have htl : ∀ p ∈ es, p.2 ≠ 0 := fun p hp => h p (List.mem_cons_of_mem _ hp)
      rw [addEntry]
      split_ifs with h1 h2 h3 h4
      · exact h
      · exact fun p hp => (List.mem_cons.mp hp).elim (fun e => e ▸ h2) (h p)
      · exact htl
      · exact fun p hp => (List.mem_cons.mp hp).elim (fun e => e ▸ h4) (htl p)
      · exact fun p hp => (List.mem_cons.mp hp).elim (fun e => e ▸ h _ List.mem_cons_self)
          (ih htl p)

/-- Adding at a key past all others appends. -/
lemma addEntry_of_lt {v : κ} {c : R} (hc : c ≠ 0) {es : List (κ × R)} (h : ∀ e ∈ es, e.1 < v) :
    addEntry v c es = es ++ [(v, c)] := by
  induction es with
  | nil => rw [addEntry, if_neg hc, List.nil_append]
  | cons e es ih =>
      obtain ⟨u, d⟩ := e
      have hu : u < v := h _ List.mem_cons_self
      rw [addEntry, if_neg hu.asymm, if_neg hu.ne', ih fun e he => h e (List.mem_cons_of_mem _ he),
        List.cons_append]

end Entries

/-! ### The operations -/

section Basic

variable [Zero R]

instance [DecidableEq R] : DecidableEq (SparseForm κ R) := fun l r =>
  decidable_of_iff (l.entries = r.entries) SparseForm.ext_iff.symm

/-- The form without variables. -/
def empty : SparseForm κ R := ⟨[], List.Pairwise.nil, by simp⟩

/-- The variables of a form, in increasing order. -/
def vars (l : SparseForm κ R) : List κ := l.entries.map Prod.fst

/-- The coefficient of `v`, if `v` occurs. -/
def get? (l : SparseForm κ R) (v : κ) : Option R :=
  (l.entries.find? fun p => p.1 = v).map Prod.snd

/-- The form without the variable `v`. -/
def erase (l : SparseForm κ R) (v : κ) : SparseForm κ R where
  entries := l.entries.filter fun p => p.1 ≠ v
  sorted := l.sorted.filter _
  nonzero p hp := l.nonzero p (List.mem_of_mem_filter hp)

lemma mem_vars {l : SparseForm κ R} {v : κ} : v ∈ l.vars ↔ ∃ p ∈ l.entries, p.1 = v :=
  List.mem_map

lemma mem_vars_erase {l : SparseForm κ R} {v w : κ} :
    w ∈ (l.erase v).vars ↔ w ∈ l.vars ∧ w ≠ v := by
  simp only [mem_vars, erase, List.mem_filter, decide_eq_true_eq]
  constructor
  · rintro ⟨p, ⟨hp, hne⟩, rfl⟩
    exact ⟨⟨p, hp, rfl⟩, hne⟩
  · rintro ⟨⟨p, hp, rfl⟩, hne⟩
    exact ⟨p, ⟨hp, hne⟩, rfl⟩

lemma nodup_vars (l : SparseForm κ R) : l.vars.Nodup := by
  rw [vars, List.Nodup, List.pairwise_map]
  exact l.sorted.imp fun h => ne_of_lt h

/-- Erasing a variable leaves one entry less. -/
lemma length_entries_erase {l : SparseForm κ R} {v : κ} (hv : v ∈ l.vars) :
    (l.erase v).entries.length + 1 = l.entries.length := by
  have hvars : (l.erase v).vars = l.vars.erase v := by
    rw [l.nodup_vars.erase_eq_filter, vars, vars, List.filter_map, erase]
    refine congrArg _ (List.filter_congr fun e _ => ?_)
    simp only [Function.comp_apply, ne_eq, decide_not]
    rfl
  have hlen := congrArg List.length hvars
  rw [List.length_erase_of_mem hv, vars, vars, List.length_map, List.length_map] at hlen
  have hpos := List.length_pos_of_mem hv
  rw [vars, List.length_map] at hpos
  omega

/-- Two entries of one variable are the same entry. -/
lemma entry_unique (l : SparseForm κ R) {p q : κ × R} (hp : p ∈ l.entries) (hq : q ∈ l.entries)
    (h : p.1 = q.1) : p = q :=
  List.inj_on_of_nodup_map l.nodup_vars hp hq h

lemma get?_eq_some {l : SparseForm κ R} {v : κ} {c : R} :
    l.get? v = some c ↔ (v, c) ∈ l.entries := by
  rw [get?, Option.map_eq_some_iff]
  constructor
  · rintro ⟨⟨u, d⟩, hf, rfl⟩
    have hu := List.find?_some hf
    simp only [decide_eq_true_eq] at hu
    exact hu ▸ List.mem_of_find?_eq_some hf
  · intro h
    cases hf : l.entries.find? fun p => p.1 = v with
    | none => simpa using List.find?_eq_none.mp hf _ h
    | some q =>
        have hq := List.find?_some hf
        simp only [decide_eq_true_eq] at hq
        exact ⟨q, rfl, by rw [l.entry_unique (List.mem_of_find?_eq_some hf) h hq]⟩

lemma get?_eq_none {l : SparseForm κ R} {v : κ} : l.get? v = none ↔ v ∉ l.vars := by
  rw [get?, Option.map_eq_none_iff, List.find?_eq_none, mem_vars]
  exact ⟨fun h ⟨p, hp, hpv⟩ => h p hp (by simpa using hpv),
    fun h p hp hpv => h ⟨p, hp, by simpa using hpv⟩⟩

end Basic

section Additive

variable [AddMonoid R] [DecidableEq R]

/-- Add `c` to the coefficient of `v`. -/
def addAt (l : SparseForm κ R) (v : κ) (c : R) : SparseForm κ R where
  entries := addEntry v c l.entries
  sorted := sorted_addEntry v c l.sorted
  nonzero := nonzero_addEntry v c l.nonzero

lemma mem_vars_addAt {l : SparseForm κ R} {v w : κ} {c : R} (h : w ∈ (l.addAt v c).vars) :
    w = v ∨ w ∈ l.vars := by
  obtain ⟨p, hp, rfl⟩ := mem_vars.mp h
  rcases key_mem_addEntry hp with h | ⟨q, hq, hqp⟩
  · exact Or.inl h
  · exact Or.inr (mem_vars.mpr ⟨q, hq, hqp⟩)

end Additive

section Semiring

variable [Semiring R] [DecidableEq R]

/-- The form `m · l`. -/
def scale (l : SparseForm κ R) (m : R) : SparseForm κ R where
  entries := (l.entries.map fun p => (p.1, p.2 * m)).filter fun p => p.2 ≠ 0
  sorted := List.Pairwise.filter _ (List.pairwise_map.mpr (l.sorted.imp fun h => h))
  nonzero p hp := by simpa using (List.mem_filter.mp hp).2

lemma mem_vars_scale {l : SparseForm κ R} {m : R} {w : κ} (h : w ∈ (l.scale m).vars) :
    w ∈ l.vars := by
  obtain ⟨p, hp, rfl⟩ := mem_vars.mp h
  obtain ⟨q, hq, rfl⟩ := List.mem_map.mp (List.mem_filter.mp hp).1
  exact mem_vars.mpr ⟨q, hq, rfl⟩

/-- Multiplying by a value that divides no zero keeps the number of variables. -/
lemma length_entries_scale [NoZeroDivisors R] (l : SparseForm κ R) {m : R} (hm : m ≠ 0) :
    (l.scale m).entries.length = l.entries.length := by
  have hall : ∀ e ∈ l.entries.map fun e => (e.1, e.2 * m), e.2 ≠ 0 := by
    intro e he
    obtain ⟨d, hd, rfl⟩ := List.mem_map.mp he
    exact mul_ne_zero (l.nonzero d hd) hm
  have hfilter := List.filter_eq_self.mpr fun e he => decide_eq_true (hall e he)
  exact (congrArg List.length hfilter).trans (List.length_map _)

/-- The form `l + m · r`. -/
def axpy (l : SparseForm κ R) (m : R) (r : SparseForm κ R) : SparseForm κ R :=
  r.entries.foldl (fun acc p => acc.addAt p.1 (m * p.2)) l

lemma mem_vars_axpy {l : SparseForm κ R} {m : R} {r : SparseForm κ R} {w : κ}
    (h : w ∈ (l.axpy m r).vars) : w ∈ l.vars ∨ w ∈ r.vars := by
  rw [axpy] at h
  have key : ∀ (es : List (κ × R)) (acc : SparseForm κ R),
      w ∈ (es.foldl (fun acc p => acc.addAt p.1 (m * p.2)) acc).vars →
        w ∈ acc.vars ∨ ∃ p ∈ es, p.1 = w := by
    intro es
    induction es with
    | nil => exact fun acc h => Or.inl h
    | cons e es ih =>
        intro acc h
        rcases ih _ h with h | ⟨p, hp, hpw⟩
        · rcases mem_vars_addAt h with rfl | h
          · exact Or.inr ⟨e, List.mem_cons_self, rfl⟩
          · exact Or.inl h
        · exact Or.inr ⟨p, List.mem_cons_of_mem _ hp, hpw⟩
  rcases key _ _ h with h | h
  · exact Or.inl h
  · exact Or.inr (mem_vars.mpr h)

end Semiring

/-! ### Values -/

section Eval

variable [CommRing R]

/-- The value of a list of entries under `x`. -/
def evalEntries (es : List (κ × R)) (x : κ → R) : R := (es.map fun p => p.2 * x p.1).sum

/-- The value of a form under `x`. -/
def eval (l : SparseForm κ R) (x : κ → R) : R := evalEntries l.entries x

omit [LinearOrder κ] in
@[simp] lemma evalEntries_nil (x : κ → R) : evalEntries [] x = 0 := rfl

omit [LinearOrder κ] in
@[simp] lemma evalEntries_cons (p : κ × R) (es : List (κ × R)) (x : κ → R) :
    evalEntries (p :: es) x = p.2 * x p.1 + evalEntries es x := by simp [evalEntries]

@[simp] lemma eval_empty (x : κ → R) : (empty : SparseForm κ R).eval x = 0 := rfl

lemma eval_congr (l : SparseForm κ R) {x y : κ → R} (h : ∀ v ∈ l.vars, x v = y v) :
    l.eval x = l.eval y := by
  refine congrArg List.sum (List.map_congr_left fun p hp => ?_)
  rw [h p.1 (mem_vars.mpr ⟨p, hp, rfl⟩)]

/-- A form without variables has value zero. -/
lemma eval_of_vars_eq_nil {l : SparseForm κ R} (h : l.entries = []) (x : κ → R) :
    l.eval x = 0 := by
  rw [eval, h, evalEntries_nil]

/-- Dropping `v` takes its share out of the value. -/
lemma eval_erase {l : SparseForm κ R} {v : κ} {c : R} (h : l.get? v = some c) (x : κ → R) :
    l.eval x = (l.erase v).eval x + c * x v := by
  have hmem := get?_eq_some.mp h
  have hnd := l.nodup_vars
  have hrest : ∀ es : List (κ × R), (es.map Prod.fst).Nodup → (v, c) ∈ es →
      evalEntries es x = evalEntries (es.filter fun p => p.1 ≠ v) x + c * x v := by
    intro es
    induction es with
    | nil => simp
    | cons e es ih =>
        intro hnd hm
        obtain ⟨hne, hnd⟩ := List.nodup_cons.mp hnd
        rcases List.mem_cons.mp hm with rfl | hm
        · have hall : es.filter (fun p => p.1 ≠ v) = es := by
            refine List.filter_eq_self.mpr fun p hp => ?_
            simp only [ne_eq, decide_not, Bool.not_eq_eq_eq_not, Bool.not_true, decide_eq_false_iff_not]
            exact fun h => hne (List.mem_map.mpr ⟨p, hp, h⟩)
          rw [List.filter_cons_of_neg (by simp), hall, evalEntries_cons]
          ring
        · have hev : e.1 ≠ v := fun h => hne (List.mem_map.mpr ⟨_, hm, h.symm⟩)
          rw [List.filter_cons_of_pos (by simpa using hev), evalEntries_cons, evalEntries_cons,
            ih hnd hm]
          ring
  exact hrest l.entries hnd hmem

variable [DecidableEq R]

lemma evalEntries_addEntry (v : κ) (c : R) (es : List (κ × R)) (x : κ → R) :
    evalEntries (addEntry v c es) x = evalEntries es x + c * x v := by
  induction es with
  | nil => rw [addEntry]; split <;> simp_all
  | cons e es ih =>
      obtain ⟨u, d⟩ := e
      rw [addEntry]
      split_ifs with h1 h2 h3 h4
      · simp [h2]
      · simp only [evalEntries_cons]; ring
      · subst h3
        simp only [evalEntries_cons]
        linear_combination (-x v) * h4
      · subst h3
        simp only [evalEntries_cons]; ring
      · simp only [evalEntries_cons, ih]; ring

/-- `addAt` adds `c` times the variable's value. -/
@[simp] lemma eval_addAt (l : SparseForm κ R) (v : κ) (c : R) (x : κ → R) :
    (l.addAt v c).eval x = l.eval x + c * x v := evalEntries_addEntry v c l.entries x

@[simp] lemma eval_scale (l : SparseForm κ R) (m : R) (x : κ → R) :
    (l.scale m).eval x = m * l.eval x := by
  have key : ∀ es : List (κ × R),
      evalEntries ((es.map fun p => (p.1, p.2 * m)).filter fun p => p.2 ≠ 0) x
        = m * evalEntries es x := by
    intro es
    induction es with
    | nil => simp
    | cons e es ih =>
        rw [List.map_cons, evalEntries_cons]
        by_cases h : e.2 * m = 0
        · rw [List.filter_cons_of_neg (by simpa using h), ih]
          linear_combination (-x e.1) * h
        · rw [List.filter_cons_of_pos (by simpa using h), evalEntries_cons, ih]
          ring
  exact key l.entries

/-- `axpy` adds `m` times the value of the other form. -/
@[simp] lemma eval_axpy (l : SparseForm κ R) (m : R) (r : SparseForm κ R) (x : κ → R) :
    (l.axpy m r).eval x = l.eval x + m * r.eval x := by
  have key : ∀ (es : List (κ × R)) (acc : SparseForm κ R),
      (es.foldl (fun acc p => acc.addAt p.1 (m * p.2)) acc).eval x
        = acc.eval x + m * evalEntries es x := by
    intro es
    induction es with
    | nil => simp
    | cons e es ih =>
        intro acc
        rw [List.foldl_cons, ih, eval_addAt, evalEntries_cons]
        ring
  exact key r.entries l

end Eval

/-! ### Collecting terms -/

section OfTerms

/-- The loop that adds up neighbours of one key, with `last` the last entry pushed so far. -/
def mergeInto [Add R] (last : κ × R) : List (κ × R) → List (κ × R)
  | [] => [last]
  | e :: es =>
      if last.1 = e.1 then mergeInto (last.1, last.2 + e.2) es else last :: mergeInto e es

/-- Neighbours of one key added up. -/
def merged [Add R] : List (κ × R) → List (κ × R)
  | [] => []
  | e :: es => mergeInto e es

/-- Entries in (stable) order of the key. -/
def sortEntries (es : List (κ × R)) : List (κ × R) := es.insertionSort fun e e' => e.1 ≤ e'.1

/-- A merged key is one of the keys. -/
lemma key_mem_mergeInto [Add R] {e f : κ × R} {es : List (κ × R)} (h : f ∈ mergeInto e es) :
    f.1 = e.1 ∨ ∃ g ∈ es, g.1 = f.1 := by
  induction es generalizing e with
  | nil =>
      rw [mergeInto, List.mem_singleton] at h
      exact Or.inl (congrArg Prod.fst h)
  | cons g es ih =>
      rw [mergeInto] at h
      split_ifs at h with heq
      · rcases ih h with h | ⟨k, hk, hkf⟩
        · exact Or.inl h
        · exact Or.inr ⟨k, List.mem_cons_of_mem _ hk, hkf⟩
      · rcases List.mem_cons.mp h with rfl | h
        · exact Or.inl rfl
        · rcases ih h with h | ⟨k, hk, hkf⟩
          · exact Or.inr ⟨g, List.mem_cons_self, h.symm⟩
          · exact Or.inr ⟨k, List.mem_cons_of_mem _ hk, hkf⟩

/-- Merging a sorted list leaves strictly increasing keys. -/
lemma pairwise_mergeInto [Add R] {e : κ × R} {es : List (κ × R)}
    (h : (e :: es).Pairwise fun e e' => e.1 ≤ e'.1) :
    (mergeInto e es).Pairwise fun e e' => e.1 < e'.1 := by
  induction es generalizing e with
  | nil => simp [mergeInto]
  | cons f es ih =>
      obtain ⟨hhd, htl⟩ := List.pairwise_cons.mp h
      obtain ⟨hfhd, hftl⟩ := List.pairwise_cons.mp htl
      rw [mergeInto]
      split_ifs with hef
      · exact ih (List.pairwise_cons.mpr ⟨fun g hg => hhd g (List.mem_cons_of_mem _ hg), hftl⟩)
      · have hlt : e.1 < f.1 := lt_of_le_of_ne (hhd f List.mem_cons_self) hef
        refine List.pairwise_cons.mpr ⟨fun g hg => ?_, ih htl⟩
        rcases key_mem_mergeInto hg with hgf | ⟨k, hk, hkg⟩
        · exact hgf ▸ hlt
        · exact hkg ▸ hlt.trans_le (hfhd k hk)

lemma pairwise_merged_sortEntries [Add R] (es : List (κ × R)) :
    (merged (sortEntries es)).Pairwise fun e e' => e.1 < e'.1 := by
  have hsort := List.pairwise_insertionSort (fun e e' : κ × R => e.1 ≤ e'.1) es
  cases hs : sortEntries es with
  | nil => exact List.Pairwise.nil
  | cons e es => exact pairwise_mergeInto (hs ▸ hsort)

variable [CommRing R] [DecidableEq R]

/-- The form of a list of terms: sorted, repeated keys added up, zeros dropped. -/
def ofTerms (es : List (κ × R)) : SparseForm κ R where
  entries := (merged (sortEntries es)).filter fun e => e.2 ≠ 0
  sorted := (pairwise_merged_sortEntries es).filter _
  nonzero e he := by simpa using (List.mem_filter.mp he).2

omit [DecidableEq R] in
lemma evalEntries_mergeInto (e : κ × R) (es : List (κ × R)) (x : κ → R) :
    evalEntries (mergeInto e es) x = e.2 * x e.1 + evalEntries es x := by
  induction es generalizing e with
  | nil => simp [mergeInto]
  | cons f es ih =>
      rw [mergeInto]
      split_ifs with h
      · rw [ih, evalEntries_cons, ← h]
        ring
      · rw [evalEntries_cons, ih, evalEntries_cons]

omit [LinearOrder κ] in
lemma evalEntries_filter_ne_zero (es : List (κ × R)) (x : κ → R) :
    evalEntries (es.filter fun e => e.2 ≠ 0) x = evalEntries es x := by
  induction es with
  | nil => rfl
  | cons e es ih =>
      by_cases h : e.2 = 0
      · rw [List.filter_cons_of_neg (by simpa using h), ih, evalEntries_cons, h, zero_mul, zero_add]
      · rw [List.filter_cons_of_pos (by simpa using h), evalEntries_cons, ih, evalEntries_cons]

/-- Collecting terms keeps the value. -/
lemma eval_ofTerms (es : List (κ × R)) (x : κ → R) :
    (ofTerms es).eval x = evalEntries es x := by
  have hperm : evalEntries (sortEntries es) x = evalEntries es x :=
    ((List.perm_insertionSort _ es).map _).sum_eq
  rw [eval, ofTerms, evalEntries_filter_ne_zero, ← hperm]
  cases sortEntries es with
  | nil => rfl
  | cons e es => rw [merged, evalEntries_mergeInto, evalEntries_cons]

/-- Collecting terms brings in no key. -/
lemma mem_vars_ofTerms {es : List (κ × R)} {v : κ} (h : v ∈ (ofTerms es).vars) :
    ∃ e ∈ es, e.1 = v := by
  obtain ⟨f, hf, rfl⟩ := mem_vars.mp h
  have hf' := List.mem_of_mem_filter hf
  have hperm : (sortEntries es).Perm es := List.perm_insertionSort _ es
  cases hs : sortEntries es with
  | nil => rw [hs] at hf'; exact absurd hf' (by simp [merged])
  | cons e es' =>
      rw [hs] at hf' hperm
      rcases key_mem_mergeInto hf' with h | ⟨g, hg, hgf⟩
      · exact ⟨e, hperm.subset List.mem_cons_self, h.symm⟩
      · exact ⟨g, hperm.subset (List.mem_cons_of_mem _ hg), hgf⟩

end OfTerms

end SparseForm
