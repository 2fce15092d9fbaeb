import XarkCircuit.Lib.Instances
import Mathlib.Algebra.Field.Basic
import Mathlib.Algebra.GroupWithZero.Units.Lemmas
import Mathlib.Algebra.BigOperators.Group.List.Lemmas
import Mathlib.Algebra.BigOperators.Ring.List
import Mathlib.Algebra.GroupWithZero.NeZero
import Mathlib.Tactic.FieldSimp

/-!
Many updates that divide, with one division: Montgomery's trick.

* A `Rule` says what an update of a slot divides by and what it makes of it, given the inverse.
* `run` multiplies all denominators up, inverts the product, and goes back through the updates with
  the product of the denominators before each; `none` when the product is zero.
* `run_spec`: where the slots are distinct and no denominator is zero, each update has got its own
  inverse, and the other slots are as before.
-/

namespace BatchInverse

variable {ι S Q F : Type*} [Field F]

/-- What an update divides by, and what it makes of its slot. -/
structure Rule (S Q F : Type*) where
  den : S → Q → F
  upd : S → Q → F → S

/-- The product before each factor, from `p` on. -/
def before (p : F) : List F → List F
  | [] => []
  | d :: ds => p :: before (p * d) ds

lemma length_before (p : F) (ds : List F) : (before p ds).length = ds.length := by
  induction ds generalizing p with
  | nil => rfl
  | cons d ds ih => rw [before, List.length_cons, ih, List.length_cons]

lemma before_append (p : F) (ds : List F) (d : F) :
    before p (ds ++ [d]) = before p ds ++ [p * ds.prod] := by
  induction ds generalizing p with
  | nil => simp [before]
  | cons e ds ih => rw [List.cons_append, before, ih, before, List.prod_cons, mul_assoc]; rfl

variable [DecidableEq ι] (R : Rule S Q F)

/-- One update on the way back: the running inverse loses its denominator. -/
def back (st : F × (ι → S)) (e : (ι × Q) × F) : F × (ι → S) :=
  let s := st.2 e.1.1
  (st.1 * R.den s e.1.2, Function.update st.2 e.1.1 (R.upd s e.1.2 (st.1 * e.2)))

/-- The denominators of the updates. -/
def dens (items : List (ι × Q)) (acc : ι → S) : List F := items.map fun e => R.den (acc e.1) e.2

/-- All updates with one inversion. -/
def run [DecidableEq F] (items : List (ι × Q)) (acc : ι → S) : Option (ι → S) :=
  let ds := dens R items acc
  if ds.prod = 0 then none
  else some (((items.zip (before 1 ds)).reverse.foldl (back R) (ds.prod⁻¹, acc)).2)

variable {R}

omit [DecidableEq ι] in
lemma prod_dens_ne_zero {items : List (ι × Q)} {acc : ι → S}
    (hne : ∀ e ∈ items, R.den (acc e.1) e.2 ≠ 0) : (dens R items acc).prod ≠ 0 := by
  refine List.prod_ne_zero fun hmem => ?_
  obtain ⟨e, he, h0⟩ := List.mem_map.mp hmem
  exact hne e he h0

omit [Field F] in
/-- Updates of other slots leave the denominators alone. -/
lemma dens_update {items : List (ι × Q)} {acc : ι → S} {i : ι} {s : S}
    (h : i ∉ items.map Prod.fst) : dens R items (Function.update acc i s) = dens R items acc := by
  refine List.map_congr_left fun e he => ?_
  have hne : e.1 ≠ i := fun heq => h (heq ▸ List.mem_map_of_mem he)
  rw [Function.update_of_ne hne]

/-- The way back, from the last update to the first. -/
lemma foldl_back {items : List (ι × Q)} {acc : ι → S} (hnodup : (items.map Prod.fst).Nodup)
    (hne : ∀ e ∈ items, R.den (acc e.1) e.2 ≠ 0) :
    let out := ((items.zip (before 1 (dens R items acc))).reverse.foldl (back R)
      ((dens R items acc).prod⁻¹, acc)).2
    (∀ e ∈ items, out e.1 = R.upd (acc e.1) e.2 (R.den (acc e.1) e.2)⁻¹) ∧
      ∀ i, i ∉ items.map Prod.fst → out i = acc i := by
  induction items using List.reverseRecOn generalizing acc with
  | nil => exact ⟨fun e he => absurd he List.not_mem_nil, fun _ _ => rfl⟩
  | append_singleton items e ih =>
      obtain ⟨i, q⟩ := e
      rw [List.map_append, List.map_singleton, List.nodup_append] at hnodup
      obtain ⟨hitems, -, hdisj⟩ := hnodup
      have hi : i ∉ items.map Prod.fst := fun hmem => hdisj i hmem i (List.mem_singleton_self i) rfl
      set d := R.den (acc i) q with hd
      have hd0 : d ≠ 0 := hne (i, q) (List.mem_append_right _ (List.mem_singleton_self _))
      have hdens : dens R (items ++ [(i, q)]) acc = dens R items acc ++ [d] := by
        rw [dens, List.map_append]; rfl
      have hprod0 : (dens R items acc).prod ≠ 0 :=
        prod_dens_ne_zero fun e he => hne e (List.mem_append_left _ he)
      -- the running inverse times the product before is the inverse of this denominator
      have hinv : ((dens R items acc).prod * d)⁻¹ * (1 * (dens R items acc).prod) = d⁻¹ := by
        field_simp
      have hrest : ((dens R items acc).prod * d)⁻¹ * d = (dens R items acc).prod⁻¹ := by
        field_simp
      set acc' := Function.update acc i (R.upd (acc i) q d⁻¹) with hacc'
      have hsame : ∀ j, j ≠ i → acc' j = acc j := fun j hj => Function.update_of_ne hj _ _
      have hother : ∀ e ∈ items, acc' e.1 = acc e.1 := fun e he =>
        hsame _ fun heq => hi (heq ▸ List.mem_map_of_mem he)
      have hstep : ((items ++ [(i, q)]).zip
            (before 1 (dens R (items ++ [(i, q)]) acc))).reverse.foldl
            (back R) ((dens R (items ++ [(i, q)]) acc).prod⁻¹, acc)
          = (items.zip (before 1 (dens R items acc'))).reverse.foldl (back R)
            ((dens R items acc').prod⁻¹, acc') := by
        have hlen : items.length = (before 1 (dens R items acc)).length := by
          rw [length_before, dens, List.length_map]
        rw [hdens, before_append, List.zip_append hlen, List.reverse_append, List.foldl_append,
          dens_update hi]
        simp only [List.zip_cons_cons, List.zip_nil_right, List.reverse_singleton, List.foldl_cons,
          List.foldl_nil, back, List.prod_append, List.prod_singleton, ← hd, hinv, hrest, ← hacc']
      obtain ⟨hupd, hkeep⟩ := @ih acc' hitems fun e he => by
        rw [hother e he]
        exact hne e (List.mem_append_left _ he)
      intro out
      have hout : out = ((items.zip (before 1 (dens R items acc'))).reverse.foldl (back R)
          ((dens R items acc').prod⁻¹, acc')).2 := congrArg Prod.snd hstep
      rw [hout]
      constructor
      · intro e he
        rcases List.mem_append.mp he with hmem | hmem
        · rw [hupd e hmem, hother e hmem]
        · obtain rfl := List.mem_singleton.mp hmem
          rw [hkeep i hi, hacc', Function.update_self]
      · intro j hj
        rw [List.map_append, List.mem_append, not_or] at hj
        rw [hkeep j hj.1]
        exact hsame j fun heq => hj.2 (List.mem_singleton.mpr heq)

/-- **Montgomery's trick**: every update gets the inverse of its own denominator. -/
theorem run_spec [DecidableEq F] {items : List (ι × Q)} {acc : ι → S}
    (hnodup : (items.map Prod.fst).Nodup) (hne : ∀ e ∈ items, R.den (acc e.1) e.2 ≠ 0) :
    ∃ out, run R items acc = some out ∧
      (∀ e ∈ items, out e.1 = R.upd (acc e.1) e.2 (R.den (acc e.1) e.2)⁻¹) ∧
        ∀ i, i ∉ items.map Prod.fst → out i = acc i :=
   ⟨_, if_neg (prod_dens_ne_zero hne), foldl_back hnodup hne⟩

end BatchInverse
