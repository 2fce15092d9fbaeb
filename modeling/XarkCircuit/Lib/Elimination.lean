import XarkCircuit.Lib.Instances
import Mathlib.Logic.Function.Basic
import Mathlib.Data.List.Basic
import Mathlib.Data.Set.Basic

/-!
Elimination of defined variables: what is left of a set of assignments when variables are
replaced, one after the other, by functions of the rest.

* `Ignores f v`: the function `f` of an assignment does not read `v`.
* `Triangular ds`: a list of definitions `v := f`, the last one made first in the list, in which no
  definition reads its own variable or one that was eliminated before it.
* `Triangular.existsUnique`: values for the other variables have exactly one extension that
  satisfies every definition.
* `Reduces S ds R`: the assignments of `S` are those of `R` that satisfy the definitions, and `R`
  reads no defined variable. `Reduces.push` adds one definition, and `Reduces.existsUnique_extension` is the
  result: every assignment of `R` extends to exactly one of `S`.
* `exists_glued` puts extensions for several sets together.
-/

namespace Elimination

variable {V F : Type*} [DecidableEq V]

/-- `f` does not read `v`. -/
def Ignores {α : Type*} (f : (V → F) → α) (v : V) : Prop :=
  ∀ x a, f (Function.update x v a) = f x

/-- A definition: a variable and the function of the others that gives its value. -/
abbrev Def (V F : Type*) := V × ((V → F) → F)

/-- The variables of a list of definitions. -/
def vars (ds : List (Def V F)) : List V := ds.map Prod.fst

/-- The assignment `x` satisfies every definition. -/
def Holds (ds : List (Def V F)) (x : V → F) : Prop := ∀ d ∈ ds, x d.1 = d.2 x

/-- No definition reads its own variable or one eliminated before it (later in the list). -/
def Triangular : List (Def V F) → Prop
  | [] => True
  | d :: ds => d.1 ∉ vars ds ∧ (∀ u ∈ d.1 :: vars ds, Ignores d.2 u) ∧ Triangular ds

/-- A function that ignores each of `us` gives the same on assignments that differ there only. -/
lemma eq_of_ignores {α : Type*} {f : (V → F) → α} {us : List V} (hf : ∀ u ∈ us, Ignores f u)
    {x y : V → F} (h : ∀ v, v ∉ us → x v = y v) : f x = f y := by
  induction us generalizing x with
  | nil => rw [funext fun v => h v (List.not_mem_nil)]
  | cons u us ih =>
      rw [← hf u List.mem_cons_self x (y u)]
      refine ih (fun w hw => hf w (List.mem_cons_of_mem _ hw)) fun v hv => ?_
      by_cases hvu : v = u
      · rw [hvu, Function.update_self]
      · rw [Function.update_of_ne hvu]
        exact h v fun hm => (List.mem_cons.mp hm).elim hvu hv

omit [DecidableEq V] in
@[simp] lemma vars_cons (d : Def V F) (ds : List (Def V F)) : vars (d :: ds) = d.1 :: vars ds := rfl

omit [DecidableEq V] in
lemma holds_cons {d : Def V F} {ds : List (Def V F)} {x : V → F} :
    Holds (d :: ds) x ↔ x d.1 = d.2 x ∧ Holds ds x := List.forall_mem_cons

/-- **Triangular definitions determine their variables**: values for the other variables have
exactly one extension that satisfies every definition. -/
theorem Triangular.existsUnique {ds : List (Def V F)} (h : Triangular ds) (x : V → F) :
    ∃! y, (∀ v, v ∉ vars ds → y v = x v) ∧ Holds ds y := by
  induction ds generalizing x with
  | nil =>
      refine ⟨x, ⟨fun _ _ => rfl, by simp [Holds]⟩, ?_⟩
      rintro y ⟨hy, -⟩
      exact funext fun v => hy v List.not_mem_nil
  | cons d ds ih =>
      obtain ⟨hnew, hign, htri⟩ := h
      -- the newest definition reads only variables that `x` fixes, so it goes first
      obtain ⟨y, ⟨hyx, hyd⟩, huniq⟩ := ih htri (Function.update x d.1 (d.2 x))
      have hself : y d.1 = d.2 x := by rw [hyx d.1 hnew, Function.update_self]
      have hout : ∀ v, v ∉ d.1 :: vars ds → y v = x v := by
        intro v hv
        rw [hyx v fun hm => hv (List.mem_cons_of_mem _ hm),
          Function.update_of_ne fun hm => hv (List.mem_cons.mpr (Or.inl hm))]
      refine ⟨y, ⟨hout, holds_cons.mpr ⟨?_, hyd⟩⟩, ?_⟩
      · rw [hself, eq_of_ignores hign hout]
      · rintro z ⟨hzx, hz⟩
        obtain ⟨hz1, hzd⟩ := holds_cons.mp hz
        refine huniq z ⟨fun v hv => ?_, hzd⟩
        by_cases hvd : v = d.1
        · rw [hvd, Function.update_self, hz1, eq_of_ignores hign hzx]
        · rw [Function.update_of_ne hvd]
          exact hzx v fun hm => (List.mem_cons.mp hm).elim hvd hv

/-- The assignments of `S` are those of `R` that satisfy the definitions `ds`, and `R` reads no
variable that `ds` defines. -/
structure Reduces (S : Set (V → F)) (ds : List (Def V F)) (R : Set (V → F)) : Prop where
  triangular : Triangular ds
  mem_iff : ∀ x, x ∈ S ↔ x ∈ R ∧ Holds ds x
  unread : ∀ v ∈ vars ds, Ignores (· ∈ R) v

namespace Reduces

variable {S R : Set (V → F)} {ds : List (Def V F)}

/-- With no definitions, a set reduces to itself. -/
lemma refl (S : Set (V → F)) : Reduces S [] S :=
  ⟨trivial, fun x => by simp [Holds], by simp [vars]⟩

/-- The reduced set may be replaced by an equal one. -/
lemma congr (h : Reduces S ds R) {R' : Set (V → F)} (hR : ∀ x, x ∈ R' ↔ x ∈ R) :
    Reduces S ds R' := by rwa [Set.ext hR]

/-- One more definition: the set is split into the definition of `v` and a set that reads
neither `v` nor a variable defined before. -/
lemma push (h : Reduces S ds R) {v : V} {f : (V → F) → F} {R' : Set (V → F)} (hv : v ∉ vars ds)
    (hf : ∀ u ∈ v :: vars ds, Ignores f u) (hR : ∀ x, x ∈ R ↔ x ∈ R' ∧ x v = f x)
    (hR' : ∀ u ∈ v :: vars ds, Ignores (· ∈ R') u) : Reduces S ((v, f) :: ds) R' where
  triangular := ⟨hv, hf, h.triangular⟩
  mem_iff x := by rw [h.mem_iff, hR, holds_cons, and_assoc]
  unread := hR'

/-- What reduces to `R` is contained in `R`. -/
lemma sound (h : Reduces S ds R) {x : V → F} (hx : x ∈ S) : x ∈ R := ((h.mem_iff x).mp hx).1

/-- **Every assignment of the reduced set extends**, in exactly one way, to one of the
original set. -/
theorem existsUnique_extension (h : Reduces S ds R) {x : V → F} (hx : x ∈ R) :
    ∃! y, (∀ v, v ∉ vars ds → y v = x v) ∧ y ∈ S := by
  have hcongr : ∀ y, (∀ v, v ∉ vars ds → y v = x v) → y ∈ R := fun y hy =>
    (eq_of_ignores h.unread hy).mpr hx
  obtain ⟨y, ⟨hyx, hyd⟩, huniq⟩ := h.triangular.existsUnique x
  refine ⟨y, ⟨hyx, (h.mem_iff y).mpr ⟨hcongr y hyx, hyd⟩⟩, ?_⟩
  rintro z ⟨hzx, hz⟩
  exact huniq z ⟨hzx, ((h.mem_iff z).mp hz).2⟩

end Reduces

/-! ### Gluing -/

omit [DecidableEq V] in
/-- **Sets that can each be met by changing variables of their own** are met together, when none of
them reads the variables of another. -/
theorem exists_glued {ι : Type*} {W : ι → Set V} {A : ι → Set (V → F)} {x : V → F}
    (hext : ∀ i, ∃ y ∈ A i, ∀ v, v ∉ W i → y v = x v)
    (hdisj : ∀ i j, i ≠ j → ∀ v, v ∈ W i → v ∉ W j)
    (hloc : ∀ i, ∀ y ∈ A i, ∀ z, (∀ v, (∀ j, j ≠ i → v ∉ W j) → z v = y v) → z ∈ A i) :
    ∃ z, (∀ v, (∀ i, v ∉ W i) → z v = x v) ∧ ∀ i, z ∈ A i := by
  classical
  choose y hyA hyx using hext
  have hz : ∀ v, ∃ a, (∀ i, v ∈ W i → a = y i v) ∧ ((∀ i, v ∉ W i) → a = x v) := by
    intro v
    by_cases h : ∃ i, v ∈ W i
    · obtain ⟨i, hi⟩ := h
      refine ⟨y i v, fun j hj => ?_, fun hn => absurd hi (hn i)⟩
      by_cases hij : i = j
      · rw [hij]
      · exact absurd hj (hdisj i j hij v hi)
    · exact ⟨x v, fun i hi => absurd ⟨i, hi⟩ h, fun _ => rfl⟩
  choose z hzW hzx using hz
  refine ⟨z, hzx, fun i => hloc i (y i) (hyA i) z fun v hv => ?_⟩
  by_cases hi : v ∈ W i
  · exact hzW v i hi
  · have hnone : ∀ j, v ∉ W j := fun j => by
      by_cases hji : j = i
      · rwa [hji]
      · exact hv j hji
    rw [hzx v hnone, hyx i v hi]

end Elimination
