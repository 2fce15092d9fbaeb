import XarkCircuit.Lib.Instances
import Mathlib.Logic.Basic
import Mathlib.Order.Basic
import Mathlib.Order.Nat

/-!
Programs that emit constraints, with hints for the variables they name.

* An `Emitter` reads of a state which names are taken, which assignments satisfy the constraints, and
  which follow the hints.
* `Emits E P s s' Q`: from `s` to `s'` constraints are added that force `Q`, and that hold for
  whoever follows the new hints from an assignment in `P`. The hints can always be followed.
* `Adds` names the hints too. The rules: `Adds.of_iff` for one emission, `Adds.seq` and `Emits.seq`
  for a sequence, `Emits.weaken`.
* `Emits.satisfiable_iff`: the new constraints can be satisfied exactly from `P`.
* `Realizes` has a postcondition in two strengths: what is forced, and what also holds for whoever
  follows the hints.
-/

namespace Emission

variable {σ V F : Type*}

/-- What is read of a state. -/
structure Emitter (σ V F : Type*) where
  /-- The number of a name. -/
  id : V → ℕ
  /-- The names below this are taken. -/
  next : σ → ℕ
  Sat : σ → (V → F) → Prop
  Honest : σ → (V → F) → Prop

namespace Emitter

variable (E : Emitter σ V F)

/-- The same values at the names below `n`. -/
def Agree (n : ℕ) (w w' : V → F) : Prop := ∀ v, E.id v < n → w' v = w v

/-- Only the names below `n` matter. -/
def Local (n : ℕ) (P : (V → F) → Prop) : Prop := ∀ w w', E.Agree n w w' → (P w' ↔ P w)

/-- From any assignment, names from `n` on can be given values in `H`. -/
def Fillable (n : ℕ) (H : (V → F) → Prop) : Prop := ∀ w, ∃ w', E.Agree n w w' ∧ H w'

variable {E}

lemma Agree.refl (n : ℕ) (w : V → F) : E.Agree n w w := fun _ _ => rfl

lemma Agree.mono {m n : ℕ} {w w' : V → F} (h : E.Agree n w w') (hmn : m ≤ n) : E.Agree m w w' :=
  fun v hv => h v (hv.trans_le hmn)

lemma Agree.trans {n : ℕ} {w w' w'' : V → F} (h : E.Agree n w w') (h' : E.Agree n w' w'') :
    E.Agree n w w'' := fun v hv => (h' v hv).trans (h v hv)

lemma Local.mono {m n : ℕ} {P : (V → F) → Prop} (h : E.Local m P) (hmn : m ≤ n) : E.Local n P :=
  fun w w' hw => h w w' (hw.mono hmn)

lemma Local.and {n : ℕ} {P Q : (V → F) → Prop} (hP : E.Local n P) (hQ : E.Local n Q) :
    E.Local n fun w => P w ∧ Q w := fun w w' hw => and_congr (hP w w' hw) (hQ w w' hw)

lemma Local.const (n : ℕ) (p : Prop) : E.Local n fun _ => p := fun _ _ _ => Iff.rfl

lemma Fillable.trivial (n : ℕ) : E.Fillable n fun _ => True :=
  fun w => ⟨w, Agree.refl n w, True.intro⟩

lemma Fillable.mono {n : ℕ} {H H' : (V → F) → Prop} (h : E.Fillable n H) (hH : ∀ w, H w → H' w) :
    E.Fillable n H' := by
  intro w
  obtain ⟨w', hw, hw'⟩ := h w
  exact ⟨w', hw, hH w' hw'⟩

/-- Hints that are followed stay so when later names get values. -/
lemma Fillable.seq {m n : ℕ} {H₁ H₂ : (V → F) → Prop} (hmn : m ≤ n) (h₁ : E.Fillable m H₁)
    (hlocal : E.Local n H₁) (h₂ : E.Fillable n H₂) : E.Fillable m fun w => H₁ w ∧ H₂ w := by
  intro w
  obtain ⟨w₁, hw₁, hH₁⟩ := h₁ w
  obtain ⟨w₂, hw₂, hH₂⟩ := h₂ w₁
  exact ⟨w₂, hw₁.trans (hw₂.mono hmn), (hlocal w₁ w₂ hw₂).mpr hH₁, hH₂⟩

end Emitter

open Emitter

variable {E : Emitter σ V F}

/-- New hints `H` between two states, and what is known of the assignments. -/
structure Adds (E : Emitter σ V F) (P : (V → F) → Prop) (s s' : σ) (H Q : (V → F) → Prop) :
    Prop where
  next_le : E.next s ≤ E.next s'
  mono : ∀ w, E.Sat s' w → E.Sat s w
  post : ∀ w, E.Sat s' w → Q w
  honest : ∀ w, E.Honest s' w → E.Honest s w ∧ H w
  local_ : E.Local (E.next s') H
  fill : E.Fillable (E.next s) H
  complete : ∀ w, E.Sat s w → H w → P w → E.Sat s' w

variable {s s₁ s' : σ} {P P₁ P₂ Q Q₁ Q₂ H H₁ H₂ R : (V → F) → Prop}

/-- New hints and constraints, given by what they say. -/
lemma Adds.of_iff (hnext : E.next s ≤ E.next s') (hsat : ∀ w, E.Sat s' w ↔ E.Sat s w ∧ R w)
    (hhonest : ∀ w, E.Honest s' w → E.Honest s w ∧ H w) (hlocal : E.Local (E.next s') H)
    (hfill : E.Fillable (E.next s) H) (hpost : ∀ w, E.Sat s w → R w → Q w)
    (hcomplete : ∀ w, E.Sat s w → H w → P w → R w) : Adds E P s s' H Q where
  next_le := hnext
  mono := fun w hw => ((hsat w).mp hw).1
  post := fun w hw => hpost w ((hsat w).mp hw).1 ((hsat w).mp hw).2
  honest := hhonest
  local_ := hlocal
  fill := hfill
  complete := fun w hs hH hP => (hsat w).mpr ⟨hs, hcomplete w hs hH hP⟩

/-- **The rule of a sequence**: what the first part forces, and what its hints give, may be used for
the second. -/
lemma Adds.seq (h₁ : Adds E P₁ s s₁ H₁ Q₁) (h₂ : Adds E P₂ s₁ s' H₂ Q₂) (hP : ∀ w, P w → P₁ w)
    (hP₂ : ∀ w, P w → H₁ w → E.Sat s₁ w → Q₁ w → P₂ w)
    (hQ : ∀ w, E.Sat s' w → Q₁ w → Q₂ w → Q w) :
    Adds E P s s' (fun w => H₁ w ∧ H₂ w) Q := by
  constructor
  · exact h₁.next_le.trans h₂.next_le
  · exact fun w hw => h₁.mono w (h₂.mono w hw)
  · exact fun w hw => hQ w hw (h₁.post w (h₂.mono w hw)) (h₂.post w hw)
  · intro w hw
    obtain ⟨hw₁, hH₂⟩ := h₂.honest w hw
    obtain ⟨hw₀, hH₁⟩ := h₁.honest w hw₁
    exact ⟨hw₀, hH₁, hH₂⟩
  · exact (h₁.local_.mono h₂.next_le).and h₂.local_
  · exact Fillable.seq h₁.next_le h₁.fill h₁.local_ h₂.fill
  · intro w hs hH hw
    have hs₁ := h₁.complete w hs hH.1 (hP w hw)
    exact h₂.complete w hs₁ hH.2 (hP₂ w hw hH.1 hs₁ (h₁.post w hs₁))

/-- From `s` to `s'`, constraints are added that force `Q`; following the new hints satisfies them
from `P`. -/
def Emits (E : Emitter σ V F) (P : (V → F) → Prop) (s s' : σ) (Q : (V → F) → Prop) : Prop :=
  ∃ H, Adds E P s s' H Q

lemma Emits.next_le (h : Emits E P s s' Q) : E.next s ≤ E.next s' := h.choose_spec.next_le

lemma Emits.mono (h : Emits E P s s' Q) {w : V → F} (hw : E.Sat s' w) : E.Sat s w :=
  h.choose_spec.mono w hw

lemma Emits.post (h : Emits E P s s' Q) {w : V → F} (hw : E.Sat s' w) : Q w :=
  h.choose_spec.post w hw

/-- **The honest hints** satisfy the new constraints. -/
lemma Emits.complete (h : Emits E P s s' Q) {w : V → F} (hs : E.Sat s w) (hw : E.Honest s' w)
    (hP : P w) : E.Sat s' w :=
  h.choose_spec.complete w hs (h.choose_spec.honest w hw).2 hP

/-- Nothing is emitted. -/
lemma Emits.refl (s : σ) : Emits E P s s fun _ => True :=
  ⟨fun _ => True, {
    next_le := le_rfl
    mono := fun _ h => h
    post := fun _ _ => True.intro
    honest := fun _ h => ⟨h, True.intro⟩
    local_ := Local.const _ True
    fill := Fillable.trivial _
    complete := fun _ h _ _ => h }⟩

lemma Emits.seq (h₁ : Emits E P₁ s s₁ Q₁) (h₂ : Emits E P₂ s₁ s' Q₂)
    (hP : ∀ w, P w → P₁ w) (hP₂ : ∀ w, P w → E.Sat s₁ w → Q₁ w → P₂ w)
    (hQ : ∀ w, E.Sat s' w → Q₁ w → Q₂ w → Q w) : Emits E P s s' Q := by
  obtain ⟨H₁, h₁⟩ := h₁
  obtain ⟨H₂, h₂⟩ := h₂
  exact ⟨_, h₁.seq h₂ hP (fun w hw _ => hP₂ w hw) hQ⟩

/-- A sequence whose second part needs the hints of the first. -/
lemma Adds.andThen (h₁ : Adds E P₁ s s₁ H₁ Q₁) (h₂ : Emits E P₂ s₁ s' Q₂) (hP : ∀ w, P w → P₁ w)
    (hP₂ : ∀ w, P w → H₁ w → E.Sat s₁ w → Q₁ w → P₂ w)
    (hQ : ∀ w, E.Sat s' w → Q₁ w → Q₂ w → Q w) : Emits E P s s' Q := by
  obtain ⟨H₂, h₂⟩ := h₂
  exact ⟨_, h₁.seq h₂ hP hP₂ hQ⟩

lemma Emits.weaken (h : Emits E P₁ s s' Q₁) (hP : ∀ w, E.Sat s w → P w → P₁ w)
    (hQ : ∀ w, E.Sat s' w → Q₁ w → Q w) : Emits E P s s' Q := by
  obtain ⟨H, h⟩ := h
  exact ⟨H, { h with
    post := fun w hw => hQ w hw (h.post w hw)
    complete := fun w hs hH hw => h.complete w hs hH (hP w hs hw) }⟩

/-- **The new constraints can be satisfied** exactly from `P`, where they force it. -/
lemma Emits.satisfiable_iff (h : Emits E P s s' Q) (hsat : E.Local (E.next s) (E.Sat s))
    (hP : E.Local (E.next s) P) (hQ : ∀ w, Q w → P w) {w : V → F} (hw : E.Sat s w) :
    (∃ w', E.Agree (E.next s) w w' ∧ E.Sat s' w') ↔ P w := by
  constructor
  · rintro ⟨w', hagree, hw'⟩
    exact (hP w w' hagree).mp (hQ w' (h.post hw'))
  · intro hPw
    obtain ⟨H, h⟩ := h
    obtain ⟨w', hagree, hH⟩ := h.fill w
    have hs := (hsat w w' hagree).mpr hw
    exact ⟨w', hagree, h.complete w' hs hH ((hP w w' hagree).mpr hPw)⟩

/-! ### What the hints give -/

/-- From `s` to `s'`, constraints are added that force `Q false`; following the new hints satisfies
them from `P`, and gives `Q true`. -/
def Realizes (E : Emitter σ V F) (P : (V → F) → Prop) (s s' : σ) (Q : Bool → (V → F) → Prop) : Prop :=
  ∃ H, Adds E P s s' H (Q false) ∧ ∀ w, E.Sat s' w → H w → Q true w

variable {S S₁ S₂ : Bool → (V → F) → Prop}

lemma Realizes.of_emits (h : Emits E P s s' Q) : Realizes E P s s' fun _ => Q := by
  obtain ⟨H, h⟩ := h
  exact ⟨H, h, fun w hw _ => h.post w hw⟩

lemma Realizes.emits (h : Realizes E P s s' S) : Emits E P s s' (S false) := by
  obtain ⟨H, h, -⟩ := h
  exact ⟨H, h⟩

lemma Realizes.next_le (h : Realizes E P s s' S) : E.next s ≤ E.next s' := h.emits.next_le

lemma Realizes.mono (h : Realizes E P s s' S) {w : V → F} (hw : E.Sat s' w) : E.Sat s w :=
  h.emits.mono hw

/-- Nothing is emitted; what is said is known already. -/
lemma Realizes.pure (h : ∀ honest w, E.Sat s w → S honest w) : Realizes E P s s S := by
  obtain ⟨H, hadds⟩ := (Emits.refl s).weaken (P := P) (Q := S false) (fun _ _ _ => True.intro)
    fun w hw _ => h false w hw
  exact ⟨H, hadds, fun w hw _ => h true w hw⟩

/-- **The rule of a sequence**: the second part may rely on the hints of the first. -/
lemma Realizes.seq (h₁ : Realizes E P₁ s s₁ S₁) (h₂ : Realizes E P₂ s₁ s' S₂) (hP : ∀ w, P w → P₁ w)
    (hP₂ : ∀ w, P w → E.Sat s₁ w → S₁ false w → S₁ true w → P₂ w)
    (hS : ∀ honest w, E.Sat s' w → S₁ honest w → S₂ honest w → S honest w) :
    Realizes E P s s' S := by
  obtain ⟨H₁, h₁, hH₁⟩ := h₁
  obtain ⟨H₂, h₂, hH₂⟩ := h₂
  refine ⟨fun w => H₁ w ∧ H₂ w, h₁.seq h₂ hP (fun w hw hH hs hq => ?_) (hS false), fun w hw hH => ?_⟩
  · exact hP₂ w hw hs hq (hH₁ w hs hH)
  · exact hS true w hw (hH₁ w (h₂.mono w hw) hH.1) (hH₂ w hw hH.2)

lemma Realizes.weaken (h : Realizes E P₁ s s' S₁) (hP : ∀ w, E.Sat s w → P w → P₁ w)
    (hS : ∀ honest w, E.Sat s' w → S₁ honest w → S honest w) : Realizes E P s s' S := by
  obtain ⟨H, h, hH⟩ := h
  exact ⟨H, { h with
    post := fun w hw => hS false w hw (h.post w hw)
    complete := fun w hs hHw hw => h.complete w hs hHw (hP w hs hw) },
    fun w hw hHw => hS true w hw (hH w hw hHw)⟩

/-- **An assignment in `P`** extends to one of the new constraints, by following the hints. -/
lemma Realizes.extend (h : Realizes E P s s' S) (hsat : E.Local (E.next s) (E.Sat s))
    (hP : E.Local (E.next s) P) {w : V → F} (hs : E.Sat s w) (hw : P w) :
    ∃ w', E.Agree (E.next s) w w' ∧ E.Sat s' w' ∧ S true w' := by
  obtain ⟨H, h, hH⟩ := h
  obtain ⟨w', hagree, hHw⟩ := h.fill w
  have hs' := h.complete w' ((hsat w w' hagree).mpr hs) hHw ((hP w w' hagree).mpr hw)
  exact ⟨w', hagree, hs', hH w' hs' hHw⟩

/-- **The honest hints** satisfy the new constraints, and give what they are for. -/
lemma Realizes.complete (h : Realizes E P s s' S) {w : V → F} (hs : E.Sat s w)
    (hw : E.Honest s' w) (hP : P w) : E.Sat s' w ∧ S true w := by
  obtain ⟨H, h, hH⟩ := h
  have hHw := (h.honest w hw).2
  have hsat := h.complete w hs hHw hP
  exact ⟨hsat, hH w hsat hHw⟩

end Emission
