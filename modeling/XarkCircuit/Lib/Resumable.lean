import XarkCircuit.Lib.Instances
import Mathlib.Data.List.Basic
import Mathlib.Logic.Function.Basic

/-!
Machines that are fed in pieces.

* A `Resumable` machine takes turns on its input: a turn fails, rests until there is more input, or
  goes on with what it has not consumed. `Resumable.run` takes turns until it rests.
* Its law `splits` says of one turn that a cut in the input does not matter; `Resumable.run_append`
  and `Resumable.foldlM_run` say it of a whole run, for any number of pieces.
-/

/-- What a turn leads to. -/
inductive Turn (S τ : Type)
  | rest (s : S)
  | next (s : S) (left : List τ)

/-- The state that a turn leads to. -/
def Turn.state {S τ : Type} : Turn S τ → S
  | rest s => s
  | next s _ => s

/-- A machine that takes turns on its input, and does not notice where the input is cut. -/
structure Resumable (S τ ε : Type) where
  turn : S → List τ → Except ε (Turn S τ)
  Measure : Type
  wf : WellFoundedRelation Measure
  measure : S → List τ → Measure
  decreases : ∀ {s s' bs left}, turn s bs = .ok (.next s' left) →
    wf.rel (measure s' left) (measure s bs)
  splits_error : ∀ {s a e} b, turn s a = .error e → turn s (a ++ b) = .error e
  splits_next : ∀ {s s' a left} b, turn s a = .ok (.next s' left) →
    turn s (a ++ b) = .ok (.next s' (left ++ b))
  splits_rest : ∀ {s s' a} b, turn s a = .ok (.rest s') → turn s' b = turn s (a ++ b)

namespace Resumable

variable {S τ ε : Type} (M : Resumable S τ ε)

/-- Turns until the machine rests. -/
def run (s : S) (bs : List τ) : Except ε S :=
  match _h : M.turn s bs with
  | .error e => .error e
  | .ok (.rest s') => .ok s'
  | .ok (.next s' left) => run s' left
termination_by M.wf.wf.wrap (M.measure s bs)
decreasing_by exact M.decreases _h

variable {M}

lemma run_of_error {s : S} {bs : List τ} {e : ε} (h : M.turn s bs = .error e) :
    M.run s bs = .error e := by
  rw [run]
  split <;> simp_all

lemma run_of_rest {s s' : S} {bs : List τ} (h : M.turn s bs = .ok (.rest s')) :
    M.run s bs = .ok s' := by
  rw [run]
  split <;> simp_all

lemma run_of_next {s s' : S} {bs left : List τ} (h : M.turn s bs = .ok (.next s' left)) :
    M.run s bs = M.run s' left := by
  rw [run]
  split <;> simp_all

/-- Runs that start with the same turn are the same. -/
lemma run_congr {s s' : S} {bs cs : List τ} (h : M.turn s bs = M.turn s' cs) :
    M.run s bs = M.run s' cs := by
  cases ht : M.turn s' cs with
  | error e => rw [run_of_error ht, run_of_error (h.trans ht)]
  | ok t =>
      cases t with
      | rest s₁ => rw [run_of_rest ht, run_of_rest (h.trans ht)]
      | next s₁ left => rw [run_of_next ht, run_of_next (h.trans ht)]

/-- What every turn keeps, a run keeps. -/
theorem run_invariant {P : S → Prop}
    (hturn : ∀ {s bs t}, P s → M.turn s bs = .ok t → P t.state) {s s' : S} {bs : List τ} (hs : P s)
    (h : M.run s bs = .ok s') : P s' := by
  cases ht : M.turn s bs with
  | error e =>
      rw [run_of_error ht] at h
      cases h
  | ok t =>
      have hstate := hturn hs ht
      cases t with
      | rest s₁ =>
          rw [run_of_rest ht] at h
          cases h
          exact hstate
      | next s₁ left =>
          rw [run_of_next ht] at h
          exact run_invariant hturn hstate h
termination_by M.wf.wf.wrap (M.measure s bs)
decreasing_by exact M.decreases ht

/-- **A cut in the input does not matter.** -/
theorem run_append (s : S) (a b : List τ) :
    M.run s (a ++ b) = M.run s a >>= fun s' => M.run s' b := by
  cases ht : M.turn s a with
  | error e =>
      rw [run_of_error ht, run_of_error (M.splits_error b ht)]
      rfl
  | ok t =>
      cases t with
      | rest s' =>
          rw [run_of_rest ht]
          exact run_congr (M.splits_rest b ht).symm
      | next s' left =>
          rw [run_of_next ht, run_of_next (M.splits_next b ht)]
          exact run_append s' left b
termination_by M.wf.wf.wrap (M.measure s a)
decreasing_by exact M.decreases ht

/-- **Nor do several**: pieces fed one after the other are as good as their concatenation. -/
theorem foldlM_run (s : S) (piece : List τ) (pieces : List (List τ)) :
    (piece :: pieces).foldlM M.run s = M.run s (piece ++ pieces.flatten) := by
  induction pieces generalizing s piece with
  | nil =>
      rw [List.foldlM_cons, List.flatten_nil, List.append_nil]
      cases M.run s piece <;> rfl
  | cons piece' pieces ih =>
      rw [List.foldlM_cons, List.flatten_cons, run_append]
      cases M.run s piece with
      | error e => rfl
      | ok s' => exact ih s' piece'

end Resumable
