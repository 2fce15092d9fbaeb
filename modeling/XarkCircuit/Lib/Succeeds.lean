import XarkCircuit.Lib.Instances
import Mathlib.Data.List.Forall2

/-!
Total correctness of computations that may stop with an error.

* `Succeeds x P` says that `x` returns, with a result in `P`. Its rules follow the shape of a
  program: `Succeeds.bind` for a sequence, `Succeeds.foldlM` for a loop with an invariant that counts
  the rounds, `Succeeds.mapM` for a loop that collects.
-/

namespace Succeeding

variable {ε α β σ : Type}

/-- `x` returns, with a result in `P`. -/
def Succeeds (x : Except ε α) (P : α → Prop) : Prop := ∃ a, x = .ok a ∧ P a

lemma bind_eq_ok {x : Except ε α} {f : α → Except ε β} {b : β} :
    x >>= f = .ok b ↔ ∃ a, x = .ok a ∧ f a = .ok b := by
  cases x with
  | error e => simp [bind, Except.bind]
  | ok a => simp [bind, Except.bind]

variable {x : Except ε α} {P Q : α → Prop}

lemma Succeeds.ok {a : α} (h : P a) : Succeeds (.ok a : Except ε α) P := ⟨a, rfl, h⟩

lemma Succeeds.mono (hx : Succeeds x P) (h : ∀ a, P a → Q a) : Succeeds x Q :=
  let ⟨a, ha, hP⟩ := hx
  ⟨a, ha, h a hP⟩

lemma Succeeds.bind {f : α → Except ε β} {R : β → Prop} (hx : Succeeds x P)
    (hf : ∀ a, P a → Succeeds (f a) R) : Succeeds (x >>= f) R := by
  obtain ⟨a, rfl, ha⟩ := hx
  exact hf a ha

/-- The loop rule: `I i` holds of the state after `i` rounds. -/
lemma Succeeds.foldlM {f : σ → α → Except ε σ} {as : List α} (I : ℕ → σ → Prop) {s : σ}
    (h0 : I 0 s)
    (hstep : ∀ i (hi : i < as.length) s, I i s → Succeeds (f s as[i]) (I (i + 1))) :
    Succeeds (as.foldlM f s) (I as.length) := by
  induction as generalizing s I with
  | nil => exact .ok h0
  | cons a as ih =>
      rw [List.foldlM_cons]
      have hhead : Succeeds (f s a) (I 1) := hstep 0 (Nat.succ_pos _) s h0
      refine hhead.bind fun s' hs' => ?_
      exact ih (fun i => I (i + 1)) hs' fun i hi s'' hs'' =>
        hstep (i + 1) (Nat.succ_lt_succ hi) s'' hs''

/-- The rule of a loop that collects. -/
lemma Succeeds.mapM {f : α → Except ε β} {R : α → β → Prop} {as : List α}
    (h : ∀ a ∈ as, Succeeds (f a) (R a)) : Succeeds (as.mapM f) (List.Forall₂ R as) := by
  induction as with
  | nil => exact .ok .nil
  | cons a as ih =>
      rw [List.mapM_cons]
      refine (h a List.mem_cons_self).bind fun b hb => ?_
      refine (ih fun a' ha' => h a' (List.mem_cons_of_mem _ ha')).bind fun bs hbs => ?_
      exact .ok (.cons hb hbs)

end Succeeding
