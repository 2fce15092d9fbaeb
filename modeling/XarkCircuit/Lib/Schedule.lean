import XarkCircuit.Lib.Instances
import Mathlib.Data.List.Basic
import Mathlib.Data.List.Range

/-!
Runs of partial steps in another order.

* `Commutes step a b`: the steps `a` and `b` may be exchanged, in every state.
* `foldlM_partition`: the steps that satisfy a test may all be run first when each commutes with
  the steps before it that fail the test.
* `foldlM_levels`: a run is the run level by level when a step commutes with every earlier step of
  a higher level.
* `foldlM_snapshot`: where no step sees what another does, all effects may be computed from the
  state before the first and then land in order.
-/

namespace XarkCircuit

section Schedule

variable {σ ι : Type*}

/-- The steps may be exchanged. -/
def Commutes (step : σ → ι → Option σ) (a b : ι) : Prop :=
  ∀ s, (step s a).bind (fun s => step s b) = (step s b).bind fun s => step s a

variable {step : σ → ι → Option σ}

/-- A step that commutes with every step of a run may be made after it. -/
lemma foldlM_push {a : ι} {bs : List ι} (h : ∀ b ∈ bs, Commutes step a b) (s : σ) :
    (step s a).bind (fun s => bs.foldlM step s) = (bs.foldlM step s).bind fun s => step s a := by
  induction bs generalizing s with
  | nil => simp
  | cons b bs ih =>
      have hb := h b List.mem_cons_self
      have hbs : ∀ c ∈ bs, Commutes step a c := fun c hc => h c (List.mem_cons_of_mem _ hc)
      calc (step s a).bind (fun s => (b :: bs).foldlM step s)
          = ((step s a).bind fun s => step s b).bind fun s => bs.foldlM step s := by
            rw [Option.bind_assoc]
            rfl
        _ = (step s b).bind fun s => (step s a).bind fun s => bs.foldlM step s := by
            rw [hb s, Option.bind_assoc]
        _ = (step s b).bind fun s => (bs.foldlM step s).bind fun s => step s a :=
            Option.bind_congr fun s _ => ih hbs s
        _ = ((b :: bs).foldlM step s).bind fun s => step s a := by
            rw [List.foldlM_cons, ← Option.bind_assoc]
            rfl

/-- **The steps that satisfy a test may be run first**, if each commutes with the earlier ones that
do not. -/
theorem foldlM_partition (q : ι → Bool) {l : List ι}
    (h : l.Pairwise fun a b => q a = false → q b = true → Commutes step a b) (s : σ) :
    l.foldlM step s = (l.filter q ++ l.filter fun a => !q a).foldlM step s := by
  induction l generalizing s with
  | nil => rfl
  | cons a l ih =>
      obtain ⟨ha, hl⟩ := List.pairwise_cons.mp h
      rw [List.foldlM_cons]
      by_cases hq : q a
      · rw [List.filter_cons_of_pos hq, List.filter_cons_of_neg (by simp [hq]), List.cons_append,
          List.foldlM_cons]
        exact Option.bind_congr fun s _ => ih hl s
      · have hcomm : ∀ b ∈ l.filter q, Commutes step a b := fun b hb =>
          ha b (List.mem_of_mem_filter hb) (by simpa using hq) (List.mem_filter.mp hb).2
        rw [List.filter_cons_of_neg hq, List.filter_cons_of_pos (by simp [hq]),
          List.foldlM_append]
        simp only [List.foldlM_cons]
        calc (step s a).bind (fun s => l.foldlM step s)
            = ((step s a).bind fun s => (l.filter q).foldlM step s).bind
                fun s => (l.filter fun a => !q a).foldlM step s := by
              rw [Option.bind_assoc]
              refine Option.bind_congr fun s _ => ?_
              rw [ih hl s, List.foldlM_append]
              rfl
          _ = ((l.filter q).foldlM step s).bind fun s => (step s a).bind
                fun s => (l.filter fun a => !q a).foldlM step s := by
              rw [foldlM_push hcomm, Option.bind_assoc]

/-- The steps level by level, the levels in increasing order. -/
def byLevel (level : ι → ℕ) (n : ℕ) (l : List ι) : List ι :=
  (List.range n).flatMap fun k => l.filter fun a => level a = k

/-- **A run is the run level by level**, if a step commutes with the earlier ones of a higher
level. -/
theorem foldlM_levels (level : ι → ℕ) {l : List ι} {n : ℕ} (hn : ∀ a ∈ l, level a < n)
    (h : l.Pairwise fun a b => level b < level a → Commutes step a b) (s : σ) :
    l.foldlM step s = (byLevel level n l).foldlM step s := by
  have key : ∀ k, l.foldlM step s
      = (byLevel level k l ++ l.filter fun a => k ≤ level a).foldlM step s := by
    intro k
    induction k with
    | zero => simp [byLevel]
    | succ k ih =>
        have hfirst : byLevel level (k + 1) l
            = byLevel level k l ++ l.filter fun a => level a = k := by
          rw [byLevel, byLevel, List.range_succ, List.flatMap_append]
          simp
        have hself : ((l.filter fun a => k ≤ level a).filter fun a => level a = k)
            = l.filter fun a => level a = k := by
          rw [List.filter_filter]
          refine List.filter_congr fun a _ => ?_
          by_cases ha : level a = k <;> simp [ha]
        have hrest : ((l.filter fun a => k ≤ level a).filter fun a => !decide (level a = k))
            = l.filter fun a => k + 1 ≤ level a := by
          rw [List.filter_filter]
          refine List.filter_congr fun a _ => ?_
          rw [Bool.eq_iff_iff]
          simp only [Bool.and_eq_true, Bool.not_eq_true', decide_eq_false_iff_not,
            decide_eq_true_eq]
          omega
        rw [ih, List.foldlM_append, hfirst, List.append_assoc, List.foldlM_append]
        refine Option.bind_congr fun s _ => ?_
        rw [foldlM_partition (fun a => level a = k), hself, hrest]
        refine (h.filter _).imp_of_mem fun {a b} ha _ hab hqa hqb => hab ?_
        have hka := of_decide_eq_true (List.mem_filter.mp ha).2
        rw [of_decide_eq_true hqb]
        exact lt_of_le_of_ne hka (Ne.symm (of_decide_eq_false hqa))
  have hnone : (l.filter fun a => n ≤ level a) = [] :=
    List.filter_eq_nil_iff.mpr fun a ha => by simpa using hn a ha
  rw [key n, hnone, List.append_nil]

/-- **Effects computed from the state before the first step**: each step computes an effect and
applies it, and an applied effect changes what no later step computes. -/
theorem foldlM_snapshot {τ : Type*} (compute : σ → ι → Option τ) (apply : σ → τ → σ) {l : List ι}
    (h : l.Pairwise fun a b => ∀ s t, compute s a = some t → compute (apply s t) b = compute s b)
    (s : σ) :
    l.foldlM (fun s a => (compute s a).map (apply s)) s
      = (l.mapM (compute s)).map fun ts => ts.foldl apply s := by
  have key : ∀ (l : List ι) (s₀ s : σ), (∀ b ∈ l, compute s b = compute s₀ b) →
      (l.Pairwise fun a b => ∀ s t, compute s a = some t → compute (apply s t) b = compute s b) →
      l.foldlM (fun s a => (compute s a).map (apply s)) s
        = (l.mapM (compute s₀)).map fun ts => ts.foldl apply s := by
    intro l s₀
    induction l with
    | nil => intro s _ _; rfl
    | cons a l ih =>
        intro s hs hl
        obtain ⟨ha, hl⟩ := List.pairwise_cons.mp hl
        rw [List.foldlM_cons, List.mapM_cons, hs a List.mem_cons_self]
        cases hc : compute s₀ a with
        | none => rfl
        | some t =>
            have hst : compute s a = some t := (hs a List.mem_cons_self).trans hc
            have hrest := ih (apply s t) (fun b hb =>
              (ha b hb s t hst).trans (hs b (List.mem_cons_of_mem _ hb))) hl
            refine hrest.trans ?_
            cases l.mapM (compute s₀) with
            | none => rfl
            | some ts => rfl
  exact key l s s (fun _ _ => rfl) h

/-- Running the pieces one after the other runs all. -/
lemma foldlM_flatMap {κ : Type*} (f : κ → List ι) (ks : List κ) (s : σ) :
    (ks.flatMap f).foldlM step s = ks.foldlM (fun s k => (f k).foldlM step s) s := by
  induction ks generalizing s with
  | nil => rfl
  | cons k ks ih =>
      rw [List.flatMap_cons, List.foldlM_append, List.foldlM_cons]
      exact Option.bind_congr fun s _ => ih s

/-- Computing piece by piece computes all. -/
lemma mapM_flatten {α β : Type*} (f : α → Option β) (ls : List (List α)) :
    (ls.mapM fun l : List α => l.mapM f).map List.flatten = ls.flatten.mapM f := by
  induction ls with
  | nil => rfl
  | cons l ls ih =>
      rw [List.flatten_cons, List.mapM_append, ← ih, List.mapM_cons]
      cases l.mapM f with
      | none => rfl
      | some ts =>
          cases ls.mapM fun l : List α => l.mapM f with
          | none => rfl
          | some tss => rfl

end Schedule

end XarkCircuit
