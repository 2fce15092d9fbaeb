import XarkCircuit.Decode.Subst

/-!
Expanding a stream of items (`expand_c`, `expand_w` and their streaming twins).

* `expand` is the one recursion of all four: it emits each row or instruction of the stream under
  a substitution and enters each call with the substitution the call makes. Its bound limits the
  depth of the calls (`expand_fueled`). `expandC` and `expandW` are its instances, and the
  streaming twins emit the same list.
* `WellFormed`: the calls of a circuit are acyclic, name templates that exist, pass one combination
  for each plug and never have a plug as their base. `WellFormed.expands` says that then the
  expansion ends.
-/

namespace XarkCircuit

open Outcome

/-! ### The recursion -/

section Expand

variable {α β : Type}

/-- One item: rows are emitted, and a call expands the body of its template under its own
substitution, the base and the plugs first brought into global coordinates. -/
def expandItem (leaf : Subst → α → Outcome β) (body : GDef → List (Item α)) (defs : List GDef)
    (inner : Subst → List (Item α) → Outcome (List β)) (s : Subst) :
    Item α → Outcome (List β)
  | .row r => leaf s r >>= fun b => .ok [b]
  | .rolled rs => concatM (fun r => leaf s r >>= fun b => .ok [b]) rs
  | .call d base plugs => do
      let g ← orPanic defs[d]?
      let base ← substOut base s
      inner (callSubst g base (plugs.map fun l => substLc l s)) (body g)

/-- The items in order, with calls nested less than the bound. -/
def expand (leaf : Subst → α → Outcome β) (body : GDef → List (Item α)) (defs : List GDef) :
    ℕ → Subst → List (Item α) → Outcome (List β)
  | 0, _, _ => .error .outOfFuel
  | n + 1, s, items => concatM (expandItem leaf body defs (expand leaf body defs n) s) items

variable {leaf : Subst → α → Outcome β} {body : GDef → List (Item α)} {defs : List GDef}

lemma expand_succ (n : ℕ) (s : Subst) (items : List (Item α)) :
    expand leaf body defs (n + 1) s items
      = concatM (expandItem leaf body defs (expand leaf body defs n) s) items := rfl

lemma refined_expandItem {inner inner' : Subst → List (Item α) → Outcome (List β)}
    (h : ∀ s items, Refined (inner s items) (inner' s items)) (s : Subst) (it : Item α) :
    Refined (expandItem leaf body defs inner s it) (expandItem leaf body defs inner' s it) := by
  cases it with
  | row r => exact Refined.refl _
  | rolled rs => exact Refined.refl _
  | call d base plugs =>
      exact (Refined.refl _).bind fun g => (Refined.refl _).bind fun b => h _ _

/-- A larger bound never changes an expansion. -/
lemma expand_fueled (s : Subst) (items : List (Item α)) :
    Fueled fun n => expand leaf body defs n s items := by
  intro n
  induction n generalizing s items with
  | zero => exact Or.inl rfl
  | succ n ih => exact Refined.concatM (fun it => refined_expandItem (fun s its => ih s its) s it) _

end Expand

/-- `expand_c`. -/
def expandC (defs : List GDef) : ℕ → Subst → List CItem → Outcome (List R1csRow) :=
  expand (fun s r => .ok (substRow s r)) GDef.cItems defs

/-- `expand_c_visit`: the rows it emits, in order. -/
def expandCVisit (defs : List GDef) : ℕ → Subst → List CItem → Outcome (List R1csRow) :=
  expandC defs

/-- The variable an output goes to (`substOut`), some variable where that panics. -/
def outVar (s : Subst) (v : VarId) : VarId :=
  match s.get v with
  | .var w => w
  | .lc p => (p.terms.head?.map Term.var).getD 0

/-- An instruction under `s`; an output that goes to a plug without terms panics. -/
def substWitness (s : Subst) (w : WitnessGen LinearCombination VarId) :
    Outcome (WitnessGen LinearCombination VarId) :=
  if w.outs.all fun v => (substOut v s).isOk then .ok (w.map (fun l => substLc l s) (outVar s))
  else .error .panic

/-- `expand_w`. -/
def expandW (defs : List GDef) :
    ℕ → Subst → List WItem → Outcome (List (WitnessGen LinearCombination VarId)) :=
  expand substWitness GDef.wItems defs

/-- `expand_w_visit`: the instructions it emits, in order. -/
def expandWVisit (defs : List GDef) :
    ℕ → Subst → List WItem → Outcome (List (WitnessGen LinearCombination VarId)) :=
  expandW defs

/-! ### Well-formed circuits -/

section WellFormed

variable {α β : Type}

/-- The template an item calls. -/
def Item.callee : Item α → Option ℕ
  | .call d _ _ => some d
  | _ => none

/-- The rows written in an item. -/
def Item.inline : Item α → List α
  | .row r => [r]
  | .rolled rs => rs
  | .call _ _ _ => []

/-- The items of a scope: the top stream (`none`) or the body of a template. -/
def scopeItems (body : GDef → List (Item α)) (top : List (Item α)) : Option GDef → List (Item α)
  | none => top
  | some g => body g

/-- The top is a scope, and each template is. -/
def IsScope (defs : List GDef) (own : Option GDef) : Prop := ∀ g, own = some g → g ∈ defs

/-- In a scope, `v` is not a plug. -/
def NotPlug (own : Option GDef) (v : VarId) : Prop :=
  ∀ g, own = some g → g.baseVar ≤ v ∨ v ∉ g.plugs

/-- A call names a template that exists, with one combination for each plug and a base that is not
a plug of the calling scope. -/
def CallOk (defs : List GDef) (own : Option GDef) : Item α → Prop
  | .call d base plugs =>
      (∃ g, defs[d]? = some g ∧ g.plugs.length = plugs.length) ∧ NotPlug own base
  | _ => True

/-- Every call is in order, and the calls of the templates are acyclic. -/
structure WellFormed (body : GDef → List (Item α)) (defs : List GDef)
    (top : List (Item α)) : Prop where
  calls : ∀ own, IsScope defs own → ∀ it ∈ scopeItems body top own, CallOk defs own it
  acyclic : ∃ rank : ℕ → ℕ, ∀ i g, defs[i]? = some g → ∀ it ∈ body g, ∀ j, it.callee = some j →
    rank j < rank i

variable {body : GDef → List (Item α)} {defs : List GDef} {top : List (Item α)}

/-- A part of the top stream is well formed with it. -/
lemma WellFormed.sub (h : WellFormed body defs top) {is : List (Item α)}
    (hsub : ∀ it ∈ is, it ∈ top) : WellFormed body defs is where
  calls own hown it hit := by
    cases own with
    | none => exact h.calls none hown it (hsub it hit)
    | some g => exact h.calls (some g) hown it hit
  acyclic := h.acyclic

/-- **Induction over the scopes of a well-formed circuit**: what a scope inherits from the templates
it calls holds of every scope. -/
theorem WellFormed.induction (h : WellFormed body defs top) {P : Option GDef → Prop}
    (step : ∀ own, IsScope defs own → (∀ it ∈ scopeItems body top own, ∀ d, it.callee = some d →
      ∀ g, defs[d]? = some g → P (some g)) → P own) {own : Option GDef} (hown : IsScope defs own) :
    P own := by
  obtain ⟨rank, hrank⟩ := h.acyclic
  have key : ∀ k i g, defs[i]? = some g → rank i < k → P (some g) := by
    intro k
    induction k with
    | zero => exact fun i g _ hlt => absurd hlt (Nat.not_lt_zero _)
    | succ k ih =>
        intro i g hg hlt
        refine step (some g) (fun g' hg' => ?_) fun it hit d hd g' hg' => ?_
        · obtain rfl := Option.some.inj hg'
          exact List.mem_of_getElem? hg
        · exact ih d g' hg' (by have := hrank i g hg it hit d hd; omega)
  exact step own hown fun it _ d _ g hg => key (rank d + 1) d g hg (Nat.lt_succ_self _)

/-- The substitutions that occur in a scope: the identity at the top, and in a template those of
its calls. -/
def InScope : Option GDef → Subst → Prop
  | none, s => s = Subst.IDENTITY
  | some g, s => ∃ base plugs, g.plugs.length = plugs.length ∧ s = callSubst g base plugs

/-- A variable that is not a plug goes to a variable. -/
lemma InScope.get_var {own : Option GDef} {s : Subst} (h : InScope own s) {v : VarId}
    (hv : NotPlug own v) : ∃ w, s.get v = .var w := by
  cases own with
  | none =>
      obtain rfl := h
      exact ⟨v, rfl⟩
  | some g =>
      obtain ⟨base, plugs, hlen, rfl⟩ := h
      by_cases hle : g.baseVar ≤ v
      · exact ⟨base + (v - g.baseVar), by simp [Subst.get, callSubst, hle]⟩
      · have hnone : lookup (callSubst g base plugs).plugs v = none := by
          rw [lookup_callSubst g base hlen, rposition_eq_none.mpr ((hv g rfl).resolve_left hle)]
          rfl
        refine ⟨v, ?_⟩
        rw [Subst.get, hnone]
        simp [callSubst, hle]

lemma substOut_of_get {s : Subst} {v w : VarId} (h : s.get v = .var w) :
    substOut v s = .ok w := by rw [substOut, h]

lemma CallOk.inScope {own : Option GDef} {s : Subst} {d : ℕ} {base : VarId}
    {plugs : List LinearCombination} (h : CallOk defs own (.call d base plugs : Item α))
    (hs : InScope own s) :
    ∃ g base', defs[d]? = some g ∧ substOut base s = .ok base' ∧
      InScope (some g) (callSubst g base' (plugs.map fun l => substLc l s)) := by
  obtain ⟨⟨g, hg, hlen⟩, hbase⟩ := h
  obtain ⟨base', hb⟩ := hs.get_var hbase
  exact ⟨g, base', hg, substOut_of_get hb, base', _, by rw [List.length_map, hlen], rfl⟩

/-- A call that is in order names a template. -/
lemma CallOk.exists_def {own : Option GDef} {it : Item α} (h : CallOk defs own it) {d : ℕ}
    (hd : it.callee = some d) : ∃ g, defs[d]? = some g := by
  cases it with
  | row r => exact absurd hd (by simp [Item.callee])
  | rolled rs => exact absurd hd (by simp [Item.callee])
  | call d' base plugs =>
      obtain rfl := Option.some.inj hd
      obtain ⟨⟨g, hg, -⟩, -⟩ := h
      exact ⟨g, hg⟩

/-- Past some bound an expansion is a list that no longer changes. -/
def Expands (leaf : Subst → α → Outcome β) (body : GDef → List (Item α)) (defs : List GDef)
    (s : Subst) (items : List (Item α)) : Prop :=
  ∃ N bs, ∀ n, N ≤ n → expand leaf body defs n s items = .ok bs

lemma expands_of_ok {leaf : Subst → α → Outcome β} {s : Subst} {items : List (Item α)} (n : ℕ)
    (bs : List β) (h : expand leaf body defs n s items = .ok bs) :
    Expands leaf body defs s items :=
  ⟨n, bs, fun m hm => by
    rw [← h]
    exact (expand_fueled s items).stable hm (by rw [h]; simp)⟩

lemma Expands.cons {leaf : Subst → α → Outcome β} {s : Subst} {it : Item α}
    {items : List (Item α)} (h : Expands leaf body defs s [it])
    (hs : Expands leaf body defs s items) : Expands leaf body defs s (it :: items) := by
  obtain ⟨N, bs, hN⟩ := h
  obtain ⟨M, cs, hM⟩ := hs
  have hbs := hN (max N M + 1) (by omega)
  have hcs := hM (max N M + 1) (by omega)
  rw [expand_succ, concatM_singleton] at hbs
  rw [expand_succ] at hcs
  refine expands_of_ok (max N M + 1) (bs ++ cs) ?_
  rw [expand_succ, concatM_cons, hbs, hcs]
  rfl

/-- Rows that do not panic are emitted. -/
lemma concatM_leaf {leaf : Subst → α → Outcome β} {s : Subst} {rs : List α}
    (h : ∀ r ∈ rs, ∃ b, leaf s r = .ok b) :
    ∃ bs, concatM (fun r => leaf s r >>= fun b => .ok [b]) rs = .ok bs := by
  induction rs with
  | nil => exact ⟨[], rfl⟩
  | cons r rs ih =>
      obtain ⟨b, hb⟩ := h r List.mem_cons_self
      obtain ⟨bs, hbs⟩ := ih fun r hr => h r (List.mem_cons_of_mem _ hr)
      exact ⟨b :: bs, by rw [concatM_cons, hb, hbs]; rfl⟩

lemma expands_item {leaf : Subst → α → Outcome β} {own : Option GDef} {s : Subst} {it : Item α}
    (hleaf : ∀ r ∈ it.inline, ∃ b, leaf s r = .ok b) (hok : CallOk defs own it)
    (hs : InScope own s) (hcall : ∀ d, it.callee = some d → ∀ g, defs[d]? = some g →
      ∀ s, InScope (some g) s → Expands leaf body defs s (body g)) :
    Expands leaf body defs s [it] := by
  cases it with
  | row r =>
      obtain ⟨b, hb⟩ := hleaf r List.mem_cons_self
      refine expands_of_ok 1 [b] ?_
      rw [expand_succ, concatM_singleton, expandItem, hb]
      rfl
  | rolled rs =>
      obtain ⟨bs, hbs⟩ := concatM_leaf hleaf
      refine expands_of_ok 1 bs ?_
      rw [expand_succ, concatM_singleton]
      exact hbs
  | call d base plugs =>
      obtain ⟨g, base', hg, hb, hin⟩ := hok.inScope hs
      obtain ⟨N, bs, hN⟩ := hcall d rfl g hg _ hin
      refine expands_of_ok (N + 1) bs ?_
      rw [expand_succ, concatM_singleton, expandItem, hg, orPanic_some, ok_bind, hb, ok_bind]
      exact hN N le_rfl

/-- **The expansion of a well-formed circuit ends** when no row of it panics. -/
theorem WellFormed.expands {leaf : Subst → α → Outcome β} (h : WellFormed body defs top)
    (hleaf : ∀ own, IsScope defs own → ∀ s, InScope own s → ∀ it ∈ scopeItems body top own,
      ∀ r ∈ it.inline, ∃ b, leaf s r = .ok b) {own : Option GDef} (hown : IsScope defs own) :
    ∀ s, InScope own s → Expands leaf body defs s (scopeItems body top own) := by
  refine h.induction (P := fun own => ∀ s, InScope own s →
    Expands leaf body defs s (scopeItems body top own)) ?_ hown
  intro own hown ih s hs
  have hitems : ∀ items : List (Item α), (∀ it ∈ items, it ∈ scopeItems body top own) →
      Expands leaf body defs s items := by
    intro items hsub
    induction items with
    | nil => exact expands_of_ok 1 [] rfl
    | cons it items ihi =>
        have hit := hsub it List.mem_cons_self
        refine Expands.cons ?_ (ihi fun it' h' => hsub it' (List.mem_cons_of_mem _ h'))
        exact expands_item (hleaf own hown s hs it hit) (h.calls own hown it hit) hs
          fun d hd g hg => ih it hit d hd g hg
  exact hitems _ fun _ h => h

end WellFormed

end XarkCircuit
