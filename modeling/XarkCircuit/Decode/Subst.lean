import XarkCircuit.Ir.Primitive
import XarkCircuit.Ir.R1cs
import XarkCircuit.Lib.Outcome
import Mathlib.Data.List.Destutter

/-!
Templates, calls and the substitution a call makes (`function_decode.rs`).

* `Item α` is an entry of a stream: one `α` (a row, or a witness instruction), a rolled run of
  them, or a call of a template with the base of its fresh variables and one combination for each
  plug. `GDef` is a template.
* `Subst` is a substitution of variables, `callSubst` the one a call makes. `Subst.lookup_callSubst`
  says what the sorted and deduplicated plug list finds: the last expression of a repeated plug.
* `Subst.pull` reads an assignment through a substitution, and `dot_substLc`, `eval_substLc` say
  that substituting and then evaluating is evaluating through the pull.
-/

namespace XarkCircuit

/-! ### Streams -/

/-- An entry of a stream. -/
inductive Item (α : Type)
  | row (r : α)
  | call (d : ℕ) (base : VarId) (plugs : List LinearCombination)
  | rolled (rs : List α)
deriving DecidableEq, Repr

/-- An entry of the constraint stream. -/
abbrev CItem := Item R1csRow

/-- An entry of the witness stream. -/
abbrev WItem := Item (WitnessGen LinearCombination VarId)

/-- A template. -/
structure GDef where
  baseVar : VarId
  plugs : List VarId
  outputs : List VarId
  cItems : List CItem
  wItems : List WItem
deriving DecidableEq, Repr

/-- In related lists an element of the first has its partner at the same position. -/
lemma exists_of_forall₂ {α β : Type} {R : α → β → Prop} {as : List α} {bs : List β}
    (h : List.Forall₂ R as bs) {i : ℕ} {a : α} (ha : as[i]? = some a) :
    ∃ b, bs[i]? = some b ∧ R a b := by
  induction h generalizing i with
  | nil => simp at ha
  | cons hab _ ih =>
      cases i with
      | zero =>
          obtain rfl := Option.some.inj ha
          exact ⟨_, rfl, hab⟩
      | succ i => exact ih ha

/-! ### Substitutions -/

/-- A substitution: the identity, or that of a call. -/
structure Subst where
  dbase : VarId
  base : VarId
  plugs : List (VarId × LinearCombination)
  identity : Bool
deriving DecidableEq, Repr

/-- Where a substitution sends a variable. -/
inductive Image
  | var (v : VarId)
  | lc (l : LinearCombination)
deriving DecidableEq, Repr

/-- The combination a plug variable stands for. -/
def lookup (plugs : List (VarId × LinearCombination)) (v : VarId) : Option LinearCombination :=
  (plugs.find? fun p => p.1 = v).map Prod.snd

namespace Subst

/-- The top level: every variable stands for itself. -/
def IDENTITY : Subst := ⟨0, 0, [], true⟩

/-- Where `v` goes: fresh variables are shifted to the call's base, plugs are replaced, and
everything else is global. -/
def get (s : Subst) (v : VarId) : Image :=
  if s.identity then .var v
  else if s.dbase ≤ v then .var (s.base + (v - s.dbase))
  else
    match lookup s.plugs v with
    | some l => .lc l
    | none => .var v

end Subst

/-- One term of `subst_lc`, added to what the terms before it have become. -/
def substTerm (s : Subst) (acc : LinearCombination) (t : Term) : LinearCombination :=
  match s.get t.var with
  | .var v => ⟨acc.constant, acc.terms ++ [⟨t.coeff, v⟩]⟩
  | .lc p =>
      ⟨if p.constant ≠ 0 then acc.constant + p.constant * t.coeff else acc.constant,
        acc.terms ++ p.terms.map fun pt => ⟨pt.coeff * t.coeff, pt.var⟩⟩

/-- `lc` under `s`. -/
def substLc (lc : LinearCombination) (s : Subst) : LinearCombination :=
  (lc.terms.foldl (substTerm s) ⟨lc.constant, []⟩).simplified

/-- The single variable that an output goes to; a plug without terms panics. -/
def substOut (v : VarId) (s : Subst) : Outcome VarId :=
  match s.get v with
  | .var v => .ok v
  | .lc p => Outcome.orPanic (p.terms.head?.map Term.var)

/-- A row under `s`; the note is dropped. -/
def substRow (s : Subst) (r : R1csRow) : R1csRow :=
  ⟨substLc r.a s, substLc r.b s, substLc r.c s, none⟩

/-- The substitution of a call. The pairs are reversed, sorted (stably) by variable and freed of
repetitions, so that a repeated plug keeps its last expression. -/
def callSubst (d : GDef) (base : VarId) (plugs : List LinearCombination) : Subst where
  dbase := d.baseVar
  base := base
  plugs := ((d.plugs.zip plugs).reverse.insertionSort fun p q => p.1 ≤ q.1).destutter
    fun p q => p.1 ≠ q.1
  identity := false

/-! ### What a call's substitution finds -/

lemma lookup_cons (p : VarId × LinearCombination) (ps : List (VarId × LinearCombination))
    (v : VarId) : lookup (p :: ps) v = if p.1 = v then some p.2 else lookup ps v := by
  rw [lookup, List.find?_cons]
  by_cases h : p.1 = v
  · simp [h]
  · simp [h, lookup]

/-- Keeping the first of neighbours with one key changes no lookup. -/
lemma lookup_destutter (ps : List (VarId × LinearCombination)) (v : VarId) :
    lookup (ps.destutter fun p q => p.1 ≠ q.1) v = lookup ps v := by
  have key : ∀ (ps : List (VarId × LinearCombination)) (p : VarId × LinearCombination),
      lookup (ps.destutter' (fun p q => p.1 ≠ q.1) p) v = lookup (p :: ps) v := by
    intro ps
    induction ps with
    | nil => exact fun p => rfl
    | cons q ps ih =>
        intro p
        rw [List.destutter'_cons]
        split_ifs with h
        · rw [lookup_cons, ih, ← lookup_cons]
        · have hpq : p.1 = q.1 := not_not.mp h
          rw [ih, lookup_cons, lookup_cons p (q :: ps), lookup_cons q, hpq]
          split_ifs <;> rfl
  cases ps with
  | nil => rfl
  | cons p ps => exact key ps p

lemma lookup_orderedInsert (p : VarId × LinearCombination)
    (ps : List (VarId × LinearCombination)) (v : VarId) :
    lookup (ps.orderedInsert (fun p q => p.1 ≤ q.1) p) v = lookup (p :: ps) v := by
  induction ps with
  | nil => rfl
  | cons q ps ih =>
      rw [List.orderedInsert_cons]
      split_ifs with h
      · rfl
      · have hne : p.1 ≠ q.1 := fun he => h he.le
        rw [lookup_cons, ih, lookup_cons, lookup_cons p, lookup_cons q]
        split_ifs with h1 h2
        · exact absurd (h2.trans h1.symm) hne
        all_goals rfl

/-- A stable sort by the key changes no lookup. -/
lemma lookup_insertionSort (ps : List (VarId × LinearCombination)) (v : VarId) :
    lookup (ps.insertionSort fun p q => p.1 ≤ q.1) v = lookup ps v := by
  induction ps with
  | nil => rfl
  | cons p ps ih =>
      rw [List.insertionSort_cons, lookup_orderedInsert, lookup_cons, ih, ← lookup_cons]

/-- The last position of `v`. -/
def rposition (v : VarId) : List VarId → Option ℕ
  | [] => none
  | u :: us =>
      match rposition v us with
      | some i => some (i + 1)
      | none => if u = v then some 0 else none

lemma rposition_lt {v : VarId} {us : List VarId} {i : ℕ} (h : rposition v us = some i) :
    i < us.length := by
  induction us generalizing i with
  | nil => simp [rposition] at h
  | cons u us ih =>
      rw [rposition] at h
      cases hr : rposition v us with
      | some j =>
          rw [hr] at h
          obtain rfl := Option.some.inj h
          exact Nat.succ_lt_succ (ih hr)
      | none =>
          rw [hr] at h
          dsimp only at h
          split_ifs at h
          obtain rfl := Option.some.inj h
          exact Nat.succ_pos _

lemma rposition_eq_none {v : VarId} {us : List VarId} : rposition v us = none ↔ v ∉ us := by
  induction us with
  | nil => simp [rposition]
  | cons u us ih =>
      rw [rposition, List.mem_cons, not_or, ← ih]
      cases rposition v us with
      | some j => simp
      | none =>
          by_cases h : u = v
          · simp [h]
          · simp [h, Ne.symm h]

/-- Looking up a plug finds the expression at its last position. -/
lemma lookup_zip_reverse {us : List VarId} {ls : List LinearCombination}
    (hlen : us.length = ls.length) (v : VarId) :
    lookup (us.zip ls).reverse v = (rposition v us).bind fun i => ls[i]? := by
  induction us generalizing ls with
  | nil => rfl
  | cons u us ih =>
      cases ls with
      | nil => simp at hlen
      | cons l ls =>
          have hlen' : us.length = ls.length := Nat.succ.inj hlen
          have happ : lookup ((u, l) :: us.zip ls).reverse v
              = (lookup (us.zip ls).reverse v).or (if u = v then some l else none) := by
            rw [List.reverse_cons, lookup, List.find?_append, Option.map_or]
            by_cases h : u = v <;> simp [lookup, h]
          rw [List.zip_cons_cons, happ, ih hlen', rposition]
          cases hr : rposition v us with
          | some i =>
              have hi : i < ls.length := hlen' ▸ rposition_lt hr
              simp [List.getElem?_eq_getElem hi]
          | none => by_cases h : u = v <;> simp [h]

/-- **What a call's substitution finds** for a plug variable. -/
lemma lookup_callSubst (d : GDef) (base : VarId) {plugs : List LinearCombination}
    (hlen : d.plugs.length = plugs.length) (v : VarId) :
    lookup (callSubst d base plugs).plugs v = (rposition v d.plugs).bind fun i => plugs[i]? := by
  rw [callSubst, lookup_destutter, lookup_insertionSort, lookup_zip_reverse hlen]

lemma get_callSubst (d : GDef) (base : VarId) {plugs : List LinearCombination}
    (hlen : d.plugs.length = plugs.length) (v : VarId) :
    (callSubst d base plugs).get v = if d.baseVar ≤ v then .var (base + (v - d.baseVar))
      else (((rposition v d.plugs).bind fun i => plugs[i]?).map .lc).getD (.var v) := by
  have hid : ¬(callSubst d base plugs).identity = true := Bool.false_ne_true
  rw [Subst.get, if_neg hid, lookup_callSubst d base hlen]
  cases (rposition v d.plugs).bind fun i => plugs[i]? <;> rfl

/-! ### Reading through a substitution -/

section Pull

variable {R : Type*} [CommRing R]

/-- The assignment `x` read through `s`, with `u` at the constant column. -/
def Subst.pull (s : Subst) (u : R) (x : VarId → R) (v : VarId) : R :=
  match s.get v with
  | .var w => x w
  | .lc l => l.dot u x

lemma Subst.pull_of_var {s : Subst} {v w : VarId} (h : s.get v = .var w) (u : R) (x : VarId → R) :
    s.pull u x v = x w := by rw [Subst.pull, h]

lemma Subst.pull_of_lc {s : Subst} {v : VarId} {l : LinearCombination} (h : s.get v = .lc l)
    (u : R) (x : VarId → R) : s.pull u x v = l.dot u x := by rw [Subst.pull, h]

@[simp] lemma Subst.pull_IDENTITY (u : R) (x : VarId → R) : Subst.IDENTITY.pull u x = x := rfl

lemma evalTerms_scaled (ts : List Term) (c : FieldConst) (x : VarId → R) :
    LinearCombination.evalTerms (ts.map fun t => (⟨t.coeff * c, t.var⟩ : Term)) x
      = c * LinearCombination.evalTerms ts x := by
  induction ts with
  | nil => simp
  | cons t ts ih =>
      rw [List.map_cons, LinearCombination.evalTerms_cons, ih, LinearCombination.evalTerms_cons]
      push_cast
      ring

lemma dot_substTerm (s : Subst) (acc : LinearCombination) (t : Term) (u : R) (x : VarId → R) :
    (substTerm s acc t).dot u x = acc.dot u x + t.coeff * s.pull u x t.var := by
  rw [substTerm, Subst.pull]
  cases s.get t.var with
  | var v =>
      simp only [LinearCombination.dot, LinearCombination.evalTerms_append,
        LinearCombination.evalTerms_cons, LinearCombination.evalTerms_nil]
      ring
  | lc p =>
      simp only [LinearCombination.dot, LinearCombination.evalTerms_append, evalTerms_scaled]
      split_ifs with h
      · push_cast
        ring
      · rw [not_not.mp h]
        push_cast
        ring

/-- **Substituting and then evaluating is evaluating through the pull.** -/
@[simp] lemma dot_substLc (l : LinearCombination) (s : Subst) (u : R) (x : VarId → R) :
    (substLc l s).dot u x = l.dot u (s.pull u x) := by
  have key : ∀ (ts : List Term) (acc : LinearCombination), (ts.foldl (substTerm s) acc).dot u x
      = acc.dot u x + LinearCombination.evalTerms ts (s.pull u x) := by
    intro ts
    induction ts with
    | nil => simp
    | cons t ts ih =>
        intro acc
        rw [List.foldl_cons, ih, dot_substTerm, LinearCombination.evalTerms_cons, add_assoc]
  rw [substLc, LinearCombination.dot_simplified, key]
  simp only [LinearCombination.dot, LinearCombination.evalTerms_nil, add_zero]

@[simp] lemma eval_substLc (l : LinearCombination) (s : Subst) (x : VarId → R) :
    (substLc l s).eval x = l.eval (s.pull 1 x) := by
  rw [← LinearCombination.dot_one, dot_substLc, LinearCombination.dot_one]

end Pull

end XarkCircuit
