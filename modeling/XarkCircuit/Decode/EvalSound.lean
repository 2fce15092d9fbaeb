import XarkCircuit.Decode.Eval
import Mathlib.Data.Fintype.BigOperators

/-!
Numeric evaluation and its transpose agree with the expansion.

* `Framed own s base ls` relates the substitution of a scope to the frame of its compiled code:
  the base of the fresh variables and the expressions of the plugs. `Framed.get` says what a
  resolved variable stands for.
* `eval_items` is the forward pass, one equation for every bound, and `eval_items_visit` its
  result for a range of the top stream.
* `charge` weighs the columns with arbitrary values, so that one invariant (`adjoint_items`) covers
  the contributions to each column and the sum over all of them. `transpose_eval` is the result.
-/

namespace XarkCircuit.Eval

open Outcome

/-! ### Scopes -/

/-- The substitution `s` of a scope, with the base and the plug expressions of the call. -/
def Framed : Option GDef → Subst → VarId → List LinearCombination → Prop
  | none, s, base, ls => s = .IDENTITY ∧ base = 0 ∧ ls = []
  | some g, s, base, ls => g.plugs.length = ls.length ∧ s = callSubst g base ls

variable {own : Option GDef} {s : Subst} {base : VarId} {ls : List LinearCombination}

lemma Framed.inScope (h : Framed own s base ls) : InScope own s := by
  cases own with
  | none => exact h.1
  | some g => exact ⟨base, ls, h⟩

/-- **What a resolved variable stands for** under the substitution of its scope. -/
lemma Framed.get (h : Framed own s base ls) (v : VarId) :
    match resolve v own with
    | .internal o => s.get v = .var (base + o)
    | .plug i => ∃ l, ls[i]? = some l ∧ s.get v = .lc l
    | .global id => s.get v = .var id := by
  cases own with
  | none =>
      obtain ⟨rfl, -⟩ := h
      rfl
  | some g =>
      obtain ⟨hlen, rfl⟩ := h
      have hget := get_callSubst g base hlen v
      rw [resolve]
      by_cases hle : g.baseVar ≤ v
      · rw [if_pos hle] at hget ⊢
        exact hget
      · rw [if_neg hle] at hget ⊢
        cases hr : rposition v g.plugs with
        | none =>
            rw [hr] at hget
            exact hget
        | some i =>
            have hi : i < ls.length := hlen ▸ rposition_lt hr
            refine ⟨ls.get ⟨i, hi⟩, List.getElem?_eq_getElem hi, ?_⟩
            rw [hr, Option.bind_some, List.getElem?_eq_getElem hi] at hget
            exact hget

/-- A variable that is not a plug resolves to a base. -/
lemma Framed.childBase (h : Framed own s base ls) {v w : VarId} (hw : s.get v = .var w) :
    childBase base (resolve v own) = .ok w := by
  have hv := h.get v
  rw [hw] at hv
  cases hr : resolve v own with
  | internal o =>
      rw [hr] at hv
      rw [Eval.childBase, Image.var.inj hv]
  | plug i =>
      rw [hr] at hv
      obtain ⟨l, -, hl⟩ := hv
      exact absurd hl (by simp)
  | global id =>
      rw [hr] at hv
      rw [Eval.childBase, Image.var.inj hv]

/-- The frame of a call, from the scope that makes it. -/
lemma Framed.call (h : Framed own s base ls) {defs : List GDef} {d : ℕ} {b : VarId}
    {plugs : List LinearCombination} (hok : CallOk defs own (.call d b plugs : CItem)) :
    ∃ g b', defs[d]? = some g ∧ substOut b s = .ok b' ∧
      Eval.childBase base (resolve b own) = .ok b' ∧
      Framed (some g) (callSubst g b' (plugs.map fun l => substLc l s)) b'
        (plugs.map fun l => substLc l s) := by
  obtain ⟨⟨g, hg, hlen⟩, hbase⟩ := hok
  obtain ⟨b', hb⟩ := h.inScope.get_var hbase
  exact ⟨g, b', hg, substOut_of_get hb, h.childBase hb, by rw [List.length_map, hlen], rfl⟩

lemma isScope_of_getElem? {defs : List GDef} {d : ℕ} {g : GDef} (hg : defs[d]? = some g) :
    IsScope defs (some g) := fun _ hg' => Option.some.inj hg' ▸ List.mem_of_getElem? hg

lemma compile_defs {F : Type} [CommRing F] {defs : List GDef} {top : List CItem} {d : ℕ}
    {g : GDef} (hg : defs[d]? = some g) :
    (compile defs top : Compiled F).defs[d]? = some (items g.cItems (some g)) := by
  rw [compile, List.getElem?_map, hg, Option.map_some]

/-! ### The forward pass -/

section Forward

variable {F : Type} [CommRing F]

/-- The frame in which the compiled code of a scope runs. -/
def frame (base : VarId) (ls : List LinearCombination) (z : VarId → F) : Frame F :=
  ⟨base, ls.map fun l => l.eval z⟩

lemma val_resolve (h : Framed own s base ls) (z : VarId → F) (v : VarId) :
    val (frame base ls z) z (resolve v own) = .ok (s.pull 1 z v) := by
  have hv := h.get v
  cases hr : resolve v own with
  | internal o =>
      rw [hr] at hv
      rw [val, Subst.pull, hv]
      rfl
  | plug i =>
      rw [hr] at hv
      obtain ⟨l, hl, hg⟩ := hv
      rw [val, Subst.pull, hg, frame, List.getElem?_map, hl]
      exact congrArg Except.ok (LinearCombination.dot_one z l).symm
  | global id =>
      rw [hr] at hv
      rw [val, Subst.pull, hv]

/-- A compiled combination has the value of the substituted one. -/
lemma evalLc_lc (h : Framed own s base ls) (z : VarId → F) (l : LinearCombination) :
    evalLc (lc l own) (frame base ls z) z = .ok ((substLc l s).eval z) := by
  have key : ∀ (ts : List Term) (acc : F),
      (ts.map fun t => (resolve t.var own, (t.coeff : F))).foldlM (fun acc t => do
        let x ← val (frame base ls z) z t.1
        return acc + x * t.2) acc
        = (.ok (acc + LinearCombination.evalTerms ts (s.pull 1 z)) : Outcome F) := by
    intro ts
    induction ts with
    | nil => simp
    | cons t ts ih =>
        intro acc
        rw [List.map_cons, List.foldlM_cons, val_resolve h, ok_bind, pure_eq_ok, ok_bind, ih,
          LinearCombination.evalTerms_cons]
        refine congrArg _ ?_
        ring
  rw [evalLc, lc, key, eval_substLc, LinearCombination.eval]

/-- The values of the wanted forms of a row under `z`, zero for the others. -/
def rowValues (z : VarId → F) (want : Fin 3 → Bool) (r : R1csRow) (m : Fin 3) : F :=
  if want m then (r.form m).eval z else 0

lemma vec_eta {α : Type} (f : Fin 3 → α) : ![f 0, f 1, f 2] = f :=
  funext fun m => match m with
    | 0 => rfl
    | 1 => rfl
    | 2 => rfl

lemma evalRow_row (h : Framed own s base ls) (z : VarId → F) (want : Fin 3 → Bool) (r : R1csRow) :
    evalRow (frame base ls z) z want (row r own) = .ok (rowValues z want (substRow s r)) := by
  have hform : ∀ (m : Fin 3) (l : LinearCombination), (row r own : Fin 3 → Lc F) m = lc l own →
      (substRow s r).form m = substLc l s →
      evalForm (frame base ls z) z want (row r own) m
        = .ok (rowValues z want (substRow s r) m) := by
    intro m l hl hs
    rw [evalForm, rowValues, hl, evalLc_lc h, hs]
    split_ifs <;> rfl
  rw [evalRow, hform 0 r.a rfl rfl, hform 1 r.b rfl rfl, hform 2 r.c rfl rfl]
  exact congrArg Except.ok (vec_eta _)

lemma mapM_evalLc (h : Framed own s base ls) (z : VarId → F) (plugs : List LinearCombination) :
    (plugs.map fun p => lc p own).mapM (fun p => evalLc p (frame base ls z) z)
      = .ok ((plugs.map fun l => substLc l s).map fun l => l.eval z) := by
  induction plugs with
  | nil => rfl
  | cons p ps ih =>
      rw [List.map_cons, List.mapM_cons, evalLc_lc h, ih]
      rfl

/-- The values of one item of the source. -/
def evalSource (c : Compiled F) (inner : List (Item F) → Frame F → Outcome (List (Fin 3 → F)))
    (f : Frame F) (z : VarId → F) (want : Fin 3 → Bool) (own : Option GDef) :
    CItem → Outcome (List (Fin 3 → F))
  | .row r => evalRow f z want (row r own) >>= fun v => .ok [v]
  | .rolled rs => concatM (fun r => evalRow f z want (row r own) >>= fun v => .ok [v]) rs
  | .call d b plugs =>
      evalItem c inner f z want (.call d (resolve b own) (plugs.map fun p => lc p own))

/-- Emitting the values of compiled items is emitting those of the items of the source. -/
lemma concatM_evalItem (c : Compiled F)
    (inner : List (Item F) → Frame F → Outcome (List (Fin 3 → F))) (f : Frame F) (z : VarId → F)
    (want : Fin 3 → Bool) (own : Option GDef) (src : List CItem) :
    concatM (evalItem c inner f z want) (items src own)
      = concatM (evalSource c inner f z want own) src := by
  have hloop : ∀ {α β : Type} (g : α → Outcome (List β)) (l : List α),
      concatM g l = l.foldlM (fun acc a => g a >>= fun bs => .ok (acc ++ bs)) [] := by
    intro α β g l
    rw [foldlM_emit]
    simp only [List.nil_append, bind_ok]
  have hrows : ∀ (acc : List (Fin 3 → F)) (rs : List (Fin 3 → Lc F)),
      (evalItem c inner f z want (.rows rs) >>= fun bs => .ok (acc ++ bs))
        = rs.foldlM (fun acc r => evalRow f z want r >>= fun v => .ok (acc ++ [v])) acc := by
    intro acc rs
    rw [evalItem, ← foldlM_emit]
    simp only [bind_assoc, ok_bind]
  rw [hloop, hloop, foldlM_items hrows]
  refine congrArg (fun k => List.foldlM k [] src) (funext fun acc => funext fun it => ?_)
  cases it with
  | row r => simp only [stepSource, evalSource, bind_assoc, ok_bind]
  | rolled rs =>
      rw [stepSource, evalSource, ← foldlM_emit]
      simp only [bind_assoc, ok_bind]
  | call d b plugs => rfl

/-- **The forward pass is the expansion, evaluated**: for every bound, the compiled items of a
scope emit the values of the rows that the scope expands to, or fail as the expansion does. -/
theorem eval_items {defs : List GDef} {top : List CItem} (wf : WellFormed GDef.cItems defs top)
    (z : VarId → F) (want : Fin 3 → Bool) (n : ℕ) {own : Option GDef} (hown : IsScope defs own)
    {s : Subst} {base : VarId} {ls : List LinearCombination} (h : Framed own s base ls)
    {src : List CItem} (hsrc : ∀ it ∈ src, CallOk defs own it) :
    eval (compile defs top) z want n (items src own) (frame base ls z)
      = List.map (rowValues z want) <$> expandC defs n s src := by
  induction n generalizing own s base ls src with
  | zero => rfl
  | succ n ih =>
      have hrow : ∀ r, (evalRow (frame base ls z) z want (row r own) >>= fun v => .ok [v])
          = List.map (rowValues z want) <$>
            ((.ok (substRow s r) : Outcome R1csRow) >>= fun b => .ok [b]) := by
        intro r
        rw [evalRow_row h]
        rfl
      rw [eval, concatM_evalItem, expandC, expand_succ, map_concatM]
      refine concatM_congr fun it hit => ?_
      cases it with
      | row r => exact hrow r
      | rolled rs =>
          rw [evalSource, expandItem, map_concatM]
          exact concatM_congr fun r _ => hrow r
      | call d b plugs =>
          obtain ⟨g, b', hg, hb, hcb, hfr⟩ := h.call (hsrc _ hit)
          have hgmem : IsScope defs (some g) := isScope_of_getElem? hg
          rw [evalSource, evalItem, mapM_evalLc h, ok_bind, frame, hcb, ok_bind, compile_defs hg,
            orPanic_some, ok_bind, expandItem, hg, orPanic_some, ok_bind, hb, ok_bind]
          exact ih hgmem hfr (wf.calls (some g) hgmem)

lemma mem_of_slice {α : Type} {l is : List α} {lo hi : ℕ} (h : slice l lo hi = .ok is) {a : α}
    (ha : a ∈ is) : a ∈ l := by
  rw [slice] at h
  split_ifs at h
  obtain rfl := Except.ok.inj h
  exact List.mem_of_mem_drop (List.mem_of_mem_take ha)

lemma slice_map {α β : Type} (f : α → β) {l is : List α} {lo hi : ℕ}
    (h : slice l lo hi = .ok is) : slice (l.map f) lo hi = .ok (is.map f) := by
  rw [slice] at h ⊢
  split_ifs at h with hr
  obtain rfl := Except.ok.inj h
  rw [List.length_map, if_pos hr, List.map_take, List.map_drop]

/-- **Evaluating a range of the top stream is expanding and evaluating it**: past some bound,
`visit_items` emits a list of rows and `eval_items` their values, row by row and in order. -/
theorem eval_items_visit {defs : List GDef} {top : List CItem}
    (wf : WellFormed GDef.cItems defs top) {lo hi : ℕ} (hr : lo ≤ hi ∧ hi ≤ top.length) :
    ∃ N rows, ∀ n, N ≤ n → visitItems defs top n lo hi = .ok rows ∧
      ∀ (z : VarId → F) (want : Fin 3 → Bool),
        evalItems defs top n lo hi z want = .ok (rows.map (rowValues z want)) := by
  obtain ⟨is, his⟩ : ∃ is, slice top lo hi = .ok is := ⟨_, if_pos hr⟩
  have wfs := wf.sub fun it => mem_of_slice his
  have hnone : IsScope defs none := by simp [IsScope]
  obtain ⟨N, rows, hN⟩ := wfs.expands (fun _ _ _ _ _ _ r _ => ⟨_, rfl⟩) hnone .IDENTITY rfl
  refine ⟨N + 1, rows, fun n hn => ?_⟩
  obtain ⟨n, rfl⟩ : ∃ k, n = k + 1 := ⟨n - 1, by omega⟩
  have hrows : expandC defs (n + 1) .IDENTITY is = .ok rows := hN (n + 1) (by omega)
  refine ⟨by rw [visitItems, his, ok_bind]; exact hrows, fun z want => ?_⟩
  have htop : slice (compile defs top : Compiled F).top lo hi
      = .ok (is.map fun it => items [it] none) := slice_map _ his
  rw [evalItems, htop, ok_bind, ← map_ok, ← hrows, expandC, expand_succ, map_concatM, concatM_map]
  refine concatM_congr fun it hit => ?_
  have hit' : ∀ i ∈ [it], CallOk defs none i := fun i hi => by
    rw [List.mem_singleton.mp hi]
    exact wfs.calls none hnone it hit
  have htopFrame : Framed none .IDENTITY 0 [] := ⟨rfl, rfl, rfl⟩
  have hone := eval_items wf z want (n + 1) hnone htopFrame hit'
  rw [expandC, expand_succ, concatM_singleton] at hone
  exact hone

end Forward

/-! ### The transpose -/

section Transpose

variable {F : Type} [CommRing F] [DecidableEq F]

/-- The value at a column: `u` at the constant column, `x` at the variables. -/
def column (u : F) (x : VarId → F) : Option VarId → F
  | none => u
  | some v => x v

/-- The contributions to matrix `m`, each times the value at its column. -/
def emittedCharge (es : List (Contribution F)) (m : Fin 3) (u : F) (x : VarId → F) : F :=
  (es.map fun e => if e.m = m then e.value * column u x e.var else 0).sum

/-- The weights gathered for the plugs `ls`, each times the value of the plug. -/
def plugCharge (adj : List (Fin 3 → F)) (ls : List LinearCombination) (m : Fin 3) (u : F)
    (x : VarId → F) : F :=
  ((adj.zip ls).map fun p => p.1 m * p.2.dot u x).sum

/-- The rows from index `row` on, each form `m` times the weight of its row. -/
def weighted (w : List F) (row : ℕ) (rows : List R1csRow) (m : Fin 3) (u : F) (x : VarId → F) : F :=
  ((rows.zipIdx row).map fun r => w.getD r.2 0 * (r.1.form m).dot u x).sum

omit [DecidableEq F] in
@[simp] lemma weighted_nil (w : List F) (row : ℕ) (m : Fin 3) (u : F) (x : VarId → F) :
    weighted w row [] m u x = 0 := rfl

omit [DecidableEq F] in
lemma weighted_append (w : List F) (row : ℕ) (rs rs' : List R1csRow) (m : Fin 3) (u : F)
    (x : VarId → F) : weighted w row (rs ++ rs') m u x
      = weighted w row rs m u x + weighted w (row + rs.length) rs' m u x := by
  rw [weighted, List.zipIdx_append, List.map_append, List.sum_append]
  rfl

/-- From `st` to `st'`, `k` rows were passed and the charge, against the plugs `ls`, grew by `g`. -/
structure Adds (ls : List LinearCombination) (st st' : AdjState F) (k : ℕ)
    (g : Fin 3 → F → (VarId → F) → F) : Prop where
  row : st'.row = st.row + k
  length : st'.myAdj.length = st.myAdj.length
  charge : ∀ m u x, emittedCharge st'.emitted m u x + plugCharge st'.myAdj ls m u x
    = emittedCharge st.emitted m u x + plugCharge st.myAdj ls m u x + g m u x

variable {own : Option GDef} {s : Subst} {base : VarId} {ls : List LinearCombination}

omit [DecidableEq F] in
lemma Adds.refl (ls : List LinearCombination) (st : AdjState F) : Adds ls st st 0 fun _ _ _ => 0 :=
  ⟨rfl, rfl, fun _ _ _ => (add_zero _).symm⟩

omit [DecidableEq F] in
lemma Adds.trans {st st' st'' : AdjState F} {k k' : ℕ} {g g' : Fin 3 → F → (VarId → F) → F}
    (h : Adds ls st st' k g) (h' : Adds ls st' st'' k' g') :
    Adds ls st st'' (k + k') fun m u x => g m u x + g' m u x where
  row := by rw [h'.row, h.row, Nat.add_assoc]
  length := h'.length.trans h.length
  charge m u x := by rw [h'.charge, h.charge, add_assoc]

omit [DecidableEq F] in
lemma Adds.of_eq {st st' : AdjState F} {k k' : ℕ} {g g' : Fin 3 → F → (VarId → F) → F}
    (h : Adds ls st st' k g) (hk : k = k') (hg : ∀ m u x, g m u x = g' m u x) :
    Adds ls st st' k' g' :=
  ⟨hk ▸ h.row, h.length, fun m u x => by rw [h.charge, hg]⟩

omit [DecidableEq F] in
lemma adds_emit (st : AdjState F) (var : Option VarId) (m : Fin 3) (v : F) :
    Adds ls st (st.emit var m v) 0
      fun m' u x => if m = m' then v * column u x var else 0 where
  row := rfl
  length := rfl
  charge m' u x := by
    simp only [AdjState.emit, emittedCharge, List.map_append, List.sum_append, List.map_cons,
      List.map_nil, List.sum_cons, List.sum_nil, add_zero]
    ring

omit [DecidableEq F] in
lemma plugCharge_set {adj : List (Fin 3 → F)} {i : ℕ} {a : Fin 3 → F} {l : LinearCombination}
    (ha : adj[i]? = some a) (hl : ls[i]? = some l) (m m' : Fin 3) (v u : F) (x : VarId → F) :
    plugCharge (adj.set i (Function.update a m (a m + v))) ls m' u x
      = plugCharge adj ls m' u x + if m = m' then v * l.dot u x else 0 := by
  have hupd : Function.update a m (a m + v) m' = a m' + if m = m' then v else 0 := by
    by_cases h : m = m'
    · rw [← h, Function.update_self, if_pos rfl]
    · rw [Function.update_of_ne (Ne.symm h), if_neg h, add_zero]
  induction i generalizing adj ls with
  | zero =>
      cases adj with
      | nil => simp at ha
      | cons b adj =>
          cases ls with
          | nil => simp at hl
          | cons l' ls =>
              obtain rfl := Option.some.inj ha
              obtain rfl := Option.some.inj hl
              simp only [plugCharge, List.set_cons_zero, List.zip_cons_cons, List.map_cons,
                List.sum_cons, hupd]
              split_ifs <;> ring
  | succ i ih =>
      cases adj with
      | nil => simp at ha
      | cons b adj =>
          cases ls with
          | nil => simp at hl
          | cons l' ls =>
              have hrest := ih ha hl
              simp only [plugCharge, List.set_cons_succ, List.zip_cons_cons, List.map_cons,
                List.sum_cons] at hrest ⊢
              rw [hrest, add_assoc]

omit [DecidableEq F] in
/-- Routing to one variable charges it with what the substitution makes of it. -/
lemma routeTerm_adds (h : Framed own s base ls) (m : Fin 3) (st : AdjState F)
    (hlen : st.myAdj.length = ls.length) (w : VarId) (v : F) :
    ∃ st', routeTerm m base st (resolve w own) v = .ok st' ∧
      Adds ls st st' 0 fun m' u x => if m = m' then v * s.pull u x w else 0 := by
  have hw := h.get w
  cases hr : resolve w own with
  | internal o =>
      rw [hr] at hw
      refine ⟨_, rfl, (adds_emit st _ m v).of_eq rfl fun m' u x => ?_⟩
      rw [Subst.pull, hw, column]
  | global id =>
      rw [hr] at hw
      refine ⟨_, rfl, (adds_emit st _ m v).of_eq rfl fun m' u x => ?_⟩
      rw [Subst.pull, hw, column]
  | plug i =>
      rw [hr] at hw
      obtain ⟨l, hl, hg⟩ := hw
      have hi : i < st.myAdj.length := by
        rw [hlen]
        exact (List.getElem?_eq_some_iff.mp hl).1
      have ha : st.myAdj[i]? = some (st.myAdj.get ⟨i, hi⟩) := List.getElem?_eq_getElem hi
      set a := st.myAdj.get ⟨i, hi⟩
      refine ⟨{ st with myAdj := st.myAdj.set i (Function.update a m (a m + v)) },
        by rw [routeTerm, ha]; rfl, rfl, List.length_set, fun m' u x => ?_⟩
      dsimp only
      rw [plugCharge_set ha hl, Subst.pull, hg, add_assoc]

/-- Routing a combination charges what the substituted combination is worth. -/
lemma route_adds (h : Framed own s base ls) (m : Fin 3) (st : AdjState F)
    (hlen : st.myAdj.length = ls.length) (l : LinearCombination) (c : F) :
    ∃ st', route (lc l own) c m base st = .ok st' ∧
      Adds ls st st' 0 fun m' u x => if m = m' then c * (substLc l s).dot u x else 0 := by
  have key : ∀ (ts : List Term) (st : AdjState F), st.myAdj.length = ls.length →
      ∃ st', (ts.map fun t => (resolve t.var own, (t.coeff : F))).foldlM
          (fun st t => routeTerm m base st t.1 (c * t.2)) st = .ok st' ∧
        Adds ls st st' 0 fun m' u x =>
          if m = m' then c * LinearCombination.evalTerms ts (s.pull u x) else 0 := by
    intro ts
    induction ts with
    | nil =>
        intro st _
        exact ⟨st, rfl, (Adds.refl ls st).of_eq rfl fun m' u x => by simp⟩
    | cons t ts ih =>
        intro st hlen
        obtain ⟨st₁, h₁, ha₁⟩ := routeTerm_adds h m st hlen t.var (c * t.coeff)
        obtain ⟨st₂, h₂, ha₂⟩ := ih st₁ (ha₁.length.trans hlen)
        refine ⟨st₂, ?_, (ha₁.trans ha₂).of_eq rfl fun m' u x => ?_⟩
        · rw [List.map_cons, List.foldlM_cons, h₁, ok_bind, h₂]
        · rw [LinearCombination.evalTerms_cons]
          split_ifs <;> ring
  have hconst : Adds ls st (if (l.constant : F) ≠ 0 then st.emit none m (c * l.constant) else st) 0
      fun m' u _ => if m = m' then c * (l.constant * u) else 0 := by
    split_ifs with h0
    · exact (adds_emit st none m _).of_eq rfl fun m' u x => by rw [column, mul_assoc]
    · exact (Adds.refl ls st).of_eq rfl fun m' u x => by simp [not_not.mp h0]
  obtain ⟨st', hst', ha⟩ := key l.terms _ (hconst.length.trans hlen)
  refine ⟨st', hst', (hconst.trans ha).of_eq rfl fun m' u x => ?_⟩
  rw [dot_substLc, LinearCombination.dot]
  split_ifs <;> ring

lemma routeEach_adds (h : Framed own s base ls) (st : AdjState F)
    (hlen : st.myAdj.length = ls.length) (l : Fin 3 → LinearCombination) (c : Fin 3 → F) :
    ∃ st', routeEach (fun m => lc (l m) own) c base st = .ok st' ∧
      Adds ls st st' 0 fun m u x => c m * (substLc (l m) s).dot u x := by
  have key : ∀ (ms : List (Fin 3)), ms.Nodup → ∀ st : AdjState F, st.myAdj.length = ls.length →
      ∃ st', ms.foldlM (fun st m => if c m = 0 then .ok st
          else route (lc (l m) own) (c m) m base st) st = (.ok st' : Outcome (AdjState F)) ∧
        Adds ls st st' 0 fun m u x => if m ∈ ms then c m * (substLc (l m) s).dot u x else 0 := by
    intro ms hms
    induction ms with
    | nil =>
        intro st _
        exact ⟨st, rfl, (Adds.refl ls st).of_eq rfl fun m u x => by simp⟩
    | cons m ms ih =>
        intro st hlen
        obtain ⟨hm, hms⟩ := List.nodup_cons.mp hms
        have hone : ∃ st₁, (if c m = 0 then .ok st else route (lc (l m) own) (c m) m base st)
              = (.ok st₁ : Outcome (AdjState F)) ∧
            Adds ls st st₁ 0 fun m' u x =>
              if m = m' then c m * (substLc (l m) s).dot u x else 0 := by
          by_cases h0 : c m = 0
          · exact ⟨st, if_pos h0, (Adds.refl ls st).of_eq rfl fun m' u x => by simp [h0]⟩
          · obtain ⟨st₁, h₁, ha₁⟩ := route_adds h m st hlen (l m) (c m)
            exact ⟨st₁, by rw [if_neg h0, h₁], ha₁⟩
        obtain ⟨st₁, h₁, ha₁⟩ := hone
        obtain ⟨st₂, h₂, ha₂⟩ := ih hms st₁ (ha₁.length.trans hlen)
        refine ⟨st₂, by rw [List.foldlM_cons, h₁, ok_bind, h₂],
          (ha₁.trans ha₂).of_eq rfl fun m' u x => ?_⟩
        by_cases hmm : m = m'
        · subst hmm
          simp [hm]
        · simp [hmm, Ne.symm hmm]
  obtain ⟨st', hst', ha⟩ := key [0, 1, 2] (by decide) st hlen
  refine ⟨st', hst', ha.of_eq rfl fun m u x => if_pos ?_⟩
  match m with
  | 0 => decide
  | 1 => decide
  | 2 => decide

/-- One row charges its weight times the substituted row. -/
lemma adjointRow_adds (h : Framed own s base ls) (w : List F) (st : AdjState F)
    (hlen : st.myAdj.length = ls.length) (hrow : st.row < w.length) (r : R1csRow) :
    ∃ st', adjointRow w base st (row r own) = .ok st' ∧
      Adds ls st st' 1 (weighted w st.row [substRow s r]) := by
  obtain ⟨st', hst', ha⟩ := routeEach_adds h { st with row := st.row + 1 } hlen r.form
    (fun _ => w.getD st.row 0)
  have hwr : w[st.row]? = some (w.getD st.row 0) := by
    rw [List.getD_eq_getElem?_getD, List.getElem?_eq_getElem hrow, Option.getD_some]
  have hform : (fun m => lc (r.form m) own : Fin 3 → Lc F) = row r own :=
    funext fun m => match m with
      | 0 => rfl
      | 1 => rfl
      | 2 => rfl
  refine ⟨st', ?_, ?_, ha.length, fun m u x => ?_⟩
  · rw [adjointRow, hwr, orPanic_some, ok_bind, ← hform, hst']
  · rw [ha.row]
  · have hsub : substLc (r.form m) s = (substRow s r).form m :=
      match m with
      | 0 => rfl
      | 1 => rfl
      | 2 => rfl
    rw [ha.charge, hsub]
    simp [weighted]

/-- Neighbouring rows charge their weights times the substituted rows. -/
lemma foldlM_adjointRow (h : Framed own s base ls) (w : List F) (rs : List R1csRow)
    (st : AdjState F) (hlen : st.myAdj.length = ls.length)
    (hrow : st.row + rs.length ≤ w.length) :
    ∃ st', rs.foldlM (fun st r => adjointRow w base st (row r own)) st = .ok st' ∧
      Adds ls st st' rs.length (weighted w st.row (rs.map (substRow s))) := by
  induction rs generalizing st with
  | nil => exact ⟨st, rfl, (Adds.refl ls st).of_eq rfl fun m u x => rfl⟩
  | cons r rs ih =>
      rw [List.length_cons] at hrow
      obtain ⟨st₁, h₁, ha₁⟩ := adjointRow_adds h w st hlen (by omega) r
      obtain ⟨st₂, h₂, ha₂⟩ := ih st₁ (ha₁.length.trans hlen) (by rw [ha₁.row]; omega)
      refine ⟨st₂, by rw [List.foldlM_cons, h₁, ok_bind, h₂],
        (ha₁.trans ha₂).of_eq (by rw [List.length_cons, Nat.add_comm]) fun m u x => ?_⟩
      have happ := weighted_append w st.row [substRow s r] (rs.map (substRow s)) m u x
      rw [ha₁.row, List.map_cons]
      exact happ.symm

/-- The weights a call has gathered, routed through its plug expressions. -/
lemma foldlM_routePlugs (h : Framed own s base ls) (ps : List LinearCombination)
    (adj : List (Fin 3 → F)) (st : AdjState F) (hlen : st.myAdj.length = ls.length) :
    ∃ st', ((ps.map fun p => lc p own).zip adj).foldlM
        (fun st p => routeEach (fun _ => p.1) p.2 base st) st = .ok st' ∧
      Adds ls st st' 0 (plugCharge adj (ps.map fun l => substLc l s)) := by
  induction ps generalizing adj st with
  | nil =>
      exact ⟨st, rfl, (Adds.refl ls st).of_eq rfl fun m u x => by simp [plugCharge]⟩
  | cons p ps ih =>
      cases adj with
      | nil =>
          exact ⟨st, rfl, (Adds.refl ls st).of_eq rfl fun m u x => by simp [plugCharge]⟩
      | cons a adj =>
          obtain ⟨st₁, h₁, ha₁⟩ := routeEach_adds h st hlen (fun _ => p) a
          obtain ⟨st₂, h₂, ha₂⟩ := ih adj st₁ (ha₁.length.trans hlen)
          refine ⟨st₂, by rw [List.map_cons, List.zip_cons_cons, List.foldlM_cons, h₁, ok_bind, h₂],
            (ha₁.trans ha₂).of_eq rfl fun m u x => ?_⟩
          simp only [plugCharge, List.map_cons, List.zip_cons_cons, List.sum_cons]

/-- A call charges what its body charges: the weights of its plugs start from zero, and go through
the plug expressions. -/
lemma adjointItem_call (h : Framed own s base ls) {c : Compiled F}
    {inner : List (Item F) → VarId → AdjState F → Outcome (AdjState F)} (w : List F)
    {st : AdjState F} (hlen : st.myAdj.length = ls.length) {d : ℕ} {b b' : VarId}
    {plugs : List LinearCombination} (hb : childBase base (resolve b own) = .ok b')
    {body : List (Item F)} (hbody : c.defs[d]? = some body) {ch : AdjState F}
    (hch : inner body b' ⟨List.replicate plugs.length fun _ => 0, st.row, st.emitted⟩ = .ok ch)
    {k : ℕ} {g : Fin 3 → F → (VarId → F) → F}
    (hadd : Adds (plugs.map fun l => substLc l s)
      ⟨List.replicate plugs.length fun _ => 0, st.row, st.emitted⟩ ch k g) :
    ∃ st', adjointItem c inner w base st
        (.call d (resolve b own) (plugs.map fun p => lc p own)) = .ok st' ∧ Adds ls st st' k g := by
  obtain ⟨st', hst', ha⟩ := foldlM_routePlugs h plugs ch.myAdj ⟨st.myAdj, ch.row, ch.emitted⟩ hlen
  refine ⟨st', ?_, by rw [ha.row]; exact hadd.row, ha.length, fun m u x => ?_⟩
  · rw [adjointItem, hb, ok_bind, hbody, orPanic_some, ok_bind, List.length_map, hch, ok_bind, hst']
  · have hzero : plugCharge (List.replicate plugs.length fun _ => (0 : F))
        (plugs.map fun l => substLc l s) m u x = 0 := by
      rw [plugCharge]
      refine List.sum_eq_zero fun y hy => ?_
      obtain ⟨q, hq, rfl⟩ := List.mem_map.mp hy
      rw [List.eq_of_mem_replicate (List.of_mem_zip hq).1, zero_mul]
    have hbodyCharge := hadd.charge m u x
    rw [hzero] at hbodyCharge
    have hplugs := ha.charge m u x
    linear_combination hplugs + hbodyCharge

/-- **The transpose charges the expansion**: where a scope expands to `rows`, the compiled items of
the scope pass these rows and charge each row's weight times the row. -/
theorem adjoint_items {defs : List GDef} {top : List CItem} (wf : WellFormed GDef.cItems defs top)
    (w : List F) (n : ℕ) {own : Option GDef} (hown : IsScope defs own) {s : Subst} {base : VarId}
    {ls : List LinearCombination} (h : Framed own s base ls) {src : List CItem}
    (hsrc : ∀ it ∈ src, CallOk defs own it) {rows : List R1csRow}
    (hrows : expandC defs n s src = .ok rows) (st : AdjState F)
    (hlen : st.myAdj.length = ls.length) (hrow : st.row + rows.length ≤ w.length) :
    ∃ st', adjoint (compile defs top) w n (items src own) base st = .ok st' ∧
      Adds ls st st' rows.length (weighted w st.row rows) := by
  induction n generalizing own s base ls src rows st with
  | zero => exact absurd hrows (by simp [expandC, expand])
  | succ n ih =>
      rw [adjoint, foldlM_items fun st rs => rfl]
      induction src generalizing rows st with
      | nil =>
          obtain rfl := Except.ok.inj hrows
          exact ⟨st, rfl, (Adds.refl ls st).of_eq rfl fun m u x => rfl⟩
      | cons it src ihs =>
          rw [expandC, expand_succ, concatM_cons, bind_eq_ok] at hrows
          obtain ⟨rs, hrs, hrest⟩ := hrows
          obtain ⟨rs', hrs', hrest⟩ := bind_eq_ok.mp hrest
          obtain rfl := Except.ok.inj hrest
          rw [List.length_append] at hrow
          have hit : ∃ st₁, stepSource (adjointItem (compile defs top)
                (adjoint (compile defs top) w n) w base) (adjointRow w base) own st it = .ok st₁ ∧
              Adds ls st st₁ rs.length (weighted w st.row rs) := by
            cases it with
            | row r =>
                obtain rfl := Except.ok.inj hrs
                exact adjointRow_adds h w st hlen (by rw [List.length_singleton] at hrow; omega) r
            | rolled rs₀ =>
                have hone : ∀ r ∈ rs₀, ((.ok (substRow s r) : Outcome R1csRow) >>= fun b =>
                    .ok [b]) = .ok [substRow s r] := fun r _ => rfl
                rw [expandItem, concatM_eq_ok hone, ← List.map_eq_flatMap] at hrs
                obtain rfl := Except.ok.inj hrs
                rw [List.length_map] at hrow ⊢
                exact foldlM_adjointRow h w rs₀ st hlen (by omega)
            | call d b plugs =>
                obtain ⟨g, b', hg, hb, hcb, hfr⟩ := h.call (hsrc _ List.mem_cons_self)
                have hgmem : IsScope defs (some g) := isScope_of_getElem? hg
                have hcalls : ∀ it ∈ g.cItems, CallOk defs (some g) it := wf.calls (some g) hgmem
                rw [expandItem, hg, orPanic_some, ok_bind, hb, ok_bind] at hrs
                obtain ⟨ch, hch, hadd⟩ := ih hgmem hfr hcalls hrs
                  ⟨List.replicate plugs.length fun _ => 0, st.row, st.emitted⟩
                  (by rw [List.length_replicate, List.length_map])
                  ((Nat.add_le_add_left (Nat.le_add_right _ _) _).trans hrow)
                exact adjointItem_call h w hlen hcb (compile_defs hg) hch hadd
          obtain ⟨st₁, h₁, ha₁⟩ := hit
          obtain ⟨st₂, h₂, ha₂⟩ := ihs (fun i hi => hsrc i (List.mem_cons_of_mem _ hi))
            (by rw [expandC, expand_succ]; exact hrs') st₁ (ha₁.length.trans hlen)
            (by rw [ha₁.row]; omega)
          refine ⟨st₂, by rw [List.foldlM_cons, h₁, ok_bind, h₂],
            (ha₁.trans ha₂).of_eq List.length_append.symm fun m u x => ?_⟩
          rw [ha₁.row, weighted_append]

/-- The items of the top stream one by one, as `transpose_eval` runs them. -/
lemma foldlM_transpose {defs : List GDef} {top : List CItem} (wf : WellFormed GDef.cItems defs top)
    (w : List F) (n : ℕ) {is : List CItem} (his : ∀ it ∈ is, it ∈ top) {rows : List R1csRow}
    (hrows : expandC defs (n + 1) .IDENTITY is = .ok rows) (st : AdjState F)
    (hst : st.myAdj = []) (hrow : st.row + rows.length ≤ w.length) :
    ∃ st', (is.map fun it => items [it] none).foldlM (fun (st : AdjState F) item => do
        let st' ← adjoint (compile defs top) w (n + 1) item 0 ⟨[], st.row, st.emitted⟩
        return ⟨[], st'.row, st'.emitted⟩) st = .ok st' ∧
      Adds [] st st' rows.length (weighted w st.row rows) := by
  induction is generalizing rows st with
  | nil =>
      obtain rfl := Except.ok.inj hrows
      exact ⟨st, rfl, (Adds.refl [] st).of_eq rfl fun m u x => rfl⟩
  | cons it is ih =>
      rw [expandC, expand_succ, concatM_cons, bind_eq_ok] at hrows
      obtain ⟨rs, hrs, hrest⟩ := hrows
      obtain ⟨rs', hrs', hrest⟩ := bind_eq_ok.mp hrest
      obtain rfl := Except.ok.inj hrest
      rw [List.length_append] at hrow
      have hnone : IsScope defs none := by simp [IsScope]
      have hframe : Framed none .IDENTITY 0 [] := ⟨rfl, rfl, rfl⟩
      have hone : expandC defs (n + 1) .IDENTITY [it] = .ok rs := by
        rw [expandC, expand_succ, concatM_singleton, hrs]
      have hcall : ∀ i ∈ [it], CallOk defs none i := fun i hi => by
        rw [List.mem_singleton.mp hi]
        exact wf.calls none hnone it (his it List.mem_cons_self)
      obtain ⟨st₁, h₁, ha₁⟩ := adjoint_items wf w (n + 1) hnone hframe hcall hone
        ⟨[], st.row, st.emitted⟩ rfl ((Nat.add_le_add_left (Nat.le_add_right _ _) _).trans hrow)
      have hst₁ : Adds [] st ⟨[], st₁.row, st₁.emitted⟩ rs.length (weighted w st.row rs) := by
        refine ⟨ha₁.row, by rw [hst], fun m u x => ?_⟩
        have hc := ha₁.charge m u x
        simpa [plugCharge, hst] using hc
      obtain ⟨st₂, h₂, ha₂⟩ := ih (fun i hi => his i (List.mem_cons_of_mem _ hi))
        (by rw [expandC, expand_succ]; exact hrs') ⟨[], st₁.row, st₁.emitted⟩ rfl
        (by rw [hst₁.row]; omega)
      refine ⟨st₂, by rw [List.map_cons, List.foldlM_cons, h₁]; exact h₂,
        (hst₁.trans ha₂).of_eq List.length_append.symm fun m u x => ?_⟩
      rw [hst₁.row, weighted_append]

/-- What is emitted for one column of matrix `m`. -/
def columnOf (es : List (Contribution F)) (m : Fin 3) (key : Option VarId) : F :=
  ((es.filter fun e => e.m = m ∧ e.var = key).map Contribution.value).sum

/-- The entry of a combination at a column. -/
def coeffAt (l : LinearCombination) : Option VarId → F
  | none => l.constant
  | some v => ((l.terms.filter fun t => t.var = v).map fun t => (t.coeff : F)).sum

/-- `Σ_row w[row] · M[row][key]` for the matrix `m`. -/
def columnSum (w : List F) (rows : List R1csRow) (m : Fin 3) (key : Option VarId) : F :=
  ((rows.zipIdx).map fun r => w.getD r.2 0 * coeffAt (r.1.form m) key).sum

omit [DecidableEq F] in
lemma columnOf_cons (e : Contribution F) (es : List (Contribution F)) (m : Fin 3)
    (key : Option VarId) : columnOf (e :: es) m key
      = (if e.m = m ∧ e.var = key then e.value else 0) + columnOf es m key := by
  rw [columnOf, List.filter_cons]
  by_cases h : e.m = m ∧ e.var = key <;> simp [h, columnOf]

omit [DecidableEq F] in
lemma emittedCharge_cons (e : Contribution F) (es : List (Contribution F)) (m : Fin 3) (u : F)
    (x : VarId → F) : emittedCharge (e :: es) m u x
      = (if e.m = m then e.value * column u x e.var else 0) + emittedCharge es m u x := by
  rw [emittedCharge, List.map_cons, List.sum_cons, ← emittedCharge]

omit [DecidableEq F] in
/-- A column of the contributions is their charge against the indicator of the column. -/
lemma emittedCharge_indicator (es : List (Contribution F)) (m : Fin 3) (key : Option VarId) :
    emittedCharge es m (if key = none then 1 else 0) (fun v => if key = some v then 1 else 0)
      = columnOf es m key := by
  have hcol : ∀ var, column (F := F) (if key = none then 1 else 0)
      (fun v => if key = some v then 1 else 0) var = if var = key then 1 else 0 := by
    intro var
    cases var <;> simp [column, eq_comm]
  induction es with
  | nil => rfl
  | cons e es ih =>
      rw [emittedCharge_cons, columnOf_cons, ih, hcol]
      by_cases hm : e.m = m <;> simp [hm]

omit [DecidableEq F] in
lemma dot_indicator (l : LinearCombination) (key : Option VarId) :
    l.dot (if key = none then 1 else 0) (fun v => if key = some v then 1 else 0)
      = (coeffAt l key : F) := by
  cases key with
  | none => simp [LinearCombination.dot, LinearCombination.evalTerms, coeffAt]
  | some v =>
      have key : ∀ ts : List Term, LinearCombination.evalTerms ts
          (fun u => if some v = some u then (1 : F) else 0)
          = ((ts.filter fun t => t.var = v).map fun t => (t.coeff : F)).sum := by
        intro ts
        induction ts with
        | nil => rfl
        | cons t ts ih =>
            rw [LinearCombination.evalTerms_cons, ih, List.filter_cons]
            by_cases h : t.var = v
            · simp [h]
            · simp [h, Ne.symm h]
      rw [LinearCombination.dot, key, coeffAt]
      simp

omit [DecidableEq F] in
/-- The contributions to a matrix, column by column. -/
lemma emittedCharge_eq_sum (es : List (Contribution F)) (m : Fin 3) (z : VarId → F) :
    emittedCharge es m 1 z = ∑ v : VarId, columnOf es m (some v) * z v + columnOf es m none := by
  induction es with
  | nil => simp [emittedCharge, columnOf]
  | cons e es ih =>
      rw [emittedCharge_cons, ih]
      simp only [columnOf_cons, add_mul, Finset.sum_add_distrib]
      by_cases hm : e.m = m
      · cases hv : e.var with
        | none => simp [hm, column]; ring
        | some v => simp [hm, column]; ring
      · simp [hm]

/-- **Evaluation and its transpose agree with the expansion.** In a well-formed circuit, past some
bound on the depth of the calls: `eval_items` emits, for every range of the top stream, the values
of the rows that `visit_items` emits for it, in order; and for every weight of the rows, the
contributions of `transpose_eval` to a column add up to the weighted sum of that column over all
rows, so that the weighted sum of the forms' values is the sum over the columns. -/
theorem eval_transpose_agree {defs : List GDef} {top : List CItem}
    (wf : WellFormed GDef.cItems defs top) :
    (∀ lo hi, lo ≤ hi ∧ hi ≤ top.length →
      ∃ N rows, ∀ n, N ≤ n → visitItems defs top n lo hi = .ok rows ∧
        ∀ (z : VarId → F) (want : Fin 3 → Bool),
          evalItems defs top n lo hi z want = .ok (rows.map (rowValues z want))) ∧
    ∃ N rows, ∀ n, N ≤ n → visitItems defs top n 0 top.length = .ok rows ∧
      ∀ w : List F, w.length = rows.length → ∃ es, transposeEval defs top n w = .ok es ∧
        (∀ m key, columnOf es m key = columnSum w rows m key) ∧
        ∀ m (z : VarId → F),
          ((rows.zipIdx).map fun r => w.getD r.2 0 * (r.1.form m).eval z).sum
            = ∑ v : VarId, columnOf es m (some v) * z v + columnOf es m none := by
  refine ⟨fun lo hi hr => eval_items_visit wf hr, ?_⟩
  have hnone : IsScope defs none := by simp [IsScope]
  obtain ⟨N, rows, hN⟩ := wf.expands (fun _ _ _ _ _ _ r _ => ⟨_, rfl⟩) hnone .IDENTITY rfl
  refine ⟨N + 1, rows, fun n hn => ?_⟩
  obtain ⟨n, rfl⟩ : ∃ k, n = k + 1 := ⟨n - 1, by omega⟩
  have hrows : expandC defs (n + 1) .IDENTITY top = .ok rows := hN (n + 1) (by omega)
  have hslice : slice top 0 top.length = .ok top := by simp [slice]
  have hvisit : visitItems defs top (n + 1) 0 top.length = .ok rows := by
    rw [visitItems, hslice, ok_bind]
    exact hrows
  refine ⟨hvisit, fun w hw => ?_⟩
  obtain ⟨st, hst, ha⟩ := foldlM_transpose wf w n (fun _ h => h) hrows ⟨[], 0, []⟩ rfl
    (by rw [hw]; exact (Nat.zero_add _).le)
  have hcharge : ∀ m u x, emittedCharge st.emitted m u x = weighted w 0 rows m u x := by
    intro m u x
    have hc := ha.charge m u x
    simpa [plugCharge, emittedCharge] using hc
  refine ⟨st.emitted, ?_, fun m key => ?_, fun m z => ?_⟩
  · rw [transposeEval, hvisit, ok_bind, if_pos hw, ok_bind]
    show (do
      let st ← ((top.map fun it => items [it] none).foldlM _ _ : Outcome (AdjState F))
      return st.emitted) = _
    rw [hst]
    rfl
  · rw [← emittedCharge_indicator, hcharge, weighted, columnSum]
    simp only [dot_indicator]
  · rw [← emittedCharge_eq_sum, hcharge, weighted]
    simp only [LinearCombination.dot_one]

end Transpose

/-- A template that squares its plug into its fresh variable, called on `1·v1 + 3`, and a row on
the result. -/
def squareDefs : List GDef :=
  [⟨1, [0], [1], [.row ⟨.ofVar 0, .ofVar 0, .ofVar 1, none⟩], []⟩]

/-- The top stream that calls it. -/
def squareTop : List CItem :=
  [.call 0 5 [⟨3, [⟨1, 1⟩]⟩], .row ⟨.ofVar 5, .one, .ofVar 2, none⟩]

lemma wellFormed_square : WellFormed GDef.cItems squareDefs squareTop where
  calls own hown it hit := by
    cases own with
    | none =>
        rcases List.mem_cons.mp hit with rfl | hit
        · exact ⟨⟨_, rfl, rfl⟩, by simp [NotPlug]⟩
        · obtain rfl := List.mem_singleton.mp hit
          trivial
    | some g =>
        obtain rfl := List.mem_singleton.mp (hown g rfl)
        obtain rfl := List.mem_singleton.mp hit
        trivial
  acyclic := by
    refine ⟨fun _ => 0, fun i g hg it hit j hj => ?_⟩
    obtain rfl := List.mem_singleton.mp (List.mem_of_getElem? hg)
    obtain rfl := List.mem_singleton.mp hit
    exact absurd hj (by simp [Item.callee])

theorem eval_transpose_agree_square :
    ∃ N rows, ∀ n, N ≤ n → visitItems squareDefs squareTop n 0 2 = .ok rows ∧
      ∀ w : List ℤ, w.length = rows.length → ∃ es, transposeEval squareDefs squareTop n w = .ok es ∧
        (∀ m key, columnOf es m key = columnSum w rows m key) ∧
        ∀ m (z : VarId → ℤ),
          ((rows.zipIdx).map fun r => w.getD r.2 0 * (r.1.form m).eval z).sum
            = ∑ v : VarId, columnOf es m (some v) * z v + columnOf es m none :=
  (eval_transpose_agree wellFormed_square).2

end XarkCircuit.Eval
