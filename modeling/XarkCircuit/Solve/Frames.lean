import XarkCircuit.Decode.EvalSound
import XarkCircuit.Solve.Compiled

/-!
What the frames of the compiled witness solver stand for.

* `Witness.slots` is the assignment of the substituting solver: `slots_put` and `read_slots` say
  that both are written and read alike.
* `FrameOk` is what a frame keeps while its call runs. The states that occur agree with `x₀` below
  `lim`; in each of them the plugs of the frame have the values of the substituted expressions, so
  that a value computed once stays current.
* `FrameOk.lc` and `FrameOk.absolute` say that reading a compiled combination is evaluating the
  substituted one, and `FrameOk.call` that the frame of a call is in order again.
-/

namespace XarkCircuit.Eval

open Outcome

variable {p : ℕ}

/-! ### The witness and the slots -/

/-- Write slot `i` of a vector, grown with `d` as needed. -/
def growSet {α : Type} (d : α) (l : List α) (i : ℕ) (v : α) : List α :=
  (if l.length ≤ i then l ++ List.replicate (i + 1 - l.length) d else l).set i v

lemma length_growSet {α : Type} (d : α) (l : List α) (i : ℕ) (v : α) :
    (growSet d l i v).length = max l.length (i + 1) := by
  rw [growSet, List.length_set]
  split_ifs with h
  · rw [List.length_append, List.length_replicate]
    omega
  · omega

lemma getElem?_growSet {α : Type} (d : α) (l : List α) (i : ℕ) (v : α) (j : ℕ) :
    (growSet d l i v)[j]? = if i = j then some v
      else if j < l.length then l[j]? else if j ≤ i then some d else none := by
  rw [growSet]
  split_ifs with hlen hij hj hji hij hj hji
  · subst hij
    rw [List.getElem?_set_self]
    rw [List.length_append, List.length_replicate]
    omega
  · rw [List.getElem?_set_ne hij, List.getElem?_append_left hj]
  · rw [List.getElem?_set_ne hij, List.getElem?_append_right (not_lt.mp hj),
      List.getElem?_replicate, if_pos (by omega)]
  · rw [List.getElem?_set_ne hij, List.getElem?_append_right (not_lt.mp hj),
      List.getElem?_replicate, if_neg (by omega)]
  · subst hij
    exact List.getElem?_set_self (not_le.mp hlen)
  · exact List.getElem?_set_ne hij
  · exact absurd hji (by omega)
  · rw [List.getElem?_set_ne hij, List.getElem?_eq_none (not_lt.mp hj)]

/-- A slot after a write. -/
lemma getD_growSet {α : Type} (d : α) (l : List α) (i : ℕ) (v : α) (j : ℕ) :
    ((growSet d l i v)[j]?).getD d = if i = j then v else (l[j]?).getD d := by
  rw [getElem?_growSet]
  split_ifs with hij hj hji
  · rfl
  · rfl
  · rw [List.getElem?_eq_none (not_lt.mp hj)]; rfl
  · rw [List.getElem?_eq_none (not_lt.mp hj)]

namespace Witness

/-- Both vectors have one length, and what was not assigned is zero. -/
structure Ok (w : Witness p) : Prop where
  length : w.vals.length = w.set.length
  unset : ∀ i : ℕ, (w.set[i]?).getD false = false → (w.vals[i]?).getD 0 = 0

lemma put_eq {w : Witness p} (hw : w.Ok) (id : VarId) (v : ZMod p) :
    w.put id v = ⟨growSet 0 w.vals id.val v, growSet false w.set id.val true⟩ := by
  rw [put, growSet, growSet, ← hw.length]
  split_ifs <;> rfl

lemma Ok.put {w : Witness p} (hw : w.Ok) (id : VarId) (v : ZMod p) : (w.put id v).Ok := by
  rw [put_eq hw]
  refine ⟨by rw [length_growSet, length_growSet, hw.length], fun i hi => ?_⟩
  rw [getD_growSet] at hi ⊢
  split_ifs at hi ⊢ with h
  exact hw.unset i hi

end Witness

/-! ### Values of compiled combinations -/

/-- The value of a compiled combination, its variables read by `rd`. -/
def Lc.value (l : Lc (ZMod p)) (rd : VRef → ZMod p) : ZMod p :=
  l.k + (l.terms.map fun t => rd t.1 * t.2).sum

/-- Absolute variables read from an assignment. -/
def readGlobal (y : VarId → ZMod p) : VRef → ZMod p
  | .global id => y id
  | _ => 0

/-- The combination is over absolute variables. -/
def Lc.IsAbsolute (l : Lc (ZMod p)) : Prop := ∀ t ∈ l.terms, t.1.isGlobal

lemma value_congr {l : Lc (ZMod p)} {rd rd' : VRef → ZMod p}
    (h : ∀ t ∈ l.terms, rd t.1 = rd' t.1) : l.value rd = l.value rd' := by
  rw [Lc.value, Lc.value]
  exact congrArg _ (congrArg List.sum (List.map_congr_left fun t ht => by rw [h t ht]))

/-- A reading loop that skips the multiplication by one. -/
lemma foldlM_read {step : ZMod p → VRef × ZMod p → Outcome (ZMod p)} {rd : VRef → ZMod p}
    {ts : List (VRef × ZMod p)} (h : ∀ t ∈ ts, ∀ acc, step acc t = .ok (acc + rd t.1 * t.2))
    (acc : ZMod p) :
    ts.foldlM step acc = .ok (acc + (ts.map fun t => rd t.1 * t.2).sum) := by
  induction ts generalizing acc with
  | nil => simp
  | cons t ts ih =>
      rw [List.foldlM_cons, h t List.mem_cons_self, ok_bind,
        ih fun t' ht => h t' (List.mem_cons_of_mem _ ht), List.map_cons, List.sum_cons, add_assoc]

lemma skip_one (x c : ZMod p) : (if c = 1 then x else x * c) = x * c := by
  split_ifs with h
  · rw [h, mul_one]
  · rfl

lemma absoluteValue_eq {l : Lc (ZMod p)} (h : l.IsAbsolute) (w : Witness p) :
    absoluteValue l w = .ok (l.value (readGlobal w.get)) := by
  refine foldlM_read (fun t ht acc => ?_) l.k
  have hg := h t ht
  cases hr : t.1 with
  | global id =>
      dsimp only
      rw [skip_one, readGlobal]
  | internal o => rw [hr] at hg; exact absurd hg (by simp [VRef.isGlobal])
  | plug i => rw [hr] at hg; exact absurd hg (by simp [VRef.isGlobal])

lemma WFrame.lc_eq {f : WFrame p} {l : Lc (ZMod p)} {w : Witness p} {rd : VRef → ZMod p}
    (h : ∀ t ∈ l.terms, f.var t.1 w = .ok (rd t.1)) : f.lc l w = .ok (l.value rd) := by
  refine foldlM_read (fun t ht acc => ?_) l.k
  rw [h t ht, ok_bind, skip_one]
  rfl

/-! ### What a frame keeps -/

/-- `y` is `x₀` below `lim`. -/
def Agrees (lim : ℕ) (x₀ y : VarId → ZMod p) : Prop := ∀ id : VarId, id.val < lim → y id = x₀ id

/-- The size of the block of fresh variables of a scope. -/
def extent (size : GDef → ℕ) : Option GDef → ℕ
  | none => 0
  | some g => size g

/-- `k` variables from `r` on fit: into the block of the scope, or below `2 ^ 32`. -/
def Fits (size : GDef → ℕ) (own : Option GDef) (r : VRef) (k : ℕ) : Prop :=
  match r with
  | .internal o => o.val < extent size own ∧ o.val + k ≤ extent size own
  | .global id => id.val + k ≤ 2 ^ 32
  | .plug _ => True

/-- The frame `f` of a scope under the substitution `s`, in a state that agrees with `x₀` below
`lim`; `esc` says that the scope may write anywhere. -/
structure FrameOk (size : GDef → ℕ) (own : Option GDef) (esc : Bool) (s : Subst) (f : WFrame p)
    (ls : List LinearCombination) (lim : ℕ) (x₀ : VarId → ZMod p) : Prop where
  framed : Framed own s f.base ls
  plugs : List.Forall₂ (fun (q : Lc (ZMod p)) (l : LinearCombination) => q.IsAbsolute ∧
    ∀ y, Agrees lim x₀ y → q.value (readGlobal y) = l.eval y) f.plugs ls
  vals : ∀ vs, f.vals = some vs →
    List.Forall₂ (fun v (l : LinearCombination) => ∀ y, Agrees lim x₀ y → l.eval y = v) vs ls
  fixed : f.vals.isSome → own.isSome → esc = false
  room : ∀ g, own = some g → f.base.val + size g ≤ 2 ^ 32
  lim_le : esc = false → lim ≤ f.base.val
  lim_zero : esc = true → lim = 0

namespace FrameOk

variable {size : GDef → ℕ} {own : Option GDef} {esc : Bool} {s : Subst} {f : WFrame p}
  {ls : List LinearCombination} {lim : ℕ} {x₀ : VarId → ZMod p}

/-- What a resolved variable is worth in the state `y`. -/
def reading (base : VarId) (ls : List LinearCombination) (y : VarId → ZMod p) : VRef → ZMod p
  | .internal o => y (base + o)
  | .plug i => ((ls[i]?).map fun l => l.eval y).getD 0
  | .global id => y id

lemma reading_resolve (h : FrameOk size own esc s f ls lim x₀) (y : VarId → ZMod p) (v : VarId) :
    reading f.base ls y (resolve v own) = s.pull 1 y v := by
  have hv := h.framed.get v
  cases hr : resolve v own with
  | internal o =>
      rw [hr] at hv
      rw [reading, Subst.pull, hv]
  | plug i =>
      rw [hr] at hv
      obtain ⟨l, hl, hg⟩ := hv
      rw [reading, Subst.pull, hl, hg]
      exact (LinearCombination.dot_one y l).symm
  | global id =>
      rw [hr] at hv
      rw [reading, Subst.pull, hv]

/-- Reading a variable of the scope in a state of the call. -/
lemma var (h : FrameOk size own esc s f ls lim x₀) {w : Witness p} (hw : Agrees lim x₀ w.get)
    (v : VarId) : f.var (resolve v own) w = .ok (reading f.base ls w.get (resolve v own)) := by
  have hv := h.framed.get v
  cases hr : resolve v own with
  | internal o => rfl
  | global id => rfl
  | plug i =>
      rw [hr] at hv
      obtain ⟨l, hl, -⟩ := hv
      rw [WFrame.var, reading, hl]
      cases hvals : f.vals with
      | some vs =>
          obtain ⟨x, hx, hxl⟩ := exists_of_forall₂ (h.vals vs hvals).flip hl
          dsimp only
          rw [hx, ← hxl w.get hw]
          rfl
      | none =>
          obtain ⟨q, hq, hqa, hql⟩ := exists_of_forall₂ h.plugs.flip hl
          dsimp only
          rw [hq, orPanic_some, ok_bind, absoluteValue_eq hqa, hql w.get hw]
          rfl

lemma value_lc (h : FrameOk size own esc s f ls lim x₀) (y : VarId → ZMod p)
    (l : LinearCombination) :
    (Eval.lc l own : Lc (ZMod p)).value (reading f.base ls y) = (substLc l s).eval y := by
  rw [eval_substLc, Lc.value, Eval.lc, LinearCombination.eval, LinearCombination.evalTerms,
    List.map_map]
  refine congrArg _ (congrArg List.sum (List.map_congr_left fun t _ => ?_))
  rw [Function.comp_apply, h.reading_resolve, mul_comm]

/-- **Reading a compiled combination is evaluating the substituted one.** -/
lemma lc (h : FrameOk size own esc s f ls lim x₀) {w : Witness p} (hw : Agrees lim x₀ w.get)
    (l : LinearCombination) :
    f.lc (Eval.lc l own) w = .ok ((substLc l s).eval w.get) := by
  rw [← h.value_lc]
  refine WFrame.lc_eq fun t ht => ?_
  obtain ⟨t', -, rfl⟩ := List.mem_map.mp ht
  exact h.var hw t'.var

/-- One more variable at the end of an absolute combination. -/
lemma value_snoc (acc : Lc (ZMod p)) (id : VarId) (c : ZMod p) (y : VarId → ZMod p) :
    (⟨acc.k, acc.terms ++ [(.global id, c)]⟩ : Lc (ZMod p)).value (readGlobal y)
      = acc.value (readGlobal y) + c * y id := by
  simp only [Lc.value, List.map_append, List.sum_append, List.map_cons, List.map_nil,
    List.sum_cons, List.sum_nil, add_zero, readGlobal]
  ring

/-- A multiple of one absolute combination at the end of another. -/
lemma value_append (acc q : Lc (ZMod p)) (c : ZMod p) (y : VarId → ZMod p) :
    (⟨acc.k + q.k * c, acc.terms ++ q.terms.map fun u => (u.1, u.2 * c)⟩ : Lc (ZMod p)).value
      (readGlobal y) = acc.value (readGlobal y) + c * q.value (readGlobal y) := by
  have hscale : ((q.terms.map fun u => (u.1, u.2 * c)).map fun u => readGlobal y u.1 * u.2).sum
      = (q.terms.map fun u => readGlobal y u.1 * u.2).sum * c := by
    rw [List.map_map, ← List.sum_map_mul_right]
    refine congrArg List.sum (List.map_congr_left fun u _ => ?_)
    simp only [Function.comp_apply, mul_assoc]
  simp only [Lc.value, List.map_append, List.sum_append, hscale]
  ring

lemma absoluteTerm (h : FrameOk size own esc s f ls lim x₀) (t : Term) {acc : Lc (ZMod p)}
    (hacc : acc.IsAbsolute) :
    ∃ q, f.absoluteTerm acc (resolve t.var own, (t.coeff : ZMod p)) = .ok q ∧ q.IsAbsolute ∧
      ∀ y, Agrees lim x₀ y → q.value (readGlobal y)
        = acc.value (readGlobal y) + t.coeff * s.pull 1 y t.var := by
  have hone : ∀ id, (⟨acc.k, acc.terms ++ [(.global id, (t.coeff : ZMod p))]⟩ :
      Lc (ZMod p)).IsAbsolute := fun id u hu =>
    (List.mem_append.mp hu).elim (hacc u) fun hu => by rw [List.mem_singleton.mp hu]; rfl
  have hv := h.framed.get t.var
  cases hr : resolve t.var own with
  | internal o =>
      rw [hr] at hv
      exact ⟨_, rfl, hone _, fun y _ => by rw [value_snoc, Subst.pull_of_var hv]⟩
  | global id =>
      rw [hr] at hv
      exact ⟨_, rfl, hone _, fun y _ => by rw [value_snoc, Subst.pull_of_var hv]⟩
  | plug i =>
      rw [hr] at hv
      obtain ⟨l, hl, hg⟩ := hv
      cases hvals : f.vals with
      | some vs =>
          obtain ⟨x, hx, hxl⟩ := exists_of_forall₂ (h.vals vs hvals).flip hl
          refine ⟨⟨acc.k + x * t.coeff, acc.terms⟩, ?_, hacc, fun y hy => ?_⟩
          · rw [WFrame.absoluteTerm, hvals]
            dsimp only
            rw [hx]
            rfl
          · rw [Subst.pull_of_lc hg, LinearCombination.dot_one, hxl y hy, Lc.value, Lc.value]
            ring
      | none =>
          obtain ⟨q, hq, hqa, hql⟩ := exists_of_forall₂ h.plugs.flip hl
          refine ⟨⟨acc.k + q.k * t.coeff,
            acc.terms ++ q.terms.map fun u => (u.1, u.2 * (t.coeff : ZMod p))⟩, ?_, ?_,
            fun y hy => ?_⟩
          · rw [WFrame.absoluteTerm, hvals]
            dsimp only
            rw [hq]
            rfl
          · intro u hu
            rcases List.mem_append.mp hu with hu | hu
            · exact hacc u hu
            · obtain ⟨u', hu', rfl⟩ := List.mem_map.mp hu
              exact hqa u' hu'
          · rw [value_append, Subst.pull_of_lc hg, LinearCombination.dot_one, hql y hy]

/-- **A combination over absolute variables** has, throughout the call, the value of the
substituted one. -/
lemma absolute (h : FrameOk size own esc s f ls lim x₀) (l : LinearCombination) :
    ∃ q, f.absolute (Eval.lc l own) = .ok q ∧ q.IsAbsolute ∧
      ∀ y, Agrees lim x₀ y → q.value (readGlobal y) = (substLc l s).eval y := by
  have key : ∀ (ts : List Term) (acc : Lc (ZMod p)), acc.IsAbsolute →
      ∃ q, (ts.map fun t => (resolve t.var own, (t.coeff : ZMod p))).foldlM f.absoluteTerm acc
          = .ok q ∧ q.IsAbsolute ∧ ∀ y, Agrees lim x₀ y → q.value (readGlobal y)
            = acc.value (readGlobal y) + LinearCombination.evalTerms ts (s.pull 1 y) := by
    intro ts
    induction ts with
    | nil => exact fun acc hacc => ⟨acc, rfl, hacc, fun y _ => by simp⟩
    | cons t ts ih =>
        intro acc hacc
        obtain ⟨acc', hacc', ha, hv⟩ := h.absoluteTerm t hacc
        obtain ⟨q, hq, hqa, hqv⟩ := ih acc' ha
        refine ⟨q, by rw [List.map_cons, List.foldlM_cons, hacc', ok_bind, hq], hqa, fun y hy => ?_⟩
        rw [hqv y hy, hv y hy, LinearCombination.evalTerms_cons, add_assoc]
  obtain ⟨q, hq, hqa, hqv⟩ := key l.terms ⟨l.constant, []⟩ fun _ hu => absurd hu List.not_mem_nil
  refine ⟨q, hq, hqa, fun y hy => ?_⟩
  rw [hqv y hy, eval_substLc, LinearCombination.eval, Lc.value]
  simp

/-! ### The frame of a call -/

lemma mapM_absolute (h : FrameOk size own esc s f ls lim x₀) (plugs : List LinearCombination) :
    ∃ qs, (plugs.map fun l => Eval.lc l own).mapM f.absolute = .ok qs ∧
      List.Forall₂ (fun (q : Lc (ZMod p)) (l : LinearCombination) => q.IsAbsolute ∧
        ∀ y, Agrees lim x₀ y → q.value (readGlobal y) = l.eval y) qs
        (plugs.map fun l => substLc l s) := by
  induction plugs with
  | nil => exact ⟨[], rfl, .nil⟩
  | cons l ls ih =>
      obtain ⟨q, hq, hqa, hqv⟩ := h.absolute l
      obtain ⟨qs, hqs, hall⟩ := ih
      exact ⟨q :: qs, by rw [List.map_cons, List.mapM_cons, hq, hqs]; rfl, .cons ⟨hqa, hqv⟩ hall⟩

/-- The plug values that a call computes once. -/
lemma mapM_lc {base : VarId} {qs : List (Lc (ZMod p))} (hqs : ∀ q ∈ qs, q.IsAbsolute)
    (w : Witness p) : qs.mapM (fun l => WFrame.lc ⟨base, qs, none⟩ l w)
      = .ok (qs.map fun q => q.value (readGlobal w.get)) := by
  have key : ∀ qs' : List (Lc (ZMod p)), (∀ q ∈ qs', q.IsAbsolute) →
      qs'.mapM (fun l => WFrame.lc ⟨base, qs, none⟩ l w)
        = (.ok (qs'.map fun q => q.value (readGlobal w.get)) : Outcome (List (ZMod p))) := by
    intro qs' hqs'
    induction qs' with
    | nil => rfl
    | cons q qs' ih =>
        have hq : WFrame.lc ⟨base, qs, none⟩ q w = .ok (q.value (readGlobal w.get)) := by
          refine WFrame.lc_eq fun t ht => ?_
          have hg := hqs' q List.mem_cons_self t ht
          cases hr : t.1 with
          | global id => rfl
          | internal o => rw [hr] at hg; exact absurd hg (by simp [VRef.isGlobal])
          | plug i => rw [hr] at hg; exact absurd hg (by simp [VRef.isGlobal])
        rw [List.mapM_cons, hq, ih fun q' hq' => hqs' q' (List.mem_cons_of_mem _ hq')]
        rfl
  exact key qs hqs

/-- A combination that reads below `base` has one value in all states that agree there. -/
lemma value_below {q : Lc (ZMod p)} {base : VarId} (h : q.terms.all (WFrame.below base))
    {y y' : VarId → ZMod p} (hy : Agrees base.val y y') :
    q.value (readGlobal y') = q.value (readGlobal y) := by
  refine value_congr fun t ht => ?_
  have hb := List.all_eq_true.mp h t ht
  rw [WFrame.below] at hb
  cases hr : t.1 with
  | global id =>
      rw [hr] at hb
      exact hy id (by simpa using hb)
  | internal o => rfl
  | plug i => rfl

/-- The block of a call lies where its scope may write. -/
lemma childBase_room (h : FrameOk size own esc s f ls lim x₀) {r : VRef} {b' : VarId} {k : ℕ}
    (hb : childBase f.base r = .ok b')
    (hown : r.isInternal → own.isSome) (hfit : Fits size own r k)
    (hint : esc = false → r.isInternal) :
    b'.val + k ≤ 2 ^ 32 ∧ lim ≤ b'.val := by
  cases r with
  | internal o =>
      obtain ⟨g, rfl⟩ := Option.isSome_iff_exists.mp (hown rfl)
      have hroom := h.room g rfl
      obtain ⟨ho, hk⟩ := hfit
      rw [extent] at ho hk
      have hval : b'.val = f.base.val + o.val := by
        rw [childBase, Except.ok.injEq] at hb
        rw [← hb, Fin.val_add, Nat.mod_eq_of_lt (by omega)]
      have hlim : lim ≤ f.base.val := by
        cases he : esc with
        | true => rw [h.lim_zero he]; exact Nat.zero_le _
        | false => exact h.lim_le he
      omega
  | global id =>
      rw [childBase, Except.ok.injEq] at hb
      rw [← hb]
      refine ⟨hfit, ?_⟩
      cases he : esc with
      | true => rw [h.lim_zero he]; exact Nat.zero_le _
      | false => exact absurd (hint he) (by simp [VRef.isInternal])
  | plug i => simp [childBase] at hb

lemma isSome_of_isInternal {v : VarId} (h : (resolve v own).isInternal) : own.isSome := by
  cases own with
  | none => exact absurd h (by simp [resolve, VRef.isInternal])
  | some g => rfl

/-- **The frame of a call is in order**: in the states of the callee, those of the caller included,
its plugs have the values of the substituted expressions. -/
lemma call (h : FrameOk size own esc s f ls lim x₀) {defs : List GDef} {d : ℕ} {b : VarId}
    {plugs : List LinearCombination}
    (hok : CallOk defs own (.call d b plugs : XarkCircuit.WItem)) {w : Witness p}
    (hw : Agrees lim x₀ w.get) {esc' : Bool}
    (hesc : esc = false → (resolve b own).isInternal ∧ esc' = false)
    (hfit : ∀ g, defs[d]? = some g → Fits size own (resolve b own) (size g)) :
    ∃ g b' f' lim' x₀', defs[d]? = some g ∧ substOut b s = .ok b' ∧
      f.call (resolve b own) (plugs.map fun l => Eval.lc l own) esc' w = .ok f' ∧
      FrameOk size (some g) esc' (callSubst g b' (plugs.map fun l => substLc l s)) f'
        (plugs.map fun l => substLc l s) lim' x₀' ∧
      Agrees lim' x₀' w.get ∧ ∀ y, Agrees lim' x₀' y → Agrees lim x₀ y := by
  obtain ⟨g, b', hg, hb, hcb, hframed⟩ := h.framed.call hok
  obtain ⟨hroom, hlim⟩ := h.childBase_room hcb isSome_of_isInternal (hfit g hg)
    fun he => (hesc he).1
  obtain ⟨qs, hqs, hall⟩ := h.mapM_absolute plugs
  have habs : ∀ q ∈ qs, q.IsAbsolute := ((List.forall₂_and_left qs _).mp hall).1
  by_cases hfix : !esc' && qs.all fun l => l.terms.all (WFrame.below b')
  · -- the values are computed once: from here on the states agree with this one below the base
    obtain ⟨hesc', hbelow⟩ := Bool.and_eq_true_iff.mp hfix
    have hmono : ∀ y, Agrees b'.val w.get y → Agrees lim x₀ y := fun y hy id hid =>
      (hy id (hid.trans_le hlim)).trans (hw id hid)
    refine ⟨g, b', ⟨b', qs, some (qs.map fun q => q.value (readGlobal w.get))⟩, b'.val, w.get,
      hg, hb, ?_, ⟨hframed, ?_, ?_, ?_, ?_, ?_, ?_⟩, fun _ _ => rfl, hmono⟩
    · rw [WFrame.call, hcb, ok_bind, hqs, ok_bind, if_pos hfix, mapM_lc habs]
      rfl
    · exact hall.imp fun q l hql => ⟨hql.1, fun y hy => hql.2 y (hmono y hy)⟩
    · intro vs hvs
      obtain rfl := Option.some.inj hvs
      rw [List.forall₂_map_left_iff]
      have hboth := (List.forall₂_and_left qs _).mpr ⟨List.all_eq_true.mp hbelow, hall⟩
      refine hboth.imp fun q l hql y hy => ?_
      rw [← hql.2.2 y (hmono y hy)]
      exact value_below hql.1 hy
    · exact fun _ _ => by simpa using hesc'
    · intro g' hg'
      obtain rfl := Option.some.inj hg'
      exact hroom
    · exact fun _ => le_rfl
    · intro he
      rw [he] at hesc'
      exact absurd hesc' (by simp)
  · refine ⟨g, b', ⟨b', qs, none⟩, lim, x₀, hg, hb, ?_, ⟨hframed, hall, ?_, ?_, ?_, ?_, ?_⟩,
      hw, fun _ hy => hy⟩
    · rw [WFrame.call, hcb, ok_bind, hqs, ok_bind, if_neg hfix]
      rfl
    · exact fun vs hvs => absurd hvs (by simp)
    · exact fun hv => absurd hv (by simp)
    · intro g' hg'
      obtain rfl := Option.some.inj hg'
      exact hroom
    · exact fun _ => hlim
    · intro he
      cases hc : esc with
      | true => exact h.lim_zero hc
      | false => exact absurd ((hesc hc).2.symm.trans he) (by simp)

end FrameOk

end XarkCircuit.Eval
