import XarkCircuit.Analyze.UnderConstrained
import Mathlib.Tactic.LinearCombination

/-!
When the streaming under-constraint analysis is the flat one.

* `univariateR1csRow_eq`: the reductions of a row from one evaluation are those from scratch.
* `reductions rows v x` are the reductions of the rows that reference `v`, and `verdict` what they
  say about it. The flat analysis gives it (`checkOneVarCp_eq`), and so do the flags, whatever the
  order in which they are merged (`streamVerdict_eq`).
* `stream_underconstrained_agrees` is the result: both lists are equal exactly when the rows
  reference declared variables only and each derived signature input is referenced or kept.
-/

namespace XarkCircuit

open Outcome

/-! ### Reductions -/

section Reductions

variable {p : ℕ} {x : VarId → ZMod p}

/-- Both ways to take a form apart: the rest is the full value less the variable's own share. -/
lemma foldl_split (v : VarId) (ts : List Term) {a b c : ZMod p} (h : c = b + a * x v) :
    let s := ts.foldl (fun s t => if t.var = v then (s.1 + (t.coeff : ZMod p), s.2)
      else (s.1, s.2 + t.coeff * x t.var)) (a, b)
    s.1 = ts.foldl (fun own t => if t.var = v then own + (t.coeff : ZMod p) else own) a ∧
      ts.foldl (fun acc t => acc + t.coeff * x t.var) c = s.2 + s.1 * x v := by
  induction ts generalizing a b c with
  | nil => exact ⟨rfl, h⟩
  | cons t ts ih =>
      simp only [List.foldl_cons]
      by_cases ht : t.var = v
      · rw [if_pos ht, if_pos ht]
        refine ih ?_
        rw [h, ht]
        ring
      · rw [if_neg ht, if_neg ht]
        refine ih ?_
        rw [h]
        ring

lemma splitLc_eq (lc : LinearCombination) (v : VarId) (x : VarId → ZMod p) :
    splitLc lc v x = (ownLc lc v, fullLc lc x - ownLc lc v * x v) := by
  have h := foldl_split (x := x) v lc.terms
    (show (lc.constant : ZMod p) = lc.constant + 0 * x v by ring)
  refine Prod.ext h.1 ?_
  rw [fullLc, h.2, ← show (splitLc lc v x).1 = ownLc lc v from h.1]
  show _ = (splitLc lc v x).2 + (splitLc lc v x).1 * x v - (splitLc lc v x).1 * x v
  ring

/-- **The reductions of a row** from one evaluation of its forms are those from scratch. -/
lemma univariateR1csRow_eq (row : R1csRow) (x : VarId → ZMod p) :
    univariateR1csRow row x = row.distinctVars.map fun v => (v, univariateR1cs row v x) := by
  refine List.map_congr_left fun v _ => ?_
  rw [univariateR1cs, splitLc_eq, splitLc_eq, splitLc_eq]

lemma mem_distinctVars {row : R1csRow} {v : VarId} : v ∈ row.distinctVars ↔ v ∈ row.vars := by
  rw [R1csRow.distinctVars, List.mem_dedup]
  exact (List.perm_insertionSort _ _).mem_iff

/-- The reductions of the rows that reference `v`. -/
def reductions (rows : List R1csRow) (v : VarId) (x : VarId → ZMod p) :
    List (Univariate (ZMod p)) :=
  (rows.filter fun r => v ∈ r.vars).map fun r => univariateR1cs r v x

lemma mem_reductions {rows : List R1csRow} {v : VarId} {u : Univariate (ZMod p)} :
    u ∈ reductions rows v x ↔ ∃ r ∈ rows, v ∈ r.vars ∧ univariateR1cs r v x = u := by
  simp only [reductions, List.mem_map, List.mem_filter, decide_eq_true_eq, and_assoc]

/-- The second pass gathers the reductions of a suspect. -/
lemma gathered_eq (rows : List R1csRow) (x : VarId → ZMod p) {suspects : List VarId} {v : VarId}
    (hv : v ∈ suspects) : gathered rows x suspects v = reductions rows v x := by
  have hrow : ∀ r : R1csRow, (if r.vars.any fun u => u ∈ suspects then
      ((univariateR1csRow r x).filter fun u => u.1 = v).map Prod.snd else [])
      = if v ∈ r.vars then [univariateR1cs r v x] else [] := by
    intro r
    have hfilter : ((univariateR1csRow r x).filter fun u => u.1 = v).map Prod.snd
        = if v ∈ r.vars then [univariateR1cs r v x] else [] := by
      have hcomp : ((fun u : VarId × Univariate (ZMod p) => decide (u.1 = v)) ∘
          fun u => (u, univariateR1cs r u x)) = fun u => decide (u = v) := rfl
      rw [univariateR1csRow_eq, List.filter_map, List.map_map, hcomp, List.filter_eq]
      split_ifs with h
      · have hnodup : r.distinctVars.Nodup := List.nodup_dedup _
        rw [List.count_eq_one_of_mem hnodup (mem_distinctVars.mpr h)]
        rfl
      · rw [List.count_eq_zero_of_not_mem fun hm => h (mem_distinctVars.mp hm)]
        rfl
    rw [hfilter]
    by_cases h : v ∈ r.vars
    · rw [if_pos (List.any_eq_true.mpr ⟨v, h, decide_eq_true hv⟩)]
    · rw [if_neg h, ite_self]
  rw [gathered, reductions, List.flatMap_congr fun r _ => hrow r]
  induction rows with
  | nil => rfl
  | cons r rows ih =>
      rw [List.flatMap_cons, ih, List.filter_cons]
      by_cases h : v ∈ r.vars <;> simp [h]

end Reductions

/-! ### The verdict -/

section Verdict

variable {p : ℕ} [Fact p.Prime] {x : VarId → ZMod p}

/-- The row is linear in the variable. -/
def Univariate.linear (u : Univariate (ZMod p)) : Bool := u.a = 0 && u.b ≠ 0

/-- The row does not restrict the variable. -/
def Univariate.trivial (u : Univariate (ZMod p)) : Bool := u.a = 0 && u.b = 0

/-- What the reductions of the referencing rows say about a variable. -/
def verdict (us : List (Univariate (ZMod p))) (α : ZMod p) : Option Reason :=
  if us.any Univariate.linear then none
  else if us.all Univariate.trivial then some .free
  else if twoValued us α then some .twoValued
  else none

lemma scanRows_eq (α : ZMod p) (us : List (Univariate (ZMod p))) (restricted : Bool)
    (candidates : List (ZMod p)) : scanRows α us restricted candidates
      = if us.any Univariate.linear then none
        else some (restricted || !us.all Univariate.trivial,
          candidates ++ us.filterMap fun u => if u.a = 0 then none else some (secondRoot u α)) := by
  induction us generalizing restricted candidates with
  | nil => simp [scanRows]
  | cons u us ih =>
      rw [scanRows]
      by_cases ha : u.a = 0
      · by_cases hb : u.b = 0
        · rw [if_pos ⟨ha, hb⟩, ih]
          simp [Univariate.linear, Univariate.trivial, ha, hb]
        · rw [if_neg fun h => hb h.2, if_pos ha]
          simp [Univariate.linear, ha, hb]
      · rw [if_neg fun h => ha h.1, if_neg ha, ih]
        simp [Univariate.linear, Univariate.trivial, ha]

/-- **The flat analysis** of one variable. -/
lemma checkOneVarCp_eq (var : Var) (rows : List R1csRow) (x : VarId → ZMod p) :
    checkOneVarCp var rows x = if reductions rows var.id x = [] then some (var.listed .unreferenced)
      else (verdict (reductions rows var.id x) (x var.id)).map var.listed := by
  rw [checkOneVarCp]
  simp only [List.isEmpty_iff, reductions, List.map_eq_nil_iff]
  by_cases hnil : (rows.filter fun r => var.id ∈ r.vars) = []
  · rw [if_pos hnil, if_pos hnil]
  · rw [if_neg hnil, if_neg hnil, scanRows_eq, verdict, twoValued]
    by_cases hlin : ((rows.filter fun r => var.id ∈ r.vars).map fun r =>
        univariateR1cs r var.id x).any Univariate.linear
    · rw [if_pos hlin, if_pos hlin]
      rfl
    · rw [if_neg hlin, if_neg hlin]
      simp only [Bool.false_or, Bool.not_not, List.nil_append]
      split_ifs <;> rfl

/-! ### The flags -/

lemma hasFlag_or (f g bit : BitVec 8) : hasFlag (f ||| g) bit = (hasFlag f bit || hasFlag g bit) := by
  have h : (f ||| g) &&& bit = (f &&& bit) ||| (g &&& bit) := by
    ext i
    simp [Bool.and_or_distrib_right]
  have hzero : (f &&& bit) ||| (g &&& bit) = 0 ↔ f &&& bit = 0 ∧ g &&& bit = 0 :=
    BitVec.or_eq_zero_iff
  rw [hasFlag, hasFlag, hasFlag, h, Bool.eq_iff_iff]
  simp only [ne_eq, hzero, decide_eq_true_eq, Bool.or_eq_true]
  tauto

omit [Fact p.Prime] in
lemma hasFlag_seen (u : Univariate (ZMod p)) : hasFlag (referenceBits u) F_SEEN = true := by
  rw [referenceBits]
  split_ifs <;> decide

lemma hasFlag_restricted (u : Univariate (ZMod p)) :
    hasFlag (referenceBits u) F_RESTRICTED = !u.trivial := by
  rw [referenceBits, Univariate.trivial]
  by_cases ha : u.a = 0 <;> by_cases hb : u.b = 0 <;> simp [ha, hb] <;> decide

lemma hasFlag_pinned (u : Univariate (ZMod p)) :
    hasFlag (referenceBits u) F_PINNED = u.linear := by
  rw [referenceBits, Univariate.linear]
  by_cases ha : u.a = 0 <;> by_cases hb : u.b = 0 <;> simp [ha, hb] <;> decide

/-- One `fetch_or`. -/
lemma fetchOr_eq {flags : List (BitVec 8)} {e : VarId × BitVec 8} (h : e.1.val < flags.length) :
    fetchOr flags e = .ok (flags.set e.1.val (flags[e.1.val] ||| e.2)) := by
  rw [fetchOr, List.getElem?_eq_getElem h]
  rfl

/-- Flags are merged when every variable has a byte. -/
lemma mergeFlags_ok {es : List (VarId × BitVec 8)} {flags : List (BitVec 8)}
    (h : ∀ e ∈ es, e.1.val < flags.length) : ∃ flags', es.foldlM fetchOr flags = .ok flags' ∧
      flags'.length = flags.length ∧ ∀ (i : ℕ) (f : BitVec 8), flags[i]? = some f →
        ∃ f', flags'[i]? = some f' ∧ ∀ bit, hasFlag f' bit
          = (hasFlag f bit || es.any fun e => e.1.val = i && hasFlag e.2 bit) := by
  induction es generalizing flags with
  | nil => exact ⟨flags, rfl, rfl, fun i f hf => ⟨f, hf, fun bit => by simp⟩⟩
  | cons e es ih =>
      have he := h e List.mem_cons_self
      have hrest : ∀ e' ∈ es, e'.1.val < (flags.set e.1.val (flags[e.1.val] ||| e.2)).length :=
        fun e' he' => by
          rw [List.length_set]
          exact h e' (List.mem_cons_of_mem _ he')
      obtain ⟨flags', hok, hlen, hbits⟩ := ih hrest
      refine ⟨flags', by rw [List.foldlM_cons, fetchOr_eq he, ok_bind, hok],
        by rw [hlen, List.length_set], fun i f hf => ?_⟩
      by_cases hi : e.1.val = i
      · subst hi
        have hfe : flags[e.1.val] = f :=
          Option.some.inj ((List.getElem?_eq_getElem he).symm.trans hf)
        obtain ⟨f', hf', hbit⟩ := hbits e.1.val (flags[e.1.val] ||| e.2)
          (List.getElem?_set_self he)
        refine ⟨f', hf', fun bit => ?_⟩
        rw [hbit, hasFlag_or, hfe, List.any_cons, decide_eq_true rfl, Bool.true_and, Bool.or_assoc]
      · obtain ⟨f', hf', hbit⟩ := hbits i f (by rw [List.getElem?_set_ne hi, hf])
        refine ⟨f', hf', fun bit => ?_⟩
        rw [hbit, List.any_cons, decide_eq_false hi, Bool.false_and, Bool.false_or]

/-- A reference to a variable that has no byte panics. -/
lemma mergeFlags_panic {es : List (VarId × BitVec 8)} {flags : List (BitVec 8)}
    (h : ∃ e ∈ es, flags.length ≤ e.1.val) : es.foldlM fetchOr flags = .error .panic := by
  induction es generalizing flags with
  | nil =>
      obtain ⟨e, he, -⟩ := h
      exact absurd he List.not_mem_nil
  | cons e es ih =>
      rw [List.foldlM_cons]
      by_cases hlt : e.1.val < flags.length
      · obtain ⟨e', he', hle⟩ := h
        rcases List.mem_cons.mp he' with rfl | he'
        · exact absurd hlt (not_lt.mpr hle)
        · rw [fetchOr_eq hlt, ok_bind]
          exact ih ⟨e', he', by rwa [List.length_set]⟩
      · rw [fetchOr, List.getElem?_eq_none (not_lt.mp hlt)]
        rfl

/-- The flag bytes say what the reductions of each variable are. -/
structure Flagged (rows : List R1csRow) (x : VarId → ZMod p) (numVars : ℕ)
    (flags : List (BitVec 8)) : Prop where
  length : flags.length = numVars
  bits : ∀ v : VarId, v.val < numVars → ∃ f, flags[v.val]? = some f ∧
    (hasFlag f F_SEEN ↔ reductions rows v x ≠ []) ∧
    (hasFlag f F_RESTRICTED = !(reductions rows v x).all Univariate.trivial) ∧
    (hasFlag f F_PINNED = (reductions rows v x).any Univariate.linear)

omit [Fact p.Prime] in
lemma any_rowFlags (rows : List R1csRow) (x : VarId → ZMod p) (v : VarId) (bit : BitVec 8) :
    ((rows.flatMap (rowFlags x)).any fun e => e.1.val = v.val && hasFlag e.2 bit)
      = (reductions rows v x).any fun u => hasFlag (referenceBits u) bit := by
  rw [Bool.eq_iff_iff]
  simp only [List.any_eq_true, List.mem_flatMap, rowFlags, univariateR1csRow_eq, List.map_map,
    List.mem_map, mem_distinctVars, mem_reductions, Bool.and_eq_true, decide_eq_true_eq,
    Function.comp_apply]
  constructor
  · rintro ⟨_, ⟨r, hr, w, hw, rfl⟩, hwv, hbit⟩
    obtain rfl := Fin.ext hwv
    exact ⟨_, ⟨r, hr, hw, rfl⟩, hbit⟩
  · rintro ⟨_, ⟨r, hr, hv, rfl⟩, hbit⟩
    exact ⟨_, ⟨r, hr, v, hv, rfl⟩, rfl, hbit⟩

/-- **The merged flags**, in any order. -/
lemma flagged_of_merge {rows : List R1csRow} {numVars : ℕ} {es : List (VarId × BitVec 8)}
    (hperm : es.Perm (rows.flatMap (rowFlags x)))
    (h : ∀ r ∈ rows, ∀ v ∈ r.vars, v.val < numVars) :
    ∃ flags, es.foldlM fetchOr (List.replicate numVars 0) = .ok flags ∧
      Flagged rows x numVars flags := by
  have hdeclared : ∀ e ∈ es, e.1.val < (List.replicate numVars (0 : BitVec 8)).length := by
    intro e he
    rw [hperm.mem_iff, List.mem_flatMap] at he
    obtain ⟨r, hr, he⟩ := he
    rw [rowFlags, univariateR1csRow_eq, List.map_map] at he
    obtain ⟨v, hv, rfl⟩ := List.mem_map.mp he
    rw [List.length_replicate]
    exact h r hr v (mem_distinctVars.mp hv)
  obtain ⟨flags, hok, hlen, hbits⟩ := mergeFlags_ok hdeclared
  refine ⟨flags, hok, by rw [hlen, List.length_replicate], fun v hv => ?_⟩
  obtain ⟨f, hf, hbit⟩ := hbits v.val 0 (by rw [List.getElem?_replicate, if_pos hv])
  have hall : ∀ bit, hasFlag f bit
      = (reductions rows v x).any fun u => hasFlag (referenceBits u) bit := by
    intro bit
    have hzero : hasFlag 0 bit = false := by simp [hasFlag]
    rw [hbit, hzero, Bool.false_or, hperm.any_eq, any_rowFlags]
  refine ⟨f, hf, ?_, ?_, ?_⟩
  · rw [hall]
    simp only [hasFlag_seen, List.any_eq_true, and_true, ne_eq, List.eq_nil_iff_forall_not_mem]
    push Not
    rfl
  · rw [hall]
    simp only [hasFlag_restricted, List.not_all_eq_any_not]
  · rw [hall]
    simp only [hasFlag_pinned]

/-! ### The streaming verdict -/

/-- The suspects that the flags leave. -/
lemma mem_selectSuspects {flags : List (BitVec 8)} {vars : List Var} {suspects : List VarId}
    (h : selectSuspects flags vars = .ok suspects) {var : Var} (hvar : var ∈ vars)
    (hrole : var.role = .derived) {f : BitVec 8} (hf : flags[var.id.val]? = some f)
    (hflags : hasFlag f F_SEEN && hasFlag f F_RESTRICTED && !hasFlag f F_PINNED) :
    var.id ∈ suspects := by
  induction vars generalizing suspects with
  | nil => exact absurd hvar List.not_mem_nil
  | cons w vars ih =>
      rw [selectSuspects, concatM_cons] at h
      obtain ⟨ids, hids, h⟩ := bind_eq_ok.mp h
      obtain ⟨rest, hrest, h⟩ := bind_eq_ok.mp h
      obtain rfl := Except.ok.inj h
      rcases List.mem_cons.mp hvar with rfl | hvar
      · rw [if_pos hrole, hf, orPanic_some, ok_bind, if_pos hflags] at hids
        obtain rfl := Except.ok.inj hids
        exact List.mem_append_left _ List.mem_cons_self
      · exact List.mem_append_right _ (ih hrest hvar)

/-- A loop over the declared variables that reads the flag byte of each derived one. -/
lemma concatM_flags {β : Type} {flags : List (BitVec 8)} {vars : List Var}
    {g : Var → BitVec 8 → List β} (h : ∀ var ∈ vars, var.id.val < flags.length) :
    concatM (fun var => do
      if var.role = .derived then
        let f ← orPanic flags[var.id.val]?
        return g var f
      else return []) vars
      = .ok (vars.flatMap fun var =>
          if var.role = .derived then g var ((flags[var.id.val]?).getD 0) else []) := by
  refine concatM_eq_ok fun var hvar => ?_
  rw [List.getElem?_eq_getElem (h var hvar)]
  split_ifs <;> rfl

/-- What the streaming analysis says about one variable. -/
def streamOne (c : Container) (rows : List R1csRow) (x : VarId → ZMod p) (var : Var) :
    Option UnderConstrained :=
  if reductions rows var.id x = [] then
    if var.id ∈ c.keepExtra then some (var.listed .unreferenced) else none
  else (verdict (reductions rows var.id x) (x var.id)).map var.listed

/-- **The verdict from the flags** is the verdict from the reductions. -/
lemma streamVerdict_eq {c : Container} {rows : List R1csRow} {var : Var} {f : BitVec 8}
    {twoValuedIds : List VarId}
    (hseen : hasFlag f F_SEEN ↔ reductions rows var.id x ≠ [])
    (hrestricted : hasFlag f F_RESTRICTED = !(reductions rows var.id x).all Univariate.trivial)
    (hpinned : hasFlag f F_PINNED = (reductions rows var.id x).any Univariate.linear)
    (htwo : hasFlag f F_SEEN && hasFlag f F_RESTRICTED && !hasFlag f F_PINNED →
      (var.id ∈ twoValuedIds ↔ twoValued (reductions rows var.id x) (x var.id))) :
    streamVerdict c.keepExtra twoValuedIds var f = streamOne c rows x var := by
  rw [streamVerdict, streamOne, verdict]
  by_cases hs : hasFlag f F_SEEN
  · rw [if_neg (by rw [hs]; simp), if_neg (hseen.mp hs), ← hpinned]
    by_cases hp : hasFlag f F_PINNED
    · rw [if_pos hp, if_pos hp]
      rfl
    · rw [if_neg hp, if_neg hp]
      by_cases hr : hasFlag f F_RESTRICTED
      · have hall : (reductions rows var.id x).all Univariate.trivial = false := by
          rw [hr] at hrestricted
          simpa using hrestricted.symm
        have hiff := htwo (by rw [hs, hr, Bool.eq_false_iff.mpr hp]; rfl)
        rw [if_neg (by rw [hr]; simp), hall, if_neg Bool.false_ne_true]
        by_cases ht : var.id ∈ twoValuedIds
        · rw [if_pos ht, if_pos (hiff.mp ht)]
          rfl
        · rw [if_neg ht, if_neg fun h => ht (hiff.mpr h)]
          rfl
      · have hall : (reductions rows var.id x).all Univariate.trivial = true := by
          rw [Bool.eq_false_iff.mpr hr] at hrestricted
          simpa using hrestricted.symm
        rw [if_pos (by simpa using hr), if_pos hall]
        rfl
  · have hnil : reductions rows var.id x = [] := by
      by_contra hne
      exact hs (hseen.mpr hne)
    rw [if_pos (by simpa using hs), if_pos hnil]

omit [Fact p.Prime] in
/-- The rows of the shards, one after the other. -/
lemma mapM_shards {defs : List GDef} {n : ℕ} {top : List CItem} {rows : List R1csRow}
    (h : expandC defs n .IDENTITY top = .ok rows) (x : VarId → ZMod p) (checkSat : Bool) :
    ∃ shards, top.mapM (classifyItem defs n x checkSat) = .ok shards ∧
      (shards.map Prod.snd).flatten = rows.flatMap (rowFlags x) ∧
      shards.all Prod.fst = rows.all fun row => !checkSat || rowSatisfied x row := by
  have hfold : ∀ (rows : List R1csRow) (ok : Bool),
      rows.foldl (fun ok row => ok && (!checkSat || rowSatisfied x row)) ok
        = (ok && rows.all fun row => !checkSat || rowSatisfied x row) := by
    intro rows
    induction rows with
    | nil => simp
    | cons row rows ih =>
        intro ok
        rw [List.foldl_cons, ih, List.all_cons, Bool.and_assoc]
  cases n with
  | zero => exact absurd h (by simp [expandC, expand])
  | succ n =>
      rw [expandC, expand_succ] at h
      induction top generalizing rows with
      | nil =>
          obtain rfl := Except.ok.inj h
          exact ⟨[], rfl, rfl, rfl⟩
      | cons it top ih =>
          rw [concatM_cons] at h
          obtain ⟨bs, hbs, h⟩ := bind_eq_ok.mp h
          obtain ⟨rest, hrest, h⟩ := bind_eq_ok.mp h
          obtain rfl := Except.ok.inj h
          obtain ⟨shards, hshards, hflags, hsat⟩ := ih hrest
          have hone : expandCVisit defs (n + 1) .IDENTITY [it] = .ok bs := by
            rw [expandCVisit, expandC, expand_succ, concatM_singleton]
            exact hbs
          refine ⟨(bs.all fun row => !checkSat || rowSatisfied x row, bs.flatMap (rowFlags x))
            :: shards, ?_, ?_, ?_⟩
          · rw [List.mapM_cons, classifyItem, hone, ok_bind, hshards, hfold, Bool.true_and]
            rfl
          · rw [List.map_cons, List.flatten_cons, hflags, List.flatMap_append]
          · rw [List.all_cons, hsat, List.all_append]

/-! ### Both lists -/

/-- Declared variables have ids below their number. -/
lemma Container.id_lt {c : Container} {var : Var} (h : var ∈ c.vars) : var.id.val < c.numVars := by
  obtain ⟨id, hid, rfl⟩ := List.mem_map.mp h
  have hval : (c.var id).id = Fin.ofNat _ id := by rw [Container.var]; split <;> rfl
  rw [hval, Fin.val_ofNat]
  exact (Nat.mod_le _ _).trans_lt (List.mem_range.mp hid)

/-- **The streaming analysis** of rows that reference declared variables only. -/
lemma streamUnderconstrained_ok {c : Container} {n : ℕ} {rows : List R1csRow}
    (hrows : expandC c.defs n .IDENTITY c.topC = .ok rows)
    (hdeclared : ∀ r ∈ rows, ∀ v ∈ r.vars, v.val < c.numVars) (assign : DenseAssign p)
    (checkSat : Bool) {merge : List (List (VarId × BitVec 8)) → List (VarId × BitVec 8)}
    (hmerge : ∀ shards, (merge shards).Perm shards.flatten) :
    streamUnderconstrained c n assign checkSat merge
      = .ok (rows.all fun row => !checkSat || rowSatisfied assign.read row,
          c.vars.flatMap fun var => if var.role = .derived
            then (streamOne c rows assign.read var).toList else []) := by
  obtain ⟨shards, hshards, hflat, hsat⟩ := mapM_shards hrows assign.read checkSat
  obtain ⟨flags, hflags, hlen, hbits⟩ := flagged_of_merge (hflat ▸ hmerge (shards.map Prod.snd))
    hdeclared
  have hvars : c.vars.length = c.numVars := by simp [Container.vars]
  have hbyte : ∀ var ∈ c.vars, var.id.val < flags.length := fun var hvar =>
    hlen ▸ Container.id_lt hvar
  obtain ⟨suspects, hsuspects⟩ : ∃ suspects, selectSuspects flags c.vars = .ok suspects :=
    ⟨_, concatM_flags hbyte⟩
  have htwo : ∃ ids, secondPass c.defs n c.topC assign.read suspects = .ok ids ∧
      ∀ v ∈ suspects, v ∈ ids ↔ twoValued (reductions rows v assign.read) (assign.read v) := by
    by_cases hempty : suspects.isEmpty
    · refine ⟨[], by rw [secondPass, if_pos hempty], fun v hv => ?_⟩
      rw [List.isEmpty_iff.mp hempty] at hv
      exact absurd hv List.not_mem_nil
    · refine ⟨_, by rw [secondPass, if_neg hempty, twoValuedSuspects, expandCVisit, hrows]; rfl,
        fun v hv => ?_⟩
      rw [List.mem_filter, gathered_eq rows _ hv]
      exact and_iff_right hv
  obtain ⟨ids, hids, hmem⟩ := htwo
  rw [streamUnderconstrained, classifyAndCheck, hshards, ok_bind, hvars, hflags]
  simp only [ok_bind, pure_eq_ok, hsuspects, hids]
  rw [assembleUnderconstrained, concatM_flags hbyte, ok_bind, hsat]
  refine congrArg (fun l => Except.ok (_, l)) (List.flatMap_congr fun var hvar => ?_)
  by_cases hrole : var.role = .derived
  · rw [if_pos hrole, if_pos hrole]
    obtain ⟨f, hf, hseen, hrestricted, hpinned⟩ := hbits var.id (Container.id_lt hvar)
    rw [hf, Option.getD_some, streamVerdict_eq hseen hrestricted hpinned fun hsus =>
      hmem _ (mem_selectSuspects hsuspects hvar hrole hf hsus)]
  · rw [if_neg hrole, if_neg hrole]

omit [Fact p.Prime] in
/-- A row that references an undeclared variable makes the streaming analysis panic. -/
lemma classifyAndCheck_panic {c : Container} {n : ℕ} {rows : List R1csRow}
    (hrows : expandC c.defs n .IDENTITY c.topC = .ok rows)
    (h : ∃ r ∈ rows, ∃ v ∈ r.vars, c.numVars ≤ v.val) (x : VarId → ZMod p) (checkSat : Bool)
    {merge : List (List (VarId × BitVec 8)) → List (VarId × BitVec 8)}
    (hmerge : ∀ shards, (merge shards).Perm shards.flatten) :
    classifyAndCheck c.defs n c.topC x c.numVars checkSat merge = .error .panic := by
  obtain ⟨shards, hshards, hflat, -⟩ := mapM_shards hrows x checkSat
  obtain ⟨r, hr, v, hv, hle⟩ := h
  rw [classifyAndCheck, hshards, ok_bind, mergeFlags_panic]
  · rfl
  · refine ⟨(v, referenceBits (univariateR1cs r v x)), ?_, by rwa [List.length_replicate]⟩
    rw [(hmerge _).mem_iff, hflat, List.mem_flatMap]
    refine ⟨r, hr, ?_⟩
    rw [rowFlags, univariateR1csRow_eq, List.map_map]
    exact List.mem_map.mpr ⟨v, mem_distinctVars.mpr hv, rfl⟩

/-- What the flat analysis says about variable `id`. -/
def flatOne (c : Container) (rows : List R1csRow) (x : VarId → ZMod p) (id : ℕ) :
    List UnderConstrained :=
  if c.keeps rows id then
    if (c.var id).role = .derived then (checkOneVarCp (c.var id) rows x).toList else []
  else []

/-- **The flat analysis**, variable by variable. -/
lemma analyze_eq (c : Container) (rows : List R1csRow) (ops : List (WitnessGen LinearCombination VarId))
    (assign : VarId → Option (ZMod p)) :
    analyzeUnderconstrainedCp ⟨c.field, c.keptVars rows, rows, ops⟩ assign
      = (List.range c.numVars).flatMap (flatOne c rows (readMap assign)) := by
  have key : ∀ ids : List ℕ, (((ids.filter (c.keeps rows)).map c.var).filter
      fun var => var.role = .derived).filterMap (fun var => checkOneVarCp var rows (readMap assign))
      = ids.flatMap (flatOne c rows (readMap assign)) := by
    intro ids
    induction ids with
    | nil => rfl
    | cons id ids ih =>
        rw [List.flatMap_cons, ← ih, flatOne, List.filter_cons]
        by_cases hk : c.keeps rows id
        · rw [if_pos hk, if_pos hk, List.map_cons, List.filter_cons]
          by_cases hd : (c.var id).role = .derived
          · rw [if_pos (decide_eq_true hd), if_pos hd, List.filterMap_cons]
            cases checkOneVarCp (c.var id) rows (readMap assign) <;> rfl
          · rw [if_neg (by simpa using hd), if_neg hd, List.nil_append]
        · rw [if_neg hk, if_neg hk, List.nil_append]
  exact key (List.range c.numVars)

omit [Fact p.Prime] in
lemma referenced_iff {rows : List R1csRow} {v : VarId} (x : VarId → ZMod p) :
    Container.referenced rows v ↔ reductions rows v x ≠ [] := by
  rw [Container.referenced, List.any_eq_true, ne_eq, reductions, List.map_eq_nil_iff,
    List.filter_eq_nil_iff]
  push Not
  exact Iff.rfl

/-- A derived signature input that no row references and that is not kept for another reason. -/
def Dangling (c : Container) (rows : List R1csRow) (id : ℕ) : Prop :=
  id < c.inputs.length ∧ (c.var id).role = .derived ∧
    ¬Container.referenced rows (c.var id).id ∧ (c.var id).id ∉ c.keepExtra

lemma Container.var_id (c : Container) (id : ℕ) : (c.var id).id = Fin.ofNat _ id := by
  rw [Container.var]
  split <;> rfl

/-- The two analyses differ on a variable when it is a dangling input. -/
lemma streamOne_vs_flatOne (c : Container) (rows : List R1csRow) (x : VarId → ZMod p) (id : ℕ) :
    (¬Dangling c rows id → (if (c.var id).role = .derived then (streamOne c rows x (c.var id)).toList
      else []) = flatOne c rows x id) ∧
    (Dangling c rows id → (if (c.var id).role = .derived then (streamOne c rows x (c.var id)).toList
      else []) = [] ∧ (flatOne c rows x id).length = 1) := by
  have hid := c.var_id id
  rw [flatOne]
  by_cases hd : (c.var id).role = .derived
  · rw [if_pos hd, if_pos hd, streamOne, checkOneVarCp_eq]
    by_cases hnil : reductions rows (c.var id).id x = []
    · have href : ¬Container.referenced rows (c.var id).id := fun h => (referenced_iff x).mp h hnil
      have hkeeps : c.keeps rows id ↔ id < c.inputs.length ∨ (c.var id).id ∈ c.keepExtra := by
        rw [Container.keeps, ← hid]
        simp [href]
      rw [if_pos hnil, if_pos hnil]
      by_cases hkeep : (c.var id).id ∈ c.keepExtra
      · rw [if_pos hkeep, if_pos (hkeeps.mpr (Or.inr hkeep))]
        exact ⟨fun _ => rfl, fun h => absurd hkeep h.2.2.2⟩
      · rw [if_neg hkeep]
        by_cases hin : id < c.inputs.length
        · rw [if_pos (hkeeps.mpr (Or.inl hin))]
          exact ⟨fun h => absurd ⟨hin, hd, href, hkeep⟩ h, fun _ => ⟨rfl, rfl⟩⟩
        · rw [if_neg fun h => (hkeeps.mp h).elim hin hkeep]
          exact ⟨fun _ => rfl, fun h => absurd h.1 hin⟩
    · have href : Container.referenced rows (c.var id).id := (referenced_iff x).mpr hnil
      have hkeeps : c.keeps rows id := by
        rw [Container.keeps, ← hid, href]
        simp
      rw [if_neg hnil, if_neg hnil, if_pos hkeeps]
      exact ⟨fun _ => rfl, fun h => absurd href h.2.2.1⟩
  · rw [if_neg hd, if_neg hd, ite_self]
    exact ⟨fun _ => rfl, fun h => absurd h.2.1 hd⟩

/-- Lists emitted piece by piece are equal only if no piece is shorter. -/
lemma flatMap_ne {α β : Type} {f g : α → List β} {l : List α}
    (hle : ∀ a ∈ l, (f a).length ≤ (g a).length) {a : α} (ha : a ∈ l)
    (hlt : (f a).length < (g a).length) : l.flatMap f ≠ l.flatMap g := by
  intro h
  have hsum := congrArg List.length h
  rw [List.length_flatMap, List.length_flatMap] at hsum
  exact absurd hsum (List.sum_lt_sum _ _ hle ⟨a, ha, hlt⟩).ne

/-- The map of the assigned slots (`slots_into_map`). -/
def slotsIntoMap (slots : DenseAssign p) (v : VarId) : Option (ZMod p) := (slots[v.val]?).join

/-- **When the streaming analysis is the flat one**: exactly when the rows reference declared
variables only, and every signature input that the container makes a derived variable is referenced
by a row or kept. The shards' flags may be merged in any order. -/
theorem stream_underconstrained_agrees {c : Container} {n : ℕ} {prog : CircuitProgram}
    (hprog : expandFunction c n = .ok prog) (assign : DenseAssign p) (checkSat : Bool)
    {merge : List (List (VarId × BitVec 8)) → List (VarId × BitVec 8)}
    (hmerge : ∀ shards, (merge shards).Perm shards.flatten) :
    (∃ sat, streamUnderconstrained c n assign checkSat merge
      = .ok (sat, analyzeUnderconstrainedCp prog (slotsIntoMap assign))) ↔
    (∀ r ∈ prog.constraints, ∀ v ∈ r.vars, v.val < c.numVars) ∧
      ∀ id < c.inputs.length, (c.var id).role = .derived →
        Container.referenced prog.constraints (c.var id).id ∨ (c.var id).id ∈ c.keepExtra := by
  obtain ⟨rows, hrows, hprog⟩ := bind_eq_ok.mp hprog
  obtain ⟨ops, -, hprog⟩ := bind_eq_ok.mp hprog
  obtain rfl := Except.ok.inj hprog
  rw [analyze_eq, show readMap (slotsIntoMap assign) = assign.read from rfl]
  by_cases hdeclared : ∀ r ∈ rows, ∀ v ∈ r.vars, v.val < c.numVars
  · rw [streamUnderconstrained_ok hrows hdeclared assign checkSat hmerge, Container.vars,
      List.flatMap_map]
    refine Iff.trans ?_ (and_iff_right hdeclared).symm
    have hvs := streamOne_vs_flatOne c rows assign.read
    constructor
    · rintro ⟨sat, hsat⟩ id hid hd
      have hlists := congrArg Prod.snd (Except.ok.inj hsat)
      by_contra hnot
      rw [not_or] at hnot
      have hdangling : Dangling c rows id := ⟨hid, hd, hnot.1, hnot.2⟩
      refine flatMap_ne (fun i _ => ?_) (List.mem_range.mpr (hid.trans_le c.inputs_le)) ?_ hlists
      · by_cases h : Dangling c rows i
        · rw [((hvs i).2 h).1]
          exact Nat.zero_le _
        · rw [(hvs i).1 h]
      · rw [((hvs id).2 hdangling).1, ((hvs id).2 hdangling).2]
        exact Nat.one_pos
    · intro h
      refine ⟨_, congrArg (fun l => Except.ok (_, l)) (List.flatMap_congr fun id _ => ?_)⟩
      refine (hvs id).1 fun ⟨hid, hd, href, hkeep⟩ => ?_
      exact (h id hid hd).elim href hkeep
  · refine iff_of_false ?_ fun h => hdeclared h.1
    rintro ⟨sat, hsat⟩
    push Not at hdeclared
    have hvars : c.vars.length = c.numVars := by simp [Container.vars]
    rw [streamUnderconstrained, hvars,
      classifyAndCheck_panic hrows hdeclared assign.read checkSat hmerge] at hsat
    exact absurd hsat (by simp)

end Verdict

/-! ### Inputs on which they differ, and one on which they agree -/

/-- One signature input of role byte 2, which no row references. -/
def derivedInput : Container where
  field := ⟨"seven", some "7"⟩
  numVars := 1
  inputs := [(.derived, "x")]
  defs := []
  topC := []
  topW := []
  keepExtra := []
  inputs_le := by decide

/-- One row, on a variable that is not declared. -/
def undeclaredVar : Container where
  field := ⟨"seven", some "7"⟩
  numVars := 0
  inputs := []
  defs := []
  topC := [.row ⟨.ofVar 0, .one, .zero, none⟩]
  topW := []
  keepExtra := []
  inputs_le := by decide

/-- The flat analysis lists the input, the streaming one does not; on the other container the
streaming one panics. -/
theorem stream_differs :
    (∃ prog, expandFunction derivedInput 1 = .ok prog ∧
      analyzeUnderconstrainedCp (p := 7) prog (slotsIntoMap [])
        = [⟨0, "x", "no constraint references this variable"⟩] ∧
      streamUnderconstrained (p := 7) derivedInput 1 [] false List.flatten = .ok (true, [])) ∧
    ∃ prog, expandFunction undeclaredVar 1 = .ok prog ∧
      analyzeUnderconstrainedCp (p := 7) prog (slotsIntoMap []) = [] ∧
      streamUnderconstrained (p := 7) undeclaredVar 1 [] false List.flatten = .error .panic :=
  ⟨⟨_, rfl, by decide +kernel, by decide +kernel⟩, _, rfl, by decide +kernel, by decide +kernel⟩

lemma inputs_le_looseBit : [(VarRole.publicInput, "x")].length ≤ 2 := by decide

/-- A bit that only its booleanity constrains. -/
def looseBit : Container where
  field := ⟨"seven", some "7"⟩
  numVars := 2
  inputs := [(.publicInput, "x")]
  defs := []
  topC := [.row ⟨.ofVar 1, .ofVar 1, .ofVar 1, none⟩]
  topW := []
  keepExtra := []
  inputs_le := inputs_le_looseBit

/-- What the container expands to. -/
def looseBitProgram : CircuitProgram where
  field := ⟨"seven", some "7"⟩
  vars := [⟨0, "x", .publicInput⟩, ⟨1, "v1", .derived⟩]
  constraints := [⟨.ofVar 1, .ofVar 1, .ofVar 1, none⟩]
  witnessGen := []

theorem stream_underconstrained_agrees_looseBit :
    analyzeUnderconstrainedCp (p := 7) looseBitProgram (slotsIntoMap [some 3, some 1])
      = [⟨1, "v1", "a different value also satisfies all its constraints (two-valued)"⟩] ∧
    ∃ sat, streamUnderconstrained (p := 7) looseBit 1 [some 3, some 1] true List.flatten
      = .ok (sat, analyzeUnderconstrainedCp (p := 7) looseBitProgram (slotsIntoMap [some 3, some 1])) := by
  have hprog : expandFunction looseBit 1 = .ok looseBitProgram := by decide +kernel
  refine ⟨by decide +kernel,
    (stream_underconstrained_agrees hprog _ true fun _ => .refl _).mpr ⟨?_, ?_⟩⟩
  · intro r hr v hv
    obtain rfl := List.mem_singleton.mp hr
    have hone : v = 1 := by
      simpa [R1csRow.vars, LinearCombination.vars, LinearCombination.ofVar] using hv
    rw [hone]
    decide
  · decide +kernel

end XarkCircuit
