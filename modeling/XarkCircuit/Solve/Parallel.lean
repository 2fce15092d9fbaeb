import XarkCircuit.Lib.Schedule
import XarkCircuit.Solve.Hint

/-!
Level-parallel witness solving (`solver.rs`).

* `opReadVars` is the traversal of an instruction's operands, `assignLevels` the pass that gives
  each instruction its level, and `solveWitnessParallel` the run level by level: a level runs
  inline or in chunks that all read the assignment from before the level. How a level runs and is
  cut into chunks is a `Grouping`.
* `SingleAssignment` is what the compiler promises of a program: one writer for each variable, none
  for an input, and no read before the write.
* `level_lt`: an instruction is on a higher level than the writers of what it reads, so that
  instructions of one level, and of levels out of order, commute (`commutes_of_level_le`).
* `solve_parallel_sequential` is the result: the parallel run gives exactly the assignments that
  the sequential one gives, so it fails exactly when that does.
-/

namespace XarkCircuit

/-- An instruction of the witness program. -/
abbrev WitnessOp := WitnessGen LinearCombination VarId

/-! ### Levels -/

/-- The variables of several combinations. -/
def eachVar (lcs : List LinearCombination) : List VarId := lcs.flatMap LinearCombination.vars

/-- `op_read_vars`. -/
def opReadVars : WitnessOp → List VarId
  | .product _ left right => left.vars ++ right.vars
  | .linear _ lc => lc.vars
  | .xor _ a b => a.vars ++ b.vars
  | .or _ a b => a.vars ++ b.vars
  | .inverse _ input => input.vars
  | .inverseOrZero _ input => input.vars
  | .bit _ input _ => input.vars
  | .bits _ input => input.vars
  | .divRem _ _ num den => num.vars ++ den.vars
  | .mulModDivMod _ _ a b modulus _ => eachVar a ++ eachVar b ++ eachVar modulus
  | .modInverse _ a modulus _ => eachVar a ++ eachVar modulus
  | .fakeGlv _ u modulus lambda _ => eachVar u ++ eachVar modulus ++ eachVar lambda
  | .sub2 _ _ a b c modulus _ => eachVar a ++ eachVar b ++ eachVar c ++ eachVar modulus

/-- The level of an instruction, where `producedAt` is the level of the writer of each variable. -/
def levelOf (producedAt : VarId → Option ℕ) (op : WitnessOp) : ℕ :=
  (opReadVars op).foldl (fun lv v => match producedAt v with
    | some level => max lv (level + 1)
    | none => lv) 0

/-- The pass over the instructions that gives each its level. -/
def assignLevels (producedAt : VarId → Option ℕ) : List WitnessOp → List (WitnessOp × ℕ)
  | [] => []
  | op :: ops =>
      let lv := levelOf producedAt op
      (op, lv) :: assignLevels
        (op.outs.foldl (fun at' v => Function.update at' v (some lv)) producedAt) ops

/-- The instructions of each level, in program order. -/
def levels (ops : List WitnessOp) : List (List WitnessOp) :=
  let leveled := assignLevels (fun _ => none) ops
  let maxLevel := leveled.foldl (fun lv e => max lv e.2) 0
  (List.range (maxLevel + 1)).map fun k => (leveled.filter fun e => e.2 = k).map Prod.fst

/-! ### The parallel run -/

/-- How the levels are run: which run inline, how the others are cut into chunks, and which of
several failing chunks reports its error. -/
structure Grouping where
  threads : ℕ
  runsInline : List WitnessOp → Bool
  chunks : List WitnessOp → List (List WitnessOp)
  chunks_flatten : ∀ ops, (chunks ops).flatten = ops
  pick : SolveError → List SolveError → SolveError

/-- `par_chunks`. -/
def parChunks {α : Type} (n : ℕ) : ℕ → List α → List (List α)
  | 0, _ => []
  | fuel + 1, l => if l.isEmpty then [] else l.take n :: parChunks n fuel (l.drop n)

lemma flatten_parChunks {α : Type} {n : ℕ} (hn : 0 < n) {fuel : ℕ} {l : List α}
    (h : l.length ≤ fuel) : (parChunks n fuel l).flatten = l := by
  induction fuel generalizing l with
  | zero =>
      rw [List.length_eq_zero_iff.mp (Nat.le_zero.mp h)]
      rfl
  | succ fuel ih =>
      rw [parChunks]
      split_ifs with hl
      · rw [List.isEmpty_iff.mp hl]
        rfl
      · rw [List.flatten_cons, ih, List.take_append_drop]
        rw [List.length_drop]
        omega

/-- The grouping of the source on `threads` threads: levels below `PAR_LEVEL = 256` run inline, the
others in chunks of 64. -/
def Grouping.source (threads : ℕ) (pick : SolveError → List SolveError → SolveError) :
    Grouping where
  threads := threads
  runsInline ops := ops.length < 256
  chunks ops := parChunks 64 ops.length ops
  chunks_flatten _ := flatten_parChunks (by decide) le_rfl
  pick := pick

/-- Collecting results: all of them, or one of the errors. -/
def parCollect {α : Type} (pick : SolveError → List SolveError → SolveError)
    (results : List (Except SolveError α)) : Except SolveError (List α) :=
  match results.filterMap fun r => match r with | .ok _ => none | .error e => some e with
  | [] => .ok (results.filterMap Except.toOption)
  | e :: es => .error (pick e es)

section Run

variable (p : ℕ) (fakeGlv : FakeGlv)

/-- Executing one instruction against an assignment. -/
def execOn (assign : DenseAssign p) (op : WitnessOp) : Except SolveError (List (VarId × ZMod p)) :=
  (execWitnessOp p fakeGlv (fun lc => (pure (evalLc p lc assign) : Id (ZMod p))) op).run

/-- The outputs landing. -/
def land (assign : DenseAssign p) (outs : List (VarId × ZMod p)) : DenseAssign p :=
  outs.foldl (fun assign o => assign.set o.1 o.2) assign

/-- The outputs of a chunk, all computed from one snapshot. -/
def chunkOutputs (snapshot : DenseAssign p) (chunk : List WitnessOp) :
    Except SolveError (List (VarId × ZMod p)) :=
  (chunk.mapM (execOn p fakeGlv snapshot)).map List.flatten

/-- One level. -/
def solveLevel (g : Grouping) (assign : DenseAssign p) (levelOps : List WitnessOp) :
    Except SolveError (DenseAssign p) :=
  if g.runsInline levelOps then solveWitnessSequential p fakeGlv levelOps assign
  else (parCollect g.pick ((g.chunks levelOps).map (chunkOutputs p fakeGlv assign))).map
    fun produced => produced.foldl (land p) assign

/-- `solve_witness_parallel`. -/
def solveWitnessParallel (g : Grouping) (ops : List WitnessOp) (assign : DenseAssign p) :
    Except SolveError (DenseAssign p) :=
  if g.threads ≤ 1 then solveWitnessSequential p fakeGlv ops assign
  else (levels ops).foldlM (solveLevel p fakeGlv g) assign

end Run

/-! ### What a program promises -/

/-- Each variable has one writer, no input has any, and what an instruction reads is an input or
written before it. -/
structure SingleAssignment (inputs : Set VarId) (ops : List WitnessOp) : Prop where
  once : ops.Pairwise fun a b => ∀ v ∈ a.outs, v ∉ b.outs
  inputs_kept : ∀ op ∈ ops, ∀ v ∈ op.outs, v ∉ inputs
  reads_earlier : ∀ pre op post, ops = pre ++ op :: post → ∀ lc ∈ op.reads, ∀ v ∈ lc.vars,
    v ∈ inputs ∨ ∃ a ∈ pre, v ∈ a.outs

/-- The two traversals of the operands visit the same variables. -/
lemma mem_opReadVars {op : WitnessOp} {v : VarId} :
    v ∈ opReadVars op ↔ ∃ lc ∈ op.reads, v ∈ lc.vars := by
  have heach : ∀ lcs : List LinearCombination, v ∈ eachVar lcs ↔ ∃ lc ∈ lcs, v ∈ lc.vars :=
    fun lcs => List.mem_flatMap
  cases op <;>
    simp only [opReadVars, WitnessGen.reads, List.mem_append, List.mem_cons, List.not_mem_nil,
      or_false, heach, or_and_right, exists_or, exists_eq_left]
  case modInverse => exact or_comm

/-- A later instruction writes nothing that an earlier one reads. -/
lemma SingleAssignment.reads_kept {inputs : Set VarId} {ops : List WitnessOp}
    (h : SingleAssignment inputs ops) :
    ops.Pairwise fun a b => ∀ v ∈ opReadVars a, v ∉ b.outs := by
  rw [List.pairwise_iff_getElem]
  intro i j hi hj hij v hv
  have hsplit : ops = ops.take i ++ ops[i] :: ops.drop (i + 1) := by
    rw [← List.drop_eq_getElem_cons hi, List.take_append_drop]
  obtain ⟨lc, hlc, hv⟩ := mem_opReadVars.mp hv
  rcases h.reads_earlier _ _ _ hsplit lc hlc v hv with hin | ⟨a, ha, hva⟩
  · exact fun hmem => h.inputs_kept _ (List.getElem_mem hj) v hmem hin
  · obtain ⟨k, hk, rfl⟩ := List.mem_iff_getElem.mp ha
    rw [List.length_take] at hk
    rw [List.getElem_take] at hva
    exact List.pairwise_iff_getElem.mp h.once k j _ hj (by omega) v hva

/-! ### Levels and reads -/

lemma le_levelOf {producedAt : VarId → Option ℕ} {op : WitnessOp} {v : VarId} {level : ℕ}
    (hv : v ∈ opReadVars op) (hlevel : producedAt v = some level) :
    level < levelOf producedAt op := by
  have key : ∀ (vs : List VarId) (lv : ℕ),
      lv ≤ vs.foldl (fun lv v => match producedAt v with
        | some level => max lv (level + 1)
        | none => lv) lv ∧
      (v ∈ vs → level < vs.foldl (fun lv v => match producedAt v with
        | some level => max lv (level + 1)
        | none => lv) lv) := by
    intro vs
    induction vs with
    | nil => exact fun lv => ⟨le_rfl, fun h => absurd h List.not_mem_nil⟩
    | cons w vs ih =>
        intro lv
        rw [List.foldl_cons]
        obtain ⟨hle, hmem⟩ := ih (match producedAt w with
          | some level => max lv (level + 1)
          | none => lv)
        refine ⟨le_trans ?_ hle, fun hv => ?_⟩
        · split
          · exact le_max_left _ _
          · exact le_rfl
        · rcases List.mem_cons.mp hv with rfl | hv
          · refine lt_of_lt_of_le ?_ hle
            rw [hlevel]
            exact lt_of_lt_of_le (Nat.lt_succ_self level) (le_max_right _ _)
          · exact hmem hv
  exact (key _ 0).2 hv

lemma map_fst_assignLevels (producedAt : VarId → Option ℕ) (ops : List WitnessOp) :
    (assignLevels producedAt ops).map Prod.fst = ops := by
  induction ops generalizing producedAt with
  | nil => rfl
  | cons op ops ih => rw [assignLevels, List.map_cons, ih]

/-- The outputs of an instruction are recorded at its level, the other variables as before. -/
lemma foldl_produced {outs : List VarId} {producedAt : VarId → Option ℕ} {lv : ℕ} {v : VarId} :
    outs.foldl (fun at' v => Function.update at' v (some lv)) producedAt v
      = if v ∈ outs then some lv else producedAt v := by
  induction outs generalizing producedAt with
  | nil => rfl
  | cons w outs ih =>
      rw [List.foldl_cons, ih]
      by_cases hv : v ∈ outs
      · rw [if_pos hv, if_pos (List.mem_cons_of_mem _ hv)]
      · rw [if_neg hv]
        by_cases hw : v = w
        · rw [hw, Function.update_self, if_pos List.mem_cons_self]
        · rw [Function.update_of_ne hw, if_neg (by simp [hw, hv])]

/-- A variable that has a writer and gets no other is read on higher levels only. -/
lemma lt_of_reads_produced {producedAt : VarId → Option ℕ} {ops : List WitnessOp} {v : VarId}
    {level : ℕ} (hlevel : producedAt v = some level) (hkept : ∀ op ∈ ops, v ∉ op.outs)
    {e : WitnessOp × ℕ} (he : e ∈ assignLevels producedAt ops) (hv : v ∈ opReadVars e.1) :
    level < e.2 := by
  induction ops generalizing producedAt with
  | nil => exact absurd he List.not_mem_nil
  | cons op ops ih =>
      rcases List.mem_cons.mp he with rfl | he
      · exact le_levelOf hv hlevel
      · refine ih ?_ (fun o ho => hkept o (List.mem_cons_of_mem _ ho)) he
        rw [foldl_produced, if_neg (hkept op List.mem_cons_self), hlevel]

/-- **An instruction is on a higher level than the writers of what it reads.** -/
lemma level_lt {ops : List WitnessOp} (honce : ops.Pairwise fun a b => ∀ v ∈ a.outs, v ∉ b.outs)
    (producedAt : VarId → Option ℕ) :
    (assignLevels producedAt ops).Pairwise fun a b =>
      ∀ v ∈ a.1.outs, v ∈ opReadVars b.1 → a.2 < b.2 := by
  induction ops generalizing producedAt with
  | nil => exact List.Pairwise.nil
  | cons op ops ih =>
      obtain ⟨hop, hops⟩ := List.pairwise_cons.mp honce
      refine List.pairwise_cons.mpr ⟨fun e he v hv hread => ?_, ih hops _⟩
      refine lt_of_reads_produced ?_ (fun o ho => hop o ho v hv) he hread
      rw [foldl_produced, if_pos hv]

/-- The levels are below the number of instructions, so they fit the source's `u32` wherever that
number does. -/
lemma level_lt_length (ops : List WitnessOp) :
    ∀ e ∈ assignLevels (fun _ => none) ops, e.2 < ops.length := by
  have hlevel : ∀ (producedAt : VarId → Option ℕ) (op : WitnessOp) (n : ℕ),
      (∀ v level, producedAt v = some level → level < n) → levelOf producedAt op ≤ n := by
    intro producedAt op n hn
    have key : ∀ (vs : List VarId) (lv : ℕ), lv ≤ n →
        vs.foldl (fun lv v => match producedAt v with
          | some level => max lv (level + 1)
          | none => lv) lv ≤ n := by
      intro vs
      induction vs with
      | nil => exact fun lv h => h
      | cons v vs ih =>
          intro lv h
          rw [List.foldl_cons]
          refine ih _ ?_
          split
          · next level hv => exact max_le h (hn v level hv)
          · exact h
    exact key _ 0 (Nat.zero_le _)
  have key : ∀ (ops : List WitnessOp) (producedAt : VarId → Option ℕ) (n : ℕ),
      (∀ v level, producedAt v = some level → level < n) →
      ∀ e ∈ assignLevels producedAt ops, e.2 < n + ops.length := by
    intro ops
    induction ops with
    | nil => exact fun _ _ _ e he => absurd he List.not_mem_nil
    | cons op ops ih =>
        intro producedAt n hn e he
        have hop := hlevel producedAt op n hn
        rw [List.length_cons]
        rcases List.mem_cons.mp he with rfl | he
        · show levelOf producedAt op < _
          omega
        · have hrest := ih _ (n + 1) (fun v level hv => ?_) e he
          · omega
          · rw [foldl_produced] at hv
            split_ifs at hv
            · rw [← Option.some.inj hv]
              omega
            · exact (hn v level hv).trans (Nat.lt_succ_self n)
  intro e he
  have h := key ops _ 0 (fun v level hv => by cases hv) e he
  omega

/-! ### Instructions that commute -/

section Commute

variable {p : ℕ} {fakeGlv : FakeGlv}

lemma getElem?_set_slot (s : DenseAssign p) (v : VarId) (x : ZMod p) (i : ℕ) :
    (s.set v x)[i]? = if i = v.val then some (some x)
      else if i < max s.length (v.val + 1) then some (s[i]?).join else none := by
  rw [DenseAssign.set, List.getElem?_set]
  have hlen : v.val < (if s.length ≤ v.val then
      s ++ List.replicate (v.val + 1 - s.length) none else s).length := by
    split_ifs with h
    · rw [List.length_append, List.length_replicate]
      omega
    · omega
  by_cases hi : i = v.val
  · rw [if_pos hi.symm, if_pos hlen, if_pos hi]
  · rw [if_neg (Ne.symm hi), if_neg hi]
    split_ifs with h hlt hlt
    · by_cases his : i < s.length
      · rw [List.getElem?_append_left his, List.getElem?_eq_getElem his]
        rfl
      · rw [List.getElem?_append_right (not_lt.mp his), List.getElem?_replicate,
          List.getElem?_eq_none (not_lt.mp his), if_pos (by omega)]
        rfl
    · rw [List.getElem?_eq_none]
      rw [List.length_append, List.length_replicate]
      omega
    · have his : i < s.length := by omega
      rw [List.getElem?_eq_getElem his]
      rfl
    · rw [List.getElem?_eq_none (by omega)]

/-- Writes to different variables may be exchanged. -/
lemma set_comm (s : DenseAssign p) {v w : VarId} (hvw : v ≠ w) (x y : ZMod p) :
    (s.set v x).set w y = (s.set w y).set v x := by
  have hne : v.val ≠ w.val := fun h => hvw (Fin.ext h)
  have hlen : ∀ (s : DenseAssign p) (v : VarId) (x : ZMod p),
      (s.set v x).length = max s.length (v.val + 1) := by
    intro s v x
    rw [DenseAssign.set, List.length_set]
    split_ifs
    · rw [List.length_append, List.length_replicate]
      omega
    · omega
  refine List.ext_getElem? fun i => ?_
  simp only [getElem?_set_slot, hlen]
  by_cases hv : i = v.val
  · subst hv
    rw [if_neg hne, if_pos rfl, if_pos rfl, if_pos (by omega)]
    rfl
  · by_cases hw : i = w.val
    · subst hw
      rw [if_pos rfl, if_neg hv, if_pos rfl, if_pos (by omega)]
      rfl
    · rw [if_neg hw, if_neg hv, if_neg hv, if_neg hw]
      by_cases his : i < s.length
      · rw [if_pos (by omega), if_pos (by omega), if_pos (by omega), if_pos (by omega)]
      · rw [List.getElem?_eq_none (not_lt.mp his)]
        split_ifs <;> first | rfl | omega

lemma read_set_of_ne (s : DenseAssign p) {v w : VarId} (hvw : w ≠ v) (x : ZMod p) :
    (s.set v x).read w = s.read w := by
  have hne : w.val ≠ v.val := fun h => hvw (Fin.ext h)
  rw [DenseAssign.read, DenseAssign.read, getElem?_set_slot, if_neg hne]
  split_ifs with h
  · rfl
  · rw [List.getElem?_eq_none (by omega)]

lemma read_land {outs : List (VarId × ZMod p)} {w : VarId} (h : ∀ o ∈ outs, o.1 ≠ w)
    (s : DenseAssign p) : (land p s outs).read w = s.read w := by
  induction outs generalizing s with
  | nil => rfl
  | cons o outs ih =>
      rw [land, List.foldl_cons]
      refine (ih (fun o' ho => h o' (List.mem_cons_of_mem _ ho)) _).trans ?_
      exact read_set_of_ne s (h o List.mem_cons_self).symm _

lemma land_comm {outs outs' : List (VarId × ZMod p)} (h : ∀ o ∈ outs, ∀ o' ∈ outs', o.1 ≠ o'.1)
    (s : DenseAssign p) : land p (land p s outs) outs' = land p (land p s outs') outs := by
  have hone : ∀ (outs : List (VarId × ZMod p)) (o : VarId × ZMod p), (∀ o' ∈ outs, o.1 ≠ o'.1) →
      ∀ s : DenseAssign p, land p (s.set o.1 o.2) outs = (land p s outs).set o.1 o.2 := by
    intro outs o
    induction outs with
    | nil => exact fun _ _ => rfl
    | cons o' outs ih =>
        intro ho s
        have hrest := ih (fun o'' h'' => ho o'' (List.mem_cons_of_mem _ h'')) (s.set o'.1 o'.2)
        rw [land, List.foldl_cons, set_comm s (ho o' List.mem_cons_self)]
        exact hrest
  induction outs generalizing s with
  | nil => rfl
  | cons o outs ih =>
      have hrest := ih (fun o' ho => h o' (List.mem_cons_of_mem _ ho)) (s.set o.1 o.2)
      rw [hone outs' o (h o List.mem_cons_self)] at hrest
      exact hrest

/-- What an instruction computes, errors forgotten. -/
def computed (fakeGlv : FakeGlv) (s : DenseAssign p) (op : WitnessOp) :
    Option (List (VarId × ZMod p)) := (execOn p fakeGlv s op).toOption

/-- An instruction sees only the variables it reads. -/
lemma computed_congr {s s' : DenseAssign p} {op : WitnessOp}
    (h : ∀ v ∈ opReadVars op, s.read v = s'.read v) :
    computed fakeGlv s op = computed fakeGlv s' op := by
  rw [computed, computed, execOn, execOn]
  refine congrArg _ (congrArg _ (execWitnessOp_congr p fakeGlv fun lc hlc => ?_))
  rw [evalLc, evalLc]
  exact congrArg _ (lc.eval_congr fun v hv => h v (mem_opReadVars.mpr ⟨lc, hlc, hv⟩))

lemma mem_outs_of_computed {s : DenseAssign p} {op : WitnessOp} {outs : List (VarId × ZMod p)}
    (h : computed fakeGlv s op = some outs) {o : VarId × ZMod p} (ho : o ∈ outs) :
    o.1 ∈ op.outs := by
  rw [computed] at h
  cases hexec : execOn p fakeGlv s op with
  | error e =>
      rw [hexec] at h
      cases h
  | ok outs' =>
      rw [hexec] at h
      cases h
      exact mem_outs_of_execWitnessOp p hexec ho

/-- What an instruction computes is not changed by one that writes nothing it reads. -/
lemma computed_land {s : DenseAssign p} {a b : WitnessOp} {outs : List (VarId × ZMod p)}
    (ha : computed fakeGlv s a = some outs) (h : ∀ v ∈ a.outs, v ∉ opReadVars b)
    (t : DenseAssign p) : computed fakeGlv (land p t outs) b = computed fakeGlv t b := by
  refine computed_congr fun v hv => read_land (fun o ho he => ?_) t
  exact h o.1 (mem_outs_of_computed ha ho) (he ▸ hv)

/-- One instruction, errors forgotten. -/
def stepped (fakeGlv : FakeGlv) (s : DenseAssign p) (op : WitnessOp) : Option (DenseAssign p) :=
  (computed fakeGlv s op).map (land p s)

/-- Two instructions of which neither writes what the other reads or writes may be exchanged. -/
lemma commutes_of_disjoint {a b : WitnessOp} (hab : ∀ v ∈ a.outs, v ∉ opReadVars b)
    (hba : ∀ v ∈ b.outs, v ∉ opReadVars a) (houts : ∀ v ∈ a.outs, v ∉ b.outs) :
    Commutes (stepped (p := p) fakeGlv) a b := by
  intro s
  simp only [stepped]
  cases ha : computed fakeGlv s a with
  | none =>
      cases hb : computed fakeGlv s b with
      | none => rfl
      | some outs' => simp [computed_land hb hba s, ha]
  | some outs =>
      cases hb : computed fakeGlv s b with
      | none => simp [computed_land ha hab s, hb]
      | some outs' =>
          simp only [Option.map_some, Option.bind_some, computed_land ha hab s,
            computed_land hb hba s, ha, hb]
          refine congrArg some (land_comm (fun o ho o' ho' he => ?_) s)
          exact houts _ (mem_outs_of_computed ha ho) (he ▸ mem_outs_of_computed hb ho')

/-- **Instructions that are not on increasing levels commute**, and neither reads the other. -/
lemma commutes_of_level_le (p : ℕ) (fakeGlv : FakeGlv) {inputs : Set VarId} {ops : List WitnessOp}
    (h : SingleAssignment inputs ops) :
    (assignLevels (fun _ => none) ops).Pairwise fun a b => b.2 ≤ a.2 →
      (∀ v ∈ a.1.outs, v ∉ opReadVars b.1) ∧ Commutes (stepped (p := p) fakeGlv) a.1 b.1 := by
  have hpairs : ∀ {R : WitnessOp → WitnessOp → Prop}, ops.Pairwise R →
      (assignLevels (fun _ => none) ops).Pairwise fun a b => R a.1 b.1 := by
    intro R hR
    rw [← map_fst_assignLevels (fun _ => none) ops] at hR
    exact List.pairwise_map.mp hR
  refine ((level_lt h.once _).and ((hpairs h.reads_kept).and (hpairs h.once))).imp ?_
  rintro a b ⟨hlevel, hreads, houts⟩ hle
  have hab : ∀ v ∈ a.1.outs, v ∉ opReadVars b.1 := fun v hv hread =>
    absurd (hlevel v hv hread) (not_lt.mpr hle)
  exact ⟨hab, commutes_of_disjoint hab (fun v hv hread => hreads v hread hv) houts⟩

end Commute

/-! ### The runs, errors forgotten -/

section Forget

variable {p : ℕ} {fakeGlv : FakeGlv}

lemma toOption_map {ε α β : Type} (f : α → β) (r : Except ε α) :
    (r.map f).toOption = r.toOption.map f := by cases r <;> rfl

lemma toOption_foldlM {ε σ ι : Type} (f : σ → ι → Except ε σ) (l : List ι) (s : σ) :
    (l.foldlM f s).toOption = l.foldlM (fun s a => (f s a).toOption) s := by
  induction l generalizing s with
  | nil => rfl
  | cons a l ih =>
      rw [List.foldlM_cons, List.foldlM_cons]
      cases f s a with
      | error e => rfl
      | ok t => exact ih t

lemma toOption_mapM {ε α β : Type} (f : α → Except ε β) (l : List α) :
    (l.mapM f).toOption = l.mapM fun a => (f a).toOption := by
  induction l with
  | nil => rfl
  | cons a l ih =>
      rw [List.mapM_cons, List.mapM_cons, ← ih]
      cases f a with
      | error e => rfl
      | ok b =>
          cases l.mapM f with
          | error e => rfl
          | ok bs => rfl

lemma toOption_parCollect {α : Type} (pick : SolveError → List SolveError → SolveError)
    (results : List (Except SolveError α)) :
    (parCollect pick results).toOption = results.mapM Except.toOption := by
  induction results with
  | nil => rfl
  | cons r results ih =>
      rw [List.mapM_cons, ← ih, parCollect, parCollect]
      cases r with
      | error e => rfl
      | ok a =>
          rw [List.filterMap_cons, List.filterMap_cons]
          simp only [Except.toOption]
          cases results.filterMap fun r => match r with | .ok _ => none | .error e => some e with
          | nil => rfl
          | cons e es => rfl

/-- The sequential run. -/
lemma toOption_sequential (ops : List WitnessOp) (s : DenseAssign p) :
    (solveWitnessSequential p fakeGlv ops s).toOption = ops.foldlM (stepped fakeGlv) s := by
  rw [solveWitnessSequential, toOption_foldlM]
  refine congrArg (fun f => List.foldlM f s ops) (funext fun s => funext fun op => ?_)
  rw [solveOp, toOption_map]
  rfl

/-- **A level**, however it is grouped, is its instructions one after the other, if none reads what
an earlier one of the level writes. -/
lemma toOption_solveLevel (g : Grouping) {levelOps : List WitnessOp}
    (h : levelOps.Pairwise fun a b => ∀ v ∈ a.outs, v ∉ opReadVars b) (s : DenseAssign p) :
    (solveLevel p fakeGlv g s levelOps).toOption = levelOps.foldlM (stepped fakeGlv) s := by
  rw [solveLevel]
  split_ifs
  · exact toOption_sequential levelOps s
  · have hchunk : ∀ chunk, (chunkOutputs p fakeGlv s chunk).toOption
        = (chunk.mapM (computed fakeGlv s)).map List.flatten := by
      intro chunk
      rw [chunkOutputs, toOption_map, toOption_mapM]
      rfl
    have hland : ∀ (tss : List (List (List (VarId × ZMod p)))) (s : DenseAssign p),
        (tss.map List.flatten).foldl (land p) s = tss.flatten.foldl (land p) s := by
      intro tss
      induction tss with
      | nil => exact fun _ => rfl
      | cons ts tss ih =>
          intro s
          have hone : land p s ts.flatten = ts.foldl (land p) s := by
            rw [land, List.foldl_flatten]
            rfl
          rw [List.map_cons, List.foldl_cons, List.flatten_cons, List.foldl_append, hone, ih]
    have hmap : ((g.chunks levelOps).map (chunkOutputs p fakeGlv s)).mapM Except.toOption
        = ((g.chunks levelOps).mapM fun chunk : List WitnessOp =>
            chunk.mapM (computed fakeGlv s)).map
            (List.map List.flatten) := by
      rw [List.mapM_map]
      generalize g.chunks levelOps = chunks
      induction chunks with
      | nil => rfl
      | cons chunk chunks ih =>
          rw [List.mapM_cons, List.mapM_cons, ih, Function.comp_apply, hchunk]
          cases chunk.mapM (computed fakeGlv s) with
          | none => rfl
          | some ts =>
              cases chunks.mapM fun chunk : List WitnessOp => chunk.mapM (computed fakeGlv s) with
              | none => rfl
              | some tss => rfl
    have hsnap := foldlM_snapshot (computed (p := p) fakeGlv) (land p)
      (h.imp fun {a b} hab s outs ha => computed_land ha hab s) s
    have hall := mapM_flatten (computed (p := p) fakeGlv s) (g.chunks levelOps)
    rw [g.chunks_flatten] at hall
    rw [toOption_map, toOption_parCollect, hmap, Option.map_map]
    refine Eq.trans ?_ hsnap.symm
    rw [← hall, Option.map_map]
    refine congrArg (fun f => Option.map f _) (funext fun tss => ?_)
    exact hland tss s

lemma le_maxLevel {leveled : List (WitnessOp × ℕ)} {e : WitnessOp × ℕ} (he : e ∈ leveled) :
    e.2 ≤ leveled.foldl (fun lv e => max lv e.2) 0 := by
  have key : ∀ (l : List (WitnessOp × ℕ)) (lv : ℕ), lv ≤ l.foldl (fun lv e => max lv e.2) lv ∧
      (e ∈ l → e.2 ≤ l.foldl (fun lv e => max lv e.2) lv) := by
    intro l
    induction l with
    | nil => exact fun lv => ⟨le_rfl, fun h => absurd h List.not_mem_nil⟩
    | cons d l ih =>
        intro lv
        obtain ⟨hle, hmem⟩ := ih (max lv d.2)
        refine ⟨(le_max_left _ _).trans hle, fun h => ?_⟩
        rcases List.mem_cons.mp h with rfl | h
        · exact (le_max_right _ _).trans hle
        · exact hmem h
  exact (key leveled 0).2 he

/-- The levels one after the other are the instructions one after the other. -/
lemma foldlM_solveLevel (g : Grouping) {ops : List WitnessOp}
    (h : (assignLevels (fun _ => none) ops).Pairwise fun a b => b.2 ≤ a.2 →
      (∀ v ∈ a.1.outs, v ∉ opReadVars b.1) ∧ Commutes (stepped (p := p) fakeGlv) a.1 b.1)
    (assign : DenseAssign p) :
    (levels ops).foldlM (fun s l => (solveLevel p fakeGlv g s l).toOption) assign
      = ops.foldlM (stepped fakeGlv) assign := by
  conv_rhs => rw [← map_fst_assignLevels (fun _ => none) ops]
  rw [levels]
  generalize assignLevels (fun _ => none) ops = leveled at h ⊢
  have hmax : ∀ e ∈ leveled, e.2 < leveled.foldl (fun lv e => max lv e.2) 0 + 1 := fun e he =>
    Nat.lt_succ_of_le (le_maxLevel he)
  have hrun : leveled.foldlM (fun s e => stepped (p := p) fakeGlv s e.1) assign
      = (byLevel (fun e => e.2) (leveled.foldl (fun lv e => max lv e.2) 0 + 1) leveled).foldlM
          (fun s e => stepped fakeGlv s e.1) assign :=
    foldlM_levels (fun e => e.2) hmax (h.imp fun {a b} hab hlt => (hab hlt.le).2) assign
  rw [List.foldlM_map, List.foldlM_map]
  refine Eq.trans ?_ hrun.symm
  rw [byLevel, foldlM_flatMap]
  refine congrArg (fun f => List.foldlM f assign _) (funext fun s => funext fun k => ?_)
  have hlevel : ((leveled.filter fun e => e.2 = k).map Prod.fst).Pairwise fun a b =>
      ∀ v ∈ a.outs, v ∉ opReadVars b := by
    refine List.pairwise_map.mpr ((h.filter _).imp_of_mem fun {a b} ha hb hab => (hab ?_).1)
    have hak := of_decide_eq_true (List.mem_filter.mp ha).2
    have hbk := of_decide_eq_true (List.mem_filter.mp hb).2
    exact (hbk.trans hak.symm).le
  rw [toOption_solveLevel g hlevel, List.foldlM_map]

/-- **Level-parallel solving is sequential solving.** For every program with one writer for each
variable, none for an input, and no read before the write, and however the levels are grouped: the
parallel run returns an assignment exactly when the sequential run returns it. -/
theorem solve_parallel_sequential (fakeGlv : FakeGlv) (g : Grouping) {inputs : Set VarId}
    {ops : List WitnessOp} (h : SingleAssignment inputs ops) (assign : DenseAssign p) :
    (∀ out, solveWitnessParallel p fakeGlv g ops assign = .ok out ↔
      solveWitnessSequential p fakeGlv ops assign = .ok out) ∧
    ((∃ e, solveWitnessParallel p fakeGlv g ops assign = .error e) ↔
      ∃ e, solveWitnessSequential p fakeGlv ops assign = .error e) := by
  have hsame : (solveWitnessParallel p fakeGlv g ops assign).toOption
      = (solveWitnessSequential p fakeGlv ops assign).toOption := by
    rw [solveWitnessParallel]
    split_ifs
    · rfl
    · have hpairs := commutes_of_level_le p fakeGlv h
      rw [toOption_foldlM, toOption_sequential]
      exact foldlM_solveLevel g hpairs assign
  have hok : ∀ r : Except SolveError (DenseAssign p), ∀ out, r = .ok out ↔ r.toOption = some out := by
    intro r out
    cases r <;> simp [Except.toOption]
  have herr : ∀ r : Except SolveError (DenseAssign p), (∃ e, r = .error e) ↔ r.toOption = none := by
    intro r
    cases r <;> simp [Except.toOption]
  exact ⟨fun out => by rw [hok, hok, hsame], by rw [herr, herr, hsame]⟩

/-- `v1 = x + 1` and `v2 = v1 · x`, with `x` the input. -/
def successorTimes : List WitnessOp := [.linear 1 ⟨1, [⟨1, 0⟩]⟩, .product 2 (.ofVar 1) (.ofVar 0)]

lemma successorTimes_single : SingleAssignment {0} successorTimes := by
  refine ⟨?_, ?_, ?_⟩
  · simp [successorTimes, WitnessGen.outs]
  · simp [successorTimes, WitnessGen.outs]
  · intro pre op post hsplit lc hlc v hv
    rcases pre with _ | ⟨a, _ | ⟨b, pre⟩⟩
    · cases hsplit
      obtain rfl := List.mem_singleton.mp hlc
      exact Or.inl (by simpa [LinearCombination.vars] using hv)
    · cases hsplit
      rcases List.mem_cons.mp hlc with rfl | hlc
      · exact Or.inr ⟨_, List.mem_cons_self, by
          simpa [LinearCombination.vars, LinearCombination.ofVar, WitnessGen.outs] using hv⟩
      · obtain rfl := List.mem_singleton.mp hlc
        exact Or.inl (by simpa [LinearCombination.vars, LinearCombination.ofVar] using hv)
    · simp [successorTimes] at hsplit

theorem solve_parallel_sequential_successorTimes :
    solveWitnessParallel 7 (fun _ _ _ => none)
      { Grouping.source 4 fun e _ => e with runsInline := fun _ => false } successorTimes [some 3]
      = .ok [some 3, some 4, some 5] :=
  ((solve_parallel_sequential (fun _ _ _ => none)
    { Grouping.source 4 fun e _ => e with runsInline := fun _ => false }
    successorTimes_single [some 3]).1 _).mpr (by decide +kernel)

end Forget

end XarkCircuit
