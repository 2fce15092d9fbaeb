import XarkCircuit.Bytecode.Fold

/-!
Items are read back (`bytecode.rs`).

* `Item.Fits` and `StreamFits` bound what items hold, as `Opcode.Fits` does for an instruction. What
  a fold builds from a stream that fits, fits (`fits_fold`).
* `reads_itemCompact`: an item that fits is read back, with as much depth as it nests.
-/

namespace XarkCircuit

namespace Bytecode

open Codec Outcome

/-! ### What fits -/

/-- A rule whose steps are `i64`. -/
def NoteRule.Fits : NoteRule → Prop
  | .noChange => True
  | .template runs => runs.length < 2 ^ 64 ∧ ∀ run ∈ runs, -2 ^ 63 ≤ run.2 ∧ run.2 < 2 ^ 63

/-- Steps that are `i64`, as many as an address space holds. -/
def StepsFit (steps : List ℤ) : Prop :=
  steps.length < 2 ^ 64 ∧ ∀ s ∈ steps, -2 ^ 63 ≤ s ∧ s < 2 ^ 63

/-- Rules in range, as many as an address space holds. -/
def RulesFit (notes : List NoteRule) : Prop := notes.length < 2 ^ 64 ∧ ∀ n ∈ notes, n.Fits

mutual

/-- An item in range. -/
def Item.Fits : Item → Prop
  | .op o => o.Fits
  | .rep _ body steps notes =>
      body.length < 2 ^ 64 ∧ FitOf body ∧ StepsFit steps ∧ RulesFit notes

/-- A block of items in range. -/
def FitOf : List Item → Prop
  | [] => True
  | it :: its => it.Fits ∧ FitOf its

end

lemma fitOf_iff {its : List Item} : FitOf its ↔ ∀ it ∈ its, it.Fits := by
  induction its with
  | nil => simp [FitOf]
  | cons it its ih => simp [FitOf, ih]

/-- A stream in range. -/
structure StreamFits (items : List Item) : Prop where
  each : ∀ it ∈ items, it.Fits
  length : items.length < 2 ^ 64
  operands : (operandsOf items).length < 2 ^ 64
  notes : (notesOf items).length < 2 ^ 64
  note : ∀ n ∈ notesOf items, NoteFits n

/-! ### Operands and notes of a part -/

lemma operandsOf_eq_flatMap (its : List Item) : operandsOf its = its.flatMap Item.operands := by
  induction its with
  | nil => rfl
  | cons it its ih => rw [operandsOf, ih, List.flatMap_cons]

lemma notesOf_eq_flatMap (its : List Item) : notesOf its = its.flatMap Item.notes := by
  induction its with
  | nil => rfl
  | cons it its ih => rw [notesOf, ih, List.flatMap_cons]

lemma operandsOf_append (its jts : List Item) :
    operandsOf (its ++ jts) = operandsOf its ++ operandsOf jts := by
  simp [operandsOf_eq_flatMap]

lemma notesOf_append (its jts : List Item) :
    notesOf (its ++ jts) = notesOf its ++ notesOf jts := by
  simp [notesOf_eq_flatMap]

/-- `its` has no more items than `jts`, and its operands and notes are among theirs. -/
structure Slimmer (its jts : List Item) : Prop where
  length : its.length ≤ jts.length
  operands : (operandsOf its).Sublist (operandsOf jts)
  notes : (notesOf its).Sublist (notesOf jts)

lemma Slimmer.of_sublist {its jts : List Item} (h : its.Sublist jts) : Slimmer its jts where
  length := h.length_le
  operands := by
    rw [operandsOf_eq_flatMap, operandsOf_eq_flatMap]
    exact h.flatMap _
  notes := by
    rw [notesOf_eq_flatMap, notesOf_eq_flatMap]
    exact h.flatMap _

lemma Slimmer.trans {its jts kts : List Item} (h : Slimmer its jts) (h' : Slimmer jts kts) :
    Slimmer its kts :=
  ⟨h.length.trans h'.length, h.operands.trans h'.operands, h.notes.trans h'.notes⟩

lemma Slimmer.append {its its' jts jts' : List Item} (h : Slimmer its jts)
    (h' : Slimmer its' jts') : Slimmer (its ++ its') (jts ++ jts') where
  length := by
    have h1 := h.length
    have h2 := h'.length
    rw [List.length_append, List.length_append]
    omega
  operands := by
    rw [operandsOf_append, operandsOf_append]
    exact h.operands.append h'.operands
  notes := by
    rw [notesOf_append, notesOf_append]
    exact h.notes.append h'.notes

/-- A slimmer stream of items in range is in range. -/
lemma StreamFits.slimmer {its jts : List Item} (h : StreamFits jts) (hs : Slimmer its jts)
    (heach : ∀ it ∈ its, it.Fits) : StreamFits its where
  each := heach
  length := lt_of_le_of_lt hs.length h.length
  operands := lt_of_le_of_lt hs.operands.length_le h.operands
  notes := lt_of_le_of_lt hs.notes.length_le h.notes
  note n hn := h.note n (hs.notes.subset hn)

/-! ### Derived rules -/

/-- A string has no more characters than bytes. -/
lemma length_toList_le (s : String) : s.toList.length ≤ (utf8 s).length := by
  have key : ∀ cs : List Char, cs.length ≤ cs.utf8Encode.size := by
    intro cs
    induction cs with
    | nil => exact Nat.zero_le _
    | cons c cs ih =>
        have hpos := Char.utf8Size_pos c
        rw [List.utf8Encode_cons, ByteArray.size_append, List.utf8Encode_singleton,
          List.size_toByteArray, String.length_utf8EncodeChar, List.length_cons]
        omega
  have h := key s.toList
  rw [String.utf8Encode_toList] at h
  exact h

lemma length_tokenizeRuns_le (cs : List Char) : (tokenizeRuns cs).length ≤ cs.length := by
  induction cs with
  | nil => exact Nat.zero_le _
  | cons c cs ih =>
      rw [tokenizeRuns]
      split
      · rename_i seg d rest heq
        rw [heq] at ih
        split_ifs <;> simp_all
        omega
      · simp

lemma deriveRuns_spec {ta tb : List (List Char × Bool)} {i : ℕ} {runs : List (U32 × ℤ)}
    (h : deriveRuns i ta tb = some runs) :
    runs.length ≤ ta.length ∧ ∀ run ∈ runs, -2 ^ 63 ≤ run.2 ∧ run.2 < 2 ^ 63 := by
  induction ta generalizing tb i runs with
  | nil =>
      obtain rfl : [] = runs := by simpa [deriveRuns] using h
      simp
  | cons a ta ih =>
      cases tb with
      | nil =>
          obtain rfl : [] = runs := by simpa [deriveRuns] using h
          simp
      | cons b tb =>
          obtain ⟨sa, da⟩ := a
          obtain ⟨sb, db⟩ := b
          have hrec : ∀ runs, deriveRuns (i + 1) ta tb = some runs →
              runs.length ≤ (⟨sa, da⟩ :: ta).length ∧
                ∀ run ∈ runs, -2 ^ 63 ≤ run.2 ∧ run.2 < 2 ^ 63 := fun runs hruns =>
            ⟨(ih hruns).1.trans (Nat.le_succ _), (ih hruns).2⟩
          rw [deriveRuns] at h
          split_ifs at h with hd hda hs
          · -- two numbers
            split at h
            · rename_i va vb _ _
              split_ifs at h with hv hr
              · exact hrec runs h
              · obtain ⟨runs', hruns', rfl⟩ := Option.map_eq_some_iff.mp h
                obtain ⟨hlen, hall⟩ := ih hruns'
                refine ⟨Nat.succ_le_succ hlen, fun run hrun => ?_⟩
                rcases List.mem_cons.mp hrun with rfl | hrun
                · exact hr
                · exact hall run hrun
            · exact absurd h (by simp)
          · exact hrec runs h

/-- A rule derived from a note that fits, fits. -/
lemma fits_deriveNoteRule {a b : Option String} {rule : NoteRule} (ha : NoteFits a)
    (h : deriveNoteRule a b = some rule) : rule.Fits := by
  unfold deriveNoteRule at h
  split_ifs at h with hab
  · obtain rfl := Option.some.inj h
    trivial
  · cases a with
    | none => simp at h
    | some a =>
        cases b with
        | none => simp at h
        | some b =>
            dsimp only at h
            split_ifs at h
            split at h
            · rename_i runs hruns
              split_ifs at h with happ
              obtain rfl := Option.some.inj h
              obtain ⟨hlen, hall⟩ := deriveRuns_spec hruns
              have h1 := length_tokenizeRuns_le a.toList
              have h2 := length_toList_le a
              have h3 := ha a rfl
              exact ⟨by omega, hall⟩
            · exact absurd h (by simp)

lemma fits_rules {as bs : List (Option String)} {rules : List NoteRule}
    (hfit : ∀ a ∈ as, NoteFits a)
    (h : (List.zipWith deriveNoteRule as bs).mapM id = some rules) : ∀ rule ∈ rules, rule.Fits := by
  induction as generalizing bs rules with
  | nil =>
      obtain rfl : [] = rules := by simpa using h
      simp
  | cons a as ih =>
      cases bs with
      | nil =>
          obtain rfl : [] = rules := by simpa using h
          simp
      | cons b bs =>
          rw [List.zipWith_cons_cons, List.mapM_cons] at h
          cases hr : deriveNoteRule a b with
          | none => simp [hr] at h
          | some rule =>
              cases hrs : (List.zipWith deriveNoteRule as bs).mapM id with
              | none => simp [hr, hrs] at h
              | some rules' =>
                  obtain rfl : rule :: rules' = rules := by simpa [hr, hrs] using h
                  intro r hmem
                  rcases List.mem_cons.mp hmem with rfl | hmem
                  · exact fits_deriveNoteRule (hfit a List.mem_cons_self) hr
                  · exact ih (fun a ha => hfit a (List.mem_cons_of_mem _ ha)) hrs r hmem

/-! ### A fold -/

lemma block_sublist {α : Type} (l : List α) (base p : ℕ) : (block l base p).Sublist l :=
  (List.take_sublist _ _).trans (List.drop_sublist _ _)

/-- The steps between two blocks are differences of 32-bit values. -/
lemma stepsFit_stepsOf {first second : List Item} (h : (operandsOf first).length < 2 ^ 64) :
    StepsFit (stepsOf first second) := by
  refine ⟨?_, fun s hs => ?_⟩
  · rw [stepsOf, List.length_zipWith]
    omega
  · rw [stepsOf, ← List.map_uncurry_zip_eq_zipWith] at hs
    obtain ⟨⟨x, y⟩, -, rfl⟩ := List.mem_map.mp hs
    have hx := x.isLt
    have hy := y.isLt
    dsimp only [Function.uncurry]
    omega

/-- What a fold of a stream in range builds is in range, and slimmer than its first block. -/
lemma fits_fold {items : List Item} {start p : ℕ} {r : Repeat} (hb : Built items start p r)
    (h : StreamFits items) :
    r.toItem.Fits ∧ Slimmer [r.toItem] (block items start p) := by
  have hslim := Slimmer.of_sublist (block_sublist items start p)
  have hfit := h.slimmer hslim fun it hit => h.each it ((block_sublist items start p).subset hit)
  constructor
  · rw [Repeat.toItem, Item.Fits, hb.body, hb.steps]
    refine ⟨hfit.length, fitOf_iff.mpr hfit.each, stepsFit_stepsOf hfit.operands, ?_⟩
    obtain ⟨hlen, -⟩ := rules_spec hb.notesLength hb.notes
    exact ⟨hlen ▸ hfit.notes, fits_rules hfit.note hb.notes⟩
  · have hlen : (block items start p).length = p := by
      have := hb.fits
      rw [block, List.length_take, List.length_drop]
      omega
    have hpos := hb.pos
    refine ⟨by rw [List.length_singleton]; omega, ?_, ?_⟩
    · rw [operandsOf, operandsOf, List.append_nil, Repeat.toItem, Item.operands, hb.body]
    · rw [notesOf, notesOf, List.append_nil, Repeat.toItem, Item.notes, hb.body]

/-! ### Items are read back -/

lemma reads_noteRule {rule : NoteRule} (h : rule.Fits) :
    Reads noteRule (putNoteRule rule) rule := by
  cases rule with
  | noChange => exact Reads.cons (Reads.pure _)
  | template runs =>
      have hruns : Reads (many noteRun runs.length)
          (runs.flatMap fun run => putVu32 run.1 ++ putIvarint run.2) runs :=
        Reads.many fun run hrun => (reads_vu32 run.1).bind
          ((reads_ivarint (h.2 run hrun).1 (h.2 run hrun).2).ret _)
      exact Reads.cons ((reads_varint eof h.1).bind (hruns.ret _))

lemma reads_noteRules {notes : List NoteRule} (h : RulesFit notes) :
    Reads noteRules (putNoteRules notes) notes := by
  refine (reads_varint eof h.1).bind ?_
  split_ifs with hall
  · have hrep : List.replicate notes.length NoteRule.noChange = notes := by
      refine (List.eq_replicate_of_mem fun n hn => ?_).symm
      exact of_decide_eq_true (List.all_eq_true.mp hall n hn)
    have hr : Reads (Pure.pure (List.replicate notes.length NoteRule.noChange) : Cursor _) []
        notes := by
      rw [hrep]
      exact Reads.pure notes
    exact Reads.cons hr
  · exact Reads.cons (Reads.many fun n hn => reads_noteRule (h.2 n hn))

section Pool

variable {pool : PoolMap} {vec : List FieldConst} (hpool : Agree pool vec)

lemma putItemsCompact_eq (its : List Item) :
    putItemsCompact pool its = its.flatMap (putItemCompact pool) := by
  induction its with
  | nil => rfl
  | cons it its ih => rw [putItemsCompact, ih, List.flatMap_cons]

lemma depth_le_depthOf {its : List Item} {it : Item} (h : it ∈ its) : it.depth ≤ depthOf its := by
  induction its with
  | nil => exact absurd h List.not_mem_nil
  | cons jt its ih =>
      rw [depthOf]
      rcases List.mem_cons.mp h with rfl | h
      · exact Nat.le_max_left _ _
      · exact (ih h).trans (Nat.le_max_right _ _)

include hpool in
/-- **An item in range is read back.** -/
theorem reads_itemCompact {depth : ℕ} {it : Item} (h : it.Fits) (hd : it.depth < depth) :
    Reads (itemCompact vec depth) (putItemCompact pool it) it := by
  induction depth generalizing it with
  | zero => exact absurd hd (Nat.not_lt_zero _)
  | succ depth ih =>
      cases it with
      | op o => exact Reads.cons ((reads_opcode hpool h).ret _)
      | rep count body steps notes =>
          obtain ⟨hlen, hbody, hsteps, hnotes⟩ := h
          have hdepth : depthOf body < depth := by
            rw [Item.depth] at hd
            omega
          have hread : Reads (many (itemCompact vec depth) body.length)
              (putItemsCompact pool body) body := by
            rw [putItemsCompact_eq]
            exact Reads.many fun it hit => ih (fitOf_iff.mp hbody it hit)
              (lt_of_le_of_lt (depth_le_depthOf hit) hdepth)
          have hstep : Reads (many ivarint steps.length) (steps.flatMap putIvarint) steps :=
            Reads.many fun s hs => reads_ivarint (hsteps.2 s hs).1 (hsteps.2 s hs).2
          exact Reads.cons ((reads_vu32 count).bind ((reads_varint eof hlen).bind (hread.bind
            ((reads_varint eof hsteps.1).bind (hstep.bind ((reads_noteRules hnotes).ret _))))))

mutual

/-- An item nests less deep than it has bytes. -/
lemma depth_lt_length : ∀ it : Item, it.depth < (putItemCompact pool it).length
  | .op o => by simp [Item.depth, putItemCompact]
  | .rep count body steps notes => by
      have h := depthOf_le_length body
      have hpos := length_putVarint_pos count.val
      rw [Item.depth, putItemCompact]
      simp only [List.length_cons, List.length_append]
      omega

/-- A block nests at most as deep as it has bytes. -/
lemma depthOf_le_length : ∀ its : List Item, depthOf its ≤ (putItemsCompact pool its).length
  | [] => Nat.zero_le _
  | it :: its => by
      have h1 := depth_lt_length it
      have h2 := depthOf_le_length its
      rw [depthOf, putItemsCompact, List.length_append]
      omega

end

end Pool

end Bytecode

end XarkCircuit
