import XarkCircuit.Bytecode.Roll
import XarkCircuit.Bytecode.WireSound

/-!
What a fold preserves (`bytecode.rs`).

* `Item.shape` is an item without its operands and notes. `fillOf_reads` says that a block is
  recovered from the shape it shares with another, its operands and its notes.
* `FoldFaithful` is what a fold takes for granted: blocks with the structural bytes of the first
  have its shape, the templates leave the first block's notes as they are, and the count is not
  cut to zero. `shiftBody_fold` says that then each iteration is the block it replaces.
-/

namespace XarkCircuit

namespace Bytecode

open Codec Outcome

/-! ### Shapes -/

/-- An instruction without its operands and its note. -/
def Opcode.shape : Opcode → Opcode
  | .constraint r => .constraint ⟨structLc r.a, structLc r.b, structLc r.c, none⟩
  | .witness w => structOpcode (.witness w)

mutual

/-- An item without its operands and notes. -/
def Item.shape : Item → Item
  | .op o => .op o.shape
  | .rep count body steps notes => .rep count (shapeOf body) steps notes

/-- A block without its operands and notes. -/
def shapeOf : List Item → List Item
  | [] => []
  | it :: its => it.shape :: shapeOf its

end

/-! ### Filling a shape -/

lemma reads_fillVar (v v' : U32) : Reads (fillVar v) [v'] v' := reads_next _ v'

lemma reads_fillVars {vs vs' : List U32} (h : vs.length = vs'.length) :
    Reads (fillVars vs) vs' vs' := by
  have hr : Reads (many (next Fault.panic) vs'.length) (vs'.flatMap fun v => [v]) vs' :=
    Reads.many fun v _ => reads_next _ v
  rw [List.flatMap_singleton'] at hr
  rw [fillVars, h]
  exact hr

lemma reads_fillTerms {ts ts' : List Term}
    (h : ts.map (fun t => (⟨t.coeff, 0⟩ : Term)) = ts'.map fun t => ⟨t.coeff, 0⟩) :
    Reads (fillTerms ts) (ts'.map Term.var) ts' := by
  induction ts generalizing ts' with
  | nil =>
      obtain rfl := List.map_eq_nil_iff.mp h.symm
      exact Reads.pure []
  | cons t ts ih =>
      cases ts' with
      | nil => simp at h
      | cons t' ts' =>
          rw [List.map_cons, List.map_cons, List.cons.injEq, Term.mk.injEq] at h
          obtain ⟨⟨hc, -⟩, h⟩ := h
          have hr : Reads (fillTerms (t :: ts)) (t'.var :: ts'.map Term.var)
              (⟨t.coeff, t'.var⟩ :: ts') := (reads_fillVar _ _).bind ((ih h).ret _)
          rwa [hc] at hr

lemma reads_fillLc {l l' : LinearCombination} (h : structLc l = structLc l') :
    Reads (fillLc l) l'.vars l' := by
  rw [structLc, structLc, LinearCombination.mk.injEq] at h
  have hr : Reads (fillLc l) l'.vars ⟨l.constant, l'.terms⟩ := (reads_fillTerms h.2).ret _
  rwa [h.1] at hr

lemma reads_fillLcs {ls ls' : List LinearCombination} (h : ls.map structLc = ls'.map structLc) :
    Reads (fillLcs ls) (lcsVars ls') ls' := by
  induction ls generalizing ls' with
  | nil =>
      obtain rfl := List.map_eq_nil_iff.mp h.symm
      exact Reads.pure []
  | cons l ls ih =>
      cases ls' with
      | nil => simp at h
      | cons l' ls' =>
          rw [List.map_cons, List.map_cons, List.cons.injEq] at h
          exact (reads_fillLc h.1).bind ((ih h.2).ret _)

/-- Lists that become equal when all their entries are forgotten are of one length. -/
lemma length_of_map_const {α β : Type} {as as' : List α} {b : β}
    (h : as.map (fun _ => b) = as'.map fun _ => b) : as.length = as'.length := by
  simpa using congrArg List.length h

lemma reads_fillWitness {w w' : WitnessOp}
    (h : (Opcode.witness w).shape = (Opcode.witness w').shape) :
    Reads (fillWitness w) (Opcode.witness w').operands w' := by
  cases w <;> cases w' <;>
    simp only [Opcode.shape, structOpcode, WitnessGen.map, Opcode.witness.injEq, reduceCtorEq] at h
  case product.product =>
    rw [WitnessGen.product.injEq] at h
    exact (reads_fillVar _ _).bind ((reads_fillLc h.2.1).bind ((reads_fillLc h.2.2).ret _))
  case linear.linear =>
    rw [WitnessGen.linear.injEq] at h
    exact (reads_fillVar _ _).bind ((reads_fillLc h.2).ret _)
  case xor.xor =>
    rw [WitnessGen.xor.injEq] at h
    exact (reads_fillVar _ _).bind ((reads_fillLc h.2.1).bind ((reads_fillLc h.2.2).ret _))
  case or.or =>
    rw [WitnessGen.or.injEq] at h
    exact (reads_fillVar _ _).bind ((reads_fillLc h.2.1).bind ((reads_fillLc h.2.2).ret _))
  case inverse.inverse =>
    rw [WitnessGen.inverse.injEq] at h
    exact (reads_fillVar _ _).bind ((reads_fillLc h.2).ret _)
  case inverseOrZero.inverseOrZero =>
    rw [WitnessGen.inverseOrZero.injEq] at h
    exact (reads_fillVar _ _).bind ((reads_fillLc h.2).ret _)
  case bit.bit =>
    rw [WitnessGen.bit.injEq] at h
    exact (reads_fillVar _ _).bind ((reads_fillLc h.2.1).bind ((reads_fillVar _ _).ret _))
  case bits.bits =>
    rw [WitnessGen.bits.injEq] at h
    exact (reads_fillVars (length_of_map_const h.1)).bind ((reads_fillLc h.2).ret _)
  case divRem.divRem =>
    rw [WitnessGen.divRem.injEq] at h
    obtain ⟨-, -, hn, hd⟩ := h
    exact (reads_fillVar _ _).bind ((reads_fillVar _ _).bind ((reads_fillLc hn).bind
      ((reads_fillLc hd).ret _)))
  case mulModDivMod.mulModDivMod =>
    rw [WitnessGen.mulModDivMod.injEq] at h
    obtain ⟨hq, hr, ha, hb, hm, rfl⟩ := h
    exact (reads_fillVars (length_of_map_const hq)).bind
      ((reads_fillVars (length_of_map_const hr)).bind ((reads_fillLcs ha).bind
        ((reads_fillLcs hb).bind ((reads_fillLcs hm).ret _))))
  case modInverse.modInverse =>
    rw [WitnessGen.modInverse.injEq] at h
    obtain ⟨ho, ha, hm, rfl⟩ := h
    exact (reads_fillVars (length_of_map_const ho)).bind ((reads_fillLcs ha).bind
      ((reads_fillLcs hm).ret _))
  case fakeGlv.fakeGlv =>
    rw [WitnessGen.fakeGlv.injEq] at h
    obtain ⟨ho, hu, hm, hl, rfl⟩ := h
    exact (reads_fillVars (length_of_map_const ho)).bind ((reads_fillLcs hu).bind
      ((reads_fillLcs hm).bind ((reads_fillLcs hl).ret _)))
  case sub2.sub2 =>
    rw [WitnessGen.sub2.injEq] at h
    obtain ⟨-, hr, ha, hb, hc, hm, rfl⟩ := h
    exact (reads_fillVar _ _).bind ((reads_fillVars (length_of_map_const hr)).bind
      ((reads_fillLcs ha).bind ((reads_fillLcs hb).bind ((reads_fillLcs hc).bind
        ((reads_fillLcs hm).ret _)))))

/-- An instruction is recovered from its shape, its operands and its note. -/
lemma Opcode.fill_reads {o o' : Opcode} (h : o.shape = o'.shape) :
    ∃ mid, Reads (Item.op o).fill o'.operands mid ∧
      Reads mid.fillNotes (Item.op o').notes (.op o') := by
  cases o with
  | constraint r =>
      cases o' with
      | witness w' => cases w' <;> simp [Opcode.shape, structOpcode] at h
      | constraint r' =>
          simp only [Opcode.shape, Opcode.constraint.injEq, R1csRow.mk.injEq, and_true] at h
          obtain ⟨ha, hb, hc⟩ := h
          have hfill : Reads (Opcode.constraint r).fill (Opcode.constraint r').operands
              (.constraint ⟨r'.a, r'.b, r'.c, r.note⟩) :=
            (reads_fillLc ha).bind ((reads_fillLc hb).bind ((reads_fillLc hc).ret _))
          exact ⟨_, hfill.ret Item.op, (reads_next Fault.panic r'.note).ret _⟩
  | witness w =>
      cases o' with
      | constraint r' => cases w <;> simp [Opcode.shape, structOpcode] at h
      | witness w' =>
          have hfill : Reads (Opcode.witness w).fill (Opcode.witness w').operands (.witness w') :=
            (reads_fillWitness h).ret _
          exact ⟨_, hfill.ret Item.op, Reads.pure _⟩

mutual

/-- An item is recovered from its shape, its operands and its notes. -/
lemma Item.fill_reads : ∀ {it it' : Item}, it.shape = it'.shape →
    ∃ mid, Reads it.fill it'.operands mid ∧ Reads mid.fillNotes it'.notes it'
  | .op _, .op _, h => Opcode.fill_reads (Item.op.inj h)
  | .rep _ body _ _, .rep _ body' _ _, h => by
      rw [Item.shape, Item.shape, Item.rep.injEq] at h
      obtain ⟨rfl, hb, rfl, rfl⟩ := h
      obtain ⟨mid, hmid, hnotes⟩ := fillOf_reads hb
      exact ⟨_, hmid.ret _, hnotes.ret _⟩

/-- A block is recovered from its shape, its operands and its notes. -/
lemma fillOf_reads : ∀ {its its' : List Item}, shapeOf its = shapeOf its' →
    ∃ mid, Reads (fillOf its) (operandsOf its') mid ∧ Reads (fillNotesOf mid) (notesOf its') its'
  | [], [], _ => ⟨[], Reads.pure [], Reads.pure []⟩
  | it :: its, it' :: its', h => by
      rw [shapeOf, shapeOf, List.cons.injEq] at h
      obtain ⟨mid, hmid, hnotes⟩ := Item.fill_reads h.1
      obtain ⟨mids, hmids, hnotess⟩ := fillOf_reads h.2
      exact ⟨mid :: mids, hmid.bind (hmids.ret _), hnotes.bind (hnotess.ret _)⟩

end

/-! ### What blocks of one shape share -/

@[simp] lemma length_vars_structLc (l : LinearCombination) :
    (structLc l).vars.length = l.vars.length := by
  simp [structLc, LinearCombination.vars]

@[simp] lemma length_lcsVars_structLc (ls : List LinearCombination) :
    (lcsVars (ls.map structLc)).length = (lcsVars ls).length := by
  induction ls with
  | nil => rfl
  | cons l ls ih => simp_all [lcsVars]

/-- An instruction has as many operands as its shape. -/
lemma Opcode.length_operands_shape (o : Opcode) :
    o.shape.operands.length = o.operands.length := by
  cases o with
  | constraint r => simp [Opcode.shape, Opcode.operands]
  | witness w =>
      cases w <;> simp [Opcode.shape, structOpcode, WitnessGen.map, Opcode.operands]

/-- An instruction has as many notes as its shape. -/
lemma Opcode.length_notes_shape (o : Opcode) :
    (Item.op o.shape).notes.length = (Item.op o).notes.length := by
  cases o with
  | constraint r => rfl
  | witness w => cases w <;> rfl

mutual

/-- How deep repeats nest in an item. -/
def Item.depth : Item → ℕ
  | .op _ => 0
  | .rep _ body _ _ => 1 + depthOf body

/-- How deep repeats nest in a block. -/
def depthOf : List Item → ℕ
  | [] => 0
  | it :: its => max it.depth (depthOf its)

end

mutual

lemma Item.shape_spec : ∀ it : Item, it.shape.operands.length = it.operands.length ∧
    it.shape.notes.length = it.notes.length ∧ it.shape.depth = it.depth
  | .op o => ⟨o.length_operands_shape, o.length_notes_shape, rfl⟩
  | .rep _ body _ _ => by
      obtain ⟨ho, hn, hd⟩ := shapeOf_spec body
      exact ⟨ho, hn, congrArg (1 + ·) hd⟩

/-- A block has as many operands and notes as its shape, and nests as deep. -/
lemma shapeOf_spec : ∀ its : List Item, (operandsOf (shapeOf its)).length = (operandsOf its).length ∧
    (notesOf (shapeOf its)).length = (notesOf its).length ∧ depthOf (shapeOf its) = depthOf its
  | [] => ⟨rfl, rfl, rfl⟩
  | it :: its => by
      obtain ⟨ho, hn, hd⟩ := Item.shape_spec it
      obtain ⟨hos, hns, hds⟩ := shapeOf_spec its
      simp [shapeOf, operandsOf, notesOf, depthOf, ho, hn, hd, hos, hns, hds]

end

section SameShape

variable {its its' : List Item} (h : shapeOf its = shapeOf its')
include h

lemma length_operandsOf_congr : (operandsOf its).length = (operandsOf its').length := by
  rw [← (shapeOf_spec its).1, h, (shapeOf_spec its').1]

lemma length_notesOf_congr : (notesOf its).length = (notesOf its').length := by
  rw [← (shapeOf_spec its).2.1, h, (shapeOf_spec its').2.1]

lemma depthOf_congr : depthOf its = depthOf its' := by
  rw [← (shapeOf_spec its).2.2, h, (shapeOf_spec its').2.2]

/-- Shifting a body whose operands and notes become those of a block of its shape gives that
block. -/
lemma shiftBody_eq {k : ℕ} {steps : List ℤ} {notes : List NoteRule}
    (ho : List.zipWith (shiftOperand k) (operandsOf its) steps = operandsOf its')
    (hn : List.zipWith (applyNoteRule k) (notesOf its) notes = notesOf its') :
    shiftBody k its steps notes = .ok its' := by
  obtain ⟨mid, hmid, hnotes⟩ := fillOf_reads h
  have h1 : fillOf its (operandsOf its') = .ok (mid, []) := hmid.run
  have h2 : fillNotesOf mid (notesOf its') = .ok (its', []) := hnotes.run
  rw [shiftBody, ho, h1]
  change (fillNotesOf mid _ >>= _) = _
  rw [hn, h2]
  rfl

end SameShape

/-! ### Steps and rules -/

/-- Two lists combined entry by entry into a third that a check has compared with them. -/
lemma zipWith_eq_of_all {α β γ : Type} {f : α → β → γ} {ok : α → β → γ → Bool}
    (hok : ∀ a b c, ok a b c → f a b = c) {as : List α} {bs : List β} {cs : List γ}
    (hab : as.length = bs.length) (hac : as.length = cs.length)
    (h : (as.zip (bs.zip cs)).all fun (a, b, c) => ok a b c) : List.zipWith f as bs = cs := by
  induction as generalizing bs cs with
  | nil =>
      obtain rfl := List.length_eq_zero_iff.mp hac.symm
      rfl
  | cons a as ih =>
      cases bs with
      | nil => simp at hab
      | cons b bs =>
          cases cs with
          | nil => simp at hac
          | cons c cs =>
              rw [List.zip_cons_cons, List.zip_cons_cons, List.all_cons, Bool.and_eq_true] at h
              rw [List.zipWith_cons_cons, hok a b c h.1, ih (by simpa using hab)
                (by simpa using hac) h.2]

/-- An operand reached by steps. -/
lemma shiftOperand_eq {k : ℤ} {x y : U32} {step : ℤ} (h : (x.val : ℤ) + k * step = y.val) :
    shiftOperand k x step = y := by
  unfold shiftOperand
  split_ifs with hs
  · rw [h, asU32_val]
  · rw [not_not.mp hs, mul_zero, add_zero] at h
    exact Fin.ext (by exact_mod_cast h)

/-- The steps of a fold lead from the first block to itself. -/
lemma zipWith_shift_zero {xs : List U32} {steps : List ℤ} (h : xs.length = steps.length) :
    List.zipWith (shiftOperand 0) xs steps = xs := by
  induction xs generalizing steps with
  | nil => rfl
  | cons x xs ih =>
      cases steps with
      | nil => simp at h
      | cons s steps =>
          have hx : shiftOperand 0 x s = x := shiftOperand_eq (by ring)
          rw [List.zipWith_cons_cons, hx, ih (by simpa using h)]

/-- The steps of a fold lead from the first block to the second. -/
lemma zipWith_shift_one {xs ys : List U32} (h : xs.length = ys.length) :
    List.zipWith (shiftOperand 1) xs
      (List.zipWith (fun x y => (y.val : ℤ) - x.val) xs ys) = ys := by
  induction xs generalizing ys with
  | nil =>
      obtain rfl := List.length_eq_zero_iff.mp h.symm
      rfl
  | cons x xs ih =>
      cases ys with
      | nil => simp at h
      | cons y ys =>
          have hy : shiftOperand 1 x ((y.val : ℤ) - x.val) = y := shiftOperand_eq (by ring)
          rw [List.zipWith_cons_cons, List.zipWith_cons_cons, hy, ih (by simpa using h)]

/-- A derived rule takes the first note to the second. -/
lemma deriveNoteRule_spec {a b : Option String} {rule : NoteRule}
    (h : deriveNoteRule a b = some rule) : applyNoteRule 1 a rule = b := by
  unfold deriveNoteRule at h
  split_ifs at h with hab
  · obtain rfl := Option.some.inj h
    exact hab
  · cases a with
    | none => simp at h
    | some a =>
        cases b with
        | none => simp at h
        | some b =>
            dsimp only at h
            split_ifs at h
            split at h
            · split_ifs at h with happ
              obtain rfl := Option.some.inj h
              exact congrArg some happ
            · exact absurd h (by simp)

/-- A note that passed the check is the first block's under the rule. -/
lemma applyNoteRule_of_noteOk {k : ℤ} {base : Option String} {rule : NoteRule}
    {actual : Option String} (h : noteOk k base rule actual) : applyNoteRule k base rule = actual := by
  cases rule with
  | noChange => exact (of_decide_eq_true h).symm
  | template runs =>
      cases base with
      | none => exact absurd h (by simp [noteOk])
      | some s => exact of_decide_eq_true h

/-- The derived rules take the first block's notes to the second's. -/
lemma rules_spec {as bs : List (Option String)} {rules : List NoteRule}
    (hlen : as.length = bs.length)
    (h : (List.zipWith deriveNoteRule as bs).mapM id = some rules) :
    as.length = rules.length ∧ List.zipWith (applyNoteRule 1) as rules = bs := by
  induction as generalizing bs rules with
  | nil =>
      obtain rfl := List.length_eq_zero_iff.mp hlen.symm
      obtain rfl : [] = rules := by simpa using h
      exact ⟨rfl, rfl⟩
  | cons a as ih =>
      cases bs with
      | nil => simp at hlen
      | cons b bs =>
          rw [List.zipWith_cons_cons, List.mapM_cons] at h
          cases hr : deriveNoteRule a b with
          | none => simp [hr] at h
          | some rule =>
              cases hrs : (List.zipWith deriveNoteRule as bs).mapM id with
              | none => simp [hr, hrs] at h
              | some rules' =>
                  obtain rfl : rule :: rules' = rules := by simpa [hr, hrs] using h
                  obtain ⟨hl, hz⟩ := ih (by simpa using hlen) hrs
                  refine ⟨by simpa using hl, ?_⟩
                  rw [List.zipWith_cons_cons, deriveNoteRule_spec hr, hz]

/-! ### A fold -/

/-- What `tryBuildRepeat` has checked of the repeat it returns. -/
structure Built (items : List Item) (start p : ℕ) (r : Repeat) : Prop where
  pos : 0 < p
  fits : start + 2 * p ≤ items.length
  body : r.body = block items start p
  operands : (operandsOf (block items start p)).length
    = (operandsOf (block items (start + p) p)).length
  steps : r.steps = stepsOf (block items start p) (block items (start + p) p)
  notesLength : (notesOf (block items start p)).length
    = (notesOf (block items (start + p) p)).length
  notes : (List.zipWith deriveNoteRule (notesOf (block items start p))
    (notesOf (block items (start + p) p))).mapM id = some r.notes
  count : r.count = Fin.ofNat _ (countFrom items start p r.steps r.notes items.length 2)

lemma built_of_tryBuildRepeat {items : List Item} {hashes : List ℕ} {start p : ℕ} {r : Repeat}
    (h : tryBuildRepeat items hashes start p = some r) : Built items start p r := by
  unfold tryBuildRepeat at h
  split_ifs at h with hp hh
  dsimp only at h
  split_ifs at h with ho hn
  split at h
  · exact absurd h (by simp)
  · rename_i rules hrules
    obtain rfl := Option.some.inj h
    exact ⟨by omega, by omega, rfl, by omega, rfl, by omega, hrules, rfl⟩

/-- Every block counted beyond those known is in range and has passed the check. -/
lemma countFrom_spec {items : List Item} {start p : ℕ} {steps : List ℤ} {rules : List NoteRule}
    (fuel : ℕ) {count k : ℕ} (hk : count ≤ k)
    (hlt : k < countFrom items start p steps rules fuel count) :
    start + (k + 1) * p ≤ items.length ∧ blockOk items start p steps rules k := by
  induction fuel generalizing count with
  | zero => exact absurd hlt (not_lt.mpr hk)
  | succ fuel ih =>
      rw [countFrom] at hlt
      split_ifs at hlt with hc
      · rcases hk.lt_or_eq with hk' | rfl
        · exact ih hk' hlt
        · exact hc
      · exact absurd hlt (not_lt.mpr hk)

/-- What a fold takes for granted: each block it counts has the shape of the first (the structural
bytes alone do not say so), iteration `0` leaves the notes as they are, and the count is not cut to
zero. -/
structure FoldFaithful (items : List Item) (start p : ℕ) (r : Repeat) : Prop where
  shape : ∀ k < r.count.val, shapeOf (block items (start + k * p) p) = shapeOf r.body
  notes : List.zipWith (applyNoteRule 0) (notesOf r.body) r.notes = notesOf r.body
  count : r.count ≠ 0

/-- **Each iteration of a faithful fold is the block it replaces.** -/
theorem shiftBody_fold {items : List Item} {start p : ℕ} {r : Repeat} (hb : Built items start p r)
    (hf : FoldFaithful items start p r) {k : ℕ} (hk : k < r.count.val) :
    start + (k + 1) * p ≤ items.length ∧
      shiftBody k r.body r.steps r.notes = .ok (block items (start + k * p) p) := by
  have hshape := (hf.shape k hk).symm
  have hcount : k < countFrom items start p r.steps r.notes items.length 2 := by
    have hle : r.count.val ≤ countFrom items start p r.steps r.notes items.length 2 := by
      rw [hb.count]
      exact Nat.mod_le _ _
    omega
  have hsteps : (operandsOf r.body).length = r.steps.length := by
    rw [hb.body, hb.steps, stepsOf, List.length_zipWith, ← hb.operands, min_self]
  obtain ⟨hlen, hone⟩ := rules_spec hb.notesLength hb.notes
  rw [← hb.body] at hlen hone
  rcases Nat.lt_or_ge k 2 with hk2 | hk2
  · obtain rfl | rfl : k = 0 ∨ k = 1 := by omega
    -- the first block itself
    · have hfirst : block items (start + 0 * p) p = r.body := by
        rw [Nat.zero_mul, Nat.add_zero, hb.body]
      rw [hfirst] at hshape ⊢
      refine ⟨by have := hb.fits; omega, shiftBody_eq hshape ?_ ?_⟩
      · exact zipWith_shift_zero hsteps
      · exact hf.notes
    -- the block the steps and rules come from
    · have hsecond : block items (start + 1 * p) p = block items (start + p) p := by
        rw [Nat.one_mul]
      rw [hsecond] at hshape ⊢
      refine ⟨by have := hb.fits; omega, shiftBody_eq hshape ?_ ?_⟩
      · rw [hb.steps, hb.body]
        exact zipWith_shift_one hb.operands
      · exact hone
  -- a block that has been checked
  · obtain ⟨hrange, hok⟩ := countFrom_spec _ hk2 hcount
    refine ⟨hrange, shiftBody_eq hshape ?_ ?_⟩
    all_goals
      rw [blockOk, ← hb.body] at hok
      simp only [Bool.and_eq_true] at hok
      obtain ⟨⟨-, hops⟩, hnotes⟩ := hok
    · exact zipWith_eq_of_all (fun x s y hxy => shiftOperand_eq (of_decide_eq_true hxy)) hsteps
        (length_operandsOf_congr hshape) hops
    · exact zipWith_eq_of_all (fun base rule actual h => applyNoteRule_of_noteOk h) hlen
        (length_notesOf_congr hshape) hnotes

end Bytecode

end XarkCircuit
