import XarkCircuit.Bytecode.Wire
import XarkCircuit.Lib.Outcome

/-!
Rolled runs (`bytecode.rs`).

* `Item` is an instruction or a repeat: a body, a step for each of its operands and a rule for each
  of its notes. `operands` and `fill` are the two halves of the source's operand traversal, `notes`
  and `fillNotes` those of the note traversal.
* `rollStream` folds periodic runs of a stream into repeats, pass after pass. A fold whose count is
  cut to zero by its 32 bits never advances; `Halt.outOfFuel` is that loop.
* `rollAndEncodeOpsCompact` rolls a run and writes it, `decodeAndExpandOpsCompact` reads one back.
-/

namespace XarkCircuit

namespace Bytecode

open Codec Outcome

/-! ### Items -/

/-- How a note changes from one iteration to the next. -/
inductive NoteRule
  | noChange
  | template (runs : List (U32 × ℤ))
deriving DecidableEq, Repr

/-- An instruction, or a body repeated with its operands and notes shifted. -/
inductive Item
  | op (o : Opcode)
  | rep (count : U32) (body : List Item) (steps : List ℤ) (notes : List NoteRule)
deriving Repr

mutual

/-- Equality of items is decidable. -/
def Item.decEq : (it it' : Item) → Decidable (it = it')
  | .op o, .op o' => decidable_of_iff (o = o') (by simp)
  | .op _, .rep _ _ _ _ => isFalse nofun
  | .rep _ _ _ _, .op _ => isFalse nofun
  | .rep c b s n, .rep c' b' s' n' =>
      have := Item.decEqList b b'
      decidable_of_iff (c = c' ∧ b = b' ∧ s = s' ∧ n = n') (by simp)

/-- Equality of lists of items is decidable. -/
def Item.decEqList : (its its' : List Item) → Decidable (its = its')
  | [], [] => isTrue rfl
  | [], _ :: _ => isFalse nofun
  | _ :: _, [] => isFalse nofun
  | it :: its, it' :: its' =>
      have := Item.decEq it it'
      have := Item.decEqList its its'
      decidable_of_iff (it = it' ∧ its = its') (by simp)

end

instance : DecidableEq Item := Item.decEq

/-- A run collapsed into one body (`Repeat`). -/
structure Repeat where
  count : U32
  body : List Item
  steps : List ℤ
  notes : List NoteRule

/-- A repeat as an item. -/
def Repeat.toItem (r : Repeat) : Item := .rep r.count r.body r.steps r.notes

/-! ### Operands -/

/-- The variables of some combinations. -/
def lcsVars (ls : List LinearCombination) : List U32 := ls.flatMap LinearCombination.vars

/-- The operands of an instruction in canonical order: its outputs, the variables of its
combinations, and the index of a bit. -/
def Opcode.operands : Opcode → List U32
  | .constraint r => r.a.vars ++ (r.b.vars ++ r.c.vars)
  | .witness (.product out left right) => out :: (left.vars ++ right.vars)
  | .witness (.linear out l) => out :: l.vars
  | .witness (.xor out a b) => out :: (a.vars ++ b.vars)
  | .witness (.or out a b) => out :: (a.vars ++ b.vars)
  | .witness (.inverse out input) => out :: input.vars
  | .witness (.inverseOrZero out input) => out :: input.vars
  | .witness (.bit out input index) => out :: (input.vars ++ [index])
  | .witness (.bits outs input) => outs ++ input.vars
  | .witness (.divRem q r num den) => q :: r :: (num.vars ++ den.vars)
  | .witness (.mulModDivMod q r a b modulus _) =>
      q ++ (r ++ (lcsVars a ++ (lcsVars b ++ lcsVars modulus)))
  | .witness (.modInverse out a modulus _) => out ++ (lcsVars a ++ lcsVars modulus)
  | .witness (.fakeGlv out u modulus lambda _) =>
      out ++ (lcsVars u ++ (lcsVars modulus ++ lcsVars lambda))
  | .witness (.sub2 qabs r a b c modulus _) =>
      qabs :: (r ++ (lcsVars a ++ (lcsVars b ++ (lcsVars c ++ lcsVars modulus))))

/-- New operands for an instruction, taken off a tape in canonical order; running out of them is
an index out of range. -/
abbrev Filler := Reader U32 Fault

/-- One operand. -/
def fillVar (_ : U32) : Filler U32 := next .panic

/-- The operands of a list. -/
def fillVars (vs : List U32) : Filler (List U32) := many (next .panic) vs.length

/-- The operands of some terms. -/
def fillTerms : List Term → Filler (List Term)
  | [] => pure []
  | t :: ts => do
      let v ← fillVar t.var
      let ts ← fillTerms ts
      pure (⟨t.coeff, v⟩ :: ts)

/-- The operands of a combination. -/
def fillLc (l : LinearCombination) : Filler LinearCombination := do
  let ts ← fillTerms l.terms
  pure ⟨l.constant, ts⟩

/-- The operands of some combinations. -/
def fillLcs : List LinearCombination → Filler (List LinearCombination)
  | [] => pure []
  | l :: ls => do
      let l ← fillLc l
      let ls ← fillLcs ls
      pure (l :: ls)

/-- The operands of a witness instruction. -/
def fillWitness : WitnessOp → Filler WitnessOp
  | .product out left right => do
      let out ← fillVar out
      let left ← fillLc left
      let right ← fillLc right
      pure (.product out left right)
  | .linear out l => do
      let out ← fillVar out
      let l ← fillLc l
      pure (.linear out l)
  | .xor out a b => do
      let out ← fillVar out
      let a ← fillLc a
      let b ← fillLc b
      pure (.xor out a b)
  | .or out a b => do
      let out ← fillVar out
      let a ← fillLc a
      let b ← fillLc b
      pure (.or out a b)
  | .inverse out input => do
      let out ← fillVar out
      let input ← fillLc input
      pure (.inverse out input)
  | .inverseOrZero out input => do
      let out ← fillVar out
      let input ← fillLc input
      pure (.inverseOrZero out input)
  | .bit out input index => do
      let out ← fillVar out
      let input ← fillLc input
      let index ← fillVar index
      pure (.bit out input index)
  | .bits outs input => do
      let outs ← fillVars outs
      let input ← fillLc input
      pure (.bits outs input)
  | .divRem q r num den => do
      let q ← fillVar q
      let r ← fillVar r
      let num ← fillLc num
      let den ← fillLc den
      pure (.divRem q r num den)
  | .mulModDivMod q r a b modulus limbBits => do
      let q ← fillVars q
      let r ← fillVars r
      let a ← fillLcs a
      let b ← fillLcs b
      let modulus ← fillLcs modulus
      pure (.mulModDivMod q r a b modulus limbBits)
  | .modInverse out a modulus limbBits => do
      let out ← fillVars out
      let a ← fillLcs a
      let modulus ← fillLcs modulus
      pure (.modInverse out a modulus limbBits)
  | .fakeGlv out u modulus lambda limbBits => do
      let out ← fillVars out
      let u ← fillLcs u
      let modulus ← fillLcs modulus
      let lambda ← fillLcs lambda
      pure (.fakeGlv out u modulus lambda limbBits)
  | .sub2 qabs r a b c modulus limbBits => do
      let qabs ← fillVar qabs
      let r ← fillVars r
      let a ← fillLcs a
      let b ← fillLcs b
      let c ← fillLcs c
      let modulus ← fillLcs modulus
      pure (.sub2 qabs r a b c modulus limbBits)

/-- The operands of an instruction. -/
def Opcode.fill : Opcode → Filler Opcode
  | .constraint r => do
      let a ← fillLc r.a
      let b ← fillLc r.b
      let c ← fillLc r.c
      pure (.constraint ⟨a, b, c, r.note⟩)
  | .witness w => do
      let w ← fillWitness w
      pure (.witness w)

mutual

/-- The operands of an item, those of a nested body included; counts and steps are not operands. -/
def Item.operands : Item → List U32
  | .op o => o.operands
  | .rep _ body _ _ => operandsOf body

/-- The operands of a block. -/
def operandsOf : List Item → List U32
  | [] => []
  | it :: its => it.operands ++ operandsOf its

end

mutual

/-- New operands for an item. -/
def Item.fill : Item → Filler Item
  | .op o => do
      let o ← o.fill
      pure (.op o)
  | .rep count body steps notes => do
      let body ← fillOf body
      pure (.rep count body steps notes)

/-- New operands for a block. -/
def fillOf : List Item → Filler (List Item)
  | [] => pure []
  | it :: its => do
      let it ← it.fill
      let its ← fillOf its
      pure (it :: its)

end

/-- An operand `k` iterations on. -/
def shiftOperand (k : ℤ) (x : U32) (step : ℤ) : U32 :=
  if step ≠ 0 then asU32 (x.val + k * step) else x

/-! ### Notes -/

mutual

/-- The notes of an item; only constraints carry one. -/
def Item.notes : Item → List (Option String)
  | .op (.constraint r) => [r.note]
  | .op (.witness _) => []
  | .rep _ body _ _ => notesOf body

/-- The notes of a block. -/
def notesOf : List Item → List (Option String)
  | [] => []
  | it :: its => it.notes ++ notesOf its

end

mutual

/-- New notes for an item. -/
def Item.fillNotes : Item → Reader (Option String) Fault Item
  | .op (.constraint r) => do
      let note ← next .panic
      pure (.op (.constraint ⟨r.a, r.b, r.c, note⟩))
  | .op (.witness w) => pure (.op (.witness w))
  | .rep count body steps notes => do
      let body ← fillNotesOf body
      pure (.rep count body steps notes)

/-- New notes for a block. -/
def fillNotesOf : List Item → Reader (Option String) Fault (List Item)
  | [] => pure []
  | it :: its => do
      let it ← it.fillNotes
      let its ← fillNotesOf its
      pure (it :: its)

end

/-- Every maximal run of digits replaced by one `#`. -/
def blankDigitsFrom : Bool → List Char → List Char
  | _, [] => []
  | inDigits, c :: cs =>
      if c.isDigit then (if inDigits then blankDigitsFrom true cs else '#' :: blankDigitsFrom true cs)
      else c :: blankDigitsFrom false cs

/-- A note with its numbers blanked. -/
def blankDigits (s : String) : String := String.ofList (blankDigitsFrom false s.toList)

/-- Alternating segments of digits and of other characters. -/
def tokenizeRuns : List Char → List (List Char × Bool)
  | [] => []
  | c :: cs =>
      match tokenizeRuns cs with
      | (seg, d) :: rest =>
          if d = c.isDigit then (c :: seg, d) :: rest else ([c], c.isDigit) :: (seg, d) :: rest
      | [] => [([c], c.isDigit)]

/-- The number some digits write. -/
def ofDigits (ds : List Char) : ℤ := ds.foldl (fun n c => n * 10 + (c.toNat - 48 : ℕ)) 0

/-- `parse::<i128>`, of digits behind at most one sign. -/
def parseI128 (seg : List Char) : Option ℤ :=
  match seg with
  | '-' :: ds => if ofDigits ds ≤ 2 ^ 127 then some (-ofDigits ds) else none
  | ds => if ofDigits ds < 2 ^ 127 then some (ofDigits ds) else none

/-- `i128` arithmetic wraps. -/
def wrapI128 (z : ℤ) : ℤ := (z + 2 ^ 127) % 2 ^ 128 - 2 ^ 127

/-- One digit run of a template, `k` iterations on. -/
def applyRun (k : ℤ) (toks : List (List Char × Bool)) (run : U32 × ℤ) : List (List Char × Bool) :=
  match toks[run.1.val]? with
  | some (seg, true) =>
      toks.set run.1.val ((toString (wrapI128 ((parseI128 seg).getD 0 + k * run.2))).toList, true)
  | _ => toks

/-- A note under a template, `k` iterations on (`apply_note_template`). -/
def applyNoteTemplate (s : String) (k : ℤ) (runs : List (U32 × ℤ)) : String :=
  String.ofList ((runs.foldl (applyRun k) (tokenizeRuns s.toList)).flatMap Prod.fst)

/-- A note under a rule, `k` iterations on. -/
def applyNoteRule (k : ℤ) (note : Option String) (rule : NoteRule) : Option String :=
  match rule, note with
  | .template runs, some s => some (applyNoteTemplate s k runs)
  | _, _ => note

/-- The digit runs that differ between two notes of one shape, the first one at index `i`. -/
def deriveRuns : ℕ → List (List Char × Bool) → List (List Char × Bool) →
    Option (List (U32 × ℤ))
  | i, (sa, da) :: ta, (sb, db) :: tb =>
      if da ≠ db then none
      else if da then
        match parseI128 sa, parseI128 sb with
        | some va, some vb =>
            if va = vb then deriveRuns (i + 1) ta tb
            else if -2 ^ 63 ≤ vb - va ∧ vb - va < 2 ^ 63 then
              (deriveRuns (i + 1) ta tb).map fun runs => (asU32 i, vb - va) :: runs
            else none
        | _, _ => none
      else if sa ≠ sb then none
      else deriveRuns (i + 1) ta tb
  | _, _, _ => some []

/-- The rule that takes the note `a` to the note `b`, if there is one. -/
def deriveNoteRule (a b : Option String) : Option NoteRule :=
  if a = b then some .noChange
  else
    match a, b with
    | some a, some b =>
        if (tokenizeRuns a.toList).length ≠ (tokenizeRuns b.toList).length then none
        else
          match deriveRuns 0 (tokenizeRuns a.toList) (tokenizeRuns b.toList) with
          | some runs => if applyNoteTemplate a 1 runs = b then some (.template runs) else none
          | none => none
    | _, _ => none

/-! ### Structural bytes -/

/-- A combination with every variable `0`. -/
def structLc (l : LinearCombination) : LinearCombination :=
  ⟨l.constant, l.terms.map fun t => ⟨t.coeff, 0⟩⟩

/-- An instruction with every operand `0` and its note blanked. -/
def structOpcode : Opcode → Opcode
  | .constraint r =>
      .constraint ⟨structLc r.a, structLc r.b, structLc r.c, r.note.map blankDigits⟩
  | .witness (.bit _ input _) => .witness (.bit 0 (structLc input) 0)
  | .witness w => .witness (w.map structLc fun _ => 0)

/-- The bytes two instructions share when they differ in operands and numbers of notes only. With
every operand `0` each distance is `0`, so these are the bytes of `putOpcode`. -/
def putOpcodeStruct (o : Opcode) : List UInt8 := putOpcode (fun _ => none) (structOpcode o)

/-- `n` bytes of an unsigned integer, the lowest first. -/
def leBytes : ℕ → ℕ → List UInt8
  | 0, _ => []
  | n + 1, v => UInt8.ofNat (v % 256) :: leBytes n (v / 256)

/-- A `u32` in four bytes. -/
def putU32 (v : U32) : List UInt8 := leBytes 4 v

/-- An `i64` in eight bytes. -/
def putI64 (v : ℤ) : List UInt8 := leBytes 8 (v % 2 ^ 64).toNat

/-- A note rule among the structural bytes. -/
def noteRuleBytes : NoteRule → List UInt8
  | .noChange => [0]
  | .template runs => 1 :: runs.flatMap fun run => putU32 run.1 ++ putI64 run.2

mutual

/-- The structural bytes of an item. Steps, rules and body are written without their lengths. -/
def Item.structBytes : Item → List UInt8
  | .op o => 0 :: putOpcodeStruct o
  | .rep count body steps notes =>
      1 :: (putU32 count ++ (steps.flatMap putI64 ++ (0xff :: (notes.flatMap noteRuleBytes ++
        (0xfe :: structBytesOf body)))))

/-- The structural bytes of a block. -/
def structBytesOf : List Item → List UInt8
  | [] => []
  | it :: its => it.structBytes ++ structBytesOf its

end

/-- FNV-1a of the structural bytes (`item_hash`). -/
def itemHash (it : Item) : ℕ :=
  it.structBytes.foldl (fun h b => (h ^^^ b.toNat) * 0x100000001b3 % 2 ^ 64) 0xcbf29ce484222325

/-! ### Rolling -/

def MAX_PERIOD_TRIES : ℕ := 8

def HASH_CHECK_CAP : ℕ := 32

def MAX_ROLL_PASSES : ℕ := 64

/-- `usize::MAX`: no repeat starts here. -/
def USIZE_MAX : ℕ := 2 ^ 64 - 1

/-- The rows of a `SparseMin` after the row `prev` for spans of `half`. -/
def sparseRows (n : ℕ) : ℕ → ℕ → List ℕ → List (List ℕ)
  | 0, _, _ => []
  | fuel + 1, half, prev =>
      if 2 * half ≤ n then
        let row := (List.range (n - 2 * half + 1)).map fun i =>
          min (prev.getD i USIZE_MAX) (prev.getD (i + half) USIZE_MAX)
        row :: sparseRows n fuel (2 * half) row
      else []

/-- Row `k`, entry `i`: the minimum of the `2 ^ k` entries from `i`. -/
def SparseMin (data : List ℕ) : List (List ℕ) :=
  data :: sparseRows data.length data.length 1 data

/-- The minimum of `[l, r)`, `usize::MAX` if that is empty. -/
def sparseMin (table : List (List ℕ)) (l r : ℕ) : ℕ :=
  if r ≤ l then USIZE_MAX
  else
    let k := (r - l).log2
    let row := table.getD k []
    min (row.getD l USIZE_MAX) (row.getD (r - 2 ^ k) USIZE_MAX)

/-- The `p` entries from `base`. -/
def block {α : Type} (l : List α) (base p : ℕ) : List α := (l.drop base).take p

/-- The next index with the hash of index `i`. -/
def nextSame (hashes : List ℕ) (i : ℕ) : Option ℕ :=
  match hashes[i]? with
  | some h => ((hashes.drop (i + 1)).idxOf? h).map (· + (i + 1))
  | none => none

/-- Do the first entries of the blocks at `i` and `i + p` have the same hashes? -/
def blockHashesMatch (hashes : List ℕ) (i p : ℕ) : Bool :=
  p ≠ 0 && i + 2 * p ≤ hashes.length &&
    (List.range (min p HASH_CHECK_CAP)).all fun j => hashes[i + j]? = hashes[i + p + j]?

/-- The first period among the next indices of one hash whose blocks match, with `tries` left. -/
def candidateFrom (hashes : List ℕ) (i : ℕ) : ℕ → Option ℕ → ℕ
  | 0, _ => USIZE_MAX
  | _ + 1, none => USIZE_MAX
  | tries + 1, some j =>
      if blockHashesMatch hashes i (j - i) then j - i
      else candidateFrom hashes i tries (nextSame hashes j)

/-- The smallest candidate period at each position. -/
def candidates (hashes : List ℕ) : List ℕ :=
  (List.range hashes.length).map fun i =>
    candidateFrom hashes i MAX_PERIOD_TRIES (nextSame hashes i)

/-- Is `actual` the note `base` under the rule, `k` iterations on? -/
def noteOk (k : ℤ) (base : Option String) (rule : NoteRule) (actual : Option String) : Bool :=
  match rule, base with
  | .noChange, _ => actual = base
  | .template runs, some s => some (applyNoteTemplate s k runs) = actual
  | .template _, none => false

/-- Does block `k` repeat the first block under the steps and rules? -/
def blockOk (items : List Item) (start p : ℕ) (steps : List ℤ) (rules : List NoteRule)
    (k : ℕ) : Bool :=
  let first := block items start p
  let actual := block items (start + k * p) p
  structBytesOf actual = structBytesOf first &&
    (operandsOf actual).length = (operandsOf first).length &&
    ((operandsOf first).zip (steps.zip (operandsOf actual))).all
      (fun (x, step, y) => (x.val : ℤ) + k * step = y.val) &&
    ((notesOf first).zip (rules.zip (notesOf actual))).all
      (fun (base, rule, actual) => noteOk k base rule actual)

/-- The number of blocks that repeat, `count` of them known. -/
def countFrom (items : List Item) (start p : ℕ) (steps : List ℤ) (rules : List NoteRule) :
    ℕ → ℕ → ℕ
  | 0, count => count
  | fuel + 1, count =>
      if start + (count + 1) * p ≤ items.length ∧ blockOk items start p steps rules count then
        countFrom items start p steps rules fuel (count + 1)
      else count

/-- The steps from the first block to the second. -/
def stepsOf (first second : List Item) : List ℤ :=
  List.zipWith (fun x y => (y.val : ℤ) - x.val) (operandsOf first) (operandsOf second)

/-- Collapse the run of period `p` at `start`, as far as it goes (`try_build_repeat`). -/
def tryBuildRepeat (items : List Item) (hashes : List ℕ) (start p : ℕ) : Option Repeat :=
  if p = 0 ∨ items.length < start + 2 * p then none
  else if block hashes start p ≠ block hashes (start + p) p then none
  else
    let first := block items start p
    let second := block items (start + p) p
    if (operandsOf first).length ≠ (operandsOf second).length ∨
        structBytesOf second ≠ structBytesOf first then none
    else if (notesOf first).length ≠ (notesOf second).length then none
    else
      match (List.zipWith deriveNoteRule (notesOf first) (notesOf second)).mapM id with
      | none => none
      | some rules =>
          let steps := stepsOf first second
          some ⟨Fin.ofNat _ (countFrom items start p steps rules items.length 2), first, steps,
            rules⟩

/-- What a pass collapses at `i`, with the period: the smallest run, unless a finer one starts
inside its first block. -/
def foldAt (items : List Item) (hashes : List ℕ) (cand : List ℕ) (rmq : List (List ℕ)) (i : ℕ) :
    Option (ℕ × Repeat) :=
  let p := cand.getD i USIZE_MAX
  if p ≠ USIZE_MAX ∧ ¬ sparseMin rmq (i + 1) (i + p) < p then
    (tryBuildRepeat items hashes i p).map fun r => (p, r)
  else none

/-- The loop of a pass from `i` on: the items and hashes it pushes, and whether it rolled. -/
def rollFrom (fold : ℕ → Option (ℕ × Repeat)) (items : List Item) (hashes : List ℕ) :
    ℕ → ℕ → Outcome (List (Item × ℕ) × Bool)
  | 0, i => if i < items.length then .error .outOfFuel else .ok ([], false)
  | fuel + 1, i =>
      match items[i]?, hashes[i]? with
      | some it, some h =>
          match fold i with
          | some (p, r) => do
              let (rest, _) ← rollFrom fold items hashes fuel (i + p * r.count.val)
              .ok ((r.toItem, itemHash r.toItem) :: rest, true)
          | none => do
              let (rest, changed) ← rollFrom fold items hashes fuel (i + 1)
              .ok ((it, h) :: rest, changed)
      | _, _ => .ok ([], false)

/-- The folds a pass may make, at each position. -/
def passFold (items : List Item) (hashes : List ℕ) : ℕ → Option (ℕ × Repeat) :=
  let cand := candidates hashes
  let rmq := SparseMin cand
  foldAt items hashes cand rmq

/-- One pass. -/
def rollPass (items : List Item) (hashes : List ℕ) : Outcome (List (Item × ℕ) × Bool) :=
  if items.length < 2 then .ok (items.zip hashes, false)
  else rollFrom (passFold items hashes) items hashes items.length 0

/-- At most `n` passes, until one changes nothing. -/
def rollPasses : ℕ → List Item → List ℕ → Outcome (List Item)
  | 0, items, _ => .ok items
  | n + 1, items, hashes => do
      let (out, changed) ← rollPass items hashes
      if changed then rollPasses n (out.map Prod.fst) (out.map Prod.snd)
      else .ok (out.map Prod.fst)

/-- Roll a stream of instructions (`roll_stream`). -/
def rollStream (ops : List Opcode) : Outcome (List Item) :=
  rollPasses MAX_ROLL_PASSES (ops.map .op) (ops.map fun o => itemHash (.op o))

/-! ### Encoding and decoding -/

/-- A note rule. -/
def putNoteRule : NoteRule → List UInt8
  | .noChange => [0]
  | .template runs =>
      1 :: (putVarint runs.length ++ runs.flatMap fun run => putVu32 run.1 ++ putIvarint run.2)

/-- The rules of a body; one flag byte when no note changes. -/
def putNoteRules (notes : List NoteRule) : List UInt8 :=
  putVarint notes.length ++
    if notes.all (· = .noChange) then [0] else 1 :: notes.flatMap putNoteRule

mutual

/-- An item. -/
def putItemCompact (pool : PoolMap) : Item → List UInt8
  | .op o => 0 :: putOpcode pool o
  | .rep count body steps notes =>
      1 :: (putVarint count ++ (putVarint body.length ++ (putItemsCompact pool body ++
        (putVarint steps.length ++ (steps.flatMap putIvarint ++ putNoteRules notes)))))

/-- The items of a body. -/
def putItemsCompact (pool : PoolMap) : List Item → List UInt8
  | [] => []
  | it :: its => putItemCompact pool it ++ putItemsCompact pool its

end

/-- Roll a run and write it. -/
def rollAndEncodeOpsCompact (ops : List Opcode) (pool : PoolMap) : Outcome (List UInt8) := do
  let items ← rollStream ops
  .ok (putVarint items.length ++ putItemsCompact pool items)

/-- A digit run of a template. -/
def noteRun : Cursor (U32 × ℤ) := do
  let ri ← vu32
  let st ← ivarint
  pure (ri, st)

/-- A note rule. -/
def noteRule : Cursor NoteRule := do
  let tag ← next eof
  match tag.toNat with
  | 0 => pure .noChange
  | 1 => do
      let nr ← varint eof
      let runs ← many noteRun nr
      pure (.template runs)
  | _ => throw (.err (.badTag tag))

/-- The rules of a body. -/
def noteRules : Cursor (List NoteRule) := do
  let n ← varint eof
  let flag ← next eof
  match flag.toNat with
  | 0 => pure (List.replicate n .noChange)
  | 1 => many noteRule n
  | _ => throw (.err (.badTag flag))

/-- An item. Each level of nesting consumes a byte, so with as much depth as there are bytes left
the bound is reached at the end of the buffer only. -/
def itemCompact (pool : List FieldConst) : ℕ → Cursor Item
  | 0 => throw eof
  | depth + 1 => do
      let tag ← next eof
      match tag.toNat with
      | 0 => do
          let o ← opcode pool
          pure (.op o)
      | 1 => do
          let count ← vu32
          let nBody ← varint eof
          let body ← many (itemCompact pool depth) nBody
          let nSteps ← varint eof
          let steps ← many ivarint nSteps
          let notes ← noteRules
          pure (.rep count body steps notes)
      | _ => throw (.err (.badTag tag))

/-- Run on each element in order and concatenate what is emitted. -/
def emitAll {α : Type} (f : α → Except Fault (List Opcode)) (l : List α) :
    Except Fault (List Opcode) :=
  (l.mapM f).map List.flatten

/-- The body of a repeat on iteration `k`: operands and notes shifted. Steps or rules that run out
are an index out of range. -/
def shiftBody (k : ℕ) (body : List Item) (steps : List ℤ) (notes : List NoteRule) :
    Except Fault (List Item) := do
  let (shifted, _) ← fillOf body (List.zipWith (shiftOperand k) (operandsOf body) steps)
  let (shifted, _) ← fillNotesOf shifted (List.zipWith (applyNoteRule k) (notesOf body) notes)
  return shifted

/-- The instructions of an item, in order. Shifting keeps the nesting, so an item nested at most
`depth` deep never reaches the bound. -/
def emitItem : ℕ → Item → Except Fault (List Opcode)
  | _, .op o => .ok [o]
  | 0, .rep _ _ _ _ => .error eof
  | depth + 1, .rep count body steps notes =>
      emitAll (fun k => do
        let shifted ← shiftBody k body steps notes
        emitAll (emitItem depth) shifted) (List.range count)

/-- The rows among some instructions. -/
def rowsOf (ops : List Opcode) : List R1csRow :=
  ops.filterMap fun
    | .constraint r => some r
    | .witness _ => none

/-- The witness instructions among some instructions. -/
def witsOf (ops : List Opcode) : List WitnessOp :=
  ops.filterMap fun
    | .constraint _ => none
    | .witness w => some w

/-- Read the items of a run, each one expanded before the next is read. -/
def expandItems (pool : List FieldConst) (depth n : ℕ) : Cursor (List (List Opcode)) :=
  many (do
    let it ← itemCompact pool depth
    let ops ← (emitItem depth it : Except Fault (List Opcode))
    pure ops) n

/-- Read a rolled run back. -/
def decodeAndExpandOpsCompact (bytes : List UInt8) (pool : List FieldConst) :
    Except Fault (List R1csRow × List WitnessOp) := do
  let (n, rest) ← varint eof bytes
  let (ops, _) ← expandItems pool bytes.length n rest
  return (rowsOf ops.flatten, witsOf ops.flatten)

end Bytecode

end XarkCircuit
