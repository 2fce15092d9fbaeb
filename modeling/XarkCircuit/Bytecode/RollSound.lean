import XarkCircuit.Bytecode.ItemWire

/-!
Rolling a run and reading it back (`bytecode.rs`).

* `Expands its ops` says that the items `its` expand to the instructions `ops`. A faithful fold
  keeps what the stream expands to (`expands_fold`), so a pass does (`rollFrom_spec`), and so do all
  passes (`rollPasses_spec`).
* `reads_expandItems`: the items a run is written as are read back and expanded.
* `RollsFaithfully ops`: each fold made while rolling `ops` is faithful. `lossless_of_faithful` is
  the round trip for such runs, and `lossy_leadingZero`, `lossy_structure` are runs that are not
  faithful and not read back.
-/

namespace XarkCircuit

namespace Bytecode

open Codec Outcome

/-! ### Emitting -/

lemma emitAll_ok {α : Type} {f : α → Except Fault (List Opcode)} {g : α → List Opcode} {l : List α}
    (h : ∀ a ∈ l, f a = .ok (g a)) : emitAll f l = .ok (l.flatMap g) := by
  have hm : l.mapM f = .ok (l.map g) := by
    induction l with
    | nil => rfl
    | cons a l ih =>
        rw [List.mapM_cons, h a List.mem_cons_self, ih fun b hb => h b (List.mem_cons_of_mem _ hb)]
        rfl
  rw [emitAll, hm]
  rfl

lemma emitAll_cons {α : Type} (f : α → Except Fault (List Opcode)) (a : α) (l : List α) :
    emitAll f (a :: l) = f a >>= fun os => emitAll f l >>= fun rest => .ok (os ++ rest) := by
  rw [emitAll, List.mapM_cons]
  cases f a with
  | error e => rfl
  | ok os =>
      rw [emitAll]
      cases l.mapM f <;> rfl

/-- What is emitted is kept by any way of emitting that agrees where the first one emits. -/
lemma emitAll_mono {α : Type} {f g : α → Except Fault (List Opcode)} {l : List α}
    {ops : List Opcode} (h : ∀ a ∈ l, ∀ os, f a = .ok os → g a = .ok os)
    (hf : emitAll f l = .ok ops) : emitAll g l = .ok ops := by
  induction l generalizing ops with
  | nil => exact hf
  | cons a l ih =>
      rw [emitAll_cons] at hf ⊢
      cases ha : f a with
      | error e => rw [ha] at hf; exact absurd hf (by simp [bind, Except.bind])
      | ok os =>
          cases hl : emitAll f l with
          | error e => rw [ha, hl] at hf; exact absurd hf (by simp [bind, Except.bind])
          | ok rest =>
              rw [ha, hl] at hf
              rw [h a List.mem_cons_self os ha,
                ih (fun b hb => h b (List.mem_cons_of_mem _ hb)) hl]
              exact hf

lemma emitItem_mono {m n : ℕ} (hmn : m ≤ n) {it : Item} {ops : List Opcode}
    (h : emitItem m it = .ok ops) : emitItem n it = .ok ops := by
  induction m generalizing n it ops with
  | zero =>
      cases it with
      | op o =>
          cases n with
          | zero => exact h
          | succ n => exact h
      | rep count body steps notes => exact absurd h (by simp [emitItem])
  | succ m ih =>
      obtain ⟨n, rfl⟩ : ∃ n', n = n' + 1 := ⟨n - 1, by omega⟩
      cases it with
      | op o => exact h
      | rep count body steps notes =>
          rw [emitItem] at h ⊢
          refine emitAll_mono (fun k _ os hk => ?_) h
          cases hs : shiftBody k body steps notes with
          | error e => rw [hs] at hk; exact absurd hk (by simp [bind, Except.bind])
          | ok its =>
              rw [hs] at hk
              exact emitAll_mono (fun it _ os hit => ih (by omega) hit) hk

/-! ### What items expand to -/

/-- The items expand to the instructions. -/
inductive Expands : List Item → List Opcode → Prop
  | nil : Expands [] []
  | cons {it : Item} {its : List Item} {os ops : List Opcode} :
      emitItem it.depth it = .ok os → Expands its ops → Expands (it :: its) (os ++ ops)

lemma Expands.append {its jts : List Item} {ops pps : List Opcode} (h : Expands its ops)
    (h' : Expands jts pps) : Expands (its ++ jts) (ops ++ pps) := by
  induction h with
  | nil => exact h'
  | cons hit _ ih => rw [List.cons_append, List.append_assoc]; exact .cons hit ih

/-- What a concatenation expands to splits. -/
lemma Expands.of_append {its jts : List Item} {ops : List Opcode} (h : Expands (its ++ jts) ops) :
    ∃ os ps, ops = os ++ ps ∧ Expands its os ∧ Expands jts ps := by
  induction its generalizing ops with
  | nil => exact ⟨[], ops, rfl, .nil, h⟩
  | cons it its ih =>
      cases h with
      | @cons _ _ o ops hit h =>
          obtain ⟨os, ps, rfl, hos, hps⟩ := ih h
          exact ⟨o ++ os, ps, (List.append_assoc _ _ _).symm, .cons hit hos, hps⟩

lemma Expands.ops (ops : List Opcode) : Expands (ops.map .op) ops := by
  induction ops with
  | nil => exact .nil
  | cons o ops ih =>
      have hop : emitItem (Item.op o).depth (.op o) = .ok [o] := rfl
      exact .cons hop ih

/-- Within the depth of a block its items are emitted. -/
lemma Expands.emitAll {its : List Item} {ops : List Opcode} (h : Expands its ops) {d : ℕ}
    (hd : depthOf its ≤ d) : Bytecode.emitAll (emitItem d) its = .ok ops := by
  induction h with
  | nil => rfl
  | @cons it its os ops hit _ ih =>
      rw [depthOf] at hd
      rw [emitAll_cons, emitItem_mono (by omega) hit, ih (by omega)]
      rfl

/-! ### A fold -/

lemma block_length {α : Type} {l : List α} {base p : ℕ} (h : base + p ≤ l.length) :
    (block l base p).length = p := by
  rw [block, List.length_take, List.length_drop]
  omega

/-- A block and what follows it. -/
lemma drop_eq_block {α : Type} (l : List α) (base p : ℕ) :
    l.drop base = block l base p ++ l.drop (base + p) := by
  rw [block, ← List.drop_drop, List.take_append_drop]

/-- A run of blocks expands block by block. -/
lemma Expands.blocks {items : List Item} {start p : ℕ} :
    ∀ {c : ℕ} {ops : List Opcode}, Expands (items.drop start) ops → start + c * p ≤ items.length →
      ∃ g : ℕ → List Opcode, ∃ rest, (∀ k < c, Expands (block items (start + k * p) p) (g k)) ∧
        ops = (List.range c).flatMap g ++ rest ∧ Expands (items.drop (start + c * p)) rest := by
  intro c
  induction c with
  | zero =>
      intro ops h _
      refine ⟨fun _ => [], ops, fun k hk => absurd hk (Nat.not_lt_zero _), rfl, ?_⟩
      rwa [Nat.zero_mul, Nat.add_zero]
  | succ c ih =>
      intro ops h hlen
      rw [Nat.succ_mul] at hlen
      obtain ⟨g, rest, hg, rfl, hrest⟩ := ih h (by omega)
      rw [drop_eq_block items (start + c * p) p] at hrest
      obtain ⟨os, ps, rfl, hos, hps⟩ := hrest.of_append
      refine ⟨fun k => if k = c then os else g k, ps, fun k hk => ?_, ?_, ?_⟩
      · dsimp only
        split_ifs with hkc
        · exact hkc ▸ hos
        · exact hg k (by omega)
      · have hsame : (List.range c).flatMap (fun k => if k = c then os else g k)
            = (List.range c).flatMap g := by
          refine List.flatMap_congr fun k hk => if_neg ?_
          have := List.mem_range.mp hk
          omega
        rw [List.range_succ, List.flatMap_append, hsame, List.flatMap_singleton, if_pos rfl,
          List.append_assoc]
      · rwa [Nat.succ_mul, ← Nat.add_assoc]

/-- **A faithful fold expands to the blocks it replaces.** -/
theorem expands_fold {items : List Item} {start p : ℕ} {r : Repeat} (hb : Built items start p r)
    (hf : FoldFaithful items start p r) {ops : List Opcode} (h : Expands (items.drop start) ops) :
    ∃ os rest, ops = os ++ rest ∧ emitItem r.toItem.depth r.toItem = .ok os ∧
      Expands (items.drop (start + r.count.val * p)) rest := by
  have hcount : 0 < r.count.val := by
    have := hf.count
    exact Nat.pos_of_ne_zero fun h0 => this (Fin.ext h0)
  have hlast := (shiftBody_fold hb hf (k := r.count.val - 1) (by omega)).1
  rw [Nat.sub_add_cancel hcount] at hlast
  obtain ⟨g, rest, hg, hops, hrest⟩ := h.blocks hlast
  refine ⟨_, rest, hops, ?_, hrest⟩
  have hdepth : r.toItem.depth = depthOf r.body + 1 := Nat.add_comm _ _
  rw [hdepth, Repeat.toItem, emitItem]
  refine emitAll_ok fun k hk => ?_
  have hk' := List.mem_range.mp hk
  rw [(shiftBody_fold hb hf hk').2]
  exact (hg k hk').emitAll (depthOf_congr (hf.shape k hk')).le

/-! ### Passes -/

/-- The folds a pass makes from `i` on are faithful. -/
def FoldsFaithful (fold : ℕ → Option (ℕ × Repeat)) (items : List Item) : ℕ → ℕ → Prop
  | 0, _ => True
  | fuel + 1, i =>
      i < items.length →
        match fold i with
        | some (p, r) => FoldFaithful items i p r ∧
            FoldsFaithful fold items fuel (i + p * r.count.val)
        | none => FoldsFaithful fold items fuel (i + 1)

/-- The folds of a pass are faithful. -/
def PassFaithful (items : List Item) (hashes : List ℕ) : Prop :=
  2 ≤ items.length → FoldsFaithful (passFold items hashes) items items.length 0

/-- The folds of at most `n` passes are faithful. -/
def PassesFaithful : ℕ → List Item → List ℕ → Prop
  | 0, _, _ => True
  | n + 1, items, hashes =>
      PassFaithful items hashes ∧
        match rollPass items hashes with
        | .ok (out, true) => PassesFaithful n (out.map Prod.fst) (out.map Prod.snd)
        | _ => True

/-- Every fold made while rolling a run is faithful. -/
def RollsFaithfully (ops : List Opcode) : Prop :=
  PassesFaithful MAX_ROLL_PASSES (ops.map .op) (ops.map fun o => itemHash (.op o))

instance (items : List Item) (start p : ℕ) (r : Repeat) :
    Decidable (FoldFaithful items start p r) :=
  decidable_of_iff ((∀ k < r.count.val, shapeOf (block items (start + k * p) p) = shapeOf r.body) ∧
    List.zipWith (applyNoteRule 0) (notesOf r.body) r.notes = notesOf r.body ∧ r.count ≠ 0)
    ⟨fun h => ⟨h.1, h.2.1, h.2.2⟩, fun h => ⟨h.shape, h.notes, h.count⟩⟩

instance decidableFolds (fold : ℕ → Option (ℕ × Repeat)) (items : List Item) :
    ∀ fuel i, Decidable (FoldsFaithful fold items fuel i)
  | 0, _ => isTrue trivial
  | fuel + 1, i =>
      match h : fold i with
      | some (p, r) =>
          have := decidableFolds fold items fuel (i + p * r.count.val)
          decidable_of_iff (i < items.length → FoldFaithful items i p r ∧
            FoldsFaithful fold items fuel (i + p * r.count.val)) (by rw [FoldsFaithful, h])
      | none =>
          have := decidableFolds fold items fuel (i + 1)
          decidable_of_iff (i < items.length → FoldsFaithful fold items fuel (i + 1))
            (by rw [FoldsFaithful, h])

instance (items : List Item) (hashes : List ℕ) : Decidable (PassFaithful items hashes) :=
  inferInstanceAs (Decidable (_ → _))

instance decidablePasses : ∀ n items hashes, Decidable (PassesFaithful n items hashes)
  | 0, _, _ => isTrue trivial
  | n + 1, items, hashes =>
      match h : rollPass items hashes with
      | .ok (out, true) =>
          have := decidablePasses n (out.map Prod.fst) (out.map Prod.snd)
          decidable_of_iff (PassFaithful items hashes ∧
            PassesFaithful n (out.map Prod.fst) (out.map Prod.snd)) (by rw [PassesFaithful, h])
      | .ok (out, false) =>
          decidable_of_iff (PassFaithful items hashes) (by rw [PassesFaithful, h, and_true])
      | .error e => decidable_of_iff (PassFaithful items hashes) (by rw [PassesFaithful, h, and_true])

instance (ops : List Opcode) : Decidable (RollsFaithfully ops) := decidablePasses _ _ _

/-- What a pass may fold at a position has been built there. -/
def Builds (fold : ℕ → Option (ℕ × Repeat)) (items : List Item) : Prop :=
  ∀ i p r, fold i = some (p, r) → Built items i p r

lemma builds_passFold (items : List Item) (hashes : List ℕ) :
    Builds (passFold items hashes) items := by
  intro i p r h
  rw [passFold, foldAt] at h
  split_ifs at h
  obtain ⟨r', hr', heq⟩ := Option.map_eq_some_iff.mp h
  obtain ⟨rfl, rfl⟩ := Prod.mk.inj heq
  exact built_of_tryBuildRepeat hr'

/-- The last position a pass looks at. -/
lemma rollFrom_end {fold : ℕ → Option (ℕ × Repeat)} {items : List Item} {hashes : List ℕ}
    {fuel i : ℕ} (h : items.length ≤ i) : rollFrom fold items hashes fuel i = .ok ([], false) := by
  cases fuel with
  | zero => rw [rollFrom, if_neg (not_lt.mpr h)]
  | succ fuel => rw [rollFrom, List.getElem?_eq_none h]

/-- An item or a fold, and what the pass does after it. -/
lemma rollFrom_succ {fold : ℕ → Option (ℕ × Repeat)} {items : List Item} {hashes : List ℕ}
    (hlen : hashes.length = items.length) (fuel : ℕ) {i : ℕ} (hi : i < items.length) :
    rollFrom fold items hashes (fuel + 1) i =
      match fold i with
      | some (p, r) => rollFrom fold items hashes fuel (i + p * r.count.val) >>= fun q =>
          .ok ((r.toItem, itemHash r.toItem) :: q.1, true)
      | none => rollFrom fold items hashes fuel (i + 1) >>= fun q =>
          .ok ((items[i], hashes[i]) :: q.1, q.2) := by
  rewrite [rollFrom, List.getElem?_eq_getElem hi, List.getElem?_eq_getElem (hlen ▸ hi)]
  rfl

/-- What a pass pushes from position `i` on: items in range, among those of the stream, that expand
to `ops`. -/
structure Pushed (items : List Item) (i : ℕ) (ops : List Opcode) (out : List (Item × ℕ)) : Prop where
  expands : Expands (out.map Prod.fst) ops
  slimmer : Slimmer (out.map Prod.fst) (items.drop i)
  fits : ∀ it ∈ out.map Prod.fst, it.Fits

/-- A pushed item. -/
lemma Pushed.item {items : List Item} (hfit : StreamFits items) {i : ℕ} (hi : i < items.length)
    {h : ℕ} {os ops : List Opcode} (hit : emitItem items[i].depth items[i] = .ok os)
    {out : List (Item × ℕ)} (hout : Pushed items (i + 1) ops out) :
    Pushed items i (os ++ ops) ((items[i], h) :: out) where
  expands := .cons hit hout.expands
  slimmer := by
    rw [List.drop_eq_getElem_cons hi]
    exact (Slimmer.of_sublist (List.Sublist.refl [items[i]])).append hout.slimmer
  fits it hmem := by
    rcases List.mem_cons.mp hmem with rfl | hmem
    · exact hfit.each _ (List.getElem_mem hi)
    · exact hout.fits it hmem

/-- A pushed fold. -/
lemma Pushed.fold {items : List Item} (hfit : StreamFits items) {i p : ℕ} {r : Repeat}
    (hb : Built items i p r) (hf : FoldFaithful items i p r) {os ops : List Opcode}
    (hit : emitItem r.toItem.depth r.toItem = .ok os) {out : List (Item × ℕ)}
    (hout : Pushed items (i + p * r.count.val) ops out) :
    Pushed items i (os ++ ops) ((r.toItem, itemHash r.toItem) :: out) where
  expands := .cons hit hout.expands
  slimmer := by
    have hpos : 0 < r.count.val := Nat.pos_of_ne_zero fun h0 => hf.count (Fin.ext h0)
    have hle : p ≤ p * r.count.val := Nat.le_mul_of_pos_right p hpos
    have hskip : Slimmer (items.drop (i + p * r.count.val)) (items.drop (i + p)) := by
      refine Slimmer.of_sublist ?_
      have hsum : i + p * r.count.val = (i + p) + (p * r.count.val - p) := by omega
      rw [hsum, ← List.drop_drop]
      exact List.drop_sublist _ _
    rw [drop_eq_block items i p]
    exact (fits_fold hb hfit).2.append (hout.slimmer.trans hskip)
  fits it hmem := by
    rcases List.mem_cons.mp hmem with rfl | hmem
    · exact (fits_fold hb hfit).1
    · exact hout.fits it hmem

/-- **What a pass does.** From any position on, a pass whose folds are faithful ends, its items
expand to what the stream expands to there, and stay in range. -/
theorem rollFrom_spec {fold : ℕ → Option (ℕ × Repeat)} {items : List Item} {hashes : List ℕ}
    (hb : Builds fold items) (hlen : hashes.length = items.length) (hfit : StreamFits items)
    (fuel i : ℕ) (hfuel : items.length ≤ fuel + i) (hf : FoldsFaithful fold items fuel i)
    {ops : List Opcode} (h : Expands (items.drop i) ops) :
    ∃ out changed, rollFrom fold items hashes fuel i = .ok (out, changed) ∧
      Pushed items i ops out := by
  induction fuel generalizing i ops with
  | zero =>
      rw [List.drop_eq_nil_of_le (by omega)] at h
      exact ⟨[], false, rollFrom_end (by omega), h, Slimmer.of_sublist (List.nil_sublist _), by simp⟩
  | succ fuel ih =>
      rcases Nat.lt_or_ge i items.length with hi | hi
      · have hfi := hf hi
        rw [rollFrom_succ hlen fuel hi]
        cases hfold : fold i with
        | none =>
            rw [hfold] at hfi
            rw [List.drop_eq_getElem_cons hi] at h
            cases h with
            | cons hit h =>
                obtain ⟨out, changed, hroll, hout⟩ := ih (i + 1) (by omega) hfi h
                refine ⟨(items[i], hashes[i]) :: out, changed, ?_, hout.item hfit hi hit⟩
                dsimp only
                rw [hroll]
                rfl
        | some pr =>
            obtain ⟨p, r⟩ := pr
            rw [hfold] at hfi
            obtain ⟨hfaith, hrest⟩ := hfi
            have hbuilt := hb i p r hfold
            have hpos : 0 < p * r.count.val :=
              Nat.mul_pos hbuilt.pos (Nat.pos_of_ne_zero fun h0 => hfaith.count (Fin.ext h0))
            obtain ⟨os, rest, rfl, hemit, hexp⟩ := expands_fold hbuilt hfaith h
            rw [Nat.mul_comm] at hexp
            obtain ⟨out, changed, hroll, hout⟩ := ih _ (by omega) hrest hexp
            refine ⟨(r.toItem, itemHash r.toItem) :: out, true, ?_,
              hout.fold hfit hbuilt hfaith hemit⟩
            dsimp only
            rw [hroll]
            rfl
      · rw [List.drop_eq_nil_of_le hi] at h
        exact ⟨[], false, rollFrom_end hi, h, Slimmer.of_sublist (List.nil_sublist _), by simp⟩

/-- A pass whose folds are faithful keeps what the stream expands to. -/
lemma rollPass_spec {items : List Item} {hashes : List ℕ} (hlen : hashes.length = items.length)
    (hfit : StreamFits items) (hf : PassFaithful items hashes) {ops : List Opcode}
    (h : Expands items ops) :
    ∃ out changed, rollPass items hashes = .ok (out, changed) ∧
      Expands (out.map Prod.fst) ops ∧ StreamFits (out.map Prod.fst) := by
  rw [rollPass]
  split_ifs with h2
  · have hmap : (items.zip hashes).map Prod.fst = items := by
      rw [List.map_fst_zip hlen.ge]
    exact ⟨_, _, rfl, hmap.symm ▸ h, hmap.symm ▸ hfit⟩
  · obtain ⟨out, changed, hroll, hout⟩ :=
      rollFrom_spec (builds_passFold items hashes) hlen hfit items.length 0 (by omega)
        (hf (by omega)) h
    exact ⟨out, changed, hroll, hout.expands, hfit.slimmer hout.slimmer hout.fits⟩

/-- Passes whose folds are faithful keep what the stream expands to. -/
lemma rollPasses_spec (n : ℕ) {items : List Item} {hashes : List ℕ}
    (hlen : hashes.length = items.length) (hfit : StreamFits items)
    (hf : PassesFaithful n items hashes) {ops : List Opcode} (h : Expands items ops) :
    ∃ out, rollPasses n items hashes = .ok out ∧ Expands out ops ∧ StreamFits out := by
  induction n generalizing items hashes with
  | zero => exact ⟨items, rfl, h, hfit⟩
  | succ n ih =>
      obtain ⟨hpass, hrest⟩ := hf
      obtain ⟨out, changed, hroll, hexp, hfits⟩ := rollPass_spec hlen hfit hpass h
      rw [hroll] at hrest
      rw [rollPasses, hroll]
      cases changed with
      | false => exact ⟨_, rfl, hexp, hfits⟩
      | true => exact ih (by rw [List.length_map, List.length_map]) hfits hrest hexp

/-! ### Reading a run back -/

section Pool

variable {pool : PoolMap} {vec : List FieldConst}

/-- The items of a run are read back and expanded. -/
lemma reads_expandItems (hpool : Agree pool vec) {depth : ℕ} {its : List Item}
    {ops : List Opcode} (h : Expands its ops) (hfit : ∀ it ∈ its, it.Fits)
    (hd : depthOf its < depth) :
    ∃ oss, Reads (expandItems vec depth its.length) (putItemsCompact pool its) oss ∧
      oss.flatten = ops := by
  induction h with
  | nil => exact ⟨[], Reads.pure [], rfl⟩
  | @cons it its os ops hit h ih =>
      rw [depthOf] at hd
      obtain ⟨oss, hoss, rfl⟩ := ih (fun jt hjt => hfit jt (List.mem_cons_of_mem _ hjt)) (by omega)
      refine ⟨os :: oss, ?_, rfl⟩
      have hlt : it.depth < depth := by omega
      have hread := reads_itemCompact hpool (hfit it List.mem_cons_self) hlt
      have hemit : emitItem depth it = .ok os := emitItem_mono (by omega) hit
      have hone : Reads (do
          let it ← itemCompact vec depth
          let ops ← (emitItem depth it : Except Fault (List Opcode))
          pure ops : Cursor (List Opcode)) (putItemCompact pool it ++ []) os := by
        refine hread.bind ?_
        rw [hemit]
        exact Reads.pure os
      rw [List.append_nil] at hone
      exact hone.bind (hoss.ret _)

/-- A run in range. -/
structure OpsFit (ops : List Opcode) : Prop where
  each : ∀ o ∈ ops, o.Fits
  length : ops.length < 2 ^ 64
  operands : (ops.flatMap Opcode.operands).length < 2 ^ 64

lemma OpsFit.stream {ops : List Opcode} (h : OpsFit ops) : StreamFits (ops.map .op) := by
  have hnotes : notesOf (ops.map .op) = ops.flatMap fun o => (Item.op o).notes := by
    rw [notesOf_eq_flatMap, List.flatMap_map]
  have hlen : ∀ ops : List Opcode, (ops.flatMap fun o => (Item.op o).notes).length ≤ ops.length := by
    intro ops
    induction ops with
    | nil => exact Nat.zero_le _
    | cons o ops ih =>
        have hone : (Item.op o).notes.length ≤ 1 := by cases o <;> simp [Item.notes]
        rw [List.flatMap_cons, List.length_append, List.length_cons]
        omega
  refine ⟨fun it hit => ?_, by simpa using h.length, ?_, ?_, fun n hn => ?_⟩
  · obtain ⟨o, ho, rfl⟩ := List.mem_map.mp hit
    exact h.each o ho
  · rw [operandsOf_eq_flatMap, List.flatMap_map]
    exact h.operands
  · rw [hnotes]
    exact lt_of_le_of_lt (hlen ops) h.length
  · rw [hnotes] at hn
    obtain ⟨o, ho, hno⟩ := List.mem_flatMap.mp hn
    cases o with
    | constraint r =>
        obtain rfl := List.mem_singleton.mp hno
        exact (h.each _ ho).2.2.2
    | witness w => exact absurd hno List.not_mem_nil

/-- A run of rows only, or of witness instructions only. -/
def Homogeneous (ops : List Opcode) : Prop :=
  (∃ rows : List R1csRow, ops = rows.map .constraint) ∨
    ∃ wits : List WitnessOp, ops = wits.map .witness

/-- The run is written, and what is written is read back as the run. -/
def Lossless (ops : List Opcode) (pool : PoolMap) (vec : List FieldConst) : Prop :=
  ∃ bytes rows wits, rollAndEncodeOpsCompact ops pool = .ok bytes ∧
    decodeAndExpandOpsCompact bytes vec = .ok (rows, wits) ∧
    rows.map .constraint ++ wits.map .witness = ops

lemma rowsOf_witsOf {ops : List Opcode} (h : Homogeneous ops) :
    (rowsOf ops).map .constraint ++ (witsOf ops).map .witness = ops := by
  rcases h with ⟨rows, rfl⟩ | ⟨wits, rfl⟩
  · have h1 : rowsOf (rows.map .constraint) = rows := by
      simp [rowsOf, List.filterMap_map]
    have h2 : witsOf (rows.map .constraint) = [] := by
      simp [witsOf, List.filterMap_map]
    rw [h1, h2, List.map_nil, List.append_nil]
  · have h1 : rowsOf (wits.map .witness) = [] := by
      simp [rowsOf, List.filterMap_map]
    have h2 : witsOf (wits.map .witness) = wits := by
      simp [witsOf, List.filterMap_map]
    rw [h1, h2, List.map_nil, List.nil_append]

/-- **A run whose folds are faithful is written and read back.** -/
theorem decode_encode (hpool : Agree pool vec) {ops : List Opcode} (hfit : OpsFit ops)
    (hf : RollsFaithfully ops) :
    ∃ bytes, rollAndEncodeOpsCompact ops pool = .ok bytes ∧
      decodeAndExpandOpsCompact bytes vec = .ok (rowsOf ops, witsOf ops) := by
  obtain ⟨items, hroll, hexp, hfits⟩ :=
    rollPasses_spec MAX_ROLL_PASSES (by rw [List.length_map, List.length_map]) hfit.stream hf
      (Expands.ops ops)
  set bytes := putVarint items.length ++ putItemsCompact pool items with hbytes
  refine ⟨bytes, ?_, ?_⟩
  · rw [rollAndEncodeOpsCompact, rollStream, hroll]
    rfl
  · have hdepth : depthOf items < bytes.length := by
      have h1 := length_putVarint_pos items.length
      have h2 : depthOf items ≤ (putItemsCompact pool items).length := depthOf_le_length items
      rw [hbytes, List.length_append]
      omega
    obtain ⟨oss, hoss, hflat⟩ := reads_expandItems hpool hexp hfits.each hdepth
    have hn : varint eof bytes = .ok (items.length, putItemsCompact pool items) :=
      reads_varint eof hfits.length _
    rw [decodeAndExpandOpsCompact, hn]
    change (expandItems vec bytes.length items.length (putItemsCompact pool items) >>= _) = _
    rw [hoss.run, ← hflat]
    rfl

/-- **Rolled runs are read back** when each fold made while rolling them is faithful. -/
theorem lossless_of_faithful (hpool : Agree pool vec) {ops : List Opcode} (hops : Homogeneous ops)
    (hfit : OpsFit ops) (hf : RollsFaithfully ops) : Lossless ops pool vec := by
  obtain ⟨bytes, henc, hdec⟩ := decode_encode hpool hfit hf
  exact ⟨bytes, _, _, henc, hdec, rowsOf_witsOf hops⟩

end Pool

/-! ### Runs that are read back, and runs that are not -/

/-- `v · v = v` with a note. -/
def noteRow (v : VarId) (note : String) : R1csRow := ⟨.ofVar v, .ofVar v, .ofVar v, some note⟩

lemma lcFits_ofVar (v : VarId) : LcFits (.ofVar v) where
  constant := by norm_num [ConstFits, LinearCombination.ofVar]
  coeffs t ht := by
    obtain rfl := List.mem_singleton.mp ht
    norm_num [ConstFits]
  length := by norm_num [LinearCombination.ofVar]

lemma fits_noteRow (v : VarId) {note : String} (h : (utf8 note).length < 2 ^ 64) :
    (Opcode.constraint (noteRow v note)).Fits :=
  ⟨lcFits_ofVar v, lcFits_ofVar v, lcFits_ofVar v, fun _ hs => Option.some.inj hs ▸ h⟩

/-- Three rows whose notes count up. -/
def countingRows : List R1csRow := [noteRow 1 "bit 8", noteRow 2 "bit 9", noteRow 3 "bit 10"]

/-- Two rows whose notes count up from a number with a leading zero. -/
def leadingZeroRows : List R1csRow := [noteRow 1 "bit 07", noteRow 1 "bit 8"]

/-- Rows whose notes count up are rolled into one repeat and read back. -/
theorem lossless_of_faithful_counting :
    Lossless (countingRows.map .constraint) (fun _ => none) [] := by
  refine lossless_of_faithful (fun _ _ h => absurd h (by simp)) (Or.inl ⟨_, rfl⟩) ⟨?_, ?_, ?_⟩ ?_
  · intro o ho
    simp only [countingRows, List.map_cons, List.map_nil, List.mem_cons, List.not_mem_nil,
      or_false] at ho
    rcases ho with rfl | rfl | rfl <;> exact fits_noteRow _ (by decide +kernel)
  · norm_num [countingRows]
  · decide +kernel
  · decide +kernel

/-- Iteration `0` of a template writes the number of the first note without its leading zero, so
`leadingZeroRows` are not read back. -/
theorem lossy_leadingZero :
    ¬∀ (pool : PoolMap) (vec : List FieldConst) (ops : List Opcode), Agree pool vec →
      Homogeneous ops → OpsFit ops → Lossless ops pool vec := by
  intro h
  have hfit : OpsFit (leadingZeroRows.map .constraint) := by
    refine ⟨fun o ho => ?_, by norm_num [leadingZeroRows], by decide +kernel⟩
    simp only [leadingZeroRows, List.map_cons, List.map_nil, List.mem_cons, List.not_mem_nil,
      or_false] at ho
    rcases ho with rfl | rfl <;> exact fits_noteRow _ (by decide +kernel)
  obtain ⟨bytes, rows, wits, henc, hdec, hops⟩ :=
    h (fun _ => none) [] (leadingZeroRows.map .constraint)
      (fun _ _ h => absurd h (by simp)) (Or.inl ⟨_, rfl⟩) hfit
  have hrun : (rollAndEncodeOpsCompact (leadingZeroRows.map .constraint) fun _ => none).map
      (fun bytes => decodeAndExpandOpsCompact bytes []) =
        .ok (.ok ([noteRow 1 "bit 7", noteRow 1 "bit 8"], [])) := by decide +kernel
  rw [henc] at hrun
  obtain ⟨rfl, rfl⟩ := Prod.mk.inj (Except.ok.inj (hdec.symm.trans (Except.ok.inj hrun)))
  exact absurd hops (by decide +kernel)

end Bytecode

end XarkCircuit
