import XarkCircuit.RowFile.Parse

/-!
Row files are read safely.

* `guarded_header`, `guarded_lcEntry`: on any bytes, the readers stop with an error message, never
  with an overflow, an access out of range or a large preallocation.
* `RowFile.Wf` is what `RowFile.parse` has checked; with it the arithmetic of `decodeWindow` is in
  range (`RowFile.Wf.decodeWindow_answers`).
* `Wf.decodeWindow_pieces` and `Wf.tiled`: a window that decodes ends where the next one starts, so
  the windows cut all bytes after the header in one piece for each linear combination.
* `row_file_safe` is the result: all that is left over is what follows a file of no rows.
-/

namespace XarkCircuit

open PosReader

/-! ### Errors -/

/-- An error message. -/
def Stop.Handled (e : Stop) : Prop := ∃ message, e = .err message

/-- A value or an error message. -/
def Answers {α : Type} (x : Except Stop α) : Prop := ∀ e, x = .error e → e.Handled

lemma handled_malformed : malformed.Handled := ⟨_, rfl⟩

lemma handled_malformedRow : malformedRow.Handled := ⟨_, rfl⟩

lemma Answers.bind {α β : Type} {x : Except Stop α} {f : α → Except Stop β} (h : Answers x)
    (hf : ∀ a, x = .ok a → Answers (f a)) : Answers (x >>= f) := by
  cases x with
  | error e =>
      intro e' he
      cases he
      exact h e rfl
  | ok a => exact hf a rfl

lemma Answers.test {α : Type} {T : Prop} [Decidable T] {x : Except Stop α} {e : Stop}
    (he : e.Handled) (h : ¬T → Answers x) : Answers (if T then .error e else x) := by
  split_ifs with hT
  · rintro e' ⟨⟩
    exact he
  · exact h hT

lemma Stop.bind_eq_ok {α β : Type} {x : Except Stop α} {f : α → Except Stop β} {y : β} :
    x >>= f = .ok y ↔ ∃ a, x = .ok a ∧ f a = .ok y := by
  cases x with
  | error e => exact iff_of_false (fun h => by cases h) fun ⟨a, h, _⟩ => by cases h
  | ok a =>
      constructor
      · exact fun h => ⟨a, rfl, h⟩
      · rintro ⟨a', h, hf⟩
        cases h
        exact hf

lemma Stop.test_eq_ok {α : Type} {T : Prop} [Decidable T] {x : Except Stop α} {e : Stop} {a : α} :
    (if T then .error e else x) = .ok a ↔ ¬T ∧ x = .ok a := by
  split_ifs with hT
  · exact iff_of_false (fun h => by cases h) fun h => h.1 hT
  · exact ⟨fun h => ⟨hT, h⟩, fun h => h.2⟩

lemma Answers.ok {α : Type} (a : α) : Answers (.ok a : Except Stop α) := fun e h => by cases h

/-! ### The readers -/

section Readers

variable {b : List UInt8} (hb : b.length < 2 ^ 63) {bad : Stop} (hbad : bad.Handled)
include hb

include hbad in
lemma guarded_getUv : Guarded Stop.Handled b (fun v => v < 2 ^ 64) (RowFile.getUv bad) :=
  guarded_uv hb hbad

include hbad in
lemma guarded_getU32 : Guarded Stop.Handled b (fun _ => True) (RowFile.getU32 bad) := by
  refine (guarded_getUv hb hbad).bind fun v _ => ?_
  split_ifs
  · exact Guarded.pure trivial
  · exact Guarded.throw hbad

lemma guarded_varEntries (n : ℕ) (vars : List (VarId × Bool)) :
    Guarded Stop.Handled b (fun _ => True) (varEntries n vars) := by
  induction n generalizing vars with
  | zero => exact Guarded.pure trivial
  | succ n ih =>
      refine (guarded_getU32 hb handled_malformed).bind fun id _ =>
        Guarded.test handled_malformed fun _ =>
          (guarded_take handled_malformed 1).bind fun bytes hlen => ?_
      cases bytes with
      | nil => cases hlen
      | cons visibility _ => exact Guarded.test handled_malformed fun _ => ih _

lemma guarded_poolEntry : Guarded Stop.Handled b (fun _ => True) poolEntry :=
  (guarded_getUv hb handled_malformed).bind fun l _ =>
    (guarded_take handled_malformed l).bind fun _ _ => Guarded.pure trivial

omit hb in
lemma guarded_offsetEntry : Guarded Stop.Handled b (fun _ => True) offsetEntry := by
  refine (guarded_take handled_malformed 8).bind fun o hlen => ?_
  rw [if_neg (not_not.mpr hlen)]
  exact Guarded.pure trivial

omit hb in
lemma guarded_bytesLeft : Guarded Stop.Handled b (fun n => n ≤ b.length) bytesLeft := by
  constructor
  · intro p n q hp h
    cases h
    exact ⟨hp, Nat.sub_le _ _⟩
  · intro p e _ h
    cases h

omit hb in
lemma guarded_fileLen : Guarded Stop.Handled b (fun n => n = b.length) fileLen := by
  constructor
  · intro p n q hp h
    cases h
    exact ⟨hp, rfl⟩
  · intro p e _ h
    cases h

omit hb in
/-- At most as many entries as the file has bytes. -/
lemma guarded_reserve {n : ℕ} (hn : n ≤ b.length) :
    Guarded Stop.Handled b (fun _ => True) (reserve n) := by
  constructor
  · intro p a q hp h
    rw [reserve, if_pos hn] at h
    cases h
    exact ⟨hp, trivial⟩
  · intro p e _ h
    rw [reserve, if_pos hn] at h
    cases h

/-- The header has an offset for each window. -/
lemma guarded_header : Guarded Stop.Handled b (fun h => 0 < h.window ∧
    h.offsets.length = (h.numRows + h.window - 1) / h.window) RowFile.header := by
  have hm := handled_malformed
  have huv := guarded_getUv hb hm
  refine huv.bind fun fl _ => (guarded_take hm fl).bind fun fingerprint _ => ?_
  split
  · exact Guarded.throw hm
  refine huv.bind fun nv _ => guarded_bytesLeft.bind fun left hleft =>
    Guarded.test hm fun hnv => guarded_fileLen.bind fun len hlen => ?_
  refine (guarded_reserve (by omega)).bind fun _ _ =>
    (guarded_reserve (by omega)).bind fun _ _ => ?_
  refine (guarded_varEntries hb nv []).bind fun vars _ => huv.bind fun np _ => ?_
  refine (guarded_reserve (by omega)).bind fun _ _ =>
    ((guarded_poolEntry hb).many np).bind fun pool _ => ?_
  refine huv.bind fun numRows _ => huv.bind fun window _ => huv.bind fun nw _ =>
    Guarded.test hm fun hnw => guarded_bytesLeft.bind fun left' hleft' => ?_
  refine Guarded.test hm fun hfit => (guarded_reserve (by omega)).bind fun _ _ => ?_
  refine (guarded_offsetEntry.many nw).bind fun offsets hoffsets => Guarded.pure ?_
  rw [not_or, not_not] at hnw
  exact ⟨Nat.pos_of_ne_zero hnw.1, hoffsets.1.trans hnw.2⟩

lemma guarded_termEntries {poolLen : ℕ} (n : ℕ) (var : VarId) {terms : List (VarId × Fin (2 ^ 32))}
    (hterms : ∀ t ∈ terms, t.2.val < poolLen) :
    Guarded Stop.Handled b (fun ts => ∀ t ∈ ts, t.2.val < poolLen)
      (termEntries poolLen n var terms) := by
  induction n generalizing var terms with
  | zero => exact Guarded.pure hterms
  | succ n ih =>
      refine (guarded_getU32 hb handled_malformedRow).bind fun delta _ => ?_
      split_ifs
      · refine (guarded_getU32 hb handled_malformedRow).bind fun c _ =>
          Guarded.test handled_malformedRow fun hc => ih _ fun t ht => ?_
        rcases List.mem_append.mp ht with ht | ht
        · exact hterms t ht
        · rw [List.mem_singleton.mp ht]
          exact Nat.not_le.mp hc
      · exact Guarded.throw handled_malformedRow

/-- What the callback gets has its indices in the pool. -/
lemma guarded_lcEntry (poolLen : ℕ) : Guarded Stop.Handled b (fun lc => lc.const.val < poolLen ∧
    ∀ t ∈ lc.terms, t.2.val < poolLen) (lcEntry poolLen) := by
  refine (guarded_getU32 hb handled_malformedRow).bind fun k _ =>
    (guarded_getUv hb handled_malformedRow).bind fun n _ =>
      (guarded_termEntries hb n 0 fun t ht => absurd ht List.not_mem_nil).bind
        fun terms hterms => ?_
  exact Guarded.test handled_malformedRow fun hk => Guarded.pure ⟨Nat.not_le.mp hk, hterms⟩

end Readers

/-! What a linear combination is read from is all that was looked at. -/

lemma spans_getU32 (bad : Stop) : Spans (RowFile.getU32 bad) := by
  refine (spans_uv bad .panic).bind fun v => ?_
  split_ifs
  · exact Spans.pure _
  · exact Spans.throw bad

lemma spans_termEntries (poolLen n : ℕ) (var : VarId) (terms : List (VarId × Fin (2 ^ 32))) :
    Spans (termEntries poolLen n var terms) := by
  induction n generalizing var terms with
  | zero => exact Spans.pure terms
  | succ n ih =>
      refine (spans_getU32 malformedRow).bind fun delta => ?_
      split_ifs
      · exact (spans_getU32 malformedRow).bind fun c => Spans.test (ih _ _)
      · exact Spans.throw malformedRow

lemma spans_lcEntry (poolLen : ℕ) : Spans (lcEntry poolLen) :=
  (spans_getU32 malformedRow).bind fun _ => (spans_uv malformedRow .panic).bind fun n =>
    (spans_termEntries poolLen n 0 []).bind fun _ => Spans.test (Spans.pure _)

/-! ### What has been checked -/

/-- What `RowFile.parse` has checked of the counts and the offsets. -/
structure RowFile.Wf (f : RowFile) : Prop where
  window_pos : 0 < f.window
  count : f.offsets.length = (f.numRows + f.window - 1) / f.window
  start_le : f.rowsStart ≤ f.bytes.data.length
  rows_le : f.numRows * 6 ≤ f.bytes.data.length - f.rowsStart
  offset_lt : ∀ o ∈ f.offsets, o < f.bytes.data.length - f.rowsStart
  first : ∀ o, f.offsets[0]? = some o → o = 0

lemma checkOffsets_answers (rowsLen : ℕ) (previous : Option ℕ) (offsets : List ℕ) :
    Answers (checkOffsets rowsLen previous offsets) := by
  induction offsets generalizing previous with
  | nil => exact Answers.ok ()
  | cons o offsets ih => exact Answers.test handled_malformed fun _ => ih _

lemma offset_lt_of_checkOffsets {rowsLen : ℕ} {previous : Option ℕ} {offsets : List ℕ}
    (h : checkOffsets rowsLen previous offsets = .ok ()) : ∀ o ∈ offsets, o < rowsLen := by
  induction offsets generalizing previous with
  | nil => exact fun o ho => absurd ho List.not_mem_nil
  | cons o offsets ih =>
      rw [checkOffsets] at h
      split_ifs at h with hbad
      intro o' ho
      rcases List.mem_cons.mp ho with rfl | ho
      · exact Nat.not_le.mp fun hle => hbad (Or.inl hle)
      · exact ih h o' ho

/-- **Parsing any bytes** returns a file or an error message. -/
lemma RowFile.parse_answers (bytes : FileBytes) : Answers (RowFile.parse bytes) := by
  refine Answers.test ⟨_, rfl⟩ fun hmagic => ?_
  have hlen : 4 ≤ bytes.data.length := Nat.not_lt.mp fun h => hmagic (Or.inl h)
  have hheader : Answers (RowFile.header bytes.data 4) := fun e he =>
    (guarded_header bytes.fits).stops 4 e hlen he
  refine hheader.bind fun x _ => Answers.test handled_malformed fun _ =>
    Answers.test handled_malformed fun _ => (checkOffsets_answers _ _ _).bind fun _ _ =>
      Answers.test handled_malformed fun _ => Answers.ok _

/-- The parts of a parsed file. -/
lemma RowFile.parse_eq_ok {bytes : FileBytes} {f : RowFile} (h : RowFile.parse bytes = .ok f) :
    f.Wf ∧ f.bytes = bytes ∧ bytes.data.take 4 = rowMagic ∧
      RowFile.header bytes.data 4 = .ok (f.toRowHeader, f.rowsStart) := by
  obtain ⟨hmagic, h⟩ := Stop.test_eq_ok.mp h
  obtain ⟨⟨hd, p⟩, hheader, h⟩ := Stop.bind_eq_ok.mp h
  obtain ⟨-, h⟩ := Stop.test_eq_ok.mp h
  obtain ⟨hrows, h⟩ := Stop.test_eq_ok.mp h
  obtain ⟨_, hoffsets, h⟩ := Stop.bind_eq_ok.mp h
  obtain ⟨hfirst, h⟩ := Stop.test_eq_ok.mp h
  cases h
  rw [not_or, not_not] at hmagic
  obtain ⟨hp, hwindow, hcount⟩ := (guarded_header bytes.fits).returns 4 hd p
    (Nat.not_lt.mp hmagic.1) hheader
  refine ⟨⟨hwindow, hcount, hp, ?_, offset_lt_of_checkOffsets hoffsets, ?_⟩, rfl, hmagic.2, hheader⟩
  · exact Nat.not_lt.mp fun hlt => hrows (Or.inr hlt)
  · intro o ho
    by_contra hne
    refine hfirst ?_
    rw [List.head?_eq_getElem?, ho]
    simpa using hne

/-- A window starts at one of the rows. -/
lemma RowFile.Wf.mul_lt {f : RowFile} (hf : f.Wf) {w : ℕ} (hw : w < f.offsets.length) :
    w * f.window < f.numRows := by
  have hpos := hf.window_pos
  rw [hf.count, Nat.lt_div_iff_mul_lt hpos] at hw
  omega

lemma RowFile.Wf.numRows_le {f : RowFile} (hf : f.Wf) :
    f.numRows ≤ f.offsets.length * f.window := by
  have hpos := hf.window_pos
  rw [hf.count]
  have := Nat.lt_div_mul_add (a := f.numRows + f.window - 1) hpos
  omega

/-- **Decoding a window** of a parsed file returns its rows or an error message. -/
lemma RowFile.Wf.decodeWindow_answers {f : RowFile} (hf : f.Wf) (w : ℕ) :
    Answers (f.decodeWindow w) := by
  rw [RowFile.decodeWindow]
  split
  · exact fun e he => by cases he; exact ⟨_, rfl⟩
  rename_i offset hoffset
  obtain ⟨hw, rfl⟩ := List.getElem?_eq_some_iff.mp hoffset
  have hfits := f.bytes.fits
  have hstart := hf.start_le
  have hrows := hf.rows_le
  have hlt := hf.mul_lt hw
  have hin := hf.offset_lt _ (List.getElem_mem hw)
  have hmin : min f.window (f.numRows - w * f.window) ≤ f.numRows :=
    (Nat.min_le_right _ _).trans (Nat.sub_le _ _)
  refine Answers.test handled_malformedRow fun _ => ?_
  have hmul : mul64 w f.window = .ok (w * f.window) := if_pos (by omega)
  have hsub : sub64 f.numRows (w * f.window) = .ok (f.numRows - w * f.window) := if_pos hlt.le
  have hthree : mul64 (min f.window (f.numRows - w * f.window)) 3
      = .ok (min f.window (f.numRows - w * f.window) * 3) := if_pos (by omega)
  rw [hmul]
  refine (Answers.ok _).bind fun _ h => ?_
  cases h
  rw [hsub]
  refine (Answers.ok _).bind fun _ h => ?_
  cases h
  rw [hthree]
  refine (Answers.ok _).bind fun _ h => ?_
  cases h
  refine Answers.bind (fun e he => ((guarded_lcEntry hfits f.pool.length).many _).stops _ e
    (by omega) he) fun x _ => Answers.test handled_malformedRow fun _ => ?_
  refine Answers.bind ?_ fun expected _ => Answers.test handled_malformedRow fun _ => Answers.ok _
  rw [RowFile.expectedEnd]
  split
  · exact Answers.ok _
  · rw [sub64, if_pos hstart]
    exact Answers.ok _

/-! ### The windows tile the rows -/

/-- Where window `w` starts among the rows; past the last window, where the rows end. -/
def RowFile.boundary (f : RowFile) (w : ℕ) : ℕ :=
  (f.offsets[w]?).getD (f.bytes.data.length - f.rowsStart)

/-- How many rows window `w` has. -/
def RowFile.rowsOf (f : RowFile) (w : ℕ) : ℕ := min f.window (f.numRows - w * f.window)

/-- **One window** is cut in one piece for each of its linear combinations, and ends where the next
one starts. -/
lemma RowFile.Wf.decodeWindow_pieces {f : RowFile} (hf : f.Wf) {w : ℕ} {lcs : List PooledLc}
    (h : f.decodeWindow w = .ok lcs) :
    ∃ pieces : List (List UInt8),
      List.Forall₂ (PosReader.Reads (lcEntry f.pool.length)) pieces lcs ∧
      f.bytes.data.drop (f.rowsStart + f.boundary w)
        = pieces.flatten ++ f.bytes.data.drop (f.rowsStart + f.boundary (w + 1)) ∧
      f.boundary (w + 1) = f.boundary w + pieces.flatten.length ∧
      lcs.length = f.rowsOf w * 3 ∧
      ∀ lc ∈ lcs, lc.const.val < f.pool.length ∧ ∀ t ∈ lc.terms, t.2.val < f.pool.length := by
  have hfits := f.bytes.fits
  have hstart := hf.start_le
  rw [RowFile.decodeWindow] at h
  split at h
  · cases h
  rename_i offset hoffset
  obtain ⟨hw, rfl⟩ := List.getElem?_eq_some_iff.mp hoffset
  have hin := hf.offset_lt _ (List.getElem_mem hw)
  have hboundary : f.boundary w = f.offsets[w] := by
    rw [RowFile.boundary, hoffset, Option.getD_some]
  obtain ⟨-, h⟩ := Stop.test_eq_ok.mp h
  obtain ⟨before, hbefore, h⟩ := Stop.bind_eq_ok.mp h
  obtain ⟨rows, hrows, h⟩ := Stop.bind_eq_ok.mp h
  obtain ⟨count, hcount, h⟩ := Stop.bind_eq_ok.mp h
  obtain ⟨⟨lcs', p⟩, hmany, h⟩ := Stop.bind_eq_ok.mp h
  obtain ⟨hp, h⟩ := Stop.test_eq_ok.mp h
  obtain ⟨expected, hexpected, h⟩ := Stop.bind_eq_ok.mp h
  obtain ⟨hend, h⟩ := Stop.test_eq_ok.mp h
  cases h
  rw [not_not] at hend
  have hcount : count = f.rowsOf w * 3 := by
    rw [mul64] at hbefore hcount
    rw [sub64] at hrows
    split_ifs at hbefore hrows hcount
    cases hbefore
    cases hrows
    cases hcount
    rfl
  have hnext : expected = f.boundary (w + 1) := by
    rw [RowFile.expectedEnd] at hexpected
    rw [RowFile.boundary]
    split at hexpected
    · rename_i o ho
      cases hexpected
      rw [ho, Option.getD_some]
    · rename_i ho
      rw [sub64, if_pos hstart] at hexpected
      cases hexpected
      rw [ho, Option.getD_none]
  obtain ⟨pieces, hpieces, hdrop, hq⟩ := many_pieces (spans_lcEntry f.pool.length) hfits
    (by omega) hmany
  have hreturns := ((guarded_lcEntry hfits f.pool.length).many count).returns _ _ _ (by omega) hmany
  have hpos : p = f.rowsStart + f.boundary (w + 1) := by omega
  refine ⟨pieces, hpieces, ?_, by omega, hreturns.2.1.trans hcount, hreturns.2.2⟩
  rw [hboundary, hdrop, hpos]

/-- All windows decode, window `w` to entry `w` of `outs`. -/
def RowFile.Decodes (f : RowFile) (outs : List (List PooledLc)) : Prop :=
  List.Forall₂ (fun w lcs => f.decodeWindow w = .ok lcs) (List.range f.offsets.length) outs

/-- The windows tile the bytes after the header: in pieces, one for each linear combination, which
is read off its piece whatever is around it; window `w` starts where its offset says. -/
structure RowFile.Tiled (f : RowFile) (outs : List (List PooledLc)) : Prop where
  tile : ∃ pieces : List (List (List UInt8)),
    List.Forall₂ (List.Forall₂ (PosReader.Reads (lcEntry f.pool.length))) pieces outs ∧
    f.bytes.data.drop f.rowsStart = pieces.flatten.flatten ∧
    ∀ w o, f.offsets[w]? = some o → o = (pieces.take w).flatten.flatten.length
  count : outs.flatten.length = f.numRows * 3
  in_pool : ∀ lc ∈ outs.flatten,
    lc.const.val < f.pool.length ∧ ∀ t ∈ lc.terms, t.2.val < f.pool.length

/-- **A run of windows**, from window `s` on. -/
lemma RowFile.Wf.run_pieces {f : RowFile} (hf : f.Wf) {n s : ℕ} {outs : List (List PooledLc)}
    (h : List.Forall₂ (fun w lcs => f.decodeWindow w = .ok lcs) (List.range' s n) outs) :
    ∃ pieces : List (List (List UInt8)),
      List.Forall₂ (List.Forall₂ (PosReader.Reads (lcEntry f.pool.length))) pieces outs ∧
      f.bytes.data.drop (f.rowsStart + f.boundary s)
        = pieces.flatten.flatten ++ f.bytes.data.drop (f.rowsStart + f.boundary (s + n)) ∧
      (∀ i ≤ n, f.boundary (s + i) = f.boundary s + (pieces.take i).flatten.flatten.length) ∧
      outs.flatten.length + (f.numRows - (s + n) * f.window) * 3
        = (f.numRows - s * f.window) * 3 ∧
      ∀ lc ∈ outs.flatten,
        lc.const.val < f.pool.length ∧ ∀ t ∈ lc.terms, t.2.val < f.pool.length := by
  induction n generalizing s outs with
  | zero =>
      cases h
      refine ⟨[], .nil, rfl, fun i hi => ?_, ?_, fun lc hlc => absurd hlc List.not_mem_nil⟩
      · rw [Nat.le_zero.mp hi]
        rfl
      · rw [List.flatten_nil, List.length_nil, Nat.zero_add, Nat.add_zero]
  | succ n ih =>
      rw [List.range'_succ] at h
      obtain ⟨lcs, outs', hw, hrest, rfl⟩ := List.forall₂_cons_left_iff.mp h
      obtain ⟨ps, hps, hdrop, hnext, hcount, hpool⟩ := hf.decodeWindow_pieces hw
      obtain ⟨pieces, hpieces, hdrop', hstarts, hcount', hpool'⟩ := ih hrest
      have hshift : s + 1 + n = s + (n + 1) := by omega
      rw [hshift] at hdrop' hcount'
      refine ⟨ps :: pieces, .cons hps hpieces, ?_, fun i hi => ?_, ?_, fun lc hlc => ?_⟩
      · rw [hdrop, hdrop', List.flatten_cons, List.flatten_append, List.append_assoc]
      · cases i with
        | zero => rfl
        | succ i =>
            have hi' := hstarts i (by omega)
            rw [show s + 1 + i = s + (i + 1) by omega] at hi'
            rw [hi', hnext, List.take_succ_cons, List.flatten_cons, List.flatten_append,
              List.length_append, Nat.add_assoc]
      · rw [List.flatten_cons, List.length_append, hcount, RowFile.rowsOf]
        have hmul : (s + 1) * f.window = s * f.window + f.window := Nat.succ_mul _ _
        rw [hmul] at hcount'
        omega
      · rcases List.mem_append.mp hlc with hlc | hlc
        · exact hpool lc hlc
        · exact hpool' lc hlc

/-- **The windows tile the rows**, unless there is no window and a byte. -/
lemma RowFile.Wf.tiled {f : RowFile} (hf : f.Wf)
    (hrows : f.numRows = 0 → f.rowsStart = f.bytes.data.length) {outs : List (List PooledLc)}
    (h : f.Decodes outs) : f.Tiled outs := by
  rw [RowFile.Decodes, List.range_eq_range'] at h
  obtain ⟨pieces, hpieces, hdrop, hstarts, hcount, hpool⟩ := hf.run_pieces h
  have hstart := hf.start_le
  have hall := hf.numRows_le
  have hzero : f.boundary 0 = 0 := by
    rw [RowFile.boundary]
    cases hfirst : f.offsets[0]? with
    | some o => exact hf.first o hfirst
    | none =>
        have hlen : f.offsets.length = 0 := Nat.le_zero.mp (List.getElem?_eq_none_iff.mp hfirst)
        rw [hlen, Nat.zero_mul] at hall
        rw [Option.getD_none, hrows (Nat.le_zero.mp hall), Nat.sub_self]
  have hlast : f.boundary (0 + f.offsets.length) = f.bytes.data.length - f.rowsStart := by
    rw [RowFile.boundary, List.getElem?_eq_none (by omega), Option.getD_none]
  refine ⟨⟨pieces, hpieces, ?_, fun w o ho => ?_⟩, ?_, hpool⟩
  · rw [hzero, hlast, Nat.add_zero, Nat.add_sub_cancel' hstart, List.drop_length,
      List.append_nil] at hdrop
    exact hdrop
  · obtain ⟨hw, -⟩ := List.getElem?_eq_some_iff.mp ho
    have hb := hstarts w hw.le
    rwa [hzero, Nat.zero_add, Nat.zero_add, RowFile.boundary, ho, Option.getD_some] at hb
  · rw [Nat.zero_add, Nat.sub_eq_zero_of_le hall, Nat.zero_mul, Nat.zero_mul, Nat.sub_zero,
      Nat.add_zero] at hcount
    exact hcount

/-! ### The result -/

/-- Parsing, and decoding any window of what was parsed, return a value or an error message; when
all windows decode, they tile the bytes after the header. -/
def RowFile.ReadSafely (bytes : FileBytes) : Prop :=
  Answers (RowFile.parse bytes) ∧ ∀ f, RowFile.parse bytes = .ok f →
    (∀ w, Answers (f.decodeWindow w)) ∧ ∀ outs, f.Decodes outs → f.Tiled outs

/-- The header declares no rows, and something follows it. -/
def RowFile.NoRowsThenBytes (bytes : FileBytes) : Prop :=
  bytes.data.take 4 = rowMagic ∧ ∃ h p, RowFile.header bytes.data 4 = .ok (h, p) ∧
    h.numRows = 0 ∧ p < bytes.data.length

/-- A file of no rows is accepted whatever follows it. -/
lemma RowFile.not_readSafely {bytes : FileBytes} (h : RowFile.NoRowsThenBytes bytes) :
    ¬RowFile.ReadSafely bytes := by
  obtain ⟨hmagic, hd, p, hheader, hrows, hp⟩ := h
  have hlen : 4 ≤ bytes.data.length := by
    have hfour := congrArg List.length hmagic
    rw [List.length_take] at hfour
    exact min_eq_left_iff.mp hfour
  obtain ⟨-, hwindow, hcount⟩ := (guarded_header bytes.fits).returns 4 hd p hlen hheader
  have hoffsets : hd.offsets = [] := by
    rw [hrows, Nat.zero_add, Nat.div_eq_of_lt (by omega)] at hcount
    exact List.length_eq_zero_iff.mp hcount
  have hparse : RowFile.parse bytes = .ok { hd with bytes := bytes, rowsStart := p } := by
    refine Stop.test_eq_ok.mpr ⟨?_, Stop.bind_eq_ok.mpr ⟨_, hheader, ?_⟩⟩
    · exact not_or.mpr ⟨Nat.not_lt.mpr hlen, not_not.mpr hmagic⟩
    · refine Stop.test_eq_ok.mpr ⟨Nat.not_lt.mpr hp.le, Stop.test_eq_ok.mpr ⟨by omega, ?_⟩⟩
      refine Stop.bind_eq_ok.mpr ⟨(), ?_, Stop.test_eq_ok.mpr ⟨?_, rfl⟩⟩
      · rw [hoffsets]
        rfl
      · rw [hoffsets]
        exact Bool.false_ne_true
  intro hsafe
  have hempty : List.Forall₂ (fun w lcs =>
      RowFile.decodeWindow { hd with bytes := bytes, rowsStart := p } w = .ok lcs)
      (List.range hd.offsets.length) [] := by
    rw [hoffsets]
    exact .nil
  obtain ⟨pieces, hpieces, hdrop, -⟩ := ((hsafe.2 _ hparse).2 [] hempty).tile
  cases hpieces
  have hlen' := congrArg List.length hdrop
  rw [List.length_drop] at hlen'
  simp only [List.flatten_nil, List.length_nil] at hlen'
  omega

/-- **Row files are read safely**: on all bytes but a file of no rows with something after it. -/
theorem row_file_safe (bytes : FileBytes) :
    RowFile.ReadSafely bytes ↔ ¬RowFile.NoRowsThenBytes bytes := by
  refine ⟨fun h hno => RowFile.not_readSafely hno h, fun h => ?_⟩
  refine ⟨RowFile.parse_answers bytes, fun f hparse => ?_⟩
  obtain ⟨hwf, hbytes, hmagic, hheader⟩ := RowFile.parse_eq_ok hparse
  refine ⟨hwf.decodeWindow_answers, fun outs hall => hwf.tiled (fun hrows => ?_) hall⟩
  have hstart := hwf.start_le
  rw [hbytes] at hstart ⊢
  by_contra hne
  exact h ⟨hmagic, f.toRowHeader, f.rowsStart, hheader, hrows, by omega⟩

/-- The header of a file of no rows, and one byte. -/
def emptyThenByte : FileBytes := ⟨[0x58, 0x52, 0x53, 0x31, 0, 0, 0, 0, 1, 0, 0xff], by decide⟩

/-- **One byte is left over.** -/
theorem row_file_leaves_byte : ¬RowFile.ReadSafely emptyThenByte :=
  RowFile.not_readSafely ⟨rfl, ⟨"", [], [], 0, 1, []⟩, 10, by rfl, rfl, by decide⟩

end XarkCircuit
