import XarkCircuit.RowFile.ReadBack
import XarkCircuit.RowFile.Safe

/-!
Row files are read back.

* `parse_encode` and `decodes_encode`: the written file parses, and window by window its rows decode
  to the codes of what was written.
* `roundTrips_iff`: the codes stand for the constants exactly when the places in the pool fit in 32
  bits; `row_file_round_trips` is the result.
* `row_file_pool_overflows`: one side with `2 ^ 32` coefficients does not come back.
-/

namespace XarkCircuit

open PosReader
open Codec (putVarint leBytes length_leBytes length_putVarint_pos)

/-! ### The file -/

/-- The constants of a program. -/
def R1csProgram.coeffs (prog : R1csProgram) : List FieldConst :=
  prog.constraints.flatMap R1csConstraint.coeffs

/-- The constants of a program are those of its linear combinations. -/
lemma mem_coeffs {prog : R1csProgram} {f : FieldConst} : f ∈ prog.coeffs ↔
    ∃ l ∈ prog.constraints.flatMap R1csConstraint.lcs, f ∈ l.coeffs := by
  have hrow : ∀ c : R1csConstraint, c.coeffs = c.lcs.flatMap LinearCombination.coeffs := fun c => by
    simp [R1csConstraint.coeffs, R1csConstraint.lcs]
  rw [R1csProgram.coeffs, funext hrow, ← List.flatMap_assoc, List.mem_flatMap]

section Written

variable (S : UnstableSort) (fingerprint : String) (prog : R1csProgram)

/-- The pool at the end of the loop over the rows. -/
def R1csProgram.finalPool : Pool := (putRows S prog.constraints).pool

/-- The bytes of some of the rows, by the codes of the final pool. -/
def R1csProgram.bytesOf (rows : List R1csConstraint) : List UInt8 :=
  rows.flatMap (rowBytes S (prog.finalPool S).code)

/-- How many windows there are. -/
def R1csProgram.numWindows : ℕ := (prog.constraints.length + (windowRows - 1)) / windowRows

lemma rows_putRows : (putRows S prog.constraints).rows = prog.bytesOf S prog.constraints :=
  (rowsEncoded_putRows S prog.constraints).rows _ List.prefix_rfl

lemma offsets_putRows : (putRows S prog.constraints).offsets = (List.range prog.numWindows).map
    fun w => (prog.bytesOf S (prog.constraints.take (windowRows * w))).length :=
  (rowsEncoded_putRows S prog.constraints).offsets _ List.prefix_rfl

/-- The code of a constant of the program is a place in the pool. -/
lemma code_lt {f : FieldConst} (hf : f ∈ prog.coeffs) :
    ((prog.finalPool S).code f).val < (prog.finalPool S).vals.length := by
  have hmem := (rowsEncoded_putRows S prog.constraints).grown.mem f hf
  exact (Nat.mod_le _ _).trans_lt (List.idxOf_lt_length_of_mem hmem)

lemma length_lcBytes (code : FieldConst → Fin (2 ^ 32)) (l : LinearCombination) :
    2 ≤ (lcBytes S code l).length := by
  have h1 := length_putVarint_pos (code l.constant).val
  have h2 := length_putVarint_pos (S.sort (codedTerms code l.terms)).length
  rw [lcBytes, List.length_append, List.length_append]
  omega

lemma length_rowBytes (code : FieldConst → Fin (2 ^ 32)) (c : R1csConstraint) :
    6 ≤ (rowBytes S code c).length :=
  mul_le_length_flatMap c.lcs fun l _ => length_lcBytes S code l

lemma length_bytesOf (rows : List R1csConstraint) :
    rows.length * 6 ≤ (prog.bytesOf S rows).length :=
  mul_le_length_flatMap rows fun c _ => length_rowBytes S _ c

/-- The bytes of the first rows, window by window. -/
lemma bytesOf_take_add (i j : ℕ) : prog.bytesOf S (prog.constraints.take (i + j))
    = prog.bytesOf S (prog.constraints.take i)
      ++ prog.bytesOf S ((prog.constraints.drop i).take j) := by
  rw [R1csProgram.bytesOf, List.take_add, List.flatMap_append]
  rfl

/-- The rows before a window take fewer bytes than all rows. -/
lemma length_bytesOf_take_lt {i : ℕ} (hi : i < prog.constraints.length) :
    (prog.bytesOf S (prog.constraints.take i)).length
      < (prog.bytesOf S prog.constraints).length := by
  have hsplit := bytesOf_take_add S prog i (prog.constraints.length - i)
  have hrest := length_bytesOf S prog
    ((prog.constraints.drop i).take (prog.constraints.length - i))
  rw [Nat.add_sub_cancel' hi.le, List.take_length] at hsplit
  rw [hsplit, List.length_append]
  rw [List.length_take, List.length_drop, Nat.min_self] at hrest
  omega

lemma lt_numWindows {w : ℕ} : w < prog.numWindows ↔ windowRows * w < prog.constraints.length := by
  have hpos : windowRows = 4096 := rfl
  rw [R1csProgram.numWindows, hpos]
  omega

/-- The number of the terms of a combination is below the number of bytes it takes. -/
lemma length_terms_lt (code : FieldConst → Fin (2 ^ 32)) (l : LinearCombination) :
    l.terms.length < (lcBytes S code l).length := by
  have hterms : ∀ (ts : List (VarId × Fin (2 ^ 32))) (prev : VarId),
      ts.length ≤ (putTerms prev ts).length := by
    intro ts
    induction ts with
    | nil => exact fun _ => le_rfl
    | cons t ts ih =>
        intro prev
        have hone := length_putVarint_pos (t.1 - prev).val
        have hrest := ih t.1
        rw [putTerms, List.length_append, List.length_append, List.length_cons]
        omega
  have h1 := length_putVarint_pos (code l.constant).val
  have h2 := hterms (S.sort (codedTerms code l.terms)) 0
  have h3 := (S.perm (codedTerms code l.terms)).length_eq
  rw [codedTerms, List.length_map] at h3
  rw [lcBytes, List.length_append, List.length_append]
  rw [codedTerms] at h2 ⊢
  omega

/-- **The rows of a window are read back** as their codes. -/
lemma reads_rows {rows : List R1csConstraint} (hrows : ∀ c ∈ rows, c ∈ prog.constraints)
    (hlen : (prog.bytesOf S rows).length < 2 ^ 64) :
    PosReader.Reads (PosReader.many (lcEntry (prog.finalPool S).vals.length) (rows.length * 3))
      (prog.bytesOf S rows)
      ((rows.flatMap R1csConstraint.lcs).map (codedLc S (prog.finalPool S).code)) := by
  have hbytes : prog.bytesOf S rows
      = ((rows.flatMap R1csConstraint.lcs).map (lcBytes S (prog.finalPool S).code)).flatten := by
    rw [R1csProgram.bytesOf, ← List.flatMap_def, List.flatMap_assoc]
    rfl
  have hcount : ((rows.flatMap R1csConstraint.lcs).map
      (codedLc S (prog.finalPool S).code)).length = rows.length * 3 := by
    rw [List.length_map, List.length_flatMap]
    simp [R1csConstraint.lcs]
  rw [hbytes] at hlen ⊢
  rw [← hcount]
  refine reads_many ?_
  rw [List.forall₂_map_left_iff, List.forall₂_map_right_iff, List.forall₂_same]
  intro l hl
  refine reads_lcEntry S (fun f hf => code_lt S prog ?_) ?_
  · obtain ⟨c, hc, hlc⟩ := List.mem_flatMap.mp hl
    exact mem_coeffs.mpr ⟨l, List.mem_flatMap.mpr ⟨c, hrows c hc, hlc⟩, hf⟩
  · have hsub := List.sublist_flatten_of_mem
      (List.mem_map_of_mem (f := lcBytes S (prog.finalPool S).code) hl)
    exact ((length_terms_lt S _ l).trans_le hsub.length_le).trans hlen

variable (hfits : (RowFile.encode S fingerprint prog).length < 2 ^ 63)

/-- The file that is written. -/
def R1csProgram.written : RowFile where
  fingerprint := fingerprint
  vars := prog.varList
  pool := (prog.finalPool S).vals.map ofPoolBytes
  numRows := prog.constraints.length
  window := windowRows
  offsets := (putRows S prog.constraints).offsets
  bytes := ⟨RowFile.encode S fingerprint prog, hfits⟩
  rowsStart := 4 + (putHeader fingerprint prog (putRows S prog.constraints)).length

/-- The bytes of the written file. -/
lemma encode_eq : RowFile.encode S fingerprint prog = rowMagic ++
    (putHeader fingerprint prog (putRows S prog.constraints)
      ++ prog.bytesOf S prog.constraints) := by
  rw [← rows_putRows]
  rfl

lemma checkOffsets_ok {rowsLen : ℕ} {offsets : List ℕ} {previous : Option ℕ}
    (hlt : ∀ o ∈ offsets, o < rowsLen) (hsorted : offsets.Pairwise (· < ·))
    (hprev : ∀ q ∈ previous, ∀ o ∈ offsets, q < o) :
    checkOffsets rowsLen previous offsets = .ok () := by
  induction offsets generalizing previous with
  | nil => rfl
  | cons o offsets ih =>
      obtain ⟨hhead, htail⟩ := List.pairwise_cons.mp hsorted
      rw [checkOffsets, if_neg]
      · exact ih (fun o' ho' => hlt o' (List.mem_cons_of_mem _ ho')) htail fun q hq => by
          cases hq
          exact hhead
      · rw [not_or]
        refine ⟨Nat.not_le.mpr (hlt o List.mem_cons_self), ?_⟩
        cases previous with
        | none => exact Bool.false_ne_true
        | some q => simpa using hprev q rfl o List.mem_cons_self

/-- The offsets increase, from zero, below the length of the rows. -/
lemma checkOffsets_putRows : checkOffsets (prog.bytesOf S prog.constraints).length none
    (putRows S prog.constraints).offsets = .ok () := by
  rw [offsets_putRows]
  refine checkOffsets_ok (fun o ho => ?_) ?_ fun q hq => by cases hq
  · obtain ⟨w, hw, rfl⟩ := List.mem_map.mp ho
    exact length_bytesOf_take_lt S prog ((lt_numWindows prog).mp (List.mem_range.mp hw))
  · rw [List.pairwise_map]
    refine (List.pairwise_lt_range).imp_of_mem fun {v w} _ hw hlt => ?_
    -- there are rows between the starts of two windows
    have hwn := (lt_numWindows prog).mp (List.mem_range.mp hw)
    have hpos : windowRows = 4096 := rfl
    have hsplit := bytesOf_take_add S prog (windowRows * v) (windowRows * w - windowRows * v)
    have hrest := length_bytesOf S prog
      ((prog.constraints.drop (windowRows * v)).take (windowRows * w - windowRows * v))
    rw [List.length_take, List.length_drop] at hrest
    rw [Nat.add_sub_cancel' (Nat.mul_le_mul_left _ hlt.le)] at hsplit
    rw [hsplit, List.length_append]
    rw [hpos] at hrest hwn ⊢
    omega

lemma length_encode : (RowFile.encode S fingerprint prog).length
    = (prog.written S fingerprint hfits).rowsStart + (prog.bytesOf S prog.constraints).length := by
  rw [encode_eq, List.length_append, List.length_append, ← Nat.add_assoc]
  rfl

/-- **The written file parses.** -/
lemma parse_encode (hids : (prog.vars.map Variable.id).Nodup) :
    RowFile.parse ⟨RowFile.encode S fingerprint prog, hfits⟩
      = .ok (prog.written S fingerprint hfits) := by
  have hlen := length_encode S fingerprint prog hfits
  have hrows := length_bytesOf S prog prog.constraints
  have hstart : (prog.written S fingerprint hfits).rowsStart
    = 4 + (putHeader fingerprint prog (putRows S prog.constraints)).length := rfl
  have hheader : RowFile.header (RowFile.encode S fingerprint prog) 4
      = .ok ((prog.written S fingerprint hfits).toRowHeader,
        (prog.written S fingerprint hfits).rowsStart) := by
    have hvars : prog.varList.map Prod.fst = prog.vars.map Variable.id := by
      rw [R1csProgram.varList, List.map_map]
      rfl
    have hcount : (putRows S prog.constraints).offsets.length
        = (prog.constraints.length + windowRows - 1) / windowRows := by
      rw [offsets_putRows, List.length_map, List.length_range]
      rfl
    have hoffsets : ∀ o ∈ (putRows S prog.constraints).offsets, o < 2 ^ 63 := by
      rw [offsets_putRows]
      intro o ho
      obtain ⟨w, hw, rfl⟩ := List.mem_map.mp ho
      have := length_bytesOf_take_lt S prog ((lt_numWindows prog).mp (List.mem_range.mp hw))
      omega
    have hsmall : (putHeader fingerprint prog (putRows S prog.constraints)).length < 2 ^ 63 := by
      omega
    have hreads := reads_header (hvars ▸ hids) hsmall (by omega) hcount hoffsets
      rowMagic (prog.bytesOf S prog.constraints) (by rw [← encode_eq]; exact hfits)
    rw [← encode_eq] at hreads
    exact hreads
  refine Stop.test_eq_ok.mpr ⟨?_, Stop.bind_eq_ok.mpr ⟨_, hheader, ?_⟩⟩
  · change ¬((RowFile.encode S fingerprint prog).length < 4
      ∨ (RowFile.encode S fingerprint prog).take 4 ≠ rowMagic)
    rw [encode_eq]
    exact not_or.mpr ⟨by simp [rowMagic], by simp [rowMagic]⟩
  have hrowsLen : (RowFile.encode S fingerprint prog).length
      - (prog.written S fingerprint hfits).rowsStart
      = (prog.bytesOf S prog.constraints).length := by omega
  refine Stop.test_eq_ok.mpr ⟨by simp only; omega, ?_⟩
  simp only [hrowsLen]
  have hnum : (prog.written S fingerprint hfits).numRows = prog.constraints.length := rfl
  refine Stop.test_eq_ok.mpr ⟨by rw [hnum]; omega, ?_⟩
  refine Stop.bind_eq_ok.mpr ⟨(), checkOffsets_putRows S prog, Stop.test_eq_ok.mpr ⟨?_, rfl⟩⟩
  have hoff : (prog.written S fingerprint hfits).offsets
    = (putRows S prog.constraints).offsets := rfl
  rw [hoff, offsets_putRows]
  cases prog.numWindows with
  | zero => exact Bool.false_ne_true
  | succ n =>
      rw [List.range_succ_eq_map, List.map_cons]
      exact Bool.false_ne_true

/-- The rows before window `w`, and the rows of window `w`. -/
def R1csProgram.rowsBefore (w : ℕ) : List R1csConstraint := prog.constraints.take (windowRows * w)

def R1csProgram.rowsIn (w : ℕ) : List R1csConstraint :=
  (prog.constraints.drop (windowRows * w)).take windowRows

/-- What the callback gets in window `w`. -/
def R1csProgram.windowLcs (w : ℕ) : List PooledLc :=
  ((prog.rowsIn w).flatMap R1csConstraint.lcs).map (codedLc S (prog.finalPool S).code)

lemma length_rowsIn (w : ℕ) :
    (prog.rowsIn w).length = min windowRows (prog.constraints.length - w * windowRows) := by
  rw [R1csProgram.rowsIn, List.length_take, List.length_drop, Nat.mul_comm]

/-- The next window starts where this one ends. -/
lemma bytesOf_rowsBefore_succ (w : ℕ) : prog.bytesOf S (prog.rowsBefore (w + 1))
    = prog.bytesOf S (prog.rowsBefore w) ++ prog.bytesOf S (prog.rowsIn w) :=
  bytesOf_take_add S prog (windowRows * w) windowRows

/-- The bytes of the rows, cut around window `w`. -/
lemma bytesOf_split (w : ℕ) : prog.bytesOf S prog.constraints = prog.bytesOf S (prog.rowsBefore w)
    ++ (prog.bytesOf S (prog.rowsIn w)
      ++ prog.bytesOf S (prog.constraints.drop (windowRows * (w + 1)))) := by
  rw [← List.append_assoc, ← bytesOf_rowsBefore_succ]
  simp only [R1csProgram.bytesOf, R1csProgram.rowsBefore]
  rw [← List.flatMap_append, List.take_append_drop]

/-- The offset of a window, if there is one. -/
lemma offsets_getElem? (w : ℕ) : (putRows S prog.constraints).offsets[w]?
    = if w < prog.numWindows then some (prog.bytesOf S (prog.rowsBefore w)).length else none := by
  rw [offsets_putRows, List.getElem?_map]
  split_ifs with hw
  · rw [List.getElem?_range hw, Option.map_some]
    rfl
  · rw [List.getElem?_eq_none (by simpa using hw), Option.map_none]

/-- Where a window of the written file has to end. -/
lemma expectedEnd_written (w : ℕ) : (prog.written S fingerprint hfits).expectedEnd w
    = .ok (prog.bytesOf S (prog.rowsBefore (w + 1))).length := by
  have hlen := length_encode S fingerprint prog hfits
  have hoff : (prog.written S fingerprint hfits).offsets[w + 1]? = _ :=
    offsets_getElem? S prog (w + 1)
  rw [RowFile.expectedEnd, hoff]
  split_ifs with hlast
  · rfl
  · have hall : prog.rowsBefore (w + 1) = prog.constraints :=
      List.take_of_length_le (Nat.not_lt.mp fun h => hlast ((lt_numWindows prog).mpr h))
    have hdata : (prog.written S fingerprint hfits).bytes.data.length = _ := hlen
    simp only
    rw [sub64, hdata, if_pos (Nat.le_add_right _ _), Nat.add_sub_cancel_left, hall]

/-- The rows of a window are read from its offset. -/
lemma many_written (w : ℕ) : PosReader.many (lcEntry (prog.written S fingerprint hfits).pool.length)
    ((prog.rowsIn w).length * 3) (RowFile.encode S fingerprint prog)
    ((prog.written S fingerprint hfits).rowsStart + (prog.bytesOf S (prog.rowsBefore w)).length)
      = .ok (prog.windowLcs S w, (prog.written S fingerprint hfits).rowsStart
        + (prog.bytesOf S (prog.rowsBefore (w + 1))).length) := by
  have hlen := length_encode S fingerprint prog hfits
  have hsplit := bytesOf_split S prog w
  have hsmall := congrArg List.length hsplit
  rw [List.length_append, List.length_append] at hsmall
  have hrows : ∀ c ∈ prog.rowsIn w, c ∈ prog.constraints :=
    fun c hc => List.mem_of_mem_drop (List.mem_of_mem_take hc)
  have hreads := reads_rows S prog hrows (by omega)
  have hdata : RowFile.encode S fingerprint prog = (rowMagic
      ++ (putHeader fingerprint prog (putRows S prog.constraints)
        ++ prog.bytesOf S (prog.rowsBefore w)))
      ++ (prog.bytesOf S (prog.rowsIn w)
        ++ prog.bytesOf S (prog.constraints.drop (windowRows * (w + 1)))) := by
    rw [encode_eq, hsplit]
    simp only [List.append_assoc]
  have hplace : (rowMagic ++ (putHeader fingerprint prog (putRows S prog.constraints)
      ++ prog.bytesOf S (prog.rowsBefore w))).length
      = (prog.written S fingerprint hfits).rowsStart
        + (prog.bytesOf S (prog.rowsBefore w)).length := by
    rw [List.length_append, List.length_append, ← Nat.add_assoc]
    rfl
  have h := hreads _ _ (by rw [← hdata]; exact hfits)
  have hpool : (prog.written S fingerprint hfits).pool.length = (prog.finalPool S).vals.length :=
    List.length_map _
  rw [← hdata, hplace] at h
  rw [hpool, h, bytesOf_rowsBefore_succ, List.length_append, ← Nat.add_assoc]
  rfl

/-- **A window of the written file** decodes to the codes of its rows. -/
lemma decodeWindow_written {w : ℕ} (hw : w < prog.numWindows) :
    (prog.written S fingerprint hfits).decodeWindow w = .ok (prog.windowLcs S w) := by
  have hlen := length_encode S fingerprint prog hfits
  have hrows := length_bytesOf S prog prog.constraints
  have hstart := (lt_numWindows prog).mp hw
  have hbefore := length_bytesOf_take_lt S prog hstart
  have hcount := length_rowsIn prog w
  have hoff : (prog.written S fingerprint hfits).offsets[w]? = _ := offsets_getElem? S prog w
  rw [if_pos hw] at hoff
  rw [Nat.mul_comm] at hstart
  have hmul : mul64 w windowRows = .ok (w * windowRows) := if_pos (by omega)
  have hsub : sub64 prog.constraints.length (w * windowRows)
      = .ok (prog.constraints.length - w * windowRows) := if_pos hstart.le
  have hthree : mul64 (min windowRows (prog.constraints.length - w * windowRows)) 3
      = .ok ((prog.rowsIn w).length * 3) := by
    rw [← hcount]
    exact if_pos (by omega)
  rw [RowFile.decodeWindow, hoff]
  refine Stop.test_eq_ok.mpr ⟨?_, Stop.bind_eq_ok.mpr ⟨_, hmul, ?_⟩⟩
  · rw [R1csProgram.rowsBefore]
    omega
  refine Stop.bind_eq_ok.mpr ⟨_, hsub, Stop.bind_eq_ok.mpr ⟨_, hthree, ?_⟩⟩
  refine Stop.bind_eq_ok.mpr ⟨_, many_written S fingerprint prog hfits w, ?_⟩
  refine Stop.test_eq_ok.mpr ⟨Nat.not_lt.mpr (Nat.le_add_right _ _), Stop.bind_eq_ok.mpr ⟨_,
    expectedEnd_written S fingerprint prog hfits w, Stop.test_eq_ok.mpr ⟨?_, rfl⟩⟩⟩
  exact not_not.mpr (Nat.add_sub_cancel_left _ _)

/-- All windows decode. -/
lemma decodes_encode : (prog.written S fingerprint hfits).Decodes
    ((List.range prog.numWindows).map fun w => prog.windowLcs S w) := by
  have hlen : (prog.written S fingerprint hfits).offsets.length = prog.numWindows := by
    have h := congrArg List.length (offsets_putRows S prog)
    rwa [List.length_map, List.length_range] at h
  rw [RowFile.Decodes, hlen, List.forall₂_map_right_iff, List.forall₂_same]
  exact fun w hw => decodeWindow_written S fingerprint prog hfits (List.mem_range.mp hw)

/-- The windows have all rows, in order. -/
lemma flatten_windowLcs : ((List.range prog.numWindows).map fun w => prog.windowLcs S w).flatten
    = (prog.constraints.flatMap R1csConstraint.lcs).map (codedLc S (prog.finalPool S).code) := by
  have key : ∀ k, ((List.range k).map fun w => prog.windowLcs S w).flatten
      = ((prog.rowsBefore k).flatMap R1csConstraint.lcs).map
        (codedLc S (prog.finalPool S).code) := by
    intro k
    induction k with
    | zero => rfl
    | succ k ih =>
        rw [List.range_succ, List.map_append, List.flatten_append, ih, List.map_singleton,
          List.flatten_singleton, R1csProgram.rowsBefore, R1csProgram.rowsBefore, Nat.mul_succ,
          List.take_add, List.flatMap_append, List.map_append]
        rfl
  have hall : prog.rowsBefore prog.numWindows = prog.constraints :=
    List.take_of_length_le (Nat.not_lt.mp fun h => lt_irrefl _ ((lt_numWindows prog).mpr h))
  rw [key, hall]

end Written

/-! ### The constants -/

section Constants

variable (S : UnstableSort) (prog : R1csProgram)

lemma nodup_finalPool : (prog.finalPool S).vals.Nodup :=
  (rowsEncoded_putRows S prog.constraints).grown.ok.nodup

/-- The pool starts with zero. -/
lemma idxOf_zero : (prog.finalPool S).vals.idxOf (poolBytes 0) = 0 := by
  have hincl := (rowsEncoded_putRows S prog.constraints).grown.incl
  exact (hincl.idxOf_eq_of_mem List.mem_cons_self).symm

/-- The pool has zero and the constants of the program, once each. -/
lemma mem_finalPool {bytes : List UInt8} :
    bytes ∈ (prog.finalPool S).vals ↔ ∃ f ∈ 0 :: prog.coeffs, bytes = poolBytes f := by
  have hgrown := (rowsEncoded_putRows S prog.constraints).grown
  constructor
  · intro h
    rcases hgrown.sub bytes h with h | ⟨f, hf, he⟩
    · exact ⟨0, List.mem_cons_self, List.mem_singleton.mp h⟩
    · exact ⟨f, List.mem_cons_of_mem _ hf, he⟩
  · rintro ⟨f, hf, rfl⟩
    rcases List.mem_cons.mp hf with rfl | hf
    · exact hgrown.incl.subset List.mem_cons_self
    · exact hgrown.mem f hf

/-- The number of the constants. -/
lemma length_finalPool : (prog.finalPool S).vals.length = (0 :: prog.coeffs).dedup.length := by
  have hmap : ((0 :: prog.coeffs).dedup.map poolBytes).Nodup :=
    (List.nodup_dedup _).map poolBytes_injective
  have hperm : (prog.finalPool S).vals.Perm ((0 :: prog.coeffs).dedup.map poolBytes) := by
    refine (List.perm_ext_iff_of_nodup (nodup_finalPool S prog) hmap).mpr fun bytes => ?_
    rw [mem_finalPool, List.mem_map]
    constructor
    · rintro ⟨f, hf, rfl⟩
      exact ⟨f, List.mem_dedup.mpr hf, rfl⟩
    · rintro ⟨f, hf, rfl⟩
      exact ⟨f, List.mem_dedup.mp hf, rfl⟩
  rw [hperm.length_eq, List.length_map]

/-- A place in the pool stands for a constant when it is the constant's own. -/
lemma getElem?_pool {f : FieldConst} {i : ℕ} :
    ((prog.finalPool S).vals.map ofPoolBytes)[i]? = some f ↔
      (prog.finalPool S).vals[i]? = some (poolBytes f) := by
  rw [List.getElem?_map, Option.map_eq_some_iff]
  constructor
  · rintro ⟨raw, hraw, he⟩
    obtain ⟨g, -, rfl⟩ := (mem_finalPool S prog).mp (List.mem_of_getElem? hraw)
    rw [ofPoolBytes_poolBytes] at he
    rwa [← he]
  · exact fun h => ⟨_, h, ofPoolBytes_poolBytes f⟩

/-- A constant that is found at a 32-bit place has a 32-bit place. -/
lemma idxOf_eq_of_getElem? {f : FieldConst} {i : ℕ}
    (h : ((prog.finalPool S).vals.map ofPoolBytes)[i]? = some f) :
    (prog.finalPool S).vals.idxOf (poolBytes f) = i := by
  obtain ⟨hi, he⟩ := List.getElem?_eq_some_iff.mp ((getElem?_pool S prog).mp h)
  rw [← he]
  exact (nodup_finalPool S prog).idxOf_getElem i hi

/-- When all places are below `2 ^ 32`, a code stands for its constant. -/
lemma getElem?_code (hlen : (prog.finalPool S).vals.length ≤ 2 ^ 32) {f : FieldConst}
    (hf : f ∈ prog.coeffs) :
    ((prog.finalPool S).vals.map ofPoolBytes)[((prog.finalPool S).code f).val]? = some f := by
  have hmem : poolBytes f ∈ (prog.finalPool S).vals :=
    (mem_finalPool S prog).mpr ⟨f, List.mem_cons_of_mem _ hf, rfl⟩
  have hidx := List.idxOf_lt_length_of_mem hmem
  have hcode : ((prog.finalPool S).code f).val = (prog.finalPool S).vals.idxOf (poolBytes f) :=
    Nat.mod_eq_of_lt (hidx.trans_le hlen)
  rw [getElem?_pool, hcode, List.getElem?_eq_getElem hidx, List.getElem_idxOf]

end Constants

/-! ### The result -/

/-- What the callback gets stands for a linear combination: its constant and, sorted by the
variable, its terms. -/
structure RowFile.Represents (f : RowFile) (l : LinearCombination) (p : PooledLc) : Prop where
  const : f.pool[p.const.val]? = some l.constant
  sorted : p.terms.Pairwise fun s t => s.1 ≤ t.1
  terms : (p.terms.map fun t => (t.1, f.pool[t.2.val]?)).Perm
    (l.terms.map fun t => (t.var, some t.coeff))

/-- The file parses to what was written, and its windows decode to the three linear combinations of
each row, in order. -/
def RowFile.RoundTrips (bytes : FileBytes) (fingerprint : String) (prog : R1csProgram) : Prop :=
  ∃ f outs, RowFile.parse bytes = .ok f ∧ f.fingerprint = fingerprint ∧
    f.vars = prog.vars.map (fun v => (v.id, v.visibility == .public)) ∧
    f.numRows = prog.constraints.length ∧ f.Decodes outs ∧
    List.Forall₂ f.Represents (prog.constraints.flatMap fun c => [c.a, c.b, c.c]) outs.flatten

/-- Zero and the constants of the program have places in 32 bits. -/
def R1csProgram.PoolFits (prog : R1csProgram) : Prop := (0 :: prog.coeffs).dedup.length ≤ 2 ^ 32

section Result

variable (S : UnstableSort) (fingerprint : String) (prog : R1csProgram)
  (hfits : (RowFile.encode S fingerprint prog).length < 2 ^ 63)

/-- When the places fit, each linear combination is represented. -/
lemma represents_codedLc (hpool : (prog.finalPool S).vals.length ≤ 2 ^ 32) {l : LinearCombination}
    (hl : ∀ f ∈ l.coeffs, f ∈ prog.coeffs) :
    (prog.written S fingerprint hfits).Represents l (codedLc S (prog.finalPool S).code l) := by
  refine ⟨getElem?_code S prog hpool (hl _ List.mem_cons_self), S.sorted _, ?_⟩
  refine ((S.perm (codedTerms (prog.finalPool S).code l.terms)).map _).trans ?_
  rw [codedTerms, List.map_map]
  refine List.Perm.of_eq (List.map_congr_left fun t ht => ?_)
  exact congrArg _ (getElem?_code S prog hpool (hl _ (List.mem_cons_of_mem _
    (List.mem_map_of_mem ht))))

/-- A linear combination that is represented has its constants at 32-bit places. -/
lemma idxOf_lt_of_represents {l : LinearCombination} {p : PooledLc}
    (h : (prog.written S fingerprint hfits).Represents l p) {f : FieldConst} (hf : f ∈ l.coeffs) :
    (prog.finalPool S).vals.idxOf (poolBytes f) < 2 ^ 32 := by
  rcases List.mem_cons.mp hf with rfl | hf
  · rw [idxOf_eq_of_getElem? S prog h.const]
    exact p.const.isLt
  · obtain ⟨t, ht, rfl⟩ := List.mem_map.mp hf
    have hmem := h.terms.symm.subset (List.mem_map_of_mem (f := fun t : Term =>
      (t.var, some t.coeff)) ht)
    obtain ⟨t', -, he⟩ := List.mem_map.mp hmem
    rw [idxOf_eq_of_getElem? S prog (congrArg Prod.snd he)]
    exact t'.2.isLt

/-- **The file comes back** exactly when the places in the pool fit. -/
lemma roundTrips_iff (hids : (prog.vars.map Variable.id).Nodup) :
    RowFile.RoundTrips ⟨RowFile.encode S fingerprint prog, hfits⟩ fingerprint prog ↔
      prog.PoolFits := by
  have hparse := parse_encode S fingerprint prog hfits hids
  have hdecodes := decodes_encode S fingerprint prog hfits
  have hflatten := flatten_windowLcs S prog
  have hlength := length_finalPool S prog
  constructor
  · rintro ⟨f, outs, hf, -, -, -, houts, hall⟩
    rw [hparse] at hf
    cases hf
    have hidx : ∀ bytes ∈ (prog.finalPool S).vals,
        (prog.finalPool S).vals.idxOf bytes < 2 ^ 32 := by
      intro bytes hbytes
      obtain ⟨g, hg, rfl⟩ := (mem_finalPool S prog).mp hbytes
      rcases List.mem_cons.mp hg with rfl | hg
      · rw [idxOf_zero]
        norm_num
      · obtain ⟨l, hl, hgl⟩ := mem_coeffs.mp hg
        obtain ⟨i, hi, rfl⟩ := List.mem_iff_getElem.mp hl
        have hp := (List.forall₂_iff_get.mp hall).2 i hi (hall.length_eq ▸ hi)
        exact idxOf_lt_of_represents S fingerprint prog hfits hp hgl
    rw [R1csProgram.PoolFits, ← hlength]
    by_contra hlt
    rw [Nat.not_le] at hlt
    have hlast := hidx _ (List.getElem_mem hlt)
    rw [(nodup_finalPool S prog).idxOf_getElem] at hlast
    exact lt_irrefl _ hlast
  · intro hfew
    rw [R1csProgram.PoolFits, ← hlength] at hfew
    refine ⟨_, _, hparse, rfl, rfl, rfl, hdecodes, ?_⟩
    rw [hflatten, List.forall₂_map_right_iff]
    refine List.forall₂_same.mpr fun l hl => ?_
    exact represents_codedLc S fingerprint prog hfits hfew fun f hf => mem_coeffs.mpr ⟨l, hl, hf⟩

end Result

/-- **Row files are read back**, for programs with different variable ids, exactly when zero and the
constants of the program are at most `2 ^ 32`. -/
theorem row_file_round_trips (S : UnstableSort) (fingerprint : String) (prog : R1csProgram)
    (hids : (prog.vars.map Variable.id).Nodup)
    (hfits : (RowFile.encode S fingerprint prog).length < 2 ^ 63) :
    RowFile.RoundTrips ⟨RowFile.encode S fingerprint prog, hfits⟩ fingerprint prog ↔
      prog.PoolFits :=
  roundTrips_iff S fingerprint prog hfits hids

/-- A stable sort. -/
def stableSort : UnstableSort where
  sort ts := ts.insertionSort fun s t => s.1 ≤ t.1
  perm ts := List.perm_insertionSort _ ts
  sorted ts := by
    have : Std.Total fun s t : VarId × Fin (2 ^ 32) => s.1 ≤ t.1 := ⟨fun s t => le_total s.1 t.1⟩
    have : IsTrans (VarId × Fin (2 ^ 32)) fun s t => s.1 ≤ t.1 := ⟨fun _ _ _ h h' => h.trans h'⟩
    exact List.pairwise_insertionSort _ ts

/-- A row with a repeated variable, a negative coefficient and a power of two. -/
def mixedRow : R1csProgram where
  field := ⟨"f", none⟩
  vars := [⟨7, "x", .private⟩, ⟨2, "y", .public⟩]
  constraints := [⟨0, ⟨-1, [⟨128, 7⟩, ⟨-128, 2⟩, ⟨128, 7⟩]⟩, ⟨0, []⟩, ⟨256, [⟨-1, 2⟩]⟩, none⟩]

theorem row_file_round_trips_mixedRow :
    RowFile.RoundTrips ⟨RowFile.encode stableSort "f0" mixedRow, by decide +kernel⟩ "f0" mixedRow :=
  (row_file_round_trips stableSort "f0" mixedRow (by decide) (by decide +kernel)).mpr
    (by unfold R1csProgram.PoolFits; decide +kernel)

/-! ### A pool that is too large -/

/-- One side with the coefficients `1`, …, `n`. -/
def manyConstants (n : ℕ) : R1csProgram where
  field := ⟨"f", none⟩
  vars := [⟨0, "x", .private⟩]
  constraints :=
    [⟨0, ⟨0, (List.range n).map fun i : ℕ => ⟨(i : ℤ) + 1, 0⟩⟩, ⟨0, []⟩, ⟨0, []⟩, none⟩]

lemma coeffs_manyConstants (n : ℕ) : (manyConstants n).coeffs
    = 0 :: ((List.range n).map (fun i : ℕ => (i : ℤ) + 1) ++ [0, 0]) := by
  rw [R1csProgram.coeffs, manyConstants, List.flatMap_singleton, R1csConstraint.coeffs,
    LinearCombination.coeffs, List.map_map]
  rfl

/-- All of the coefficients are different, and none is zero. -/
lemma lt_length_manyConstants (n : ℕ) : n < (0 :: (manyConstants n).coeffs).dedup.length := by
  have hnodup : ((List.range (n + 1)).map fun i : ℕ => (i : ℤ)).Nodup :=
    List.nodup_range.map Nat.cast_injective
  have hsub : ((List.range (n + 1)).map fun i : ℕ => (i : ℤ))
      ⊆ (0 :: (manyConstants n).coeffs).dedup := by
    intro f hf
    obtain ⟨i, hi, rfl⟩ := List.mem_map.mp hf
    have hi := List.mem_range.mp hi
    rw [List.mem_dedup, coeffs_manyConstants]
    cases i with
    | zero => exact List.mem_cons_self
    | succ i =>
        refine List.mem_cons_of_mem _ (List.mem_cons_of_mem _ (List.mem_append_left _ ?_))
        exact List.mem_map.mpr ⟨i, List.mem_range.mpr (by omega), by push_cast; rfl⟩
  have hle := (hnodup.subperm hsub).length_le
  rwa [List.length_map, List.length_range] at hle

lemma length_putVarint_le (v : ℕ) : (putVarint v).length ≤ 10 := by
  have key : ∀ n v, (Codec.putGroups n v).length ≤ n := by
    intro n
    induction n with
    | zero => exact fun _ => le_rfl
    | succ n ih =>
        intro v
        rw [Codec.putGroups]
        split_ifs
        · simp
        · exact Nat.succ_le_succ (ih _)
  exact key 10 v

/-- Each entry of a list takes few bytes. -/
lemma length_flatMap_le_mul {α : Type} {put : α → List UInt8} {k : ℕ} (l : List α)
    (h : ∀ a ∈ l, (put a).length ≤ k) : (l.flatMap put).length ≤ l.length * k := by
  induction l with
  | nil => simp
  | cons a l ih =>
      have ha := h a List.mem_cons_self
      have hl := ih fun b hb => h b (List.mem_cons_of_mem _ hb)
      rw [List.flatMap_cons, List.length_append, List.length_cons, Nat.succ_mul]
      omega

lemma length_lcBytes_le (S : UnstableSort) (code : FieldConst → Fin (2 ^ 32))
    (l : LinearCombination) : (lcBytes S code l).length ≤ 20 + l.terms.length * 20 := by
  have hterms : ∀ (ts : List (VarId × Fin (2 ^ 32))) (prev : VarId),
      (putTerms prev ts).length ≤ ts.length * 20 := by
    intro ts
    induction ts with
    | nil => exact fun _ => le_rfl
    | cons t ts ih =>
        intro prev
        have h1 := length_putVarint_le (t.1 - prev).val
        have h2 := length_putVarint_le t.2.val
        have h3 := ih t.1
        rw [putTerms, List.length_append, List.length_append, List.length_cons]
        omega
  have h1 := length_putVarint_le (code l.constant).val
  have h2 := length_putVarint_le (S.sort (codedTerms code l.terms)).length
  have h3 := hterms (S.sort (codedTerms code l.terms)) 0
  have h4 := (S.perm (codedTerms code l.terms)).length_eq
  rw [codedTerms, List.length_map] at h4
  rw [codedTerms] at h2 h3
  rw [lcBytes, List.length_append, List.length_append, codedTerms]
  omega

/-- A constant of 32 bits takes at most five bytes. -/
lemma length_poolBytes_le {f : ℤ} (h0 : 0 ≤ f) (hf : f ≤ 2 ^ 32) :
    (poolBytes f).length ≤ 5 := by
  rw [poolBytes]
  split_ifs
  · simp
  · have hsize : Nat.size f.toNat ≤ 33 := Nat.size_le.mpr (by omega)
    rw [Codec.toSignedBytesLe, length_leBytes, Codec.signedLen, if_pos h0]
    omega

/-- The constants are at most `2 ^ 32`. -/
lemma le_of_mem_manyConstants {n : ℕ} (hn : n ≤ 2 ^ 32) {f : ℤ}
    (hf : f ∈ 0 :: (manyConstants n).coeffs) : 0 ≤ f ∧ f ≤ 2 ^ 32 := by
  rw [coeffs_manyConstants] at hf
  simp only [List.mem_cons, List.mem_append, List.mem_map, List.mem_range, List.not_mem_nil,
    or_false] at hf
  rcases hf with rfl | rfl | ⟨i, hi, rfl⟩ | rfl | rfl <;> constructor <;> omega

/-- The file of the large pool has far fewer than `2 ^ 63` bytes. -/
lemma length_encode_manyConstants (S : UnstableSort) {n : ℕ} (hn : n ≤ 2 ^ 32) :
    (RowFile.encode S "" (manyConstants n)).length < 2 ^ 63 := by
  have hpoolLen : ((manyConstants n).finalPool S).vals.length ≤ n + 4 := by
    have hle := (List.dedup_sublist (0 :: (manyConstants n).coeffs)).length_le
    rw [← length_finalPool S, coeffs_manyConstants] at hle
    simpa using hle
  have hpool : (((manyConstants n).finalPool S).vals.flatMap putPoolEntry).length
      ≤ ((manyConstants n).finalPool S).vals.length * 15 := by
    refine length_flatMap_le_mul _ fun p hp => ?_
    obtain ⟨f, hf, rfl⟩ := (mem_finalPool S _).mp hp
    obtain ⟨h0, hle⟩ := le_of_mem_manyConstants hn hf
    have h1 := length_putVarint_le (poolBytes f).length
    have h2 := length_poolBytes_le h0 hle
    rw [putPoolEntry, List.length_append]
    omega
  have hrows : ((manyConstants n).bytesOf S (manyConstants n).constraints).length
      ≤ 60 + n * 20 := by
    have h : ∀ l : LinearCombination, _ :=
      length_lcBytes_le S ((manyConstants n).finalPool S).code
    have ha := h ⟨0, (List.range n).map fun i : ℕ => ⟨(i : ℤ) + 1, 0⟩⟩
    have hb := h ⟨0, []⟩
    rw [List.length_map, List.length_range] at ha
    rw [List.length_nil] at hb
    have hbytes : (manyConstants n).bytesOf S (manyConstants n).constraints
        = lcBytes S ((manyConstants n).finalPool S).code
            ⟨0, (List.range n).map fun i : ℕ => ⟨(i : ℤ) + 1, 0⟩⟩
          ++ (lcBytes S ((manyConstants n).finalPool S).code ⟨0, []⟩
            ++ lcBytes S ((manyConstants n).finalPool S).code ⟨0, []⟩) := by
      simp [R1csProgram.bytesOf, manyConstants, rowBytes, R1csConstraint.lcs]
    rw [hbytes, List.length_append, List.length_append]
    omega
  have hoffsets : ((putRows S (manyConstants n).constraints).offsets.flatMap (leBytes 8)).length
      ≤ 8 := by
    have hone : (manyConstants n).numWindows = 1 := by
      simp [R1csProgram.numWindows, manyConstants, windowRows]
    rw [offsets_putRows, hone]
    simp
  have hvars : ((manyConstants n).varList.flatMap putVar).length ≤ 11 := by
    have h := length_putVarint_le 0
    simp only [R1csProgram.varList, manyConstants, List.map_cons, List.map_nil,
      List.flatMap_singleton, putVar, List.length_append, List.length_singleton]
    exact Nat.succ_le_succ h
  have v1 := length_putVarint_le (Bytecode.utf8 "").length
  have v2 := length_putVarint_le (manyConstants n).varList.length
  have v3 := length_putVarint_le ((manyConstants n).finalPool S).vals.length
  have v4 := length_putVarint_le (manyConstants n).constraints.length
  have v5 := length_putVarint_le windowRows
  have v6 := length_putVarint_le (putRows S (manyConstants n).constraints).offsets.length
  have hutf : (Bytecode.utf8 "").length = 0 := rfl
  have hmagic : rowMagic.length = 4 := rfl
  rw [R1csProgram.finalPool] at hpoolLen hpool v3
  rw [encode_eq, putHeader]
  simp only [List.length_append]
  omega

/-- **One constant too many**: the last one gets the index of zero. -/
theorem row_file_pool_overflows :
    ((manyConstants (2 ^ 32)).vars.map Variable.id).Nodup ∧
      ¬RowFile.RoundTrips ⟨RowFile.encode stableSort "" (manyConstants (2 ^ 32)),
        length_encode_manyConstants stableSort le_rfl⟩ "" (manyConstants (2 ^ 32)) := by
  have hids : ((manyConstants (2 ^ 32)).vars.map Variable.id).Nodup := List.nodup_singleton _
  refine ⟨hids, fun h => ?_⟩
  have hfew := (roundTrips_iff stableSort "" _ _ hids).mp h
  exact absurd (lt_length_manyConstants (2 ^ 32)) (Nat.not_lt.mpr hfew)

end XarkCircuit
