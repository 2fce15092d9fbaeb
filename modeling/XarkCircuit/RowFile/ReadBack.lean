import XarkCircuit.Bytecode.WireSound
import XarkCircuit.RowFile.Encode

/-!
The parts of a row file are read back.

* `reads_lcEntry`: what the writer puts for one linear combination is read back, by the codes of its
  constants, when these are places in the pool.
* `reads_header`: the header is read back; the counts in it are below what follows them.
-/

namespace XarkCircuit

open PosReader
open Codec (putVarint leBytes length_leBytes fromBytesLe fromBytesLe_leBytes fromSignedBytesLe
  length_putVarint_pos)

/-! ### One linear combination -/

lemma reads_getU32 (bad : Stop) (v : Fin (2 ^ 32)) :
    PosReader.Reads (RowFile.getU32 bad) (putVarint v.val) v := by
  have hlt : v.val < 2 ^ 64 := v.isLt.trans (by norm_num)
  have h : PosReader.Reads (RowFile.getU32 bad) (putVarint v.val ++ []) v := by
    refine (reads_uv bad .panic hlt).bind ?_
    rw [dif_pos v.isLt]
    exact PosReader.Reads.pure v
  rwa [List.append_nil] at h

/-- The terms are read back from the variable before them. -/
lemma reads_termEntries {poolLen : ℕ} {ts : List (VarId × Fin (2 ^ 32))} {prev : VarId}
    (hsorted : (ts.Pairwise fun s t => s.1 ≤ t.1)) (hprev : ∀ t ∈ ts, prev ≤ t.1)
    (hpool : ∀ t ∈ ts, t.2.val < poolLen) (acc : List (VarId × Fin (2 ^ 32))) :
    PosReader.Reads (termEntries poolLen ts.length prev acc) (putTerms prev ts) (acc ++ ts) := by
  induction ts generalizing prev acc with
  | nil =>
      rw [List.append_nil]
      exact PosReader.Reads.pure acc
  | cons t ts ih =>
      obtain ⟨var, coeff⟩ := t
      obtain ⟨hhead, htail⟩ := List.pairwise_cons.mp hsorted
      have hle : prev ≤ var := hprev _ List.mem_cons_self
      have hsub : (var - prev).val = var.val - prev.val := Fin.sub_val_of_le hle
      have hsum : prev.val + (var - prev).val = var.val := by
        rw [hsub]
        exact Nat.add_sub_cancel' hle
      have hvar : (⟨prev.val + (var - prev).val, by rw [hsum]; exact var.isLt⟩ : VarId) = var :=
        Fin.ext hsum
      rw [putTerms, List.append_assoc]
      refine (reads_getU32 malformedRow _).bind ?_
      rw [dif_pos (by rw [hsum]; exact var.isLt), hvar]
      refine (reads_getU32 malformedRow coeff).bind (PosReader.Reads.test ?_ ?_)
      · exact Nat.not_le.mpr (hpool _ List.mem_cons_self)
      · have hrest := ih htail hhead (fun t ht => hpool t (List.mem_cons_of_mem _ ht))
          (acc ++ [(var, coeff)])
        rwa [List.append_assoc, List.singleton_append] at hrest

/-- What the callback gets for a linear combination, by the codes of its constants. -/
def codedLc (S : UnstableSort) (code : FieldConst → Fin (2 ^ 32)) (l : LinearCombination) :
    PooledLc :=
  ⟨code l.constant, S.sort (codedTerms code l.terms)⟩

/-- **A linear combination is read back**, when its codes are in the pool. -/
lemma reads_lcEntry (S : UnstableSort) {code : FieldConst → Fin (2 ^ 32)} {poolLen : ℕ}
    {l : LinearCombination} (hcode : ∀ f ∈ l.coeffs, (code f).val < poolLen)
    (hlen : l.terms.length < 2 ^ 64) :
    PosReader.Reads (lcEntry poolLen) (lcBytes S code l) (codedLc S code l) := by
  have hperm := S.perm (codedTerms code l.terms)
  have hcount : (S.sort (codedTerms code l.terms)).length < 2 ^ 64 := by
    rw [hperm.length_eq, codedTerms, List.length_map]
    exact hlen
  have hpool : ∀ t ∈ S.sort (codedTerms code l.terms), t.2.val < poolLen := by
    intro t ht
    obtain ⟨t', ht', rfl⟩ := List.mem_map.mp (hperm.subset ht)
    exact hcode _ (List.mem_cons_of_mem _ (List.mem_map_of_mem ht'))
  refine (reads_getU32 malformedRow _).bind ((reads_uv malformedRow .panic hcount).bind ?_)
  have hterms := reads_termEntries (S.sorted _) (fun t _ => Fin.zero_le t.1) hpool []
  have h := hterms.bind (f := fun terms => if poolLen ≤ (code l.constant).val then
    throw malformedRow else pure (⟨code l.constant, terms⟩ : PooledLc))
    (PosReader.Reads.test (Nat.not_le.mpr (hcode _ List.mem_cons_self)) (PosReader.Reads.pure _))
  rwa [List.append_nil] at h

/-! ### The header -/

/-- A reader may look at how much is left. -/
lemma reads_bytesLeft {α : Type} {f : ℕ → RowReader α} {bs : List UInt8} {a : α}
    (h : ∀ left, bs.length ≤ left → PosReader.Reads (f left) bs a) :
    PosReader.Reads (bytesLeft >>= f) bs a := by
  intro before after hlen
  refine h _ ?_ before after hlen
  simp only [List.length_append]
  omega

lemma reads_fileLen {α : Type} {f : ℕ → RowReader α} {bs : List UInt8} {a : α}
    (h : ∀ len, bs.length ≤ len → PosReader.Reads (f len) bs a) :
    PosReader.Reads (fileLen >>= f) bs a := by
  intro before after hlen
  refine h _ ?_ before after hlen
  simp only [List.length_append]
  omega

/-- What is reserved follows. -/
lemma reads_reserve {α : Type} {n : ℕ} {f : Unit → RowReader α} {bs : List UInt8} {a : α}
    (hn : n ≤ bs.length) (h : PosReader.Reads (f ()) bs a) :
    PosReader.Reads (reserve n >>= f) bs a := by
  intro before after hlen
  have hle : n ≤ (before ++ (bs ++ after)).length := by
    simp only [List.length_append]
    omega
  rw [bind_apply, reserve, if_pos hle]
  exact h before after hlen

lemma reads_varEntries {vs acc : List (VarId × Bool)} (hids : ((acc ++ vs).map Prod.fst).Nodup) :
    PosReader.Reads (varEntries vs.length acc) (vs.flatMap putVar) (acc ++ vs) := by
  induction vs generalizing acc with
  | nil =>
      rw [List.append_nil]
      exact PosReader.Reads.pure acc
  | cons v vs ih =>
      obtain ⟨id, isPublic⟩ := v
      have hfresh : id ∉ acc.map Prod.fst := by
        rw [List.map_append, List.nodup_append] at hids
        exact fun hmem => hids.2.2 id hmem id (by simp) rfl
      have hflag : ((if isPublic then 1 else 0 : UInt8) == 1) = isPublic := by
        cases isPublic <;> rfl
      rw [List.flatMap_cons, putVar, List.append_assoc]
      refine (reads_getU32 malformed id).bind (PosReader.Reads.test hfresh ?_)
      refine (reads_take malformed [if isPublic then 1 else 0]).bind (PosReader.Reads.test ?_ ?_)
      · cases isPublic <;> decide
      · rw [hflag]
        have hrest := @ih (acc ++ [(id, isPublic)]) (by
          rwa [List.append_assoc, List.singleton_append])
        rwa [List.append_assoc, List.singleton_append] at hrest

lemma reads_poolEntry {p : List UInt8} (hp : p.length < 2 ^ 64) :
    PosReader.Reads poolEntry (putPoolEntry p) (ofPoolBytes p) :=
  (reads_uv malformed .panic hp).bind ((reads_take malformed p).ret fun raw =>
    if p.length = 0 then 0 else fromSignedBytesLe raw)

lemma reads_offsetEntry {o : ℕ} (ho : o < 2 ^ 64) :
    PosReader.Reads offsetEntry (leBytes 8 o) o := by
  have hlen : (leBytes 8 o).length = 8 := length_leBytes 8 o
  have htake := reads_take malformed (leBytes 8 o)
  rw [hlen] at htake
  have hvalue : fromBytesLe (leBytes 8 o) = o := by
    rw [fromBytesLe_leBytes]
    exact Nat.mod_eq_of_lt (ho.trans_le (by norm_num))
  have h : PosReader.Reads offsetEntry (leBytes 8 o ++ []) (fromBytesLe (leBytes 8 o)) :=
    htake.bind (PosReader.Reads.test (not_not.mpr hlen) (PosReader.Reads.pure _))
  rwa [hvalue, List.append_nil] at h

/-- Each entry of a list takes some bytes. -/
lemma mul_le_length_flatMap {α : Type} {put : α → List UInt8} {k : ℕ} (l : List α)
    (h : ∀ a ∈ l, k ≤ (put a).length) : l.length * k ≤ (l.flatMap put).length := by
  induction l with
  | nil => simp
  | cons a l ih =>
      have ha := h a List.mem_cons_self
      have hl := ih fun b hb => h b (List.mem_cons_of_mem _ hb)
      rw [List.flatMap_cons, List.length_append, List.length_cons, Nat.succ_mul]
      omega

lemma length_putVar (v : VarId × Bool) : 2 ≤ (putVar v).length := by
  have := length_putVarint_pos v.1.val
  rw [putVar, List.length_append, List.length_singleton]
  omega

lemma length_putPoolEntry (p : List UInt8) : 1 ≤ (putPoolEntry p).length := by
  have := length_putVarint_pos p.length
  rw [putPoolEntry, List.length_append]
  omega

/-- **The header is read back.** -/
lemma reads_header {fingerprint : String} {prog : R1csProgram} {s : RowsState}
    (hids : (prog.varList.map Prod.fst).Nodup)
    (hlen : (putHeader fingerprint prog s).length < 2 ^ 63)
    (hrows : prog.constraints.length < 2 ^ 63)
    (hcount : s.offsets.length = (prog.constraints.length + windowRows - 1) / windowRows)
    (hoffsets : ∀ o ∈ s.offsets, o < 2 ^ 63) :
    PosReader.Reads RowFile.header (putHeader fingerprint prog s)
      ⟨fingerprint, prog.varList, s.pool.vals.map ofPoolBytes, prog.constraints.length, windowRows,
        s.offsets⟩ := by
  have hvars := mul_le_length_flatMap prog.varList fun v _ => length_putVar v
  have hpool := mul_le_length_flatMap s.pool.vals fun p _ => length_putPoolEntry p
  have hoffs := mul_le_length_flatMap s.offsets fun o _ => (length_leBytes 8 o).ge
  have hentry : ∀ p ∈ s.pool.vals, p.length ≤ (s.pool.vals.flatMap putPoolEntry).length := by
    intro p hp
    have hsub : (putPoolEntry p).Sublist (s.pool.vals.flatMap putPoolEntry) :=
      List.sublist_flatten_of_mem (List.mem_map_of_mem hp)
    have hle := hsub.length_le
    rw [putPoolEntry, List.length_append] at hle
    omega
  rw [putHeader] at hlen ⊢
  simp only [List.length_append] at hlen
  refine (reads_uv malformed .panic (by omega)).bind ((reads_take malformed _).bind ?_)
  rw [Bytecode.fromUtf8_utf8]
  refine (reads_uv malformed .panic (by omega)).bind (reads_bytesLeft fun left hleft =>
    PosReader.Reads.test ?_ (reads_fileLen fun len _ => ?_))
  · simp only [List.length_append] at hleft
    omega
  refine reads_reserve ?_ (reads_reserve ?_ ((reads_varEntries (by simpa using hids)).bind ?_))
  · simp only [List.length_append]
    omega
  · simp only [List.length_append]
    omega
  refine (reads_uv malformed .panic (by omega)).bind (reads_reserve ?_ ?_)
  · simp only [List.length_append]
    omega
  have hmany : PosReader.Reads (PosReader.many poolEntry s.pool.vals.length)
      (s.pool.vals.flatMap putPoolEntry) (s.pool.vals.map ofPoolBytes) := by
    have hall : List.Forall₂ (PosReader.Reads poolEntry) (s.pool.vals.map putPoolEntry)
        (s.pool.vals.map ofPoolBytes) := by
      rw [List.forall₂_map_left_iff, List.forall₂_map_right_iff, List.forall₂_same]
      exact fun p hp => reads_poolEntry (by have := hentry p hp; omega)
    have h := reads_many hall
    rwa [List.length_map] at h
  refine hmany.bind ?_
  refine (reads_uv malformed .panic (by omega)).bind
    ((reads_uv malformed .panic (by decide)).bind
      ((reads_uv malformed .panic (by omega)).bind (PosReader.Reads.test ?_ ?_)))
  · rw [not_or, not_not]
    exact ⟨by decide, hcount⟩
  refine reads_bytesLeft fun left hleft =>
    PosReader.Reads.test (by omega) (reads_reserve (by omega) ?_)
  exact (PosReader.Reads.many fun o ho =>
    reads_offsetEntry ((hoffsets o ho).trans (by norm_num))).ret _

end XarkCircuit
