import XarkCircuit.RowFile.Parse
import Mathlib.Data.List.Nodup

/-!
Row files (`r1cs_stream.rs`): the writer.

* `Pool.intern` gives each constant an index into the pool; `RowFile.encode` writes the header, the
  pool and the rows, with one offset for each window of `windowRows` rows.
* `Pool.Grown fs pool` says what is in the pool after interning `fs`, and `Pool.code` is the index
  that a constant then has in all that follows.
* `RowsEncoded` is the invariant of the loop over the rows: in terms of the codes of any later pool,
  the rows written so far are the rows' bytes, and the offsets their lengths at each window.
-/

namespace XarkCircuit

open Codec

/-- `WINDOW_ROWS`. -/
def windowRows : ℕ := 4096

/-- `sort_unstable_by_key(|t| t.0)`: sorted by the variable, in any order of equal ones. -/
structure UnstableSort where
  sort : List (VarId × Fin (2 ^ 32)) → List (VarId × Fin (2 ^ 32))
  perm : ∀ ts, (sort ts).Perm ts
  sorted : ∀ ts, (sort ts).Pairwise fun s t => s.1 ≤ t.1

/-- The constants, with a map from their bytes to their indices. -/
structure Pool where
  vals : List (List UInt8)
  index : List (List UInt8 × Fin (2 ^ 32))

/-- The bytes of a constant. -/
def poolBytes (f : FieldConst) : List UInt8 := if f = 0 then [] else toSignedBytesLe f

/-- `Pool::intern`. -/
def Pool.intern (pool : Pool) (f : FieldConst) : Fin (2 ^ 32) × Pool :=
  let bytes := poolBytes f
  match pool.index.lookup bytes with
  | some i => (i, pool)
  | none =>
      -- `self.vals.len() as u32`
      let i := Fin.ofNat (2 ^ 32) pool.vals.length
      (i, ⟨pool.vals ++ [bytes], (bytes, i) :: pool.index⟩)

/-- The terms with the indices of their coefficients. -/
def internTerms : List Term → Pool → List (VarId × Fin (2 ^ 32)) × Pool
  | [], pool => ([], pool)
  | t :: ts, pool =>
      let (c, pool) := pool.intern t.coeff
      let (terms, pool) := internTerms ts pool
      ((t.var, c) :: terms, pool)

/-- The terms, each variable relative to the one before. -/
def putTerms : VarId → List (VarId × Fin (2 ^ 32)) → List UInt8
  | _, [] => []
  | prev, (var, coeff) :: terms =>
      putVarint (var - prev).val ++ putVarint coeff.val ++ putTerms var terms

/-- `put_lc`: what is pushed to `out`, and the pool. -/
def putLc (S : UnstableSort) (lc : LinearCombination) (pool : Pool) : List UInt8 × Pool :=
  let (k, pool) := pool.intern lc.constant
  let (terms, pool) := internTerms lc.terms pool
  let terms := S.sort terms
  (putVarint k.val ++ (putVarint terms.length ++ putTerms 0 terms), pool)

/-- The state of the loop over the rows. -/
structure RowsState where
  pool : Pool
  rows : List UInt8
  offsets : List ℕ

/-- One row. -/
def putRow (S : UnstableSort) (s : RowsState) (i : ℕ) (c : R1csConstraint) : RowsState :=
  let offsets := if i % windowRows = 0 then s.offsets ++ [s.rows.length] else s.offsets
  let (a, pool) := putLc S c.a s.pool
  let (b, pool) := putLc S c.b pool
  let (c, pool) := putLc S c.c pool
  ⟨pool, s.rows ++ a ++ b ++ c, offsets⟩

/-- The pool at the start: index 0 is zero. -/
def zeroPool : Pool := (Pool.intern ⟨[], []⟩ 0).2

/-- The loop over the rows. -/
def putRows (S : UnstableSort) (constraints : List R1csConstraint) : RowsState :=
  constraints.zipIdx.foldl (fun s c => putRow S s c.2 c.1) ⟨zeroPool, [], []⟩

/-- A variable with its visibility flag. -/
def putVar (v : VarId × Bool) : List UInt8 := putVarint v.1.val ++ [if v.2 then 1 else 0]

/-- A constant of the pool. -/
def putPoolEntry (p : List UInt8) : List UInt8 := putVarint p.length ++ p

/-- The `(id, public)` list of a program. -/
def R1csProgram.varList (prog : R1csProgram) : List (VarId × Bool) :=
  prog.vars.map fun v => (v.id, v.visibility == .public)

/-- What comes before the rows, after the magic. -/
def putHeader (fingerprint : String) (prog : R1csProgram) (s : RowsState) : List UInt8 :=
  putVarint (Bytecode.utf8 fingerprint).length ++ (Bytecode.utf8 fingerprint ++
    (putVarint prog.varList.length ++ (prog.varList.flatMap putVar ++
      (putVarint s.pool.vals.length ++ (s.pool.vals.flatMap putPoolEntry ++
        (putVarint prog.constraints.length ++ (putVarint windowRows ++
          (putVarint s.offsets.length ++ s.offsets.flatMap (leBytes 8)))))))))

/-- `encode`. -/
def RowFile.encode (S : UnstableSort) (fingerprint : String) (prog : R1csProgram) : List UInt8 :=
  let s := putRows S prog.constraints
  rowMagic ++ (putHeader fingerprint prog s ++ s.rows)

/-! ### The pool -/

lemma poolBytes_eq_nil {f : FieldConst} : poolBytes f = [] ↔ f = 0 := by
  rw [poolBytes]
  split_ifs with h
  · exact iff_of_true rfl h
  · exact iff_of_false (toSignedBytesLe_ne_nil f) h

/-- What the reader makes of the bytes of a constant. -/
def ofPoolBytes (raw : List UInt8) : FieldConst :=
  if raw.length = 0 then 0 else fromSignedBytesLe raw

@[simp] lemma ofPoolBytes_poolBytes (f : FieldConst) : ofPoolBytes (poolBytes f) = f := by
  rw [ofPoolBytes]
  split_ifs with h
  · exact (poolBytes_eq_nil.mp (List.length_eq_zero_iff.mp h)).symm
  · have hne : f ≠ 0 := fun h0 => h (List.length_eq_zero_iff.mpr (poolBytes_eq_nil.mpr h0))
    rw [poolBytes, if_neg hne, fromSignedBytesLe_toSignedBytesLe]

lemma poolBytes_injective : Function.Injective poolBytes :=
  Function.LeftInverse.injective ofPoolBytes_poolBytes

/-- The index that the pool gives to a constant: its place, cut to 32 bits. -/
def Pool.code (pool : Pool) (f : FieldConst) : Fin (2 ^ 32) :=
  Fin.ofNat (2 ^ 32) (pool.vals.idxOf (poolBytes f))

/-- The map knows the constants, each by its place. -/
structure Pool.Ok (pool : Pool) : Prop where
  nodup : pool.vals.Nodup
  lookup : ∀ bytes, pool.index.lookup bytes
    = if bytes ∈ pool.vals then some (Fin.ofNat (2 ^ 32) (pool.vals.idxOf bytes)) else none

/-- `pool'` is `pool` with the constants `fs` interned. -/
structure Pool.Grown (fs : List FieldConst) (pool pool' : Pool) : Prop where
  ok : pool'.Ok
  incl : pool.vals <+: pool'.vals
  mem : ∀ f ∈ fs, poolBytes f ∈ pool'.vals
  sub : ∀ bytes ∈ pool'.vals, bytes ∈ pool.vals ∨ ∃ f ∈ fs, bytes = poolBytes f

lemma Pool.Grown.refl {pool : Pool} (h : pool.Ok) : Pool.Grown [] pool pool :=
  ⟨h, List.prefix_rfl, fun _ hf => absurd hf List.not_mem_nil, fun _ hb => Or.inl hb⟩

lemma Pool.Grown.trans {fs gs : List FieldConst} {p q r : Pool} (h : Pool.Grown fs p q)
    (h' : Pool.Grown gs q r) : Pool.Grown (fs ++ gs) p r := by
  refine ⟨h'.ok, h.incl.trans h'.incl, fun f hf => ?_, fun bytes hb => ?_⟩
  · rcases List.mem_append.mp hf with hf | hf
    · exact h'.incl.subset (h.mem f hf)
    · exact h'.mem f hf
  · rcases h'.sub bytes hb with hb | ⟨f, hf, he⟩
    · rcases h.sub bytes hb with hb | ⟨f, hf, he⟩
      · exact Or.inl hb
      · exact Or.inr ⟨f, List.mem_append_left _ hf, he⟩
    · exact Or.inr ⟨f, List.mem_append_right _ hf, he⟩

/-- A constant keeps its index when the pool grows. -/
lemma Pool.code_eq_of_prefix {p q : Pool} {f : FieldConst} (hf : poolBytes f ∈ p.vals)
    (h : p.vals <+: q.vals) : q.code f = p.code f := by
  rw [Pool.code, Pool.code, h.idxOf_eq_of_mem hf]

/-- **Interning one constant.** -/
lemma Pool.grown_intern {pool : Pool} (h : pool.Ok) (f : FieldConst) :
    Pool.Grown [f] pool (pool.intern f).2 ∧ (pool.intern f).1 = (pool.intern f).2.code f := by
  have hlookup := h.lookup (poolBytes f)
  by_cases hmem : poolBytes f ∈ pool.vals
  · rw [if_pos hmem] at hlookup
    have hintern : pool.intern f = (pool.code f, pool) := by
      rw [Pool.intern]
      simp only [hlookup]
      rfl
    rw [hintern]
    refine ⟨⟨h, List.prefix_rfl, fun g hg => ?_, fun _ hb => Or.inl hb⟩, rfl⟩
    rwa [List.mem_singleton.mp hg]
  · rw [if_neg hmem] at hlookup
    have hintern : pool.intern f = (Fin.ofNat (2 ^ 32) pool.vals.length,
        ⟨pool.vals ++ [poolBytes f],
          (poolBytes f, Fin.ofNat (2 ^ 32) pool.vals.length) :: pool.index⟩) := by
      rw [Pool.intern]
      simp only [hlookup]
    have hidx : (pool.vals ++ [poolBytes f]).idxOf (poolBytes f) = pool.vals.length := by
      rw [List.idxOf_append, if_neg hmem, List.idxOf_cons_self, Nat.zero_add]
    rw [hintern]
    refine ⟨⟨⟨?_, fun bytes => ?_⟩, List.prefix_append _ _, fun g hg => ?_, fun bytes hb => ?_⟩, ?_⟩
    · have hnodup := h.nodup.concat hmem
      rwa [List.concat_eq_append] at hnodup
    · rw [List.lookup_cons]
      by_cases he : bytes = poolBytes f
      · rw [he, hidx, if_pos (by simp)]
        simp
      · have hbeq : (bytes == poolBytes f) = false := beq_false_of_ne he
        rw [hbeq, h.lookup]
        by_cases hb : bytes ∈ pool.vals
        · rw [if_pos hb, if_pos (List.mem_append_left _ hb), List.idxOf_append_of_mem hb]
        · rw [if_neg hb, if_neg (by simp [hb, he])]
    · rw [List.mem_singleton.mp hg]
      exact List.mem_append_right _ (List.mem_singleton_self _)
    · rcases List.mem_append.mp hb with hb | hb
      · exact Or.inl hb
      · exact Or.inr ⟨f, List.mem_singleton_self f, List.mem_singleton.mp hb⟩
    · rw [Pool.code, hidx]

/-- The constants of a linear combination. -/
def LinearCombination.coeffs (l : LinearCombination) : List FieldConst :=
  l.constant :: l.terms.map Term.coeff

/-- The terms, by the codes of the coefficients. -/
def codedTerms (code : FieldConst → Fin (2 ^ 32)) (ts : List Term) : List (VarId × Fin (2 ^ 32)) :=
  ts.map fun t => (t.var, code t.coeff)

/-- The bytes of a linear combination, by the codes of its constants. -/
def lcBytes (S : UnstableSort) (code : FieldConst → Fin (2 ^ 32)) (l : LinearCombination) :
    List UInt8 :=
  putVarint (code l.constant).val ++ (putVarint (S.sort (codedTerms code l.terms)).length ++
    putTerms 0 (S.sort (codedTerms code l.terms)))

/-- **Interning the terms.** -/
lemma grown_internTerms (ts : List Term) {pool : Pool} (h : pool.Ok) :
    Pool.Grown (ts.map Term.coeff) pool (internTerms ts pool).2 ∧
      ∀ P : Pool, (internTerms ts pool).2.vals <+: P.vals →
        (internTerms ts pool).1 = codedTerms P.code ts := by
  induction ts generalizing pool with
  | nil => exact ⟨Pool.Grown.refl h, fun _ _ => rfl⟩
  | cons t ts ih =>
      obtain ⟨hone, hcode⟩ := Pool.grown_intern h t.coeff
      obtain ⟨hrest, hterms⟩ := ih hone.ok
      refine ⟨hone.trans hrest, fun P hP => ?_⟩
      have hmem := hone.mem t.coeff (List.mem_singleton_self _)
      have hstable := Pool.code_eq_of_prefix hmem (hrest.incl.trans hP)
      rw [internTerms, codedTerms, List.map_cons, hstable, ← hcode]
      exact congrArg _ (hterms P hP)

/-- **One linear combination.** -/
lemma grown_putLc (S : UnstableSort) (l : LinearCombination) {pool : Pool} (h : pool.Ok) :
    Pool.Grown l.coeffs pool (putLc S l pool).2 ∧
      ∀ P : Pool, (putLc S l pool).2.vals <+: P.vals → (putLc S l pool).1 = lcBytes S P.code l := by
  obtain ⟨hone, hcode⟩ := Pool.grown_intern h l.constant
  obtain ⟨hrest, hterms⟩ := grown_internTerms l.terms hone.ok
  refine ⟨hone.trans hrest, fun P hP => ?_⟩
  have hmem := hone.mem l.constant (List.mem_singleton_self _)
  have hstable := Pool.code_eq_of_prefix hmem (hrest.incl.trans hP)
  have hsorted := congrArg S.sort (hterms P hP)
  rw [putLc, lcBytes, hstable, ← hcode]
  simp only
  rw [hsorted]

/-! ### The rows -/

/-- The constants of a row. -/
def R1csConstraint.coeffs (c : R1csConstraint) : List FieldConst :=
  c.a.coeffs ++ (c.b.coeffs ++ c.c.coeffs)

/-- The linear combinations of a row. -/
def R1csConstraint.lcs (c : R1csConstraint) : List LinearCombination := [c.a, c.b, c.c]

/-- The bytes of a row, by the codes of its constants. -/
def rowBytes (S : UnstableSort) (code : FieldConst → Fin (2 ^ 32)) (c : R1csConstraint) :
    List UInt8 :=
  c.lcs.flatMap (lcBytes S code)

/-- The loop after the rows `done`. -/
structure RowsEncoded (S : UnstableSort) (done : List R1csConstraint) (s : RowsState) : Prop where
  grown : Pool.Grown (done.flatMap R1csConstraint.coeffs) zeroPool s.pool
  rows : ∀ P : Pool, s.pool.vals <+: P.vals → s.rows = done.flatMap (rowBytes S P.code)
  offsets : ∀ P : Pool, s.pool.vals <+: P.vals →
    s.offsets = (List.range ((done.length + (windowRows - 1)) / windowRows)).map fun w =>
      ((done.take (windowRows * w)).flatMap (rowBytes S P.code)).length

/-- **The step**: one row more. -/
lemma RowsEncoded.step {S : UnstableSort} {done : List R1csConstraint} {s : RowsState}
    (h : RowsEncoded S done s) (c : R1csConstraint) :
    RowsEncoded S (done ++ [c]) (putRow S s done.length c) := by
  obtain ⟨ha, hbytesa⟩ := grown_putLc S c.a h.grown.ok
  obtain ⟨hb, hbytesb⟩ := grown_putLc S c.b ha.ok
  obtain ⟨hc, hbytesc⟩ := grown_putLc S c.c hb.ok
  have hall := h.grown.trans (ha.trans (hb.trans hc))
  refine ⟨?_, fun P hP => ?_, fun P hP => ?_⟩
  · rw [List.flatMap_append, List.flatMap_singleton]
    exact hall
  · have hPb := hc.incl.trans hP
    have hPa := hb.incl.trans hPb
    rw [List.flatMap_append, List.flatMap_singleton, ← h.rows P (ha.incl.trans hPa), rowBytes]
    simp only [R1csConstraint.lcs, List.flatMap_cons, List.flatMap_nil, List.append_nil]
    rw [← hbytesa P hPa, ← hbytesb P hPb, ← hbytesc P hP, ← List.append_assoc, ← List.append_assoc]
    rfl
  · have hPs := ha.incl.trans (hb.incl.trans (hc.incl.trans hP))
    -- the windows before the row have all their rows before it
    have htake : ∀ w, windowRows * w ≤ done.length →
        (done ++ [c]).take (windowRows * w) = done.take (windowRows * w) := fun w hw =>
      List.take_append_of_le_length hw
    have hoff : (putRow S s done.length c).offsets
        = if done.length % windowRows = 0 then s.offsets ++ [s.rows.length] else s.offsets := rfl
    rw [hoff, h.offsets P hPs, h.rows P hPs, List.length_append, List.length_singleton]
    have hpos : windowRows = 4096 := rfl
    have hmap : ∀ n, windowRows * n ≤ done.length + (windowRows - 1) →
        (List.range n).map (fun w =>
          ((done.take (windowRows * w)).flatMap (rowBytes S P.code)).length)
        = (List.range n).map fun w =>
          (((done ++ [c]).take (windowRows * w)).flatMap (rowBytes S P.code)).length := by
      intro n hn
      refine List.map_congr_left fun w hw => ?_
      have hw := List.mem_range.mp hw
      rw [htake w (by rw [hpos] at hn ⊢; omega)]
    split_ifs with hmod
    · have hnext : (done.length + 1 + (windowRows - 1)) / windowRows
          = (done.length + (windowRows - 1)) / windowRows + 1 := by
        rw [hpos] at hmod ⊢
        omega
      have hlast : windowRows * ((done.length + (windowRows - 1)) / windowRows) = done.length := by
        rw [hpos] at hmod ⊢
        omega
      rw [hnext, List.range_succ, List.map_append, List.map_singleton, hlast,
        hmap _ (by rw [hlast]; omega), List.take_left]
    · have hsame : (done.length + 1 + (windowRows - 1)) / windowRows
          = (done.length + (windowRows - 1)) / windowRows := by
        rw [hpos] at hmod ⊢
        omega
      rw [hsame, hmap _ (Nat.mul_div_le _ _)]

/-- **The run**: all rows. -/
lemma rowsEncoded_putRows (S : UnstableSort) (constraints : List R1csConstraint) :
    RowsEncoded S constraints (putRows S constraints) := by
  induction constraints using List.reverseRecOn with
  | nil =>
      have hempty : Pool.Ok ⟨[], []⟩ := ⟨List.nodup_nil, fun _ => rfl⟩
      obtain ⟨hgrown, -⟩ := Pool.grown_intern hempty 0
      exact ⟨Pool.Grown.refl hgrown.ok, fun _ _ => rfl, fun _ _ => rfl⟩
  | append_singleton done c ih =>
      have hlast : putRows S (done ++ [c]) = putRow S (putRows S done) done.length c := by
        rw [putRows, List.zipIdx_append, List.foldl_append]
        simp [putRows]
      rw [hlast]
      exact ih.step c

end XarkCircuit
