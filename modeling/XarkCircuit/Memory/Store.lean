import XarkCircuit.Memory.Shadow
import XarkCircuit.Memory.Assemble

/-!
Loads and stores.

* `Machine.Good` is the invariant of the memory: a well-formed table, exact counts, and symbolic
  bytes of the table only. `Machine.content` is the plain memory under a valuation.
* `Machine.Runs m m' f`: from `m` to `m'` the plain memory goes through `f`, whatever the valuation.
  `store_runs`, `writeWords_runs` and `memoryFill_runs` are the writes, `load_yields` the loads.
-/

namespace XarkCircuit

namespace Memory

open Codec ByteMemory Succeeding

variable {ρ : ℕ → ℕ} {m m' : Machine}

/-- The invariant of the memory. -/
structure Machine.Good (m : Machine) : Prop where
  wf : m.syms.Wf
  counts : m.Exact
  within : ∀ a, Cell.Within m.syms.length (m.cell a)

/-- The plain memory, with the wires given by `ρ`. -/
def Machine.content (ρ : ℕ → ℕ) (m : Machine) : ℕ → UInt8 :=
  Cell.value (Table.value ρ m.syms) ∘ m.cell

/-- A range of the memory, below the last granule of the address space. -/
def Machine.Reaches (m : Machine) (addr size : ℕ) : Prop :=
  addr + size ≤ m.len ∧ addr + size ≤ topOfGranules

lemma Machine.Reaches.lt {addr size : ℕ} (h : m.Reaches addr size) : addr + size < 2 ^ 32 := by
  have h2 := h.2
  rw [topOfGranules] at h2
  omega

/-! ### What an operation does -/

/-- The same table and size, with the cells `cells`. -/
structure Machine.Becomes (m : Machine) (cells : ℕ → Cell) (m' : Machine) : Prop where
  len : m'.len = m.len
  syms : m'.syms = m.syms
  counts : m'.Exact
  cell : m'.cell = cells

/-- From `m` to `m'` the plain memory goes through `f`. -/
structure Machine.Runs (m : Machine) (f : (ℕ → ℕ) → (ℕ → UInt8) → ℕ → UInt8) (m' : Machine) :
    Prop where
  good : m'.Good
  len : m'.len = m.len
  pre : m.syms <+: m'.syms
  /-- No wires are new. -/
  fits : ∀ ρ, Table.Fits ρ m.syms → Table.Fits ρ m'.syms
  content : ∀ ρ, Table.Fits ρ m.syms → m'.content ρ = f ρ (m.content ρ)

lemma Machine.Runs.refl (h : m.Good) : m.Runs (fun _ mem => mem) m :=
  ⟨h, rfl, List.prefix_rfl, fun _ h => h, fun _ _ => rfl⟩

lemma Machine.Runs.congr {f g : (ℕ → ℕ) → (ℕ → UInt8) → ℕ → UInt8} (h : m.Runs f m')
    (hfg : ∀ ρ, Table.Fits ρ m.syms → f ρ (m.content ρ) = g ρ (m.content ρ)) : m.Runs g m' :=
  ⟨h.good, h.len, h.pre, h.fits, fun ρ hρ => (h.content ρ hρ).trans (hfg ρ hρ)⟩

lemma Machine.Runs.trans {f g : (ℕ → ℕ) → (ℕ → UInt8) → ℕ → UInt8} {m'' : Machine}
    (h : m.Runs f m') (h' : m'.Runs g m'') : m.Runs (fun ρ mem => g ρ (f ρ mem)) m'' :=
  ⟨h'.good, h'.len.trans h.len, h.pre.trans h'.pre, fun ρ hρ => h'.fits ρ (h.fits ρ hρ),
    fun ρ hρ => by rw [h'.content ρ (h.fits ρ hρ), h.content ρ hρ]⟩

/-- A write of cells is a write of their values. -/
lemma Machine.Becomes.runs (hgood : m.Good) {addr size : ℕ} {f : ℕ → Cell}
    (h : m.Becomes (write m.cell addr size f) m')
    (hin : ∀ i < size, Cell.Within m.syms.length (f i)) :
    m.Runs (fun ρ mem => write mem addr size fun i => Cell.value (Table.value ρ m.syms) (f i))
      m' := by
  refine ⟨⟨h.syms ▸ hgood.wf, h.counts, fun a => ?_⟩, h.len, h.syms ▸ List.prefix_rfl,
    fun ρ hρ => h.syms ▸ hρ, fun ρ _ => ?_⟩
  · rw [h.cell, h.syms, write]
    split_ifs with ha
    · exact hin _ (by omega)
    · exact hgood.within a
  · rw [Machine.content, h.cell, h.syms, comp_write]
    rfl

/-! ### Journals -/

lemma journal_succeeds {addr size : ℕ} (h : m.Reaches addr size) :
    Succeeds (journal m addr size) fun m' => ∃ js, m' = { m with journals := js } := by
  rw [journal]
  split
  · exact .ok ⟨m.journals, rfl⟩
  · rw [add32_ok h.lt]
    refine Succeeds.bind (P := fun e => e = addr + size) (.ok rfl) fun e he => ?_
    subst he
    rw [if_pos (.inr h.1)]
    exact .ok ⟨_, rfl⟩

/-! ### Stores -/

lemma storeCell_becomes {cells : ℕ → Cell} {addr i : ℕ} (hm : m.Becomes cells m')
    (hlen : addr + i < m.len) (hlt : addr + i < 2 ^ 32) (c : Cell) :
    Succeeds (storeCell m' addr i c)
      (m.Becomes (Function.update cells (addr + i) c)) := by
  rw [storeCell, if_pos (by rw [hm.len]; exact hlen), add32_ok hlt]
  have hex : Machine.Exact { m' with mem := Function.update m'.mem (addr + i) c.1 } := hm.counts
  refine .ok ?_
  rw [setShadow_eq hex]
  refine ⟨hm.len, hm.syms, Machine.exact_withShadow _ _, ?_⟩
  funext a
  have hcell : m'.cell a = cells a := congrFun hm.cell a
  by_cases ha : a = addr + i
  · subst ha
    simp [Machine.cell, Machine.withShadow]
  · rw [Function.update_of_ne ha, ← hcell]
    simp [Machine.cell, Machine.withShadow, Function.update_of_ne ha]

/-- The cells of a symbol, one after the other. -/
lemma storeCells_becomes (hgood : m.Good) {addr size : ℕ} (h : m.Reaches addr size) {js : _}
    (f : ℕ → Cell) :
    Succeeds ((List.range size).foldlM (fun m i => storeCell m addr i (f i))
      { m with journals := js }) (m.Becomes (write m.cell addr size f)) := by
  have hloop : Succeeds ((List.range size).foldlM (fun m i => storeCell m addr i (f i))
      { m with journals := js }) (m.Becomes (write m.cell addr (List.range size).length f)) := by
    refine Succeeds.foldlM (fun i => m.Becomes (write m.cell addr i f)) ?_ fun i hi m' hm' => ?_
    · rw [write_zero]
      exact ⟨rfl, rfl, hgood.counts, rfl⟩
    · rw [List.length_range] at hi
      have hlt := h.lt
      have hlen := h.1
      rw [List.getElem_range, write_succ]
      exact storeCell_becomes hm' (by omega) (by omega) (f i)
  rwa [List.length_range] at hloop

/-- Concrete bytes over a range, cleared where it has symbolic ones. -/
lemma settle_becomes (hgood : m.Good) {addr size : ℕ} (h : m.Reaches addr size) {js : _}
    (f : ℕ → UInt8) {m₁ : Machine}
    (hm₁ : m₁ = { m with mem := write m.mem addr size f, journals := js }) :
    Succeeds (do if ← hasShadow m₁ addr size then clearShadow m₁ addr size else .ok m₁)
      (m.Becomes (write m.cell addr size fun i => (f i, none))) := by
  subst hm₁
  have hex : Machine.Exact { m with mem := write m.mem addr size f, journals := js } := hgood.counts
  refine (hasShadow_succeeds hex h.1 h.2).bind fun b hb => ?_
  cases b with
  | true =>
      rw [if_pos rfl, clearShadow_eq hex h.2]
      refine .ok ⟨rfl, rfl, Machine.exact_withShadow _ _, funext fun a => ?_⟩
      simp only [Machine.cell, Machine.withShadow, write]
      split_ifs <;> rfl
  | false =>
      refine .ok ⟨rfl, rfl, hex, funext fun a => ?_⟩
      simp only [Machine.cell, write]
      split_ifs with ha
      · exact Prod.ext rfl (hb rfl a ha.1 ha.2)
      · rfl

/-- The cells that a store writes have the bytes of the value. -/
lemma storedCell_spec (hwf : Table.Wf m.syms) {v : V} {sym : Sym} (hsym : v.isSym = true)
    (hget : m.syms[v.s]? = some sym) {size i : ℕ} (hi : i < size) :
    Cell.Within m.syms.length (storedCell v.s sym size i) ∧
      ∀ ρ, Table.Fits ρ m.syms → Cell.value (Table.value ρ m.syms) (storedCell v.s sym size i)
        = byteAt (v.value (Table.value ρ m.syms)) i := by
  have hlt : v.s < m.syms.length := (List.getElem?_eq_some_iff.mp hget).1
  have hval : ∀ ρ, v.value (Table.value ρ m.syms) = Table.value ρ m.syms v.s :=
    fun ρ => by rw [V.value, if_pos hsym]
  have hself : Cell.Within m.syms.length (0, some ⟨v.s, i⟩) := by
    rintro sb ⟨⟩
    exact hlt
  have hnone : Cell.Within m.syms.length (0, none) := by
    rintro sb ⟨⟩
  simp only [hval]
  cases sym with
  | none =>
      have hin : i < symBytes .none size := hi
      simp only [storedCell, if_pos hin]
      exact ⟨hself, fun _ _ => rfl⟩
  | ite cond t e =>
      have hin : i < symBytes (.ite cond t e) size := hi
      simp only [storedCell, if_pos hin]
      exact ⟨hself, fun _ _ => rfl⟩
  | bytes b =>
      rw [storedCell]
      refine ⟨?_, fun ρ _ => ?_⟩
      · rcases Nat.lt_or_ge i b.length with hk | hk
        · rw [List.getD_eq_getElem _ _ hk]
          exact (hwf.within _ _ hget _ (List.getElem_mem hk)).mono hlt.le
        · rw [List.getD_eq_default _ _ hk]
          exact hnone
      · rw [Table.value_eq hwf hget, Sym.value, byteAt_fromBytesLe]
        exact (List.getD_map b (0, none) (Cell.value (Table.value ρ m.syms))).symm
  | wire id width =>
      simp only [storedCell]
      by_cases hin : i < symBytes (.wire id width) size
      · rw [if_pos hin]
        exact ⟨hself, fun _ _ => rfl⟩
      · rw [if_neg hin]
        refine ⟨hnone, fun ρ hρ => ?_⟩
        rw [Table.value_eq hwf hget]
        have hwide : width ≤ 8 * i := by
          rw [symBytes, divCeil8] at hin
          omega
        exact (byteAt_eq_zero ((hρ _ _ _ hget).trans_le (two_pow_le_256 hwide))).symm

/-- **`store`** writes the bytes of the value. -/
theorem store_runs (hgood : m.Good) {addr size : ℕ} {v : V} (h : m.Reaches addr size)
    (hsize : size ≤ 8) (hv : v.s < m.syms.length) :
    Succeeds (store m addr size v) fun m' => m'.syms = m.syms ∧
      m.Runs (fun ρ mem => write mem addr size (byteAt (v.value (Table.value ρ m.syms)))) m' := by
  refine (journal_succeeds h).bind fun m₁ => ?_
  rintro ⟨js, rfl⟩
  split_ifs with hsym
  · refine (symAt_succeeds hv).bind fun sym hget => ?_
    refine (storeCells_becomes hgood h _).mono fun m' hm' => ⟨hm'.syms, ?_⟩
    have hspec := fun i (hi : i < size) => storedCell_spec hgood.wf hsym hget hi
    refine (hm'.runs hgood fun i hi => (hspec i hi).1).congr fun ρ hρ => ?_
    exact write_congr fun i hi => (hspec i hi).2 ρ hρ
  · have hbytes : storeBytes { m with journals := js } addr size v.b
        = .ok { m with mem := write m.mem addr size (byteAt v.b), journals := js } :=
      if_pos ⟨h.1, hsize⟩
    rw [hbytes]
    refine (settle_becomes hgood h (byteAt v.b) rfl).mono fun m' hm' => ⟨hm'.syms, ?_⟩
    refine (hm'.runs hgood fun i _ => by rintro sb ⟨⟩).congr fun ρ _ => ?_
    rw [V.value, if_neg hsym]
    rfl

/-! ### Loads -/

/-- A value with the value `x`, and the same plain memory. -/
structure Machine.Loads (m : Machine) (x : (ℕ → ℕ) → ℕ) (r : V × Machine) : Prop where
  runs : m.Runs (fun _ mem => mem) r.2
  within : r.1.s < r.2.syms.length
  value : ∀ ρ, Table.Fits ρ m.syms → r.1.value (Table.value ρ r.2.syms) = x ρ

lemma Machine.Loads.congr {x y : (ℕ → ℕ) → ℕ} {r : V × Machine} (h : m.Loads x r)
    (hxy : ∀ ρ, Table.Fits ρ m.syms → x ρ = y ρ) : m.Loads y r :=
  ⟨h.runs, h.within, fun ρ hρ => (h.value ρ hρ).trans (hxy ρ hρ)⟩

/-- A larger table leaves the memory as it is. -/
lemma Yields.loads (hgood : m.Good) {x : (ℕ → ℕ) → ℕ} {r : V × Table} (h : Yields m.syms x r) :
    m.Loads x (r.1, { m with syms := r.2 }) := by
  refine ⟨⟨⟨h.wf, hgood.counts, fun a => ?_⟩, rfl, h.pre, h.fits, fun ρ _ => ?_⟩, h.within, h.value⟩
  · exact (hgood.within a).mono h.pre.length_le
  · exact funext fun a => Cell.value_grow h.pre (hgood.within a)

/-- **`load`** reads the number at the address. -/
theorem load_loads (hgood : m.Good) {addr size : ℕ} (h : m.Reaches addr size) (hsize : size ≤ 8) :
    Succeeds (load m addr size) (m.Loads fun ρ => read (m.content ρ) addr size) := by
  refine (hasShadow_succeeds hgood.counts h.1 h.2).bind fun b hb => ?_
  cases b with
  | true =>
      rw [if_pos rfl, if_pos h.1]
      have hin : ∀ c ∈ (List.range size).map fun i : ℕ => m.cell (addr + i),
          Cell.Within m.syms.length c := by
        intro c hc
        obtain ⟨i, -, rfl⟩ := List.mem_map.mp hc
        exact hgood.within _
      refine (assemble_yields hgood.wf hin (by simpa using hsize)).bind fun r hr => .ok ?_
      refine (hr.loads hgood).congr fun ρ _ => ?_
      rw [cellsValue, List.map_map]
      rfl
  | false =>
      rw [if_neg (by simp), if_pos ⟨h.1, hsize⟩]
      refine .ok (((yields_c hgood.wf _).loads hgood).congr fun ρ _ => ?_)
      refine congrArg fromBytesLe (List.map_congr_left fun i hi => ?_)
      have hnone := hb rfl (addr + i) (by omega) (by have := List.mem_range.mp hi; omega)
      rw [Machine.content, Function.comp_apply, Machine.cell, hnone, Cell.value]

/-! ### Words and fills -/

/-- The bytes of words. -/
def wordBytes (words : List ℕ) (i : ℕ) : UInt8 := byteAt (words.getD (i / 8) 0) (i % 8)

/-- One more word. -/
lemma write_wordBytes (mem : ℕ → UInt8) (addr : ℕ) (words : List ℕ) {i : ℕ}
    (hi : i < words.length) :
    write mem addr (8 * (i + 1)) (wordBytes words)
      = write (write mem addr (8 * i) (wordBytes words)) (addr + 8 * i) 8 (byteAt words[i]) := by
  rw [Nat.mul_add, write_append]
  refine write_congr fun k hk => ?_
  rw [wordBytes, Nat.mul_add_div (by norm_num), Nat.div_eq_of_lt hk, Nat.mul_add_mod,
    Nat.mod_eq_of_lt hk, Nat.add_zero, List.getD_eq_getElem _ _ hi]

lemma mul32_word {i n : ℕ} (hi : i ≤ n) (hn : 8 * n < 2 ^ 32) :
    mul32 8 (i % 2 ^ 32) = .ok (8 * i) := by
  rw [Nat.mod_eq_of_lt (by omega), mul32, if_pos (by omega)]

lemma plainTarget_succeeds (hex : m.Exact) {addr size : ℕ} (h : m.Reaches addr size) :
    Succeeds (plainTarget m addr size) fun b => b = true →
      ∀ a, addr ≤ a → a < addr + size → m.shadow a = none := by
  rw [plainTarget]
  split_ifs
  · refine (hasShadow_succeeds hex h.1 h.2).bind fun b hb => .ok fun hnot => ?_
    exact hb (by simpa using hnot)
  · exact .ok fun hfalse => by cases hfalse

/-- Words over memory that has no symbolic bytes. -/
lemma storeWords_becomes (hgood : m.Good) {addr : ℕ} {words : List ℕ}
    (h : m.Reaches addr (8 * words.length))
    (hnone : ∀ a, addr ≤ a → a < addr + 8 * words.length → m.shadow a = none) :
    Succeeds (words.zipIdx.foldlM (fun m w => storeBytes m (addr + 8 * w.2) 8 w.1) m)
      (m.Becomes (write m.cell addr (8 * words.length) fun i => (wordBytes words i, none))) := by
  have hloop : Succeeds
      (words.zipIdx.foldlM (fun m w => storeBytes m (addr + 8 * w.2) 8 w.1) m)
      (fun m' => m' = { m with
        mem := write m.mem addr (8 * words.zipIdx.length) (wordBytes words) }) := by
    refine Succeeds.foldlM
      (fun i m' => m' = { m with mem := write m.mem addr (8 * i) (wordBytes words) }) ?_ ?_
    · rw [Nat.mul_zero, write_zero]
    · rintro i hi _ rfl
      rw [List.length_zipIdx] at hi
      have hlen := h.1
      rw [List.getElem_zipIdx, Nat.zero_add, write_wordBytes _ _ _ hi, storeBytes,
        if_pos ⟨by dsimp only; omega, le_rfl⟩]
      exact .ok rfl
  rw [List.length_zipIdx] at hloop
  refine hloop.mono ?_
  rintro _ rfl
  refine ⟨rfl, rfl, hgood.counts, funext fun a => ?_⟩
  simp only [Machine.cell, write]
  split_ifs with ha
  · rw [hnone a ha.1 ha.2]
  · rfl

/-- **`write_words`** writes the bytes of the words. -/
theorem writeWords_runs (hgood : m.Good) {addr : ℕ} {words : List ℕ}
    (h : m.Reaches addr (8 * words.length)) :
    Succeeds (writeWords m addr words)
      (m.Runs fun _ mem => write mem addr (8 * words.length) (wordBytes words)) := by
  have hlt := h.lt
  rw [writeWords, mul32_word le_rfl (by omega)]
  refine Succeeds.bind (P := fun e => e = 8 * words.length) (.ok rfl) fun e he => ?_
  subst he
  have hcheck : check m addr (8 * words.length) = .ok (addr % 2 ^ 32) :=
    if_neg (by have := h.1; omega)
  rw [hcheck]
  refine Succeeds.bind (P := fun _ => True) (.ok trivial) fun _ _ => ?_
  refine (plainTarget_succeeds hgood.counts h).bind fun b hb => ?_
  have hzip : words.zipIdx.length = words.length := List.length_zipIdx
  cases b with
  | true =>
      refine (storeWords_becomes hgood h (hb rfl)).mono fun m' hm' => ?_
      exact (hm'.runs hgood fun i _ => by rintro sb ⟨⟩).congr fun ρ _ => rfl
  | false =>
      rw [if_neg (by simp)]
      have hloop : Succeeds
          (words.zipIdx.foldlM (fun m w => do
            let i ← mul32 8 (w.2 % 2 ^ 32)
            store m (← add32 addr i) 8 (.c w.1)) m)
          (m.Runs fun _ mem => write mem addr (8 * words.zipIdx.length) (wordBytes words)) := by
        refine Succeeds.foldlM
          (fun i => m.Runs fun _ mem => write mem addr (8 * i) (wordBytes words)) ?_ ?_
        · exact (Machine.Runs.refl hgood).congr fun ρ _ => by rw [Nat.mul_zero, write_zero]
        · intro i hi m' hm'
          rw [hzip] at hi
          rw [List.getElem_zipIdx, Nat.zero_add, mul32_word hi.le (by omega)]
          refine Succeeds.bind (P := fun e => e = 8 * i) (.ok rfl) fun e he => ?_
          subst he
          rw [add32_ok (by omega)]
          refine Succeeds.bind (P := fun e => e = addr + 8 * i) (.ok rfl) fun e he => ?_
          subst he
          have hreach : m'.Reaches (addr + 8 * i) 8 := by
            obtain ⟨h1, h2⟩ := h
            exact ⟨by rw [hm'.len]; omega, by omega⟩
          refine (store_runs hm'.good hreach le_rfl hm'.good.wf.pos).mono fun m'' hm'' => ?_
          refine (hm'.trans hm''.2).congr fun ρ _ => ?_
          rw [write_wordBytes _ _ _ hi]
          rfl
      rwa [hzip] at hloop

/-- **`memory.fill`** fills the range with the byte. -/
theorem memoryFill_runs (hgood : m.Good) {d v n : ℕ} (h : m.Reaches d n) :
    Succeeds (memoryFill m d v n) (m.Runs fun _ mem => write mem d n fun _ => UInt8.ofNat v) := by
  have hlt := h.lt
  have hcheck : check m d n = .ok (d % 2 ^ 32) := if_neg (by have := h.1; omega)
  rw [memoryFill, hcheck]
  refine Succeeds.bind (P := fun _ => True) (.ok trivial) fun _ _ => ?_
  refine (journal_succeeds h).bind fun m₁ => ?_
  rintro ⟨js, rfl⟩
  rw [add32_ok hlt]
  refine Succeeds.bind (P := fun e => e = d + n) (.ok rfl) fun e he => ?_
  subst he
  rw [Nat.add_sub_cancel_left]
  have hruns : ∀ m', m.Becomes (write m.cell d n fun _ => (UInt8.ofNat v, none)) m' →
      m.Runs (fun _ mem => write mem d n fun _ => UInt8.ofNat v) m' := fun m' hm' =>
    (hm'.runs hgood fun i _ => by rintro sb ⟨⟩).congr fun ρ _ => rfl
  by_cases hn : n = 0
  · subst hn
    rw [if_pos rfl]
    refine .ok (hruns _ ⟨rfl, rfl, hgood.counts, ?_⟩)
    rw [write_zero, write_zero]
    rfl
  · rw [if_neg hn]
    exact (settle_becomes hgood h (fun _ => UInt8.ofNat v) rfl).mono hruns

end Memory

end XarkCircuit
