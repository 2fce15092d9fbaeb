import XarkCircuit.Memory.Copy

/-!
Symbolic memory is a byte memory.

* `Op` is an operation of the interpreter on its memory, with the values that it makes on the way;
  `run` carries out a list of them, and `plainRun` the same operations on a plain memory, with the
  values that the symbols have under a valuation.
* `symbolic_memory_refines`: loads from the symbolic memory evaluate to loads from the plain one,
  and the counts of the granules stay exact, in every run in bounds that keeps below the last granule
  of the address space. `symbolic_memory_overflows` is a run in bounds that does not.
-/

namespace XarkCircuit

namespace Memory

open Codec ByteMemory Succeeding

variable {ρ : ℕ → ℕ} {m m' : Machine}

/-- An operation on the memory. -/
inductive Op where
  /-- A value of the host's: `new_sym`. -/
  | newSym (s : Sym)
  /-- A branch path begins: its writes are recorded from here on. -/
  | openPath
  | store (addr size : ℕ) (v : V)
  | writeWords (addr : ℕ) (words : List ℕ)
  | copy (d : ℕ) (s : V) (n : ℕ)
  | memoryFill (d v n : ℕ)
  | load (addr size : ℕ)
  | slice (v : V) (off len : ℕ)

/-- One operation. -/
def step (m : Machine) : Op → Except Fault Machine
  | .newSym s => .ok { m with syms := (newSym m.syms s).2 }
  | .openPath => .ok { m with journals := [] :: m.journals }
  | .store addr size v => store m addr size v
  | .writeWords addr words => writeWords m addr words
  | .copy d s n => copy m d s n
  | .memoryFill d v n => memoryFill m d v n
  | .load addr size => do .ok (← load m addr size).2
  | .slice v off len => do .ok { m with syms := (← slice m.syms v off len).2 }

/-- The operations one after the other. -/
def run (m : Machine) (ops : List Op) : Except Fault Machine := ops.foldlM step m

/-- Every access ends at `limit` at the latest. -/
def Op.Below (limit : ℕ) (syms : Table) : Op → Prop
  | .newSym _ => True
  | .openPath => True
  | .store addr size _ => addr + size ≤ limit
  | .writeWords addr words => addr + 8 * words.length ≤ limit
  | .copy d s n => d + n ≤ limit ∧ Leaves syms (fun p => p + n ≤ limit) s
  | .memoryFill d _ n => d + n ≤ limit
  | .load addr size => addr + size ≤ limit
  | .slice _ _ _ => True

/-- An operation on values of the table, of at most eight bytes. -/
def Op.Valid (syms : Table) : Op → Prop
  | .newSym s => s ≠ .none ∧ s.Within syms.length
  | .openPath => True
  | .store _ size v => size ≤ 8 ∧ v.s < syms.length
  | .writeWords _ _ => True
  | .copy _ _ _ => True
  | .memoryFill _ _ _ => True
  | .load _ size => size ≤ 8
  | .slice v off len => v.s < syms.length ∧ off < 8 ∧ len ≤ 8

/-- An operation in bounds. -/
structure Op.InBounds (m : Machine) (op : Op) : Prop where
  valid : op.Valid m.syms
  below : op.Below m.len m.syms

/-- Every operation is in bounds where the run gets to it, and has `P` there. -/
def RunsWith (P : Machine → Op → Prop) : Machine → List Op → Prop
  | _, [] => True
  | m, op :: ops =>
      op.InBounds m ∧ P m op ∧ ∀ m', step m op = .ok m' → RunsWith P m' ops

/-- What an operation does to a plain memory, where the symbols have the values `vals`. -/
def Op.plain (vals : ℕ → ℕ) (mem : ℕ → UInt8) : Op → ℕ → UInt8
  | .newSym _ => mem
  | .openPath => mem
  | .store addr size v => write mem addr size (byteAt (v.value vals))
  | .writeWords addr words => write mem addr (8 * words.length) (wordBytes words)
  | .copy d s n => write mem d n fun i => mem (s.value vals % 2 ^ 32 + i)
  | .memoryFill d v n => write mem d n fun _ => UInt8.ofNat v
  | .load _ _ => mem
  | .slice _ _ _ => mem

/-- The operations on a plain memory. -/
def plainRun (vals : ℕ → ℕ) (mem : ℕ → UInt8) (ops : List Op) : ℕ → UInt8 :=
  ops.foldl (Op.plain vals) mem

/-! ### One operation -/

/-- What an operation does, in terms of any later table. -/
structure Machine.Steps (m : Machine) (ops : List Op) (m' : Machine) : Prop where
  good : m'.Good
  len : m'.len = m.len
  pre : m.syms <+: m'.syms
  content : ∀ ρ syms, m'.syms <+: syms → Table.Fits ρ syms →
    m'.content ρ = plainRun (Table.value ρ syms) (m.content ρ) ops

lemma Machine.Runs.steps {f : (ℕ → ℕ) → (ℕ → UInt8) → ℕ → UInt8} (h : m.Runs f m') {op : Op}
    (hop : ∀ ρ syms, m.syms <+: syms → Table.Fits ρ syms →
      f ρ (m.content ρ) = op.plain (Table.value ρ syms) (m.content ρ)) : m.Steps [op] m' := by
  refine ⟨h.good, h.len, h.pre, fun ρ syms hpre hρ => ?_⟩
  have hpre' := h.pre.trans hpre
  rw [h.content ρ (hρ.shrink hpre'), hop ρ syms hpre' hρ]
  rfl

lemma Leaves.and {syms : Table} {P Q : ℕ → Prop} {v : V} (hP : Leaves syms P v)
    (hQ : Leaves syms Q v) : Leaves syms (fun p => P p ∧ Q p) v := by
  induction hP with
  | address hsym h =>
      cases hQ with
      | address _ h' => exact .address hsym ⟨h, h'⟩
      | select hsym' _ _ _ => rw [hsym] at hsym'; cases hsym'
  | select hsym hget _ _ iht ihe =>
      cases hQ with
      | address hsym' _ => rw [hsym] at hsym'; cases hsym'
      | select _ hget' ht he =>
          rw [hget] at hget'
          obtain ⟨-, rfl, rfl⟩ := Sym.ite.inj (Option.some.inj hget')
          exact .select hsym hget (iht ht) (ihe he)

/-- **One step**: in bounds and below the last granule, an operation returns, keeps the invariant
and does to the plain memory what it does. -/
theorem step_steps (hgood : m.Good) {op : Op} (hop : op.InBounds m)
    (hbelow : op.Below topOfGranules m.syms) : Succeeds (step m op) (m.Steps [op]) := by
  have hlen := hop.below
  cases op with
  | newSym s =>
      obtain ⟨hne, hs⟩ := hop.valid
      have hpre : m.syms <+: m.syms ++ [s] := List.prefix_append _ _
      refine .ok ⟨⟨hgood.wf.concat hs hne, hgood.counts, fun a => ?_⟩, rfl, hpre, fun ρ _ _ _ => ?_⟩
      · exact (hgood.within a).mono hpre.length_le
      · exact funext fun a => Cell.value_grow hpre (hgood.within a)
  | openPath =>
      have hgood' : Machine.Good { m with journals := [] :: m.journals } :=
        ⟨hgood.wf, hgood.counts, hgood.within⟩
      exact .ok ⟨hgood', rfl, List.prefix_rfl, fun _ _ _ _ => rfl⟩
  | store addr size v =>
      obtain ⟨hsize, hv⟩ := hop.valid
      refine (store_runs hgood ⟨hlen, hbelow⟩ hsize hv).mono fun m' hm' => hm'.2.steps ?_
      intro ρ syms hpre _
      rw [Op.plain, V.value_grow hpre hv]
  | writeWords addr words =>
      exact (writeWords_runs hgood ⟨hlen, hbelow⟩).mono fun m' hm' => hm'.steps fun _ _ _ _ => rfl
  | copy d s n =>
      have hd : m.Reaches d n := ⟨hlen.1, hbelow.1⟩
      have hs : Leaves m.syms (fun p => m.Reaches p n) s := hlen.2.and hbelow.2
      have hslt := hs.within hgood.wf
      by_cases hsym : s.isSym = true
      · refine (copy_select_runs hgood hsym hd hs).mono fun m' hm' => hm'.steps ?_
        intro ρ syms hpre _
        rw [Op.plain, V.value_grow hpre hslt]
        rfl
      · have hconcrete : s.isSym = false := by simpa using hsym
        have hsrc : m.Reaches (s.b % 2 ^ 32) n := by
          cases hs with
          | address _ h => exact h
          | select hsym' _ _ _ => exact absurd hsym' hsym
        refine (copy_concrete_runs hgood hconcrete hd hsrc).mono fun m' hm' => hm'.steps ?_
        intro ρ syms _ _
        rw [Op.plain, V.value, if_neg hsym]
  | memoryFill d v n =>
      exact (memoryFill_runs hgood ⟨hlen, hbelow⟩).mono fun m' hm' => hm'.steps fun _ _ _ _ => rfl
  | load addr size =>
      refine (load_loads hgood ⟨hlen, hbelow⟩ hop.valid).bind fun r hr => .ok ?_
      exact hr.runs.steps fun _ _ _ _ => rfl
  | slice v off len =>
      obtain ⟨hv, hoff, hlen8⟩ := hop.valid
      refine (sliceFuel_yields hgood.wf hv hoff hlen8 (Nat.lt_succ_self _)).bind fun r hr => .ok ?_
      exact (hr.loads hgood).runs.steps fun _ _ _ _ => rfl

/-! ### Runs -/

lemma Machine.Steps.trans {ops ops' : List Op} {m'' : Machine} (h : m.Steps ops m')
    (h' : m'.Steps ops' m'') : m.Steps (ops ++ ops') m'' := by
  refine ⟨h'.good, h'.len.trans h.len, h.pre.trans h'.pre, fun ρ syms hpre hρ => ?_⟩
  rw [h'.content ρ syms hpre hρ, h.content ρ syms (h'.pre.trans hpre) hρ, plainRun, plainRun,
    plainRun, List.foldl_append]

/-- **A run**, by induction on the operations. -/
theorem run_steps {ops : List Op} (hgood : m.Good)
    (hops : RunsWith (fun m op => op.Below topOfGranules m.syms) m ops) :
    Succeeds (run m ops) (m.Steps ops) := by
  induction ops generalizing m with
  | nil => exact .ok ⟨hgood, rfl, List.prefix_rfl, fun _ _ _ _ => rfl⟩
  | cons op ops ih =>
      obtain ⟨hop, hbelow, hrest⟩ := hops
      rw [run, List.foldlM_cons]
      obtain ⟨m₁, hstep, hm₁⟩ := step_steps hgood hop hbelow
      rw [hstep]
      exact (ih hm₁.good (hrest m₁ hstep)).mono fun m₂ hm₂ => hm₁.trans hm₂

/-- A fresh memory. -/
lemma new_good {memPages : ℕ} {data : List (ℕ × List UInt8)} {m₀ : Machine}
    (h : Machine.new memPages data = .ok m₀) : m₀.Good ∧ ∀ ρ, m₀.content ρ = m₀.mem := by
  rw [Machine.new] at h
  cases hdata : data.foldlM (m := Except Fault) (fun mem d =>
      if d.1 + d.2.length ≤ memPages * 65536 then
        .ok (write mem d.1 d.2.length fun i => d.2.getD i 0)
      else .error (.compile "circuit execution trapped: data segment out of bounds"))
      (fun _ => 0) with
  | error e =>
      rw [hdata] at h
      cases h
  | ok mem =>
      rw [hdata] at h
      obtain rfl := Except.ok.inj h
      have hwithin : ∀ (i : ℕ) (s : Sym), [Sym.none][i]? = some s → i = 0 ∧ s = .none := by
        intro i s hs
        cases i with
        | zero => exact ⟨rfl, (Option.some.inj hs).symm⟩
        | succ i => cases hs
      have hplaceholder : ∀ i : ℕ, [Sym.none][i]? = some Sym.none → i = 0 :=
        fun i hs => (hwithin i _ hs).1
      refine ⟨⟨⟨rfl, fun i s hs => ?_, hplaceholder⟩, ?_, fun a => ?_⟩, fun ρ => rfl⟩
      · rw [(hwithin i s hs).2]
        exact trivial
      · funext g
        exact (granule_eq_zero.mpr fun i _ => rfl).symm
      · rintro sb ⟨⟩

/-- **Symbolic memory is a byte memory**, in every run that keeps below the last granule of the
address space. -/
theorem symbolic_memory_refines {memPages : ℕ} {data : List (ℕ × List UInt8)} {m₀ : Machine}
    {ops : List Op} (hnew : Machine.new memPages data = .ok m₀)
    (hops : RunsWith (fun m op => op.Below topOfGranules m.syms) m₀ ops) :
    ∃ m, run m₀ ops = .ok m ∧
      (∀ g, m.gran g
        = ((Finset.range 8).filter fun i => (m.shadow (8 * g + i)).isSome).card) ∧
      (∀ addr size, addr + size ≤ m₀.len → addr + size ≤ topOfGranules →
        ∃ b, hasShadow m addr size = .ok b ∧
          (b = false → ∀ a, addr ≤ a → a < addr + size → m.shadow a = none)) ∧
      ∀ addr size, size ≤ 8 → addr + size ≤ m₀.len → addr + size ≤ topOfGranules →
        ∃ v m', load m addr size = .ok (v, m') ∧ ∀ ρ, Table.Fits ρ m.syms →
          v.value (Table.value ρ m'.syms)
            = read (plainRun (Table.value ρ m.syms) m₀.mem ops) addr size := by
  obtain ⟨hgood₀, hcontent⟩ := new_good hnew
  obtain ⟨m, hrun, hm⟩ := run_steps hgood₀ hops
  have hcounts : m.gran = granOf m.shadow := hm.good.counts
  refine ⟨m, hrun, fun g => by rw [hcounts]; rfl, fun addr size hlen htop => ?_,
    fun addr size hsize hlen htop => ?_⟩
  · exact hasShadow_succeeds hm.good.counts (hm.len ▸ hlen) htop
  · obtain ⟨⟨v, m'⟩, hload, hloads⟩ := load_loads hm.good ⟨hm.len ▸ hlen, htop⟩ hsize
    refine ⟨v, m', hload, fun ρ hρ => ?_⟩
    have hvalue := hloads.value ρ hρ
    rwa [hm.content ρ m.syms List.prefix_rfl hρ, hcontent] at hvalue

/-- The rest of a run need only be in bounds after what the operation does. -/
lemma runsWith_cons {op : Op} {ops : List Op} (hgood : m.Good) (hop : op.InBounds m)
    (hbelow : op.Below topOfGranules m.syms)
    (hrest : ∀ m', step m op = .ok m' → m.Steps [op] m' →
      RunsWith (fun m op => op.Below topOfGranules m.syms) m' ops) :
    RunsWith (fun m op => op.Below topOfGranules m.syms) m (op :: ops) := by
  refine ⟨hop, hbelow, fun m' hm' => hrest m' hm' ?_⟩
  obtain ⟨m₁, hstep, hsteps⟩ := step_steps hgood hop hbelow
  rw [hm'] at hstep
  exact Except.ok.inj hstep ▸ hsteps

/-- A run: a byte of a wire is stored, and then copied together with the bytes next to it onto an
overlapping range. -/
def wireRun : List Op := [.newSym (.wire 0 8), .store 3 1 ⟨0, 1⟩, .copy 4 (.c 3) 8]

/-- The memory of one page. -/
def onePage : Machine := ⟨65536, fun _ => 0, fun _ => none, fun _ => 0, [.none], []⟩

lemma runsWith_wireRun :
    RunsWith (fun m op => op.Below topOfGranules m.syms) onePage wireRun := by
  have hpage : onePage.Good := (@new_good 1 [] onePage rfl).1
  refine runsWith_cons hpage ⟨⟨by simp, trivial⟩, trivial⟩ trivial fun m₁ hm₁ h₁ => ?_
  have hlen₁ : m₁.len = 65536 := h₁.len
  have hids : 1 < m₁.syms.length := by
    rw [← Except.ok.inj hm₁]
    decide
  have htop : 12 ≤ topOfGranules := by decide
  refine runsWith_cons h₁.good ⟨⟨by norm_num, hids⟩, ?_⟩ ?_ fun m₂ _ h₂ => ?_
  · rw [Op.Below, hlen₁]
    norm_num
  · rw [Op.Below]
    omega
  have hlen₂ : m₂.len = 65536 := h₂.len.trans hlen₁
  refine ⟨⟨trivial, ?_, .address rfl ?_⟩, ⟨by decide, .address rfl (by decide)⟩, fun _ _ => trivial⟩
  · rw [hlen₂]
    norm_num
  · rw [hlen₂]
    norm_num [V.c]

/-- The byte that a load finds after the run. -/
theorem symbolic_memory_refines_wireRun : ∃ m, run onePage wireRun = .ok m ∧
    ∃ v m', load m 4 8 = .ok (v, m') ∧ ∀ ρ, Table.Fits ρ m.syms →
      v.value (Table.value ρ m'.syms)
        = read (plainRun (Table.value ρ m.syms) onePage.mem wireRun) 4 8 := by
  obtain ⟨m, hrun, -, -, hload⟩ :=
    @symbolic_memory_refines 1 [] onePage wireRun rfl runsWith_wireRun
  exact ⟨m, hrun, hload 4 8 le_rfl (by decide) (by decide)⟩

/-- **The last granule**: a copy in bounds, of the last byte of 65536 pages, overflows. -/
theorem symbolic_memory_overflows : ∃ m₀, Machine.new 65536 [] = .ok m₀ ∧
    RunsWith (fun _ _ => True) m₀ [.copy 0 (.c (2 ^ 32 - 1)) 1] ∧
      run m₀ [.copy 0 (.c (2 ^ 32 - 1)) 1] = .error .panic := by
  refine ⟨_, rfl, ⟨⟨trivial, ?_, .address rfl ?_⟩, trivial, fun _ _ => trivial⟩, rfl⟩
  · norm_num
  · norm_num [V.c]

end Memory

end XarkCircuit
