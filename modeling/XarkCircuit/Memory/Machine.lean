import XarkCircuit.Memory.Symbols

/-!
Symbolic memory (`interp.rs`).

* `Machine` is the memory of the interpreter: concrete bytes, the symbolic content of some of them,
  and for each granule of eight bytes the count of symbolic ones, which gates the fast paths.
* `store`, `load`, `writeWords`, `copy` and `memoryFill` are the operations. Addresses are `u32`,
  and a sum past `2 ^ 32` is a panic (`add32`), so that nothing is said of a build that wraps.
-/

namespace XarkCircuit

namespace Memory

open Codec ByteMemory

/-- The contents of a range before a write, for undoing a branch path. -/
structure JournalEntry where
  addr : ℕ
  old : List Cell

/-- The memory of `Machine`. -/
structure Machine where
  /-- `mem.len()`. -/
  len : ℕ
  mem : ℕ → UInt8
  shadow : ℕ → Option SymByte
  /-- The symbolic bytes of each granule; the vector has `len / 8 + 1` entries. -/
  gran : ℕ → ℕ
  syms : Table
  /-- The innermost branch path first. -/
  journals : List (List JournalEntry)

/-- `Machine::new`, with the memory of `memPages` pages and the data segments. -/
def Machine.new (memPages : ℕ) (data : List (ℕ × List UInt8)) : Except Fault Machine := do
  let len := memPages * 65536
  let mem ← data.foldlM (fun mem d =>
    if d.1 + d.2.length ≤ len then .ok (write mem d.1 d.2.length fun i => d.2.getD i 0)
    else .error (.compile "circuit execution trapped: data segment out of bounds")) fun _ => 0
  .ok ⟨len, mem, fun _ => none, fun _ => 0, [.none], []⟩

/-- A sum of `u32`. -/
def add32 (a b : ℕ) : Except Fault ℕ := if a + b < 2 ^ 32 then .ok (a + b) else .error .panic

/-- A product of `u32`. -/
def mul32 (a b : ℕ) : Except Fault ℕ := if a * b < 2 ^ 32 then .ok (a * b) else .error .panic

/-! ### The symbolic content -/

/-- The granules of the addresses `addr ..= last`. -/
def granules (addr last : ℕ) : List ℕ := List.range' (addr / 8) (last / 8 + 1 - addr / 8)

/-- `Machine::has_shadow`. -/
def hasShadow (m : Machine) (addr size : ℕ) : Except Fault Bool := do
  let last := (← add32 addr (max size 1)) - 1
  if last / 8 < m.len / 8 + 1 then .ok ((granules addr last).any fun g => m.gran g ≠ 0)
  else .error .panic

/-- `Machine::set_shadow`. -/
def setShadow (m : Machine) (a : ℕ) : Option SymByte → Machine
  | some sb =>
      { m with
        shadow := Function.update m.shadow a (some sb)
        gran := if (m.shadow a).isNone then Function.update m.gran (a / 8) (m.gran (a / 8) + 1)
          else m.gran }
  | none =>
      if m.gran (a / 8) ≠ 0 ∧ (m.shadow a).isSome then
        { m with
          shadow := Function.update m.shadow a none
          gran := Function.update m.gran (a / 8) (m.gran (a / 8) - 1) }
      else m

/-- The addresses of a granule in `addr .. stop`. -/
def granuleRange (g addr stop : ℕ) : Except Fault (List ℕ) := do
  let lo := max (8 * g) addr
  let hi := min (← add32 (8 * g) 8) stop
  .ok (List.range' lo (hi - lo))

/-- The symbolic content of a granule in `addr .. stop` cleared, where it has any. -/
def clearGranule (addr stop : ℕ) (m : Machine) (g : ℕ) : Except Fault Machine :=
  if m.gran g = 0 then .ok m
  else do
    let addrs ← granuleRange g addr stop
    .ok (addrs.foldl (fun m a => setShadow m a none) m)

/-- `Machine::clear_shadow`. -/
def clearShadow (m : Machine) (addr size : ℕ) : Except Fault Machine :=
  if size = 0 then .ok m
  else do
    let stop ← add32 addr size
    (granules addr (stop - 1)).foldlM (clearGranule addr stop) m

/-! ### Loads and stores -/

/-- `Machine::check`. -/
def check (m : Machine) (addr size : ℕ) : Except Fault ℕ :=
  if m.len < addr + size then .error (.oob addr) else .ok (addr % 2 ^ 32)

/-- What is at an address. -/
def Machine.cell (m : Machine) (a : ℕ) : Cell := (m.mem a, m.shadow a)

/-- `Machine::journal`. -/
def journal (m : Machine) (addr size : ℕ) : Except Fault Machine :=
  match m.journals with
  | [] => .ok m
  | j :: journals => do
      let stop ← add32 addr size
      if size = 0 ∨ stop ≤ m.len then
        let old := (List.range size).map fun i : ℕ => m.cell (addr + i)
        .ok { m with journals := (j ++ [⟨addr, old⟩]) :: journals }
      else .error .panic

/-- `Machine::sym_bytes`. -/
def symBytes (sym : Sym) (size : ℕ) : ℕ :=
  match sym with
  | .wire _ width => min (divCeil8 width) size
  | _ => size

/-- What `store` writes to the `i`-th byte for the symbol `s`. -/
def storedCell (s : ℕ) (sym : Sym) (size i : ℕ) : Cell :=
  match sym with
  | .bytes bytes => bytes.getD i (0, none)
  | sym => (0, if i < symBytes sym size then some ⟨s, i⟩ else none)

/-- One byte of a store. -/
def storeCell (m : Machine) (addr i : ℕ) (c : Cell) : Except Fault Machine :=
  if addr + i < m.len then do
    let m := { m with mem := Function.update m.mem (addr + i) c.1 }
    .ok (setShadow m (← add32 addr i) c.2)
  else .error .panic

/-- `self.mem[a..a + size].copy_from_slice(&x.to_le_bytes()[..size])`. -/
def storeBytes (m : Machine) (addr size x : ℕ) : Except Fault Machine :=
  if addr + size ≤ m.len ∧ size ≤ 8 then .ok { m with mem := write m.mem addr size (byteAt x) }
  else .error .panic

/-- `Machine::store`. -/
def store (m : Machine) (addr size : ℕ) (v : V) : Except Fault Machine := do
  let m ← journal m addr size
  if v.isSym then
    let sym ← symAt m.syms v.s
    (List.range size).foldlM (fun m i => storeCell m addr i (storedCell v.s sym size i)) m
  else
    let m ← storeBytes m addr size v.b
    if ← hasShadow m addr size then clearShadow m addr size else .ok m

/-- `Machine::load`. -/
def load (m : Machine) (addr size : ℕ) : Except Fault (V × Machine) := do
  if ← hasShadow m addr size then
    if addr + size ≤ m.len then
      let (v, syms) ← assemble m.syms ((List.range size).map fun i : ℕ => m.cell (addr + i))
      .ok (v, { m with syms := syms })
    else .error .panic
  else if addr + size ≤ m.len ∧ size ≤ 8 then
    .ok (.c (fromBytesLe ((List.range size).map fun i : ℕ => m.mem (addr + i))), m)
  else .error .panic

/-- `self.journals.is_empty() && !self.has_shadow(addr, size)`. -/
def plainTarget (m : Machine) (addr size : ℕ) : Except Fault Bool :=
  if m.journals.isEmpty then do .ok (!(← hasShadow m addr size)) else .ok false

/-- `Machine::write_words`. -/
def writeWords (m : Machine) (addr : ℕ) (words : List ℕ) : Except Fault Machine := do
  -- `8 * words.len() as u32`
  let size ← mul32 8 (words.length % 2 ^ 32)
  let _ ← check m addr size
  if ← plainTarget m addr size then
    words.zipIdx.foldlM (fun m w => storeBytes m (addr + 8 * w.2) 8 w.1) m
  else
    words.zipIdx.foldlM (fun m w => do
      let i ← mul32 8 (w.2 % 2 ^ 32)
      store m (← add32 addr i) 8 (.c w.1)) m

/-! ### Copies -/

/-- `Machine::load_op` of an unsigned kind of `size` bytes, with the depth of the recursion
bounded. -/
def loadOpFuel : ℕ → Machine → V → ℕ → ℕ → Except Fault (V × Machine)
  | 0, _, _, _, _ => .error .outOfFuel
  | fuel + 1, m, a, off, size =>
      if a.isSym then do
        match ← symAt m.syms a.s with
        | .ite cond t e =>
            let (tv, m) ← loadOpFuel fuel m t off size
            let (ev, m) ← loadOpFuel fuel m e off size
            let (v, syms) := ite m.syms cond tv ev
            .ok (v, { m with syms := syms })
        | _ => .error (.compile "a load through a witness-dependent pointer is not supported")
      else do
        let addr ← check m (a.b % 2 ^ 32 + off) size
        load m addr size

/-- `Machine::load_op` of an unsigned kind of `size` bytes. -/
def loadOp (m : Machine) (a : V) (off size : ℕ) : Except Fault (V × Machine) :=
  loadOpFuel (a.s + 1) m a off size

/-- `[8, 4, 2, 1].into_iter().find(|&w| w <= left)`, for `left` above zero. -/
def wordWidth (left : ℕ) : ℕ :=
  if 8 ≤ left then 8 else if 4 ≤ left then 4 else if 2 ≤ left then 2 else 1

/-- The words of a copy of `n` bytes from byte `i` on: at most as many as bytes. -/
def wordsFrom : ℕ → ℕ → ℕ → List (ℕ × ℕ)
  | 0, _, _ => []
  | fuel + 1, i, n =>
      if i < n then (i, wordWidth (n - i)) :: wordsFrom fuel (i + wordWidth (n - i)) n else []

/-- The loop of `copy` that loads every word. -/
def loadWords (s : V) : List (ℕ × ℕ) → Machine → Except Fault (List (ℕ × ℕ × V) × Machine)
  | [], m => .ok ([], m)
  | (i, w) :: rest, m => do
      let (v, m) ← loadOp m s i w
      let (words, m) ← loadWords s rest m
      .ok ((i, w, v) :: words, m)

/-- The symbolic bytes of a source, with their offsets, visiting only granules that have any. -/
def symbolicBytes (m : Machine) (s n : ℕ) : Except Fault (List (ℕ × SymByte)) := do
  let stop ← add32 s n
  let addrs ← ((granules s (stop - 1)).filter fun g => m.gran g ≠ 0).mapM fun g =>
    granuleRange g s stop
  .ok (addrs.flatten.filterMap fun a => (m.shadow a).map fun sb => (a - s, sb))

/-- `Machine::copy`. -/
def copy (m : Machine) (d : ℕ) (s : V) (n : ℕ) : Except Fault Machine :=
  if n = 0 then .ok m
  else if s.isSym then do
    match ← symAt m.syms s.s with
    | .ite _ _ _ =>
        let (words, m) ← loadWords s (wordsFrom n 0 n) m
        words.foldlM (fun m w => do store m (← add32 d w.1) w.2.1 w.2.2) m
    | _ => .error (.compile "a memory copy from a witness-dependent pointer is not supported")
  else do
    let s := s.b % 2 ^ 32
    let _ ← check m s n
    let _ ← check m d n
    let m ← journal m d n
    let symSrc ← hasShadow m s n
    let symDst ← hasShadow m d n
    -- read before the bytes move
    let moved ← (if symSrc then symbolicBytes m s n else .ok [])
    let stop ← add32 s n
    let m := { m with mem := write m.mem d (stop - s) fun i => m.mem (s + i) }
    let m ← (if symDst then clearShadow m d n else .ok m)
    moved.foldlM (fun m x => do .ok (setShadow m (← add32 d x.1) (some x.2))) m

/-- `memory.fill`. -/
def memoryFill (m : Machine) (d v n : ℕ) : Except Fault Machine := do
  let _ ← check m d n
  let m ← journal m d n
  let stop ← add32 d n
  let m := { m with mem := write m.mem d (stop - d) fun _ => UInt8.ofNat v }
  if n = 0 then .ok m
  else if ← hasShadow m d n then clearShadow m d n else .ok m

end Memory

end XarkCircuit
