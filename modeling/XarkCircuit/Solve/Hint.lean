import XarkCircuit.Ir.Primitive
import XarkCircuit.Ir.R1cs
import Mathlib.Algebra.Field.ZMod

/-!
Executing the hint program (`solver.rs`).

* `execWitnessOp` executes one instruction: it reads its combinations through a given function and
  lists its outputs with their values, or fails. `execWitnessOp_map` says that it only sees what it
  reads, so that an instruction and a renamed copy of it do the same.
* `DenseAssign` is the dense assignment of the substituting solver, and `solveWitnessSequential`
  runs a list of instructions against it.

The short lattice vector of the `FakeGlv` instruction is a parameter, so that what is proved holds
whatever vector the reduction finds.
-/

namespace XarkCircuit

/-- Errors from solving. -/
inductive SolveError
  | missingInput (v : VarId)
  | divisionByZero
  | nonInvertible
  | malformedHint (text : String)
  | constraintFailed (i : ℕ)
  | malformedModulus
deriving DecidableEq, Repr

/-- Cap on an instruction's limb size. -/
def maxLimbBits : ℕ := 128

/-- `fake_glv`: a short vector for `(u, m, λ)`, if the reduction finds one. -/
abbrev FakeGlv := ℕ → ℕ → ℕ → Option (ℤ × ℤ × ℤ × ℤ)

/-- The integer with the given little-endian limbs. -/
def recompose (limbBits : ℕ) (limbs : List ℕ) : ℕ :=
  (limbs.zipIdx.map fun limb => limb.1 <<< (limbBits * limb.2)).sum

section Exec

variable (p : ℕ)

/-- The limbs of `n`, one for each output. -/
def emitLimbs {V : Type} (limbBits n : ℕ) (outs : List V) : List (V × ZMod p) :=
  outs.zipIdx.map fun out => (out.1, (((n >>> (limbBits * out.2)) &&& (2 ^ limbBits - 1) : ℕ)))

/-- Bit `i` of the canonical representative, as a field element. -/
def bitOf (v : ZMod p) (i : ℕ) : ZMod p := if v.val.testBit i then 1 else 0

/-- The integer whose limbs are the values of the combinations. -/
def recomposeLcs {L : Type} {m : Type → Type} [Monad m] (evalLc : L → m (ZMod p)) (limbBits : ℕ)
    (limbs : List L) : m ℕ := do
  let vs ← limbs.mapM evalLc
  return recompose limbBits (vs.map ZMod.val)

/-- Execute one instruction, reading each combination through `evalLc`; the outputs are listed in
the order in which they are emitted. -/
def execWitnessOp {L V : Type} {m : Type → Type} [Monad m] (fakeGlv : FakeGlv)
    (evalLc : L → m (ZMod p)) : WitnessGen L V → m (Except SolveError (List (V × ZMod p)))
  | .product out left right => do
      let l ← evalLc left
      let r ← evalLc right
      return .ok [(out, l * r)]
  | .linear out lc => do
      let v ← evalLc lc
      return .ok [(out, v)]
  | .xor out a b => do
      let av ← evalLc a
      let bv ← evalLc b
      let ab := av * bv
      return .ok [(out, av + bv - (ab + ab))]
  | .or out a b => do
      let av ← evalLc a
      let bv ← evalLc b
      return .ok [(out, av + bv - av * bv)]
  -- both map zero to zero
  | .inverse out input => do
      let v ← evalLc input
      return .ok [(out, v⁻¹)]
  | .inverseOrZero out input => do
      let v ← evalLc input
      return .ok [(out, v⁻¹)]
  | .bit out input index => do
      let v ← evalLc input
      return .ok [(out, bitOf p v index)]
  | .bits outs input => do
      let v ← evalLc input
      return .ok (outs.zipIdx.map fun out => (out.1, bitOf p v out.2))
  | .divRem q r num den => do
      let n ← evalLc num
      let d ← evalLc den
      -- integer division of the canonical representatives
      return if d = 0 then .error .divisionByZero
        else .ok [(q, ((n.val / d.val : ℕ) : ZMod p)), (r, ((n.val % d.val : ℕ) : ZMod p))]
  | .mulModDivMod q r a b modulus limbBits =>
      if maxLimbBits < limbBits then
        return .error (.malformedHint "limb_bits exceeds MAX_LIMB_BITS")
      else do
        let a ← recomposeLcs p evalLc limbBits a
        let b ← recomposeLcs p evalLc limbBits b
        let m ← recomposeLcs p evalLc limbBits modulus
        return if m = 0 then .error .divisionByZero
          else .ok (emitLimbs p limbBits (a * b / m) q ++ emitLimbs p limbBits (a * b % m) r)
  | .modInverse out a modulus limbBits =>
      if maxLimbBits < limbBits then
        return .error (.malformedHint "limb_bits exceeds MAX_LIMB_BITS")
      else do
        let m ← recomposeLcs p evalLc limbBits modulus
        if m < 2 then return .error (.malformedHint "mod_inverse: modulus < 2")
        else do
          let a ← recomposeLcs p evalLc limbBits a
          return if a % m = 0 then .error .divisionByZero
            else .ok (emitLimbs p limbBits ((a % m) ^ (m - 2) % m) out)
  | .fakeGlv out u modulus lambda limbBits =>
      if maxLimbBits < limbBits ∨ out.length ≠ 4 then
        return .error (.malformedHint "fake_glv: limb_bits or output count")
      else do
        let u ← recomposeLcs p evalLc limbBits u
        let m ← recomposeLcs p evalLc limbBits modulus
        let lam ← recomposeLcs p evalLc limbBits lambda
        return match fakeGlv u m lam with
          | none => .error (.malformedHint "fake_glv: no short lattice vector")
          | some (a₁, a₂, b₁, b₂) => .ok (out.zip [(a₁ : ZMod p), a₂, b₁, b₂])
  | .sub2 qabs r a b c modulus limbBits =>
      if maxLimbBits < limbBits then
        return .error (.malformedHint "limb_bits exceeds MAX_LIMB_BITS")
      else do
        let a ← recomposeLcs p evalLc limbBits a
        let b ← recomposeLcs p evalLc limbBits b
        let c ← recomposeLcs p evalLc limbBits c
        let m ← recomposeLcs p evalLc limbBits modulus
        return if m = 0 then .error .divisionByZero
          else if a + m + m < b + c then .error (.malformedHint "sub2: a + 2m < b + c")
          else
            let s := a + m + m - (b + c)
            if 2 < s / m then
              .error (.malformedHint "sub2: quotient out of range (inputs >= modulus)")
            else .ok ((qabs, ((2 - s / m : ℕ) : ZMod p)) :: emitLimbs p limbBits (s % m) r)

lemma recomposeLcs_congr {L : Type} {m : Type → Type} [Monad m] [LawfulMonad m]
    {e e' : L → m (ZMod p)} {limbs : List L} (h : ∀ l ∈ limbs, e l = e' l) (limbBits : ℕ) :
    recomposeLcs p e limbBits limbs = recomposeLcs p e' limbBits limbs := by
  have hm : limbs.mapM e = limbs.mapM e' := by
    induction limbs with
    | nil => rfl
    | cons l ls ih =>
        rw [List.mapM_cons, List.mapM_cons, h l List.mem_cons_self,
          ih fun l' hl => h l' (List.mem_cons_of_mem _ hl)]
  rw [recomposeLcs, recomposeLcs, hm]

/-- Execution depends on the values of the combinations it reads. -/
lemma execWitnessOp_congr {L V : Type} {m : Type → Type} [Monad m] [LawfulMonad m]
    (fakeGlv : FakeGlv) {e e' : L → m (ZMod p)} {op : WitnessGen L V}
    (h : ∀ l ∈ op.reads, e l = e' l) :
    execWitnessOp p fakeGlv e op = execWitnessOp p fakeGlv e' op := by
  have hlimbs : ∀ (k : ℕ) (ls : List L), (∀ l ∈ ls, l ∈ op.reads) →
      recomposeLcs p e k ls = recomposeLcs p e' k ls := fun k ls hls =>
    recomposeLcs_congr p (fun l hl => h l (hls l hl)) k
  cases op with
  | mulModDivMod q r a b modulus limbBits =>
      simp only [execWitnessOp]
      rw [hlimbs _ a (by simp_all [WitnessGen.reads]), hlimbs _ b (by simp_all [WitnessGen.reads]),
        hlimbs _ modulus (by simp_all [WitnessGen.reads])]
  | modInverse out a modulus limbBits =>
      simp only [execWitnessOp]
      rw [hlimbs _ a (by simp_all [WitnessGen.reads]),
        hlimbs _ modulus (by simp_all [WitnessGen.reads])]
  | fakeGlv out u modulus lambda limbBits =>
      simp only [execWitnessOp]
      rw [hlimbs _ u (by simp_all [WitnessGen.reads]),
        hlimbs _ modulus (by simp_all [WitnessGen.reads]),
        hlimbs _ lambda (by simp_all [WitnessGen.reads])]
  | sub2 qabs r a b c modulus limbBits =>
      simp only [execWitnessOp]
      rw [hlimbs _ a (by simp_all [WitnessGen.reads]), hlimbs _ b (by simp_all [WitnessGen.reads]),
        hlimbs _ c (by simp_all [WitnessGen.reads]),
        hlimbs _ modulus (by simp_all [WitnessGen.reads])]
  | _ => simp_all [execWitnessOp, WitnessGen.reads]

/-- Execution emits the outputs of the instruction only. -/
lemma mem_outs_of_execWitnessOp {L V : Type} {fakeGlv : FakeGlv} {v : L → ZMod p}
    {op : WitnessGen L V} {os : List (V × ZMod p)}
    (h : (execWitnessOp p fakeGlv (fun l => (pure (v l) : Id (ZMod p))) op).run = .ok os)
    {o : V × ZMod p} (ho : o ∈ os) : o.1 ∈ op.outs := by
  have hlimbs : ∀ {limbBits n : ℕ} {outs : List V}, o ∈ emitLimbs p limbBits n outs →
      o.1 ∈ outs := by
    intro limbBits n outs hm
    obtain ⟨x, hx, rfl⟩ := List.mem_map.mp hm
    exact List.mem_of_getElem? (List.mem_zipIdx_iff_getElem?.mp hx)
  cases op with
  | bits outs input =>
      obtain rfl := Except.ok.inj h
      obtain ⟨x, hx, rfl⟩ := List.mem_map.mp ho
      exact List.mem_of_getElem? (List.mem_zipIdx_iff_getElem?.mp hx)
  | divRem q r num den =>
      simp only [execWitnessOp, pure_bind, Id.run_pure] at h
      split_ifs at h
      obtain rfl := Except.ok.inj h
      rcases List.mem_cons.mp ho with rfl | ho
      · exact List.mem_cons_self
      · rw [List.mem_singleton.mp ho]
        exact List.mem_cons_of_mem _ List.mem_cons_self
  | mulModDivMod q r a b modulus limbBits =>
      simp only [execWitnessOp] at h
      split_ifs at h
      · exact absurd h (by simp)
      · simp only [Id.run_bind, Id.run_pure] at h
        split_ifs at h
        obtain rfl := Except.ok.inj h
        exact List.mem_append.mpr ((List.mem_append.mp ho).imp hlimbs hlimbs)
  | modInverse out a modulus limbBits =>
      simp only [execWitnessOp] at h
      split_ifs at h
      · exact absurd h (by simp)
      · rw [Id.run_bind] at h
        split_ifs at h
        · exact absurd h (by simp)
        · simp only [Id.run_bind, Id.run_pure] at h
          split_ifs at h
          obtain rfl := Except.ok.inj h
          exact hlimbs ho
  | fakeGlv out u modulus lambda limbBits =>
      simp only [execWitnessOp] at h
      split_ifs at h
      · exact absurd h (by simp)
      · simp only [Id.run_bind, Id.run_pure] at h
        split at h
        · exact absurd h (by simp)
        · obtain rfl := Except.ok.inj h
          exact (List.of_mem_zip ho).1
  | sub2 qabs r a b c modulus limbBits =>
      simp only [execWitnessOp] at h
      split_ifs at h
      · exact absurd h (by simp)
      · simp only [Id.run_bind, Id.run_pure] at h
        split_ifs at h
        obtain rfl := Except.ok.inj h
        rcases List.mem_cons.mp ho with rfl | ho
        · exact List.mem_cons_self
        · exact List.mem_cons_of_mem _ (hlimbs ho)
  | _ =>
      obtain rfl := Except.ok.inj h
      rw [List.mem_singleton.mp ho]
      exact List.mem_cons_self

/-! ### The substituting solver -/

/-- A dense assignment: slot `i` is the value of variable `i`, if it has one. -/
abbrev DenseAssign := List (Option (ZMod p))

namespace DenseAssign

variable {p}

/-- `DenseAssign::set`: the slots grow as needed. -/
def set (slots : DenseAssign p) (var : VarId) (v : ZMod p) : DenseAssign p :=
  List.set (if slots.length ≤ var.val then
    slots ++ List.replicate (var.val + 1 - slots.length) none else slots) var.val (some v)

/-- The value of `var`; an unassigned variable reads as zero. -/
def read (slots : DenseAssign p) (var : VarId) : ZMod p := (slots[var.val]?).join.getD 0

end DenseAssign

/-- `eval_lc`. -/
def evalLc (lc : LinearCombination) (assign : DenseAssign p) : ZMod p := lc.eval assign.read

/-- One instruction: it reads the assignment as it was, and then its outputs land. -/
def solveOp (fakeGlv : FakeGlv) (assign : DenseAssign p)
    (op : WitnessGen LinearCombination VarId) : Except SolveError (DenseAssign p) :=
  (execWitnessOp p fakeGlv (fun lc => (pure (evalLc p lc assign) : Id (ZMod p))) op).run.map
    fun outs => outs.foldl (fun assign o => assign.set o.1 o.2) assign

/-- `solve_witness_sequential`. -/
def solveWitnessSequential (fakeGlv : FakeGlv) (ops : List (WitnessGen LinearCombination VarId))
    (assign : DenseAssign p) : Except SolveError (DenseAssign p) :=
  ops.foldlM (solveOp p fakeGlv) assign

end Exec

end XarkCircuit
