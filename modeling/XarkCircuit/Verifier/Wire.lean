import XarkCircuit.Lib.Codec
import XarkCircuit.Verifier.ScalarOrder
import Mathlib.Data.Nat.Log

/-!
The on-chain verifier (`verifier.rs`), over bytes and the group operations of the chain.

* `AltBn128` is the group backend: it adds, multiplies and pairs encoded points, or refuses.
* `verifyGroth16` is the check of one proof; `verifyProofOnlyStrict` takes a proof followed by its
  inputs and refuses coordinates that are not canonical.
* `verifyGroth16Batch` checks several proofs with one pairing call, each with a weight of its own.
-/

namespace XarkCircuit

namespace Verifier

/-! ### The byte layout -/

/-- Width of a G1 point. -/
def g1Bytes : ℕ := 64

/-- Width of a G2 point. -/
def g2Bytes : ℕ := 128

/-- Width of a scalar. -/
def frBytes : ℕ := 32

/-- Width of a proof: `A || B || C`. -/
def proofBytes : ℕ := g1Bytes + g2Bytes + g1Bytes

/-- Width of the fixed part of a key: `alpha || beta || gamma || delta`. -/
def vkFixedPrefixBytes : ℕ := g1Bytes + 3 * g2Bytes

/-- The order of the scalar field, the lowest byte first. -/
def frModulusLe : List UInt8 :=
  [0x01, 0x00, 0x00, 0xf0, 0x93, 0xf5, 0xe1, 0x43, 0x91, 0x70, 0xb9, 0x79, 0x48, 0xe8, 0x33, 0x28,
    0x5d, 0x58, 0x81, 0x81, 0xb6, 0x45, 0x50, 0xb8, 0x29, 0xa0, 0x31, 0xe1, 0x72, 0x4e, 0x64, 0x30]

/-- The order of the base field, the lowest byte first. -/
def fqModulusLe : List UInt8 :=
  [0x47, 0xfd, 0x7c, 0xd8, 0x16, 0x8c, 0x20, 0x3c, 0x8d, 0xca, 0x71, 0x68, 0x91, 0x6a, 0x81, 0x97,
    0x5d, 0x58, 0x81, 0x81, 0xb6, 0x45, 0x50, 0xb8, 0x29, 0xa0, 0x31, 0xe1, 0x72, 0x4e, 0x64, 0x30]

/-- `bytes[off..off + n]`. -/
def slice (bytes : List UInt8) (off n : ℕ) : List UInt8 := (bytes.drop off).take n

/-- `bytes.chunks_exact(n)`: a shorter rest is left out. -/
def chunksExact (n : ℕ) (bytes : List UInt8) : List (List UInt8) :=
  (List.range (bytes.length / n)).map fun i => slice bytes (i * n) n

/-! ### Canonical encodings -/

/-- The comparison of `le_lt` over the lowest `i` bytes, from the highest of them down. -/
def leLtBelow (a m : List UInt8) : ℕ → Bool
  | 0 => false
  | i + 1 => if a.getD i 0 ≠ m.getD i 0 then a.getD i 0 < m.getD i 0 else leLtBelow a m i

/-- `a < m` as little-endian integers of 32 bytes. -/
def leLt (a m : List UInt8) : Bool := leLtBelow a m frBytes

/-- A scalar below the order of the scalar field. -/
def scalarIsCanonical (s : List UInt8) : Bool := leLt s frModulusLe

/-- A coordinate below the order of the base field. -/
def fqIsCanonical (c : List UInt8) : Bool := leLt c fqModulusLe

/-- Every whole coordinate in `bytes` is canonical. -/
def coordsCanonical (bytes : List UInt8) : Bool := (chunksExact frBytes bytes).all fqIsCanonical

/-! ### Errors -/

/-- Why a verification cannot be performed. -/
inductive VerifierError
  | truncatedVk (expected actual : ℕ)
  | icLengthMismatch (expected actual : ℕ)
  | proofLength (expected actual : ℕ)
  | publicInputsLength (fr expected actual : ℕ)
  | inputArityMismatch (icCount expectedInputs actualInputs : ℕ)
  | nonCanonicalPublicInput (index : ℕ)
  | nonCanonicalCoordinate
  | batchLength (entry actual : ℕ)
  | scratchTooSmall (expected actual : ℕ)
  | syscall
deriving DecidableEq, Repr

/-- An error, or an arithmetic overflow that stops the program. -/
inductive Fault
  | err (e : VerifierError)
  | panic
deriving DecidableEq, Repr

/-- The answer of a verification. -/
abbrev Answer := Except Fault

/-- Stop with an error. -/
def refuse {α : Type} (e : VerifierError) : Answer α := .error (.err e)

/-! ### The group backend -/

/-- The group operations over encoded points. -/
structure AltBn128 where
  g1Mul : List UInt8 → List UInt8 → Option (List UInt8)
  g1Add : List UInt8 → List UInt8 → Option (List UInt8)
  pairing : List (List UInt8 × List UInt8) → Option (List UInt8)
  pairingBytes : List UInt8 → Option (List UInt8)

/-- A refusal of the backend is an error. -/
def syscall {α : Type} : Option α → Answer α
  | none => refuse .syscall
  | some a => .ok a

@[simp] lemma syscall_some {α : Type} (a : α) : syscall (some a) = .ok a := rfl

@[simp] lemma syscall_none {α : Type} : syscall (none : Option α) = refuse .syscall := rfl

/-- The operands of the final check, in order. -/
def g16AssemblePairs (a b alpha beta vkX gamma c delta : List UInt8) :
    List (List UInt8 × List UInt8) :=
  [(a, b), (alpha, beta), (vkX, gamma), (c, delta)]

/-- The pairing's result is the integer 1. -/
def isIdentity (result : List UInt8) : Bool :=
  result.getD 0 0 == 1 && (result.drop 1).all (· == 0)

/-! ### Small scalars -/

/-- Most additions that stand in for a multiplication. -/
def maxAdds : ℕ := 7

/-- Largest scalar that the additions may take. -/
def maxSmallScalar : ℕ := 2 ^ maxAdds

/-- The number of bits set in a 64-bit word. -/
def countOnes (k : ℕ) : ℕ := ((List.range 64).filter k.testBit).length

/-- Additions that double-and-add needs. -/
def addCount (k : ℕ) : ℕ := if k = 0 then 0 else Nat.log 2 k + (countOnes k - 1)

/-- The scalar as an integer, when additions are cheaper. -/
def smallScalar (s : List UInt8) : Option ℕ :=
  if (s.drop 8).all (· == 0) then
    let k := Codec.fromBytesLe (s.take 8)
    if k = 0 ∨ maxSmallScalar < k ∨ maxAdds < addCount k then none else some k
  else none

section Backend

variable (B : AltBn128)

/-- One bit of `mul_small`: double, and add where the bit is set. -/
def mulSmallBit (p : List UInt8) (k bit : ℕ) (acc : List UInt8) : Answer (List UInt8) :=
  syscall (B.g1Add acc acc) >>= fun acc =>
    if k.testBit bit then syscall (B.g1Add acc p) else .ok acc

/-- The bits of `mul_small` below `bit`, highest first; those from `msb` on contribute nothing. -/
def mulSmallBelow (p : List UInt8) (k msb : ℕ) : ℕ → List UInt8 → Answer (List UInt8)
  | 0, acc => .ok acc
  | bit + 1, acc =>
    if msb ≤ bit then mulSmallBelow p k msb bit acc
    else mulSmallBit B p k bit acc >>= mulSmallBelow p k msb bit

/-- `k · p` by double-and-add. -/
def mulSmall (p : List UInt8) (k : ℕ) : Answer (List UInt8) :=
  mulSmallBelow B p k (Nat.log 2 k) maxAdds p

/-! ### One proof -/

/-- The parts of a key. -/
structure VkParts where
  alpha : List UInt8
  beta : List UInt8
  gamma : List UInt8
  delta : List UInt8
  ic : List UInt8
deriving DecidableEq

/-- Split a key into its parts; the number of `IC` points is implied by the length. -/
def parseVk (vkBytes : List UInt8) : Answer VkParts :=
  if vkBytes.length < vkFixedPrefixBytes + g1Bytes then
    refuse (.truncatedVk (vkFixedPrefixBytes + g1Bytes) vkBytes.length)
  else
    let ic := vkBytes.drop vkFixedPrefixBytes
    if ic.length % g1Bytes ≠ 0 then
      refuse (.icLengthMismatch (ic.length / g1Bytes * g1Bytes) ic.length)
    else
      .ok {
        alpha := slice vkBytes 0 g1Bytes
        beta := slice vkBytes g1Bytes g2Bytes
        gamma := slice vkBytes (g1Bytes + g2Bytes) g2Bytes
        delta := slice vkBytes (g1Bytes + 2 * g2Bytes) g2Bytes
        ic }

/-- `s · ic_i`, by additions when they are cheaper. -/
def inputTerm (icI s : List UInt8) : Answer (List UInt8) :=
  match smallScalar s with
  | some k => mulSmall B icI k
  | none => syscall (B.g1Mul icI s)

/-- `acc + s · ic_i`. -/
def addInputTerm (acc icI s : List UInt8) (index : ℕ) : Answer (List UInt8) :=
  if !scalarIsCanonical s then refuse (.nonCanonicalPublicInput (index % 2 ^ 32))
  else if s = List.replicate frBytes 0 then .ok acc
  else inputTerm B icI s >>= fun term => syscall (B.g1Add acc term)

/-- The terms of the public inputs from `i` on, `n` of them. -/
def vkXFrom (ic publicInputs : List UInt8) : ℕ → ℕ → List UInt8 → Answer (List UInt8)
  | 0, _, acc => .ok acc
  | n + 1, i, acc => do
    let s := slice publicInputs (i * frBytes) frBytes
    let icI := slice ic ((i + 1) * g1Bytes) g1Bytes
    let acc ← addInputTerm B acc icI s i
    vkXFrom ic publicInputs n (i + 1) acc

/-- `ic[0] + Σ inputs[i] · ic[i + 1]`, with the counts as 32-bit words. -/
def vkX (ic publicInputs : List UInt8) : Answer (List UInt8) :=
  let icCount := ic.length / g1Bytes % 2 ^ 32
  if publicInputs.length % frBytes ≠ 0 then
    refuse (.publicInputsLength frBytes (publicInputs.length / frBytes * frBytes)
      publicInputs.length)
  else
    let numInputs := publicInputs.length / frBytes % 2 ^ 32
    -- `num_inputs + 1` is a 32-bit addition
    if 2 ^ 32 ≤ numInputs + 1 then .error .panic
    else if icCount ≠ numInputs + 1 then
      refuse (.inputArityMismatch icCount (icCount - 1) numInputs)
    else vkXFrom B ic publicInputs numInputs 0 (slice ic 0 g1Bytes)

/-- The pairing check. -/
def groth16PairingCheck (a b alpha beta vkX gamma c delta : List UInt8) : Answer Bool := do
  let result ← syscall (B.pairing (g16AssemblePairs a b alpha beta vkX gamma c delta))
  return isIdentity result

/-- Verify one proof. -/
def verifyGroth16 (vkBytes proof publicInputs : List UInt8) : Answer Bool := do
  let vk ← parseVk vkBytes
  if proof.length ≠ proofBytes then refuse (.proofLength proofBytes proof.length)
  else do
    let proofA := slice proof 0 g1Bytes
    let proofB := slice proof g1Bytes g2Bytes
    let proofC := slice proof (g1Bytes + g2Bytes) g1Bytes
    let x ← vkX B vk.ic publicInputs
    groth16PairingCheck B proofA proofB vk.alpha vk.beta x vk.gamma proofC vk.delta

/-- A proof followed by its inputs. -/
def verifyProofOnly (vkBytes instructionData : List UInt8) : Answer Bool :=
  if instructionData.length < proofBytes then
    refuse (.proofLength proofBytes instructionData.length)
  else verifyGroth16 B vkBytes (instructionData.take proofBytes) (instructionData.drop proofBytes)

/-- Refuse coordinates that are not canonical. -/
def verifyGroth16Strict (vkBytes proof publicInputs : List UInt8) : Answer Bool :=
  if !coordsCanonical vkBytes || !coordsCanonical proof then refuse .nonCanonicalCoordinate
  else verifyGroth16 B vkBytes proof publicInputs

/-- A proof followed by its inputs, with canonical coordinates. -/
def verifyProofOnlyStrict (vkBytes instructionData : List UInt8) : Answer Bool :=
  if instructionData.length < proofBytes then
    refuse (.proofLength proofBytes instructionData.length)
  else
    verifyGroth16Strict B vkBytes (instructionData.take proofBytes)
      (instructionData.drop proofBytes)

/-! ### Several proofs -/

/-- `n.to_le_bytes()` of a 64-bit word. -/
def u64LeBytes (n : ℕ) : List UInt8 := Codec.leBytes 8 n

/-- The domain tag of the weights: `xark-groth16-batch-v1`. -/
def batchDomain : List UInt8 :=
  [120, 97, 114, 107, 45, 103, 114, 111, 116, 104, 49, 54, 45, 98, 97, 116, 99, 104, 45, 118, 49]

variable (hash : List UInt8 → Vector UInt8 32)

/-- The hash of a concatenation. -/
def batchHash (vals : List (List UInt8)) : List UInt8 := (hash vals.flatten).toList

/-- The weight of entry `i ≥ 1`. -/
def batchWeight (seed : List UInt8) (i : ℕ) : List UInt8 :=
  let r := batchHash hash [seed, u64LeBytes i]
  r.set 31 ((r.getD 31 0 &&& 0x0f) ||| 0x10)

/-- The sum of two byte strings of one length, with its carries. -/
def addCarry : ℕ → List UInt8 → List UInt8 → List UInt8
  | carry, a :: acc, b :: x =>
    let t := a.toNat + b.toNat + carry
    UInt8.ofNat t :: addCarry (t / 256) acc x
  | _, _, _ => []

/-- The difference of two byte strings of one length, with its borrows. -/
def subBorrow : ℤ → List UInt8 → List UInt8 → List UInt8
  | borrow, a :: acc, b :: x =>
    let t : ℤ := a.toNat - b.toNat - borrow
    UInt8.ofNat (t % 256).toNat :: subBorrow (if t < 0 then 1 else 0) acc x
  | _, _, _ => []

/-- `(acc + x) mod r`. -/
def addModR (acc x : List UInt8) : List UInt8 :=
  let acc := addCarry 0 acc x
  if !leLt acc frModulusLe then subBorrow 0 acc frModulusLe else acc

/-- What the loop over the entries carries. -/
structure BatchState where
  sumR : List UInt8
  vkXAcc : List UInt8
  cAcc : List UInt8
  scratch : List (List UInt8)

/-- Entry `i` under its weight: the first one keeps its points, the others are multiplied and
added. -/
def weighEntry (seed : List UInt8) (i : ℕ) (a c x : List UInt8) (st : BatchState) :
    Answer (List UInt8 × BatchState) :=
  if i = 0 then .ok (a, { st with vkXAcc := x, cAcc := c })
  else do
    let r := batchWeight hash seed i
    let sumR := addModR st.sumR r
    let rx ← syscall (B.g1Mul x r)
    let vkXAcc ← syscall (B.g1Add st.vkXAcc rx)
    let rc ← syscall (B.g1Mul c r)
    let cAcc ← syscall (B.g1Add st.cAcc rc)
    let ra ← syscall (B.g1Mul a r)
    return (ra, { st with sumR, vkXAcc, cAcc })

/-- Entry `i` of the batch: its operand goes to slot `i`. -/
def batchStep (vk : VkParts) (seed : List UInt8) (i : ℕ) (e : List UInt8) (st : BatchState) :
    Answer BatchState := do
  let proof := e.take proofBytes
  let publicInputs := e.drop proofBytes
  let a := slice proof 0 g1Bytes
  let c := slice proof (g1Bytes + g2Bytes) g1Bytes
  let x ← vkX B vk.ic publicInputs
  let (a, st) ← weighEntry B hash seed i a c x st
  return { st with scratch := st.scratch.set i (a ++ slice proof g1Bytes g2Bytes) }

/-- The entries from `i` on. -/
def batchLoop (vk : VkParts) (seed : List UInt8) : ℕ → List (List UInt8) → BatchState →
    Answer BatchState
  | _, [], st => .ok st
  | i, e :: es, st => do
    let st ← batchStep B hash vk seed i e st
    batchLoop vk seed (i + 1) es st

/-- The width of an entry: a proof and its inputs. -/
def entryBytes (vk : VkParts) : ℕ := proofBytes + (vk.ic.length / g1Bytes - 1) * frBytes

/-- What the weights are drawn from. -/
def batchSeed (vkBytes batch : List UInt8) (n : ℕ) : List UInt8 :=
  if 1 < n then batchHash hash [batchDomain, u64LeBytes vkBytes.length, vkBytes, batch]
  else List.replicate 32 0

/-- The state before the first entry; its weight is already in the sum. -/
def batchStart (scratch : List (List UInt8)) : BatchState where
  sumR := (List.replicate frBytes 0).set 0 1
  vkXAcc := List.replicate g1Bytes 0
  cAcc := List.replicate g1Bytes 0
  scratch

/-- `alpha` under the sum of the weights. -/
def batchAlpha (vk : VkParts) (n : ℕ) (st : BatchState) : Answer (List UInt8) :=
  if 1 < n then syscall (B.g1Mul vk.alpha st.sumR) else .ok vk.alpha

/-- The last three operands and the pairing call, after the loop. -/
def batchFinish (vk : VkParts) (n : ℕ) (st : BatchState) : Answer Bool := do
  let alpha ← batchAlpha B vk n st
  let scratch := ((st.scratch.set n (alpha ++ vk.beta)).set (n + 1) (st.vkXAcc ++ vk.gamma)).set
    (n + 2) (st.cAcc ++ vk.delta)
  let result ← syscall (B.pairingBytes (scratch.take (n + 3)).flatten)
  return isIdentity result

/-- Verify several proofs with one pairing call. -/
def verifyGroth16Batch (vkBytes batch : List UInt8) (scratch : List (List UInt8)) : Answer Bool :=
  if !coordsCanonical vkBytes then refuse .nonCanonicalCoordinate
  else do
    let vk ← parseVk vkBytes
    let entry := entryBytes vk
    if batch.isEmpty || batch.length % entry ≠ 0 then refuse (.batchLength entry batch.length)
    else
      let n := batch.length / entry
      if scratch.length < n + 3 then refuse (.scratchTooSmall (n + 3) scratch.length)
      else if !(chunksExact entry batch).all fun e => coordsCanonical (e.take proofBytes) then
        refuse .nonCanonicalCoordinate
      else do
        let seed := batchSeed hash vkBytes batch n
        let st ← batchLoop B hash vk seed 0 (chunksExact entry batch) (batchStart scratch)
        batchFinish B vk n st

end Backend

end Verifier

end XarkCircuit
