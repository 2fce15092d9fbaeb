import XarkCircuit.Lib.Outcome
import Mathlib.Data.Matrix.Mul

/-!
Lattice reduction (`lll` of `solver.rs`).

* `gram` computes the integral Gram–Schmidt coefficients of four rows, and does so again after every
  change.
* `reduceAt` takes the rounded multiple of one row from another, and `step` reduces row `k` and then
  swaps it with the one before or goes on.

Arrays are functions on places. The division is a parameter of `gram`, so that a run in which every
division has to be exact can be compared with the run of the code.
-/

namespace XarkCircuit

namespace Lll

open Outcome

abbrev Rows := Fin 4 → Fin 4 → ℤ

/-- Row `i`. -/
def row (b : Rows) (i : ℕ) : Fin 4 → ℤ := if h : i < 4 then b ⟨i, h⟩ else 0

def setRow (b : Rows) (k : ℕ) (x : Fin 4 → ℤ) : Rows := fun i => if i = k then x else b i

/-- `b.swap(k, l)`. -/
def swap (b : Rows) (k l : ℕ) : Rows :=
  fun i => if i = k then row b l else if i = l then row b k else b i

/-- `/` on big integers, towards zero; it panics on zero. -/
def divide (x y : ℤ) : Outcome ℤ := if y = 0 then .error .panic else .ok (x.tdiv y)

/-- `%` on big integers. -/
def remainder (x y : ℤ) : Outcome ℤ := if y = 0 then .error .panic else .ok (x.tmod y)

/-- A division that has to be exact. -/
def divideExact (x y : ℤ) : Outcome ℤ :=
  if y = 0 ∨ ¬y ∣ x then .error .panic else .ok (x.tdiv y)

/-- `d` and `λ`. -/
structure Gs where
  d : ℕ → ℤ
  lam : ℕ → ℕ → ℤ

/-- One entry of `λ`, or of `d` on the diagonal. -/
def entry (div : ℤ → ℤ → Outcome ℤ) (b : Rows) (k : ℕ) (g : Gs) (j : ℕ) : Outcome Gs := do
  let v ← (List.range j).foldlM
    (fun v i => div (g.d (i + 1) * v - g.lam k i * g.lam j i) (g.d i)) (row b k ⬝ᵥ row b j)
  return if j < k then { g with lam := Function.update g.lam k (Function.update (g.lam k) j v) }
    else { g with d := Function.update g.d (k + 1) v }

def gram (div : ℤ → ℤ → Outcome ℤ) (b : Rows) : Outcome Gs :=
  (List.range 4).foldlM (fun g k => (List.range (k + 1)).foldlM (entry div b k) g)
    ⟨fun _ => 1, fun _ _ => 0⟩

/-- The nearest integer to `x / y`. -/
def round (x y : ℤ) : Outcome ℤ := do
  let n := x * 2 + y
  let d := y * 2
  let q ← divide n d
  let r ← remainder n d
  return if r < 0 then q - 1 else q

/-- Row `k` is reduced by row `j`. -/
def reduceAt (div : ℤ → ℤ → Outcome ℤ) (k : ℕ) (b : Rows) (j : ℕ) : Outcome Rows := do
  let g ← gram div b
  if (g.d (j + 1)).natAbs < (g.lam k j * 2).natAbs then
    let q ← round (g.lam k j) (g.d (j + 1))
    return setRow b k (row b k - q • row b j)
  else return b

/-- One round of the loop. -/
def step (div : ℤ → ℤ → Outcome ℤ) (b : Rows) (k : ℕ) : Outcome (Rows × ℕ) := do
  let b ← (List.range k).reverse.foldlM (reduceAt div k) b
  let g ← gram div b
  let l := g.lam k (k - 1)
  if g.d (k + 1) * g.d (k - 1) * 100 < g.d k * g.d k * 99 - l * l * 100 then
    return (swap b k (k - 1), max (k - 1) 1)
  else return (b, k + 1)

/-- The loop, with at most `n` rounds. -/
def loop (div : ℤ → ℤ → Outcome ℤ) : ℕ → Rows → ℕ → Outcome Rows
  | 0, _, _ => .error .outOfFuel
  | n + 1, b, k =>
      if k < 4 then do
        let (b, k) ← step div b k
        loop div n b k
      else .ok b

def lll (div : ℤ → ℤ → Outcome ℤ) (n : ℕ) (b : Rows) : Outcome Rows := loop div n b 1

end Lll

end XarkCircuit
