import XarkCircuit.Lib.SparseForm
import XarkCircuit.Lib.SquareRoot
import XarkCircuit.Search.State
import Mathlib.Data.Prod.Lex

/-!
Propagating one row of the search (`process`, `square_of_linear`, `linear`, `intervals`).

* `collect` resolves a row into a linear part, products of two unknowns and a constant.
* `linear` assigns, aliases or bounds; `intervals` bounds each unknown of a linear row by the
  others; `squareOfLinear` finds the roots of a row that is a quadratic in one linear form.
* `process` runs one row, unless it is `idle`.
-/

namespace XarkCircuit.Search

variable {p n m : ℕ}

/-- `Fp::inverse`: `None` for zero. -/
def inverse (x : ZMod p) : Option (ZMod p) := if x = 0 then none else some x⁻¹

/-- A coefficient as a signed integer, when it is shorter than 250 bits. -/
def small (c : ZMod p) : Option ℤ :=
  let z : ℤ := c.val
  let z := if z > (p : ℤ) / 2 then z - p else z
  if z.natAbs < 2 ^ 249 then some z else none

section Rows

variable (rows : Fin m → Row p n) (fuel : ℕ)

/-! ### Linear rows -/

/-- The integers `c · v` takes. -/
def termRange (st : State p n m) (e : Fin n × ℤ) : Outcome (ℤ × ℤ) :=
  match st.dom e.1 with
  | .range lo hi =>
      let a := e.2 * lo
      let b := e.2 * hi
      return if a ≤ b then (a, b) else (b, a)
  | _ => .error .panic

/-- The integers `z` with `lo ≤ c · z ≤ hi`, from the first to the last. -/
def quotients (lo hi c : ℤ) : ℤ × ℤ :=
  if 0 < c then (ceilDiv lo c, floorDiv hi c) else (ceilDiv hi c, floorDiv lo c)

/-- The loop of `intervals` over the terms, each with its range: the sum lies in
`[sumLo, sumHi]`, all the ranges together in `[mn, mx]`. -/
def boundTerms (sumLo sumHi mn mx : ℤ) :
    State p n m → List ((Fin n × ℤ) × (ℤ × ℤ)) → Outcome (State p n m × Bool)
  | st, [] => .ok (st, true)
  | st, ((v, c), (b0, b1)) :: rest =>
      let restLo := mn - b0
      let restHi := mx - b1
      -- division by zero
      if c = 0 then .error .panic
      else
        match st.dom v with
        | .range a b =>
            let lo := max (quotients (sumLo - restHi) (sumHi - restLo) c).1 a
            let hi := min (quotients (sumLo - restHi) (sumHi - restLo) c).2 b
            if hi < lo then .ok (st, false)
            -- only what fixes the value or takes a quarter off
            else if lo = hi ∨ (hi - lo) * 4 ≤ (b - a) * 3 then do
              let (st, ok) ← narrow rows fuel st v lo hi
              if ok then boundTerms sumLo sumHi mn mx st rest else .ok (st, false)
            else boundTerms sumLo sumHi mn mx st rest
        | _ => .error .panic

/-- The bounds of the terms, and their sums. -/
def sumRange (st : State p n m) (terms : List (Fin n × ℤ)) : Outcome (List (ℤ × ℤ) × ℤ × ℤ) := do
  let bounds ← terms.mapM (termRange st)
  return (bounds, (bounds.map Prod.fst).sum, (bounds.map Prod.snd).sum)

/-- No unknown is unbounded: each gets what the sum, one of `t, …, t + w`, leaves over. -/
def boundAll (st : State p n m) (terms : List (Fin n × ℤ)) (t : ℤ) (w : ℕ) :
    Outcome (State p n m × Bool) := do
  let (bounds, mn, mx) ← sumRange st terms
  if mx - mn + w ≥ p then .ok (st, true)
  else
    -- `t` in `[mn - w, mn - w + p)`: no other such integers are in `[mn, mx]`
    let base := mn - w
    let t := base + wrap p (t - base)
    let sumLo := max t mn
    let sumHi := min (t + w) mx
    if sumLo > sumHi then .ok (st, false)
    else boundTerms rows fuel sumLo sumHi mn mx st (terms.zip bounds)

/-- One unknown `v` is unbounded, with coefficient `c = ±1`: it gets the range of the others. -/
def boundFree (st : State p n m) (others : List (Fin n × ℤ)) (v : Fin n) (c t : ℤ) (w : ℕ) :
    Outcome (State p n m × Bool) := do
  let (_, mn, mx) ← sumRange st others
  if mx - mn + w ≥ p then .ok (st, true)
  else
    let lo := t - mx
    let hi := t + w - mn
    if 0 < c then narrow rows fuel st v lo hi else narrow rows fuel st v (-hi) (-lo)

/-- `Σ cᵢ · vᵢ + konst` is one of `0, …, w`. -/
def intervals (st : State p n m) (lin : List (Fin n × ZMod p)) (konst : ZMod p) (w : ℕ) :
    Outcome (State p n m × Bool) :=
  match lin.mapM fun e => (small e.2).map (e.1, ·) with
  | none => .ok (st, true)
  | some terms =>
    let t : ℤ := (-konst).val
    match terms.zipIdx.filter fun e => st.dom e.1.1 = .free with
    | [] => boundAll rows fuel st terms t w
    | [((v, c), k)] =>
        if c.natAbs = 1 then boundFree rows fuel st (terms.eraseIdx k) v c t w else .ok (st, true)
    | _ => .ok (st, true)

/-- `cᵥ · v + cᵤ · u + konst = 0` with `v` unbounded: `v` becomes an alias of `u`. -/
def aliasTo (st : State p n m) (ev eu : Fin n × ZMod p) (konst : ZMod p) :
    Outcome (State p n m × Bool) := do
  let inv := -(← Outcome.orPanic (inverse ev.2))
  let st ← setAlias rows fuel st ev.1 eu.1 (eu.2 * inv) (konst * inv)
  return (st, true)

/-- `Σ cᵢ · vᵢ + konst = 0` over unknowns. -/
def linear (st : State p n m) (lin : List (Fin n × ZMod p)) (konst : ZMod p) :
    Outcome (State p n m × Bool) :=
  match lin with
  | [] => return (st, konst = 0)
  | [(v, c)] => do
      let inv ← Outcome.orPanic (inverse c)
      assign rows fuel st v (-konst * inv)
  | [e0, e1] =>
      if st.dom e1.1 = .free then aliasTo rows fuel st e1 e0 konst
      else if st.dom e0.1 = .free then aliasTo rows fuel st e0 e1 konst
      else intervals rows fuel st lin konst 0
  | _ => intervals rows fuel st lin konst 0

/-! ### Quadratic rows -/

/-- The entries of a map on the unknowns, in order. -/
def entriesOf (s : Fin n → Option (ZMod p)) : List (Fin n × ZMod p) :=
  (List.finRange n).filterMap fun v => (s v).map (v, ·)

/-- The coefficients of `S`, normalized to one at the pivot: `d · S²` has the cross terms
`2d · s_w · piv · w`. -/
def formOf (quad : List ((Fin n ×ₗ Fin n) × ZMod p)) (piv : Fin n) (inv2d : ZMod p) :
    Fin n → Option (ZMod p) :=
  quad.foldl (fun s q =>
      let (u1, u2) := ofLex q.1
      if u1 ≠ u2 ∧ (u1 = piv ∨ u2 = piv) then
        Function.update s (if u1 = piv then u2 else u1) (some (q.2 * inv2d))
      else s)
    (Function.update (fun _ => none) piv (some 1))

/-- Is the term of `quad` one of `d · S²`? -/
def isSquareTerm (s : Fin n → Option (ZMod p)) (d : ZMod p) (q : (Fin n ×ₗ Fin n) × ZMod p) :
    Bool :=
  let (u1, u2) := ofLex q.1
  match s u1, s u2 with
  | some a, some b =>
      let want := d * a * b
      q.2 = if u1 ≠ u2 then want + want else want
  | _, _ => false

/-- `d · S² + λ · S + konst = 0` for the form `S` with coefficients `s`: its roots are the values
of `S`. -/
def solveForm (st : State p n m) (s : Fin n → Option (ZMod p)) (d inv2d lambda konst : ZMod p) :
    Outcome (State p n m × Bool) := do
  let fourD := d + d + d + d
  let disc := lambda * lambda - fourD * konst
  match ← sqrtMod p fuel disc.val with
  | none => return (st, false)
  | some root =>
    let root : ZMod p := root
    let t2 := (-lambda - root) * inv2d
    let form := fun scale => (entriesOf s).map fun e => (e.1, e.2 * scale)
    if root = 0 then linear rows fuel st (form 1) (-t2)
    else do
      let scale := d * (← Outcome.orPanic (inverse root))
      intervals rows fuel st (form scale) (-(t2 * scale)) 1

/-- A row that is a quadratic `d · S² + λ · S + konst = 0` in one linear form `S` fixes or bounds
the form. Any other row says nothing. -/
def squareOfLinear (st : State p n m) (quad : List ((Fin n ×ₗ Fin n) × ZMod p))
    (lin : List (Fin n × ZMod p)) (konst : ZMod p) : Outcome (State p n m × Bool) :=
  match quad.find? fun q => (ofLex q.1).1 = (ofLex q.1).2 with
  | none => return (st, true)
  | some q =>
    let piv := (ofLex q.1).1
    let d := q.2
    match inverse (d + d) with
    | none => return (st, true)
    | some inv2d =>
      let s := formOf quad piv inv2d
      let len := (entriesOf s).length
      let lambda := ((lin.find? fun e => e.1 = piv).map Prod.snd).getD 0
      let nLin := if lambda = 0 then 0 else len
      if quad.length ≠ len * (len + 1) / 2 then return (st, true)
      else if quad.any fun q => !isSquareTerm s d q then return (st, true)
      else if lin.length ≠ nLin then return (st, true)
      else if lin.any fun e => (s e.1).map (lambda * ·) ≠ some e.2 then return (st, true)
      else solveForm rows fuel st s d inv2d lambda konst

/-! ### Rows -/

/-- The end of the aliases of `v`. -/
def rootOf (f : Facts p n) : ℕ → Fin n → Outcome (Fin n)
  | 0, _ => .error .outOfFuel
  | fuel + 1, u =>
      match f.aliasOf u with
      | some (w, _, _) => rootOf f fuel w
      | none => return u

/-- The loop of `idle`: up to three unknowns and up to two unbounded ones were seen. -/
def idleLoop (f : Facts p n) : List (Fin n) → List (Fin n) → List (Fin n) → Outcome Bool
  | _, _, [] => return false
  | seen, free, v :: vars => do
      let u ← rootOf f fuel v
      match f.dom u with
      | .val _ => idleLoop f seen free vars
      | d =>
          let free := if d = .free ∧ free.length < 2 ∧ u ∉ free then free ++ [u] else free
          let seen := if seen.length < 3 ∧ u ∉ seen then seen ++ [u] else seen
          if seen.length = 3 ∧ free.length = 2 then return true else idleLoop f seen free vars

/-- Has the row three unknowns, two of them unbounded? Then nothing follows from it. -/
def idle (f : Facts p n) (row : Row p n) : Outcome Bool :=
  idleLoop fuel f [] [] (row.lins.map Prod.snd ++ row.muls.flatMap fun t => [t.2.1, t.2.2])

/-- The terms of a row, resolved: `konst + Σ c · v + Σ c · left · right`. -/
structure Terms (p n : ℕ) where
  konst : ZMod p
  lin : List (Fin n × ZMod p)
  /-- `left ≤ right`. -/
  quad : List ((Fin n ×ₗ Fin n) × ZMod p)

/-- Resolve a product. -/
def addMul (f : Facts p n) (t : Terms p n) (mul : ZMod p × Fin n × Fin n) :
    Outcome (Terms p n) := do
  let (c, l, r) := mul
  match ← resolve f fuel l, ← resolve f fuel r with
  | .known x, .known y => return { t with konst := t.konst + c * x * y }
  | .known x, .lin u a b | .lin u a b, .known x =>
      let cx := c * x
      return { t with konst := t.konst + cx * b, lin := t.lin ++ [(u, cx * a)] }
  | .lin u1 a1 b1, .lin u2 a2 b2 =>
      return {
        konst := t.konst + c * b1 * b2
        lin := t.lin ++ [(u1, c * a1 * b2), (u2, c * b1 * a2)]
        quad := t.quad ++ [(toLex (min u1 u2, max u1 u2), c * a1 * a2)] }

/-- Resolve a linear term. -/
def addLin (f : Facts p n) (t : Terms p n) (e : ZMod p × Fin n) : Outcome (Terms p n) := do
  let (c, v) := e
  match ← resolve f fuel v with
  | .known x => return { t with konst := t.konst + c * x }
  | .lin u a b => return { t with konst := t.konst + c * b, lin := t.lin ++ [(u, c * a)] }

/-- Resolve a row. -/
def collect (f : Facts p n) (row : Row p n) : Outcome (Terms p n) := do
  let t ← row.muls.foldlM (addMul fuel f) ⟨row.konst, [], []⟩
  row.lins.foldlM (addLin fuel f) t

/-- The integers of `[lo, hi]` that are roots of `a · v² + b · v + konst`. -/
def rootsIn (a b konst : ZMod p) (lo hi : ℤ) : List ℤ :=
  ((List.range (hi - lo + 1).toNat).map fun i : ℕ => lo + i).filter fun z =>
    let x := fp p z
    a * x * x + b * x + konst = 0

/-- A quadratic `a · v² + b · v + konst = 0` in one unknown, with the terms it was collected
from. -/
def univariate (st : State p n m) (v : Fin n) (a b konst : ZMod p)
    (quad : List ((Fin n ×ₗ Fin n) × ZMod p)) (lin : List (Fin n × ZMod p)) :
    Outcome (State p n m × Bool) :=
  if a = 0 then linear rows fuel st (if b = 0 then [] else [(v, b)]) konst
  -- booleanity
  else if konst = 0 ∧ b = -a then narrow rows fuel st v 0 1
  else
    match st.dom v with
    | .range lo hi =>
        if hi - lo < 64 then
          match rootsIn a b konst lo hi with
          | [] => return (st, false)
          | r0 :: rs => narrow rows fuel st v r0 ((r0 :: rs).getLast (by simp))
        else squareOfLinear rows fuel st quad lin konst
    | _ => squareOfLinear rows fuel st quad lin konst

/-- Propagate one resolved row. -/
def processTerms (st : State p n m) (lin : SparseForm (Fin n) (ZMod p))
    (quad : SparseForm (Fin n ×ₗ Fin n) (ZMod p)) (konst : ZMod p) :
    Outcome (State p n m × Bool) :=
  match quad.entries with
  | [] => linear rows fuel st lin.entries konst
  | q :: _ =>
      let v := (ofLex q.1).1
      if quad.entries.any (fun q => (ofLex q.1).1 ≠ v ∨ (ofLex q.1).2 ≠ v) ∨
          lin.entries.any fun e => e.1 ≠ v then
        squareOfLinear rows fuel st quad.entries lin.entries konst
      else
        let a := quad.entries.foldl (fun s q => s + q.2) 0
        let b := (lin.entries.head?.map Prod.snd).getD 0
        univariate rows fuel st v a b konst quad.entries lin.entries

/-- Propagate one row. -/
def process (st : State p n m) (ci : Fin m) : Outcome (State p n m × Bool) := do
  if ← idle fuel st.toFacts (rows ci) then return (st, true)
  let t ← collect fuel st.toFacts (rows ci)
  processTerms rows fuel st (.ofTerms t.lin) (.ofTerms t.quad) t.konst

end Rows

end XarkCircuit.Search
