import XarkCircuit.Ir.LinearCombination

/-!
The primitive IR (`primitive.rs`): its instructions and its programs.

* `WitnessGen L V` is one instruction over linear combinations `L` and output variables `V`: the
  program's own, or the solver's compiled forms.
* `map` renames both, `reads` lists the combinations in the order in which the instruction is
  executed reads them, and `outs` the variables it writes, in the order in which it writes them.
* `Expression` is the left-hand side of a constraint `expression = 0`, of degree two, and
  `PrimitiveProgram` a program of such constraints.
-/

namespace XarkCircuit

/-- A `u32`. -/
abbrev U32 := Fin (2 ^ 32)

/-- The role of a circuit variable. -/
inductive VarRole
  | publicInput
  | privateInput
  | derived
deriving DecidableEq, Repr

/-- A declared variable. -/
structure Var where
  id : VarId
  name : String
  role : VarRole
deriving DecidableEq, Repr

/-- A witness-generation instruction. -/
inductive WitnessGen (L V : Type)
  | product (out : V) (left right : L)
  | linear (out : V) (lc : L)
  | xor (out : V) (a b : L)
  | or (out : V) (a b : L)
  | inverse (out : V) (input : L)
  | inverseOrZero (out : V) (input : L)
  | bit (out : V) (input : L) (index : U32)
  | bits (outs : List V) (input : L)
  | divRem (q r : V) (num den : L)
  | mulModDivMod (q r : List V) (a b modulus : List L) (limbBits : U32)
  | modInverse (out : List V) (a modulus : List L) (limbBits : U32)
  | fakeGlv (out : List V) (u modulus lambda : List L) (limbBits : U32)
  | sub2 (qabs : V) (r : List V) (a b c modulus : List L) (limbBits : U32)
deriving DecidableEq, Repr

namespace WitnessGen

variable {L L' V V' : Type}

/-- The same instruction with every combination mapped by `lc` and every output by `var`. -/
def map (lc : L → L') (var : V → V') : WitnessGen L V → WitnessGen L' V'
  | .product out left right => .product (var out) (lc left) (lc right)
  | .linear out l => .linear (var out) (lc l)
  | .xor out a b => .xor (var out) (lc a) (lc b)
  | .or out a b => .or (var out) (lc a) (lc b)
  | .inverse out input => .inverse (var out) (lc input)
  | .inverseOrZero out input => .inverseOrZero (var out) (lc input)
  | .bit out input index => .bit (var out) (lc input) index
  | .bits outs input => .bits (outs.map var) (lc input)
  | .divRem q r num den => .divRem (var q) (var r) (lc num) (lc den)
  | .mulModDivMod q r a b modulus limbBits =>
      .mulModDivMod (q.map var) (r.map var) (a.map lc) (b.map lc) (modulus.map lc) limbBits
  | .modInverse out a modulus limbBits =>
      .modInverse (out.map var) (a.map lc) (modulus.map lc) limbBits
  | .fakeGlv out u modulus lambda limbBits =>
      .fakeGlv (out.map var) (u.map lc) (modulus.map lc) (lambda.map lc) limbBits
  | .sub2 qabs r a b c modulus limbBits =>
      .sub2 (var qabs) (r.map var) (a.map lc) (b.map lc) (c.map lc) (modulus.map lc) limbBits

/-- The combinations read, in the order in which execution reads them. -/
def reads : WitnessGen L V → List L
  | .product _ left right => [left, right]
  | .linear _ l => [l]
  | .xor _ a b => [a, b]
  | .or _ a b => [a, b]
  | .inverse _ input => [input]
  | .inverseOrZero _ input => [input]
  | .bit _ input _ => [input]
  | .bits _ input => [input]
  | .divRem _ _ num den => [num, den]
  | .mulModDivMod _ _ a b modulus _ => a ++ b ++ modulus
  -- the modulus is recomposed first
  | .modInverse _ a modulus _ => modulus ++ a
  | .fakeGlv _ u modulus lambda _ => u ++ modulus ++ lambda
  | .sub2 _ _ a b c modulus _ => a ++ b ++ c ++ modulus

/-- The variables written (`op_output_vars`). -/
def outs : WitnessGen L V → List V
  | .product out _ _ => [out]
  | .linear out _ => [out]
  | .xor out _ _ => [out]
  | .or out _ _ => [out]
  | .inverse out _ => [out]
  | .inverseOrZero out _ => [out]
  | .bit out _ _ => [out]
  | .bits outs _ => outs
  | .divRem q r _ _ => [q, r]
  | .mulModDivMod q r _ _ _ _ => q ++ r
  | .modInverse out _ _ _ => out
  | .fakeGlv out _ _ _ _ => out
  | .sub2 qabs r _ _ _ _ _ => qabs :: r

end WitnessGen

/-! ### Constraints and programs -/

/-- `coeff · left · right`. -/
structure MulTerm where
  coeff : FieldConst
  left : VarId
  right : VarId
deriving DecidableEq, Repr

/-- `coeff · var`. -/
structure LinearTerm where
  coeff : FieldConst
  var : VarId
deriving DecidableEq, Repr

/-- `Σ coeff · left · right + Σ coeff · var + constant`. -/
structure Expression where
  mulTerms : List MulTerm
  linearTerms : List LinearTerm
  constant : FieldConst
  note : Option String
deriving DecidableEq, Repr

namespace Expression

variable {R : Type*} [CommRing R]

/-- The value of an expression (`eval_expression`). -/
def eval (e : Expression) (x : VarId → R) : R :=
  (e.constant : R) + (e.linearTerms.map fun t => (t.coeff : R) * x t.var).sum
    + (e.mulTerms.map fun t => (t.coeff : R) * x t.left * x t.right).sum

/-- The variables, as the terms mention them: products first. -/
def vars (e : Expression) : List VarId :=
  (e.mulTerms.flatMap fun t => [t.left, t.right]) ++ e.linearTerms.map LinearTerm.var

lemma eval_congr (e : Expression) {x y : VarId → R} (h : ∀ v ∈ e.vars, x v = y v) :
    e.eval x = e.eval y := by
  have hlin : ∀ t ∈ e.linearTerms, x t.var = y t.var := fun t ht =>
    h _ (List.mem_append_right _ (List.mem_map_of_mem ht))
  have hmul : ∀ t ∈ e.mulTerms, x t.left = y t.left ∧ x t.right = y t.right := fun t ht =>
    ⟨h _ (List.mem_append_left _ (List.mem_flatMap.mpr ⟨t, ht, by simp⟩)),
      h _ (List.mem_append_left _ (List.mem_flatMap.mpr ⟨t, ht, by simp⟩))⟩
  rw [eval, eval, List.map_congr_left fun t ht => by rw [hlin t ht],
    List.map_congr_left (l := e.mulTerms) fun t ht => by rw [(hmul t ht).1, (hmul t ht).2]]

end Expression

/-- The field of a primitive program: its name and its modulus in decimal. -/
structure PrimitiveField where
  name : String
  modulusDecimal : String
deriving DecidableEq, Repr

/-- A program of constraints `expression = 0`. -/
structure PrimitiveProgram where
  field : PrimitiveField
  vars : List Var
  constraints : List Expression
  witnessGen : List (WitnessGen LinearCombination VarId)
deriving DecidableEq, Repr

end XarkCircuit
