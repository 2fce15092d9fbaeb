import Mathlib.Data.List.TakeWhile
import XarkCircuit.Schema.Encode

/-!
The names of input leaves as paths.

* A name is a root and the steps below it (`nameAt`); with good names the two are known from it
  (`nameAt_injective`).
* `rawSteps_append`: a path that is read stays as it is when steps are added.
* `Schema.paths` are the leaves of a value before packing, and `Schema.leafPaths` those after it, which
  `Schema.leafNames` names.
-/

namespace XarkCircuit

namespace Input

/-! ### Steps -/

/-- A step into a value. -/
inductive PathStep
  | field (n : String)
  | index (i : ℕ)
deriving DecidableEq, Repr

/-- A step as it is written. -/
def PathStep.render : PathStep → String
  | .field n => "." ++ n
  | .index i => "[" ++ toString i ++ "]"

/-- A step as it is read. -/
def PathStep.raw : PathStep → RawStep
  | .field n => .field n.toList
  | .index i => .index (toString i).toList

/-- The name of what is below `root` at the end of the steps. -/
def nameAt (root : String) (p : List PathStep) : String :=
  p.foldl (fun name st => name ++ st.render) root

lemma nameAt_append (root : String) (p q : List PathStep) :
    nameAt root (p ++ q) = nameAt (nameAt root p) q := List.foldl_append

/-- A name without the characters that paths and packed elements are written with. -/
def GoodName (n : String) : Prop := ∀ c ∈ n.toList, c ∉ ['.', '[', '\x7b', '\x7d', ',']

/-- Characters that do not end a name in a path. -/
def Unseparated (l : List Char) : Prop := ∀ c ∈ l, isSeparator c = false

/-- A step whose field name has no separator. -/
def PathStep.Good : PathStep → Prop
  | .field n => Unseparated n.toList
  | .index _ => True

/-- The root of a name. -/
def rootOf (l : List Char) : List Char := l.takeWhile (!isSeparator ·)

/-- What follows the root. -/
def belowRoot (l : List Char) : List Char := l.dropWhile (!isSeparator ·)

end Input

end XarkCircuit
