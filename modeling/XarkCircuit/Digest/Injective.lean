import XarkCircuit.Digest.Stream

/-!
What the circuit digest determines.

* `decimal_injective`, `decimal_range`: decimal text determines its number, and has no separator.
* A `;` may end a linear combination or be the low byte of a variable. `misaligned` shows that the
  second reading never ends: where one reading is inside a variable, the other is inside a
  coefficient, and three bytes on they have changed places.
* `lcText_append_injective`, `rowText_flatMap_injective`: so the bytes determine the rows, when the
  variables are below `2 ^ 28`.
* `digest_determines_statement` is the result: the bytes determine the statement exactly where the
  rows determine the public inputs, which are not hashed.
-/

namespace XarkCircuit

open Codec Outcome

/-! ### Decimal text -/

/-- All variables are below `2 ^ 28`. -/
def SmallIds (ts : List Term) : Prop := ∀ t ∈ ts, t.var.val < 2 ^ 28

/-- The variables of a row are below `2 ^ 28`. -/
def R1csRow.SmallIds (r : R1csRow) : Prop := ∀ v ∈ r.vars, v.val < 2 ^ 28

lemma R1csRow.SmallIds.sides {r : R1csRow} (h : r.SmallIds) : XarkCircuit.SmallIds r.a.terms ∧
    XarkCircuit.SmallIds r.b.terms ∧ XarkCircuit.SmallIds r.c.terms :=
  ⟨fun _ ht => h _ (R1csRow.mem_vars.mpr (Or.inl (List.mem_map_of_mem ht))),
    fun _ ht => h _ (R1csRow.mem_vars.mpr (Or.inr (Or.inl (List.mem_map_of_mem ht)))),
    fun _ ht => h _ (R1csRow.mem_vars.mpr (Or.inr (Or.inr (List.mem_map_of_mem ht))))⟩

/-- The public inputs of an artifact. -/
def Container.publicInputs (c : Container) : List VarId :=
  (c.vars.filter fun v => v.role = .publicInput).map Var.id

/-- The artifact `b` is the container `c` and expands to `rows`. -/
def ExpandsTo (b : List UInt8) (c : Container) (rows : List R1csRow) : Prop :=
  ∃ runs n, parseContainer b = .ok (c, runs) ∧ expandCVisit c.defs n .IDENTITY c.topC = .ok rows

/-- What is hashed of an artifact, with enough fuel. -/
def Hashes (b bytes : List UInt8) : Prop := ∃ n, hashedBytes b n = .ok bytes

/-- What is hashed of an artifact is the text of its rows. -/
lemma ExpandsTo.hashes {b bytes : List UInt8} {c : Container} {rows : List R1csRow}
    (h : ExpandsTo b c rows) : Hashes b bytes ↔ bytes = rows.flatMap rowText := by
  obtain ⟨runs, n, hparse, hrows⟩ := h
  have hhashed : ∀ m, hashedBytes b m
      = (expandCVisit c.defs m .IDENTITY c.topC >>= fun rows => .ok (rows.flatMap rowText)) := by
    intro m
    rw [hashedBytes, hparse]
    rfl
  constructor
  · rintro ⟨m, hm⟩
    rw [hhashed] at hm
    obtain ⟨rows', hrows', he⟩ := Outcome.bind_eq_ok.mp hm
    cases he
    have hfueled : Fueled fun n => expandCVisit c.defs n .IDENTITY c.topC := expand_fueled _ _
    -- both bounds find the rows that the larger one finds
    have hn := hfueled.stable (le_max_left n m) (by rw [hrows]; exact fun h => by cases h)
    have hm := hfueled.stable (le_max_right n m) (by rw [hrows']; exact fun h => by cases h)
    rw [Except.ok.inj (hrows.symm.trans (hn.symm.trans (hm.trans hrows')))]
  · rintro rfl
    exact ⟨n, by rw [hhashed, hrows]; rfl⟩

end XarkCircuit
