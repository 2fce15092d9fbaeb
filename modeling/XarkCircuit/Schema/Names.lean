import XarkCircuit.Schema.Packing

/-!
The names that are written for an input's leaves, and those that the runtime reads.

* `Covers` compares two ways to name the same leaves part by part: a part where they differ is never
  made up for by a later one.
* `Ty.schemaNames` is what the runtime reads, and `Ty.regular` says when that is what is written.
* `covers_names`: for regular types and for no others.
-/

namespace XarkCircuit

namespace Input

/-! ### Part by part -/

/-- The parts agree when `p` holds; and when the lists around them agree but the parts are shifted, or
`p` fails, then the shift stays. -/
structure Covers (written read : List String) (p : Prop) : Prop where
  agree : p → read = written
  shift : ∀ X R S, X ++ read ++ R = written ++ S → ∃ X', X ++ read = written ++ X' ∧ S = X' ++ R ∧
    (X ≠ [] → X' ≠ []) ∧ (X = [] → X' = [] → p)

namespace Covers

variable {l s l' s' : List String} {p q : Prop}

lemma iff (h : Covers l s p) : s = l ↔ p := by
  refine ⟨fun heq => ?_, h.agree⟩
  obtain ⟨X', hX, hS, -, hp⟩ := h.shift [] [] [] (by simpa using heq)
  exact hp rfl (by simpa using hS.symm)

lemma congr (h : Covers l s p) (hpq : p ↔ q) : Covers l s q :=
  ⟨fun hq => h.agree (hpq.mpr hq), fun X R S heq => by
    obtain ⟨X', hX, hS, hne, hp⟩ := h.shift X R S heq
    exact ⟨X', hX, hS, hne, fun h0 h1 => hpq.mp (hp h0 h1)⟩⟩

lemma nil : Covers [] [] True :=
  ⟨fun _ => rfl, fun X _ _ heq => ⟨X, by simp, by simpa using heq.symm, fun h => h, fun _ _ => trivial⟩⟩

lemma append (h : Covers l s p) (h' : Covers l' s' q) : Covers (l ++ l') (s ++ s') (p ∧ q) := by
  refine ⟨fun hpq => by rw [h.agree hpq.1, h'.agree hpq.2], fun X R S heq => ?_⟩
  obtain ⟨X', hX, hS, hne, hp⟩ := h.shift X (s' ++ R) (l' ++ S) (by simpa using heq)
  obtain ⟨X'', hX', hS', hne', hq⟩ := h'.shift X' R S (by simpa using hS.symm)
  refine ⟨X'', ?_, hS', fun h0 => hne' (hne h0), fun h0 h1 => ?_⟩
  · rw [← List.append_assoc, hX, List.append_assoc, hX', List.append_assoc]
  · have hX0 : X' = [] := by
      by_contra hX0
      exact hne' hX0 h1
    exact ⟨hp h0 hX0, hq hX0 h1⟩

lemma flatMap {α : Type} {f g : α → List String} {as : List α} (h : ∀ a, Covers (f a) (g a) p) :
    Covers (as.flatMap f) (as.flatMap g) (as = [] ∨ p) := by
  induction as with
  | nil => exact nil.congr (by simp)
  | cons a as ih =>
      rw [List.flatMap_cons, List.flatMap_cons]
      exact ((h a).append ih).congr (by simp; tauto)

/-- One name, the same both ways. -/
lemma same (a : String) : Covers [a] [a] True := by
  refine ⟨fun _ => rfl, fun X R S heq => ?_⟩
  cases X with
  | nil => exact ⟨[], rfl, by simpa using heq.symm, fun h => absurd rfl h, fun _ _ => trivial⟩
  | cons x X =>
      rw [List.append_assoc, List.cons_append, List.singleton_append, List.singleton_append,
        List.cons.injEq] at heq
      obtain ⟨rfl, hS⟩ := heq
      exact ⟨X ++ [x], by simp, by simp [← hS], by simp, fun h => by simp at h⟩

/-- One name that is not among those written. -/
lemma single {a : String} (h : ∀ b ∈ l, b ≠ a) : Covers l [a] False := by
  refine ⟨False.elim, fun X R S heq => ?_⟩
  have hle : l.length ≤ X.length := by
    by_contra hlt
    have hread : (X ++ [a] ++ R)[X.length]? = some a := by simp
    rw [heq, List.getElem?_append_left (by omega)] at hread
    exact h a (List.mem_of_getElem? hread) rfl
  have htake := congrArg (List.take l.length) heq
  rw [List.append_assoc, List.take_append_of_le_length hle, List.take_left] at htake
  have hX : X = l ++ X.drop l.length := by
    conv_lhs => rw [← List.take_append_drop l.length X, htake]
  refine ⟨X.drop l.length ++ [a], ?_, ?_, by simp, by simp⟩
  · rw [← List.append_assoc, ← hX]
  · rw [hX, List.append_assoc, List.append_assoc, List.append_cancel_left_eq] at heq
    rw [← heq, List.append_assoc]

end Covers

/-! ### What the runtime reads -/

/-- The names of the fields that join an element, from place `i` on. -/
def joinedFrom (all : List (Member Ty)) (i : ℕ) : List (Member Ty) → List String
  | [] => []
  | m :: ms =>
    if (packOf all i).packed && (packOf all i).offset ≠ 0 then m.name :: joinedFrom all (i + 1) ms
    else []

mutual

/-- The leaf names that the runtime reads for a type. -/
def Ty.schemaNames : Ty → String → List String
  | .field, name => [name]
  | .uint _, name => [name]
  | .int _, name => [name]
  | .bool, name => [name]
  | .array t n, name =>
    (List.range n).flatMap fun i => t.schemaNames (name ++ "[" ++ toString i ++ "]")
  | .tuple ts, name => tupleSchemaNames name 0 ts
  | .named ⟨_, _, .newtype _, _⟩, name => [name]
  | .named ⟨_, _, .struct ms, enc⟩, name => memberSchemaNames (enc = .fields) ms name 0 ms

/-- The leaf names that the runtime reads for a tuple. -/
def tupleSchemaNames (name : String) (i : ℕ) : List Ty → List String
  | [] => []
  | t :: ts => t.schemaNames (name ++ "." ++ toString i) ++ tupleSchemaNames name (i + 1) ts

/-- The leaf names that the runtime reads for the fields of `all` from field `i` on. -/
def memberSchemaNames (packing : Bool) (all : List (Member Ty)) (name : String) (i : ℕ) :
    List (Member Ty) → List String
  | [] => []
  | ⟨n, t, _⟩ :: ms =>
    (if packing && (packOf all i).packed then
      if (packOf all i).offset = 0 then
        [name ++ ".\x7b" ++ commaJoin (n :: joinedFrom all (i + 1) ms) ++ "\x7d"]
      else []
    else t.schemaNames (name ++ "." ++ n)) ++ memberSchemaNames packing all name (i + 1) ms

end

/-- One leaf, at its own name. -/
def Ty.flat : Ty → Prop
  | .field => True
  | .uint _ => True
  | .int _ => True
  | .bool => True
  | .named ⟨_, _, .newtype t, _⟩ => t.flat
  | _ => False

mutual

/-- No newtype has other leaves than its own name, fields share elements only in plain structs, and the
first field of an element has a width. -/
def Ty.regular : Ty → Prop
  | .field => True
  | .uint _ => True
  | .int _ => True
  | .bool => True
  | .array t n => n = 0 ∨ t.regular
  | .tuple ts => tupleRegular ts
  | .named ⟨_, _, .newtype t, _⟩ => t.flat
  | .named ⟨_, _, .struct ms, enc⟩ => membersRegular (enc = .fields) ms 0 ms

/-- All types of a tuple are regular. -/
def tupleRegular : List Ty → Prop
  | [] => True
  | t :: ts => t.regular ∧ tupleRegular ts

/-- The fields of `all` from field `i` on are regular. -/
def membersRegular (packing : Bool) (all : List (Member Ty)) (i : ℕ) : List (Member Ty) → Prop
  | [] => True
  | ⟨_, t, _⟩ :: ms =>
    (if (packOf all i).packed then
      packing = true ∧ ((packOf all i).offset = 0 → 0 < (packOf all i).bits)
    else t.regular) ∧ membersRegular packing all (i + 1) ms

end

/-! ### The names of packed elements -/

lemma length_commaJoin_cons (a b : String) (l : List String) :
    a.length < (commaJoin (a :: b :: l)).length := by
  rw [commaJoin, String.length_append, String.length_append]
  have : ",".length = 1 := rfl
  omega

/-- The fields of an element, named up to its last one, are those that join its first one. -/
lemma packedNames_eq (all : List (Member Ty)) (fuel : ℕ) {i : ℕ} {m : Member Ty}
    {ms : List (Member Ty)} (hdrop : all.drop i = m :: ms) (hfuel : all.length ≤ fuel + i)
    (hp : (packOf all i).packed)
    (hpos : (packOf all i).offset + (packOf all i).bits ≠ 0 ∨ (packOf all i).last) :
    packedNames all fuel i = commaJoin (m.name :: joinedFrom all (i + 1) ms) := by
  induction fuel generalizing i m ms with
  | zero =>
      have := congrArg List.length hdrop
      rw [List.length_drop, List.length_cons] at this
      omega
  | succ fuel ih =>
      have hlen : i < all.length := by
        have := congrArg List.length hdrop
        rw [List.length_drop, List.length_cons] at this
        omega
      have hget : all[i]? = some m := by
        have := congrArg (·[0]?) hdrop
        simpa using this
      have hnb := neighbours all hlen
      rw [packedNames, hget]
      cases hlast : (packOf all i).last with
      | true =>
          have hjoin : joinedFrom all (i + 1) ms = [] := by
            cases ms with
            | nil => rfl
            | cons m' ms =>
                rw [joinedFrom]
                cases hp' : (packOf all (i + 1)).packed with
                | false => rfl
                | true => rw [hnb.last hp hlast hp']; rfl
          rw [if_pos rfl, hjoin]
          rfl
      | false =>
          obtain ⟨hlt, hp', ho⟩ := hnb.next hp hlast
          have hdrop' : all.drop (i + 1) = ms := by
            rw [← List.drop_drop, hdrop, List.drop_one, List.tail_cons]
          obtain ⟨m', ms', rfl⟩ : ∃ m' ms', ms = m' :: ms' := by
            cases ms with
            | nil => exact absurd (List.drop_eq_nil_iff.mp hdrop') (by omega)
            | cons m' ms' => exact ⟨m', ms', rfl⟩
          have hne : (packOf all (i + 1)).offset ≠ 0 := by
            rw [ho]
            exact hpos.resolve_right (by rw [hlast]; decide)
          have hrest := ih hdrop' (by omega) hp' (Or.inl (by omega))
          have hjoin : joinedFrom all (i + 1) (m' :: ms')
              = m'.name :: joinedFrom all (i + 1 + 1) ms' := by
            rw [joinedFrom, if_pos (by simp [hp', hne])]
          rw [if_neg (by decide), hrest, hjoin]
          rfl

/-- A first field without a width is not the only one that is named. -/
lemma packedNames_ne (all : List (Member Ty)) {i : ℕ} {m : Member Ty} {ms : List (Member Ty)}
    (hdrop : all.drop i = m :: ms) (hp : (packOf all i).packed) (h0 : (packOf all i).offset = 0)
    (hb : (packOf all i).bits = 0) :
    packedNames all all.length i ≠ commaJoin (m.name :: joinedFrom all (i + 1) ms) := by
  have hlen : i < all.length := by
    have := congrArg List.length hdrop
    rw [List.length_drop, List.length_cons] at this
    omega
  have hget : all[i]? = some m := by
    have := congrArg (·[0]?) hdrop
    simpa using this
  have hnb := neighbours all hlen
  have hlast := hnb.zero hp h0 hb
  obtain ⟨hlt, hp', ho⟩ := hnb.next hp hlast
  have hjoin : joinedFrom all (i + 1) ms = [] := by
    cases ms with
    | nil => rfl
    | cons m' ms =>
        rw [joinedFrom, if_neg]
        simp [hp', ho, h0, hb]
  have hnames : ∃ rest, packedNames all all.length i = m.name ++ "," ++ rest := by
    obtain ⟨fuel, hfuel⟩ := Nat.exists_eq_succ_of_ne_zero (show all.length ≠ 0 by omega)
    rw [hfuel, packedNames, hget, hlast]
    exact ⟨_, rfl⟩
  obtain ⟨rest, hrest⟩ := hnames
  rw [hrest, hjoin]
  intro heq
  have hlength := congrArg String.length heq
  rw [String.length_append, String.length_append] at hlength
  have : ",".length = 1 := rfl
  have : (commaJoin [m.name]).length = m.name.length := rfl
  omega

/-! ### Comparing the names -/

/-- Leaf names start with the name of their value, and only one leaf is there. -/
lemma length_le_of_mem_namesInto (t : Ty) : ∀ name, ∀ b ∈ t.namesInto name, name.length ≤ b.length ∧
    (¬ t.flat → name.length < b.length) := by
  have hsingle : ∀ (p : Prop) (name : String), p → ∀ b ∈ [name], name.length ≤ b.length ∧
      (¬ p → name.length < b.length) := by
    intro p name hp b hb
    rw [List.mem_singleton.mp hb]
    exact ⟨le_rfl, fun h => absurd hp h⟩
  have hlonger : ∀ {name suffix b : String} {p : Prop}, 0 < suffix.length →
      (name ++ suffix).length ≤ b.length → name.length ≤ b.length ∧ (p → name.length < b.length) := by
    intro name suffix b p hpos hle
    rw [String.length_append] at hle
    exact ⟨by omega, fun _ => by omega⟩
  have hdot : ".".length = 1 := rfl
  have hbracket : "[".length = 1 := rfl
  have hbrace : ".\x7b".length = 2 := rfl
  induction t using Ty.ind with
  | field => exact fun name => hsingle _ name trivial
  | uint w => exact fun name => hsingle _ name trivial
  | int w => exact fun name => hsingle _ name trivial
  | bool => exact fun name => hsingle _ name trivial
  | array t len ih =>
      intro name b hb
      obtain ⟨i, -, hb⟩ := List.mem_flatMap.mp hb
      have hle := (ih _ b hb).1
      rw [String.append_assoc, String.append_assoc] at hle
      exact hlonger (by rw [String.length_append]; omega) hle
  | tuple ts ih =>
      have key : ∀ (ts : List Ty) (i : ℕ) (name : String), (∀ t ∈ ts, ∀ name, ∀ b ∈ t.namesInto name,
          name.length ≤ b.length ∧ (¬ t.flat → name.length < b.length)) →
          ∀ b ∈ tupleNames name i ts, name.length < b.length := by
        intro ts
        induction ts with
        | nil => exact fun _ _ _ b hb => absurd hb List.not_mem_nil
        | cons t ts ih' =>
            intro i name h b hb
            rcases List.mem_append.mp hb with hb | hb
            · have hle := (h t List.mem_cons_self _ b hb).1
              rw [String.length_append, String.length_append] at hle
              omega
            · exact ih' (i + 1) name (fun t' ht' => h t' (List.mem_cons_of_mem _ ht')) b hb
      intro name b hb
      have hlt := key ts 0 name ih b hb
      exact ⟨hlt.le, fun _ => hlt⟩
  | newtype n a t enc ih => exact ih
  | struct n a ms enc ih =>
      have key : ∀ (rest : List (Member Ty)) (i : ℕ) (name : String), (∀ m ∈ rest, ∀ name,
          ∀ b ∈ m.ty.namesInto name, name.length ≤ b.length ∧
            (¬ m.ty.flat → name.length < b.length)) →
          ∀ b ∈ memberNames ms name i rest, name.length < b.length := by
        intro rest
        induction rest with
        | nil => exact fun _ _ _ b hb => absurd hb List.not_mem_nil
        | cons m rest ih' =>
            intro i name h b hb
            obtain ⟨n, t, p⟩ := m
            rcases List.mem_append.mp hb with hb | hb
            · split_ifs at hb
              · have hle := (h ⟨n, t, p⟩ List.mem_cons_self _ b hb).1
                rw [String.length_append, String.length_append] at hle
                omega
              · rw [List.mem_singleton.mp hb, String.length_append, String.length_append,
                  String.length_append]
                omega
              · exact absurd hb List.not_mem_nil
            · exact ih' (i + 1) name (fun m' hm' => h m' (List.mem_cons_of_mem _ hm')) b hb
      intro name b hb
      have hlt := key ms 0 name ih b hb
      exact ⟨hlt.le, fun _ => hlt⟩

lemma namesInto_of_flat (t : Ty) : t.flat → ∀ name, t.namesInto name = [name] := by
  induction t using Ty.ind with
  | field => exact fun _ _ => rfl
  | uint w => exact fun _ _ => rfl
  | int w => exact fun _ _ => rfl
  | bool => exact fun _ _ => rfl
  | array t len ih => exact fun h => absurd h (by simp [Ty.flat])
  | tuple ts ih => exact fun h => absurd h (by simp [Ty.flat])
  | newtype n a t enc ih => exact fun h name => ih h name
  | struct n a ms enc ih => exact fun h => absurd h (by simp [Ty.flat])

/-- What is packable is read as one leaf. -/
lemma schemaNames_of_packable {m : Member Ty} (h : (packable m).isSome) (name : String) :
    m.ty.schemaNames name = [name] := by
  obtain ⟨n, t, pack⟩ := m
  rw [packable] at h
  split_ifs at h with hpack
  · cases t with
    | field => rfl
    | uint w => rfl
    | int w => rfl
    | bool => rfl
    | array t len => exact absurd h (by simp [Ty.bits])
    | tuple ts => exact absurd h (by simp [Ty.bits])
    | named n =>
        obtain ⟨n, a, layout, enc⟩ := n
        cases layout with
        | newtype t => rfl
        | struct ms => exact absurd h (by simp [Ty.bits])
  · exact absurd h (by decide)

/-- An element is never named as its first field alone would be. -/
lemma packedNames_ne_name (all : List (Member Ty)) {i : ℕ} {m : Member Ty}
    {ms : List (Member Ty)} (hdrop : all.drop i = m :: ms) :
    ".\x7b" ++ (packedNames all all.length i ++ "\x7d") ≠ "." ++ m.name := by
  have hlen : i < all.length := by
    have := congrArg List.length hdrop
    rw [List.length_drop, List.length_cons] at this
    omega
  have hget : all[i]? = some m := by
    have := congrArg (·[0]?) hdrop
    simpa using this
  obtain ⟨fuel, hfuel⟩ := Nat.exists_eq_succ_of_ne_zero (show all.length ≠ 0 by omega)
  have hle : m.name.length ≤ (packedNames all all.length i).length := by
    rw [hfuel, packedNames, hget]
    split_ifs
    · exact le_rfl
    · rw [String.length_append, String.length_append, Nat.add_assoc]
      exact Nat.le_add_right _ _
  intro heq
  have hlength := congrArg String.length heq
  rw [String.length_append, String.length_append, String.length_append] at hlength
  have : ".\x7b".length = 2 := rfl
  have : ".".length = 1 := rfl
  omega

/-- One field, on its own or as the first one of an element, compared. -/
lemma covers_member (packing : Bool) {all : List (Member Ty)} {i : ℕ} {m : Member Ty}
    {rest : List (Member Ty)} (hdrop : all.drop i = m :: rest)
    (h : ∀ name, Covers (m.ty.namesInto name) (m.ty.schemaNames name) m.ty.regular) (name : String) :
    Covers
      (if !(packOf all i).packed then m.ty.namesInto (name ++ "." ++ m.name)
        else if (packOf all i).offset = 0 then
          [name ++ ".\x7b" ++ packedNames all all.length i ++ "\x7d"]
        else [])
      (if packing && (packOf all i).packed then
        if (packOf all i).offset = 0 then
          [name ++ ".\x7b" ++ commaJoin (m.name :: joinedFrom all (i + 1) rest) ++ "\x7d"]
        else []
      else m.ty.schemaNames (name ++ "." ++ m.name))
      (if (packOf all i).packed then
        packing = true ∧ ((packOf all i).offset = 0 → 0 < (packOf all i).bits)
      else m.ty.regular) := by
  have hlen : i < all.length := by
    have := congrArg List.length hdrop
    rw [List.length_drop, List.length_cons] at this
    omega
  have hget : all[i]? = some m := by
    have := congrArg (·[0]?) hdrop
    simpa using this
  cases hp : (packOf all i).packed with
  | false => simpa using h (name ++ "." ++ m.name)
  | true =>
      have hread := schemaNames_of_packable ((neighbours all hlen).packable hp m hget)
      cases packing with
      | false =>
          -- The runtime reads a packed field of a type with an encoding as a leaf of its own.
          simp only [Bool.not_true, Bool.false_eq_true, if_false, Bool.false_and, hread, if_true,
            false_and]
          refine Covers.single fun b hb heq => ?_
          split_ifs at hb with h0
          · rw [List.mem_singleton.mp hb, String.append_assoc, String.append_assoc,
              String.append_assoc, String.append_right_inj] at heq
            exact packedNames_ne_name all hdrop heq
          · exact absurd hb List.not_mem_nil
      | true =>
          simp only [Bool.not_true, Bool.false_eq_true, if_false, Bool.true_and, if_true, true_and]
          by_cases h0 : (packOf all i).offset = 0
          · simp only [h0, if_true, true_implies]
            rcases Nat.eq_zero_or_pos (packOf all i).bits with hb | hb
            · have hne := packedNames_ne all hdrop hp h0 hb
              refine (Covers.single fun b hmem heq => hne ?_).congr (by simp [hb])
              rwa [List.mem_singleton.mp hmem, String.append_left_inj, String.append_right_inj] at heq
            · have hpos : (packOf all i).offset + (packOf all i).bits ≠ 0 := by omega
              rw [packedNames_eq all all.length hdrop (Nat.le_add_right _ _) hp (Or.inl hpos)]
              exact (Covers.same _).congr (by simpa using hb)
          · simp only [h0, if_false, false_implies]
            exact Covers.nil

/-- **The names compared**: what is written and what is read agree exactly for regular types. -/
theorem covers_names (t : Ty) : ∀ name, Covers (t.namesInto name) (t.schemaNames name) t.regular := by
  induction t using Ty.ind with
  | field => exact fun name => Covers.same name
  | uint w => exact fun name => Covers.same name
  | int w => exact fun name => Covers.same name
  | bool => exact fun name => Covers.same name
  | array t len ih =>
      intro name
      refine (Covers.flatMap (fun i => ih (name ++ "[" ++ toString i ++ "]"))).congr ?_
      rw [Ty.regular, List.range_eq_nil]
  | tuple ts ih =>
      intro name
      have key : ∀ (ts : List Ty) (i : ℕ), (∀ t ∈ ts, ∀ name,
          Covers (t.namesInto name) (t.schemaNames name) t.regular) →
          Covers (tupleNames name i ts) (tupleSchemaNames name i ts) (tupleRegular ts) := by
        intro ts
        induction ts with
        | nil => exact fun _ _ => Covers.nil
        | cons t ts ih' =>
            intro i h
            exact (h t List.mem_cons_self _).append
              (ih' (i + 1) fun t' ht' => h t' (List.mem_cons_of_mem _ ht'))
      exact key ts 0 ih
  | newtype n a t enc ih =>
      intro name
      by_cases hflat : t.flat
      · have hnames : Ty.namesInto (.named ⟨n, a, .newtype t, enc⟩) name = [name] :=
          namesInto_of_flat t hflat name
        rw [hnames]
        exact (Covers.same name).congr (by simpa [Ty.regular] using hflat)
      · refine (Covers.single fun b hb heq => ?_).congr (by simpa [Ty.regular] using hflat)
        have := (length_le_of_mem_namesInto t name b hb).2 hflat
        rw [heq] at this
        exact Nat.lt_irrefl _ this
  | struct n a ms enc ih =>
      intro name
      have key : ∀ (rest : List (Member Ty)) (i : ℕ), ms.drop i = rest → (∀ m ∈ rest, ∀ name,
          Covers (m.ty.namesInto name) (m.ty.schemaNames name) m.ty.regular) →
          Covers (memberNames ms name i rest)
            (memberSchemaNames (enc = .fields) ms name i rest)
            (membersRegular (enc = .fields) ms i rest) := by
        intro rest
        induction rest with
        | nil => exact fun _ _ _ => Covers.nil
        | cons m rest ih' =>
            intro i hdrop h
            have hdrop' : ms.drop (i + 1) = rest := by
              rw [← List.drop_drop, hdrop, List.drop_one, List.tail_cons]
            have htail := ih' (i + 1) hdrop' fun m' hm' => h m' (List.mem_cons_of_mem _ hm')
            have hhead := covers_member (enc = .fields) hdrop (h m List.mem_cons_self) name
            obtain ⟨n, t, p⟩ := m
            exact hhead.append htail
      exact key ms 0 List.drop_zero ih

end Input

end XarkCircuit
