import XarkCircuit.Schema.Read

/-!
Where the descriptions of an input's layout agree.

* `LayoutsAgree`: the names, their count and the places of the packed fields are the same on both sides.
* `layouts_agree_iff`: this is so exactly for regular types; a newtype over an array is not one.
-/

namespace XarkCircuit

namespace Input

/-! ### Counting -/

/-- As many names as leaves. -/
lemma length_namesInto (t : Ty) : ∀ name, (t.namesInto name).length = t.leaves := by
  induction t using Ty.ind with
  | field => exact fun _ => rfl
  | uint w => exact fun _ => rfl
  | int w => exact fun _ => rfl
  | bool => exact fun _ => rfl
  | array t len ih =>
      intro name
      rw [Ty.namesInto, Ty.leaves, List.length_flatMap]
      simp [ih, Nat.mul_comm]
  | tuple ts ih =>
      intro name
      have key : ∀ (ts : List Ty) (i : ℕ), (∀ t ∈ ts, ∀ name,
          (t.namesInto name).length = t.leaves) → (tupleNames name i ts).length = tupleLeaves ts := by
        intro ts
        induction ts with
        | nil => exact fun _ _ => rfl
        | cons t ts ih' =>
            intro i h
            rw [tupleNames, tupleLeaves, List.length_append, h t List.mem_cons_self,
              ih' (i + 1) fun t' ht' => h t' (List.mem_cons_of_mem _ ht')]
      exact key ts 0 ih
  | newtype n a t enc ih => exact ih
  | struct n a ms enc ih =>
      intro name
      have key : ∀ (rest : List (Member Ty)) (i : ℕ), (∀ m ∈ rest, ∀ name,
          (m.ty.namesInto name).length = m.ty.leaves) →
          (memberNames ms name i rest).length = memberLeaves ms i rest := by
        intro rest
        induction rest with
        | nil => exact fun _ _ => rfl
        | cons m rest ih' =>
            intro i h
            have hm := h m List.mem_cons_self
            obtain ⟨n, t, p⟩ := m
            rw [memberNames, memberLeaves, List.length_append,
              ih' (i + 1) fun m' hm' => h m' (List.mem_cons_of_mem _ hm')]
            congr 1
            split_ifs
            · exact hm _
            · rfl
            · rfl
      exact key ms 0 ih

/-! ### Agreement -/

/-- The places of a struct's fields, as values are read and written. -/
def Ty.planSlots (t : Ty) : List (Option (ℕ × ℕ × Bool)) :=
  match t with
  | .named ⟨_, _, .struct ms, _⟩ => (packPlan t ms.length).map Pack.slot
  | _ => []

/-- The places of a struct's fields, as the runtime reads them. -/
def Schema.slots (s : Schema) (t : SchemaType) : List (Option (ℕ × ℕ × Bool)) :=
  match t with
  | .ref r => groupSlots (s.members r)
  | _ => []

/-- The descriptions of the layout of one input are the same. -/
structure LayoutsAgree (s : Schema) (input : SchemaInput) (p : Param) : Prop where
  names : ∃ N, ∀ fuel, N ≤ fuel →
    s.leafNames fuel input.type p.name = .ok (leafNames p.type p.name)
  count : (leafNames p.type p.name).length = p.type.leaves
  plan : s.slots input.type = p.type.planSlots

lemma paramsJson_described (ps : List Param) : ∀ d inputs d', d.Inv → (∀ k, d.Above k) →
    paramsJson ps d = .ok (inputs, d') →
    Step d d' ∧ ∀ q ∈ ps.zip inputs, q.2.type = q.1.type.desc ∧ q.1.type.described d'.json := by
  induction ps with
  | nil =>
      intro d inputs d' hd _ h
      obtain ⟨rfl, rfl⟩ := Prod.mk.inj (Except.ok.inj h)
      exact ⟨Step.refl hd, fun q hq => absurd hq List.not_mem_nil⟩
  | cons p ps ih =>
      intro d inputs d' hd ha h
      obtain ⟨⟨s, d1⟩, h1, h⟩ := Outcome.bind_eq_ok.mp h
      obtain ⟨⟨rest, d2⟩, h2, h⟩ := Outcome.bind_eq_ok.mp h
      obtain ⟨rfl, rfl⟩ := Prod.mk.inj (Except.ok.inj h)
      obtain ⟨rfl, hstep1, hp⟩ := json_described p.type d s d1 hd (ha _) h1
      obtain ⟨hstep2, hrest⟩ := ih d1 rest d2 hstep1.inv (fun k => hstep1.above (ha k)) h2
      refine ⟨hstep1.trans hstep2, fun q hq => ?_⟩
      rw [List.zip_cons_cons] at hq
      rcases List.mem_cons.mp hq with rfl | hq
      · exact ⟨rfl, described_mono hstep2.grows p.type hp⟩
      · exact hrest q hq

/-- Every parameter is described in the schema of its circuit. -/
lemma schemaJson_described {params : List Param} {s : Schema} (h : schemaJson params = .ok s)
    {p : Param} {input : SchemaInput} (hp : (p, input) ∈ params.zip s.inputs) :
    input.type = p.type.desc ∧ p.type.described s.types := by
  obtain ⟨⟨inputs, d⟩, h1, h⟩ := Outcome.bind_eq_ok.mp h
  rw [← Except.ok.inj h] at hp ⊢
  have hinv : Defs.Inv ⟨[], []⟩ := ⟨fun _ _ => rfl, fun n hs => absurd hs (by simp)⟩
  have habove : ∀ k, Defs.Above ⟨[], []⟩ k := fun k n hs => absurd hs (by simp)
  exact (paramsJson_described params _ inputs d hinv habove h1).2 (p, input) hp

/-- The places agree for regular types. -/
lemma slots_eq_planSlots {s : Schema} {t : Ty} (hd : t.described s.types) (hreg : t.regular) :
    s.slots t.desc = t.planSlots := by
  cases t with
  | named n =>
      obtain ⟨n, a, layout, enc⟩ := n
      obtain ⟨⟨e, he⟩, -⟩ := hd
      rw [Ty.desc, Schema.slots, Schema.members, Schema.find, he]
      cases layout with
      | newtype t => rfl
      | struct ms =>
          have hslots := groupSlots_desc (enc = .fields) ms ms.length ms 0 le_rfl rfl
            (fun _ _ => (split_all ms).head rfl) hreg
          dsimp only [bodyDesc]
          rw [hslots, slotsFrom_eq, Ty.planSlots, ← List.range_eq_range']
          by_cases henc : enc = .fields
          · subst henc
            rw [packPlan, List.map_map]
            refine List.map_congr_left fun i hi => ?_
            simp [List.mem_range.mp hi]
          · have hplan : packPlan (.named ⟨n, a, .struct ms, enc⟩) ms.length
                = List.replicate ms.length .ALONE := by
              cases enc <;> first | rfl | exact absurd rfl henc
            rw [hplan, List.map_replicate]
            simp [henc, Pack.slot, Pack.packed, Pack.ALONE, List.map_const']
  | _ => rfl

/-- **Where the layouts agree**: for regular types, and for no others. -/
theorem layouts_agree_iff {params : List Param} {s : Schema} (h : schemaJson params = .ok s)
    {p : Param} {input : SchemaInput} (hp : (p, input) ∈ params.zip s.inputs) :
    LayoutsAgree s input p ↔ p.type.regular := by
  obtain ⟨hty, hd⟩ := schemaJson_described h hp
  have hread := leafNames_desc s p.type hd
  have hiff := (covers_names p.type p.name).iff
  constructor
  · rintro ⟨⟨N, hN⟩, -, -⟩
    have hfuel := hN (max N (sizeOf p.type + 1)) (le_max_left _ _)
    rw [hty, hread _ (Nat.lt_of_succ_le (le_max_right _ _))] at hfuel
    exact hiff.mp (Except.ok.inj hfuel)
  · intro hreg
    refine ⟨⟨sizeOf p.type + 1, fun fuel hf => ?_⟩, length_namesInto p.type p.name, ?_⟩
    · rw [hty, hread fuel hf, leafNames, hiff.mpr hreg]
    · rw [hty, slots_eq_planSlots hd hreg]

/-- A packed pair, whose layouts agree. -/
def pairParam : Param :=
  ⟨"p", true, .named ⟨"Pair", none, .struct [⟨"a", .uint 8, true⟩, ⟨"b", .bool, true⟩], .fields⟩⟩

/-- The schema of a packed pair agrees with it. -/
theorem layouts_agree_pair : LayoutsAgree ⟨[⟨"p", true, .ref "Pair"⟩], [("Pair", .type (.struct
    [⟨"a", .uint 8, some (0, 8)⟩, ⟨"b", .bool, some (8, 1)⟩]) none)], ["p.\x7ba,b\x7d"]⟩
    ⟨"p", true, .ref "Pair"⟩ pairParam := by
  have hregular : pairParam.type.regular := by
    have h0 : (packOf [⟨"a", .uint 8, true⟩, ⟨"b", .bool, true⟩] 0) = ⟨0, 8, 9, false, false⟩ := by
      decide
    have h1 : (packOf [⟨"a", .uint 8, true⟩, ⟨"b", .bool, true⟩] 1) = ⟨8, 1, 9, true, false⟩ := by
      decide
    simp [pairParam, Ty.regular, membersRegular, h0, h1, Pack.packed]
  have hschema : schemaJson [pairParam] = .ok ⟨[⟨"p", true, .ref "Pair"⟩], [("Pair", .type (.struct
      [⟨"a", .uint 8, some (0, 8)⟩, ⟨"b", .bool, some (8, 1)⟩]) none)], ["p.\x7ba,b\x7d"]⟩ := by rfl
  exact (layouts_agree_iff hschema List.mem_cons_self).mpr hregular

/-- A newtype over an array: the runtime knows one leaf, where three are written. -/
theorem layouts_disagree_newtype : ¬ ∀ (params : List Param) (s : Schema),
    schemaJson params = .ok s → ∀ p input, (p, input) ∈ params.zip s.inputs →
      LayoutsAgree s input p := by
  intro h
  have hagree := h [⟨"p", true, .named ⟨"B", none, .newtype (.array .field 3), .fields⟩⟩] _ rfl _ _
    List.mem_cons_self
  obtain ⟨N, hN⟩ := hagree.names
  have hone := hN (N + 1) (Nat.le_succ N)
  have hlen := congrArg List.length (Except.ok.inj hone)
  exact absurd hlen (by decide)

end Input

end XarkCircuit
