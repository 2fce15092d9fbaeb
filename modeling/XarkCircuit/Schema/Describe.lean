import XarkCircuit.Schema.Names

/-!
What a schema describes.

* `Ty.desc` is the description of a type, and `Ty.described` says that every named type in it is
  described too.
* `Step`: describing a type only adds to the definitions so far, and finishes what it begins.
* `json_described`: the description of a type refers to named types that are all described.
-/

namespace XarkCircuit

namespace Input

/-! ### Descriptions -/

mutual

/-- The description of a type. -/
def Ty.desc : Ty → SchemaType
  | .field => .field
  | .uint w => .uint w
  | .int w => .int w
  | .bool => .bool
  | .array t n => .array t.desc n
  | .tuple ts => .tuple (tupleDesc ts)
  | .named n => .ref (typeName n)

/-- The descriptions of a tuple's types. -/
def tupleDesc : List Ty → List SchemaType
  | [] => []
  | t :: ts => t.desc :: tupleDesc ts

end

/-- The descriptions of the fields of `all` from field `i` on. -/
def membersDesc (packing : Bool) (all : List (Member Ty)) (i : ℕ) :
    List (Member Ty) → List SchemaMember
  | [] => []
  | m :: ms =>
    ⟨m.name, m.ty.desc, if packing && (packOf all i).packed then
      some ((packOf all i).offset, (packOf all i).bits) else none⟩ ::
      membersDesc packing all (i + 1) ms

/-- The description of a layout. -/
def bodyDesc (packing : Bool) : Layout Ty → SchemaBody
  | .newtype t => .newtype t.desc
  | .struct ms => .struct (membersDesc packing ms 0 ms)

mutual

/-- Every named type in a type is described. -/
def Ty.described (types : List (String × SchemaDef)) : Ty → Prop
  | .field => True
  | .uint _ => True
  | .int _ => True
  | .bool => True
  | .array t _ => t.described types
  | .tuple ts => tupleDescribed types ts
  | .named ⟨n, a, layout, enc⟩ =>
    (∃ e, types.lookup (typeName ⟨n, a, layout, enc⟩)
      = some (.type (bodyDesc (enc = .fields) layout) e)) ∧ layoutDescribed types layout

/-- Every named type in a tuple is described. -/
def tupleDescribed (types : List (String × SchemaDef)) : List Ty → Prop
  | [] => True
  | t :: ts => t.described types ∧ tupleDescribed types ts

/-- Every named type in a layout is described. -/
def layoutDescribed (types : List (String × SchemaDef)) : Layout Ty → Prop
  | .newtype t => t.described types
  | .struct ms => membersDescribed types ms

/-- Every named type in a struct's fields is described. -/
def membersDescribed (types : List (String × SchemaDef)) : List (Member Ty) → Prop
  | [] => True
  | ⟨_, t, _⟩ :: ms => t.described types ∧ membersDescribed types ms

end

/-- More is described. -/
def Grows (types types' : List (String × SchemaDef)) : Prop :=
  ∀ name x, types.lookup name = some x → types'.lookup name = some x

lemma described_mono {types types' : List (String × SchemaDef)} (h : Grows types types') (t : Ty) :
    t.described types → t.described types' := by
  induction t using Ty.ind with
  | field => exact id
  | uint w => exact id
  | int w => exact id
  | bool => exact id
  | array t len ih => exact ih
  | tuple ts ih =>
      intro hts
      rw [Ty.described] at hts ⊢
      induction ts with
      | nil => trivial
      | cons t ts ih' =>
          exact ⟨ih t List.mem_cons_self hts.1,
            ih' (fun t' ht' => ih t' (List.mem_cons_of_mem _ ht')) hts.2⟩
  | newtype n a t enc ih =>
      rintro ⟨⟨e, he⟩, ht⟩
      exact ⟨⟨e, h _ _ he⟩, ih ht⟩
  | struct n a ms enc ih =>
      rintro ⟨⟨e, he⟩, hms⟩
      refine ⟨⟨e, h _ _ he⟩, ?_⟩
      rw [layoutDescribed] at hms ⊢
      clear he
      induction ms with
      | nil => trivial
      | cons m ms ih' =>
          obtain ⟨n', t, p⟩ := m
          exact ⟨ih ⟨n', t, p⟩ List.mem_cons_self hms.1,
            ih' (fun m' hm' => ih m' (List.mem_cons_of_mem _ hm')) hms.2⟩

lemma layoutDescribed_mono {types types' : List (String × SchemaDef)} (h : Grows types types')
    (layout : Layout Ty) : layoutDescribed types layout → layoutDescribed types' layout := by
  cases layout with
  | newtype t => exact described_mono h t
  | struct ms =>
      intro hms
      rw [layoutDescribed] at hms ⊢
      induction ms with
      | nil => trivial
      | cons m ms ih =>
          obtain ⟨n, t, p⟩ := m
          exact ⟨described_mono h t hms.1, ih hms.2⟩

/-! ### Equality of types -/

lemma eq_of_beq (t : Ty) : ∀ t', t.beq t' = true → t = t' := by
  induction t using Ty.ind with
  | field => intro t' h; cases t' <;> simp_all [Ty.beq]
  | uint w => intro t' h; cases t' <;> simp_all [Ty.beq]
  | int w => intro t' h; cases t' <;> simp_all [Ty.beq]
  | bool => intro t' h; cases t' <;> simp_all [Ty.beq]
  | array t len ih =>
      intro t' h
      cases t' <;> simp [Ty.beq] at h
      rw [ih _ h.1, h.2]
  | tuple ts ih =>
      intro t' h
      cases t' with
      | tuple ts' =>
          rw [Ty.beq] at h
          have key : ∀ (ts ts' : List Ty), (∀ t ∈ ts, ∀ t', t.beq t' = true → t = t') →
              tupleBeq ts ts' = true → ts = ts' := by
            intro ts
            induction ts with
            | nil => intro ts' _ h; cases ts' <;> simp_all [tupleBeq]
            | cons t ts ih' =>
                intro ts' hts h
                cases ts' with
                | nil => simp [tupleBeq] at h
                | cons t' ts' =>
                    rw [tupleBeq, Bool.and_eq_true] at h
                    rw [hts t List.mem_cons_self t' h.1,
                      ih' ts' (fun t'' ht'' => hts t'' (List.mem_cons_of_mem _ ht'')) h.2]
          rw [key ts ts' ih h]
      | _ => simp [Ty.beq] at h
  | newtype n a t enc ih =>
      intro t' h
      cases t' with
      | named n' =>
          obtain ⟨n', a', layout, enc'⟩ := n'
          cases layout with
          | newtype t' =>
              simp only [Ty.beq, Bool.and_eq_true, decide_eq_true_eq] at h
              obtain ⟨⟨⟨rfl, rfl⟩, ht⟩, rfl⟩ := h
              rw [ih t' ht]
          | struct ms => simp [Ty.beq] at h
      | _ => simp [Ty.beq] at h
  | struct n a ms enc ih =>
      intro t' h
      cases t' with
      | named n' =>
          obtain ⟨n', a', layout, enc'⟩ := n'
          cases layout with
          | newtype t' => simp [Ty.beq] at h
          | struct ms' =>
              simp only [Ty.beq, Bool.and_eq_true, decide_eq_true_eq] at h
              obtain ⟨⟨⟨rfl, rfl⟩, hms⟩, rfl⟩ := h
              have key : ∀ (ms ms' : List (Member Ty)),
                  (∀ m ∈ ms, ∀ t', m.ty.beq t' = true → m.ty = t') →
                  membersBeq ms ms' = true → ms = ms' := by
                intro ms
                induction ms with
                | nil => intro ms' _ h; cases ms' <;> simp_all [membersBeq]
                | cons m ms ih' =>
                    intro ms' hms h
                    obtain ⟨n, t, p⟩ := m
                    cases ms' with
                    | nil => simp [membersBeq] at h
                    | cons m' ms' =>
                        obtain ⟨n', t', p'⟩ := m'
                        simp only [membersBeq, Bool.and_eq_true, decide_eq_true_eq] at h
                        obtain ⟨⟨⟨rfl, ht⟩, rfl⟩, hrest⟩ := h
                        have ht' : t = t' := hms ⟨n, t, p⟩ List.mem_cons_self t' ht
                        rw [ht', ih' ms' (fun m'' hm'' => hms m'' (List.mem_cons_of_mem _ hm'')) hrest]
              rw [key ms ms' ih hms]
      | _ => simp [Ty.beq] at h

/-! ### The definitions so far -/

/-- Only claimed names are described, and a described one with all that it refers to. -/
structure Defs.Inv (d : Defs) : Prop where
  keys : ∀ name, d.seen.lookup name = none → d.json.lookup name = none
  done : ∀ n, d.seen.lookup (typeName n) = some (.named n) →
    d.json.lookup (typeName n) = none ∨ (Ty.named n).described d.json

/-- What is described stays so, and the names that are claimed in between are described. -/
structure Step (d d' : Defs) : Prop where
  inv : d'.Inv
  grows : Grows d.json d'.json
  seen : ∀ name w, d.seen.lookup name = some w → d'.seen.lookup name = some w
  pending : ∀ name, d'.json.lookup name = none → d'.seen.lookup name = d.seen.lookup name
  old : ∀ name w, d.seen.lookup name = some w → d.json.lookup name = none →
    d'.json.lookup name = none

namespace Step

variable {d d' d'' : Defs}

lemma refl (h : d.Inv) : Step d d :=
  ⟨h, fun _ _ hx => hx, fun _ _ hw => hw, fun _ _ => rfl, fun _ _ _ hn => hn⟩

lemma json_none (h : Step d d') {name : String} (hn : d'.json.lookup name = none) :
    d.json.lookup name = none := by
  cases hx : d.json.lookup name with
  | none => rfl
  | some x => exact absurd (hn.symm.trans (h.grows name x hx)) (by simp)

lemma trans (h : Step d d') (h' : Step d' d'') : Step d d'' where
  inv := h'.inv
  grows name x hx := h'.grows name x (h.grows name x hx)
  seen name w hw := h'.seen name w (h.seen name w hw)
  pending name hn := (h'.pending name hn).trans (h.pending name (h'.json_none hn))
  old name w hw hn := h'.old name w (h.seen name w hw) (h.old name w hw hn)

end Step

/-- The types whose description is under way are larger than `k`. -/
def Defs.Above (d : Defs) (k : ℕ) : Prop :=
  ∀ n, d.seen.lookup (typeName n) = some (.named n) → d.json.lookup (typeName n) = none →
    k < sizeOf (Ty.named n)

lemma Defs.Above.mono {d : Defs} {k k' : ℕ} (h : d.Above k) (hk : k' ≤ k) : d.Above k' :=
  fun n hs hj => Nat.lt_of_le_of_lt hk (h n hs hj)

lemma Step.above {d d' : Defs} (h : Step d d') {k : ℕ} (ha : d.Above k) : d'.Above k :=
  fun n hs hj => ha n ((h.pending _ hj).symm.trans hs) (h.json_none hj)

lemma lookup_cons_ne {β : Type} {a b : String} (x : β) (l : List (String × β)) (h : a ≠ b) :
    ((b, x) :: l).lookup a = l.lookup a := by
  have hbeq : (a == b) = false := beq_false_of_ne h
  rw [List.lookup_cons, hbeq]

/-- A claim succeeds for a new name, or for what the name already stands for. -/
lemma claim_cases {d d' : Defs} {name : String} {what : Seen} {fresh : Bool}
    (h : d.claim name what = .ok (fresh, d')) :
    (fresh = true ∧ d.seen.lookup name = none ∧ d' = { d with seen := (name, what) :: d.seen }) ∨
      (fresh = false ∧ d' = d ∧ ∃ w, d.seen.lookup name = some w ∧ w.beq what = true) := by
  rw [Defs.claim] at h
  cases hs : d.seen.lookup name with
  | none =>
      rw [hs] at h
      simp only [Except.ok.injEq, Prod.mk.injEq] at h
      exact Or.inl ⟨h.1.symm, rfl, h.2.symm⟩
  | some w =>
      rw [hs] at h
      dsimp only at h
      split_ifs at h with hb
      simp only [Except.ok.injEq, Prod.mk.injEq] at h
      exact Or.inr ⟨h.1.symm, h.2.symm, w, rfl, hb⟩

/-- A new name is claimed. -/
lemma Defs.Inv.claim {d : Defs} (hd : d.Inv) {name : String} (what : Seen)
    (hnone : d.seen.lookup name = none) : Defs.Inv { d with seen := (name, what) :: d.seen } := by
  refine ⟨fun name' hs => ?_, fun n hs => ?_⟩
  · rcases eq_or_ne name' name with rfl | hne
    · exact hd.keys name' hnone
    · rw [lookup_cons_ne _ _ hne] at hs
      exact hd.keys name' hs
  · rcases eq_or_ne (typeName n) name with rfl | hne
    · exact Or.inl (hd.keys _ hnone)
    · rw [lookup_cons_ne _ _ hne] at hs
      exact hd.done n hs

/-- A new name is claimed and then described. -/
lemma Step.define {d d' : Defs} {name : String} {what : Seen} {x : SchemaDef} (hd : d.Inv)
    (hnone : d.seen.lookup name = none) (h : Step { d with seen := (name, what) :: d.seen } d')
    (hx : ∀ n, what = .named n → (Ty.named n).described ((name, x) :: d'.json)) :
    Step d (d'.insert name x) := by
  have hseen : d'.seen.lookup name = some what := h.seen name what List.lookup_cons_self
  have hjson : d'.json.lookup name = none :=
    h.old name what List.lookup_cons_self (hd.keys name hnone)
  have hgrows : Grows d'.json ((name, x) :: d'.json) := by
    intro name' y hy
    rcases eq_or_ne name' name with rfl | hne
    · exact absurd (hjson.symm.trans hy) (by simp)
    · rwa [lookup_cons_ne _ _ hne]
  refine ⟨⟨fun name' hs => ?_, fun n hs => ?_⟩, fun name' y hy => hgrows _ _ (h.grows _ _ hy),
    fun name' w hw => ?_, fun name' hn => ?_, fun name' w hw hn => ?_⟩
  · rcases eq_or_ne name' name with rfl | hne
    · exact absurd (hseen.symm.trans hs) (by simp)
    · rw [Defs.insert, lookup_cons_ne _ _ hne]
      exact h.inv.keys name' hs
  · rcases eq_or_ne (typeName n) name with rfl | hne
    · exact Or.inr (hx n (Option.some.inj (hseen.symm.trans hs)))
    · rw [Defs.insert, lookup_cons_ne _ _ hne]
      exact (h.inv.done n hs).imp id (described_mono hgrows _)
  · rcases eq_or_ne name' name with rfl | hne
    · exact absurd (hnone.symm.trans hw) (by simp)
    · refine h.seen name' w ?_
      rwa [lookup_cons_ne _ _ hne]
  · rcases eq_or_ne name' name with rfl | hne
    · rw [Defs.insert, List.lookup_cons_self] at hn
      exact absurd hn (by simp)
    · rw [Defs.insert, lookup_cons_ne _ _ hne] at hn
      have hp := h.pending name' hn
      rw [lookup_cons_ne _ _ hne] at hp
      exact hp
  · rcases eq_or_ne name' name with rfl | hne
    · exact absurd (hnone.symm.trans hw) (by simp)
    · rw [Defs.insert, lookup_cons_ne _ _ hne]
      refine h.old name' w ?_ hn
      rwa [lookup_cons_ne _ _ hne]

/-- Describing an enum. -/
lemma variantsJson_step {v : Variants} {d d' : Defs} (hd : d.Inv)
    (h : variantsJson v d = .ok d') : Step d d' := by
  obtain ⟨⟨fresh, d1⟩, hclaim, hd'⟩ := Outcome.bind_eq_ok.mp h
  rcases claim_cases hclaim with ⟨rfl, hnone, rfl⟩ | ⟨rfl, rfl, -⟩
  · rw [← Except.ok.inj hd']
    exact Step.define hd hnone (Step.refl (hd.claim _ hnone)) fun n hn => by cases hn
  · rw [← Except.ok.inj hd']
    exact Step.refl hd

lemma encodingJson_step {enc : Encoding} {leaves : ℕ} {d d' : Defs} {e : Option SchemaEncoding}
    (hd : d.Inv) (h : encodingJson enc leaves d = .ok (e, d')) : Step d d' := by
  have hsame : ∀ {x : Option SchemaEncoding}, (Except.ok (x, d) : Outcome _) = .ok (e, d') →
      Step d d' := by
    intro x hx
    obtain ⟨-, rfl⟩ := Prod.mk.inj (Except.ok.inj hx)
    exact Step.refl hd
  have hvariants : ∀ {v : Variants} {x : Option SchemaEncoding},
      (do .ok (x, ← variantsJson v d) : Outcome _) = .ok (e, d') → Step d d' := by
    intro v x hx
    obtain ⟨d1, h1, hx⟩ := Outcome.bind_eq_ok.mp hx
    obtain ⟨-, rfl⟩ := Prod.mk.inj (Except.ok.inj hx)
    exact variantsJson_step hd h1
  cases enc with
  | choice v => exact hvariants h
  | set v => exact hvariants h
  | bytes b => cases b <;> exact hsame h
  | _ => exact hsame h

/-! ### Describing a type -/

/-- What describing a type does: the description is the type's, and all that it refers to is
described. -/
def DescribesWell (t : Ty) : Prop :=
  ∀ d s d', d.Inv → d.Above (sizeOf t) → t.json d = .ok (s, d') →
    s = t.desc ∧ Step d d' ∧ t.described d'.json

lemma tupleJson_step (k : ℕ) (ts : List Ty) (hts : ∀ t ∈ ts, DescribesWell t ∧ sizeOf t ≤ k) :
    ∀ d ss d', d.Inv → d.Above k → tupleJson ts d = .ok (ss, d') →
      ss = tupleDesc ts ∧ Step d d' ∧ tupleDescribed d'.json ts := by
  induction ts with
  | nil =>
      intro d ss d' hd _ h
      obtain ⟨rfl, rfl⟩ := Prod.mk.inj (Except.ok.inj h)
      exact ⟨rfl, Step.refl hd, trivial⟩
  | cons t ts ih =>
      intro d ss d' hd ha h
      obtain ⟨⟨s, d1⟩, h1, h⟩ := Outcome.bind_eq_ok.mp h
      obtain ⟨⟨ss', d2⟩, h2, h⟩ := Outcome.bind_eq_ok.mp h
      obtain ⟨rfl, rfl⟩ := Prod.mk.inj (Except.ok.inj h)
      obtain ⟨hwell, hk⟩ := hts t List.mem_cons_self
      obtain ⟨rfl, hstep1, ht⟩ := hwell d s d1 hd (ha.mono hk) h1
      obtain ⟨rfl, hstep2, hrest⟩ := ih (fun t' ht' => hts t' (List.mem_cons_of_mem _ ht')) d1 ss' d2
        hstep1.inv (hstep1.above ha) h2
      exact ⟨rfl, hstep1.trans hstep2, described_mono hstep2.grows t ht, hrest⟩

lemma membersJson_step (k : ℕ) (packing : Bool) (all : List (Member Ty)) (ms : List (Member Ty))
    (hms : ∀ m ∈ ms, DescribesWell m.ty ∧ sizeOf m.ty ≤ k) :
    ∀ i d fs d', d.Inv → d.Above k → membersJson packing all i ms d = .ok (fs, d') →
      fs = membersDesc packing all i ms ∧ Step d d' ∧ membersDescribed d'.json ms := by
  induction ms with
  | nil =>
      intro i d fs d' hd _ h
      obtain ⟨rfl, rfl⟩ := Prod.mk.inj (Except.ok.inj h)
      exact ⟨rfl, Step.refl hd, trivial⟩
  | cons m ms ih =>
      intro i d fs d' hd ha h
      obtain ⟨hwell, hk⟩ := hms m List.mem_cons_self
      obtain ⟨n, t, p⟩ := m
      obtain ⟨⟨s, d1⟩, h1, h⟩ := Outcome.bind_eq_ok.mp h
      obtain ⟨⟨fs', d2⟩, h2, h⟩ := Outcome.bind_eq_ok.mp h
      obtain ⟨rfl, rfl⟩ := Prod.mk.inj (Except.ok.inj h)
      obtain ⟨rfl, hstep1, ht⟩ := hwell d s d1 hd (ha.mono hk) h1
      obtain ⟨rfl, hstep2, hrest⟩ := ih (fun m' hm' => hms m' (List.mem_cons_of_mem _ hm')) (i + 1)
        d1 fs' d2 hstep1.inv (hstep1.above ha) h2
      exact ⟨rfl, hstep1.trans hstep2, described_mono hstep2.grows t ht, hrest⟩

/-- A named type, given how its layout is described. -/
lemma named_describesWell {n : String} {a : Option String} {layout : Layout Ty} {enc : Encoding}
    (hlayout : ∀ d body d', d.Inv → d.Above (sizeOf layout) →
      layoutJson (enc = .fields) layout d = .ok (body, d') →
      body = bodyDesc (enc = .fields) layout ∧ Step d d' ∧ layoutDescribed d'.json layout) :
    DescribesWell (.named ⟨n, a, layout, enc⟩) := by
  intro d s d' hd ha hjs
  have hsize : sizeOf layout < sizeOf (Ty.named ⟨n, a, layout, enc⟩) := by
    simp
    omega
  obtain ⟨⟨fresh, d1⟩, hclaim, h⟩ := Outcome.bind_eq_ok.mp hjs
  rcases claim_cases hclaim with ⟨rfl, hnone, rfl⟩ | ⟨rfl, rfl, w, hw, hbeq⟩
  · obtain ⟨⟨body, d2⟩, h2, h⟩ := Outcome.bind_eq_ok.mp h
    obtain ⟨⟨e, d3⟩, h3, h⟩ := Outcome.bind_eq_ok.mp h
    obtain ⟨rfl, rfl⟩ := Prod.mk.inj (Except.ok.inj h)
    have hd1 := hd.claim (.named ⟨n, a, layout, enc⟩) hnone
    have ha1 : Defs.Above { d with seen := (typeName ⟨n, a, layout, enc⟩,
        Seen.named ⟨n, a, layout, enc⟩) :: d.seen } (sizeOf layout) := by
      intro n' hs hj
      rcases eq_or_ne (typeName n') (typeName ⟨n, a, layout, enc⟩) with heq | hne
      · rw [heq, List.lookup_cons_self] at hs
        obtain rfl := Seen.named.inj (Option.some.inj hs)
        exact hsize
      · rw [lookup_cons_ne _ _ hne] at hs
        exact hsize.trans (ha n' hs hj)
    obtain ⟨rfl, hstep2, hbody⟩ := hlayout _ body d2 hd1 ha1 h2
    have hstep3 := encodingJson_step hstep2.inv h3
    have hstep := hstep2.trans hstep3
    have hjson : d3.json.lookup (typeName ⟨n, a, layout, enc⟩) = none :=
      hstep.old _ _ List.lookup_cons_self (hd.keys _ hnone)
    have hgrows : Grows d3.json ((typeName ⟨n, a, layout, enc⟩,
        SchemaDef.type (bodyDesc (enc = .fields) layout) e) :: d3.json) := by
      intro name' y hy
      rcases eq_or_ne name' (typeName ⟨n, a, layout, enc⟩) with rfl | hne
      · exact absurd (hjson.symm.trans hy) (by simp)
      · rwa [lookup_cons_ne _ _ hne]
    have hdescribed : (Ty.named ⟨n, a, layout, enc⟩).described ((typeName ⟨n, a, layout, enc⟩,
        SchemaDef.type (bodyDesc (enc = .fields) layout) e) :: d3.json) := by
      refine ⟨⟨e, List.lookup_cons_self⟩, ?_⟩
      have hgrows' : Grows d2.json _ := fun name x hx => hgrows name x (hstep3.grows name x hx)
      exact layoutDescribed_mono hgrows' layout hbody
    exact ⟨rfl, Step.define hd hnone hstep fun n' hn' => by
      obtain rfl := Seen.named.inj hn'
      exact hdescribed, hdescribed⟩
  · obtain ⟨rfl, rfl⟩ := Prod.mk.inj (Except.ok.inj h)
    refine ⟨rfl, Step.refl hd, ?_⟩
    obtain ⟨n', rfl, heq⟩ : ∃ n', w = .named n' ∧
        Ty.named n' = .named ⟨n, a, layout, enc⟩ := by
      cases w with
      | named n' => exact ⟨n', rfl, eq_of_beq _ _ hbeq⟩
      | enum v => exact absurd hbeq (by simp [Seen.beq])
    obtain rfl := Ty.named.inj heq
    rcases hd.done _ hw with hj | hdescribed
    · exact absurd (ha _ hw hj) (Nat.lt_irrefl _)
    · exact hdescribed

/-- **Describing a type**: the description is the type's, and all that it refers to is described. -/
theorem json_described (t : Ty) : DescribesWell t := by
  have hprim : ∀ {t : Ty} {x : SchemaType}, (∀ d, t.json d = .ok (x, d)) → x = t.desc →
      (∀ types, t.described types) → DescribesWell t := by
    intro t x hjson hx hdesc d s d' hd _ h
    rw [hjson d] at h
    obtain ⟨rfl, rfl⟩ := Prod.mk.inj (Except.ok.inj h)
    exact ⟨hx, Step.refl hd, hdesc _⟩
  induction t using Ty.ind with
  | field => exact hprim (fun _ => rfl) rfl fun _ => trivial
  | uint w => exact hprim (fun _ => rfl) rfl fun _ => trivial
  | int w => exact hprim (fun _ => rfl) rfl fun _ => trivial
  | bool => exact hprim (fun _ => rfl) rfl fun _ => trivial
  | array t len ih =>
      intro d s d' hd ha h
      obtain ⟨⟨s', d1⟩, h1, h⟩ := Outcome.bind_eq_ok.mp h
      obtain ⟨rfl, rfl⟩ := Prod.mk.inj (Except.ok.inj h)
      obtain ⟨rfl, hstep, ht⟩ := ih d s' d1 hd (ha.mono (by simp; omega)) h1
      exact ⟨rfl, hstep, ht⟩
  | tuple ts ih =>
      intro d s d' hd ha h
      obtain ⟨⟨ss, d1⟩, h1, h⟩ := Outcome.bind_eq_ok.mp h
      obtain ⟨rfl, rfl⟩ := Prod.mk.inj (Except.ok.inj h)
      obtain ⟨rfl, hstep, hts⟩ := tupleJson_step (sizeOf ts) ts
        (fun t ht => ⟨ih t ht, (List.sizeOf_lt_of_mem ht).le⟩) d ss d1 hd
        (ha.mono (by simp)) h1
      exact ⟨rfl, hstep, hts⟩
  | newtype n a t enc ih =>
      refine named_describesWell fun d body d' hd ha h => ?_
      obtain ⟨⟨s, d1⟩, h1, h⟩ := Outcome.bind_eq_ok.mp h
      obtain ⟨rfl, rfl⟩ := Prod.mk.inj (Except.ok.inj h)
      obtain ⟨rfl, hstep, ht⟩ := ih d s d1 hd (ha.mono (by simp)) h1
      exact ⟨rfl, hstep, ht⟩
  | struct n a ms enc ih =>
      refine named_describesWell fun d body d' hd ha h => ?_
      obtain ⟨⟨fs, d1⟩, h1, h⟩ := Outcome.bind_eq_ok.mp h
      obtain ⟨rfl, rfl⟩ := Prod.mk.inj (Except.ok.inj h)
      obtain ⟨rfl, hstep, hms⟩ := membersJson_step (sizeOf ms) (enc = .fields) ms ms
        (fun m hm => ⟨ih m hm, by
          have hlt := List.sizeOf_lt_of_mem hm
          obtain ⟨n', t, p⟩ := m
          simp at hlt ⊢
          omega⟩) 0 d fs d1 hd (ha.mono (by simp)) h1
      exact ⟨rfl, hstep, hms⟩

end Input

end XarkCircuit
