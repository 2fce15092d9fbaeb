import XarkCircuit.Schema.Describe

/-!
How the runtime reads the description of a type.

* `groups_alone`, `groups_packed`: the runtime's grouping of the fields, from left to right.
* `leafNames_desc`: it reads `Ty.schemaNames`.
* `groupSlots_desc`: and the places of the packed fields, when the fields are regular.
-/

namespace XarkCircuit

namespace Input

/-! ### Groups -/

/-- A field that joins the element of the field before it. -/
def joins (f : SchemaMember) : Bool :=
  match f.packed with
  | some p => p.1 ≠ 0
  | none => false

lemma pushGroup_append (out acc : List Group) (hacc : acc ≠ []) (f : SchemaMember) :
    pushGroup (out ++ acc) f = out ++ pushGroup acc f := by
  rw [pushGroup, pushGroup, List.getLast?_append_of_ne_nil _ hacc,
    List.dropLast_append_of_ne_nil hacc]
  split
  · split_ifs <;> simp
  · simp
  · simp

lemma pushGroup_ne_nil (out : List Group) (f : SchemaMember) : pushGroup out f ≠ [] := by
  rw [pushGroup]
  split
  · split_ifs <;> simp
  · simp
  · simp

lemma foldl_pushGroup_append (out acc : List Group) (hacc : acc ≠ []) (fs : List SchemaMember) :
    fs.foldl pushGroup (out ++ acc) = out ++ fs.foldl pushGroup acc := by
  induction fs generalizing acc with
  | nil => rfl
  | cons f fs ih =>
      rw [List.foldl_cons, List.foldl_cons, pushGroup_append out acc hacc,
        ih _ (pushGroup_ne_nil acc f)]

/-- Fields of which the first does not join start afresh. -/
lemma foldl_pushGroup_fresh (out : List Group) (fs : List SchemaMember)
    (h : (∀ gs, out.getLast? ≠ some (.packed gs)) ∨ ∀ f ∈ fs.head?, joins f = false) :
    fs.foldl pushGroup out = out ++ groups fs := by
  cases fs with
  | nil => simp [groups]
  | cons f fs =>
      have hpush : pushGroup out f = out ++ pushGroup [] f := by
        rw [pushGroup, pushGroup]
        cases hp : f.packed with
        | none => simp
        | some p =>
            rcases h with h | h
            · cases hl : out.getLast? with
              | none => simp
              | some g =>
                  cases g with
                  | alone f' => simp
                  | packed gs => exact absurd hl (h gs)
            · have h0 : p.1 = 0 := by
                have := h f (by simp)
                simpa [joins, hp] using this
              cases hl : out.getLast? with
              | none => simp
              | some g => cases g <;> simp [h0]
      rw [groups, List.foldl_cons, List.foldl_cons, hpush,
        foldl_pushGroup_append out _ (pushGroup_ne_nil [] f)]

/-- A field that is not packed is alone. -/
lemma groups_alone {f : SchemaMember} (hf : f.packed = none) (fs : List SchemaMember) :
    groups (f :: fs) = .alone f :: groups fs := by
  have hpush : pushGroup [] f = [.alone f] := by simp [pushGroup, hf]
  rw [groups, List.foldl_cons, hpush, foldl_pushGroup_fresh _ _ (Or.inl (by simp))]
  rfl

/-- A packed field takes along the fields that join. -/
lemma groups_packed {f : SchemaMember} {p : ℕ × ℕ} (hf : f.packed = some p)
    (fs : List SchemaMember) :
    groups (f :: fs) = .packed (f :: fs.takeWhile joins) :: groups (fs.dropWhile joins) := by
  have hpush : pushGroup [] f = [.packed [f]] := by simp [pushGroup, hf]
  have key : ∀ (fs gs : List SchemaMember), fs.foldl pushGroup [.packed gs]
      = .packed (gs ++ fs.takeWhile joins) :: groups (fs.dropWhile joins) := by
    intro fs
    induction fs with
    | nil => intro gs; simp [groups]
    | cons f fs ih =>
        intro gs
        cases hj : joins f with
        | true =>
            have hstep : pushGroup [.packed gs] f = [.packed (gs ++ [f])] := by
              rw [joins] at hj
              cases hp : f.packed with
              | none => simp [hp] at hj
              | some p => simp_all [pushGroup]
            rw [List.foldl_cons, hstep, ih, List.takeWhile_cons, List.dropWhile_cons, hj]
            simp
        | false =>
            rw [foldl_pushGroup_fresh _ _ (Or.inr (by simpa using hj)), List.takeWhile_cons,
              List.dropWhile_cons, hj]
            simp
  rw [groups, List.foldl_cons, hpush, key]
  rfl

/-! ### The fields of an element -/

section Elements

variable {all : List (Member Ty)} {i : ℕ} {m : Member Ty} {rest : List (Member Ty)}

lemma drop_succ_of_drop (h : all.drop i = m :: rest) : all.drop (i + 1) = rest := by
  rw [← List.drop_drop, h, List.drop_one, List.tail_cons]

/-- The fields from place `i` on up to the first that does not join: how they are described, named and
placed. -/
lemma membersDesc_joined (all : List (Member Ty)) (name : String) (rest : List (Member Ty)) (i : ℕ) :
    ∃ k, (membersDesc true all i rest).takeWhile joins
        = membersDesc true all i (rest.take k) ∧
      (membersDesc true all i rest).dropWhile joins = membersDesc true all (i + k) (rest.drop k) ∧
      k ≤ rest.length ∧
      joinedFrom all i rest = (rest.take k).map Member.name ∧
      memberSchemaNames true all name i rest
        = memberSchemaNames true all name (i + k) (rest.drop k) ∧
      (∀ j, j < k → (packOf all (i + j)).packed = true ∧ (packOf all (i + j)).offset ≠ 0) ∧
      (k < rest.length → (packOf all (i + k)).packed → (packOf all (i + k)).offset = 0) := by
  induction rest generalizing i with
  | nil => exact ⟨0, by simp [membersDesc, joinedFrom]⟩
  | cons m rest ih =>
      by_cases hj : (packOf all i).packed = true ∧ (packOf all i).offset ≠ 0
      · obtain ⟨k, htake, hdrop, hk, hnames, hread, hin, hout⟩ := ih (i + 1)
        have hjoins : ∀ t, joins ⟨m.name, t, if true && (packOf all i).packed then
            some ((packOf all i).offset, (packOf all i).bits) else none⟩ = true := by
          intro t
          simp [joins, hj.1, hj.2]
        have hassoc : i + (k + 1) = i + 1 + k := by omega
        refine ⟨k + 1, ?_, ?_, by simpa using hk, ?_, ?_, fun j hjk => ?_, fun hlt => ?_⟩
        · rw [membersDesc, List.takeWhile_cons, if_pos (hjoins _), htake, List.take_succ_cons]
          rfl
        · rw [membersDesc, List.dropWhile_cons, if_pos (hjoins _), hdrop, hassoc,
            List.drop_succ_cons]
        · rw [joinedFrom, if_pos (by simp [hj.1, hj.2]), hnames]
          rfl
        · obtain ⟨n, t, p⟩ := m
          rw [memberSchemaNames, hj.1, Bool.and_self, if_pos rfl, if_neg hj.2, List.nil_append, hread, hassoc,
            List.drop_succ_cons]
        · cases j with
          | zero => exact hj
          | succ j =>
              rw [show i + (j + 1) = i + 1 + j by omega]
              exact hin j (by omega)
        · rw [hassoc]
          exact hout (by simpa using hlt)
      · have hjoins : ∀ t, joins ⟨m.name, t, if true && (packOf all i).packed then
            some ((packOf all i).offset, (packOf all i).bits) else none⟩ = false := by
          intro t
          cases hp : (packOf all i).packed <;> simp_all [joins]
        refine ⟨0, ?_, ?_, Nat.zero_le _, ?_, rfl, fun j hjk => absurd hjk (Nat.not_lt_zero j),
          fun _ hp => ?_⟩
        · rw [membersDesc, List.takeWhile_cons, hjoins]
          rfl
        · rw [membersDesc, List.dropWhile_cons, hjoins]
          rfl
        · rw [joinedFrom, if_neg (by simpa using hj)]
          rfl
        · by_contra h0
          exact hj ⟨hp, h0⟩

end Elements

/-! ### Reading a description -/

section Reading

variable (s : Schema) (fuel : ℕ)

/-- The leaves of a group. -/
def Schema.groupNames (name : String) : Group → Outcome (List String)
  | .alone f => s.leafNames fuel f.type (name ++ "." ++ f.name)
  | .packed fs => .ok [packedName name fs]

variable {s fuel}

lemma membersDesc_names (packing : Bool) (all : List (Member Ty)) (i : ℕ) (ms : List (Member Ty)) :
    (membersDesc packing all i ms).map SchemaMember.name = ms.map Member.name := by
  induction ms generalizing i with
  | nil => rfl
  | cons m ms ih => rw [membersDesc, List.map_cons, List.map_cons, ih]

/-- The fields of a struct, read from their descriptions. -/
lemma groupNames_desc (packing : Bool) (all : List (Member Ty)) (name : String) :
    ∀ (k : ℕ) (rest : List (Member Ty)) (i : ℕ), rest.length ≤ k → all.drop i = rest →
      (packing = true → rest ≠ [] → (packOf all i).packed → (packOf all i).offset = 0) →
      (∀ m ∈ rest, ∀ name, s.leafNames fuel m.ty.desc name = .ok (m.ty.schemaNames name)) →
      Outcome.concatM (s.groupNames fuel name) (groups (membersDesc packing all i rest))
        = .ok (memberSchemaNames packing all name i rest) := by
  intro k
  induction k with
  | zero =>
      intro rest i hk _ _ _
      obtain rfl := List.length_eq_zero_iff.mp (Nat.le_zero.mp hk)
      rfl
  | succ k ih =>
      intro rest i hk hdrop hstart hread
      cases rest with
      | nil => rfl
      | cons m rest =>
          have hlen : i < all.length := by
            have := congrArg List.length hdrop
            rw [List.length_drop, List.length_cons] at this
            omega
          have hdrop' := drop_succ_of_drop hdrop
          have hread' : ∀ m' ∈ rest, ∀ name,
              s.leafNames fuel m'.ty.desc name = .ok (m'.ty.schemaNames name) :=
            fun m' hm' => hread m' (List.mem_cons_of_mem _ hm')
          rw [List.length_cons] at hk
          by_cases hp : packing = true ∧ (packOf all i).packed = true
          · -- A packed field that starts an element takes along those that join.
            obtain ⟨rfl, hp⟩ := hp
            have h0 := hstart rfl (by simp) hp
            obtain ⟨k', htake, hdropW, hk', hnames, hmem, -, hout⟩ :=
              membersDesc_joined all name rest (i + 1)
            have hrest := ih (rest.drop k') (i + 1 + k')
              (by rw [List.length_drop]; omega) (by rw [← List.drop_drop, hdrop'])
              (fun _ hne => hout (by
                have := List.length_pos_iff.mpr hne
                rw [List.length_drop] at this
                omega))
              fun m' hm' => hread' m' (List.mem_of_mem_drop hm')
            have hname : packedName name (⟨m.name, m.ty.desc,
                some ((packOf all i).offset, (packOf all i).bits)⟩ ::
                  membersDesc true all (i + 1) (rest.take k'))
                = name ++ ".\x7b" ++ commaJoin (m.name :: joinedFrom all (i + 1) rest) ++ "\x7d" := by
              rw [packedName, List.map_cons, membersDesc_names, hnames]
            obtain ⟨n, t, p⟩ := m
            rw [membersDesc, hp, Bool.and_self, if_pos rfl, groups_packed rfl, htake, hdropW,
              Outcome.concatM_cons, Schema.groupNames, hname, hrest, memberSchemaNames, hp,
              Bool.and_self, if_pos rfl, if_pos h0, hmem]
            rfl
          · have hnot : (packing && (packOf all i).packed) = false := by
              cases packing <;> simp_all
            have hrest := ih rest (i + 1) (by omega) hdrop' (fun hpk _ => by
              subst hpk
              refine (neighbours all hlen).start ?_
              simpa using hnot) hread'
            have hm := hread m List.mem_cons_self (name ++ "." ++ m.name)
            obtain ⟨n, t, p⟩ := m
            rw [membersDesc, hnot, groups_alone rfl, Outcome.concatM_cons, Schema.groupNames]
            dsimp only
            rw [hm, hrest, memberSchemaNames, hnot]
            rfl

/-- **Reading a description** gives the names, with fuel for the nesting. -/
theorem leafNames_desc (s : Schema) (t : Ty) : t.described s.types → ∀ fuel, sizeOf t < fuel →
    ∀ name, s.leafNames fuel t.desc name = .ok (t.schemaNames name) := by
  induction t using Ty.ind with
  | field => intro _ fuel hf name; cases fuel with | zero => omega | succ fuel => rfl
  | uint w => intro _ fuel hf name; cases fuel with | zero => omega | succ fuel => rfl
  | int w => intro _ fuel hf name; cases fuel with | zero => omega | succ fuel => rfl
  | bool => intro _ fuel hf name; cases fuel with | zero => omega | succ fuel => rfl
  | array t len ih =>
      intro ht fuel hf name
      cases fuel with
      | zero => omega
      | succ fuel =>
          have hsize : sizeOf (Ty.array t len) = 1 + sizeOf t + sizeOf len := by simp
          rw [Ty.desc, Schema.leafNames, Ty.schemaNames]
          exact Outcome.concatM_eq_ok fun i _ => ih ht fuel (by omega) _
  | tuple ts ih =>
      intro hts fuel hf name
      cases fuel with
      | zero => omega
      | succ fuel =>
          have hsize : sizeOf (Ty.tuple ts) = 1 + sizeOf ts := by simp
          have key : ∀ (ts : List Ty) (i : ℕ), (∀ t ∈ ts, ∀ name,
              t.described s.types → s.leafNames fuel t.desc name = .ok (t.schemaNames name)) →
              tupleDescribed s.types ts →
              Outcome.concatM (fun e => s.leafNames fuel e.1 (name ++ "." ++ toString e.2))
                ((tupleDesc ts).zipIdx i) = .ok (tupleSchemaNames name i ts) := by
            intro ts
            induction ts with
            | nil => exact fun _ _ _ => rfl
            | cons t ts ih' =>
                intro i h hd
                rw [tupleDesc, List.zipIdx_cons, Outcome.concatM_cons,
                  ih' (i + 1) (fun t' ht' => h t' (List.mem_cons_of_mem _ ht')) hd.2]
                dsimp only
                rw [h t List.mem_cons_self _ hd.1]
                rfl
          rw [Ty.desc, Schema.leafNames, Ty.schemaNames]
          refine key ts 0 (fun t ht name hd => ih t ht hd fuel ?_ name) hts
          have := List.sizeOf_lt_of_mem ht
          omega
  | newtype n a t enc ih =>
      rintro ⟨⟨e, he⟩, -⟩ fuel hf name
      cases fuel with
      | zero => omega
      | succ fuel =>
          rw [Ty.desc, Schema.leafNames]
          rw [Schema.find, he]
          rfl
  | struct n a ms enc ih =>
      rintro ⟨⟨e, he⟩, hms⟩ fuel hf name
      cases fuel with
      | zero => omega
      | succ fuel =>
          have hmembers : s.members (typeName ⟨n, a, .struct ms, enc⟩)
              = membersDesc (enc = .fields) ms 0 ms := by
            rw [Schema.members, Schema.find, he]
            rfl
          have hsize : sizeOf ms < sizeOf (Ty.named ⟨n, a, .struct ms, enc⟩) := by
            simp
            omega
          have hmem : ∀ m ∈ ms, m.ty.described s.types := by
            rw [layoutDescribed] at hms
            clear he hmembers hsize hf ih
            induction ms with
            | nil => simp
            | cons m ms ih =>
                obtain ⟨n', t, p⟩ := m
                intro m' hm'
                rcases List.mem_cons.mp hm' with rfl | hm'
                · exact hms.1
                · exact ih hms.2 m' hm'
          have hread : ∀ m ∈ ms, ∀ name,
              s.leafNames fuel m.ty.desc name = .ok (m.ty.schemaNames name) := by
            intro m hm name
            refine ih m hm (hmem m hm) fuel ?_ name
            have hlt := List.sizeOf_lt_of_mem hm
            have hty : sizeOf m.ty < sizeOf m := by
              obtain ⟨_, _, _⟩ := m
              simp only [Member.mk.sizeOf_spec]
              omega
            omega
          have hgroups := groupNames_desc (s := s) (enc = .fields) ms name ms.length ms 0 le_rfl rfl
            (fun _ _ => (split_all ms).head rfl) hread
          rw [Ty.desc, Schema.leafNames]
          rw [Schema.find, he, hmembers]
          exact hgroups

end Reading


/-! ### Places -/

/-- A packed field's place: its offset, its width and whether it is its element's last one. -/
def Pack.slot (p : Pack) : Option (ℕ × ℕ × Bool) :=
  if p.packed then some (p.offset, p.bits, p.last) else none

/-- The places of the fields of `all` from field `i` on. -/
def slotsFrom (packing : Bool) (all : List (Member Ty)) (i : ℕ) :
    List (Member Ty) → List (Option (ℕ × ℕ × Bool))
  | [] => []
  | _ :: ms => (if packing then (packOf all i).slot else none) :: slotsFrom packing all (i + 1) ms

lemma slotsFrom_eq (packing : Bool) (all : List (Member Ty)) (ms : List (Member Ty)) (i : ℕ) :
    slotsFrom packing all i ms = (List.range' i ms.length).map fun j =>
      if packing then (packOf all j).slot else none := by
  induction ms generalizing i with
  | nil => rfl
  | cons m ms ih => rw [slotsFrom, ih, List.length_cons, List.range'_succ, List.map_cons]

lemma slotsFrom_append (packing : Bool) (all : List (Member Ty)) (ms ms' : List (Member Ty)) (i : ℕ) :
    slotsFrom packing all i (ms ++ ms')
      = slotsFrom packing all i ms ++ slotsFrom packing all (i + ms.length) ms' := by
  rw [slotsFrom_eq, slotsFrom_eq, slotsFrom_eq, List.length_append, ← List.map_append,
    List.range'_append_1]

lemma membersRegular_drop (packing : Bool) (all : List (Member Ty)) (k : ℕ) (i : ℕ)
    (ms : List (Member Ty)) (hk : k ≤ ms.length) (h : membersRegular packing all i ms) :
    membersRegular packing all (i + k) (ms.drop k) := by
  induction k generalizing i ms with
  | zero => exact h
  | succ k ih =>
      cases ms with
      | nil => exact absurd hk (by simp)
      | cons m ms =>
          obtain ⟨n, t, p⟩ := m
          rw [List.drop_succ_cons, show i + (k + 1) = i + 1 + k by omega]
          exact ih (i + 1) ms (by simpa using hk) h.2

/-- The places in one element, as the runtime reads them. -/
def elementSlots (fs : List SchemaMember) : List (Option (ℕ × ℕ × Bool)) :=
  fs.zipIdx.map fun f => some ((packing f.1).1, (packing f.1).2, decide (f.2 + 1 = fs.length))

lemma elementSlots_desc (all : List (Member Ty)) (ms : List (Member Ty)) (i : ℕ)
    (h : ∀ j, j < ms.length → (packOf all (i + j)).packed = true ∧
      (packOf all (i + j)).last = decide (j + 1 = ms.length)) :
    elementSlots (membersDesc true all i ms) = slotsFrom true all i ms := by
  have key : ∀ (ms : List (Member Ty)) (i j0 total : ℕ), (∀ j, j < ms.length →
      (packOf all (i + j)).packed = true ∧
        (packOf all (i + j)).last = decide (j0 + j + 1 = total)) →
      ((membersDesc true all i ms).zipIdx j0).map (fun f =>
        some ((packing f.1).1, (packing f.1).2, decide (f.2 + 1 = total)))
        = slotsFrom true all i ms := by
    intro ms
    induction ms with
    | nil => exact fun _ _ _ _ => rfl
    | cons m ms ih =>
        intro i j0 total h
        obtain ⟨hp, hl⟩ := h 0 (Nat.succ_pos _)
        rw [membersDesc, List.zipIdx_cons, List.map_cons, slotsFrom,
          ih (i + 1) (j0 + 1) total fun j hj => by
            have := h (j + 1) (Nat.succ_lt_succ hj)
            rwa [show i + (j + 1) = i + 1 + j by omega,
              show j0 + (j + 1) + 1 = j0 + 1 + j + 1 by omega] at this]
        congr 1
        rw [Nat.add_zero] at hp hl
        rw [Nat.add_zero] at hl
        simp [packing, Pack.slot, hp, hl]
  have hlen : ∀ (ms : List (Member Ty)) (i : ℕ), (membersDesc true all i ms).length = ms.length := by
    intro ms i
    have := congrArg List.length (membersDesc_names true all i ms)
    simpa using this
  rw [elementSlots, hlen]
  exact key ms i 0 ms.length fun j hj => by rw [Nat.zero_add]; exact h j hj

/-- **The places of packed fields** are read as they were written. -/
lemma groupSlots_desc (packing : Bool) (all : List (Member Ty)) :
    ∀ (k : ℕ) (rest : List (Member Ty)) (i : ℕ), rest.length ≤ k → all.drop i = rest →
      (packing = true → rest ≠ [] → (packOf all i).packed → (packOf all i).offset = 0) →
      membersRegular packing all i rest →
      groupSlots (membersDesc packing all i rest) = slotsFrom packing all i rest := by
  intro k
  induction k with
  | zero =>
      intro rest i hk _ _ _
      obtain rfl := List.length_eq_zero_iff.mp (Nat.le_zero.mp hk)
      rfl
  | succ k ih =>
      intro rest i hk hdrop hstart hreg
      cases rest with
      | nil => rfl
      | cons m rest =>
          have hlen : i < all.length := by
            have := congrArg List.length hdrop
            rw [List.length_drop, List.length_cons] at this
            omega
          have hall : all.length = i + 1 + rest.length := by
            have := congrArg List.length hdrop
            rw [List.length_drop, List.length_cons] at this
            omega
          have hdrop' := drop_succ_of_drop hdrop
          rw [List.length_cons] at hk
          by_cases hp : packing = true ∧ (packOf all i).packed = true
          · obtain ⟨rfl, hp⟩ := hp
            have h0 := hstart rfl (by simp) hp
            have hbits : 0 < (packOf all i).bits := by
              obtain ⟨n, t, p⟩ := m
              have := hreg.1
              rw [if_pos hp] at this
              exact this.2 h0
            obtain ⟨k', htake, hdropW, hk', -, -, hin, hout⟩ :=
              membersDesc_joined all "" rest (i + 1)
            have hregrest : membersRegular true all (i + 1) rest := by
              obtain ⟨n, t, p⟩ := m
              exact hreg.2
            have hrest := ih (rest.drop k') (i + 1 + k')
              (by rw [List.length_drop]; omega) (by rw [← List.drop_drop, hdrop'])
              (fun _ hne => hout (by
                have := List.length_pos_iff.mpr hne
                rw [List.length_drop] at this
                omega)) (membersRegular_drop true all k' (i + 1) rest hk' hregrest)
            have hpacked : ∀ j, j < k' + 1 → (packOf all (i + j)).packed = true := by
              intro j hj
              cases j with
              | zero => exact hp
              | succ j =>
                  rw [show i + (j + 1) = i + 1 + j by omega]
                  exact (hin j (by omega)).1
            have hpos : ∀ j, j < k' + 1 →
                (packOf all (i + j)).offset + (packOf all (i + j)).bits ≠ 0 := by
              intro j hj
              cases j with
              | zero => rw [Nat.add_zero]; omega
              | succ j =>
                  rw [show i + (j + 1) = i + 1 + j by omega]
                  have := (hin j (by omega)).2
                  omega
            have hlast : ∀ j, j < k' + 1 →
                (packOf all (i + j)).last = decide (j + 1 = k' + 1) := by
              intro j hj
              have hnb := neighbours all (show i + j < all.length by omega)
              have hassoc : i + j + 1 = i + 1 + j := by omega
              cases hl : (packOf all (i + j)).last with
              | true =>
                  refine (decide_eq_true ?_).symm
                  by_contra hne
                  obtain ⟨hp', hne'⟩ := hin j (by omega)
                  have := hnb.last (hpacked j hj) hl
                  rw [hassoc] at this
                  exact hne' (this hp')
              | false =>
                  refine (decide_eq_false fun heq => ?_).symm
                  obtain ⟨hlt, hp', ho⟩ := hnb.next (hpacked j hj) hl
                  rw [hassoc] at hp' ho
                  obtain rfl : j = k' := by omega
                  have := hout (by omega) hp'
                  have := hpos j hj
                  omega
            have htakelen : (m :: rest.take k').length = k' + 1 := by
              rw [List.length_cons, List.length_take, min_eq_left hk']
            have helement := elementSlots_desc all (m :: rest.take k') i fun j hj => by
              rw [htakelen] at hj ⊢
              exact ⟨hpacked j hj, hlast j hj⟩
            have hparts : m :: rest = (m :: rest.take k') ++ rest.drop k' := by
              rw [List.cons_append, List.take_append_drop]
            have hslots : slotsFrom true all i (m :: rest)
                = slotsFrom true all i (m :: rest.take k')
                  ++ slotsFrom true all (i + 1 + k') (rest.drop k') := by
              rw [hparts, slotsFrom_append, htakelen, show i + (k' + 1) = i + 1 + k' by omega]
            rw [hslots, ← helement, ← hrest, membersDesc, hp, Bool.and_self, if_pos rfl, groupSlots,
              groups_packed rfl, htake, hdropW, List.flatMap_cons, membersDesc, hp, Bool.and_self,
              if_pos rfl]
            rfl
          · have hnot : (packing && (packOf all i).packed) = false := by
              cases packing <;> simp_all
            have hregrest : membersRegular packing all (i + 1) rest := by
              obtain ⟨n, t, p⟩ := m
              exact hreg.2
            have hrest := ih rest (i + 1) (by omega) hdrop' (fun hpk _ => by
              subst hpk
              refine (neighbours all hlen).start ?_
              simpa using hnot) hregrest
            have hslot : (if packing then (packOf all i).slot else none) = none := by
              cases packing with
              | false => rfl
              | true =>
                  have : (packOf all i).packed = false := by simpa using hnot
                  simp [Pack.slot, this]
            rw [membersDesc, hnot, groupSlots, groups_alone rfl, List.flatMap_cons, slotsFrom, hslot,
              ← hrest]
            rfl

end Input

end XarkCircuit
