import XarkCircuit.Schema.Writes

/-!
Reading a value.

* `Impl.leafWidths` are the widths of a type's leaves, and `Ranged` says that leaves are in range.
* `Decodes read C ws`: the reader reads the leaves of a value as the value, and leaves in range that
  it reads are those of a value. `Decodes.pair` is the rule of a sequence.
* `impl_decodes`: `Input::read` does. A packed field is read off its slot, whatever the element
  (`read_slot`), and `FieldsDecode` carries the element from one field of a struct to the next.
-/

namespace XarkCircuit

namespace Input

/-! ### Ranges -/

mutual

/-- The widths of the leaves that are integers or `bool`s. The reader checks a packed element
itself. -/
def Impl.leafWidths : Impl → List (Option ℕ)
  | .field => [none]
  | .uint w => [some w.bits]
  | .u128 => [some 128]
  | .int w => [some w.bits]
  | .i128 => [some 128]
  | .bool => [some 1]
  | .array t n => (List.replicate n t.leafWidths).flatten
  | .tuple ts => tupleWidths ts
  | .struct name fields enc =>
      fieldsWidths ((Impl.struct name fields enc).plan fields.length) fields
  | .text => [none]
  | .choice _ => [none]
  | .bitfield _ => [none]
  | .timestamp => [some 64]
  | .time t => [some t.bits]

/-- The widths of a tuple's leaves. -/
def tupleWidths : List Impl → List (Option ℕ)
  | [] => []
  | t :: ts => t.leafWidths ++ tupleWidths ts

/-- The widths of the leaves of a struct's fields. -/
def fieldsWidths : List Pack → List (Member Impl) → List (Option ℕ)
  | _, [] => []
  | plan, ⟨_, t, _⟩ :: ms =>
      let p := plan.head?.getD .ALONE
      (if p.packed then if p.offset = 0 then [none] else [] else t.leafWidths)
        ++ fieldsWidths plan.tail ms

end

/-- A leaf is in range. -/
def InWidth (w : Option ℕ) (f : Fr) : Prop := ∀ b, w = some b → f.val < 2 ^ b

/-- The leaves are in range. -/
abbrev Ranged (ws : List (Option ℕ)) (fs : List Fr) : Prop := List.Forall₂ InWidth ws fs

/-! ### Sequences -/

variable {α β γ : Type}

/-- The reader takes the leaves `fs`, and returns `v`. -/
def Gets (read : Reading α) (v : α) (fs : List Fr) : Prop :=
  ∀ (r : Reader) (rest : List Fr), r.slot = none → r.values.drop r.pos = fs ++ rest →
    ∃ g, read r = .ok (v, ⟨r.values, r.pos + fs.length, g, none⟩)

/-- Reading and the code `C` agree: on the leaves of a value, and on leaves in range. -/
structure Decodes (read : Reading α) (C : α → List Fr → Prop) (ws : List (Option ℕ)) : Prop where
  gets : ∀ v fs, C v fs → Gets read v fs
  codes : ∀ (r : Reader) (fs rest : List Fr) (x : α × Reader), r.slot = none →
    r.values.drop r.pos = fs ++ rest → Ranged ws fs → read r = .ok x → ∃ v, C v fs

/-- The values after the ones read. -/
lemma drop_add_length {values fs rest : List Fr} {pos : ℕ} (h : values.drop pos = fs ++ rest) :
    values.drop (pos + fs.length) = rest := by
  rw [← List.drop_drop, h, List.drop_left]

/-- One value after the other. -/
lemma Decodes.pair {read₁ : Reading α} {read₂ : Reading β} {C₁ : α → List Fr → Prop}
    {C₂ : β → List Fr → Prop} {ws₁ ws₂ : List (Option ℕ)} (h₁ : Decodes read₁ C₁ ws₁)
    (h₂ : Decodes read₂ C₂ ws₂) {f : α → β → γ} {C : γ → List Fr → Prop}
    (hC : ∀ v fs, C v fs ↔ ∃ a b x y, v = f a b ∧ fs = x ++ y ∧ C₁ a x ∧ C₂ b y) :
    Decodes (fun r => do
      let (a, r) ← read₁ r
      let (b, r) ← read₂ r
      .ok (f a b, r)) C (ws₁ ++ ws₂) := by
  constructor
  · intro v fs hv r rest hslot hdrop
    obtain ⟨a, b, x, y, rfl, rfl, ha, hb⟩ := (hC v fs).mp hv
    rw [List.append_assoc] at hdrop
    obtain ⟨g₁, hread₁⟩ := h₁.gets a x ha r (y ++ rest) hslot hdrop
    obtain ⟨g₂, hread₂⟩ := h₂.gets b y hb ⟨r.values, r.pos + x.length, g₁, none⟩ rest rfl
      (drop_add_length hdrop)
    refine ⟨g₂, ?_⟩
    simp only [hread₁, hread₂, bind, Except.bind, List.length_append, Nat.add_assoc]
  · intro r fs rest x hslot hdrop hranged hread
    obtain ⟨fs₁, fs₂, hranged₁, hranged₂, rfl⟩ : ∃ fs₁ fs₂, Ranged ws₁ fs₁ ∧ Ranged ws₂ fs₂ ∧
        fs = fs₁ ++ fs₂ := by
      refine ⟨fs.take ws₁.length, fs.drop ws₁.length, ?_, ?_, (List.take_append_drop _ _).symm⟩
      · have htake := List.forall₂_take ws₁.length hranged
        rwa [List.take_left] at htake
      · have hdrop' := List.forall₂_drop ws₁.length hranged
        rwa [List.drop_left] at hdrop'
    rw [List.append_assoc] at hdrop
    simp only [bind, Except.bind] at hread
    cases hread₁ : read₁ r with
    | error e =>
        rw [hread₁] at hread
        cases hread
    | ok x₁ =>
        obtain ⟨a, ha⟩ := h₁.codes r fs₁ (fs₂ ++ rest) x₁ hslot hdrop hranged₁ hread₁
        obtain ⟨g₁, hgets₁⟩ := h₁.gets a fs₁ ha r (fs₂ ++ rest) hslot hdrop
        rw [hgets₁] at hread
        dsimp only at hread
        cases hread₂ : read₂ ⟨r.values, r.pos + fs₁.length, g₁, none⟩ with
        | error e =>
            rw [hread₂] at hread
            cases hread
        | ok x₂ =>
            obtain ⟨b, hb⟩ := h₂.codes _ fs₂ rest x₂ rfl (drop_add_length hdrop) hranged₂ hread₂
            exact ⟨f a b, (hC _ _).mpr ⟨a, b, fs₁, fs₂, rfl, rfl, ha, hb⟩⟩

/-- Nothing read. -/
lemma decodes_nil (a : α) (C : α → List Fr → Prop) (hC : ∀ v fs, C v fs ↔ v = a ∧ fs = []) :
    Decodes (fun r => .ok (a, r)) C [] := by
  constructor
  · intro v fs hv r rest hslot _
    obtain ⟨rfl, rfl⟩ := (hC v fs).mp hv
    obtain ⟨values, pos, group, slot⟩ := r
    obtain rfl : slot = none := hslot
    exact ⟨group, rfl⟩
  · intro r fs rest x _ _ hranged _
    cases hranged
    exact ⟨a, (hC _ _).mpr ⟨rfl, rfl⟩⟩

/-! ### Leaves -/

lemma next_of_drop {r : Reader} {f : Fr} {rest : List Fr} (h : r.values.drop r.pos = f :: rest) :
    r.next = .ok (f, { r with pos := r.pos + 1 }) := by
  have hget : r.values[r.pos]? = some f := by
    rw [← Nat.add_zero r.pos, ← List.getElem?_drop, h]
    rfl
  rw [Reader.next, hget]

/-- A value of one leaf. -/
lemma decodes_leaf {read : Reading α} {leaf : α → Fr} {w : Option ℕ} (ofLeaf : Fr → α)
    (hread : ∀ r : Reader, r.slot = none → read r = (do
      let (f, r) ← r.next
      .ok (ofLeaf f, r)))
    (hof : ∀ v, ofLeaf (leaf v) = v) (hleaf : ∀ f, InWidth w f → ∃ v, leaf v = f) :
    Decodes read (fun v fs => fs = [leaf v]) [w] := by
  constructor
  · rintro v fs rfl r rest hslot hdrop
    refine ⟨r.group, ?_⟩
    rw [hread r hslot, next_of_drop hdrop]
    simp only [bind, Except.bind, hof, hslot, List.length_singleton]
  · intro r fs rest x _ _ hranged _
    obtain ⟨f, fs', hf, hnil, rfl⟩ := List.forall₂_cons_left_iff.mp hranged
    obtain rfl := List.forall₂_nil_left_iff.mp hnil
    obtain ⟨v, rfl⟩ := hleaf f hf
    exact ⟨v, rfl⟩

lemma limb0_natCast {n : ℕ} (h : n < 2 ^ 64) : limb0 ((n : ℕ) : Fr) = n := by
  rw [limb0, val_natCast h (by norm_num), Nat.mod_eq_of_lt h]

lemma ofNat_limb0 {w : ℕ} (hw : w ≤ 64) (x : BitVec w) :
    BitVec.ofNat w (limb0 ((x.toNat : ℕ) : Fr)) = x := by
  have hle : 2 ^ w ≤ 2 ^ 64 := Nat.pow_le_pow_right (by norm_num) hw
  have hlt := x.isLt
  rw [limb0_natCast (by omega), BitVec.ofNat_toNat, BitVec.setWidth_eq]

/-- A leaf in range is an integer's. -/
lemma exists_bitVec {b w : ℕ} (hbw : b ≤ w) {f : Fr} (h : InWidth (some b) f) :
    ∃ x : BitVec w, ((x.toNat : ℕ) : Fr) = f := by
  have hle : 2 ^ b ≤ 2 ^ w := Nat.pow_le_pow_right (by norm_num) hbw
  have hlt := h b rfl
  refine ⟨BitVec.ofNat w f.val, ?_⟩
  rw [BitVec.toNat_ofNat, Nat.mod_eq_of_lt (by omega), ZMod.natCast_zmod_val]

lemma Width.bits_le (w : Width) : w.bits ≤ 64 := by
  cases w <;> decide

lemma TimeRange.bits_le (t : TimeRange) : t.bits ≤ 64 := by
  have hsteps : t.steps < 2 ^ 64 := Nat.mod_lt _ (by norm_num)
  rw [TimeRange.bits]
  split_ifs with h
  · norm_num
  · have hlog : (t.steps - 1).log2 < 64 := (Nat.log2_lt h).mpr (by omega)
    exact hlog

/-- A field element, as it is. -/
lemma decodes_field : Decodes Reader.field (fun v fs => fs = [v]) [none] := by
  refine decodes_leaf id (fun r hslot => ?_) (fun _ => rfl) fun f _ => ⟨f, rfl⟩
  rw [Reader.field, hslot]
  cases r.next <;> rfl

/-- An unsigned integer of at most 64 bits, or a signed one, or a time. -/
lemma decodes_uint {bits w : ℕ} (hbits : bits ≤ w) (hw : w ≤ 64) :
    Decodes (fun r => do
      let (x, r) ← r.uint bits
      .ok (BitVec.ofNat w x, r)) (fun (v : BitVec w) fs => fs = [((v.toNat : ℕ) : Fr)])
      [some bits] := by
  refine decodes_leaf (fun f => BitVec.ofNat w (limb0 f)) (fun r hslot => ?_)
    (ofNat_limb0 hw) fun f hf => exists_bitVec hbits hf
  rw [Reader.uint, hslot]
  cases r.next <;> rfl

lemma two_limbs {n : ℕ} (h : n < 2 ^ 128) : n / 2 ^ 64 % 2 ^ 64 * 2 ^ 64 + n % 2 ^ 64 = n := by
  have hdiv : n / 2 ^ 64 < 2 ^ 64 := Nat.div_lt_of_lt_mul (by omega)
  rw [Nat.mod_eq_of_lt hdiv]
  omega

lemma decodes_u128 :
    Decodes (fun r => do
      let (x, r) ← r.u128
      .ok (BitVec.ofNat 128 x, r)) (fun (v : BitVec 128) fs => fs = [((v.toNat : ℕ) : Fr)])
      [some 128] := by
  refine decodes_leaf (fun f => BitVec.ofNat 128 (f.val / 2 ^ 64 % 2 ^ 64 * 2 ^ 64 + limb0 f))
    (fun r hslot => ?_) (fun x => ?_) fun f hf => exists_bitVec le_rfl hf
  · rw [Reader.u128, hslot]
    cases r.next <;> rfl
  · rw [limb0, val_natCast x.isLt (by norm_num), two_limbs x.isLt, BitVec.ofNat_toNat,
      BitVec.setWidth_eq]

lemma exists_bool {f : Fr} (h : InWidth (some 1) f) : ∃ v : Bool, ((v.toNat : ℕ) : Fr) = f := by
  have hlt := h 1 rfl
  have hval := ZMod.natCast_zmod_val f
  rcases Nat.lt_or_ge 0 f.val with hpos | hzero
  · exact ⟨true, by rw [← hval, show f.val = 1 by omega]; rfl⟩
  · exact ⟨false, by rw [← hval, show f.val = 0 by omega]; rfl⟩

lemma decodes_bool :
    Decodes Reader.bool (fun v fs => fs = [((Bool.toNat v : ℕ) : Fr)]) [some 1] := by
  refine decodes_leaf (fun f => decide (f ≠ 0)) (fun r hslot => ?_) (fun b => ?_)
    fun f hf => exists_bool hf
  · rw [Reader.bool, Reader.field, hslot]
  · cases b <;> simp

/-! ### Slots -/

lemma slot_uint {bits b w : ℕ} (hb : b ≤ bits) (hw : w ≤ 64) {x : BitVec w} {values : List Fr}
    {pos g o : ℕ} (h : sliceBits g o b = ((x.toNat : ℕ) : Fr)) :
    (do
      let (x, r) ← Reader.uint bits ⟨values, pos, g, some (o, b)⟩
      .ok (BitVec.ofNat w x, r)) = (.ok (x, ⟨values, pos, g, none⟩) : Except Panic _) := by
  simp only [Reader.uint, if_pos hb, h, bind, Except.bind, ofNat_limb0 hw]

/-- The slice as two limbs, which may straddle those of the element. -/
lemma slot_u128 {x : BitVec 128} {values : List Fr} {pos g o : ℕ}
    (h : sliceBits g o 128 = ((x.toNat : ℕ) : Fr)) :
    (do
      let (x, r) ← Reader.u128 ⟨values, pos, g, some (o, 128)⟩
      .ok (BitVec.ofNat 128 x, r)) = (.ok (x, ⟨values, pos, g, none⟩) : Except Panic _) := by
  have hx : g / 2 ^ o % 2 ^ 128 = x.toNat := by
    rw [← val_sliceBits g o (by norm_num), h, val_natCast x.isLt (by norm_num)]
  have hlo : limb0 (sliceBits g o 64) = x.toNat % 2 ^ 64 := by
    rw [limb0, val_sliceBits g o (by norm_num), ← hx]
    omega
  have hhi : limb0 (sliceBits g (o + 64) 64) = x.toNat / 2 ^ 64 := by
    rw [limb0, val_sliceBits g (o + 64) (by norm_num), ← hx, Nat.pow_add, ← Nat.div_div_eq_div_mul]
    omega
  have hsum : x.toNat / 2 ^ 64 * 2 ^ 64 + x.toNat % 2 ^ 64 = x.toNat := by omega
  simp only [Reader.u128, bind, Except.bind, Nat.reduceSub, Nat.reduceLeDiff, min_eq_right, hlo, hhi,
    hsum, BitVec.ofNat_toNat, BitVec.setWidth_eq]

lemma slot_bool {v : Bool} {values : List Fr} {pos g o b : ℕ}
    (h : sliceBits g o b = ((v.toNat : ℕ) : Fr)) :
    Reader.bool ⟨values, pos, g, some (o, b)⟩ = .ok (v, ⟨values, pos, g, none⟩) := by
  simp only [Reader.bool, Reader.field, h, bind, Except.bind]
  cases v <;> simp

/-- A packed field is read off its bits of the element. -/
lemma read_slot {t : Impl} {b : ℕ} (hb : t.type.bits = some b) {v : t.Val} {values : List Fr}
    {pos g o : ℕ} (h : Coded t v [sliceBits g o b]) :
    t.read ⟨values, pos, g, some (o, b)⟩ = .ok (v, ⟨values, pos, g, none⟩) := by
  cases t with
  | uint w =>
      obtain rfl := Option.some.inj hb
      exact slot_uint le_rfl w.bits_le (List.singleton_inj.mp h)
  | int w =>
      obtain rfl := Option.some.inj hb
      exact slot_uint le_rfl w.bits_le (List.singleton_inj.mp h)
  | u128 =>
      obtain rfl := Option.some.inj hb
      exact slot_u128 (List.singleton_inj.mp h)
  | i128 =>
      obtain rfl := Option.some.inj hb
      exact slot_u128 (List.singleton_inj.mp h)
  | bool => exact slot_bool (List.singleton_inj.mp h)
  | timestamp =>
      obtain rfl := Option.some.inj hb
      exact slot_uint le_rfl le_rfl (List.singleton_inj.mp h)
  | time t =>
      obtain rfl := Option.some.inj hb
      exact slot_uint le_rfl le_rfl (List.singleton_inj.mp h)
  | choice v' =>
      have hv := List.singleton_inj.mp h
      rw [← hv]
      rfl
  | bitfield v' =>
      have hv := List.singleton_inj.mp h
      rw [← hv]
      rfl
  | field => cases hb
  | text => cases hb
  | array t n => cases hb
  | tuple ts => cases hb
  | struct name fields enc => cases hb

lemma inWidth_sliceBits {b : ℕ} (h253 : b ≤ 253) (g o : ℕ) : InWidth (some b) (sliceBits g o b) := by
  rintro _ ⟨⟩
  rw [val_sliceBits g o h253]
  exact Nat.mod_lt _ (Nat.two_pow_pos b)

/-- The bits of a packed field are those of a value. -/
lemma exists_slot {t : Impl} {b : ℕ} (hb : t.type.bits = some b) (h253 : b ≤ 253) (g o : ℕ) :
    ∃ v : t.Val, Coded t v [sliceBits g o b] := by
  have hrange := inWidth_sliceBits h253 g o
  have hvec : ∀ {w : ℕ}, b ≤ w → ∃ x : BitVec w, [sliceBits g o b] = [((x.toNat : ℕ) : Fr)] := by
    intro w hbw
    obtain ⟨x, hx⟩ := exists_bitVec hbw hrange
    exact ⟨x, by rw [hx]⟩
  cases t with
  | uint w =>
      obtain rfl := Option.some.inj hb
      exact hvec le_rfl
  | int w =>
      obtain rfl := Option.some.inj hb
      exact hvec le_rfl
  | u128 =>
      obtain rfl := Option.some.inj hb
      exact hvec le_rfl
  | i128 =>
      obtain rfl := Option.some.inj hb
      exact hvec le_rfl
  | bool =>
      obtain rfl := Option.some.inj hb
      obtain ⟨v, hv⟩ := exists_bool hrange
      exact ⟨v, List.singleton_inj.mpr hv.symm⟩
  | timestamp =>
      obtain rfl := Option.some.inj hb
      exact hvec le_rfl
  | time t =>
      obtain rfl := Option.some.inj hb
      exact hvec t.bits_le
  | choice v => exact ⟨_, rfl⟩
  | bitfield v => exact ⟨_, rfl⟩
  | field => cases hb
  | text => cases hb
  | array t n => cases hb
  | tuple ts => cases hb
  | struct name fields enc => cases hb

/-! ### Structs -/

/-- The reader of a struct's fields and their code agree, where `mid` is the place of the next field
in the element that the reader holds. -/
structure FieldsDecode (mid : Option (ℕ × ℕ)) (plan : List Pack) (ms : List (Member Impl)) :
    Prop where
  gets : ∀ (vs : FieldsVal ms) (g : ℕ) (fs rest : List Fr) (r : Reader),
    FieldsCoded plan ms vs g fs → r.slot = none → (mid ≠ none → r.group = g) →
    r.values.drop r.pos = fs ++ rest →
    ∃ g', fieldsRead plan ms r = .ok (vs, ⟨r.values, r.pos + fs.length, g', none⟩)
  codes : ∀ (g : ℕ) (fs rest : List Fr) (r : Reader) (x : FieldsVal ms × Reader), r.slot = none →
    (mid ≠ none → r.group = g) → r.values.drop r.pos = fs ++ rest →
    Ranged (fieldsWidths plan ms) fs → fieldsRead plan ms r = .ok x →
    ∃ vs, FieldsCoded plan ms vs g fs

/-- A packed field is read off the element, and the reader goes on with the element. -/
lemma member_read {mid : Option (ℕ × ℕ)} {p : Pack} (hp : Place mid p) {t : Impl}
    (hb : t.type.bits = some p.bits) {v : t.Val} {g g' : ℕ} {fs fs' rest : List Fr} {r : Reader}
    (hload : Loads p g g' fs fs') (hv : Coded t v [sliceBits g' p.offset p.bits])
    (hslot : r.slot = none) (hgroup : mid ≠ none → r.group = g)
    (hdrop : r.values.drop r.pos = fs ++ rest) :
    ∃ pos, Reader.member p t.read r = .ok (v, ⟨r.values, pos, g', none⟩) ∧
      pos + fs'.length = r.pos + fs.length ∧ r.values.drop pos = fs' ++ rest := by
  obtain ⟨values, pos, group, slot⟩ := r
  obtain rfl : slot = none := hslot
  rw [Loads] at hload
  simp only [Reader.member, hp.packed, Bool.not_true, Bool.false_eq_true, if_false]
  split_ifs at hload ⊢ with h0
  · obtain ⟨f, hlt, rfl, rfl⟩ := hload
    have hnext := next_of_drop (r := ⟨values, pos, group, none⟩) hdrop
    refine ⟨pos + 1, ?_, by rw [List.length_cons]; omega, ?_⟩
    · simp only [Reader.field, hnext, bind, Except.bind, if_pos hlt, read_slot hb hv, if_true]
    · rw [← List.drop_drop, hdrop, List.cons_append, List.drop_one, List.tail_cons]
  · obtain ⟨rfl, rfl⟩ := hload
    have hmid : mid ≠ none := by
      rintro rfl
      exact h0 hp.offset
    obtain rfl := hgroup hmid
    refine ⟨pos, ?_, rfl, hdrop⟩
    simp only [bind, Except.bind, read_slot hb hv, if_true]

/-- A packed field that is read loads its element. -/
lemma loads_of_read {mid : Option (ℕ × ℕ)} {p : Pack} (hp : Place mid p) {read : Reading α} {g : ℕ}
    {ws : List (Option ℕ)} {fs rest : List Fr} {r : Reader} {x : α × Reader}
    (hslot : r.slot = none) (hdrop : r.values.drop r.pos = fs ++ rest)
    (hranged : Ranged ((if p.offset = 0 then [none] else []) ++ ws) fs)
    (h : Reader.member p read r = .ok x) : ∃ g' fs', Loads p g g' fs fs' ∧ Ranged ws fs' := by
  obtain ⟨values, pos, group, slot⟩ := r
  obtain rfl : slot = none := hslot
  simp only [Loads]
  simp only [Reader.member, hp.packed, Bool.not_true, Bool.false_eq_true, if_false] at h
  split_ifs at hranged h ⊢ with h0
  · obtain ⟨f, fs', -, hranged', rfl⟩ := List.forall₂_cons_left_iff.mp hranged
    have hnext := next_of_drop (r := ⟨values, pos, group, none⟩) hdrop
    refine ⟨f.val, fs', ⟨f, ?_, rfl, rfl⟩, hranged'⟩
    by_contra hlt
    simp only [Reader.field, hnext, bind, Except.bind, if_neg hlt] at h
    cases h
  · exact ⟨g, fs, ⟨rfl, rfl⟩, hranged⟩

/-- Where no element is unfinished, the element the reader holds does not matter. -/
lemma fieldsDecode_none {plan : List Pack} {ms : List (Member Impl)} :
    FieldsDecode none plan ms ↔ ∀ g, Decodes (fieldsRead plan ms)
      (fun vs fs => FieldsCoded plan ms vs g fs) (fieldsWidths plan ms) := by
  constructor
  · intro h g
    constructor
    · exact fun vs fs hvs r rest hslot hdrop =>
        h.gets vs g fs rest r hvs hslot (fun hne => absurd rfl hne) hdrop
    · exact fun r fs rest x hslot hdrop hranged hread =>
        h.codes g fs rest r x hslot (fun hne => absurd rfl hne) hdrop hranged hread
  · intro h
    constructor
    · exact fun vs g fs rest r hvs hslot _ hdrop => (h g).gets vs fs hvs r rest hslot hdrop
    · exact fun g fs rest r x hslot _ hdrop hranged hread =>
        (h g).codes r fs rest x hslot hdrop hranged hread

/-- How a field with its own leaves is read. -/
lemma fieldsRead_alone {p : Pack} (plan : List Pack) (m : Member Impl) (ms : List (Member Impl))
    (hp : p.packed = false) : fieldsRead (p :: plan) (m :: ms) = (fun r => do
      let (v, r) ← m.ty.read r
      let (vs, r) ← fieldsRead plan ms r
      .ok ((v, vs), r)) := by
  obtain ⟨name, t, pack⟩ := m
  have hmember : Reader.member p t.read = t.read := by
    funext r
    simp [Reader.member, hp]
  funext r
  simp only [fieldsRead, List.head?_cons, Option.getD_some, List.tail_cons, hmember]

/-- A field with its own leaves. -/
lemma FieldsDecode.alone {p : Pack} {plan : List Pack} {m : Member Impl} {ms : List (Member Impl)}
    (hp : p.packed = false) (hm : Decodes m.ty.read (Coded m.ty) m.ty.leafWidths)
    (hms : FieldsDecode none plan ms) : FieldsDecode none (p :: plan) (m :: ms) := by
  obtain ⟨name, t, pack⟩ := m
  refine fieldsDecode_none.mpr fun g => ?_
  have hwidths : fieldsWidths (p :: plan) (⟨name, t, pack⟩ :: ms)
      = t.leafWidths ++ fieldsWidths plan ms := by
    simp [fieldsWidths, hp]
  rw [fieldsRead_alone plan _ ms hp, hwidths]
  refine hm.pair (fieldsDecode_none.mp hms g) (f := Prod.mk) fun vs fs => ?_
  obtain ⟨v, vs⟩ := vs
  simp only [FieldsCoded, List.head?_cons, Option.getD_some, hp, Bool.false_eq_true, if_false,
    List.tail_cons]
  constructor
  · rintro ⟨a, b, rfl, ha, hb⟩
    exact ⟨v, vs, a, b, rfl, rfl, ha, hb⟩
  · rintro ⟨v', vs', a, b, heq, rfl, ha, hb⟩
    obtain ⟨rfl, rfl⟩ := Prod.mk.inj heq
    exact ⟨a, b, rfl, ha, hb⟩

/-- A packed field. -/
lemma FieldsDecode.packed {mid : Option (ℕ × ℕ)} {p : Pack} {plan : List Pack} {m : Member Impl}
    {ms : List (Member Impl)} (hp : Place mid p) (hb : m.ty.type.bits = some p.bits)
    (hms : FieldsDecode p.next plan ms) : FieldsDecode mid (p :: plan) (m :: ms) := by
  obtain ⟨name, t, pack⟩ := m
  have hbits : p.bits ≤ 253 := by
    have hle := hp.le
    have htotal := hp.total_le
    omega
  constructor
  · rintro ⟨v, vs⟩ g fs rest r h hslot hgroup hdrop
    obtain ⟨g', fs', hload, hv, hvs⟩ := (fieldsCoded_packed hp).mp h
    obtain ⟨pos, hmember, hpos, hdrop'⟩ := member_read hp hb hload hv hslot hgroup hdrop
    obtain ⟨g'', hrest⟩ := hms.gets vs g' fs' rest ⟨r.values, pos, g', none⟩ hvs rfl
      (fun _ => rfl) hdrop'
    refine ⟨g'', ?_⟩
    simp only [fieldsRead, List.head?_cons, Option.getD_some, List.tail_cons, hmember, hrest, hpos,
      bind, Except.bind]
  · intro g fs rest r x hslot hgroup hdrop hranged hread
    simp only [fieldsWidths, List.head?_cons, Option.getD_some, List.tail_cons, hp.packed, if_true]
      at hranged
    simp only [fieldsRead, List.head?_cons, Option.getD_some, List.tail_cons, bind, Except.bind]
      at hread
    cases hmember : Reader.member p t.read r with
    | error e =>
        rw [hmember] at hread
        cases hread
    | ok y =>
        obtain ⟨g', fs', hload, hranged'⟩ := loads_of_read (g := g) hp hslot hdrop hranged hmember
        obtain ⟨v, hv⟩ := exists_slot hb hbits g' p.offset
        obtain ⟨pos, hmember', hpos, hdrop'⟩ := member_read hp hb hload hv hslot hgroup hdrop
        rw [hmember'] at hread
        dsimp only at hread
        cases hrest : fieldsRead plan ms ⟨r.values, pos, g', none⟩ with
        | error e =>
            rw [hrest] at hread
            cases hread
        | ok z =>
            obtain ⟨vs, hvs⟩ := hms.codes g' fs' rest _ z rfl (fun _ => rfl) hdrop' hranged' hrest
            exact ⟨(v, vs), (fieldsCoded_packed hp).mpr ⟨g', fs', hload, hv, hvs⟩⟩

lemma fields_decode {mid : Option (ℕ × ℕ)} {plan : List Pack} {ms : List (Member Impl)}
    (hplan : Planned mid plan ms)
    (ih : ∀ m ∈ ms, Decodes m.ty.read (Coded m.ty) m.ty.leafWidths) : FieldsDecode mid plan ms := by
  induction hplan with
  | nil plan =>
      exact fieldsDecode_none.mpr fun g => decodes_nil () _ fun vs fs =>
        ⟨fun h => ⟨rfl, h⟩, fun h => h.2⟩
  | alone hp _ ihp =>
      exact .alone hp (ih _ List.mem_cons_self) (ihp fun m hm => ih m (List.mem_cons_of_mem _ hm))
  | packed hp hb _ ihp => exact .packed hp hb (ihp fun m hm => ih m (List.mem_cons_of_mem _ hm))

/-! ### Values -/

lemma array_decode {t : Impl} (h : Decodes t.read (Coded t) t.leafWidths) (n : ℕ) :
    Decodes (readArray t.read n) (fun v fs => ∃ parts : Fin n → List Fr,
      (∀ i, Coded t (v i) (parts i)) ∧ fs = (List.ofFn parts).flatten)
      (List.replicate n t.leafWidths).flatten := by
  induction n with
  | zero =>
      refine decodes_nil Fin.elim0 _ fun v fs => ⟨?_, ?_⟩
      · rintro ⟨parts, -, rfl⟩
        exact ⟨Subsingleton.elim _ _, by simp⟩
      · rintro ⟨rfl, rfl⟩
        exact ⟨Fin.elim0, fun i => i.elim0, by simp⟩
  | succ n ih =>
      rw [List.replicate_succ', List.flatten_append, List.flatten_singleton]
      refine ih.pair h (f := fun vs v => @Fin.snoc _ (fun _ => t.Val) vs v) fun v fs => ⟨?_, ?_⟩
      · rintro ⟨parts, hparts, rfl⟩
        refine ⟨fun i => v i.castSucc, v (Fin.last n), _, parts (Fin.last n), ?_, ?_,
          ⟨fun i => parts i.castSucc, fun i => hparts i.castSucc, rfl⟩, hparts (Fin.last n)⟩
        · exact (Fin.snoc_init_self v).symm
        · rw [List.ofFn_succ', List.concat_eq_append, List.flatten_append, List.flatten_singleton]
      · rintro ⟨vs, v', _, part, rfl, rfl, ⟨parts, hparts, rfl⟩, hpart⟩
        refine ⟨Fin.snoc parts part, fun i => ?_, ?_⟩
        · refine Fin.lastCases ?_ (fun i => ?_) i
          · simpa using hpart
          · simpa using hparts i
        · rw [List.ofFn_succ', List.concat_eq_append, List.flatten_append, List.flatten_singleton]
          simp

lemma tuple_decode {ts : List Impl} (ih : ∀ t ∈ ts, Decodes t.read (Coded t) t.leafWidths) :
    Decodes (tupleRead ts) (TupleCoded ts) (tupleWidths ts) := by
  induction ts with
  | nil => exact decodes_nil () _ fun vs fs => ⟨fun h => ⟨rfl, h⟩, fun h => h.2⟩
  | cons t ts iht =>
      refine (ih t List.mem_cons_self).pair (iht fun t ht => ih t (List.mem_cons_of_mem _ ht))
        (f := Prod.mk) fun vs fs => ?_
      obtain ⟨v, vs⟩ := vs
      constructor
      · rintro ⟨a, b, rfl, ha, hb⟩
        exact ⟨v, vs, a, b, rfl, rfl, ha, hb⟩
      · rintro ⟨v', vs', a, b, heq, rfl, ha, hb⟩
        obtain ⟨rfl, rfl⟩ := Prod.mk.inj heq
        exact ⟨a, b, rfl, ha, hb⟩

/-- Reading and the code of a value agree. -/
theorem impl_decodes (t : Impl) : Decodes t.read (Coded t) t.leafWidths := by
  induction t using Impl.ind with
  | field => exact decodes_field
  | uint w => exact decodes_uint le_rfl w.bits_le
  | u128 => exact decodes_u128
  | int w => exact decodes_uint le_rfl w.bits_le
  | i128 => exact decodes_u128
  | bool => exact decodes_bool
  | array t n ih => exact array_decode ih n
  | tuple ts ih => exact tuple_decode ih
  | struct name ms enc ih =>
      exact fieldsDecode_none.mp (fields_decode (planned_struct name ms enc) ih) 0
  | text => exact decodes_field
  | choice v => exact decodes_field
  | bitfield v => exact decodes_field
  | timestamp => exact decodes_uint le_rfl le_rfl
  | time t => exact decodes_uint t.bits_le le_rfl

end Input

end XarkCircuit
