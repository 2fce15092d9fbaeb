import XarkCircuit.Schema.Impls
import XarkCircuit.Schema.Packing

/-!
Which field elements stand for a value.

* `Coded t v fs`: the leaves `fs` are those of the value `v`. A packed field is coded as its bits of
  the element it shares.
* `Planned mid plan ms`: what the fields know of the plan that `pack_of` makes: `mid` is where the
  next field goes in an element that is not finished (`planned_struct`).
* `struct_plan`: the plan of a struct is that of `pack_of`, field by field.
-/

namespace XarkCircuit

namespace Input

/-! ### Scalars -/

lemma two_pow_lt_rModulus : 2 ^ 253 < Verifier.rModulus := by
  norm_num [Verifier.rModulus]

instance : NeZero Verifier.rModulus := ⟨by norm_num [Verifier.rModulus]⟩

lemma val_natCast {n b : ℕ} (hn : n < 2 ^ b) (hb : b ≤ 253) : ((n : ℕ) : Fr).val = n := by
  have hle : 2 ^ b ≤ 2 ^ 253 := Nat.pow_le_pow_right (by norm_num) hb
  exact ZMod.val_natCast_of_lt (by have := two_pow_lt_rModulus; omega)

lemma val_sliceBits (group offset : ℕ) {bits : ℕ} (hb : bits ≤ 253) :
    (sliceBits group offset bits).val = group / 2 ^ offset % 2 ^ bits :=
  val_natCast (Nat.mod_lt _ (Nat.two_pow_pos bits)) hb

/-! ### Codes -/

mutual

/-- The leaves `fs` are those of the value. -/
def Coded : (t : Impl) → t.Val → List Fr → Prop
  | .field, f, fs => fs = [f]
  | .uint _, x, fs => fs = [((BitVec.toNat x : ℕ) : Fr)]
  | .u128, x, fs => fs = [((BitVec.toNat x : ℕ) : Fr)]
  | .int _, x, fs => fs = [((BitVec.toNat x : ℕ) : Fr)]
  | .i128, x, fs => fs = [((BitVec.toNat x : ℕ) : Fr)]
  | .bool, b, fs => fs = [((Bool.toNat b : ℕ) : Fr)]
  | .array t n, v, fs => ∃ parts : Fin n → List Fr, (∀ i, Coded t (v i) (parts i)) ∧
      fs = (List.ofFn parts).flatten
  | .tuple ts, vs, fs => TupleCoded ts vs fs
  | .struct name fields enc, vs, fs =>
      FieldsCoded ((Impl.struct name fields enc).plan fields.length) fields vs 0 fs
  | .text, f, fs => fs = [f]
  | .choice _, f, fs => fs = [f]
  | .bitfield _, f, fs => fs = [f]
  | .timestamp, x, fs => fs = [((BitVec.toNat x : ℕ) : Fr)]
  | .time _, x, fs => fs = [((BitVec.toNat x : ℕ) : Fr)]

/-- The leaves of a tuple's values. -/
def TupleCoded : (ts : List Impl) → TupleVal ts → List Fr → Prop
  | [], _, fs => fs = []
  | t :: ts, (v, vs), fs => ∃ a b, fs = a ++ b ∧ Coded t v a ∧ TupleCoded ts vs b

/-- The leaves of a struct's fields, where the element being read is the number `g`. -/
def FieldsCoded : (plan : List Pack) → (ms : List (Member Impl)) → FieldsVal ms → ℕ → List Fr → Prop
  | _, [], _, _, fs => fs = []
  | plan, ⟨_, t, _⟩ :: ms, (v, vs), g, fs =>
      let p := plan.head?.getD .ALONE
      if p.packed then
        ∃ g' fs', (if p.offset = 0 then
            ∃ f : Fr, f.val < 2 ^ p.total ∧ g' = f.val ∧ fs = f :: fs'
          else g' = g ∧ fs' = fs) ∧
          Coded t v [sliceBits g' p.offset p.bits] ∧ FieldsCoded plan.tail ms vs g' fs'
      else ∃ a b, fs = a ++ b ∧ Coded t v a ∧ FieldsCoded plan.tail ms vs g b

end

/-! ### Plans -/

/-- The place of a packed field, where `mid` is the place of the next one in an unfinished element
and that element's width. -/
structure Place (mid : Option (ℕ × ℕ)) (p : Pack) : Prop where
  packed : p.packed = true
  offset : p.offset = (mid.map Prod.fst).getD 0
  mid_pos : ∀ o total, mid = some (o, total) → 0 < o ∧ total = p.total
  bits_pos : 0 < p.bits
  le : p.offset + p.bits ≤ p.total
  total_le : p.total ≤ 253
  last : p.last = decide (p.offset + p.bits = p.total)

/-- Where the next field goes, after a packed one. -/
def Pack.next (p : Pack) : Option (ℕ × ℕ) :=
  if p.last then none else some (p.offset + p.bits, p.total)

/-- The fields are alone, or packed one after the other into elements that are finished. -/
inductive Planned : Option (ℕ × ℕ) → List Pack → List (Member Impl) → Prop
  | nil (plan : List Pack) : Planned none plan []
  | alone {p : Pack} {plan : List Pack} {m : Member Impl} {ms : List (Member Impl)} :
      p.packed = false → Planned none plan ms → Planned none (p :: plan) (m :: ms)
  | packed {mid : Option (ℕ × ℕ)} {p : Pack} {plan : List Pack} {m : Member Impl}
      {ms : List (Member Impl)} : Place mid p → m.ty.type.bits = some p.bits →
      Planned p.next plan ms → Planned mid (p :: plan) (m :: ms)

lemma bits_pos {t : Impl} {w : ℕ} (h : t.type.bits = some w) : 0 < w := by
  cases t with
  | uint w' => obtain rfl := Option.some.inj h; cases w' <;> decide
  | int w' => obtain rfl := Option.some.inj h; cases w' <;> decide
  | u128 => obtain rfl := Option.some.inj h; decide
  | i128 => obtain rfl := Option.some.inj h; decide
  | bool => obtain rfl := Option.some.inj h; decide
  | timestamp => obtain rfl := Option.some.inj h; decide
  | time t =>
      obtain rfl := Option.some.inj h
      rw [TimeRange.bits]
      split_ifs <;> omega
  | choice v =>
      obtain rfl := Option.some.inj h
      split_ifs <;> omega
  | bitfield v =>
      simp only [Impl.type, Ty.bits] at h
      split_ifs at h with hempty
      obtain rfl := Option.some.inj h
      rw [List.isEmpty_iff] at hempty
      exact List.length_pos_iff.mpr hempty
  | field => cases h
  | text => cases h
  | array t n => cases h
  | tuple ts => cases h
  | struct name fields enc => cases h

@[simp] lemma length_memberTypes (packing : Bool) (ms : List (Member Impl)) :
    (memberTypes packing ms).length = ms.length := by
  induction ms with
  | nil => rfl
  | cons m ms ih => obtain ⟨name, t, pack⟩ := m; simp [memberTypes, ih]

lemma memberTypes_getElem? (packing : Bool) (ms : List (Member Impl)) (k : ℕ) :
    (memberTypes packing ms)[k]? = ms[k]?.map fun m => ⟨m.name, m.ty.type, packing && m.pack⟩ := by
  induction ms generalizing k with
  | nil => rfl
  | cons m ms ih =>
      obtain ⟨name, t, pack⟩ := m
      cases k with
      | zero => rfl
      | succ k => exact ih k

/-- The width of a packable member of a struct. -/
lemma packable_memberTypes {packing : Bool} {ms : List (Member Impl)} {m : Member Ty} {w : ℕ}
    (hm : m ∈ memberTypes packing ms) (hw : packable m = some w) : 0 < w := by
  obtain ⟨k, hk⟩ := List.getElem?_of_mem hm
  rw [memberTypes_getElem?] at hk
  obtain ⟨m', -, rfl⟩ := Option.map_eq_some_iff.mp hk
  rw [packable] at hw
  split_ifs at hw
  exact bits_pos hw

/-- The place of field `k` in an element that an earlier field began. -/
def midOf (all : List (Member Ty)) (k : ℕ) : Option (ℕ × ℕ) :=
  let p := packOf all k
  if p.packed ∧ p.offset ≠ 0 then some (p.offset, p.total) else none

/-- What field `k` knows of its place. -/
structure FieldPlace (all : List (Member Ty)) (k : ℕ) : Prop where
  alone : (packOf all k).packed = false → midOf all (k + 1) = none
  place : (packOf all k).packed = true → Place (midOf all k) (packOf all k)
  width : (packOf all k).packed = true → ∀ m, all[k]? = some m →
    packable m = some (packOf all k).bits
  next : (packOf all k).packed = true → (packOf all k).next = midOf all (k + 1)

lemma midOf_of_packed_eq_false {all : List (Member Ty)} {k : ℕ}
    (h : (packOf all k).packed = false) : midOf all k = none := by
  simp [midOf, h]

/-- No element is unfinished where a run begins. -/
lemma Runs.midOf {all : List (Member Ty)} {i : ℕ} {ms : List (Member Ty)} (h : Runs all i ms)
    (hdrop : all.drop i = ms) : midOf all i = none := by
  cases h with
  | nil =>
      refine midOf_of_packed_eq_false ?_
      rw [packOf_ge (List.drop_eq_nil_iff.mp hdrop)]
      rfl
  | alone _ m ms _ halone _ =>
      refine midOf_of_packed_eq_false ?_
      rw [halone]
      rfl
  | run _ r ms hr _ =>
      have h0 := hr.offset 0 hr.pos
      rw [List.take_zero, List.map_nil, List.sum_nil, Nat.add_zero] at h0
      simp [Input.midOf, h0]

/-- The place of a field of a run of at least two fields. -/
lemma MaximalRun.fieldPlace {all : List (Member Ty)} {i : ℕ} {r ms : List (Member Ty)}
    (hr : MaximalRun all i r ms) (hpos : ∀ m ∈ r, 0 < width m) (h2 : 2 ≤ r.length)
    (hget : ∀ j, j < r.length → all[i + j]? = r[j]?) (hend : midOf all (i + r.length) = none)
    {j : ℕ} (hj : j < r.length) : FieldPlace all (i + j) := by
  have hsucc : ∀ k (hk : k < r.length),
      ((r.take (k + 1)).map width).sum = ((r.take k).map width).sum + width r[k] := by
    intro k hk
    rw [List.take_succ_eq_append_getElem hk, List.map_append, List.sum_append]
    simp
  have hwpos := fun k (hk : k < r.length) => hpos r[k] (List.getElem_mem hk)
  have hmono : ∀ k, k ≤ r.length → ((r.take k).map width).sum ≤ (r.map width).sum := by
    intro k hk
    conv_rhs => rw [← List.take_append_drop k r, List.map_append, List.sum_append]
    omega
  have hzero : ∀ k, k ≤ r.length → (((r.take k).map width).sum = 0 ↔ k = 0) := by
    intro k hk
    cases k with
    | zero => simp
    | succ k =>
        have hs := hsucc k (by omega)
        have hp := hwpos k (by omega)
        omega
  have htotal : 0 < (r.map width).sum := by
    have h1 := hmono 1 (by omega)
    have h0 := (hzero 1 (by omega)).not.mpr (by omega)
    omega
  have hshared := fun k (hk : k < r.length) => hr.shared h2 k hk
  have hbits : ∀ k (hk : k < r.length), (packOf all (i + k)).bits = width r[k] := fun k hk => by
    rw [(hshared k hk).1, List.getElem?_eq_getElem hk]
    rfl
  have hpacked : ∀ k, k < r.length → (packOf all (i + k)).packed = true := fun k hk => by
    rw [Pack.packed, (hshared k hk).2, decide_eq_true_iff]
    exact htotal
  have hmid : ∀ k, k < r.length → midOf all (i + k) = if k = 0 then none
      else some (((r.take k).map width).sum, (r.map width).sum) := fun k hk => by
    simp only [midOf, hpacked k hk, true_and, hr.offset k hk, (hshared k hk).2, ne_eq,
      hzero k hk.le]
    split_ifs <;> rfl
  have hs := hsucc j hj
  have hfull := hmono (j + 1) hj
  have hlast : (((r.take (j + 1)).map width).sum = (r.map width).sum) ↔ j + 1 = r.length := by
    constructor
    · intro heq
      by_contra hne
      have hnext := hsucc (j + 1) (by omega)
      have hle := hmono (j + 1 + 1) (by omega)
      have hwnext := hwpos (j + 1) (by omega)
      omega
    · rintro heq
      rw [heq, List.take_length]
  refine ⟨fun h => ?_, fun _ => ?_, fun _ m hm => ?_, fun _ => ?_⟩
  · rw [hpacked j hj] at h
    cases h
  · refine ⟨hpacked j hj, ?_, fun o total h => ?_, ?_, ?_, ?_, ?_⟩
    · rw [hr.offset j hj, hmid j hj]
      split_ifs with h0
      · rw [h0]
        rfl
      · rfl
    · rw [hmid j hj] at h
      split_ifs at h with h0
      obtain ⟨rfl, rfl⟩ := Prod.mk.inj (Option.some.inj h)
      exact ⟨Nat.pos_of_ne_zero ((hzero j hj.le).not.mpr h0), (hshared j hj).2.symm⟩
    · rw [hbits j hj]
      exact hwpos j hj
    · rw [hr.offset j hj, hbits j hj, (hshared j hj).2]
      omega
    · rw [(hshared j hj).2]
      exact hr.fits h2
    · rw [hr.last j hj, hr.offset j hj, hbits j hj, (hshared j hj).2, ← hs]
      exact decide_eq_decide.mpr hlast.symm
  · rw [hget j hj, List.getElem?_eq_getElem hj] at hm
    obtain rfl := Option.some.inj hm
    obtain ⟨w, hw⟩ := Option.isSome_iff_exists.mp (hr.packable _ (List.getElem_mem hj))
    rw [hbits j hj, width, hw]
    rfl
  · rw [Pack.next, hr.last j hj]
    by_cases hjl : j + 1 = r.length
    · rw [if_pos (decide_eq_true hjl), Nat.add_assoc, hjl, hend]
    · rw [if_neg (by simpa using hjl), Nat.add_assoc, hmid (j + 1) (by omega), if_neg (by omega),
        hr.offset j hj, hbits j hj, (hshared j hj).2, hs]

lemma Runs.fieldPlace {all : List (Member Ty)} (hpos : ∀ m ∈ all, ∀ w, packable m = some w → 0 < w)
    {i : ℕ} {ms : List (Member Ty)} (h : Runs all i ms) (hdrop : all.drop i = ms) :
    ∀ k, i ≤ k → k < all.length → FieldPlace all k := by
  induction h with
  | nil i =>
      intro k hik hk
      have hle := List.drop_eq_nil_iff.mp hdrop
      omega
  | alone i m ms _ halone hms ih =>
      have hdrop' : all.drop (i + 1) = ms := by
        rw [← List.drop_drop, hdrop, List.drop_one, List.tail_cons]
      intro k hik hk
      rcases Nat.eq_or_lt_of_le hik with rfl | hlt
      · have hfalse : ¬ (packOf all i).packed = true := by rw [halone]; decide
        exact ⟨fun _ => hms.midOf hdrop', fun hp => absurd hp hfalse, fun hp => absurd hp hfalse,
          fun hp => absurd hp hfalse⟩
      · exact ih hdrop' k hlt hk
  | run i r ms hr hms ih =>
      have hdrop' : all.drop (i + r.length) = ms := by
        rw [← List.drop_drop, hdrop, List.drop_left]
      have hend := hms.midOf hdrop'
      have hmem : ∀ m ∈ r, m ∈ all := fun m hm =>
        List.mem_of_mem_drop (hdrop ▸ List.mem_append_left ms hm)
      intro k hik hk
      rcases lt_or_ge k (i + r.length) with hlt | hge
      · obtain ⟨j, rfl⟩ := Nat.exists_eq_add_of_le hik
        have hlen := hr.pos
        by_cases h1 : r.length = 1
        · obtain rfl : j = 0 := by omega
          have hfalse : ¬ (packOf all (i + 0)).packed = true := by
            rw [Nat.add_zero, hr.alone h1]
            decide
          rw [h1] at hend
          exact ⟨fun _ => hend, fun hp => absurd hp hfalse, fun hp => absurd hp hfalse,
            fun hp => absurd hp hfalse⟩
        · refine hr.fieldPlace (fun m hm => ?_) (by omega) (fun j hj => ?_) hend (by omega)
          · obtain ⟨w, hw⟩ := Option.isSome_iff_exists.mp (hr.packable m hm)
            rw [width, hw]
            exact hpos m (hmem m hm) w hw
          · rw [← List.getElem?_drop, hdrop, List.getElem?_append_left hj]
      · exact ih hdrop' k hge hk

/-- The plan of the fields from place `k` on. -/
lemma planned_from {fields : List (Member Impl)} {ms : List (Member Impl)} {k : ℕ}
    (hdrop : fields.drop k = ms) (hk : k ≤ fields.length) :
    Planned (midOf (memberTypes true fields) k)
      ((List.range' k ms.length).map (packOf (memberTypes true fields))) ms := by
  have hplace := (runs_all (memberTypes true fields)).fieldPlace
    (fun m hm w hw => packable_memberTypes hm hw) List.drop_zero
  induction ms generalizing k with
  | nil =>
      have hle := List.drop_eq_nil_iff.mp hdrop
      have halone : packOf (memberTypes true fields) k = .ALONE := packOf_ge (by simpa using hle)
      rw [midOf_of_packed_eq_false (by rw [halone]; rfl)]
      exact .nil _
  | cons m ms ih =>
      have hlt : k < fields.length := by
        by_contra hge
        rw [List.drop_eq_nil_of_le (by omega)] at hdrop
        cases hdrop
      have hdrop' : fields.drop (k + 1) = ms := by
        rw [← List.drop_drop, hdrop, List.drop_one, List.tail_cons]
      have hget : fields[k]? = some m := by
        rw [← Nat.add_zero k, ← List.getElem?_drop, hdrop]
        rfl
      have hrest := ih hdrop' hlt
      have hfield := hplace k (Nat.zero_le k) (by simpa using hlt)
      rw [List.length_cons, List.range'_succ, List.map_cons]
      by_cases hp : (packOf (memberTypes true fields) k).packed = true
      · have hwidth := hfield.width hp ⟨m.name, m.ty.type, true && m.pack⟩
          (by rw [memberTypes_getElem?, hget]; rfl)
        refine .packed (hfield.place hp) ?_ (by rw [hfield.next hp]; exact hrest)
        rw [packable] at hwidth
        split_ifs at hwidth
        exact hwidth
      · have hp' : (packOf (memberTypes true fields) k).packed = false := by simpa using hp
        rw [midOf_of_packed_eq_false hp']
        rw [hfield.alone hp'] at hrest
        exact .alone hp' hrest

/-- No field is packed where none may be. -/
lemma packOf_of_packable_eq_none {all : List (Member Ty)} (h : ∀ m ∈ all, packable m = none)
    (i : ℕ) : packOf all i = .ALONE := by
  have hfrom : ∀ fuel start, packFrom all i fuel start = .ALONE := by
    intro fuel
    induction fuel with
    | zero => exact fun _ => rfl
    | succ fuel ih =>
        intro start
        rw [packFrom]
        cases hdrop : all.drop start with
        | nil => rfl
        | cons m rest =>
            have hm : packable m = none :=
              h m (List.mem_of_mem_drop (hdrop ▸ List.mem_cons_self : m ∈ all.drop start))
            simp only [hm]
            exact ih (start + 1)
  exact hfrom _ _

lemma packable_memberTypes_false {ms : List (Member Impl)} {m : Member Ty}
    (hm : m ∈ memberTypes false ms) : packable m = none := by
  obtain ⟨k, hk⟩ := List.getElem?_of_mem hm
  rw [memberTypes_getElem?] at hk
  obtain ⟨m', -, rfl⟩ := Option.map_eq_some_iff.mp hk
  rfl

/-- The plan of a struct has each field where `pack_of` has it. -/
lemma struct_plan (name : String) (fields : List (Member Impl)) (enc : StructEncoding) :
    (Impl.struct name fields enc).plan fields.length
      = (List.range' 0 fields.length).map (packOf (memberTypes (enc = .fields) fields)) := by
  have halone : ∀ i, packOf (memberTypes false fields) i = .ALONE :=
    packOf_of_packable_eq_none fun m hm => packable_memberTypes_false hm
  cases enc with
  | fields =>
      rw [Impl.plan, Impl.type, packPlan, List.range_eq_range']
      refine List.map_congr_left fun i hi => if_pos ?_
      have hi' := List.mem_range'_1.mp hi
      simpa using hi'.2
  | number bits =>
      have hmap : (List.range' 0 fields.length).map (packOf (memberTypes false fields))
          = List.replicate fields.length .ALONE := by
        rw [List.map_congr_left fun i _ => halone i, List.map_const', List.length_range']
      exact hmap.symm
  | bytes =>
      have hmap : (List.range' 0 fields.length).map (packOf (memberTypes false fields))
          = List.replicate fields.length .ALONE := by
        rw [List.map_congr_left fun i _ => halone i, List.map_const', List.length_range']
      exact hmap.symm

lemma planned_alone (ms : List (Member Impl)) (plan : List Pack)
    (h : plan = List.replicate ms.length .ALONE) : Planned none plan ms := by
  induction ms generalizing plan with
  | nil => exact .nil _
  | cons m ms ih =>
      rw [h, List.length_cons, List.replicate_succ]
      exact .alone rfl (ih _ rfl)

/-- **The plan** of a struct packs its fields one after the other into finished elements. -/
theorem planned_struct (name : String) (fields : List (Member Impl)) (enc : StructEncoding) :
    Planned none ((Impl.struct name fields enc).plan fields.length) fields := by
  cases enc with
  | number bits => exact planned_alone fields _ rfl
  | bytes => exact planned_alone fields _ rfl
  | fields =>
      have hfrom := @planned_from fields _ _ List.drop_zero (Nat.zero_le _)
      rw [(runs_all _).midOf List.drop_zero] at hfrom
      rw [struct_plan]
      exact hfrom

end Input

end XarkCircuit
