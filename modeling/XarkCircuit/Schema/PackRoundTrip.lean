import XarkCircuit.Schema.Reads

/-!
Packing loses nothing.

* `Fits t v`: the packed choices, sets and times of a value fit their bits. A value that does has
  leaves (`coded_of_fits`), and one that is written does (`fits_of_write`).
* `coded_length`: there are as many leaves as the type has.
* `packing_loses_nothing`: the runs of a struct, and both round trips.
-/

namespace XarkCircuit

namespace Input

open Succeeding

/-! ### Values that fit -/

/-- A packed value fits its bits. An integer's does already. -/
def FitsIn (bits : ℕ) : (t : Impl) → t.Val → Prop
  | .choice _, f => ZMod.val (n := Verifier.rModulus) f < 2 ^ bits
  | .bitfield _, f => ZMod.val (n := Verifier.rModulus) f < 2 ^ bits
  | .time _, x => BitVec.toNat x < 2 ^ bits
  | .field, _ => True
  | .uint _, _ => True
  | .u128, _ => True
  | .int _, _ => True
  | .i128, _ => True
  | .bool, _ => True
  | .array _ _, _ => True
  | .tuple _, _ => True
  | .struct _ _ _, _ => True
  | .text, _ => True
  | .timestamp, _ => True

mutual

/-- The packed fields of a value fit their bits. -/
def Fits : (t : Impl) → t.Val → Prop
  | .array t n, v => ∀ i : Fin n, Fits t (v i)
  | .tuple ts, vs => TupleFits ts vs
  | .struct name fields enc, vs =>
      FieldsFit ((Impl.struct name fields enc).plan fields.length) fields vs
  | .field, _ => True
  | .uint _, _ => True
  | .u128, _ => True
  | .int _, _ => True
  | .i128, _ => True
  | .bool, _ => True
  | .text, _ => True
  | .choice _, _ => True
  | .bitfield _, _ => True
  | .timestamp, _ => True
  | .time _, _ => True

/-- The packed fields of a tuple's values fit their bits. -/
def TupleFits : (ts : List Impl) → TupleVal ts → Prop
  | [], _ => True
  | t :: ts, (v, vs) => Fits t v ∧ TupleFits ts vs

/-- The packed fields of a struct fit their bits, and those of its other fields. -/
def FieldsFit : (plan : List Pack) → (ms : List (Member Impl)) → FieldsVal ms → Prop
  | _, [], _ => True
  | plan, ⟨_, t, _⟩ :: ms, (v, vs) =>
      let p := plan.head?.getD .ALONE
      (if p.packed then FitsIn p.bits t v else Fits t v) ∧ FieldsFit plan.tail ms vs

end

/-- A packed value that fits is one element within its bits. -/
lemma coded_of_fitsIn {t : Impl} {b : ℕ} (hb : t.type.bits = some b) (h253 : b ≤ 253) {v : t.Val}
    (h : FitsIn b t v) : ∃ x : Fr, Coded t v [x] ∧ x.val < 2 ^ b := by
  have hvec : ∀ {w : ℕ} (x : BitVec w), x.toNat < 2 ^ b →
      (((x.toNat : ℕ) : Fr)).val < 2 ^ b := fun x hx => by rwa [val_natCast hx h253]
  cases t with
  | uint w =>
      obtain rfl := Option.some.inj hb
      exact ⟨_, rfl, hvec v (BitVec.isLt v)⟩
  | int w =>
      obtain rfl := Option.some.inj hb
      exact ⟨_, rfl, hvec v (BitVec.isLt v)⟩
  | u128 =>
      obtain rfl := Option.some.inj hb
      exact ⟨_, rfl, hvec v (BitVec.isLt v)⟩
  | i128 =>
      obtain rfl := Option.some.inj hb
      exact ⟨_, rfl, hvec v (BitVec.isLt v)⟩
  | bool =>
      obtain rfl := Option.some.inj hb
      exact ⟨_, rfl, by rw [val_natCast (Bool.toNat_lt v) h253]; exact Bool.toNat_lt v⟩
  | timestamp =>
      obtain rfl := Option.some.inj hb
      exact ⟨_, rfl, hvec v (BitVec.isLt v)⟩
  | time t => exact ⟨_, rfl, hvec v h⟩
  | choice v' => exact ⟨v, rfl, h⟩
  | bitfield v' => exact ⟨v, rfl, h⟩
  | field => cases hb
  | text => cases hb
  | array t n => cases hb
  | tuple ts => cases hb
  | struct name fields enc => cases hb

/-- The bits of a number at a place, from those below the next place. -/
lemma sliceBits_of_mod {g g₀ o b : ℕ} {x : Fr} (hg₀ : g₀ < 2 ^ o)
    (h : g % 2 ^ (o + b) = g₀ + 2 ^ o * x.val) : sliceBits g o b = x ∧ g % 2 ^ o = g₀ := by
  have hpos := Nat.two_pow_pos o
  rw [Nat.pow_add, Nat.mod_mul] at h
  have hlow : g % 2 ^ o = g₀ := by
    have hmod := congrArg (· % 2 ^ o) h
    simpa [Nat.mod_eq_of_lt hg₀] using hmod
  have hhigh : g / 2 ^ o % 2 ^ b = x.val := by
    rw [hlow] at h
    exact Nat.eq_of_mul_eq_mul_left hpos (Nat.add_left_cancel h)
  exact ⟨by rw [sliceBits, hhigh, ZMod.natCast_zmod_val], hlow⟩

/-- The fields have leaves: in an element that is not finished, above the bits that it has. -/
def Completes (plan : List Pack) (ms : List (Member Impl)) (vs : FieldsVal ms) :
    Option (ℕ × ℕ) → Prop
  | none => ∀ g, ∃ fs, FieldsCoded plan ms vs g fs
  | some (o, total) => ∀ g₀ < 2 ^ o, ∃ g fs, g < 2 ^ total ∧ g % 2 ^ o = g₀ ∧
      FieldsCoded plan ms vs g fs

/-- The element from a packed field on. -/
lemma Completes.next {mid : Option (ℕ × ℕ)} {p : Pack} (hp : Place mid p) {plan : List Pack}
    {ms : List (Member Impl)} {vs : FieldsVal ms} (h : Completes plan ms vs p.next) {g₁ : ℕ}
    (hg₁ : g₁ < 2 ^ (p.offset + p.bits)) : ∃ g fs, g < 2 ^ p.total ∧
      g % 2 ^ (p.offset + p.bits) = g₁ ∧ FieldsCoded plan ms vs g fs := by
  by_cases hlast : p.last = true
  · have hfull : p.offset + p.bits = p.total := by
      rw [hp.last, decide_eq_true_iff] at hlast
      exact hlast
    rw [Pack.next, if_pos hlast] at h
    obtain ⟨fs, hfs⟩ := h g₁
    exact ⟨g₁, fs, hfull ▸ hg₁, Nat.mod_eq_of_lt hg₁, hfs⟩
  · rw [Pack.next, if_neg hlast] at h
    exact h g₁ hg₁

lemma completes_of_fit {mid : Option (ℕ × ℕ)} {plan : List Pack} {ms : List (Member Impl)}
    (hplan : Planned mid plan ms) (ih : ∀ m ∈ ms, ∀ v, Fits m.ty v → ∃ fs, Coded m.ty v fs)
    {vs : FieldsVal ms} (h : FieldsFit plan ms vs) : Completes plan ms vs mid := by
  induction hplan with
  | nil plan => exact fun g => ⟨[], rfl⟩
  | @alone p plan m ms hp _ ihp =>
      obtain ⟨name, t, pack⟩ := m
      obtain ⟨v, vs⟩ := vs
      simp only [FieldsFit, List.head?_cons, Option.getD_some, hp, Bool.false_eq_true, if_false,
        List.tail_cons] at h
      obtain ⟨a, ha⟩ := ih _ List.mem_cons_self v h.1
      have hrest := ihp (fun m hm => ih m (List.mem_cons_of_mem _ hm)) h.2
      intro g
      obtain ⟨b, hb⟩ := hrest g
      refine ⟨a ++ b, ?_⟩
      simp only [FieldsCoded, List.head?_cons, Option.getD_some, hp, Bool.false_eq_true, if_false,
        List.tail_cons]
      exact ⟨a, b, rfl, ha, hb⟩
  | @packed mid p plan m ms hp hb _ ihp =>
      obtain ⟨name, t, pack⟩ := m
      obtain ⟨v, vs⟩ := vs
      simp only [FieldsFit, List.head?_cons, Option.getD_some, hp.packed, if_true, List.tail_cons]
        at h
      have h253 : p.bits ≤ 253 := by
        have hle := hp.le
        have htotal := hp.total_le
        omega
      obtain ⟨x, hv, hx⟩ := coded_of_fitsIn hb h253 h.1
      have hrest := ihp (fun m hm => ih m (List.mem_cons_of_mem _ hm)) h.2
      have hcoded : ∀ g g' fs fs', Loads p g g' fs fs' → sliceBits g' p.offset p.bits = x →
          FieldsCoded plan ms vs g' fs' → FieldsCoded (p :: plan) (⟨name, t, pack⟩ :: ms) (v, vs) g fs :=
        fun g g' fs fs' hload hslice hvs => (fieldsCoded_packed hp).mpr
          ⟨g', fs', hload, hslice ▸ hv, hvs⟩
      -- the element's bits up to the next place: those before, and the field's
      have hsum : ∀ g₀ < 2 ^ p.offset, g₀ + 2 ^ p.offset * x.val < 2 ^ (p.offset + p.bits) := by
        intro g₀ hg₀
        have hmul : 2 ^ p.offset * (x.val + 1) ≤ 2 ^ p.offset * 2 ^ p.bits :=
          Nat.mul_le_mul_left _ hx
        rw [Nat.pow_add]
        rw [Nat.mul_add, Nat.mul_one] at hmul
        omega
      have hoff := hp.offset
      cases mid with
      | none =>
          have h0 : p.offset = 0 := hoff
          intro g
          obtain ⟨g', fs', hlt, hmod, hvs⟩ := hrest.next hp (hsum 0 (Nat.two_pow_pos _))
          obtain ⟨hslice, -⟩ := sliceBits_of_mod (Nat.two_pow_pos _) hmod
          have hval : (g' : Fr).val = g' := val_natCast hlt hp.total_le
          refine ⟨(g' : Fr) :: fs', hcoded g g' _ fs' ?_ hslice hvs⟩
          rw [Loads, if_pos h0]
          exact ⟨g', by rwa [hval], hval.symm, rfl⟩
      | some place =>
          obtain ⟨o, total⟩ := place
          obtain ⟨hpos, rfl⟩ := hp.mid_pos o total rfl
          obtain rfl : p.offset = o := hoff
          intro g₀ hg₀
          obtain ⟨g', fs', hlt, hmod, hvs⟩ := hrest.next hp (hsum g₀ hg₀)
          obtain ⟨hslice, hlow⟩ := sliceBits_of_mod hg₀ hmod
          refine ⟨g', fs', hlt, hlow, hcoded g' g' fs' fs' ?_ hslice hvs⟩
          rw [Loads, if_neg (by omega)]
          exact ⟨rfl, rfl⟩

lemma tupleCoded_of_fits {ts : List Impl} (ih : ∀ t ∈ ts, ∀ v, Fits t v → ∃ fs, Coded t v fs)
    {vs : TupleVal ts} (h : TupleFits ts vs) : ∃ fs, TupleCoded ts vs fs := by
  induction ts with
  | nil => exact ⟨[], rfl⟩
  | cons t ts iht =>
      obtain ⟨v, vs⟩ := vs
      obtain ⟨a, ha⟩ := ih t List.mem_cons_self v h.1
      obtain ⟨b, hb⟩ := iht (fun t ht => ih t (List.mem_cons_of_mem _ ht)) h.2
      exact ⟨a ++ b, a, b, rfl, ha, hb⟩

/-- A value that fits has leaves. -/
theorem coded_of_fits (t : Impl) : ∀ v, Fits t v → ∃ fs, Coded t v fs := by
  induction t using Impl.ind with
  | field => exact fun v _ => ⟨_, rfl⟩
  | uint w => exact fun v _ => ⟨_, rfl⟩
  | u128 => exact fun v _ => ⟨_, rfl⟩
  | int w => exact fun v _ => ⟨_, rfl⟩
  | i128 => exact fun v _ => ⟨_, rfl⟩
  | bool => exact fun v _ => ⟨_, rfl⟩
  | array t n ih =>
      intro v h
      choose parts hparts using fun i => ih (v i) (h i)
      exact ⟨_, parts, hparts, rfl⟩
  | tuple ts ih => exact fun vs h => tupleCoded_of_fits ih h
  | struct name ms enc ih =>
      intro vs h
      have hcompletes := completes_of_fit (planned_struct name ms enc) ih h
      exact hcompletes 0
  | text => exact fun v _ => ⟨_, rfl⟩
  | choice v => exact fun v _ => ⟨_, rfl⟩
  | bitfield v => exact fun v _ => ⟨_, rfl⟩
  | timestamp => exact fun v _ => ⟨_, rfl⟩
  | time t => exact fun v _ => ⟨_, rfl⟩

/-! ### Values that are written -/

lemma field_out {f : Fr} {w w' : Writer} (h : Writer.field f w = .ok w') :
    w'.out = w.out ++ [f] := by
  rw [Writer.field] at h
  split_ifs at h
  obtain rfl := Except.ok.inj h
  rfl

/-- A packed value that is written as one element within its bits fits them. -/
lemma fitsIn_of_write {t : Impl} {b : ℕ} {v : t.Val} {one : Writer} {f : Fr}
    (h : t.write v ⟨1, [], 0⟩ = .ok one) (hout : one.out = [f]) (hf : f.val < 2 ^ b) : FitsIn b t v := by
  have hleaf : ∀ x : Fr, Writer.field x ⟨1, [], 0⟩ = .ok one → x.val < 2 ^ b := by
    intro x hx
    have hxf := field_out hx
    rw [hout] at hxf
    rwa [← List.singleton_inj.mp hxf]
  cases t with
  | choice v' => exact hleaf v h
  | bitfield v' => exact hleaf v h
  | time t =>
      have hx := hleaf _ h
      rwa [val_natCast (BitVec.isLt v) (by norm_num)] at hx
  | uint w => trivial
  | int w => trivial
  | u128 => trivial
  | i128 => trivial
  | bool => trivial
  | timestamp => trivial
  | field => trivial
  | text => trivial
  | array t n => trivial
  | tuple ts => trivial
  | struct name fields enc => trivial

lemma fieldsFit_of_write {mid : Option (ℕ × ℕ)} {plan : List Pack} {ms : List (Member Impl)}
    (hplan : Planned mid plan ms)
    (ih : ∀ m ∈ ms, ∀ v w w', m.ty.write v w = .ok w' → Fits m.ty v) {vs : FieldsVal ms}
    {w w' : Writer} (h : fieldsWrite plan ms vs w = .ok w') : FieldsFit plan ms vs := by
  induction hplan generalizing w with
  | nil plan => trivial
  | @alone p plan m ms hp _ ihp =>
      obtain ⟨name, t, pack⟩ := m
      obtain ⟨v, vs⟩ := vs
      simp only [fieldsWrite, List.head?_cons, Option.getD_some, List.tail_cons] at h
      obtain ⟨w₁, hmember, hrest⟩ := bind_eq_ok.mp h
      rw [Writer.member, if_pos (by simp [hp])] at hmember
      simp only [FieldsFit, List.head?_cons, Option.getD_some, hp, Bool.false_eq_true, if_false,
        List.tail_cons]
      exact ⟨ih _ List.mem_cons_self v w w₁ hmember,
        ihp (fun m hm => ih m (List.mem_cons_of_mem _ hm)) hrest⟩
  | @packed mid p plan m ms hp hb _ ihp =>
      obtain ⟨name, t, pack⟩ := m
      obtain ⟨v, vs⟩ := vs
      simp only [fieldsWrite, List.head?_cons, Option.getD_some, List.tail_cons] at h
      obtain ⟨w₁, hmember, hrest⟩ := bind_eq_ok.mp h
      rw [Writer.member, if_neg (by simp [hp.packed])] at hmember
      obtain ⟨one, hone, hmember⟩ := bind_eq_ok.mp hmember
      simp only [FieldsFit, List.head?_cons, Option.getD_some, hp.packed, if_true, List.tail_cons]
      refine ⟨?_, ihp (fun m hm => ih m (List.mem_cons_of_mem _ hm)) hrest⟩
      split at hmember
      · rename_i f hout
        by_cases hf : f.val < 2 ^ p.bits
        · exact fitsIn_of_write hone hout hf
        · rw [if_neg hf] at hmember
          cases hmember
      · cases hmember

lemma arrayFits_of_write {t : Impl} (ih : ∀ v w w', t.write v w = .ok w' → Fits t v) {n : ℕ}
    {v : Fin n → t.Val} {w w' : Writer} (h : writeArray t.write n v w = .ok w') :
    ∀ i, Fits t (v i) := by
  induction n generalizing w' with
  | zero => exact fun i => i.elim0
  | succ n ihn =>
      obtain ⟨w₁, hinit, hlast⟩ := bind_eq_ok.mp h
      exact Fin.lastCases (ih _ _ _ hlast) (ihn hinit)

lemma tupleFits_of_write {ts : List Impl}
    (ih : ∀ t ∈ ts, ∀ v w w', t.write v w = .ok w' → Fits t v) {vs : TupleVal ts} {w w' : Writer}
    (h : tupleWrite ts vs w = .ok w') : TupleFits ts vs := by
  induction ts generalizing w with
  | nil => trivial
  | cons t ts iht =>
      obtain ⟨v, vs⟩ := vs
      obtain ⟨w₁, hhead, hrest⟩ := bind_eq_ok.mp h
      exact ⟨ih t List.mem_cons_self v w w₁ hhead,
        iht (fun t ht => ih t (List.mem_cons_of_mem _ ht)) hrest⟩

/-- A value that is written fits. -/
theorem fits_of_write (t : Impl) : ∀ v w w', t.write v w = .ok w' → Fits t v := by
  induction t using Impl.ind with
  | field => exact fun _ _ _ _ => trivial
  | uint w => exact fun _ _ _ _ => trivial
  | u128 => exact fun _ _ _ _ => trivial
  | int w => exact fun _ _ _ _ => trivial
  | i128 => exact fun _ _ _ _ => trivial
  | bool => exact fun _ _ _ _ => trivial
  | array t n ih => exact fun v w w' h => arrayFits_of_write ih h
  | tuple ts ih => exact fun vs w w' h => tupleFits_of_write ih h
  | struct name ms enc ih =>
      exact fun vs w w' h => fieldsFit_of_write (planned_struct name ms enc) ih h
  | text => exact fun _ _ _ _ => trivial
  | choice v => exact fun _ _ _ _ => trivial
  | bitfield v => exact fun _ _ _ _ => trivial
  | timestamp => exact fun _ _ _ _ => trivial
  | time t => exact fun _ _ _ _ => trivial

/-! ### The number of leaves -/

lemma fieldsCoded_length {plan : List Pack} {ms : List (Member Impl)}
    (ih : ∀ m ∈ ms, ∀ v fs, Coded m.ty v fs → fs.length = m.ty.leafWidths.length)
    {vs : FieldsVal ms} {g : ℕ} {fs : List Fr} (h : FieldsCoded plan ms vs g fs) :
    fs.length = (fieldsWidths plan ms).length := by
  induction ms generalizing plan g fs with
  | nil =>
      have hfs : fs = [] := h
      rw [hfs]
      rfl
  | cons m ms ihm =>
      obtain ⟨name, t, pack⟩ := m
      obtain ⟨v, vs⟩ := vs
      have hrest := fun {plan g fs} => @ihm plan (fun m hm => ih m (List.mem_cons_of_mem _ hm)) vs g fs
      rw [FieldsCoded] at h
      rw [fieldsWidths, List.length_append]
      split_ifs at h ⊢ with hp h0
      · obtain ⟨g', fs', ⟨f, -, -, rfl⟩, -, hvs⟩ := h
        rw [List.length_cons, hrest hvs, List.length_singleton, Nat.add_comm]
      · obtain ⟨g', fs', ⟨-, rfl⟩, -, hvs⟩ := h
        rw [hrest hvs, List.length_nil, Nat.zero_add]
      · obtain ⟨a, b, rfl, ha, hb⟩ := h
        rw [List.length_append, ih _ List.mem_cons_self v a ha, hrest hb]

/-- There are as many leaves as widths. -/
lemma coded_length (t : Impl) : ∀ v fs, Coded t v fs → fs.length = t.leafWidths.length := by
  induction t using Impl.ind with
  | field => exact fun v fs h => congrArg List.length (h : fs = [_])
  | uint w => exact fun v fs h => congrArg List.length (h : fs = [_])
  | u128 => exact fun v fs h => congrArg List.length (h : fs = [_])
  | int w => exact fun v fs h => congrArg List.length (h : fs = [_])
  | i128 => exact fun v fs h => congrArg List.length (h : fs = [_])
  | bool => exact fun v fs h => congrArg List.length (h : fs = [_])
  | array t n ih =>
      rintro v _ ⟨parts, hparts, rfl⟩
      have hlen : ∀ i, (parts i).length = t.leafWidths.length := fun i => ih _ _ (hparts i)
      rw [Impl.leafWidths, List.length_flatten, List.length_flatten, List.map_ofFn,
        List.map_replicate, List.sum_replicate, List.sum_ofFn]
      simp [hlen]
  | tuple ts ih =>
      intro vs fs h
      induction ts generalizing fs with
      | nil =>
          have hfs : fs = [] := h
          rw [hfs]
          rfl
      | cons t ts iht =>
          obtain ⟨v, vs⟩ := vs
          obtain ⟨a, b, rfl, ha, hb⟩ := h
          have hrest := iht (fun t ht => ih t (List.mem_cons_of_mem _ ht)) vs b hb
          rw [List.length_append, ih t List.mem_cons_self v a ha, hrest]
          exact (List.length_append).symm
  | struct name ms enc ih => exact fun vs fs h => fieldsCoded_length ih h
  | text => exact fun v fs h => congrArg List.length (h : fs = [_])
  | choice v => exact fun v fs h => congrArg List.length (h : fs = [_])
  | bitfield v => exact fun v fs h => congrArg List.length (h : fs = [_])
  | timestamp => exact fun v fs h => congrArg List.length (h : fs = [_])
  | time t => exact fun v fs h => congrArg List.length (h : fs = [_])

lemma fieldsWidths_length (all : List (Member Ty)) (b : Bool) {ms : List (Member Impl)}
    (ih : ∀ m ∈ ms, m.ty.leafWidths.length = m.ty.type.leaves) (k : ℕ) :
    (fieldsWidths ((List.range' k ms.length).map (packOf all)) ms).length
      = memberLeaves all k (memberTypes b ms) := by
  induction ms generalizing k with
  | nil => rfl
  | cons m ms ihm =>
      obtain ⟨name, t, pack⟩ := m
      have hrest := ihm (fun m hm => ih m (List.mem_cons_of_mem _ hm)) (k + 1)
      rw [List.length_cons, List.range'_succ, List.map_cons, fieldsWidths, memberTypes, memberLeaves,
        List.length_append, List.tail_cons, hrest]
      congr 1
      simp only [List.head?_cons, Option.getD_some]
      by_cases hp : (packOf all k).packed = true
      · by_cases h0 : (packOf all k).offset = 0
        · simp [hp, h0]
        · simp [hp, h0]
      · simpa [hp] using ih _ List.mem_cons_self

/-- The leaves are those that the type counts. -/
lemma leafWidths_length (t : Impl) : t.leafWidths.length = t.type.leaves := by
  induction t using Impl.ind with
  | field => rfl
  | uint w => rfl
  | u128 => rfl
  | int w => rfl
  | i128 => rfl
  | bool => rfl
  | array t n ih =>
      rw [Impl.leafWidths, Impl.type, Ty.leaves, List.length_flatten, List.map_replicate,
        List.sum_replicate, ih, smul_eq_mul, Nat.mul_comm]
  | tuple ts ih =>
      rw [Impl.leafWidths, Impl.type, Ty.leaves]
      induction ts with
      | nil => rfl
      | cons t ts iht =>
          rw [tupleWidths, tupleTypes, tupleLeaves, List.length_append, ih t List.mem_cons_self,
            iht fun t ht => ih t (List.mem_cons_of_mem _ ht)]
  | struct name ms enc ih =>
      rw [Impl.leafWidths, struct_plan, fieldsWidths_length _ (enc = .fields) ih]
      rfl
  | text => rfl
  | choice v => rfl
  | bitfield v => rfl
  | timestamp => rfl
  | time t => rfl

/-! ### Round trips -/

/-- The leaves of a value are written whole. -/
lemma writeFields_of_coded {t : Impl} {v : t.Val} {fs : List Fr} (h : Coded t v fs) :
    fs.length = t.type.leaves ∧ writeFields t v = .ok fs := by
  have hlen : fs.length = t.type.leaves := (coded_length t v fs h).trans (leafWidths_length t)
  obtain ⟨w, hw, -, hout⟩ := coded_puts t v fs h ⟨t.type.leaves, [], 0⟩ (by simp [hlen])
  refine ⟨hlen, ?_⟩
  rw [List.nil_append] at hout
  rw [writeFields, hw]
  simp only [bind, Except.bind, hout, hlen, Nat.sub_self, List.replicate_zero, List.append_nil]

lemma fromFields_of_coded {t : Impl} {v : t.Val} {fs : List Fr} (h : Coded t v fs) :
    fromFields t fs = .ok v := by
  obtain ⟨g, hg⟩ := (impl_decodes t).gets v fs h ⟨fs, 0, 0, none⟩ [] rfl (by simp)
  rw [fromFields, hg]
  rfl

/-- A value is written, as its leaves, if and only if it fits. -/
lemma writeFields_iff {t : Impl} {v : t.Val} {fs : List Fr} :
    writeFields t v = .ok fs ↔ Fits t v ∧ Coded t v fs := by
  constructor
  · intro h
    obtain ⟨w, hw, -⟩ := bind_eq_ok.mp h
    have hfits := fits_of_write t v _ w hw
    obtain ⟨fs', hfs'⟩ := coded_of_fits t v hfits
    obtain rfl : fs' = fs := Except.ok.inj ((writeFields_of_coded hfs').2.symm.trans h)
    exact ⟨hfits, hfs'⟩
  · exact fun h => (writeFields_of_coded h.2).2

/-- Leaves in range that are read are those of the value. -/
lemma coded_of_fromFields {t : Impl} {v : t.Val} {fs : List Fr} (h : fromFields t fs = .ok v)
    (hranged : Ranged t.leafWidths fs) : Coded t v fs := by
  obtain ⟨x, hx, -⟩ := bind_eq_ok.mp h
  obtain ⟨v', hv'⟩ := (impl_decodes t).codes ⟨fs, 0, 0, none⟩ fs [] x rfl (by simp) hranged hx
  obtain rfl : v' = v := Except.ok.inj ((fromFields_of_coded hv').symm.trans h)
  exact hv'

/-- **Packing loses nothing**: the fields of a struct split into maximal runs; a value is written
exactly if its packed choices, sets and times fit their bits, and it is read back; leaves that are
read are written again if those of integers and `bool`s are in range; and two values have different
leaves. -/
theorem packing_loses_nothing : (∀ all : List (Member Ty), Runs all 0 all) ∧ ∀ t : Impl,
    (∀ v, Fits t v ↔ ∃ fs, writeFields t v = .ok fs) ∧
    (∀ v fs, writeFields t v = .ok fs → fs.length = t.type.leaves ∧ fromFields t fs = .ok v) ∧
    (∀ fs v, fromFields t fs = .ok v → Ranged t.leafWidths fs → writeFields t v = .ok fs) ∧
    ∀ v v' fs, writeFields t v = .ok fs → writeFields t v' = .ok fs → v = v' := by
  refine ⟨runs_all, fun t => ⟨fun v => ⟨fun h => ?_, fun ⟨fs, h⟩ => (writeFields_iff.mp h).1⟩, ?_, ?_,
    ?_⟩⟩
  · obtain ⟨fs, hfs⟩ := coded_of_fits t v h
    exact ⟨fs, (writeFields_of_coded hfs).2⟩
  · intro v fs h
    have hcoded := (writeFields_iff.mp h).2
    exact ⟨(writeFields_of_coded hcoded).1, fromFields_of_coded hcoded⟩
  · exact fun fs v h hranged => (writeFields_of_coded (coded_of_fromFields h hranged)).2
  · intro v v' fs h h'
    have hread := fromFields_of_coded (writeFields_iff.mp h).2
    have hread' := fromFields_of_coded (writeFields_iff.mp h').2
    exact Except.ok.inj (hread.symm.trans hread')

/-- A struct whose first three fields share an element: a 128-bit number, a signed byte, and one of
three variants. -/
def packedSample : Impl :=
  .struct "Sample" [⟨"amount", .u128, true⟩, ⟨"shift", .int .w8, true⟩,
    ⟨"kind", .choice ⟨"Kind", ["A", "B", "C"]⟩, true⟩, ⟨"hash", .field, true⟩] .fields

/-- A value of it. -/
def packedValue : packedSample.Val :=
  ((5 : BitVec 128), (255 : BitVec 8), (2 : Fr), (7 : Fr), ())

lemma packedSample_plan : packedSample.plan 4 =
    [⟨0, 128, 138, false, false⟩, ⟨128, 8, 138, false, false⟩, ⟨136, 2, 138, true, true⟩, .ALONE] := by
  decide

lemma packedValue_fits : Fits packedSample packedValue := by
  have hval : ((2 : ℕ) : Fr).val = 2 := val_natCast (b := 2) (by norm_num) (by norm_num)
  have hkind : ZMod.val (n := Verifier.rModulus) (2 : Fr) < 2 ^ 2 := by
    rw [← Nat.cast_ofNat (R := Fr), hval]
    norm_num
  change FieldsFit (packedSample.plan 4) _ packedValue
  rw [packedSample_plan]
  exact ⟨trivial, trivial, hkind, trivial, trivial⟩

/-- The value is written into two leaves and read back, and its leaves are written again. -/
theorem packing_loses_nothing_sample : ∃ fs, writeFields packedSample packedValue = .ok fs ∧
    fs.length = 2 ∧ ∃ v, fromFields packedSample fs = .ok v ∧ writeFields packedSample v = .ok fs ∧
      v = packedValue := by
  obtain ⟨-, hall⟩ := packing_loses_nothing
  obtain ⟨hfits, hback, hagain, hinj⟩ := hall packedSample
  obtain ⟨fs, hfs⟩ := (hfits packedValue).mp packedValue_fits
  obtain ⟨hlen, hread⟩ := hback packedValue fs hfs
  have hlen2 : fs.length = 2 := by
    rw [hlen]
    decide
  have hwidths : packedSample.leafWidths = [none, none] := by
    change fieldsWidths (packedSample.plan 4) _ = _
    rw [packedSample_plan]
    rfl
  have hranged : Ranged packedSample.leafWidths fs := by
    obtain ⟨a, b, rfl⟩ := List.length_eq_two.mp hlen2
    rw [hwidths]
    exact .cons (fun _ h => by cases h) (.cons (fun _ h => by cases h) .nil)
  have hwrite := hagain fs packedValue hread hranged
  exact ⟨fs, hfs, hlen2, packedValue, hread, hwrite, hinj packedValue packedValue fs hwrite hfs⟩

/-- A `bool` on its own reads every nonzero leaf as `true`, and a variant past its bits is not
packed. -/
theorem packing_loses_unchecked :
    (∃ v, fromFields .bool [2] = .ok v ∧ writeFields .bool v ≠ .ok [2]) ∧
    ∃ v : packedSample.Val, ∀ fs, writeFields packedSample v ≠ .ok fs := by
  have htwo : ((2 : ℕ) : Fr).val = 2 := val_natCast (b := 2) (by norm_num) (by norm_num)
  have hone : ((1 : ℕ) : Fr).val = 1 := val_natCast (b := 2) (by norm_num) (by norm_num)
  have hfour : ((4 : ℕ) : Fr).val = 4 := val_natCast (b := 3) (by norm_num) (by norm_num)
  have hne : (2 : Fr) ≠ 0 := fun h => by
    have hval := congrArg ZMod.val h
    rw [← Nat.cast_ofNat (R := Fr), htwo, ZMod.val_zero] at hval
    cases hval
  constructor
  · refine ⟨true, ?_, ?_⟩
    · simp only [fromFields, Impl.read, Reader.bool, Reader.field, Reader.next, bind, Except.bind,
        List.getElem?_cons_zero, hne, ne_eq, not_false_eq_true, decide_true]
    · intro h
      have h12 : (1 : Fr) = 2 := by
        simpa [writeFields, Impl.write, Writer.field, Impl.type, Ty.leaves, bind, Except.bind] using h
      have hval := congrArg ZMod.val h12
      rw [← Nat.cast_ofNat (R := Fr), htwo, ← Nat.cast_one, hone] at hval
      cases hval
  · refine ⟨((5 : BitVec 128), (255 : BitVec 8), (4 : Fr), (7 : Fr), ()), fun fs h => ?_⟩
    obtain ⟨w, hw, -⟩ := bind_eq_ok.mp h
    have hfit := fits_of_write packedSample _ _ w hw
    change FieldsFit (packedSample.plan 4) _ _ at hfit
    rw [packedSample_plan] at hfit
    have hkind : ZMod.val (n := Verifier.rModulus) (4 : Fr) < 2 ^ 2 := hfit.2.2.1
    rw [← Nat.cast_ofNat (R := Fr), hfour] at hkind
    omega

end Input

end XarkCircuit
