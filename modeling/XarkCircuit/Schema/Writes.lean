import XarkCircuit.Lib.Succeeds
import XarkCircuit.Schema.Coded

/-!
Writing a value.

* `Puts write fs`: the writer appends the leaves `fs`, wherever it is, if the slice has room.
* `coded_puts`: a coded value is written as its leaves. In a struct, the accumulator holds the low
  bits of the element, up to the place of the next field (`fieldsWrite_puts`).
-/

namespace XarkCircuit

namespace Input

open Succeeding

/-- Induction over a type: the hypotheses are those of the types in it. -/
@[elab_as_elim]
theorem Impl.ind {P : Impl → Prop} (field : P .field) (uint : ∀ w, P (.uint w)) (u128 : P .u128)
    (int : ∀ w, P (.int w)) (i128 : P .i128) (bool : P .bool)
    (array : ∀ t n, P t → P (.array t n)) (tuple : ∀ ts, (∀ t ∈ ts, P t) → P (.tuple ts))
    (struct : ∀ name ms enc, (∀ m ∈ ms, P m.ty) → P (.struct name ms enc)) (text : P .text)
    (choice : ∀ v, P (.choice v)) (bitfield : ∀ v, P (.bitfield v)) (timestamp : P .timestamp)
    (time : ∀ t, P (.time t)) : ∀ t, P t
  | .field => field
  | .uint w => uint w
  | .u128 => u128
  | .int w => int w
  | .i128 => i128
  | .bool => bool
  | .array t n => array t n (Impl.ind field uint u128 int i128 bool array tuple struct text choice
      bitfield timestamp time t)
  | .tuple ts => tuple ts fun t _ => Impl.ind field uint u128 int i128 bool array tuple struct text
      choice bitfield timestamp time t
  | .struct name ms enc => struct name ms enc fun m _ => Impl.ind field uint u128 int i128 bool array
      tuple struct text choice bitfield timestamp time m.ty
  | .text => text
  | .choice v => choice v
  | .bitfield v => bitfield v
  | .timestamp => timestamp
  | .time t => time t
termination_by t => sizeOf t
decreasing_by
  · simp_wf
    omega
  · have hmem := List.sizeOf_lt_of_mem ‹t ∈ ts›
    simp_wf
    omega
  · have hmem := List.sizeOf_lt_of_mem ‹m ∈ ms›
    have hm : sizeOf m.ty < sizeOf m := by
      obtain ⟨_, _, _⟩ := m
      simp
    simp_wf
    omega

/-! ### Sequences -/

/-- The writer appends the leaves `fs`. -/
def Puts (write : Writing) (fs : List Fr) : Prop :=
  ∀ w : Writer, w.out.length + fs.length ≤ w.len →
    Succeeds (write w) fun w' => w'.len = w.len ∧ w'.out = w.out ++ fs

lemma puts_nil : Puts (fun w => .ok w) [] := fun _ _ => .ok ⟨rfl, (List.append_nil _).symm⟩

lemma puts_field (f : Fr) : Puts (Writer.field f) [f] := by
  intro w hroom
  rw [List.length_singleton] at hroom
  rw [Writer.field, if_pos (by omega)]
  exact .ok ⟨rfl, rfl⟩

lemma Puts.append {write write' : Writing} {a b : List Fr} (h : Puts write a)
    (h' : Puts write' b) : Puts (fun w => do write' (← write w)) (a ++ b) := by
  intro w hroom
  rw [List.length_append] at hroom
  refine (h w (by omega)).bind fun w₁ ⟨hlen₁, hout₁⟩ => ?_
  refine (h' w₁ (by rw [hout₁, hlen₁, List.length_append]; omega)).mono fun w₂ ⟨hlen₂, hout₂⟩ => ?_
  exact ⟨hlen₂.trans hlen₁, by rw [hout₂, hout₁, List.append_assoc]⟩

lemma puts_writeArray {α : Type} {write : α → Writing} {n : ℕ} {v : Fin n → α}
    {parts : Fin n → List Fr} (h : ∀ i, Puts (write (v i)) (parts i)) :
    Puts (writeArray write n v) (List.ofFn parts).flatten := by
  induction n with
  | zero => exact puts_nil
  | succ n ih =>
      rw [List.ofFn_succ', List.concat_eq_append, List.flatten_append, List.flatten_singleton]
      exact (ih fun i => h i.castSucc).append (h (Fin.last n))

lemma puts_tupleWrite {ts : List Impl}
    (ih : ∀ t ∈ ts, ∀ v fs, Coded t v fs → Puts (t.write v) fs) {vs : TupleVal ts} {fs : List Fr}
    (h : TupleCoded ts vs fs) : Puts (tupleWrite ts vs) fs := by
  induction ts generalizing fs with
  | nil =>
      have hfs : fs = [] := h
      exact hfs ▸ puts_nil
  | cons t ts iht =>
      obtain ⟨v, vs⟩ := vs
      obtain ⟨a, b, rfl, ha, hb⟩ := h
      have hrest := iht (fun t ht => ih t (List.mem_cons_of_mem _ ht)) hb
      exact (ih t List.mem_cons_self v a ha).append hrest

/-! ### Structs -/

/-- The bits below the next place: those before, and the field's. -/
lemma acc_add_slice (g offset bits : ℕ) :
    ((g % 2 ^ offset : ℕ) : Fr) + sliceBits g offset bits * 2 ^ offset
      = ((g % 2 ^ (offset + bits) : ℕ) : Fr) := by
  rw [Nat.pow_add, Nat.mod_mul, sliceBits]
  push_cast
  ring

/-- One packed field: the accumulator grows by the field's bits, and is written if they are the
last. -/
lemma member_packed {mid : Option (ℕ × ℕ)} {p : Pack} (hp : Place mid p) {write : Writing} {g : ℕ}
    (hg : g < 2 ^ p.total) (hput : Puts write [sliceBits g p.offset p.bits]) {w : Writer}
    (hacc : p.offset ≠ 0 → w.acc = ((g % 2 ^ p.offset : ℕ) : Fr))
    (hroom : w.out.length + 1 ≤ w.len) :
    Writer.member p write w = .ok ⟨w.len, w.out ++ (if p.last then [(g : Fr)] else []),
      ((g % 2 ^ (p.offset + p.bits) : ℕ) : Fr)⟩ := by
  have hbits : p.bits ≤ 253 := by
    have hle := hp.le
    have htotal := hp.total_le
    omega
  obtain ⟨one, hone, -, hout⟩ := hput ⟨1, [], 0⟩ le_rfl
  have hsum : (if p.offset = 0 then 0 else w.acc) + sliceBits g p.offset p.bits * 2 ^ p.offset
      = ((g % 2 ^ (p.offset + p.bits) : ℕ) : Fr) := by
    rw [← acc_add_slice]
    split_ifs with h0
    · rw [h0, Nat.pow_zero, Nat.mod_one, Nat.cast_zero]
    · rw [hacc h0]
  rw [Writer.member, if_neg (by simp [hp.packed]), hone]
  simp only [hout, List.nil_append, bind, Except.bind]
  rw [if_pos (by rw [val_sliceBits _ _ hbits]; exact Nat.mod_lt _ (Nat.two_pow_pos _)), hsum]
  split_ifs with hlast
  · have hfull : p.offset + p.bits = p.total := by
      rw [hp.last, decide_eq_true_iff] at hlast
      exact hlast
    rw [Writer.field, if_pos (by dsimp only; omega), hfull, Nat.mod_eq_of_lt hg]
  · rw [List.append_nil]

/-- The element that is not finished yet. -/
def pending : Option (ℕ × ℕ) → ℕ → List Fr
  | none, _ => []
  | some _, g => [(g : Fr)]

/-- Where a packed field's element comes from. -/
def Loads (p : Pack) (g g' : ℕ) (fs fs' : List Fr) : Prop :=
  if p.offset = 0 then ∃ f : Fr, f.val < 2 ^ p.total ∧ g' = f.val ∧ fs = f :: fs'
  else g' = g ∧ fs' = fs

lemma fieldsCoded_packed {mid : Option (ℕ × ℕ)} {p : Pack} (hp : Place mid p) {plan : List Pack}
    {name : String} {t : Impl} {pack : Bool} {ms : List (Member Impl)} {v : t.Val}
    {vs : FieldsVal ms} {g : ℕ} {fs : List Fr} :
    FieldsCoded (p :: plan) (⟨name, t, pack⟩ :: ms) (v, vs) g fs ↔ ∃ g' fs', Loads p g g' fs fs' ∧
      Coded t v [sliceBits g' p.offset p.bits] ∧ FieldsCoded plan ms vs g' fs' := by
  rw [FieldsCoded]
  simp only [List.head?_cons, Option.getD_some, hp.packed, if_true, List.tail_cons, Loads]
  rfl

/-- The element a packed field is in, and the leaves after it. -/
lemma Place.split {mid : Option (ℕ × ℕ)} {p : Pack} (hp : Place mid p) {g g' : ℕ} {fs fs' : List Fr}
    (hg : ∀ o total, mid = some (o, total) → g < 2 ^ total)
    (h : Loads p g g' fs fs') :
    pending mid g ++ fs = (g' : Fr) :: fs' ∧ g' < 2 ^ p.total ∧
      (p.offset ≠ 0 → mid = some (p.offset, p.total) ∧ g' = g) := by
  have hoff := hp.offset
  rw [Loads] at h
  cases mid with
  | none =>
      have h0 : p.offset = 0 := by simpa using hoff
      rw [if_pos h0] at h
      obtain ⟨f, hlt, rfl, rfl⟩ := h
      refine ⟨?_, hlt, fun hne => absurd h0 hne⟩
      rw [pending, List.nil_append, ZMod.natCast_zmod_val]
  | some place =>
      obtain ⟨o, total⟩ := place
      obtain ⟨hpos, rfl⟩ := hp.mid_pos o total rfl
      have ho : p.offset = o := by simpa using hoff
      rw [if_neg (by omega)] at h
      obtain ⟨rfl, rfl⟩ := h
      exact ⟨rfl, hg o p.total rfl, fun _ => ⟨by rw [ho], rfl⟩⟩

/-- Writing from the middle of an element: the accumulator has the bits below the next place. -/
def FieldsPut (mid : Option (ℕ × ℕ)) (g : ℕ) (write : Writing) (fs : List Fr) : Prop :=
  ∀ w : Writer, (∀ o total, mid = some (o, total) → w.acc = ((g % 2 ^ o : ℕ) : Fr)) →
    w.out.length + (pending mid g ++ fs).length ≤ w.len →
    Succeeds (write w) fun w' => w'.len = w.len ∧ w'.out = w.out ++ (pending mid g ++ fs)

lemma fieldsWrite_puts {mid : Option (ℕ × ℕ)} {plan : List Pack} {ms : List (Member Impl)}
    (hplan : Planned mid plan ms)
    (ih : ∀ m ∈ ms, ∀ v fs, Coded m.ty v fs → Puts (m.ty.write v) fs) {vs : FieldsVal ms} {g : ℕ}
    {fs : List Fr} (h : FieldsCoded plan ms vs g fs)
    (hg : ∀ o total, mid = some (o, total) → g < 2 ^ total) :
    FieldsPut mid g (fieldsWrite plan ms vs) fs := by
  induction hplan generalizing g fs with
  | nil plan =>
      have hfs : fs = [] := h
      subst hfs
      exact fun w _ _ => .ok ⟨rfl, (List.append_nil _).symm⟩
  | @alone p plan m ms hp _ ihp =>
      obtain ⟨name, t, pack⟩ := m
      obtain ⟨v, vs⟩ := vs
      have h' : ∃ a b, fs = a ++ b ∧ Coded t v a ∧ FieldsCoded plan ms vs g b := by
        simpa [FieldsCoded, hp] using h
      obtain ⟨a, b, rfl, ha, hb⟩ := h'
      have hrest := ihp (fun m hm => ih m (List.mem_cons_of_mem _ hm)) hb (fun _ _ h => by cases h)
      have hmember : Puts (Writer.member p (t.write v)) a := fun w hroom => by
        rw [Writer.member, if_pos (by simp [hp])]
        exact ih _ List.mem_cons_self v a ha w hroom
      have hput : Puts (fieldsWrite plan ms vs) b := fun w hroom =>
        hrest w (fun _ _ h => by cases h) hroom
      exact fun w _ hroom => hmember.append hput w hroom
  | @packed mid p plan m ms hp hbits _ ihp =>
      obtain ⟨name, t, pack⟩ := m
      obtain ⟨v, vs⟩ := vs
      obtain ⟨g', fs', hload, hv, hvs⟩ := (fieldsCoded_packed hp).mp h
      obtain ⟨hsplit, hlt, hmid⟩ := hp.split hg hload
      have hrest := ihp (fun m hm => ih m (List.mem_cons_of_mem _ hm)) hvs fun o total hnext => by
        rw [Pack.next] at hnext
        split_ifs at hnext
        obtain ⟨-, rfl⟩ := Prod.mk.inj (Option.some.inj hnext)
        exact hlt
      intro w hacc hroom
      rw [hsplit, List.length_cons] at hroom
      have hmember := member_packed hp hlt (ih _ List.mem_cons_self v _ hv) (w := w)
        (fun hne => by rw [hacc _ _ (hmid hne).1, (hmid hne).2]) (by omega)
      rw [hsplit]
      rw [fieldsWrite]
      simp only [List.head?_cons, Option.getD_some, List.tail_cons]
      rw [hmember]
      by_cases hlast : p.last = true
      · have hnext : p.next = none := by rw [Pack.next, if_pos hlast]
        rw [hnext] at hrest
        rw [if_pos hlast]
        refine (hrest _ (fun _ _ h => by cases h) ?_).mono fun w' h => ⟨h.1, ?_⟩
        · simp only [pending, List.nil_append, List.length_append, List.length_singleton]
          omega
        · rw [h.2, pending, List.nil_append, List.append_assoc, List.singleton_append]
      · have hnext : p.next = some (p.offset + p.bits, p.total) := by rw [Pack.next, if_neg hlast]
        rw [hnext] at hrest
        rw [if_neg hlast, List.append_nil]
        refine (hrest _ (fun o total h => ?_) ?_).mono fun w' h => ⟨h.1, ?_⟩
        · obtain ⟨rfl, -⟩ := Prod.mk.inj (Option.some.inj h)
          rfl
        · simp only [pending, List.singleton_append, List.length_cons]
          omega
        · rw [h.2, pending, List.singleton_append]

/-- A coded value is written as its leaves. -/
theorem coded_puts (t : Impl) : ∀ v fs, Coded t v fs → Puts (t.write v) fs := by
  induction t using Impl.ind with
  | field => exact fun v fs h => (h : fs = _) ▸ puts_field _
  | uint w => exact fun v fs h => (h : fs = _) ▸ puts_field _
  | u128 => exact fun v fs h => (h : fs = _) ▸ puts_field _
  | int w => exact fun v fs h => (h : fs = _) ▸ puts_field _
  | i128 => exact fun v fs h => (h : fs = _) ▸ puts_field _
  | bool => exact fun v fs h => (h : fs = _) ▸ puts_field _
  | array t n ih =>
      rintro v fs ⟨parts, hparts, rfl⟩
      exact puts_writeArray fun i => ih (v i) (parts i) (hparts i)
  | tuple ts ih => exact fun vs fs h => puts_tupleWrite ih h
  | struct name ms enc ih =>
      intro vs fs h w hroom
      exact fieldsWrite_puts (planned_struct name ms enc) ih h (fun _ _ h => by cases h) w
        (fun _ _ h => by cases h) hroom
  | text => exact fun v fs h => (h : fs = _) ▸ puts_field _
  | choice v => exact fun v fs h => (h : fs = _) ▸ puts_field _
  | bitfield v => exact fun v fs h => (h : fs = _) ▸ puts_field _
  | timestamp => exact fun v fs h => (h : fs = _) ▸ puts_field _
  | time t => exact fun v fs h => (h : fs = _) ▸ puts_field _

end Input

end XarkCircuit
