import XarkCircuit.Memory.Table

/-!
Values from bytes.

* `assemble_yields`: `assemble` always returns, and its value is the little-endian number of the
  values of the bytes: through selects by induction on the depth (each arm's bytes have a smaller
  `weight`), and for bytes kept as a wire by `value_of_isWire`.
* `slice_yields`: `slice` returns the bytes `off .. off + len` of a value.
-/

namespace XarkCircuit

namespace Memory

open Codec ByteMemory Succeeding

variable {ρ : ℕ → ℕ} {syms : Table}

/-- The number that the bytes are. -/
def cellsValue (vals : ℕ → ℕ) (cells : List Cell) : ℕ := fromBytesLe (cells.map (Cell.value vals))

/-- The byte refers to the symbol `i`. -/
def Cell.Refers (i : ℕ) (c : Cell) : Prop := ∃ sb, c.2 = some sb ∧ sb.sym = i

/-! ### The cases of `assemble` -/

lemma cellsValue_concrete {cells : List Cell} (h : cells.findSome? (fun c => c.2) = none)
    (vals : ℕ → ℕ) : cellsValue vals cells = fromBytesLe (cells.map fun c => c.1) := by
  refine congrArg fromBytesLe (List.map_congr_left fun c hc => ?_)
  obtain ⟨byte, sb⟩ := c
  have hsb : sb = none := List.findSome?_eq_none_iff.mp h _ hc
  rw [hsb, Cell.value]

lemma findIte_succeeds {cells : List Cell} (hcells : ∀ c ∈ cells, Cell.Within syms.length c) :
    Succeeds (findIte syms cells) fun r => ∀ i cond t e, r = some (i, cond, t, e) →
      syms[i]? = some (Sym.ite cond t e) ∧ ∃ c ∈ cells, Cell.Refers i c := by
  induction cells with
  | nil => exact .ok fun _ _ _ _ h => by cases h
  | cons c cells ih =>
      obtain ⟨byte, sb⟩ := c
      have hrest := (ih fun c hc => hcells c (List.mem_cons_of_mem _ hc)).mono fun r hr =>
        (fun i cond t e h =>
          let ⟨hget, c, hc, hsb⟩ := hr i cond t e h
          ⟨hget, c, List.mem_cons_of_mem _ hc, hsb⟩ :
        ∀ i cond t e, r = some (i, cond, t, e) → syms[i]? = some (Sym.ite cond t e) ∧
          ∃ c ∈ (byte, sb) :: cells, Cell.Refers i c)
      cases sb with
      | none => exact hrest
      | some sb =>
          rw [findIte]
          have hlt : sb.sym < syms.length := hcells _ List.mem_cons_self sb rfl
          refine (symAt_succeeds hlt).bind fun sym hget => ?_
          cases sym with
          | none => exact hrest
          | wire id width => exact hrest
          | bytes b => exact hrest
          | ite cond t e =>
              refine .ok fun i cond' t' e' h => ?_
              cases h
              exact ⟨hget, _, List.mem_cons_self, sb, rfl, rfl⟩

lemma cellWeight_le {n : ℕ} {c : Cell} (h : Cell.Within n c) : cellWeight c ≤ n := by
  obtain ⟨byte, sb⟩ := c
  cases sb with
  | none => exact Nat.zero_le _
  | some sb => exact h sb rfl

/-- `c'` is `c`, with the arm `x` in place of the select `i`. -/
structure ArmCell (syms : Table) (i : ℕ) (x : V) (c c' : Cell) : Prop where
  within : Cell.Within syms.length c'
  weight_le : cellWeight c' ≤ cellWeight c
  weight_lt : c.Refers i → cellWeight c' < cellWeight c
  value : ∀ ρ, Table.Fits ρ syms → x.value (Table.value ρ syms) = Table.value ρ syms i →
    c'.value (Table.value ρ syms) = c.value (Table.value ρ syms)

lemma ArmCell.refl {i : ℕ} {x : V} {c : Cell} (hc : Cell.Within syms.length c)
    (h : ¬ c.Refers i) : ArmCell syms i x c c :=
  ⟨hc, le_rfl, fun hr => absurd hr h, fun _ _ _ => rfl⟩

lemma armCell_succeeds (hwf : syms.Wf) {i : ℕ} {x : V} (hx : x.s < i) (hi : i < syms.length)
    {c : Cell} (hc : Cell.Within syms.length c) :
    Succeeds (armCell syms i x c) (ArmCell syms i x c) := by
  obtain ⟨byte, sb⟩ := c
  cases sb with
  | none =>
      refine .ok (.refl hc ?_)
      rintro ⟨sb, ⟨⟩, -⟩
  | some s =>
      rw [armCell]
      split_ifs with hs
      · refine (byteOf_succeeds hwf (hx.trans hi) s.k).mono fun c' hc' => ?_
        have hle : cellWeight c' ≤ i := (cellWeight_le hc'.1).trans hx
        have hself : cellWeight (byte, some s) = i + 1 := congrArg (· + 1) hs
        refine ⟨hc'.1.mono (by omega), by omega, fun _ => by omega, fun ρ hρ hval => ?_⟩
        rw [hc'.2 ρ hρ, hval, Cell.value, hs]
      · refine .ok (.refl hc ?_)
        rintro ⟨sb, ⟨⟩, h⟩
        exact hs h

/-- The bytes of an arm have the value of the select's where the select takes the arm, and less
weight. -/
lemma ArmCell.cells {i : ℕ} {x : V} {cells cells' : List Cell}
    (h : List.Forall₂ (ArmCell syms i x) cells cells') :
    (∀ c ∈ cells', Cell.Within syms.length c) ∧ weight cells' ≤ weight cells ∧
      ((∃ c ∈ cells, Cell.Refers i c) → weight cells' < weight cells) ∧
      ∀ ρ, Table.Fits ρ syms → x.value (Table.value ρ syms) = Table.value ρ syms i →
        cells'.map (Cell.value (Table.value ρ syms))
          = cells.map (Cell.value (Table.value ρ syms)) := by
  induction h with
  | nil => simp
  | @cons c c' cells cells' hc _ ih =>
      obtain ⟨hwithin, hle, hlt, hval⟩ := ih
      have hsplit : ∀ (d : Cell) ds, weight (d :: ds) = cellWeight d + weight ds := fun d ds => by
        rw [weight, List.map_cons, List.sum_cons, weight]
      have hcle := hc.weight_le
      refine ⟨List.forall_mem_cons.mpr ⟨hc.within, hwithin⟩, ?_, ?_, fun ρ hρ hx => ?_⟩
      · rw [hsplit, hsplit]
        omega
      · rintro ⟨d, hd, hrefers⟩
        rw [hsplit, hsplit]
        rcases List.mem_cons.mp hd with rfl | hd
        · have hclt := hc.weight_lt hrefers
          omega
        · have hrest := hlt ⟨d, hd, hrefers⟩
          omega
      · rw [List.map_cons, List.map_cons, hc.value ρ hρ hx, hval ρ hρ hx]

lemma arm_succeeds (hwf : syms.Wf) {i : ℕ} {x : V} (hx : x.s < i) (hi : i < syms.length)
    {cells : List Cell} (hcells : ∀ c ∈ cells, Cell.Within syms.length c) :
    Succeeds (cells.mapM (armCell syms i x)) (List.Forall₂ (ArmCell syms i x) cells) :=
  Succeeds.mapM fun c hc => armCell_succeeds hwf hx hi (hcells c hc)

/-! ### Wires -/

lemma inPlace_getElem {first : SymByte} {cells : List Cell} (h : inPlace first cells = true)
    {i : ℕ} (hi : i < cells.length) :
    (∀ s, cells[i].2 = some s → s.sym = first.sym ∧ s.k = i) ∧
      (cells[i].2 = none → cells[i].1 = 0) := by
  have hmem : (cells[i], i) ∈ cells.zipIdx := by
    rw [List.mem_zipIdx_iff_getElem?]
    exact List.getElem?_eq_getElem hi
  have hall := List.all_eq_true.mp h _ hmem
  constructor
  · intro s hs
    simpa [hs] using hall
  · intro hs
    simpa [hs] using hall

/-- Bytes kept as a wire have the value of the wire. -/
lemma isWire_succeeds (hwf : syms.Wf) {first : SymByte} (hfirst : first.sym < syms.length)
    (cells : List Cell) :
    Succeeds (isWire syms first cells) fun b => b = true → first.sym ≠ 0 ∧
      ∀ ρ, Table.Fits ρ syms →
        cellsValue (Table.value ρ syms) cells = Table.value ρ syms first.sym := by
  rw [isWire]
  split_ifs with hplace
  · refine (symAt_succeeds hfirst).bind fun sym hget => ?_
    cases sym with
    | none => exact .ok fun h => by cases h
    | ite cond t e => exact .ok fun h => by cases h
    | bytes b => exact .ok fun h => by cases h
    | wire id width =>
        refine .ok fun h => ⟨fun h0 => ?_, fun ρ hρ => ?_⟩
        · rw [h0, hwf.head] at hget
          cases hget
        rw [decide_eq_true_eq] at h
        obtain ⟨hneed, hsome⟩ := h
        have hx : Table.value ρ syms first.sym < 2 ^ width := by
          rw [Table.value_eq hwf hget]
          exact hρ _ _ _ hget
        have hsmall : ∀ k, divCeil8 width ≤ k → Table.value ρ syms first.sym < 256 ^ k := by
          intro k hk
          refine hx.trans_le (two_pow_le_256 ?_)
          rw [divCeil8] at hk
          omega
        have hbytes : cells.map (Cell.value (Table.value ρ syms))
            = (List.range cells.length).map (byteAt (Table.value ρ syms first.sym)) := by
          refine List.ext_getElem (by simp) fun i hi _ => ?_
          rw [List.getElem_map, List.getElem_map, List.getElem_range]
          rw [List.length_map] at hi
          obtain ⟨hin, hout⟩ := inPlace_getElem hplace.1 hi
          cases hsb : cells[i].2 with
          | some s =>
              have hcell : cells[i] = (cells[i].1, some s) := Prod.ext rfl hsb
              rw [hcell, Cell.value, (hin s hsb).1, (hin s hsb).2]
          | none =>
              have hcell : cells[i] = (0, none) := Prod.ext (hout hsb) hsb
              have hge : divCeil8 width ≤ i := by
                by_contra hlt
                have hi' : i < (cells.take (divCeil8 width)).length := by
                  rw [List.length_take]
                  omega
                have hmem : cells[i] ∈ cells.take (divCeil8 width) := by
                  have h1 := List.getElem_mem hi'
                  rwa [List.getElem_take] at h1
                have hisSome := List.all_eq_true.mp hsome _ hmem
                rw [hsb] at hisSome
                cases hisSome
              rw [hcell, Cell.value, byteAt_eq_zero (hsmall i hge)]
        rw [cellsValue, hbytes, fromBytesLe_byteAt]
        exact Nat.mod_eq_of_lt (hsmall _ hneed)
  · exact .ok fun h => by cases h

/-! ### `assemble` and `slice` -/

lemma cellsValue_grow {syms' : Table} (hpre : syms <+: syms') {cells : List Cell}
    (hcells : ∀ c ∈ cells, Cell.Within syms.length c) :
    cellsValue (Table.value ρ syms') cells = cellsValue (Table.value ρ syms) cells :=
  congrArg fromBytesLe (List.map_congr_left fun c hc => Cell.value_grow hpre (hcells c hc))

lemma bytes_yields (hwf : syms.Wf) {cells : List Cell}
    (hcells : ∀ c ∈ cells, Cell.Within syms.length c) :
    Yields syms (fun ρ => cellsValue (Table.value ρ syms) cells) (newSym syms (.bytes cells)) :=
  newSym_yields (s := .bytes cells) hwf hcells (by simp) (by simp)

/-- **`assemble`** returns the number that the bytes are. -/
theorem assembleFuel_yields {fuel : ℕ} (hwf : syms.Wf) {cells : List Cell}
    (hcells : ∀ c ∈ cells, Cell.Within syms.length c) (hlen : cells.length ≤ 8)
    (hfuel : weight cells < fuel) :
    Succeeds (assembleFuel fuel syms cells)
      (Yields syms fun ρ => cellsValue (Table.value ρ syms) cells) := by
  induction fuel generalizing syms cells with
  | zero => exact absurd hfuel (Nat.not_lt_zero _)
  | succ fuel ih =>
      rw [assembleFuel]
      cases hfirst : cells.findSome? fun c => c.2 with
      | none =>
          dsimp only
          rw [if_neg (by omega)]
          exact .ok ((yields_c hwf _).congr fun ρ _ => (cellsValue_concrete hfirst _).symm)
      | some first =>
          obtain ⟨c, hc, hcsb⟩ := List.exists_of_findSome?_eq_some hfirst
          have hlt : first.sym < syms.length := hcells c hc first hcsb
          refine (findIte_succeeds hcells).bind fun r hr => ?_
          cases r with
          | none =>
              refine (isWire_succeeds hwf hlt cells).bind fun b hb => ?_
              cases b with
              | false => exact .ok (bytes_yields hwf hcells)
              | true =>
                  obtain ⟨hne, hwire⟩ := hb rfl
                  have hsym : V.isSym ⟨0, first.sym⟩ = true := decide_eq_true hne
                  refine .ok ((Yields.refl hwf (v := ⟨0, first.sym⟩) hlt).congr fun ρ hρ => ?_)
                  rw [hwire ρ hρ, V.value, if_pos hsym]
          | some ite =>
              obtain ⟨i, cond, t, e⟩ := ite
              obtain ⟨hget, hrefers⟩ := hr i cond t e rfl
              obtain ⟨hti, hei⟩ : t.s < i ∧ e.s < i := hwf.within i _ hget
              obtain ⟨hi, -⟩ := List.getElem?_eq_some_iff.mp hget
              have hval : ∀ ρ, Table.value ρ syms i = if ρ cond ≠ 0
                  then t.value (Table.value ρ syms) else e.value (Table.value ρ syms) :=
                fun ρ => Table.value_eq hwf hget
              refine (arm_succeeds hwf hti hi hcells).bind fun tb htb => ?_
              refine (arm_succeeds hwf hei hi hcells).bind fun eb heb => ?_
              obtain ⟨htin, -, htlt, htval⟩ := ArmCell.cells htb
              obtain ⟨hein, -, helt, heval⟩ := ArmCell.cells heb
              have htlen := htb.length_eq
              have helen := heb.length_eq
              have htw := htlt hrefers
              have hew := helt hrefers
              refine (ih hwf htin (by omega) (by omega)).bind fun tr htr => ?_
              have hein' : ∀ c ∈ eb, Cell.Within tr.2.length c :=
                fun c hc => (hein c hc).mono htr.pre.length_le
              refine (ih htr.wf hein' (by omega) (by omega)).bind fun er her => ?_
              refine .ok ((htr.ite her cond).congr fun ρ hρ => ?_)
              rw [cellsValue_grow htr.pre hein]
              split_ifs with hcond
              · exact congrArg fromBytesLe (htval ρ hρ (by rw [hval, if_pos hcond]))
              · exact congrArg fromBytesLe (heval ρ hρ (by rw [hval, if_neg hcond]))

lemma assemble_yields (hwf : syms.Wf) {cells : List Cell}
    (hcells : ∀ c ∈ cells, Cell.Within syms.length c) (hlen : cells.length ≤ 8) :
    Succeeds (assemble syms cells)
      (Yields syms fun ρ => cellsValue (Table.value ρ syms) cells) :=
  assembleFuel_yields hwf hcells hlen (Nat.lt_succ_self _)

lemma byteAt_div (x off k : ℕ) : byteAt (x / 256 ^ off) k = byteAt x (off + k) := by
  rw [byteAt, byteAt, Nat.div_div_eq_div_mul, ← Nat.pow_add]

/-- Bytes `off .. off + len` of a number. -/
lemma cellsValue_of_bytes {vals : ℕ → ℕ} {cells : List Cell} {x off : ℕ}
    (h : ∀ i (hi : i < cells.length), cells[i].value vals = byteAt x (off + i)) :
    cellsValue vals cells = x / 256 ^ off % 256 ^ cells.length := by
  rw [cellsValue, ← fromBytesLe_byteAt]
  refine congrArg fromBytesLe (List.ext_getElem (by simp) fun i hi _ => ?_)
  rw [List.length_map] at hi
  rw [List.getElem_map, List.getElem_map, List.getElem_range, h i hi, byteAt_div]

/-- **`slice`** returns the bytes `off .. off + len` of a value. -/
theorem sliceFuel_yields {fuel : ℕ} (hwf : syms.Wf) {v : V} {off len : ℕ}
    (hv : v.s < syms.length) (hoff : off < 8) (hlen : len ≤ 8) (hfuel : v.s < fuel) :
    Succeeds (sliceFuel fuel syms v off len)
      (Yields syms fun ρ => v.value (Table.value ρ syms) / 256 ^ off % 256 ^ len) := by
  induction fuel generalizing syms v with
  | zero => exact absurd hfuel (Nat.not_lt_zero _)
  | succ fuel ih =>
      rw [sliceFuel]
      by_cases hsym : v.isSym = true
      · have hval : ∀ ρ, v.value (Table.value ρ syms) = Table.value ρ syms v.s :=
          fun ρ => by rw [V.value, if_pos hsym]
        simp only [hval]
        rw [if_pos hsym]
        refine (symAt_succeeds hv).bind fun sym hget => ?_
        cases sym with
        | none =>
            have h0 := hwf.placeholder _ hget
            simp [V.isSym, h0] at hsym
        | ite cond t e =>
            obtain ⟨ht, he⟩ : t.s < v.s ∧ e.s < v.s := hwf.within _ _ hget
            refine (ih hwf (ht.trans hv) (by omega)).bind fun tr htr => ?_
            have her := (he.trans hv).trans_le htr.pre.length_le
            refine (ih htr.wf her (by omega)).bind fun er her => ?_
            refine .ok ((htr.ite her cond).congr fun ρ _ => ?_)
            rw [V.value_grow htr.pre (he.trans hv), Table.value_eq hwf hget, Sym.value]
            split_ifs <;> rfl
        | wire id width =>
            have hx : ∀ ρ, Table.Fits ρ syms → Table.value ρ syms v.s < 2 ^ width := by
              intro ρ hρ
              rw [Table.value_eq hwf hget]
              exact hρ _ _ _ hget
            dsimp only
            split_ifs with hwhole hpast
            · refine .ok ((Yields.refl hwf hv).congr fun ρ hρ => ?_)
              rw [hval, hwhole.1, Nat.pow_zero, Nat.div_one, Nat.mod_eq_of_lt]
              exact (hx ρ hρ).trans_le (two_pow_le_256 hwhole.2)
            · refine .ok ((yields_c hwf 0).congr fun ρ hρ => ?_)
              rw [Nat.div_eq_of_lt ((hx ρ hρ).trans_le (two_pow_le_256 hpast)), Nat.zero_mod]
            · have hbytes := fun (i : ℕ) (_ : i ∈ List.range len) =>
                byteOf_succeeds hwf hv (off + i)
              refine (Succeeds.mapM hbytes).bind fun cells hcells => ?_
              obtain ⟨hclen, hget⟩ := List.forall₂_iff_get.mp hcells
              rw [List.length_range] at hclen
              have hin : ∀ c ∈ cells, Cell.Within syms.length c := by
                intro c hc
                obtain ⟨i, hi, rfl⟩ := List.getElem_of_mem hc
                exact (hget i (by simpa [hclen] using hi) hi).1.mono hv
              refine .ok ((bytes_yields hwf hin).congr fun ρ hρ => ?_)
              rw [hclen]
              refine cellsValue_of_bytes fun i hi => ?_
              have hi' := (hget i (by simpa [hclen] using hi) hi).2 ρ hρ
              simpa [hval] using hi'
        | bytes b =>
            have hb : ∀ k, Cell.Within syms.length (b.getD k (0, none)) := by
              intro k
              rcases Nat.lt_or_ge k b.length with hk | hk
              · rw [List.getD_eq_getElem _ _ hk]
                exact (hwf.within _ _ hget _ (List.getElem_mem hk)).mono hv.le
              · rw [List.getD_eq_default _ _ hk]
                rintro sb ⟨⟩
            have hin : ∀ c ∈ (List.range len).map fun i : ℕ => b.getD (off + i) (0, none),
                Cell.Within syms.length c := by
              intro c hc
              obtain ⟨i, -, rfl⟩ := List.mem_map.mp hc
              exact hb _
            refine (assemble_yields hwf hin (by simpa using hlen)).mono fun r hr =>
              hr.congr fun ρ hρ => ?_
            rw [Table.value_eq hwf hget, Sym.value]
            have hlen' : ((List.range len).map fun i : ℕ => b.getD (off + i) (0, none)).length
                = len := by simp
            refine (cellsValue_of_bytes fun i hi => ?_).trans (by rw [hlen'])
            rw [List.getElem_map, List.getElem_range, byteAt_fromBytesLe]
            exact (List.getD_map b (0, none) (Cell.value (Table.value ρ syms))).symm
      · rw [if_neg hsym, if_neg (by omega)]
        refine .ok ((yields_c hwf _).congr fun ρ _ => ?_)
        rw [V.value, if_neg hsym]
        split_ifs with h8
        · rw [show len = 8 by omega]
          rfl
        · rfl

end Memory

end XarkCircuit
