import XarkCircuit.Memory.Symbols

/-!
The table of symbols.

* `Table.Wf` says that a symbol refers to earlier ones only; then `Table.value_eq` computes its
  value from the values in the same table, and `Table.value_grow` says that a larger table has the
  same values.
* `Yields syms x r` is what the operations on tables guarantee: the table of `r` extends `syms`, and
  the value of `r` is `x`. `newSym_yields` and `ite_yields` are its introductions, `Yields.ite`
  its composition.
-/

namespace XarkCircuit

namespace Memory

open Codec ByteMemory Succeeding

variable {ρ vals vals' : ℕ → ℕ} {syms syms' : Table} {n : ℕ}

/-- The byte refers to a symbol below `n`, if to any. -/
def Cell.Within (n : ℕ) (c : Cell) : Prop := ∀ sb, c.2 = some sb → sb.sym < n

/-- The symbol refers to symbols below `n`. -/
def Sym.Within (n : ℕ) : Sym → Prop
  | .none => True
  | .wire _ _ => True
  | .ite _ t e => t.s < n ∧ e.s < n
  | .bytes cells => ∀ c ∈ cells, Cell.Within n c

/-- Symbols refer to earlier ones, and the first, and no other, is the placeholder. -/
structure Table.Wf (syms : Table) : Prop where
  head : syms[0]? = some Sym.none
  within : ∀ i (s : Sym), syms[i]? = some s → s.Within i
  placeholder : ∀ i : ℕ, syms[i]? = some Sym.none → i = 0

lemma Table.Wf.pos {syms : Table} (hwf : syms.Wf) : 0 < syms.length :=
  (List.getElem?_eq_some_iff.mp hwf.head).1

/-- Each wire's value has the wire's width. -/
def Table.Fits (ρ : ℕ → ℕ) (syms : Table) : Prop :=
  ∀ i id width : ℕ, syms[i]? = some (Sym.wire id width) → ρ id < 2 ^ width

lemma Table.Fits.shrink (hfits : Table.Fits ρ syms') (hpre : syms <+: syms') :
    Table.Fits ρ syms := by
  obtain ⟨more, rfl⟩ := hpre
  intro i id width h
  have hi : i < syms.length := by
    by_contra hge
    rw [List.getElem?_eq_none (by omega)] at h
    cases h
  exact hfits i id width (by rw [List.getElem?_append_left hi, h])

/-! ### Values -/

lemma V.value_congr {v : V} (hv : v.s < n) (h : ∀ i < n, vals i = vals' i) :
    v.value vals = v.value vals' := by
  rw [V.value, V.value, h v.s hv]

lemma Cell.value_congr {c : Cell} (hc : c.Within n) (h : ∀ i < n, vals i = vals' i) :
    c.value vals = c.value vals' := by
  obtain ⟨byte, sb⟩ := c
  cases sb with
  | none => rfl
  | some sb => rw [Cell.value, Cell.value, h sb.sym (hc sb rfl)]

lemma Sym.value_congr {s : Sym} (hs : s.Within n) (h : ∀ i < n, vals i = vals' i) :
    s.value ρ vals = s.value ρ vals' := by
  cases s with
  | none => rfl
  | wire id width => rfl
  | ite cond t e => rw [Sym.value, Sym.value, V.value_congr hs.1 h, V.value_congr hs.2 h]
  | bytes cells =>
      rw [Sym.value, Sym.value]
      exact congrArg fromBytesLe (List.map_congr_left fun c hc => Cell.value_congr (hs c hc) h)

@[simp] lemma Table.length_values (ρ : ℕ → ℕ) (syms : Table) :
    (Table.values ρ syms).length = syms.length := by
  induction syms using List.reverseRecOn with
  | nil => rfl
  | append_singleton syms s ih =>
      rw [Table.values, List.foldl_append, List.foldl_cons, List.foldl_nil, List.length_append,
        List.length_append]
      exact congrArg (· + 1) ih

lemma Table.values_append_singleton (ρ : ℕ → ℕ) (syms : Table) (s : Sym) :
    Table.values ρ (syms ++ [s]) = Table.values ρ syms ++ [s.value ρ (Table.value ρ syms)] := by
  rw [Table.values, List.foldl_append, List.foldl_cons, List.foldl_nil]
  rfl

lemma Table.values_append (ρ : ℕ → ℕ) (syms more : Table) :
    Table.values ρ syms <+: Table.values ρ (syms ++ more) := by
  induction more using List.reverseRecOn with
  | nil => rw [List.append_nil]
  | append_singleton more s ih =>
      rw [← List.append_assoc, Table.values_append_singleton]
      exact ih.trans (List.prefix_append _ _)

/-- A table that grows keeps its values. -/
lemma Table.value_grow (hpre : syms <+: syms') {i : ℕ} (hi : i < syms.length) :
    Table.value ρ syms' i = Table.value ρ syms i := by
  obtain ⟨more, rfl⟩ := hpre
  obtain ⟨vs, hvs⟩ := Table.values_append ρ syms more
  rw [Table.value, Table.value, ← hvs, List.getD_append _ _ _ _ (by simpa using hi)]

/-- The value of a symbol, from the values of the table it is in. -/
lemma Table.value_eq (hwf : syms.Wf) {i : ℕ} {s : Sym} (h : syms[i]? = some s) :
    Table.value ρ syms i = s.value ρ (Table.value ρ syms) := by
  obtain ⟨hi, rfl⟩ := List.getElem?_eq_some_iff.mp h
  have hsplit : syms.take i ++ [syms[i]] <+: syms := by
    rw [← List.take_succ_eq_append_getElem hi]
    exact List.take_prefix _ _
  have hlen : (syms.take i).length = i := by simp [hi.le]
  have hlast : Table.value ρ (syms.take i ++ [syms[i]]) i
      = syms[i].value ρ (Table.value ρ (syms.take i)) := by
    rw [Table.value, Table.values_append_singleton, List.getD_append_right _ _ _ _ (by simp)]
    simp [hi.le]
  rw [Table.value_grow hsplit (by simp [hi]), hlast]
  have htake : syms.take i <+: syms := List.take_prefix i syms
  refine Sym.value_congr (hwf.within i _ h) fun j hj => ?_
  exact (Table.value_grow htake (by omega)).symm

lemma V.value_grow (hpre : syms <+: syms') {v : V} (hv : v.s < syms.length) :
    v.value (Table.value ρ syms') = v.value (Table.value ρ syms) :=
  V.value_congr hv fun _ hi => Table.value_grow hpre hi

lemma Cell.value_grow (hpre : syms <+: syms') {c : Cell} (hc : c.Within syms.length) :
    c.value (Table.value ρ syms') = c.value (Table.value ρ syms) :=
  Cell.value_congr hc fun _ hi => Table.value_grow hpre hi

lemma Cell.Within.mono {c : Cell} {m : ℕ} (hc : c.Within n) (h : n ≤ m) : c.Within m :=
  fun sb hsb => (hc sb hsb).trans_le h

/-! ### What the operations on tables guarantee -/

/-- A larger table, and a value with the value `x`. -/
structure Yields (syms : Table) (x : (ℕ → ℕ) → ℕ) (r : V × Table) : Prop where
  pre : syms <+: r.2
  wf : Table.Wf r.2
  within : r.1.s < r.2.length
  /-- No wires are new. -/
  fits : ∀ ρ, Table.Fits ρ syms → Table.Fits ρ r.2
  value : ∀ ρ, Table.Fits ρ syms → r.1.value (Table.value ρ r.2) = x ρ

lemma Yields.congr {x y : (ℕ → ℕ) → ℕ} {r : V × Table} (h : Yields syms x r)
    (hxy : ∀ ρ, Table.Fits ρ syms → x ρ = y ρ) : Yields syms y r :=
  ⟨h.pre, h.wf, h.within, h.fits, fun ρ hρ => (h.value ρ hρ).trans (hxy ρ hρ)⟩

/-- A value of the table as it is. -/
lemma Yields.refl (hwf : syms.Wf) {v : V} (hv : v.s < syms.length) :
    Yields syms (fun ρ => v.value (Table.value ρ syms)) (v, syms) :=
  ⟨List.prefix_rfl, hwf, hv, fun _ h => h, fun _ _ => rfl⟩

lemma yields_c (hwf : syms.Wf) (b : ℕ) : Yields syms (fun _ => b) (V.c b, syms) :=
  ⟨List.prefix_rfl, hwf, hwf.pos, fun _ h => h, fun _ _ => rfl⟩

lemma getElem?_concat {s s' : Sym} {i : ℕ} (h : (syms ++ [s])[i]? = some s') :
    syms[i]? = some s' ∨ (i = syms.length ∧ s' = s) := by
  rcases Nat.lt_or_ge i syms.length with hi | hi
  · rw [List.getElem?_append_left hi] at h
    exact .inl h
  · rw [List.getElem?_append_right hi] at h
    obtain ⟨hlt, heq⟩ := List.getElem?_eq_some_iff.mp h
    rw [List.length_singleton] at hlt
    exact .inr ⟨by omega, by rw [← heq]; simp⟩

lemma Table.Wf.concat (hwf : syms.Wf) {s : Sym} (hs : s.Within syms.length) (hne : s ≠ .none) :
    Table.Wf (syms ++ [s]) := by
  refine ⟨?_, fun i s' h => ?_, fun i h => ?_⟩
  · rw [List.getElem?_append_left hwf.pos, hwf.head]
  · rcases getElem?_concat h with h | ⟨rfl, rfl⟩
    · exact hwf.within i s' h
    · exact hs
  · rcases getElem?_concat h with h | ⟨-, h⟩
    · exact hwf.placeholder i h
    · exact absurd h.symm hne

/-- A new symbol that is no wire has the value that it stands for. -/
lemma newSym_yields (hwf : syms.Wf) {s : Sym} (hs : s.Within syms.length) (hne : s ≠ .none)
    (hwire : ∀ id width, s ≠ .wire id width) :
    Yields syms (fun ρ => s.value ρ (Table.value ρ syms)) (newSym syms s) := by
  have hpre : syms <+: syms ++ [s] := List.prefix_append _ _
  have hget : (syms ++ [s])[syms.length]? = some s := by simp
  have hwf' := hwf.concat hs hne
  refine ⟨hpre, hwf', by simp [newSym], fun ρ hρ i id width h => ?_, fun ρ _ => ?_⟩
  · rcases getElem?_concat h with h | ⟨-, h⟩
    · exact hρ i id width h
    · exact absurd h.symm (hwire id width)
  · have hsym : V.isSym ⟨0, syms.length⟩ = true := decide_eq_true hwf.pos.ne'
    rw [newSym, V.value, if_pos hsym, Table.value_eq hwf' hget]
    exact Sym.value_congr hs fun _ hi => Table.value_grow hpre hi

/-- `ite` has the value of the arm that the condition takes. -/
lemma ite_yields (hwf : syms.Wf) {t e : V} (ht : t.s < syms.length) (he : e.s < syms.length)
    (cond : ℕ) :
    Yields syms (fun ρ => if ρ cond ≠ 0 then t.value (Table.value ρ syms)
      else e.value (Table.value ρ syms)) (ite syms cond t e) := by
  rw [ite]
  split_ifs with hte
  · exact (Yields.refl hwf ht).congr fun ρ _ => by rw [hte, ite_self]
  · exact newSym_yields (s := .ite cond t e) hwf ⟨ht, he⟩ (by simp) (by simp)

/-- A select of what is made one after the other. -/
lemma Yields.ite {x y : (ℕ → ℕ) → ℕ} {tr er : V × Table} (ht : Yields syms x tr)
    (he : Yields tr.2 y er) (cond : ℕ) :
    Yields syms (fun ρ => if ρ cond ≠ 0 then x ρ else y ρ) (Memory.ite er.2 cond tr.1 er.1) := by
  have htlt : tr.1.s < er.2.length := ht.within.trans_le he.pre.length_le
  have hr := ite_yields he.wf htlt he.within cond
  have hfits : ∀ ρ, Table.Fits ρ syms → Table.Fits ρ er.2 := fun ρ hρ => he.fits ρ (ht.fits ρ hρ)
  refine ⟨(ht.pre.trans he.pre).trans hr.pre, hr.wf, hr.within,
    fun ρ hρ => hr.fits ρ (hfits ρ hρ), fun ρ hρ => ?_⟩
  rw [hr.value ρ (hfits ρ hρ), V.value_grow he.pre ht.within, ht.value ρ hρ,
    he.value ρ (ht.fits ρ hρ)]

/-! ### Bytes of values -/

lemma symAt_succeeds {s : ℕ} (hs : s < syms.length) :
    Succeeds (symAt syms s) fun sym => syms[s]? = some sym := by
  refine ⟨syms[s], ?_, List.getElem?_eq_getElem hs⟩
  rw [symAt, List.getElem?_eq_getElem hs]

lemma two_pow_le_256 {width k : ℕ} (h : width ≤ 8 * k) : 2 ^ width ≤ 256 ^ k := by
  rw [show 256 = 2 ^ 8 by norm_num, ← Nat.pow_mul]
  exact Nat.pow_le_pow_right (by norm_num) h

/-- `byte_of` gives the byte, of the symbol itself or of earlier ones. -/
lemma byteOf_succeeds (hwf : syms.Wf) {v : V} (hv : v.s < syms.length) (k : ℕ) :
    Succeeds (byteOf syms v k) fun c => Cell.Within (v.s + 1) c ∧
      ∀ ρ, Table.Fits ρ syms →
        Cell.value (Table.value ρ syms) c = byteAt (v.value (Table.value ρ syms)) k := by
  have hself : ∀ byte, Cell.Within (v.s + 1) (byte, some ⟨v.s, k⟩) := by
    rintro byte sb ⟨⟩
    exact Nat.lt_succ_self _
  have hnone : ∀ byte, Cell.Within (v.s + 1) (byte, none) := by
    rintro byte sb ⟨⟩
  rw [byteOf]
  split_ifs with hsym
  · have hval : ∀ ρ, v.value (Table.value ρ syms) = Table.value ρ syms v.s :=
      fun ρ => by rw [V.value, if_pos hsym]
    refine (symAt_succeeds hv).bind fun sym hget => ?_
    cases sym with
    | none => exact .ok ⟨hself 0, fun ρ _ => by rw [hval]; rfl⟩
    | ite cond t e => exact .ok ⟨hself 0, fun ρ _ => by rw [hval]; rfl⟩
    | wire id width =>
        refine .ok ?_
        split_ifs with hw
        · refine ⟨hnone 0, fun ρ hρ => ?_⟩
          rw [hval, Table.value_eq hwf hget]
          exact (byteAt_eq_zero ((hρ _ _ _ hget).trans_le (two_pow_le_256 (by omega)))).symm
        · exact ⟨hself 0, fun ρ _ => by rw [hval]; rfl⟩
    | bytes b =>
        refine .ok ⟨?_, fun ρ _ => ?_⟩
        · rcases Nat.lt_or_ge k b.length with hk | hk
          · rw [List.getD_eq_getElem _ _ hk]
            exact (hwf.within _ _ hget _ (List.getElem_mem hk)).mono (Nat.le_succ _)
          · rw [List.getD_eq_default _ _ hk]
            exact hnone 0
        · rw [hval, Table.value_eq hwf hget, Sym.value, byteAt_fromBytesLe]
          exact (List.getD_map b (0, none) (Cell.value (Table.value ρ syms))).symm
  · refine .ok ⟨hnone _, fun ρ _ => ?_⟩
    rw [V.value, if_neg hsym]
    rfl

end Memory

end XarkCircuit
