import XarkCircuit.Memory.Machine
import XarkCircuit.Memory.Table

/-!
The symbolic bytes and their counts.

* `Machine.Exact`: each granule's count is the number of its symbolic bytes. `setShadow_eq` and
  `clearShadow_eq` compute the two writers of the symbolic content under it; both keep it.
* `hasShadow_succeeds`: under `Exact`, the gate of the fast paths misses no symbolic byte.
-/

namespace XarkCircuit

namespace Memory

open ByteMemory Succeeding

variable {m : Machine}

/-- The number of symbolic bytes of each granule. -/
def granOf (shadow : ℕ → Option SymByte) : ℕ → ℕ := granule 8 fun a => (shadow a).isSome

/-- The counts are the numbers of symbolic bytes. -/
def Machine.Exact (m : Machine) : Prop := m.gran = granOf m.shadow

/-- The machine with another symbolic content, exactly counted. -/
def Machine.withShadow (m : Machine) (shadow : ℕ → Option SymByte) : Machine :=
  { m with shadow := shadow, gran := granOf shadow }

lemma Machine.exact_withShadow (m : Machine) (shadow : ℕ → Option SymByte) :
    (m.withShadow shadow).Exact := rfl

@[simp] lemma Machine.withShadow_withShadow (m : Machine) (s t : ℕ → Option SymByte) :
    (m.withShadow s).withShadow t = m.withShadow t := rfl

lemma Machine.Exact.withShadow_self (hex : m.Exact) : m.withShadow m.shadow = m := by
  cases m
  rw [Machine.withShadow, ← hex]

lemma Machine.Exact.none_of_gran (hex : m.Exact) {a : ℕ} (h : m.gran (a / 8) = 0) :
    m.shadow a = none := by
  rw [hex] at h
  by_contra hne
  exact granule_pos (p := fun a => (m.shadow a).isSome) (by norm_num)
    (Option.isSome_iff_ne_none.mpr hne) h

lemma isSome_update (shadow : ℕ → Option SymByte) (a : ℕ) (sb : Option SymByte) :
    (fun x => (Function.update shadow a sb x).isSome)
      = Function.update (fun x => (shadow x).isSome) a sb.isSome := by
  funext x
  by_cases hx : x = a
  · subst hx
    rw [Function.update_self, Function.update_self]
  · rw [Function.update_of_ne hx, Function.update_of_ne hx]

/-- A write to one byte changes the count of its granule only. -/
lemma granOf_update (shadow : ℕ → Option SymByte) (a : ℕ) (sb : Option SymByte) :
    granOf (Function.update shadow a sb) =
      Function.update (granOf shadow) (a / 8)
        (granOf (Function.update shadow a sb) (a / 8)) := by
  funext g
  by_cases hg : g = a / 8
  · rw [hg, Function.update_self]
  · rw [Function.update_of_ne hg, granOf, granOf, isSome_update]
    exact granule_update_of_ne _ (Ne.symm hg)

/-- **`set_shadow`** writes the byte's content and keeps the counts exact. -/
theorem setShadow_eq (hex : m.Exact) (a : ℕ) (sb : Option SymByte) :
    setShadow m a sb = m.withShadow (Function.update m.shadow a sb) := by
  have hwidth : 0 < 8 := by norm_num
  cases sb with
  | some sb =>
      rw [setShadow, Machine.withShadow, granOf_update, hex]
      congr 1
      split_ifs with hnone
      · have hcount := granule_insert (p := fun x => (m.shadow x).isSome) hwidth
          (by simpa using hnone)
        rw [granOf, granOf, isSome_update]
        exact congrArg _ hcount.symm
      · have hsome : (m.shadow a).isSome = true := by
          rw [Option.isSome_iff_ne_none]
          simpa using hnone
        have hself : Function.update (fun x => (m.shadow x).isSome) a true
            = fun x => (m.shadow x).isSome := Function.update_eq_self_iff.mpr hsome.symm
        rw [granOf, granOf, isSome_update, Option.isSome_some, hself, Function.update_eq_self]
  | none =>
      rw [setShadow]
      split_ifs with hsome
      · rw [Machine.withShadow, granOf_update, hex]
        have hcount := granule_erase (p := fun x => (m.shadow x).isSome) hwidth hsome.2
        have hsub : granOf (Function.update m.shadow a none) (a / 8)
            = granOf m.shadow (a / 8) - 1 := by
          rw [granOf, granOf, isSome_update, Option.isSome_none]
          omega
        rw [hsub]
      · have hnone : m.shadow a = none := by
          by_contra hne
          exact hsome ⟨fun h => hne (hex.none_of_gran h), Option.isSome_iff_ne_none.mpr hne⟩
        rw [Function.update_eq_self_iff.mpr hnone.symm, hex.withShadow_self]

/-! ### Clearing -/

/-- An address whose granule `clear_shadow` and `copy` can bound in a `u32`. -/
def topOfGranules : ℕ := 2 ^ 32 - 8

lemma add32_ok {a b : ℕ} (h : a + b < 2 ^ 32) : add32 a b = .ok (a + b) := if_pos h

lemma granuleRange_ok {g addr stop : ℕ} (hg : 8 * g < stop) (hstop : stop ≤ topOfGranules) :
    granuleRange g addr stop = .ok (List.range' (max (8 * g) addr)
      (min (8 * g + 8) stop - max (8 * g) addr)) := by
  rw [topOfGranules] at hstop
  rw [granuleRange, add32_ok (by omega)]
  rfl

/-- Clearing byte after byte. -/
lemma foldl_setShadow (hex : m.Exact) (lo n : ℕ) :
    (List.range' lo n).foldl (fun m a => setShadow m a none) m
      = m.withShadow (write m.shadow lo n fun _ => none) := by
  induction n with
  | zero => rw [write_zero]; exact hex.withShadow_self.symm
  | succ n ih =>
      rw [List.range'_concat, List.foldl_append, ih, List.foldl_cons, List.foldl_nil, Nat.one_mul,
        setShadow_eq (m.exact_withShadow _), write_succ]
      rfl

/-- A granule whose count is zero has nothing to clear. -/
lemma write_none_of_gran (hex : m.Exact) {g lo n : ℕ} (hlo : 8 * g ≤ lo) (hn : lo + n ≤ 8 * g + 8)
    (hg : m.gran g = 0) : write m.shadow lo n (fun _ => none) = m.shadow := by
  funext x
  rw [write]
  split_ifs with hx
  · have hxg : x / 8 = g := by omega
    exact (hex.none_of_gran (by rw [hxg, hg])).symm
  · rfl

/-- One granule: what of it is in the range is clear. -/
lemma clearGranule_eq (hex : m.Exact) {g addr stop : ℕ} (hg : 8 * g < stop)
    (hstop : stop ≤ topOfGranules) :
    clearGranule addr stop m g = .ok (m.withShadow (write m.shadow (max (8 * g) addr)
      (min (8 * g + 8) stop - max (8 * g) addr) fun _ => none)) := by
  rw [clearGranule]
  split_ifs with hgran
  · by_cases hle : max (8 * g) addr ≤ min (8 * g + 8) stop
    · rw [write_none_of_gran hex (le_max_left _ _) (by omega) hgran, hex.withShadow_self]
    · rw [Nat.sub_eq_zero_of_le (by omega), write_zero, hex.withShadow_self]
  · rw [granuleRange_ok hg hstop]
    exact congrArg Except.ok (foldl_setShadow hex _ _)

/-- **`clear_shadow`** clears the range and keeps the counts exact. -/
theorem clearShadow_eq (hex : m.Exact) {addr size : ℕ} (hstop : addr + size ≤ topOfGranules) :
    clearShadow m addr size
      = .ok (m.withShadow (write m.shadow addr size fun _ => none)) := by
  rw [clearShadow]
  split_ifs with hsize
  · rw [hsize, write_zero, hex.withShadow_self]
  rw [add32_ok (by rw [topOfGranules] at hstop; omega)]
  -- after `i` granules, `done i` bytes are clear
  let done (i : ℕ) : ℕ := min (8 * (addr / 8 + i)) (addr + size) - addr
  have hloop : Succeeds
      ((granules addr (addr + size - 1)).foldlM (clearGranule addr (addr + size)) m)
      (fun m' => m' = m.withShadow
        (write m.shadow addr (done (granules addr (addr + size - 1)).length) fun _ => none)) := by
    refine Succeeds.foldlM
      (fun i m' => m' = m.withShadow (write m.shadow addr (done i) fun _ => none)) ?_ ?_
    · have h0 : done 0 = 0 := by
        simp only [done]
        omega
      rw [h0, write_zero, hex.withShadow_self]
    · rintro i hi _ rfl
      rw [granules, List.length_range'] at hi
      have hget : (granules addr (addr + size - 1))[i] = addr / 8 + i := by
        simp [granules]
      have hlo : max (8 * (addr / 8 + i)) addr = addr + done i := by
        simp only [done]
        omega
      have hhi : done (i + 1) = done i
          + (min (8 * (addr / 8 + i) + 8) (addr + size) - (addr + done i)) := by
        simp only [done]
        omega
      rw [hget, clearGranule_eq (m.exact_withShadow _) (by omega) hstop]
      refine .ok ?_
      rw [hlo, Machine.withShadow_withShadow, hhi, write_append]
      rfl
  obtain ⟨m', hm', rfl⟩ := hloop
  have hall : done (granules addr (addr + size - 1)).length = size := by
    rw [granules, List.length_range']
    simp only [done]
    omega
  rw [hall] at hm'
  exact hm'

/-! ### The gate of the fast paths -/

lemma mem_granules {addr last g : ℕ} :
    g ∈ granules addr last ↔ addr / 8 ≤ g ∧ g ≤ last / 8 := by
  rw [granules, List.mem_range'_1]
  omega

/-- **`has_shadow`** misses no symbolic byte. -/
theorem hasShadow_succeeds (hex : m.Exact) {addr size : ℕ} (hlen : addr + size ≤ m.len)
    (hstop : addr + size ≤ topOfGranules) :
    Succeeds (hasShadow m addr size) fun b => b = false →
      ∀ a, addr ≤ a → a < addr + size → m.shadow a = none := by
  rw [topOfGranules] at hstop
  rw [hasShadow, add32_ok (by omega)]
  refine Succeeds.bind (P := fun e => e = addr + max size 1) (.ok rfl) fun e he => ?_
  subst he
  rw [if_pos (by omega)]
  refine .ok fun hany a ha hstop' => hex.none_of_gran ?_
  have hmem : a / 8 ∈ granules addr (addr + max size 1 - 1) := by
    rw [mem_granules]
    omega
  simpa using List.any_eq_false.mp hany _ hmem

end Memory

end XarkCircuit
