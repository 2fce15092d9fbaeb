import XarkCircuit.Memory.Store

/-!
Copies.

* `copy_concrete_runs`: the copy from a concrete address. The symbolic bytes of the source are
  listed before the bytes move (`symbolicBytes_succeeds`), so the ranges may overlap.
* `copy_select_runs`: the copy from a select of addresses. Every word is loaded through the select
  (`loadOpFuel_loads`) before the first is stored, and the words tile the range (`Tiles`).
-/

namespace XarkCircuit

namespace Memory

open Codec ByteMemory Succeeding

variable {ρ : ℕ → ℕ} {m m' : Machine}

/-! ### From a concrete address -/

lemma eq_map_of_forall₂ {α β : Type} {f : α → β} {as : List α} {bs : List β}
    (h : List.Forall₂ (fun a b => b = f a) as bs) : bs = as.map f := by
  induction h with
  | nil => rfl
  | cons hab _ ih => rw [hab, ih, List.map_cons]

lemma symbolicBytes_succeeds (hex : m.Exact) {s n : ℕ} (hn : n ≠ 0) (h : m.Reaches s n) :
    Succeeds (symbolicBytes m s n) fun moved =>
      ∀ off sb, (off, sb) ∈ moved ↔ off < n ∧ m.shadow (s + off) = some sb := by
  rw [symbolicBytes, add32_ok h.lt]
  refine Succeeds.bind (P := fun e => e = s + n) (.ok rfl) fun e he => ?_
  subst he
  have hranges : ∀ g ∈ (granules s (s + n - 1)).filter fun g => m.gran g ≠ 0,
      Succeeds (granuleRange g s (s + n)) fun r => r = List.range' (max (8 * g) s)
        (min (8 * g + 8) (s + n) - max (8 * g) s) := by
    intro g hg
    have hg' := mem_granules.mp (List.mem_of_mem_filter hg)
    rw [granuleRange_ok (by omega) h.2]
    exact .ok rfl
  refine (Succeeds.mapM hranges).bind fun addrs haddrs => .ok fun off sb => ?_
  rw [eq_map_of_forall₂ haddrs, List.mem_filterMap]
  constructor
  · rintro ⟨a, ha, hsb⟩
    rw [← List.flatMap_def, List.mem_flatMap] at ha
    obtain ⟨g, -, ha⟩ := ha
    rw [List.mem_range'_1] at ha
    obtain ⟨sb', hshadow, heq⟩ := Option.map_eq_some_iff.mp hsb
    obtain ⟨rfl, rfl⟩ := Prod.mk.inj heq
    exact ⟨by omega, by rw [Nat.add_sub_cancel' (by omega), hshadow]⟩
  · rintro ⟨hoff, hsb⟩
    refine ⟨s + off, ?_, by rw [hsb, Nat.add_sub_cancel_left]; rfl⟩
    rw [← List.flatMap_def, List.mem_flatMap]
    have hgran : m.gran ((s + off) / 8) ≠ 0 := fun h0 => by
      rw [hex.none_of_gran h0] at hsb
      cases hsb
    refine ⟨(s + off) / 8, List.mem_filter.mpr ⟨mem_granules.mpr ?_, by simpa using hgran⟩, ?_⟩
    · omega
    · rw [List.mem_range'_1]
      omega

/-- The loop that puts the symbolic bytes where they go. -/
lemma moveShadow_succeeds (hex : m.Exact) {d n : ℕ} (hlt : d + n < 2 ^ 32)
    {src : ℕ → Option SymByte} {moved : List (ℕ × SymByte)}
    (hmoved : ∀ x ∈ moved, x.1 < n ∧ src x.1 = some x.2) :
    Succeeds (moved.foldlM (fun m x => do .ok (setShadow m (← add32 d x.1) (some x.2))) m)
      (fun m' => m' = m.withShadow fun a =>
        if d ≤ a ∧ a - d ∈ moved.map Prod.fst then src (a - d) else m.shadow a) := by
  induction moved generalizing m with
  | nil => exact .ok (by simp [hex.withShadow_self])
  | cons x moved ih =>
      obtain ⟨hx, hsrc⟩ := hmoved x List.mem_cons_self
      rw [List.foldlM_cons, add32_ok (by omega)]
      refine Succeeds.bind (P := fun m₁ => m₁ = setShadow m (d + x.1) (some x.2)) (.ok rfl)
        fun m₁ hm₁ => ?_
      rw [hm₁, setShadow_eq hex]
      refine (ih (Machine.exact_withShadow _ _) fun y hy =>
        hmoved y (List.mem_cons_of_mem _ hy)).mono fun m' hm' => ?_
      rw [hm', Machine.withShadow_withShadow]
      congr 1
      funext a
      by_cases ha : a = d + x.1
      · subst ha
        have hself : d + x.1 - d = x.1 := by omega
        simp [hself, hsrc, Machine.withShadow]
      · have hmem : (d ≤ a ∧ a - d ∈ (x :: moved).map Prod.fst)
            ↔ (d ≤ a ∧ a - d ∈ moved.map Prod.fst) := by
          rw [List.map_cons, List.mem_cons]
          refine and_congr_right fun hle => or_iff_right fun heq => ha ?_
          omega
        rw [if_congr hmem rfl rfl]
        simp [Machine.withShadow, Function.update_of_ne ha]

/-- **`copy`** from a concrete address moves the bytes. -/
theorem copy_concrete_runs (hgood : m.Good) {d n : ℕ} {s : V} (hs : s.isSym = false)
    (hd : m.Reaches d n) (hsrc : m.Reaches (s.b % 2 ^ 32) n) :
    Succeeds (copy m d s n)
      (m.Runs fun _ mem => write mem d n fun i => mem (s.b % 2 ^ 32 + i)) := by
  rw [copy]
  split_ifs with hn hsym
  · subst hn
    exact .ok ((Machine.Runs.refl hgood).congr fun ρ _ => (write_zero _ _ _).symm)
  · rw [hs] at hsym
    cases hsym
  generalize s.b % 2 ^ 32 = p at hsrc ⊢
  dsimp only
  have hcheck : ∀ {a}, m.Reaches a n → check m a n = .ok (a % 2 ^ 32) :=
    fun h => if_neg (by have := h.1; omega)
  rw [hcheck hsrc, hcheck hd]
  refine Succeeds.bind (P := fun _ => True) (.ok trivial) fun _ _ => ?_
  refine Succeeds.bind (P := fun _ => True) (.ok trivial) fun _ _ => ?_
  refine (journal_succeeds hd).bind fun m₀ => ?_
  rintro ⟨js, rfl⟩
  have hex : Machine.Exact { m with journals := js } := hgood.counts
  refine (hasShadow_succeeds hex hsrc.1 hsrc.2).bind fun symSrc hsymSrc => ?_
  refine (hasShadow_succeeds hex hd.1 hd.2).bind fun symDst hsymDst => ?_
  have hlist : Succeeds
      (if symSrc then symbolicBytes { m with journals := js } p n else .ok [])
      (fun moved => ∀ off sb, (off, sb) ∈ moved ↔ off < n ∧ m.shadow (p + off) = some sb) := by
    cases symSrc with
    | true => exact symbolicBytes_succeeds hex hn hsrc
    | false =>
        refine .ok fun off sb => Iff.intro (fun hmem => absurd hmem List.not_mem_nil) ?_
        rintro ⟨hoff, hsb⟩
        have hnone := hsymSrc rfl (p + off) (by omega) (by omega)
        dsimp only at hnone
        rw [hnone] at hsb
        cases hsb
  refine hlist.bind fun moved hmoved => ?_
  rw [add32_ok hsrc.lt]
  refine Succeeds.bind (P := fun e => e = p + n) (.ok rfl) fun e he => ?_
  subst he
  rw [Nat.add_sub_cancel_left]
  -- the bytes have moved; what was symbolic in the target is not any more
  have hex₁ : Machine.Exact
      { m with mem := write m.mem d n fun i => m.mem (p + i), journals := js } := hgood.counts
  have hclear : Succeeds
      (if symDst then clearShadow
        { m with mem := write m.mem d n fun i => m.mem (p + i), journals := js } d n
        else .ok { m with mem := write m.mem d n fun i => m.mem (p + i), journals := js })
      (m.Becomes (write m.cell d n fun i => (m.mem (p + i), none))) := by
    cases symDst with
    | true =>
        rw [if_pos rfl, clearShadow_eq hex₁ hd.2]
        refine .ok ⟨rfl, rfl, Machine.exact_withShadow _ _, funext fun a => ?_⟩
        simp only [Machine.cell, Machine.withShadow, write]
        split_ifs <;> rfl
    | false =>
        refine .ok ⟨rfl, rfl, hex₁, funext fun a => ?_⟩
        simp only [Machine.cell, write]
        split_ifs with ha
        · exact Prod.ext rfl (hsymDst rfl a ha.1 ha.2)
        · rfl
  refine hclear.bind fun m₁ hm₁ => ?_
  have hmove := @moveShadow_succeeds m₁ hm₁.counts d n hd.lt (fun off => m.shadow (p + off)) moved
    fun x hx => (hmoved x.1 x.2).mp hx
  refine hmove.mono fun m' hm' => ?_
  have hcells : m.Becomes (write m.cell d n fun i => m.cell (p + i)) m' := by
    subst hm'
    refine ⟨hm₁.len, hm₁.syms, Machine.exact_withShadow _ _, funext fun a => ?_⟩
    have hcell : (m₁.mem a, m₁.shadow a) = _ := congrFun hm₁.cell a
    simp only [Machine.cell, Machine.withShadow, write] at hcell ⊢
    split_ifs at hcell ⊢ with hlisted hin hin
    · rw [(Prod.mk.inj hcell).1]
    · obtain ⟨x, hx, hxa⟩ := List.mem_map.mp hlisted.2
      have hlt := ((hmoved x.1 x.2).mp hx).1
      exact absurd ⟨hlisted.1, by omega⟩ hin
    · have hnone : m.shadow (p + (a - d)) = none := by
        by_contra hne
        obtain ⟨sb, hsb⟩ := Option.ne_none_iff_exists'.mp hne
        have hx := (hmoved (a - d) sb).mpr ⟨by omega, hsb⟩
        exact hlisted ⟨hin.1, List.mem_map.mpr ⟨_, hx, rfl⟩⟩
      rw [hcell, hnone]
    · exact hcell
  refine (hcells.runs hgood fun i _ => hgood.within _).congr fun ρ _ => rfl

/-! ### From a select of addresses -/

/-- A value, or a select of values, that is a concrete address with `P`. -/
inductive Leaves (syms : Table) (P : ℕ → Prop) : V → Prop
  | address {v : V} (hsym : v.isSym = false) (h : P (v.b % 2 ^ 32)) : Leaves syms P v
  | select {v t e : V} {cond : ℕ} (hsym : v.isSym = true) (hget : syms[v.s]? = some (.ite cond t e))
      (ht : Leaves syms P t) (he : Leaves syms P e) : Leaves syms P v

lemma Leaves.grow {syms syms' : Table} {P Q : ℕ → Prop} (hpre : syms <+: syms')
    (hPQ : ∀ p, P p → Q p) {v : V} (h : Leaves syms P v) : Leaves syms' Q v := by
  induction h with
  | address hsym h => exact .address hsym (hPQ _ h)
  | select hsym hget _ _ iht ihe =>
      obtain ⟨more, rfl⟩ := hpre
      have hlt := (List.getElem?_eq_some_iff.mp hget).1
      exact .select hsym (by rw [List.getElem?_append_left hlt, hget]) iht ihe

lemma Leaves.within {syms : Table} (hwf : syms.Wf) {P : ℕ → Prop} {v : V} (h : Leaves syms P v) :
    v.s < syms.length := by
  cases h with
  | address hsym _ =>
      have h0 : v.s = 0 := by simpa [V.isSym] using hsym
      exact h0 ▸ hwf.pos
  | select _ hget _ _ => exact (List.getElem?_eq_some_iff.mp hget).1

/-- A select of what is loaded one after the other. -/
lemma Machine.Loads.ite {x y : (ℕ → ℕ) → ℕ} {tr er : V × Machine} (ht : m.Loads x tr)
    (he : tr.2.Loads y er) (cond : ℕ) :
    m.Loads (fun ρ => if ρ cond ≠ 0 then x ρ else y ρ)
      ((Memory.ite er.2.syms cond tr.1 er.1).1,
        { er.2 with syms := (Memory.ite er.2.syms cond tr.1 er.1).2 }) := by
  have hgood := he.runs.good
  have htlt : tr.1.s < er.2.syms.length := ht.within.trans_le he.runs.pre.length_le
  have hite := (ite_yields hgood.wf htlt he.within cond).loads hgood
  have hfits : ∀ ρ, Table.Fits ρ m.syms → Table.Fits ρ er.2.syms :=
    fun ρ hρ => he.runs.fits ρ (ht.runs.fits ρ hρ)
  refine ⟨(ht.runs.trans he.runs).trans hite.runs, hite.within, fun ρ hρ => ?_⟩
  rw [hite.value ρ (hfits ρ hρ), V.value_grow he.runs.pre ht.within, ht.value ρ hρ,
    he.value ρ (ht.runs.fits ρ hρ)]

/-- The address that a value points to. -/
def pointee (ρ : ℕ → ℕ) (m : Machine) (s : V) : ℕ := s.value (Table.value ρ m.syms) % 2 ^ 32

/-- **`load_op`** reads through a select of addresses. -/
theorem loadOpFuel_loads {fuel : ℕ} (hgood : m.Good) {a : V} {off size n : ℕ}
    (ha : Leaves m.syms (fun p => m.Reaches p n) a) (hin : off + size ≤ n) (hsize : size ≤ 8)
    (hfuel : a.s < fuel) :
    Succeeds (loadOpFuel fuel m a off size)
      (m.Loads fun ρ => read (m.content ρ) (pointee ρ m a + off) size) := by
  induction fuel generalizing m a with
  | zero => exact absurd hfuel (Nat.not_lt_zero _)
  | succ fuel ih =>
      rw [loadOpFuel]
      cases ha with
      | address hsym h =>
          rw [if_neg (by simp [hsym])]
          have hreach : m.Reaches (a.b % 2 ^ 32 + off) size := by
            obtain ⟨h1, h2⟩ := h
            exact ⟨by omega, by omega⟩
          have hcheck : check m (a.b % 2 ^ 32 + off) size = .ok (a.b % 2 ^ 32 + off) := by
            rw [check, if_neg (by have := hreach.1; omega),
              Nat.mod_eq_of_lt (by have := hreach.lt; omega)]
          rw [hcheck]
          refine (load_loads hgood hreach hsize).mono fun r hr => hr.congr fun ρ _ => ?_
          rw [pointee, V.value, if_neg (by simp [hsym])]
      | @select _ t e cond hsym hget ht he =>
          rw [if_pos hsym]
          have hlt := (List.getElem?_eq_some_iff.mp hget).1
          obtain ⟨hts, hes⟩ : t.s < a.s ∧ e.s < a.s := hgood.wf.within _ _ hget
          refine (symAt_succeeds hlt).bind fun sym hsymAt => ?_
          rw [hget] at hsymAt
          obtain rfl := Option.some.inj hsymAt
          refine (ih hgood ht (by omega)).bind fun tr htr => ?_
          have he' : Leaves tr.2.syms (fun p => tr.2.Reaches p n) e :=
            he.grow htr.runs.pre fun p hp => ⟨htr.runs.len ▸ hp.1, hp.2⟩
          refine (ih htr.runs.good he' (by omega)).bind fun er her => ?_
          refine .ok ((htr.ite her cond).congr fun ρ hρ => ?_)
          have hval : a.value (Table.value ρ m.syms) = if ρ cond ≠ 0
              then t.value (Table.value ρ m.syms) else e.value (Table.value ρ m.syms) := by
            rw [V.value, if_pos hsym, Table.value_eq hgood.wf hget, Sym.value]
          have hevalue : pointee ρ tr.2 e = pointee ρ m e := by
            rw [pointee, pointee, V.value_grow htr.runs.pre (hes.trans hlt)]
          rw [htr.runs.content ρ hρ, hevalue, pointee, pointee, pointee, hval]
          split_ifs <;> rfl

/-- The words of the list follow each other from `i` up to `n`. -/
def Tiles (n : ℕ) : ℕ → List (ℕ × ℕ) → Prop
  | i, [] => i = n
  | i, (j, w) :: ws => j = i ∧ w ≤ 8 ∧ Tiles n (i + w) ws

lemma Tiles.le {n i : ℕ} {ws : List (ℕ × ℕ)} (h : Tiles n i ws) : i ≤ n := by
  induction ws generalizing i with
  | nil => exact le_of_eq h
  | cons x ws ih =>
      obtain ⟨-, -, h⟩ := h
      have hle := ih h
      omega

lemma tiles_wordsFrom {fuel i n : ℕ} (hle : i ≤ n) (hfuel : n - i ≤ fuel) :
    Tiles n i (wordsFrom fuel i n) := by
  induction fuel generalizing i with
  | zero =>
      have heq : i = n := by omega
      exact heq
  | succ fuel ih =>
      rw [wordsFrom]
      split_ifs with hi
      · have hw : 1 ≤ wordWidth (n - i) ∧ wordWidth (n - i) ≤ 8 ∧ wordWidth (n - i) ≤ n - i := by
          rw [wordWidth]
          split_ifs <;> omega
        exact ⟨rfl, hw.2.1, ih (by omega) (by omega)⟩
      · have heq : i = n := by omega
        exact heq

/-- A word as it was loaded from the plain memory `c` at the address `p`. -/
structure LoadedWord (syms : Table) (c : (ℕ → ℕ) → ℕ → UInt8) (p : (ℕ → ℕ) → ℕ) (iw : ℕ × ℕ)
    (word : ℕ × ℕ × V) : Prop where
  off : word.1 = iw.1
  width : word.2.1 = iw.2
  within : word.2.2.s < syms.length
  value : ∀ ρ, Table.Fits ρ syms →
    word.2.2.value (Table.value ρ syms) = read (c ρ) (p ρ + iw.1) iw.2

lemma loadWords_succeeds (hgood : m.Good) {s : V} {n i : ℕ} {ws : List (ℕ × ℕ)}
    (hs : Leaves m.syms (fun p => m.Reaches p n) s) (hws : Tiles n i ws) :
    Succeeds (loadWords s ws m) fun r => m.Runs (fun _ mem => mem) r.2 ∧
      List.Forall₂ (LoadedWord r.2.syms (fun ρ => m.content ρ) fun ρ => pointee ρ m s) ws r.1 := by
  induction ws generalizing m i with
  | nil => exact .ok ⟨.refl hgood, .nil⟩
  | cons x ws ih =>
      obtain ⟨j, w⟩ := x
      obtain ⟨rfl, hw, hrest⟩ := hws
      have hslt := hs.within hgood.wf
      refine (loadOpFuel_loads hgood hs hrest.le hw (Nat.lt_succ_self _)).bind fun vr hvr => ?_
      have hs' : Leaves vr.2.syms (fun p => vr.2.Reaches p n) s :=
        hs.grow hvr.runs.pre fun p hp => ⟨hvr.runs.len ▸ hp.1, hp.2⟩
      refine (ih hvr.runs.good hs' hrest).bind fun r hr => .ok ?_
      obtain ⟨hruns, hwords⟩ := hr
      have hback : ∀ ρ, Table.Fits ρ r.2.syms → Table.Fits ρ m.syms :=
        fun ρ hρ => hρ.shrink (hvr.runs.pre.trans hruns.pre)
      refine ⟨hvr.runs.trans hruns, .cons ⟨rfl, rfl, ?_, fun ρ hρ => ?_⟩ ?_⟩
      · exact hvr.within.trans_le hruns.pre.length_le
      · rw [V.value_grow hruns.pre hvr.within, hvr.value ρ (hback ρ hρ)]
      · refine hwords.imp fun iw word hword =>
          ⟨hword.off, hword.width, hword.within, fun ρ hρ => ?_⟩
        rw [hword.value ρ hρ, hvr.runs.content ρ (hback ρ hρ), pointee, pointee,
          V.value_grow hvr.runs.pre hslt]

/-- The loop that stores the words. -/
lemma storeWords_runs (hgood : m.Good) {syms : Table} (hsyms : m.syms = syms) {d n i : ℕ}
    {ws : List (ℕ × ℕ)} {words : List (ℕ × ℕ × V)} {c : (ℕ → ℕ) → ℕ → UInt8} {p : (ℕ → ℕ) → ℕ}
    (hd : m.Reaches d n) (hws : Tiles n i ws)
    (hwords : List.Forall₂ (LoadedWord syms c p) ws words) :
    Succeeds (words.foldlM (fun m w => do store m (← add32 d w.1) w.2.1 w.2.2) m)
      (m.Runs fun ρ mem => write mem (d + i) (n - i) fun k => c ρ (p ρ + (i + k))) := by
  induction hwords generalizing m i with
  | nil =>
      have heq : i = n := hws
      refine .ok ((Machine.Runs.refl hgood).congr fun ρ _ => ?_)
      rw [heq, Nat.sub_self, write_zero]
  | @cons iw word ws words hword _ ih =>
      obtain ⟨j, w⟩ := iw
      obtain ⟨off, width, v⟩ := word
      obtain ⟨hoff, hwidth, hv, hval⟩ := hword
      dsimp only at hoff hwidth hv hval
      subst hoff hwidth
      obtain ⟨rfl, hw, hrest⟩ := hws
      have hle := hrest.le
      have hlt := hd.lt
      have hreach : m.Reaches (d + off) width := by
        obtain ⟨h1, h2⟩ := hd
        exact ⟨by omega, by omega⟩
      rw [List.foldlM_cons, add32_ok (by omega)]
      refine (store_runs hgood hreach hw (hsyms ▸ hv)).bind fun m₁ hm₁ => ?_
      obtain ⟨hsyms₁, hruns₁⟩ := hm₁
      have hd₁ : m₁.Reaches d n := ⟨hruns₁.len ▸ hd.1, hd.2⟩
      refine (ih hruns₁.good (hsyms₁.trans hsyms) hd₁ hrest).mono fun m₂ hm₂ => ?_
      refine (hruns₁.trans hm₂).congr fun ρ hρ => ?_
      have hsplit : n - off = width + (n - (off + width)) := by omega
      have hfirst : write (m.content ρ) (d + off) width (byteAt (v.value (Table.value ρ m.syms)))
          = write (m.content ρ) (d + off) width fun k => c ρ (p ρ + (off + k)) := by
        refine write_congr fun k hk => ?_
        rw [hsyms, hval ρ (hsyms ▸ hρ), byteAt_read _ _ hk, Nat.add_assoc]
      rw [hsplit, write_append, hfirst, Nat.add_assoc d]
      exact write_congr fun k _ => by rw [Nat.add_assoc off]

/-- **`copy`** from a select of addresses moves the bytes from the address that it takes. -/
theorem copy_select_runs (hgood : m.Good) {d n : ℕ} {s : V} (hsym : s.isSym = true)
    (hd : m.Reaches d n) (hs : Leaves m.syms (fun p => m.Reaches p n) s) :
    Succeeds (copy m d s n)
      (m.Runs fun ρ mem => write mem d n fun i => mem (pointee ρ m s + i)) := by
  rw [copy]
  split_ifs with hn
  · subst hn
    exact .ok ((Machine.Runs.refl hgood).congr fun ρ _ => (write_zero _ _ _).symm)
  cases hs with
  | address hsym' => rw [hsym] at hsym'; cases hsym'
  | @select _ t e cond _ hget ht he =>
      have hs : Leaves m.syms (fun p => m.Reaches p n) s := .select hsym hget ht he
      have hlt := (List.getElem?_eq_some_iff.mp hget).1
      refine (symAt_succeeds hlt).bind fun sym hsymAt => ?_
      rw [hget] at hsymAt
      obtain rfl := Option.some.inj hsymAt
      have htiles : Tiles n 0 (wordsFrom n 0 n) := tiles_wordsFrom (Nat.zero_le n) (by omega)
      refine (loadWords_succeeds hgood hs htiles).bind fun r hr => ?_
      obtain ⟨hruns, hwords⟩ := hr
      have hd' : r.2.Reaches d n := ⟨hruns.len ▸ hd.1, hd.2⟩
      refine (storeWords_runs hruns.good rfl hd' htiles hwords).mono fun m' hm' => ?_
      refine (hruns.trans hm').congr fun ρ _ => ?_
      rw [Nat.add_zero, Nat.sub_zero]
      exact write_congr fun k _ => by rw [Nat.zero_add]

end Memory

end XarkCircuit
