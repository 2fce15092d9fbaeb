import XarkCircuit.Groth16.FixedBaseSound
import XarkCircuit.Groth16.MsmExact
import Mathlib.Data.List.MinMax

/-!
The fast sum is the textbook one.

* `msm_eq`: the classes add up, where there is room for the indices and the classes fit (`Runs`).
* `streaming_eq`: so do chunks; `buckets_eq`: affine buckets hold what was added to them.
* `msm_exact`: all of it.
-/

namespace XarkCircuit

open Verifier ShortWeierstrass Succeeding

namespace Msm

/-! ### The whole sum -/

section Whole

variable {F : Type} [Field F] [DecidableEq F] {a b : F}
  {ofAffine : Affine F → (curve a b).Point}

/-- `± 1` is the scalar, or its opposite. -/
lemma unit_eq {r : ℕ} {bases : List (Affine F)} {scalars : List Scalar} {entries : List Entry}
    (h : ∀ e ∈ entries, EntryOk ofAffine r bases scalars 1 e ∧ magnitude r scalars e ≠ 0) :
    unit ofAffine bases entries = (entries.map (term ofAffine bases scalars)).sum := by
  have hloop : ∀ acc : (curve a b).Point, entries.foldl (fun acc e =>
      if e.2 then acc - ofAffine (bases.getD e.1 none) else acc + ofAffine (bases.getD e.1 none)) acc
        = acc + (entries.map (term ofAffine bases scalars)).sum := by
    induction entries with
    | nil => exact fun acc => (add_zero acc).symm
    | cons e entries ih =>
        intro acc
        obtain ⟨hok, hne⟩ := h e List.mem_cons_self
        have hone : magnitude r scalars e = 1 := by
          have hlt := hok.lt
          omega
        have hsigned := hok.signed
        rw [hone] at hsigned
        rw [List.foldl_cons, ih fun e' he' => h e' (List.mem_cons_of_mem _ he'), List.map_cons,
          List.sum_cons, ← add_assoc, ← hsigned]
        congr 1
        cases e.2
        · simp
        · simp [sub_eq_add_neg]
  rw [unit, hloop, zero_add]

/-- Where the sum runs: as many scalars as an index has room for, and classes that fit. -/
def Runs (cfg : Config) (r m : ℕ) (scalars : List Scalar) : Prop :=
  min m scalars.length < negBit ∧ ∀ c ∈ (List.range classBits.length).tail,
    Fits cfg (entriesOf r (scalars.take m) (min m scalars.length) c).length (classBits.getD c 0)

/-- `Σ sᵢ · Pᵢ` over the shorter of the two lists. -/
def textbook (points : List (curve a b).Point) (scalars : List Scalar) : (curve a b).Point :=
  ((points.zip scalars).map fun e => e.2.val • e.1).sum

/-- The textbook sum, index by index. -/
lemma textbook_eq (hof : ∀ P : (curve a b).Point, ofAffine (coords P) = P)
    (points : List (curve a b).Point) (scalars : List Scalar) :
    ((List.range (min points.length scalars.length)).map fun i =>
      (scalars.getD i 0).val • ofAffine ((points.map coords).getD i none)).sum
        = textbook points scalars := by
  rw [textbook]
  congr 1
  refine List.ext_getElem (by simp) fun i hi hi' => ?_
  simp only [List.length_map, List.length_range] at hi
  have hp : i < points.length := by omega
  have hs : i < scalars.length := by omega
  simp [List.getD_eq_getElem?_getD, hp, hs, hof]

lemma classBits_le (c : ℕ) : classBits.getD c 0 ≤ 256 := by
  by_cases hc : c < 6
  · interval_cases c <;> decide
  · have hlen : classBits.length ≤ c := Nat.not_lt.mp hc
    simp [List.getD_eq_getElem?_getD, hlen]

/-- The entries of a class. -/
lemma entry_ok (hof : ∀ P : (curve a b).Point, ofAffine (coords P) = P) {r : ℕ}
    {points : List (curve a b).Point} (hr : ∀ P ∈ points, r • P = 0) {scalars : List Scalar}
    {n c : ℕ} (hn : n ≤ points.length) {e : Entry} (he : e ∈ entriesOf r scalars n c) :
    EntryOk ofAffine r (points.map coords) scalars (classBits.getD c 0) e ∧
      magnitude r scalars e ≠ 0 := by
  obtain ⟨hlt, hcl⟩ := mem_entriesOf he
  obtain ⟨-, -, hle, hne, hmag⟩ := classify_some hcl
  have hp : e.1 < points.length := hlt.trans_le hn
  have hbase : (points.map coords).getD e.1 none = coords points[e.1] := by
    simp [List.getD_eq_getElem?_getD, hp]
  refine ⟨⟨⟨points[e.1], hbase.symm⟩, ?_, hmag, fun h => (hle h).le⟩, hne⟩
  rw [hbase, hof]
  exact hr _ (List.getElem_mem hp)

variable (hof : ∀ P : (curve a b).Point, ofAffine (coords P) = P) (h2 : (2 : F) ≠ 0)
include hof h2

/-- **The fast sum**, and where it panics. -/
theorem msm_eq (r : ℕ) (cfg : Config) {points : List (curve a b).Point}
    (hr : ∀ P ∈ points, r • P = 0) (scalars : List Scalar)
    [Decidable (Runs cfg r points.length scalars)] :
    msm a ofAffine r cfg (points.map coords) scalars
      = if Runs cfg r points.length scalars then .ok (textbook points scalars)
        else .error .panic := by
  classical
  rw [msm, List.length_map]
  by_cases hn : negBit ≤ min points.length scalars.length
  · have hnot : ¬ Runs cfg r points.length scalars := fun hruns => Nat.not_lt.mpr hn hruns.1
    rw [if_pos hn, if_neg hnot]
  have htake : scalars.take (min points.length scalars.length) = scalars.take points.length :=
    List.take_eq_take_iff.mpr (by omega)
  rw [if_neg hn, ← List.map_take, htake]
  set n := min points.length scalars.length with hndef
  set pts := points.take n with hpts
  set scs := scalars.take points.length with hscs
  have hlen : pts.length = n := by rw [hpts, List.length_take]; omega
  have hlen' : scs.length = n := by rw [hscs, List.length_take]
  have hentry : ∀ {c e}, e ∈ entriesOf r scs n c →
      EntryOk ofAffine r (pts.map coords) scs (classBits.getD c 0) e ∧ magnitude r scs e ≠ 0 :=
    fun he => entry_ok hof (fun P hP => hr P (List.mem_of_mem_take hP)) hlen.ge he
  set sums : ℕ → (curve a b).Point := fun c =>
    ((entriesOf r scs n c).map (term ofAffine (pts.map coords) scs)).sum with hsums
  have hclass : ∀ (total : (curve a b).Point) (c : ℕ),
      (do
        let sum ← pippenger a ofAffine r cfg (pts.map coords) scs (entriesOf r scs n c)
          (classBits.getD c 0)
        return total + sum : Outcome (curve a b).Point)
      = if ¬ Fits cfg (entriesOf r scs n c).length (classBits.getD c 0) then .error .panic
        else .ok (total + sums c) := by
    intro total c
    rw [pippenger_eq hof h2 cfg (classBits_le c) fun e he => (hentry he).1, ite_not]
    split_ifs
    · rfl
    · rfl
  have htotal : unit ofAffine (pts.map coords) (entriesOf r scs n 0)
      + ((List.range classBits.length).tail.map sums).sum = textbook points scalars := by
    have hzip : pts.zip scs = points.zip scalars := by
      rw [hpts, ← htake]
      exact List.zip_eq_zip_take_min.symm
    calc unit ofAffine (pts.map coords) (entriesOf r scs n 0)
          + ((List.range classBits.length).tail.map sums).sum
        = ((List.range 6).map sums).sum := by
          rw [unit_eq fun e he => hentry he]
          exact List.sum_cons.symm
      _ = ((List.range n).map fun i =>
            (scs.getD i 0).val • ofAffine ((pts.map coords).getD i none)).sum := by
          refine sum_classes n _ _ (fun i _ hnone => ?_) fun i _ c e hsome => ?_
          · rw [classify_none hnone, zero_smul]
          · rw [term, (classify_some hsome).1]
      _ = textbook points scalars := by
          rw [← hlen, ← min_eq_left (hlen.trans hlen'.symm).le, textbook_eq hof, textbook, hzip]
          rfl
  have hruns : Runs cfg r points.length scalars ↔
      ¬ ∃ c ∈ (List.range classBits.length).tail,
        ¬ Fits cfg (entriesOf r scs n c).length (classBits.getD c 0) := by
    rw [Runs, ← hndef, ← hscs]
    push Not
    exact and_iff_right (Nat.not_le.mp hn)
  simp only [hclass]
  rw [foldlM_ite sums, htotal]
  simp only [hruns, ite_not]

/-- **Chunks sum up** to the sum of the whole. -/
theorem streaming_eq (r : ℕ) (cfg : Config) {chunks : List (List ((curve a b).Point × Scalar))}
    (h : ∀ chunk ∈ chunks, (∀ e ∈ chunk, r • e.1 = 0) ∧
      Runs cfg r chunk.length (chunk.map Prod.snd)) :
    streaming a ofAffine r cfg (chunks.map fun chunk =>
        (chunk.map fun e => coords e.1, chunk.map Prod.snd))
      = .ok (chunks.flatten.map fun e => e.2.val • e.1).sum := by
  classical
  have hchunk : ∀ chunk ∈ chunks, msm a ofAffine r cfg (chunk.map fun e => coords e.1)
      (chunk.map Prod.snd) = .ok (chunk.map fun e => e.2.val • e.1).sum := by
    intro chunk hmem
    obtain ⟨hr, hruns⟩ := h chunk hmem
    have hr' : ∀ P ∈ chunk.map Prod.fst, r • P = 0 := by
      intro P hP
      obtain ⟨e, he, rfl⟩ := List.mem_map.mp hP
      exact hr e he
    have hmsm := msm_eq hof h2 r cfg hr' (chunk.map Prod.snd)
    rw [List.length_map, if_pos hruns, List.map_map] at hmsm
    have hpairs : (chunk.map Prod.fst).zip (chunk.map Prod.snd) = chunk := by
      rw [List.zip_map']
      exact List.map_id chunk
    rw [textbook, hpairs] at hmsm
    exact hmsm
  have hloop : ∀ acc : (curve a b).Point, (chunks.map fun chunk =>
        (chunk.map fun e => coords e.1, chunk.map Prod.snd)).foldlM (fun acc chunk => do
          let sum ← msm a ofAffine r cfg chunk.1 chunk.2
          return acc + sum) acc
      = .ok (acc + (chunks.flatten.map fun e => e.2.val • e.1).sum) := by
    clear h
    induction chunks with
    | nil => exact fun acc => congrArg Except.ok (add_zero acc).symm
    | cons chunk chunks ih =>
        intro acc
        rw [List.map_cons, List.foldlM_cons, hchunk chunk List.mem_cons_self]
        refine (ih (fun c hc => hchunk c (List.mem_cons_of_mem _ hc)) _).trans ?_
        rw [List.flatten_cons, List.map_append, List.sum_append, add_assoc]
  rw [streaming, hloop, zero_add]

/-- **Affine buckets**, in the end, hold what was added to them. -/
theorem buckets_eq {es : List (Addition F)} (hes : ∀ e ∈ es, AffineBuckets.On a b e.2) :
    Succeeds (do
      let st ← es.foldlM (fun st e => AffineBuckets.add a ofAffine st e.1 e.2) AffineBuckets.new
      AffineBuckets.finish a ofAffine st) fun st => ∀ k,
        st.sum ofAffine k = ((es.filter fun e => e.1 = k).map fun e => ofAffine (some e.2)).sum := by
  have hloop : Succeeds (es.foldlM (fun st e => AffineBuckets.add a ofAffine st e.1 e.2)
      (AffineBuckets.new : AffineBuckets F (curve a b).Point))
      (fun st => AffineBuckets.Ok a b st ∧
        AffineBuckets.value ofAffine st = AffineBuckets.entriesSum ofAffine (es.take es.length)) :=
    Succeeds.foldlM (fun i st => AffineBuckets.Ok a b st ∧
        AffineBuckets.value ofAffine st = AffineBuckets.entriesSum ofAffine (es.take i))
      ⟨AffineBuckets.ok_new, AffineBuckets.value_new⟩ fun i hi st ⟨hok, hval⟩ => by
        refine (AffineBuckets.add_spec hof h2 hok _ (hes _ (List.getElem_mem hi))).mono
          fun st' h' => ⟨h'.1, ?_⟩
        rw [h'.2, hval, List.take_succ_eq_append_getElem hi, AffineBuckets.entriesSum_append,
          AffineBuckets.entriesSum_singleton]
  rw [List.take_length] at hloop
  refine hloop.bind fun st hst => ?_
  refine (AffineBuckets.finish_spec hof h2 hst.1).mono fun st' h' k => ?_
  rw [h', hst.2, AffineBuckets.entriesSum_apply]

end Whole

/-- **The fast sum is the textbook one**, over one pair of lists and over chunks, wherever there is
room for the indices and every class fits; there is room up to `2^31`, and a longer list is refused.
Booth digits recombine and find their buckets, every scalar has its class, and affine buckets hold
what was added to them. `ofAffine` is the library's mixed addition. -/
theorem msm_exact {F : Type} [Field F] [DecidableEq F] (a b : F) (h2 : (2 : F) ≠ 0)
    (ofAffine : Affine F → (curve a b).Point)
    (hof : ∀ P : (curve a b).Point, ofAffine (coords P) = P) (r : ℕ) (cfg : Config) :
    (∀ (points : List (curve a b).Point) (scalars : List Scalar), (∀ P ∈ points, r • P = 0) →
      Runs cfg r points.length scalars →
        msm a ofAffine r cfg (points.map coords) scalars = .ok (textbook points scalars)) ∧
    (∀ (bases : List (Affine F)) (scalars : List Scalar),
      negBit ≤ min bases.length scalars.length →
        msm a ofAffine r cfg bases scalars = .error .panic) ∧
    (∀ chunks : List (List ((curve a b).Point × Scalar)),
      (∀ chunk ∈ chunks, (∀ e ∈ chunk, r • e.1 = 0) ∧
        Runs cfg r chunk.length (chunk.map Prod.snd)) →
      streaming a ofAffine r cfg (chunks.map fun chunk =>
          (chunk.map fun e => coords e.1, chunk.map Prod.snd))
        = .ok (chunks.flatten.map fun e => e.2.val • e.1).sum) ∧
    (∀ s bits c : ℕ, s < 2 ^ bits → bits ≤ 256 → 0 < c → c < 63 →
      ∑ w ∈ Finset.range (windows bits c), boothDigit s w c * (2 ^ c) ^ w = s ∧
        ∀ w, (boothDigit s w c).natAbs ≤ 2 ^ (c - 1)) ∧
    (∀ (scalars : List Scalar) (i : ℕ),
      ((scalars.getD i 0).val = 0 ∧ classify r scalars i = none) ∨
        ∃ c neg, c < 6 ∧ classify r scalars i = some (c, (i, neg)) ∧
          magnitude r scalars (i, neg) < 2 ^ classBits.getD c 0 ∧
          (neg = true → (scalars.getD i 0).val < r)) ∧
    ∀ es : List (Addition F), (∀ e ∈ es, AffineBuckets.On a b e.2) →
      ∃ st, (es.foldlM (fun st e => AffineBuckets.add a ofAffine st e.1 e.2) AffineBuckets.new
          >>= AffineBuckets.finish a ofAffine) = .ok st ∧
        ∀ k, st.sum ofAffine k
          = ((es.filter fun e => e.1 = k).map fun e => ofAffine (some e.2)).sum := by
  classical
  refine ⟨fun points scalars hr hruns => ?_, fun bases scalars hn => ?_,
    fun chunks h => streaming_eq hof h2 r cfg h, fun s bits c hs hbits hc hc' => ?_,
    fun scalars i => ?_, fun es hes => buckets_eq hof h2 hes⟩
  · rw [msm_eq hof h2 r cfg hr, if_pos hruns]
  · exact if_pos hn
  · have hs' : s < 2 ^ 256 := hs.trans_le (Nat.pow_le_pow_right (by norm_num) hbits)
    exact ⟨sum_boothDigit hs hbits hc hc', natAbs_boothDigit_le hs' hc hc'⟩
  · cases hcl : classify r scalars i with
    | none => exact Or.inl ⟨classify_none hcl, rfl⟩
    | some ce =>
        obtain ⟨c, j, neg⟩ := ce
        obtain ⟨rfl, hc, hlt, -, hmag⟩ := classify_some hcl
        exact Or.inr ⟨c, neg, hc, rfl, hmag, hlt⟩

/-! ### Runs on the cusp -/

/-- The cost of a window, in fifths of a mixed addition. -/
def cost (n bits c : ℕ) : ℕ := (bits + 1 + c - 1) / c * (5 * n + 7 * 2 ^ c)

/-- The window of least cost. -/
def leastCost (n bits : ℕ) : ℕ := ((List.range' 2 14).argmin (cost n bits)).getD 2

lemma leastCost_mem (n bits : ℕ) : 2 ≤ leastCost n bits ∧ leastCost n bits ≤ 15 := by
  rw [leastCost]
  cases h : (List.range' 2 14).argmin (cost n bits) with
  | none => decide
  | some c =>
      have hmem := List.argmin_mem h
      simp only [List.mem_range'_1] at hmem
      exact ⟨hmem.1, Nat.lt_succ_iff.mp hmem.2⟩

/-- Batch-affine buckets. -/
def batchConfig (threads : ℕ) (overflowChecks : Bool) : Config where
  threads := threads
  batchAffine := true
  overflowChecks := overflowChecks
  windowBits := leastCost
  windowBits_mem := leastCost_mem

/-- The cusp over the scalar field. -/
abbrev CuspPoint := (curve (0 : Fr) 0).Point

/-- A point of order `r`. -/
def generator : CuspPoint := cusp FixedBase.two_ne_zero_fr

lemma smul_generator : rModulus • generator = 0 :=
  addOrderOf_dvd_iff_nsmul_eq_zero.mp (addOrderOf_cusp FixedBase.two_ne_zero_fr).dvd

/-- The point of a pair of coordinates. -/
noncomputable def ofCoords : Affine Fr → CuspPoint := Function.invFun coords

lemma ofCoords_coords (P : CuspPoint) : ofCoords (coords P) = P :=
  Function.leftInverse_invFun coords_injective P

/-- Without checks every class fits. -/
lemma runs_unchecked {cfg : Config} (hcfg : cfg.overflowChecks = false) {r m : ℕ}
    {scalars : List Scalar} (h : min m scalars.length < negBit) : Runs cfg r m scalars :=
  ⟨h, fun _ _ _ _ hchecks => absurd (hcfg.symm.trans hchecks) (by decide)⟩

/-- A scalar, its opposite, infinity, a value over the order. -/
theorem msm_exact_cusp :
    msm 0 ofCoords rModulus (batchConfig 8 false)
        ([generator, generator, -generator, 0].map coords) [5, 5, 2 ^ 255, 7]
      = .ok (textbook [generator, generator, -generator, 0] [5, 5, 2 ^ 255, 7]) := by
  refine (msm_exact 0 0 FixedBase.two_ne_zero_fr ofCoords ofCoords_coords rModulus
    (batchConfig 8 false)).1 _ _ (fun P hP => ?_) (runs_unchecked rfl (by decide))
  have hcases : P = generator ∨ P = -generator ∨ P = 0 := by
    simpa [or_comm, or_left_comm] using hP
  rcases hcases with rfl | rfl | rfl
  · exact smul_generator
  · rw [smul_neg, smul_generator, neg_zero]
  · exact smul_zero _

/-- Copies of one small scalar are all in one class. -/
lemma length_entriesOf_replicate (r n : ℕ) :
    (entriesOf r (List.replicate n (2 : Scalar)) n 1).length = n := by
  have hcl : ∀ i ∈ List.range n,
      classify r (List.replicate n (2 : Scalar)) i = some (1, (i, false)) := by
    intro i hi
    have hget : (List.replicate n (2 : Scalar)).getD i 0 = 2 := by
      simp [List.getD_eq_getElem?_getD, List.mem_range.mp hi]
    have hsize : (2 : ℕ).size = 2 := by decide
    have hval : ((2 : Scalar) : ℕ) = 2 := rfl
    rw [classify, hget, hval, hsize]
    rfl
  have hentries : entriesOf r (List.replicate n (2 : Scalar)) n 1
      = (List.range n).filterMap fun i => some (i, false) :=
    List.filterMap_congr fun i hi => by rw [hcl i hi]; rfl
  rw [hentries]
  simp

/-- **Two refusals**: an index of `2^31`, on purpose, and a slice of the class of 16 bits that begins
past its end, on 1500 threads. -/
theorem msm_refuses :
    msm 0 ofCoords rModulus (batchConfig 8 true)
        ((List.replicate (2 ^ 31) generator).map coords) (List.replicate (2 ^ 31) 2)
      ≠ .ok (textbook (List.replicate (2 ^ 31) generator) (List.replicate (2 ^ 31) 2)) ∧
    msm 0 ofCoords rModulus (batchConfig 1500 true)
        ((List.replicate 1599001 generator).map coords) (List.replicate 1599001 2)
      ≠ .ok (textbook (List.replicate 1599001 generator) (List.replicate 1599001 2)) := by
  classical
  have hrefuses : ∀ (cfg : Config) (n : ℕ), ¬ Runs cfg rModulus n (List.replicate n 2) →
      msm 0 ofCoords rModulus cfg ((List.replicate n generator).map coords) (List.replicate n 2)
        ≠ .ok (textbook (List.replicate n generator) (List.replicate n 2)) := by
    intro cfg n hruns
    rw [msm_eq ofCoords_coords FixedBase.two_ne_zero_fr rModulus cfg
      (fun P hP => List.eq_of_mem_replicate hP ▸ smul_generator), List.length_replicate,
      if_neg hruns]
    exact fun h => nomatch h
  refine ⟨hrefuses _ _ fun hruns => ?_, hrefuses _ _ fun hruns => ?_⟩
  · have hlt := hruns.1
    rw [List.length_replicate, min_self] at hlt
    exact absurd hlt (lt_irrefl _)
  · have hfits := hruns.2 1 (by decide)
    rw [List.length_replicate, min_self, List.take_of_length_le (List.length_replicate).le,
      length_entriesOf_replicate] at hfits
    have hlast := hfits (by norm_num) rfl rfl 1499 (by decide)
    exact absurd hlast (by decide)

end Msm

end XarkCircuit
