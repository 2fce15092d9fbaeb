import XarkCircuit.Groth16.Msm
import XarkCircuit.Lib.Succeeds
import Mathlib.Algebra.BigOperators.Group.List.Lemmas
import Mathlib.Algebra.Group.Pi.Basic
import Mathlib.Tactic.Abel

/-!
What the affine buckets hold.

* `value` is the sum of each bucket with all that waits for it: its affine part, the batch, the queue
  and the side bucket.
* Every operation keeps `Ok`, and the value but for the point that is added: `flush_spec`,
  `place_spec`, `drain_spec`, `spill_value`, `add_spec`.
* `finish_spec`: in the end the buckets hold their value.
-/

namespace XarkCircuit

open Verifier ShortWeierstrass Succeeding

namespace Msm

namespace AffineBuckets

variable {F : Type} [Field F] [DecidableEq F] {a b : F}

/-- Coordinates of a point. -/
def On (a b : F) (p : F × F) : Prop := ∃ P : (curve a b).Point, coords P = some p

/-- The state is that of buckets of points: what is in the batch is once in it, and has a bucket. -/
structure Ok (a b : F) (st : AffineBuckets F (curve a b).Point) : Prop where
  slot : ∀ k, (st.slots k).used = true → On a b ((st.slots k).x, (st.slots k).y)
  batch : ∀ e ∈ st.batch, On a b e.2 ∧ (st.slots e.1).used = true ∧ st.stamp e.1 = st.epoch
  nodup : (st.batch.map Prod.fst).Nodup
  queue : ∀ e ∈ st.queue, On a b e.2

variable (ofAffine : Affine F → (curve a b).Point)

/-- The point in a bucket. -/
def slotSum (slots : ℕ → Slot F) (k : ℕ) : (curve a b).Point :=
  if (slots k).used then ofAffine (some ((slots k).x, (slots k).y)) else 0

/-- The points of a list of additions, bucket by bucket. -/
def entriesSum (es : List (Addition F)) : ℕ → (curve a b).Point :=
  (es.map fun e => Pi.single e.1 (ofAffine (some e.2))).sum

/-- Each bucket with all that waits for it. -/
def value (st : AffineBuckets F (curve a b).Point) : ℕ → (curve a b).Point :=
  slotSum ofAffine st.slots + entriesSum ofAffine st.batch + entriesSum ofAffine st.queue
    + st.side.getD 0

variable {ofAffine}

@[simp] lemma entriesSum_nil : entriesSum ofAffine [] = 0 := rfl

lemma entriesSum_append (es es' : List (Addition F)) :
    entriesSum ofAffine (es ++ es') = entriesSum ofAffine es + entriesSum ofAffine es' := by
  rw [entriesSum, List.map_append, List.sum_append]
  rfl

lemma entriesSum_singleton (e : Addition F) :
    entriesSum ofAffine [e] = Pi.single e.1 (ofAffine (some e.2)) := List.sum_singleton

lemma entriesSum_cons (e : Addition F) (es : List (Addition F)) :
    entriesSum ofAffine (e :: es)
      = Pi.single e.1 (ofAffine (some e.2)) + entriesSum ofAffine es := List.sum_cons

lemma entriesSum_apply (es : List (Addition F)) (k : ℕ) :
    entriesSum ofAffine es k
      = ((es.filter fun e => e.1 = k).map fun e => ofAffine (some e.2)).sum := by
  induction es with
  | nil => rfl
  | cons e es ih =>
      rw [entriesSum_cons, Pi.add_apply, ih]
      by_cases hk : e.1 = k
      · subst hk
        simp
      · rw [Pi.single_eq_of_ne (Ne.symm hk)]
        simp [hk]

lemma entriesSum_of_not_mem {es : List (Addition F)} {k : ℕ} (h : k ∉ es.map Prod.fst) :
    entriesSum ofAffine es k = 0 := by
  induction es with
  | nil => rfl
  | cons e es ih =>
      rw [List.map_cons, List.mem_cons, not_or] at h
      rw [entriesSum_cons, Pi.add_apply, Pi.single_eq_of_ne h.1, ih h.2, zero_add]

/-- A bucket that is once in the list gets that point. -/
lemma entriesSum_of_mem {es : List (Addition F)} (hnodup : (es.map Prod.fst).Nodup)
    {e : Addition F} (he : e ∈ es) : entriesSum ofAffine es e.1 = ofAffine (some e.2) := by
  induction es with
  | nil => exact absurd he List.not_mem_nil
  | cons e' es ih =>
      rw [List.map_cons, List.nodup_cons] at hnodup
      rw [entriesSum_cons, Pi.add_apply]
      rcases List.mem_cons.mp he with rfl | hmem
      · rw [Pi.single_eq_same, entriesSum_of_not_mem hnodup.1, add_zero]
      · have hne : e.1 ≠ e'.1 := fun heq => hnodup.1 (heq ▸ List.mem_map_of_mem hmem)
        rw [Pi.single_eq_of_ne hne, ih hnodup.2 hmem, zero_add]

lemma value_new : value ofAffine (AffineBuckets.new : AffineBuckets F (curve a b).Point) = 0 := by
  have hslots : slotSum ofAffine (AffineBuckets.new : AffineBuckets F (curve a b).Point).slots = 0 :=
    funext fun k => if_neg Bool.false_ne_true
  rw [value, hslots]
  simp [AffineBuckets.new]

omit [DecidableEq F] in
lemma ok_new : Ok a b AffineBuckets.new where
  slot _ h := absurd h Bool.false_ne_true
  batch _ h := absurd h List.not_mem_nil
  nodup := List.nodup_nil
  queue _ h := absurd h List.not_mem_nil

section Curve

variable (hof : ∀ P : (curve a b).Point, ofAffine (coords P) = P)
include hof

omit [DecidableEq F] in
lemma coords_ofAffine {p : F × F} (h : On a b p) : coords (ofAffine (some p)) = some p := by
  obtain ⟨P, hP⟩ := h
  rw [← hP, hof]

variable (h2 : (2 : F) ≠ 0)
include h2

omit hof in
lemma den_ne_zero (s : Slot F) (p : F × F) : (addition a).den s p ≠ 0 := by
  simp only [addition]
  split_ifs with hx hy
  · exact sub_ne_zero.mpr hx.symm
  · rw [← two_mul]
    exact mul_ne_zero h2 hy.2
  · exact one_ne_zero

/-- One addition: the chord, the tangent, or nothing left. -/
lemma upd_spec {s : Slot F} {p : F × F} (hused : s.used = true) (hs : On a b (s.x, s.y))
    (hp : On a b p) :
    let s' := (addition a).upd s p ((addition a).den s p)⁻¹
    (s'.used = true → On a b (s'.x, s'.y)) ∧
      (if s'.used then ofAffine (some (s'.x, s'.y)) else 0)
        = ofAffine (some (s.x, s.y)) + ofAffine (some p) := by
  have hP := coords_ofAffine hof hs
  have hQ := coords_ofAffine hof hp
  set P := ofAffine (some (s.x, s.y)) with hPdef
  set Q := ofAffine (some p) with hQdef
  intro s'
  have hsum : ∀ {c : F × F}, coords (P + Q) = some c → (∃ u, s' = ⟨c.1, c.2, u⟩ ∧ u = true) →
      (s'.used = true → On a b (s'.x, s'.y)) ∧
        (if s'.used then ofAffine (some (s'.x, s'.y)) else 0) = P + Q := by
    rintro c hc ⟨u, hs', rfl⟩
    rw [hs']
    exact ⟨fun _ => ⟨P + Q, hc⟩, by rw [if_pos rfl, ← hof (P + Q), hc]⟩
  by_cases hx : s.x = p.1
  swap
  · have hadd := coords_add_chord hP hQ hx
    refine hsum hadd ⟨true, ?_, rfl⟩
    simp only [s', addition, if_pos hx, hused]
  by_cases hy : s.y = p.2 ∧ s.y ≠ 0
  · obtain ⟨hy, hy0⟩ := hy
    have hPQ : P = Q := coords_injective (by rw [hP, hQ, hx, hy])
    have hadd := coords_add_tangent h2 hP hy0
    rw [hx] at hadd
    refine hsum (c := third ((3 * s.x ^ 2 + a) * (2 * s.y)⁻¹) s.x s.y p.1) ?_ ⟨true, ?_, rfl⟩
    · rw [← hPQ, ← hx] at *
      exact hadd
    · have hcube : s.x ^ 2 + s.x ^ 2 + s.x ^ 2 = 3 * s.x ^ 2 := by ring
      simp only [s', addition, if_neg (not_not.mpr hx), if_pos (And.intro hy hy0), hused, hcube,
        two_mul]
  · have hzero : P + Q = 0 := by
      have hQ' : coords Q = some (s.x, p.2) := by rw [hQ, hx]
      exact add_eq_zero hP hQ' hy
    have hs' : s'.used = false := by
      simp only [s', addition, if_neg (not_not.mpr hx), if_neg hy]
    rw [hs', hzero]
    exact ⟨fun h => absurd h Bool.false_ne_true, if_neg Bool.false_ne_true⟩

/-- **The batch is added** to the buckets, and no zero is inverted. -/
theorem flush_spec {st : AffineBuckets F (curve a b).Point} (h : Ok a b st) :
    Succeeds (flush a st) fun st' => Ok a b st' ∧ value ofAffine st' = value ofAffine st ∧
      st'.batch = [] ∧ st'.queue = st.queue := by
  have hden : ∀ e ∈ st.batch, (addition a).den (st.slots e.1) e.2 ≠ 0 := fun e _ =>
    den_ne_zero h2 _ _
  obtain ⟨slots, hrun, hupd, hkeep⟩ := BatchInverse.run_spec h.nodup hden
  rw [flush, hrun]
  refine .ok ⟨⟨fun k hk => ?_, fun _ he => absurd he List.not_mem_nil, List.nodup_nil, h.queue⟩,
    ?_, rfl, rfl⟩
  · by_cases hmem : k ∈ st.batch.map Prod.fst
    · obtain ⟨e, he, rfl⟩ := List.mem_map.mp hmem
      obtain ⟨hon, hused, -⟩ := h.batch e he
      have hspec := upd_spec hof h2 hused (h.slot _ hused) hon
      simp only at hk ⊢
      rw [hupd e he] at hk ⊢
      exact hspec.1 hk
    · simp only at hk ⊢
      rw [hkeep k hmem] at hk ⊢
      exact h.slot k hk
  · have hslots : slotSum ofAffine slots
        = slotSum ofAffine st.slots + entriesSum ofAffine st.batch := by
      funext k
      rw [Pi.add_apply]
      by_cases hmem : k ∈ st.batch.map Prod.fst
      · obtain ⟨e, he, rfl⟩ := List.mem_map.mp hmem
        obtain ⟨hon, hused, -⟩ := h.batch e he
        have hspec := upd_spec hof h2 hused (h.slot _ hused) hon
        rw [entriesSum_of_mem h.nodup he, slotSum, slotSum, hupd e he, if_pos hused]
        exact hspec.2
      · rw [entriesSum_of_not_mem hmem, add_zero, slotSum, slotSum, hkeep k hmem]
    simp only [value, hslots, entriesSum_nil]
    abel

/-- **Placing** adds the point, now or with the batch, or leaves everything as it is. -/
theorem place_spec {st : AffineBuckets F (curve a b).Point} (h : Ok a b st) (k : ℕ) {p : F × F}
    (hp : On a b p) : Succeeds (place a st k p) fun out => Ok a b out.1 ∧ out.1.queue = st.queue ∧
      value ofAffine out.1
        = value ofAffine st + if out.2 then Pi.single k (ofAffine (some p)) else 0 := by
  rw [place]
  cases hused : (st.slots k).used
  · -- an empty bucket: the point is its value
    refine .ok ⟨⟨fun j hj => ?_, fun e he => ?_, h.nodup, h.queue⟩, rfl, ?_⟩
    · by_cases hjk : j = k
      · subst hjk
        simp only [Function.update_self]
        exact hp
      · simp only [Function.update_of_ne hjk] at hj ⊢
        exact h.slot j hj
    · obtain ⟨hon, heused, hstamp⟩ := h.batch e he
      have hne : e.1 ≠ k := fun heq => by rw [heq, hused] at heused; cases heused
      exact ⟨hon, by simpa only [Function.update_of_ne hne] using heused, hstamp⟩
    · have hslots : slotSum ofAffine (Function.update st.slots k ⟨p.1, p.2, true⟩)
          = slotSum ofAffine st.slots + Pi.single k (ofAffine (some p)) := by
        funext j
        rw [Pi.add_apply, slotSum, slotSum]
        by_cases hjk : j = k
        · subst hjk
          simp [hused]
        · rw [Function.update_of_ne hjk, Pi.single_eq_of_ne hjk, add_zero]
      simp only [value, hslots, if_true]
      abel
  simp only [Bool.not_true, Bool.false_eq_true, if_false]
  by_cases hstamp : st.stamp k = st.epoch
  · rw [if_pos hstamp]
    exact .ok ⟨h, rfl, by simp⟩
  rw [if_neg hstamp]
  -- the bucket is not in the batch: what is in it is stamped
  have hfree : k ∉ st.batch.map Prod.fst := fun hmem => by
    obtain ⟨e, he, rfl⟩ := List.mem_map.mp hmem
    exact hstamp (h.batch e he).2.2
  set st₁ : AffineBuckets F (curve a b).Point := { st with
    stamp := Function.update st.stamp k st.epoch
    batch := st.batch ++ [(k, p)] } with hst₁
  have hok : Ok a b st₁ := by
    refine ⟨h.slot, fun e he => ?_, ?_, h.queue⟩
    · rcases List.mem_append.mp he with hmem | hmem
      · obtain ⟨hon, heused, hes⟩ := h.batch e hmem
        have hne : e.1 ≠ k := fun heq => hfree (heq ▸ List.mem_map_of_mem hmem)
        exact ⟨hon, heused, (Function.update_of_ne hne _ _).trans hes⟩
      · obtain rfl := List.mem_singleton.mp hmem
        exact ⟨hp, hused, Function.update_self _ _ _⟩
    · rw [hst₁, List.map_append]
      exact h.nodup.append (List.nodup_singleton k) (by simpa using hfree)
  have hvalue : value ofAffine st₁ = value ofAffine st + Pi.single k (ofAffine (some p)) := by
    simp only [value, hst₁, entriesSum_append, entriesSum_singleton]
    abel
  change Succeeds (if st₁.batch.length = Msm.batch then flush a st₁ >>= fun st' => .ok (st', true)
    else .ok (st₁, true)) _
  split_ifs
  · refine (flush_spec hof h2 hok).bind fun st' h' => .ok ⟨h'.1, h'.2.2.2, ?_⟩
    rw [h'.2.1, hvalue]
    rfl
  · exact .ok ⟨hok, rfl, hvalue⟩

/-- **Draining** offers what is queued: nothing is lost. -/
theorem drain_spec {st : AffineBuckets F (curve a b).Point} (h : Ok a b st) :
    Succeeds (drain a st) fun st' => Ok a b st' ∧ value ofAffine st' = value ofAffine st := by
  have hstart : Ok a b { st with queue := [] } :=
    ⟨h.slot, h.batch, h.nodup, fun _ he => absurd he List.not_mem_nil⟩
  have hloop : Succeeds (st.queue.foldlM (offer a) ({ st with queue := [] }, []))
      (fun out => Ok a b out.1 ∧ out.1.queue = [] ∧ (∀ e ∈ out.2, On a b e.2) ∧
        value ofAffine out.1 + entriesSum ofAffine out.2
          + entriesSum ofAffine (st.queue.drop st.queue.length) = value ofAffine st) :=
    Succeeds.foldlM (fun i (out : AffineBuckets F (curve a b).Point × List (Addition F)) =>
      Ok a b out.1 ∧ out.1.queue = [] ∧ (∀ e ∈ out.2, On a b e.2) ∧
        value ofAffine out.1 + entriesSum ofAffine out.2 + entriesSum ofAffine (st.queue.drop i)
          = value ofAffine st)
    ⟨hstart, rfl, fun _ he => absurd he List.not_mem_nil, by
      simp only [value, entriesSum_nil, List.drop_zero]; abel⟩
    fun i hi out hout => by
      obtain ⟨hok, hqueue, hkept, hval⟩ := hout
      have hon := h.queue _ (List.getElem_mem hi)
      refine (place_spec hof h2 hok st.queue[i].1 hon).bind fun next hnext => .ok ?_
      obtain ⟨hok', hqueue', hval'⟩ := hnext
      rw [List.drop_eq_getElem_cons hi, entriesSum_cons] at hval
      cases hplaced : next.2
      · refine ⟨hok', hqueue'.trans hqueue, fun e he => ?_, ?_⟩
        · rcases List.mem_append.mp he with hmem | hmem
          · exact hkept e hmem
          · exact List.mem_singleton.mp hmem ▸ hon
        · rw [hplaced] at hval'
          simp only [Bool.false_eq_true, if_false, add_zero] at hval' ⊢
          rw [hval', entriesSum_append, entriesSum_singleton, ← hval]
          abel
      · refine ⟨hok', hqueue'.trans hqueue, hkept, ?_⟩
        rw [hplaced] at hval'
        simp only [if_true] at hval' ⊢
        rw [hval', ← hval]
        abel
  refine hloop.bind fun out hout => .ok ?_
  obtain ⟨hok, hqueue, hkept, hval⟩ := hout
  rw [List.drop_length, entriesSum_nil, add_zero] at hval
  refine ⟨⟨hok.slot, hok.batch, hok.nodup, hkept⟩, ?_⟩
  rw [← hval]
  simp only [value, hqueue, entriesSum_nil]
  abel

omit h2 hof in
/-- **Spilling** moves the queue to the side buckets. -/
theorem spill_value (st : AffineBuckets F (curve a b).Point) :
    value ofAffine (spill ofAffine st) = value ofAffine st := by
  have hside : ∀ (es : List (Addition F)) (side : ℕ → (curve a b).Point),
      es.foldl (fun side e => Function.update side e.1 (side e.1 + ofAffine (some e.2))) side
        = side + entriesSum ofAffine es := by
    intro es
    induction es with
    | nil => exact fun side => (add_zero side).symm
    | cons e es ih =>
        intro side
        have hupdate : Function.update side e.1 (side e.1 + ofAffine (some e.2))
            = side + Pi.single e.1 (ofAffine (some e.2)) := by
          funext k
          by_cases hk : k = e.1
          · subst hk
            simp
          · simp [Function.update_of_ne hk, Pi.single_eq_of_ne hk]
        rw [List.foldl_cons, hupdate, ih, entriesSum_cons, add_assoc]
  have hzero : (st.side.getD fun _ => 0) = st.side.getD 0 := rfl
  simp only [value, spill, hside, entriesSum_nil, Option.getD_some, hzero]
  abel

omit h2 hof in
lemma ok_spill {st : AffineBuckets F (curve a b).Point} (h : Ok a b st) :
    Ok a b (spill ofAffine st) :=
  ⟨h.slot, h.batch, h.nodup, fun _ he => absurd he List.not_mem_nil⟩

/-- **Adding** adds the point to its bucket. -/
theorem add_spec {st : AffineBuckets F (curve a b).Point} (h : Ok a b st) (k : ℕ) {p : F × F}
    (hp : On a b p) : Succeeds (add a ofAffine st k p) fun st' => Ok a b st' ∧
      value ofAffine st' = value ofAffine st + Pi.single k (ofAffine (some p)) := by
  refine (place_spec hof h2 h k hp).bind fun out hout => ?_
  obtain ⟨st', placed⟩ := out
  obtain ⟨hok, -, hval⟩ := hout
  simp only at hok hval
  cases placed
  · set st₁ : AffineBuckets F (curve a b).Point :=
      { st' with queue := st'.queue ++ [(k, p)] } with hst₁
    have hok₁ : Ok a b st₁ := by
      refine ⟨hok.slot, hok.batch, hok.nodup, fun e he => ?_⟩
      rcases List.mem_append.mp he with hmem | hmem
      · exact hok.queue e hmem
      · exact List.mem_singleton.mp hmem ▸ hp
    have hval₁ : value ofAffine st₁ = value ofAffine st + Pi.single k (ofAffine (some p)) := by
      rw [if_neg Bool.false_ne_true, add_zero] at hval
      rw [← hval]
      simp only [value, hst₁, entriesSum_append, entriesSum_singleton]
      abel
    change Succeeds (if st₁.queue.length = Msm.batch then _ else _) _
    split_ifs
    · refine (flush_spec hof h2 hok₁).bind fun st₂ h₂ => ?_
      refine (drain_spec hof h2 h₂.1).bind fun st₃ h₃ => ?_
      have hval₃ : value ofAffine st₃ = value ofAffine st + Pi.single k (ofAffine (some p)) := by
        rw [h₃.2, h₂.2.1, hval₁]
      split_ifs
      · exact .ok ⟨ok_spill h₃.1, (spill_value st₃).trans hval₃⟩
      · exact .ok ⟨h₃.1, hval₃⟩
    · exact .ok ⟨hok₁, hval₁⟩
  · rw [if_pos rfl] at hval
    change Succeeds (if st'.epoch ≠ st.epoch then drain a st' else .ok st') _
    split_ifs
    · exact (drain_spec hof h2 hok).mono fun st'' h'' => ⟨h''.1, h''.2.trans hval⟩
    · exact .ok ⟨hok, hval⟩

lemma settle_spec (n : ℕ) {st : AffineBuckets F (curve a b).Point} (h : Ok a b st)
    (hbatch : st.batch = []) : Succeeds (settle a n st) fun st' =>
      Ok a b st' ∧ value ofAffine st' = value ofAffine st ∧ st'.batch = [] := by
  induction n generalizing st with
  | zero => exact .ok ⟨h, rfl, hbatch⟩
  | succ n ih =>
      rw [settle]
      split_ifs
      · exact .ok ⟨h, rfl, hbatch⟩
      · refine (drain_spec hof h2 h).bind fun st₁ h₁ => ?_
        refine (flush_spec hof h2 h₁.1).bind fun st₂ h₂ => ?_
        refine (ih h₂.1 h₂.2.2.1).mono fun st₃ h₃ => ⟨h₃.1, ?_, h₃.2.2⟩
        rw [h₃.2.1, h₂.2.1, h₁.2]

/-- **In the end** every bucket holds its value. -/
theorem finish_spec {st : AffineBuckets F (curve a b).Point} (h : Ok a b st) :
    Succeeds (finish a ofAffine st) fun st' => st'.sum ofAffine = value ofAffine st := by
  have hsum : ∀ st' : AffineBuckets F (curve a b).Point, st'.batch = [] → st'.queue = [] →
      st'.sum ofAffine = value ofAffine st' := by
    intro st' hb hq
    funext k
    cases hside : st'.side <;> simp [value, sum, slotSum, hb, hq, hside]
  refine (flush_spec hof h2 h).bind fun st₁ h₁ => ?_
  refine (settle_spec hof h2 2 h₁.1 h₁.2.2.1).bind fun st₂ h₂ => ?_
  have hval : value ofAffine st₂ = value ofAffine st := h₂.2.1.trans h₁.2.1
  by_cases hq : st₂.queue = []
  · rw [if_neg (not_not.mpr hq)]
    exact .ok ((hsum st₂ h₂.2.2 hq).trans hval)
  · rw [if_pos hq]
    exact .ok ((hsum (spill ofAffine st₂) h₂.2.2 rfl).trans ((spill_value st₂).trans hval))

end Curve

end AffineBuckets

end Msm

end XarkCircuit
