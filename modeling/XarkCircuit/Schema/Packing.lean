import XarkCircuit.Schema.Json

/-!
The runs of packed fields.

* `Runs`: the fields of a struct, from left to right, are on their own or in maximal runs that hold
  at most `PACK_BITS` bits (`runs_all`).
* `Split` forgets the runs that share no element; both descriptions of a layout follow it
  (`split_all`), and `neighbours` reads it at one field.
-/

namespace XarkCircuit

namespace Input

/-- The width of a packed field. -/
def width (m : Member Ty) : ℕ := (packable m).getD 0

/-! ### Runs -/

lemma joinRun_le (total : ℕ) (ms : List (Member Ty)) : (joinRun total ms).1 ≤ ms.length := by
  induction ms generalizing total with
  | nil => exact le_rfl
  | cons m ms ih =>
      rw [joinRun]
      cases packable m with
      | none => exact Nat.zero_le _
      | some w =>
          dsimp only
          split_ifs
          · exact Nat.succ_le_succ (ih _)
          · exact Nat.zero_le _

lemma joinRun_total (total : ℕ) (ms : List (Member Ty)) :
    (joinRun total ms).2 = total + ((ms.take (joinRun total ms).1).map width).sum := by
  induction ms generalizing total with
  | nil => simp [joinRun]
  | cons m ms ih =>
      rw [joinRun]
      cases hm : packable m with
      | none => simp
      | some w =>
          dsimp only
          split_ifs
          · have hw : width m = w := by rw [width, hm]; rfl
            rw [List.take_succ_cons, List.map_cons, List.sum_cons, hw, ih]
            omega
          · simp

lemma joinRun_packable (total : ℕ) (ms : List (Member Ty)) :
    ∀ m ∈ ms.take (joinRun total ms).1, (packable m).isSome := by
  induction ms generalizing total with
  | nil => simp
  | cons m ms ih =>
      rw [joinRun]
      cases hm : packable m with
      | none => simp
      | some w =>
          dsimp only
          split_ifs
          · rw [List.take_succ_cons]
            intro m' hm'
            rcases List.mem_cons.mp hm' with rfl | hm'
            · rw [hm]; rfl
            · exact ih _ m' hm'
          · simp

/-- The run stops where the next field does not join it. -/
lemma joinRun_maximal (total : ℕ) (ms : List (Member Ty)) :
    ∀ m ∈ (ms.drop (joinRun total ms).1).head?, ∀ w, packable m = some w →
      PACK_BITS < (joinRun total ms).2 + w := by
  induction ms generalizing total with
  | nil => simp
  | cons m ms ih =>
      rw [joinRun]
      cases hm : packable m with
      | none =>
          rintro m' hm' w hw
          obtain rfl : m = m' := by simpa using hm'
          rw [hm] at hw
          cases hw
      | some w0 =>
          dsimp only
          split_ifs with hle
          · rw [List.drop_succ_cons]
            exact ih _
          · rintro m' hm' w hw
            obtain rfl : m = m' := by simpa using hm'
            rw [hm] at hw
            obtain rfl := Option.some.inj hw
            omega

/-- A run that some field joined holds at most `PACK_BITS` bits. -/
lemma joinRun_fits (total : ℕ) (ms : List (Member Ty)) (h : (joinRun total ms).1 ≠ 0) :
    (joinRun total ms).2 ≤ PACK_BITS := by
  induction ms generalizing total with
  | nil => exact absurd rfl h
  | cons m ms ih =>
      rw [joinRun] at h ⊢
      cases hm : packable m with
      | none => rw [hm] at h; exact absurd rfl h
      | some w =>
          rw [hm] at h
          dsimp only at h ⊢
          split_ifs at h ⊢ with hle
          · by_cases h0 : (joinRun (total + w) ms).1 = 0
            · have htotal := joinRun_total (total + w) ms
              rw [h0] at htotal
              simp at htotal
              omega
            · exact ih _ h0
          · exact absurd rfl h

/-- The fields `r` from place `i` on are a run, before the fields `ms`: what its fields know of it,
and that the next field does not fit. -/
structure MaximalRun (all : List (Member Ty)) (i : ℕ) (r ms : List (Member Ty)) : Prop where
  pos : 0 < r.length
  packable : ∀ m ∈ r, (packable m).isSome
  fits : 2 ≤ r.length → (r.map width).sum ≤ PACK_BITS
  maximal : ∀ m ∈ ms.head?, ∀ w, Input.packable m = some w → PACK_BITS < (r.map width).sum + w
  offset : ∀ j, j < r.length → (packOf all (i + j)).offset = ((r.take j).map width).sum
  last : ∀ j, j < r.length → (packOf all (i + j)).last = decide (j + 1 = r.length)
  shared : 2 ≤ r.length → ∀ j, j < r.length →
    (packOf all (i + j)).bits = (r[j]?.map width).getD 0 ∧
    (packOf all (i + j)).total = (r.map width).sum
  alone : r.length = 1 → packOf all i = .ALONE

/-- The fields from place `i` on are on their own or in maximal runs. -/
inductive Runs (all : List (Member Ty)) : ℕ → List (Member Ty) → Prop
  | nil (i : ℕ) : Runs all i []
  | alone (i : ℕ) (m : Member Ty) (ms : List (Member Ty)) :
      packable m = none → packOf all i = .ALONE → Runs all (i + 1) ms → Runs all i (m :: ms)
  | run (i : ℕ) (r ms : List (Member Ty)) :
      MaximalRun all i r ms → Runs all (i + r.length) ms → Runs all i (r ++ ms)

lemma packFrom_of_lt (ms : List (Member Ty)) {i : ℕ} (fuel : ℕ) {start : ℕ} (h : i < start) :
    packFrom ms i fuel start = .ALONE := by
  induction fuel generalizing start with
  | zero => rfl
  | succ fuel ih =>
      rw [packFrom]
      split
      · rfl
      · split
        · exact ih (by omega)
        · rw [if_pos h]

/-- The run that `pack_of` finds at `start`, with what it says of its fields. -/
lemma maximalRun_of_packFrom {all : List (Member Ty)} {start w0 : ℕ} {m : Member Ty}
    {rest : List (Member Ty)} (hdrop : all.drop start = m :: rest) (hm : packable m = some w0)
    (h : ∀ j, j < (joinRun w0 rest).1 + 1 → packOf all (start + j) =
      if (joinRun w0 rest).1 = 0 then .ALONE
      else
        { offset := ((((m :: rest).take j)).map fun m => (packable m).getD 0).sum
          bits := (all[start + j]?.bind packable).getD 0
          total := (joinRun w0 rest).2
          last := start + j + 1 = start + 1 + (joinRun w0 rest).1
          check := (all[start + j]?.map fun m => m.ty.checked).getD false }) :
    MaximalRun all start (m :: rest.take (joinRun w0 rest).1)
      (rest.drop (joinRun w0 rest).1) := by
  have hle := joinRun_le w0 rest
  have htotal := joinRun_total w0 rest
  have hmax := joinRun_maximal w0 rest
  have hfits := joinRun_fits w0 rest
  have hpackable := joinRun_packable w0 rest
  generalize (joinRun w0 rest).1 = k at *
  have hwm : width m = w0 := by rw [width, hm]; rfl
  have hlen : (m :: rest.take k).length = k + 1 := by
    rw [List.length_cons, List.length_take, min_eq_left hle]
  have hsum : ((m :: rest.take k).map width).sum = (joinRun w0 rest).2 := by
    rw [htotal, List.map_cons, List.sum_cons, hwm]
  have hget : ∀ j, j < k + 1 → all[start + j]? = (m :: rest.take k)[j]? := by
    intro j hj
    have hparts : m :: rest = (m :: rest.take k) ++ rest.drop k := by
      rw [List.cons_append, List.take_append_drop]
    rw [← List.getElem?_drop, hdrop, hparts, List.getElem?_append_left (by omega)]
  have htake : ∀ j, j < k + 1 → (m :: rest).take j = (m :: rest.take k).take j := by
    intro j hj
    cases j with
    | zero => rfl
    | succ j =>
        rw [List.take_succ_cons, List.take_succ_cons, List.take_take, min_eq_left (by omega)]
  refine ⟨by omega, fun m' hm' => ?_, fun h2 => ?_, fun m' hm' w hw => ?_, fun j hj => ?_,
    fun j hj => ?_, fun h2 j hj => ?_, fun h1 => ?_⟩
  · rcases List.mem_cons.mp hm' with rfl | hm'
    · rw [hm]; rfl
    · exact hpackable m' hm'
  · rw [hsum]
    exact hfits (by omega)
  · rw [hsum]
    exact hmax m' hm' w hw
  · rw [hlen] at hj
    rw [h j hj]
    split_ifs with hk
    · obtain rfl : j = 0 := by omega
      rfl
    · dsimp only
      rw [htake j hj]
      rfl
  · rw [hlen] at hj ⊢
    rw [h j hj]
    split_ifs with hk
    · exact (decide_eq_true (by omega)).symm
    · exact decide_eq_decide.mpr (by omega)
  · rw [hlen] at h2 hj
    rw [h j hj, if_neg (by omega)]
    refine ⟨?_, hsum.symm⟩
    dsimp only
    rw [hget j hj]
    cases hj' : (m :: rest.take k)[j]? with
    | none => rfl
    | some m' => rfl
  · rw [hlen] at h1
    have h0 := h 0 (by omega)
    rwa [if_pos (by omega), Nat.add_zero] at h0

lemma runs_from (all : List (Member Ty)) (fuel : ℕ) {start : ℕ}
    (hfuel : all.length < fuel + start)
    (h : ∀ i, start ≤ i → packOf all i = packFrom all i fuel start) :
    Runs all start (all.drop start) := by
  induction fuel generalizing start with
  | zero =>
      rw [List.drop_eq_nil_of_le (by omega)]
      exact .nil start
  | succ fuel ih =>
      cases hdrop : all.drop start with
      | nil => exact .nil start
      | cons m rest =>
          have hrest : ∀ k, all.drop (start + 1 + k) = rest.drop k := by
            intro k
            rw [Nat.add_assoc, ← List.drop_drop, hdrop, Nat.add_comm 1 k, List.drop_succ_cons]
          have hstep : ∀ i, packFrom all i (fuel + 1) start = _ := fun i => by
            rw [packFrom, hdrop]
          cases hm : packable m with
          | none =>
              simp only [hm] at hstep
              have hnext := fun i (hi : start ≤ i) => (h i hi).trans (hstep i)
              refine .alone start m rest hm ?_ ?_
              · rw [hnext start le_rfl, packFrom_of_lt _ _ (Nat.lt_succ_self _)]
              · have hruns := ih (by omega) fun i (hi : start + 1 ≤ i) => hnext i (by omega)
                rwa [hrest 0] at hruns
          | some w0 =>
              simp only [hm] at hstep
              have hle := joinRun_le w0 rest
              have hrun := maximalRun_of_packFrom hdrop hm fun j hj => by
                rw [h (start + j) (by omega), hstep, if_neg (by omega), if_pos (by omega)]
                have hone : start + 1 + (joinRun w0 rest).1 - start = 1
                    ↔ (joinRun w0 rest).1 = 0 := by omega
                rw [if_congr hone rfl rfl, Nat.add_sub_cancel_left]
              have hafter : Runs all (start + 1 + (joinRun w0 rest).1)
                  (rest.drop (joinRun w0 rest).1) := by
                rw [← hrest]
                refine ih (by omega) fun i hi => ?_
                rw [h i (by omega), hstep, if_neg (by omega), if_neg (by omega)]
              have hlen : (m :: rest.take (joinRun w0 rest).1).length
                  = 1 + (joinRun w0 rest).1 := by
                rw [List.length_cons, List.length_take, min_eq_left hle, Nat.add_comm]
              have hparts : m :: rest = (m :: rest.take (joinRun w0 rest).1)
                  ++ rest.drop (joinRun w0 rest).1 := by
                rw [List.cons_append, List.take_append_drop]
              rw [hparts]
              refine .run start _ _ hrun ?_
              rw [hlen, ← Nat.add_assoc]
              exact hafter

/-- **`pack_of`** splits the fields of a struct into maximal runs. -/
theorem runs_all (all : List (Member Ty)) : Runs all 0 all :=
  runs_from all (all.length + 1) (by omega) fun _ _ => rfl

/-- What a field of a run knows: fields `r` from place `i` on share one element. -/
structure RunAt (all : List (Member Ty)) (i : ℕ) (r : List (Member Ty)) : Prop where
  two_le : 2 ≤ r.length
  total_pos : 0 < (r.map width).sum
  packable : ∀ m ∈ r, (packable m).isSome
  slot : ∀ j, j < r.length → (packOf all (i + j)).packed = true ∧
    (packOf all (i + j)).offset = ((r.take j).map width).sum ∧
    (packOf all (i + j)).bits = (r[j]?.map width).getD 0 ∧
    (packOf all (i + j)).last = decide (j + 1 = r.length)

/-- The fields from place `i` on are alone or in runs. -/
inductive Split (all : List (Member Ty)) : ℕ → List (Member Ty) → Prop
  | nil (i : ℕ) : Split all i []
  | alone (i : ℕ) (m : Member Ty) (ms : List (Member Ty)) :
      (packOf all i).packed = false → Split all (i + 1) ms → Split all i (m :: ms)
  | run (i : ℕ) (r ms : List (Member Ty)) :
      RunAt all i r → Split all (i + r.length) ms → Split all i (r ++ ms)

lemma Split.alone_all {all : List (Member Ty)} (r : List (Member Ty)) {i : ℕ}
    {ms : List (Member Ty)} (h : ∀ j, j < r.length → (packOf all (i + j)).packed = false)
    (hms : Split all (i + r.length) ms) : Split all i (r ++ ms) := by
  induction r generalizing i with
  | nil => exact hms
  | cons m r ih =>
      refine .alone i m (r ++ ms) (h 0 (Nat.succ_pos _)) (ih (fun j hj => ?_) ?_)
      · rw [Nat.add_assoc, Nat.add_comm 1 j]
        exact h (j + 1) (Nat.succ_lt_succ hj)
      · rw [Nat.add_assoc, Nat.add_comm 1 r.length]
        exact hms

/-- A run of one field, or of no width, shares nothing. -/
lemma Runs.split {all : List (Member Ty)} {i : ℕ} {ms : List (Member Ty)} (h : Runs all i ms) :
    Split all i ms := by
  induction h with
  | nil i => exact .nil i
  | alone i m ms _ halone _ ih => exact .alone i m ms (by rw [halone]; rfl) ih
  | run i r ms hr _ ih =>
      have hpos := hr.pos
      by_cases h1 : r.length = 1
      · refine Split.alone_all r (fun j hj => ?_) ih
        obtain rfl : j = 0 := by omega
        rw [Nat.add_zero, hr.alone h1]
        rfl
      · have hshared := hr.shared (by omega)
        by_cases h0 : (r.map width).sum = 0
        · refine Split.alone_all r (fun j hj => ?_) ih
          simp [Pack.packed, (hshared j hj).2, h0]
        · refine .run i r ms ⟨by omega, by omega, hr.packable, fun j hj => ?_⟩ ih
          obtain ⟨hbits, htotal⟩ := hshared j hj
          refine ⟨?_, hr.offset j hj, hbits, hr.last j hj⟩
          rw [Pack.packed, htotal, decide_eq_true_iff]
          omega

/-- **The fields of a struct** are alone or in runs. -/
theorem split_all (all : List (Member Ty)) : Split all 0 all := (runs_all all).split

/-! ### Neighbours -/

/-- What the places of two neighbours have to do with each other. -/
structure Neighbours (all : List (Member Ty)) (i : ℕ) : Prop where
  last : (packOf all i).packed → (packOf all i).last → (packOf all (i + 1)).packed →
    (packOf all (i + 1)).offset = 0
  next : (packOf all i).packed → (packOf all i).last = false → i + 1 < all.length ∧
    (packOf all (i + 1)).packed ∧
    (packOf all (i + 1)).offset = (packOf all i).offset + (packOf all i).bits
  zero : (packOf all i).packed → (packOf all i).offset = 0 → (packOf all i).bits = 0 →
    (packOf all i).last = false
  start : (packOf all i).packed = false → (packOf all (i + 1)).packed →
    (packOf all (i + 1)).offset = 0
  packable : (packOf all i).packed → ∀ m, all[i]? = some m → (packable m).isSome

lemma packOf_ge {all : List (Member Ty)} {i : ℕ} (h : all.length ≤ i) : packOf all i = .ALONE := by
  have key : ∀ fuel start, packFrom all i fuel start = .ALONE := by
    intro fuel
    induction fuel with
    | zero => exact fun _ => rfl
    | succ fuel ih =>
        intro start
        rw [packFrom]
        split
        · rfl
        · next m rest hdrop =>
            have hlen := congrArg List.length hdrop
            rw [List.length_drop, List.length_cons] at hlen
            split
            · exact ih _
            · next w0 _ =>
                have hle := joinRun_le w0 rest
                rw [if_neg (by omega), if_neg (by omega)]
                exact ih _
  exact key _ _

/-- The first of the remaining fields starts an element, or is in none. -/
lemma Split.head {all : List (Member Ty)} {i : ℕ} {ms : List (Member Ty)} (h : Split all i ms)
    (hdrop : all.drop i = ms) : (packOf all i).packed → (packOf all i).offset = 0 := by
  intro hp
  cases h with
  | nil =>
      rw [packOf_ge (List.drop_eq_nil_iff.mp hdrop)] at hp
      exact absurd hp (by decide)
  | alone _ m ms halone _ => exact absurd (halone.symm.trans hp) (by decide)
  | run _ r ms hr _ =>
      have h0 := (hr.slot 0 (by have := hr.two_le; omega)).2.1
      simpa using h0

lemma Split.neighbours {all : List (Member Ty)} {i : ℕ} {ms : List (Member Ty)}
    (h : Split all i ms) (hdrop : all.drop i = ms) : ∀ k, i ≤ k → k < all.length →
      Neighbours all k := by
  induction h with
  | nil i =>
      intro k hik hk
      have := List.drop_eq_nil_iff.mp hdrop
      omega
  | alone i m ms halone hms ih =>
      have hdrop' : all.drop (i + 1) = ms := by
        rw [← List.drop_drop, hdrop, List.drop_one, List.tail_cons]
      intro k hik hk
      rcases Nat.eq_or_lt_of_le hik with rfl | hlt
      · have hfalse : ¬ (packOf all i).packed = true := by rw [halone]; decide
        exact ⟨fun hp => absurd hp hfalse, fun hp => absurd hp hfalse, fun hp => absurd hp hfalse,
          fun _ => hms.head hdrop', fun hp => absurd hp hfalse⟩
      · exact ih hdrop' k hlt hk
  | run i r ms hr hms ih =>
      have hdrop' : all.drop (i + r.length) = ms := by
        rw [← List.drop_drop, hdrop, List.drop_left]
      have hlen : i + r.length ≤ all.length := by
        have := congrArg List.length hdrop
        rw [List.length_drop, List.length_append] at this
        have := hr.two_le
        omega
      intro k hik hk
      rcases lt_or_ge k (i + r.length) with hlt | hge
      · obtain ⟨j, rfl⟩ := Nat.exists_eq_add_of_le hik
        have hj : j < r.length := by omega
        obtain ⟨hp, ho, hb, hl⟩ := hr.slot j hj
        refine ⟨fun _ hlast => ?_, fun _ hlast => ?_, fun _ h0 hb0 => ?_, fun hnp => ?_,
          fun _ m hm => ?_⟩
        · rw [hl, decide_eq_true_iff] at hlast
          rw [Nat.add_assoc, hlast]
          exact hms.head hdrop'
        · rw [hl, decide_eq_false_iff_not] at hlast
          obtain ⟨hp', ho', -, -⟩ := hr.slot (j + 1) (by omega)
          refine ⟨by omega, hp', ?_⟩
          rw [Nat.add_assoc, ho', ho, hb, List.take_add_one]
          cases r[j]? <;> simp
        · rw [hl, decide_eq_false_iff_not]
          intro hlast
          have htotal := hr.total_pos
          have hsplit : r = r.take j ++ r[j]?.toList := by
            rw [← List.take_add_one, hlast, List.take_length]
          rw [hb] at hb0
          rw [ho] at h0
          rw [hsplit, List.map_append, List.sum_append, h0] at htotal
          cases hget : r[j]? with
          | none => simp [hget] at htotal
          | some m => simp [hget] at hb0 htotal; omega
        · exact absurd (hnp.symm.trans hp) (by decide)
        · rw [← List.getElem?_drop, hdrop, List.getElem?_append_left hj] at hm
          exact hr.packable m (List.mem_of_getElem? hm)
      · exact ih hdrop' k hge hk

/-- **Neighbours** in a struct: runs are contiguous, from offset zero to their last field. -/
theorem neighbours (all : List (Member Ty)) {i : ℕ} (hi : i < all.length) : Neighbours all i :=
  (split_all all).neighbours List.drop_zero i (Nat.zero_le i) hi

end Input

end XarkCircuit
