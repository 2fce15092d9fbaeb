import XarkCircuit.Search.SquareSound

/-!
What propagating one row concludes.

* `resolve_spec` and `collect_spec`: a row's terms, resolved, have the row's value under every
  assignment that respects the facts, and are over unknowns.
* `univariate_spec` and `processTerms_spec`: the resolved row is used soundly.
* `process_spec`: **propagating a row** only concludes what follows from it, and leaves a row
  without unknowns only when it holds.
-/

namespace XarkCircuit.Search

variable {p n m : ℕ} {rows : Fin m → Row p n} {fuel : ℕ}

/-! ### Resolving -/

/-- The value of a resolved variable. -/
def Resolved.value (x : Fin n → ZMod p) : Resolved p n → ZMod p
  | .known y => y
  | .lin u a b => a * x u + b

/-- Where the aliases of `v` end, unless it has a value. -/
def Resolved.Ends (f : Facts p n) (v : Fin n) : Resolved p n → Prop
  | .known _ => True
  | .lin u _ _ => f.Unknown u ∧ f.Leads v u

lemma resolveLoop_spec {f : Facts p n} {a b : ZMod p} {u : Fin n} {r : Resolved p n}
    (h : resolveLoop f fuel a b u = .ok r) :
    (∀ x, f.Respects x → r.value x = a * x u + b) ∧ r.Ends f u := by
  induction fuel generalizing a b u with
  | zero => exact absurd h (by simp [resolveLoop])
  | succ fuel ih =>
      rw [resolveLoop] at h
      split at h
      · rename_i y hdom
        obtain rfl := Except.ok.inj h
        refine ⟨fun x hx => ?_, trivial⟩
        have hxu : x u = y := by simpa [hdom, Dom.Mem] using hx.dom u
        rw [Resolved.value, hxu]
      · rename_i hdom
        split at h
        · rename_i w a2 b2 hal
          obtain ⟨hval, hends⟩ := ih h
          refine ⟨fun x hx => ?_, ?_⟩
          · rw [hval x hx, hx.aliasOf u w a2 b2 hal]
            ring
          · cases r with
            | known y => trivial
            | lin u' a' b' => exact ⟨hends.1, .head ⟨a2, b2, hal⟩ hends.2⟩
        · rename_i hal
          obtain rfl := Except.ok.inj h
          exact ⟨fun x _ => rfl, ⟨hal, hdom⟩, .refl⟩

/-- **Resolving** a variable keeps its value and ends at an unknown. -/
lemma resolve_spec {f : Facts p n} {v : Fin n} {r : Resolved p n}
    (h : resolve f fuel v = .ok r) :
    (∀ x, f.Respects x → r.value x = x v) ∧ r.Ends f v := by
  rw [resolve] at h
  split at h
  · rename_i hal
    split at h
    · rename_i y hdom
      obtain rfl := Except.ok.inj h
      refine ⟨fun x hx => ?_, trivial⟩
      have hxv : x v = y := by simpa [hdom, Dom.Mem] using hx.dom v
      exact hxv.symm
    · rename_i hdom
      obtain rfl := Except.ok.inj h
      exact ⟨fun x _ => by rw [Resolved.value]; ring, ⟨hal, hdom⟩, .refl⟩
  · obtain ⟨hval, hends⟩ := resolveLoop_spec h
    exact ⟨fun x hx => by rw [hval x hx]; ring, hends⟩

lemma rootOf_spec {f : Facts p n} {v u : Fin n} (h : rootOf f fuel v = .ok u) :
    f.Leads v u ∧ f.aliasOf u = none := by
  induction fuel generalizing v with
  | zero => exact absurd h (by simp [rootOf])
  | succ fuel ih =>
      rw [rootOf] at h
      split at h
      · rename_i w a b hal
        obtain ⟨hleads, hroot⟩ := ih h
        exact ⟨.head ⟨a, b, hal⟩ hleads, hroot⟩
      · rename_i hal
        obtain rfl := Except.ok.inj h
        exact ⟨.refl, hal⟩

/-- An idle row has an unknown. -/
lemma idle_spec {f : Facts p n} {row : Row p n} (h : idle fuel f row = .ok true) :
    ∃ v ∈ row.vars, f.Open v := by
  have hloop : ∀ vars seen free, idleLoop fuel f seen free vars = .ok true →
      ∃ v ∈ vars, f.Open v := by
    intro vars
    induction vars with
    | nil => exact fun _ _ h => absurd h (by simp [idleLoop])
    | cons v vars ih =>
        intro seen free h
        rw [idleLoop] at h
        obtain ⟨u, hu, h⟩ := Outcome.bind_eq_ok.mp h
        have hrest : (∃ v ∈ vars, f.Open v) → ∃ w ∈ v :: vars, f.Open w :=
          fun ⟨w, hw, hopen⟩ => ⟨w, List.mem_cons_of_mem _ hw, hopen⟩
        split at h
        · exact hrest (ih _ _ h)
        · rename_i hdom
          obtain ⟨hleads, hroot⟩ := rootOf_spec hu
          exact ⟨v, List.mem_cons_self, u, hleads, hroot, hdom⟩
  obtain ⟨v, hv, hopen⟩ := hloop _ _ _ h
  refine ⟨v, ?_, hopen⟩
  rw [Row.vars]
  exact List.mem_append.mpr (List.mem_append.mp hv).symm

/-! ### Collecting -/

/-- The value of resolved terms. -/
def Terms.value (t : Terms p n) (x : Fin n → ZMod p) : ZMod p :=
  t.konst + SparseForm.evalEntries t.lin x + evalQuad t.quad x

/-- Terms over unknowns that come from the variables `vars`. -/
structure Terms.Ok (f : Facts p n) (vars : List (Fin n)) (t : Terms p n) : Prop where
  lin : ∀ e ∈ t.lin, f.Unknown e.1
  quad : ∀ q ∈ t.quad, (f.Unknown (ofLex q.1).1 ∧ f.Unknown (ofLex q.1).2) ∧
    (ofLex q.1).1 ≤ (ofLex q.1).2
  opens : t.lin ≠ [] ∨ t.quad ≠ [] → ∃ v ∈ vars, f.Open v

lemma evalEntries_append {κ R : Type*} [CommRing R] (es fs : List (κ × R)) (x : κ → R) :
    SparseForm.evalEntries (es ++ fs) x
      = SparseForm.evalEntries es x + SparseForm.evalEntries fs x := by
  simp [SparseForm.evalEntries]

/-- What ends at an unknown is open. -/
lemma Resolved.Ends.opens {f : Facts p n} {v u : Fin n} {a b : ZMod p}
    (h : (Resolved.lin u a b).Ends f v) : f.Open v := ⟨u, h.2, h.1.1, h.1.2⟩

lemma addLin_spec {f : Facts p n} {vars : List (Fin n)} {t t' : Terms p n} {e : ZMod p × Fin n}
    (he : e.2 ∈ vars) (ht : t.Ok f vars) (h : addLin fuel f t e = .ok t') :
    t'.Ok f vars ∧ ∀ x, f.Respects x → t'.value x = t.value x + e.1 * x e.2 := by
  obtain ⟨r, hr, h⟩ := Outcome.bind_eq_ok.mp h
  obtain ⟨hval, hends⟩ := resolve_spec hr
  cases r with
  | known y =>
      obtain rfl := Except.ok.inj h
      refine ⟨⟨ht.lin, ht.quad, ht.opens⟩, fun x hx => ?_⟩
      rw [← hval x hx, Terms.value, Terms.value, Resolved.value]
      ring
  | lin u a b =>
      obtain rfl := Except.ok.inj h
      refine ⟨⟨fun e' he' => ?_, ht.quad, fun _ => ⟨e.2, he, hends.opens⟩⟩, fun x hx => ?_⟩
      · rcases List.mem_append.mp he' with he' | he'
        · exact ht.lin e' he'
        · rw [List.mem_singleton.mp he']
          exact hends.1
      · rw [← hval x hx, Terms.value, Terms.value, Resolved.value, evalEntries_append,
          SparseForm.evalEntries_cons, SparseForm.evalEntries_nil]
        ring

lemma addMul_spec {f : Facts p n} {vars : List (Fin n)} {t t' : Terms p n}
    {mul : ZMod p × Fin n × Fin n} (hl : mul.2.1 ∈ vars) (hr : mul.2.2 ∈ vars)
    (ht : t.Ok f vars) (h : addMul fuel f t mul = .ok t') :
    t'.Ok f vars ∧
      ∀ x, f.Respects x → t'.value x = t.value x + mul.1 * x mul.2.1 * x mul.2.2 := by
  obtain ⟨c, l, r⟩ := mul
  obtain ⟨rl, hrl, h⟩ := Outcome.bind_eq_ok.mp h
  obtain ⟨rr, hrr, h⟩ := Outcome.bind_eq_ok.mp h
  obtain ⟨hvall, hendsl⟩ := resolve_spec hrl
  obtain ⟨hvalr, hendsr⟩ := resolve_spec hrr
  have hone : ∀ u a, f.Unknown u → (∃ v ∈ vars, f.Open v) → ∀ k : ZMod p,
      Terms.Ok f vars { t with konst := k, lin := t.lin ++ [(u, a)] } := by
    intro u a hu hopen k
    refine ⟨fun e he => ?_, ht.quad, fun _ => hopen⟩
    rcases List.mem_append.mp he with he | he
    · exact ht.lin e he
    · rw [List.mem_singleton.mp he]
      exact hu
  cases rl with
  | known y =>
      cases rr with
      | known z =>
          obtain rfl := Except.ok.inj h
          refine ⟨⟨ht.lin, ht.quad, ht.opens⟩, fun x hx => ?_⟩
          rw [← hvall x hx, ← hvalr x hx, Terms.value, Terms.value, Resolved.value,
            Resolved.value]
          ring
      | lin u a b =>
          obtain rfl := Except.ok.inj h
          refine ⟨hone u _ hendsr.1 ⟨r, hr, hendsr.opens⟩ _, fun x hx => ?_⟩
          rw [← hvall x hx, ← hvalr x hx, Terms.value, Terms.value, Resolved.value,
            Resolved.value, evalEntries_append, SparseForm.evalEntries_cons,
            SparseForm.evalEntries_nil]
          ring
  | lin u a b =>
      cases rr with
      | known z =>
          obtain rfl := Except.ok.inj h
          refine ⟨hone u _ hendsl.1 ⟨l, hl, hendsl.opens⟩ _, fun x hx => ?_⟩
          rw [← hvall x hx, ← hvalr x hx, Terms.value, Terms.value, Resolved.value,
            Resolved.value, evalEntries_append, SparseForm.evalEntries_cons,
            SparseForm.evalEntries_nil]
          ring
      | lin w a' b' =>
          obtain rfl := Except.ok.inj h
          refine ⟨⟨fun e he => ?_, fun q hq => ?_, fun _ => ⟨l, hl, hendsl.opens⟩⟩,
            fun x hx => ?_⟩
          · rcases List.mem_append.mp he with he | he
            · exact ht.lin e he
            · rcases List.mem_cons.mp he with rfl | he
              · exact hendsl.1
              · rw [List.mem_singleton.mp he]
                exact hendsr.1
          · rcases List.mem_append.mp hq with hq | hq
            · exact ht.quad q hq
            · rw [List.mem_singleton.mp hq, ofLex_toLex]
              refine ⟨?_, min_le_max⟩
              rcases le_total u w with huw | hwu
              · rw [min_eq_left huw, max_eq_right huw]
                exact ⟨hendsl.1, hendsr.1⟩
              · rw [min_eq_right hwu, max_eq_left hwu]
                exact ⟨hendsr.1, hendsl.1⟩
          · have hprod : x (min u w) * x (max u w) = x u * x w := by
              rcases le_total u w with huw | hwu
              · rw [min_eq_left huw, max_eq_right huw]
              · rw [min_eq_right hwu, max_eq_left hwu, mul_comm]
            rw [← hvall x hx, ← hvalr x hx]
            simp only [Terms.value, Resolved.value, evalQuad, evalEntries_append,
              SparseForm.evalEntries_cons, SparseForm.evalEntries_nil, ofLex_toLex, hprod]
            ring

/-- Adding terms one after the other. -/
lemma foldlM_terms {α : Type} {f : Facts p n} {vars : List (Fin n)}
    {step : Terms p n → α → Outcome (Terms p n)} {g : α → (Fin n → ZMod p) → ZMod p} {l : List α}
    {t t' : Terms p n}
    (hstep : ∀ e ∈ l, ∀ t t', t.Ok f vars → step t e = .ok t' →
      t'.Ok f vars ∧ ∀ x, f.Respects x → t'.value x = t.value x + g e x)
    (ht : t.Ok f vars) (h : l.foldlM step t = .ok t') :
    t'.Ok f vars ∧
      ∀ x, f.Respects x → t'.value x = t.value x + (l.map fun e => g e x).sum := by
  induction l generalizing t with
  | nil =>
      obtain rfl := Except.ok.inj h
      exact ⟨ht, fun x _ => by simp⟩
  | cons e l ih =>
      rw [List.foldlM_cons] at h
      obtain ⟨t₁, h₁, h⟩ := Outcome.bind_eq_ok.mp h
      obtain ⟨ht₁, hval₁⟩ := hstep e List.mem_cons_self t t₁ ht h₁
      obtain ⟨ht', hval⟩ := ih (fun e' he' => hstep e' (List.mem_cons_of_mem _ he')) ht₁ h
      refine ⟨ht', fun x hx => ?_⟩
      rw [hval x hx, hval₁ x hx, List.map_cons, List.sum_cons, add_assoc]

/-- **Collecting** a row keeps its value. -/
theorem collect_spec {f : Facts p n} {row : Row p n} {t : Terms p n}
    (h : collect fuel f row = .ok t) :
    t.Ok f row.vars ∧ ∀ x, f.Respects x → t.value x = row.eval x := by
  obtain ⟨t₁, h₁, h⟩ := Outcome.bind_eq_ok.mp h
  have hmul : ∀ e ∈ row.muls, e.2.1 ∈ row.vars ∧ e.2.2 ∈ row.vars := fun e he =>
    ⟨List.mem_append_left _ (List.mem_flatMap.mpr ⟨e, he, by simp⟩),
      List.mem_append_left _ (List.mem_flatMap.mpr ⟨e, he, by simp⟩)⟩
  have hlin : ∀ e ∈ row.lins, e.2 ∈ row.vars := fun e he =>
    List.mem_append_right _ (List.mem_map_of_mem he)
  have hempty : Terms.Ok f row.vars ⟨row.konst, [], []⟩ := ⟨by simp, by simp, by simp⟩
  obtain ⟨ht₁, hval₁⟩ := foldlM_terms (g := fun e x => e.1 * x e.2.1 * x e.2.2)
    (fun e he t t' ht hs => addMul_spec (hmul e he).1 (hmul e he).2 ht hs) hempty h₁
  obtain ⟨ht, hval⟩ := foldlM_terms (g := fun e x => e.1 * x e.2)
    (fun e he t t' ht hs => addLin_spec (hlin e he) ht hs) ht₁ h
  refine ⟨ht, fun x hx => ?_⟩
  rw [hval x hx, hval₁ x hx, Row.eval]
  simp [Terms.value, evalQuad]

section Field

variable [Fact p.Prime]

/-! ### One unknown -/

lemma mem_rootsIn {a b konst : ZMod p} {lo hi z : ℤ} :
    z ∈ rootsIn a b konst lo hi ↔
      lo ≤ z ∧ z ≤ hi ∧ a * z * z + b * z + konst = 0 := by
  rw [rootsIn, List.mem_filter, List.mem_map, decide_eq_true_iff, fp_eq]
  constructor
  · rintro ⟨⟨i, hi', rfl⟩, hz⟩
    have hlt := List.mem_range.mp hi'
    exact ⟨by omega, by omega, hz⟩
  · rintro ⟨hlo, hhi, hz⟩
    exact ⟨⟨(z - lo).toNat, List.mem_range.mpr (by omega), by omega⟩, hz⟩

omit [Fact p.Prime] in
lemma pairwise_rootsIn (a b konst : ZMod p) (lo hi : ℤ) :
    (rootsIn a b konst lo hi).Pairwise (· < ·) := by
  refine List.Pairwise.filter _ (List.pairwise_map.mpr ?_)
  exact List.pairwise_lt_range.imp fun h => by omega

/-- Everything in an increasing list is between its ends. -/
lemma between_ends {l : List ℤ} {z₀ : ℤ} (h : (z₀ :: l).Pairwise (· < ·)) {z : ℤ}
    (hz : z ∈ z₀ :: l) : z₀ ≤ z ∧ z ≤ (z₀ :: l).getLast (by simp) := by
  constructor
  · rcases List.mem_cons.mp hz with rfl | hz
    · exact le_rfl
    · exact ((List.pairwise_cons.mp h).1 z hz).le
  · rw [← List.dropLast_concat_getLast (l := z₀ :: l) (by simp)] at hz h
    rcases List.mem_append.mp hz with hz | hz
    · exact ((List.pairwise_append.mp h).2.2 z hz _ (List.mem_singleton_self _)).le
    · exact (List.mem_singleton.mp hz).le

/-- A quadratic in one unknown is used soundly. -/
lemma univariate_spec {st : State p n m} {v : Fin n} {a b konst : ZMod p}
    {quad : List ((Fin n ×ₗ Fin n) × ZMod p)} {lin : List (Fin n × ZMod p)}
    {r : State p n m × Bool} (hok : st.Ok) (hv : st.Unknown v)
    (hquad : ∀ q ∈ quad, ofLex q.1 = (v, v)) (hqnodup : (quad.map Prod.fst).Nodup)
    (hlnodup : (lin.map Prod.fst).Nodup)
    (hqval : ∀ x, evalQuad quad x = a * (x v * x v))
    (hlval : ∀ x, SparseForm.evalEntries lin x = b * x v)
    (h : univariate rows fuel st v a b konst quad lin = .ok r) :
    Deduces rows st (fun x => SparseForm.evalEntries lin x + evalQuad quad x + konst = 0) r := by
  have hsquare : squareOfLinear rows fuel st quad lin konst = .ok r → Deduces rows st
      (fun x => SparseForm.evalEntries lin x + evalQuad quad x + konst = 0) r := fun h =>
    squareOfLinear_spec hok (fun q hq => by rw [hquad q hq]; exact ⟨hv, hv⟩)
      (fun q hq => by rw [hquad q hq]) hqnodup hlnodup h
  unfold univariate at h
  split_ifs at h with ha hb hbool
  · refine (linear_spec hok (by simp) (by simp) h).mono fun x _ hx => ?_
    rw [hqval, hlval, ha, hb] at hx
    simpa using hx
  · refine (linear_spec hok (fun e he => ?_) (by simp) h).mono fun x _ hx => ?_
    · rw [List.mem_singleton.mp he]
      exact hv
    · rw [hqval, hlval, ha] at hx
      simpa using hx
  · -- the roots of `a · v² - a · v` are zero and one
    have hp : 1 < p := (Fact.out : p.Prime).one_lt
    refine (narrow_spec hok hv.1 (by omega) h).1.mono fun x _ hx => ?_
    rw [hqval, hlval, hbool.1, hbool.2] at hx
    have hprod : a * (x v * (x v - 1)) = 0 := by linear_combination hx
    rcases mul_eq_zero.mp ((mul_eq_zero.mp hprod).resolve_left ha) with h0 | h1
    · exact ⟨0, le_rfl, zero_le_one, by rw [h0, Int.cast_zero]⟩
    · exact ⟨1, zero_le_one, le_rfl, by rw [sub_eq_zero.mp h1, Int.cast_one]⟩
  · cases hdom : st.dom v with
    | val y => rw [hdom] at h; exact hsquare h
    | free => rw [hdom] at h; exact hsquare h
    | range lo hi =>
        rw [hdom] at h
        dsimp only at h
        split_ifs at h with hsmall
        · have hroot : ∀ x, st.Respects x →
              SparseForm.evalEntries lin x + evalQuad quad x + konst = 0 →
              ∃ z ∈ rootsIn a b konst lo hi, (z : ZMod p) = x v := by
            intro x hx hrow
            have hmem := hx.dom v
            rw [hdom] at hmem
            obtain ⟨z, hlo, hhi, hz⟩ := hmem
            refine ⟨z, mem_rootsIn.mpr ⟨hlo, hhi, ?_⟩, hz⟩
            rw [hqval, hlval] at hrow
            rw [hz]
            linear_combination hrow
          have hpair := pairwise_rootsIn a b konst lo hi
          have hbounds : ∀ z ∈ rootsIn a b konst lo hi, lo ≤ z ∧ z ≤ hi := fun z hz =>
            ⟨(mem_rootsIn.mp hz).1, (mem_rootsIn.mp hz).2.1⟩
          cases hroots : rootsIn a b konst lo hi with
          | nil =>
              rw [hroots] at h
              obtain rfl := Except.ok.inj h
              refine .fail hok fun x hx hrow => ?_
              obtain ⟨z, hz, -⟩ := hroot x hx hrow
              rw [hroots] at hz
              exact List.not_mem_nil hz
          | cons z₀ zs =>
              rw [hroots] at h hpair hbounds
              have hlast := hbounds _ (List.getLast_mem (l := z₀ :: zs) (by simp))
              have hfirst := hbounds z₀ List.mem_cons_self
              have hdomain := hok.range v lo hi hdom
              refine (narrow_spec hok hv.1 (by omega) h).1.mono fun x hx hrow => ?_
              obtain ⟨z, hz, hzx⟩ := hroot x hx hrow
              rw [hroots] at hz
              obtain ⟨hge, hle⟩ := between_ends hpair hz
              exact ⟨z, hge, hle, hzx⟩
        · exact hsquare h

/-! ### Rows -/

/-- A quadratic form in one unknown. -/
lemma evalQuad_univariate {quad : List ((Fin n ×ₗ Fin n) × ZMod p)} {v : Fin n}
    (h : ∀ q ∈ quad, ofLex q.1 = (v, v)) (x : Fin n → ZMod p) :
    evalQuad quad x = quad.foldl (fun s q => s + q.2) 0 * (x v * x v) := by
  have hsum : quad.foldl (fun s q => s + q.2) 0 = (quad.map Prod.snd).sum := by
    rw [List.sum_eq_foldl, List.foldl_map]
  rw [hsum, evalQuad, SparseForm.evalEntries, ← List.sum_map_mul_right]
  refine congrArg List.sum (List.map_congr_left fun q hq => ?_)
  rw [h q hq]

/-- A linear form in one unknown. -/
lemma eval_univariate {lin : SparseForm (Fin n) (ZMod p)} {v : Fin n}
    (h : ∀ e ∈ lin.entries, e.1 = v) (x : Fin n → ZMod p) :
    lin.eval x = (lin.entries.head?.map Prod.snd).getD 0 * x v := by
  have hsorted := lin.sorted
  rw [SparseForm.eval]
  rcases hl : lin.entries with _ | ⟨e, _ | ⟨e', es⟩⟩
  · simp
  · rw [hl] at h
    simp [h e List.mem_cons_self]
  · rw [hl] at h hsorted
    have hlt := (List.pairwise_cons.mp hsorted).1 e' List.mem_cons_self
    rw [h e (by simp), h e' (by simp)] at hlt
    exact absurd hlt (lt_irrefl v)

/-- The resolved row is used soundly. -/
lemma processTerms_spec {st : State p n m} {lin : SparseForm (Fin n) (ZMod p)}
    {quad : SparseForm (Fin n ×ₗ Fin n) (ZMod p)} {konst : ZMod p} {r : State p n m × Bool}
    (hok : st.Ok) (hlin : ∀ e ∈ lin.entries, st.Unknown e.1)
    (hquad : ∀ q ∈ quad.entries, (st.Unknown (ofLex q.1).1 ∧ st.Unknown (ofLex q.1).2) ∧
      (ofLex q.1).1 ≤ (ofLex q.1).2)
    (h : processTerms rows fuel st lin quad konst = .ok r) :
    Deduces rows st (fun x => lin.eval x + evalQuad quad.entries x + konst = 0) r := by
  have hsquare : squareOfLinear rows fuel st quad.entries lin.entries konst = .ok r →
      Deduces rows st (fun x => lin.eval x + evalQuad quad.entries x + konst = 0) r := fun h =>
    squareOfLinear_spec hok (fun q hq => (hquad q hq).1) (fun q hq => (hquad q hq).2)
      quad.nodup_vars lin.nodup_vars h
  unfold processTerms at h
  cases hq : quad.entries with
  | nil =>
      rw [hq] at h
      refine (linear_spec hok hlin lin.nodup_vars h).mono fun x _ hx => ?_
      rw [evalQuad, SparseForm.evalEntries_nil, add_zero] at hx
      exact hx
  | cons q qs =>
      rw [hq] at h
      dsimp only at h
      split_ifs at h with hmixed
      · rw [← hq] at h ⊢
        exact hsquare h
      · rw [← hq] at h hmixed ⊢
        obtain ⟨hqs, hls⟩ := not_or.mp hmixed
        have hqv : ∀ q' ∈ quad.entries, ofLex q'.1 = ((ofLex q.1).1, (ofLex q.1).1) := by
          intro q' hq'
          have hne : ¬ ((ofLex q'.1).1 ≠ (ofLex q.1).1 ∨ (ofLex q'.1).2 ≠ (ofLex q.1).1) :=
            fun h => hqs (List.any_eq_true.mpr ⟨q', hq', decide_eq_true h⟩)
          push Not at hne
          exact Prod.ext hne.1 hne.2
        have hlv : ∀ e ∈ lin.entries, e.1 = (ofLex q.1).1 := by
          intro e he
          by_contra hne
          exact hls (List.any_eq_true.mpr ⟨e, he, decide_eq_true hne⟩)
        have hunknown : st.Unknown (ofLex q.1).1 :=
          (hquad q (hq ▸ List.mem_cons_self)).1.1
        exact univariate_spec hok hunknown hqv quad.nodup_vars lin.nodup_vars
          (evalQuad_univariate hqv) (eval_univariate hlv) h

/-- **Propagating a row** only concludes what follows from it; and a row it is done with has an
unknown left, or holds. -/
theorem process_spec {st : State p n m} {ci : Fin m} {r : State p n m × Bool} (hok : st.Ok)
    (h : process rows fuel st ci = .ok r) :
    Deduces rows st (fun x => (rows ci).eval x = 0) r ∧
      (r.2 = true → (∃ v ∈ (rows ci).vars, st.Open v) ∨
        ∀ x, st.Respects x → (rows ci).eval x = 0) := by
  obtain ⟨isIdle, hidle, h⟩ := Outcome.bind_eq_ok.mp h
  split_ifs at h with hi
  · subst hi
    obtain rfl := Except.ok.inj h
    exact ⟨.pass hok, fun _ => Or.inl (idle_spec hidle)⟩
  · obtain ⟨t, ht, h⟩ := Outcome.bind_eq_ok.mp h
    obtain ⟨hterms, hval⟩ := collect_spec ht
    have heval : ∀ x, st.Respects x → (SparseForm.ofTerms t.lin).eval x
        + evalQuad (SparseForm.ofTerms t.quad).entries x + t.konst = (rows ci).eval x := by
      intro x hx
      have hq : evalQuad (SparseForm.ofTerms t.quad).entries x = evalQuad t.quad x :=
        SparseForm.eval_ofTerms t.quad _
      rw [← hval x hx, SparseForm.eval_ofTerms, hq, Terms.value]
      ring
    have hded := processTerms_spec hok (fun e he => ?_) (fun q hq => ?_) h
    · refine ⟨hded.mono fun x hx hrow => (heval x hx).trans hrow, fun hr => ?_⟩
      by_cases hopen : ∃ v ∈ (rows ci).vars, st.Open v
      · exact Or.inl hopen
      · -- without unknowns the row is a constant, and it was compared with zero
        refine Or.inr fun x hx => ?_
        have hnil : t.lin = [] ∧ t.quad = [] := by
          by_contra hne
          exact hopen (hterms.opens (by tauto))
        rw [hnil.1, hnil.2] at h
        have hrun : processTerms rows fuel st (.ofTerms []) (.ofTerms []) t.konst
            = .ok (st, decide (t.konst = 0)) := rfl
        rw [hrun, Except.ok.injEq] at h
        rw [← h] at hr
        rw [← hval x hx, Terms.value, hnil.1, hnil.2, of_decide_eq_true hr]
        simp [evalQuad]
    · obtain ⟨e', he', heq⟩ := SparseForm.mem_vars_ofTerms (SparseForm.mem_vars.mpr ⟨e, he, rfl⟩)
      exact heq ▸ hterms.lin e' he'
    · obtain ⟨q', hq', heq⟩ := SparseForm.mem_vars_ofTerms (SparseForm.mem_vars.mpr ⟨q, hq, rfl⟩)
      exact heq ▸ hterms.quad q' hq'

end Field

end XarkCircuit.Search
