import XarkCircuit.Verifier.Batch

/-!
What the batch check decides.

* `verifyGroth16Batch_eq` runs the batch down to its loop and its pairing call.
* `batch_of_exponents` and `exponents_of_batch`: the batch answers exactly when every entry has an
  exponent, and then tells whether their weighted sum is zero.
* `batch_sound` is what this means for the checks of the single entries.
-/

namespace XarkCircuit

namespace Verifier

open Codec

variable {G₁ G₂ : Type} [AddCommGroup G₁] [Module Fr G₁] [AddCommGroup G₂] [Module Fr G₂]
variable {B : AltBn128} {W : WireCurve G₁ G₂} {e : G₁ →ₗ[Fr] G₂ →ₗ[Fr] Fr}
variable {hash : List UInt8 → Vector UInt8 32} {seed : List UInt8} {vk : VkParts}

/-! ### The batch down to its loop -/

/-- The number of entries is the length of the batch over the width of an entry. -/
lemma verifyGroth16Batch_eq {vkBytes : List UInt8} {es scratch : List (List UInt8)}
    (hvk : parseVk vkBytes = .ok vk) (hcvk : coordsCanonical vkBytes = true) (hes : es ≠ [])
    (hlen : ∀ entry ∈ es, entry.length = entryBytes vk)
    (hproofs : ∀ entry ∈ es, coordsCanonical (entry.take proofBytes) = true)
    (hscratch : es.length + 3 ≤ scratch.length) :
    verifyGroth16Batch B hash vkBytes es.flatten scratch
      = batchLoop B hash vk (batchSeed hash vkBytes es.flatten es.length) 0 es (batchStart scratch)
          >>= batchFinish B vk es.length := by
  have hpos : 0 < entryBytes vk := Nat.add_pos_left (by decide) _
  have hflat := length_flatten_const hlen
  have hcount : es.flatten.length / entryBytes vk = es.length := by
    rw [hflat, Nat.mul_div_cancel _ hpos]
  have hempty : es.flatten.isEmpty = false := by
    rw [List.isEmpty_eq_false_iff_exists_mem, ← List.length_pos_iff_exists_mem, hflat]
    exact Nat.mul_pos (List.length_pos_iff.mpr hes) hpos
  have hall : (es.all fun entry => coordsCanonical (entry.take proofBytes)) = true :=
    List.all_eq_true.mpr hproofs
  have hmod : es.flatten.length % entryBytes vk = 0 := by rw [hflat, Nat.mul_mod_left]
  rw [verifyGroth16Batch, hcvk]
  simp only [Bool.not_true, Bool.false_eq_true, if_false]
  rw [hvk, answer_ok_bind]
  simp only [hempty, hmod, ne_eq, not_true_eq_false, decide_false, Bool.or_self, Bool.false_eq_true,
    if_false, hcount, not_lt.mpr hscratch, chunksExact_flatten hpos hlen, hall, Bool.not_true]

/-! ### The pairing call -/

/-- The pairing call, over the operands in the slots and the three of the key. -/
lemma batchFinish_eq (hB : B.Correct W e) {vkBytes : List UInt8} (hvk : parseVk vkBytes = .ok vk)
    {st : BatchState} {front : List (List UInt8 × List UInt8)} {n : ℕ}
    (hslots : st.scratch.take n = front.map fun pq => pq.1 ++ pq.2) (hfront : Operands front)
    (hlen : n + 3 ≤ st.scratch.length) (hx : st.vkXAcc.length = g1Bytes)
    (hc : st.cAcc.length = g1Bytes) (hsum : st.sumR.length = frBytes) :
    batchFinish B vk n st = batchAlpha B vk n st >>= fun alpha =>
      answerOf (exponent W e
        (front ++ [(alpha, vk.beta), (st.vkXAcc, vk.gamma), (st.cAcc, vk.delta)])) := by
  obtain ⟨halpha, hbeta, hgamma, hdelta⟩ := parseVk_lengths hvk
  rw [batchFinish]
  cases hal : batchAlpha B vk n st with
  | error f => rfl
  | ok alpha =>
      have hawidth : alpha.length = g1Bytes := by
        rw [batchAlpha] at hal
        split_ifs at hal with hn
        · obtain ⟨α, -, rfl⟩ := (hB.g1Mul_eq_some hsum).mp (syscall_eq_ok.mp hal)
          exact hB.length_enc₁ _
        · cases hal
          exact halpha
      rw [answer_ok_bind, answer_ok_bind]
      dsimp only
      rw [take_set_succ (by rw [List.length_set, List.length_set]; omega),
        take_set_succ (by rw [List.length_set]; omega), take_set_succ (by omega), hslots]
      have hops : Operands
          (front ++ [(alpha, vk.beta), (st.vkXAcc, vk.gamma), (st.cAcc, vk.delta)]) := by
        intro pq hpq
        rcases List.mem_append.mp hpq with hpq | hpq
        · exact hfront pq hpq
        · simp only [List.mem_cons, List.not_mem_nil, or_false] at hpq
          rcases hpq with rfl | rfl | rfl
          · exact ⟨hawidth, hbeta⟩
          · exact ⟨hx, hgamma⟩
          · exact ⟨hc, hdelta⟩
      have hbytes := (hB.pairingBytes _ hops).answer
      simpa only [List.map_append, List.map_cons, List.map_nil, List.append_assoc,
        List.cons_append, List.nil_append] using hbytes

/-! ### The whole run -/

lemma operands_operandsFrom (hB : B.Correct W e) {w : ℕ → Fr} {es : List (List UInt8)} :
    ∀ {pts : List (EntryPoints G₁)} {i : ℕ}, (∀ entry ∈ es, proofBytes ≤ entry.length) →
      Operands (operandsFrom W w i es pts) := by
  induction es with
  | nil => exact fun _ pq hpq => by cases hpq
  | cons entry es ih =>
      intro pts i h
      cases pts with
      | nil => exact fun pq hpq => by cases hpq
      | cons pt pts =>
          intro pq hpq
          rcases List.mem_cons.mp hpq with rfl | hpq
          · refine ⟨hB.length_enc₁ _, length_slice ?_⟩
            rw [List.length_take, min_eq_left (h entry List.mem_cons_self)]
            decide
          · exact ih (fun d hd => h d (List.mem_cons_of_mem _ hd)) pq hpq

/-- The operands in the slots: the first entry's as it came, the others under their weights. -/
def frontOperands (W : WireCurve G₁ G₂) (w : ℕ → Fr) (entry : List UInt8)
    (es : List (List UInt8)) (pts : List (EntryPoints G₁)) : List (List UInt8 × List UInt8) :=
  (aBytes entry, bBytes entry) :: operandsFrom W w 1 es pts

/-- What the loop leaves after all entries. -/
structure RunResult (B : AltBn128) (W : WireCurve G₁ G₂) (e : G₁ →ₗ[Fr] G₂ →ₗ[Fr] Fr)
    (hash : List UInt8 → Vector UInt8 32) (seed : List UInt8) (vk : VkParts)
    (x entry : List UInt8) (es : List (List UInt8)) (pts : List (EntryPoints G₁))
    (st : BatchState) : Prop where
  vkXAcc : W.dec₁ st.vkXAcc = (W.dec₁ x).map fun X =>
    X + weightedSum (weightFr hash seed) 1 (pts.map EntryPoints.x)
  cAcc : W.dec₁ st.cAcc = (W.dec₁ (cBytes entry)).map fun C =>
    C + weightedSum (weightFr hash seed) 1 (pts.map EntryPoints.c)
  length_sumR : st.sumR.length = frBytes
  sumR : fromBytesLe st.sumR = weightTotal (weight hash seed) 0 (es.length + 1) % rModulus
  finish : batchFinish B vk (es.length + 1) st
    = batchAlpha B vk (es.length + 1) st >>= fun alpha =>
        answerOf (exponent W e (frontOperands W (weightFr hash seed) entry es pts
          ++ [(alpha, vk.beta), (st.vkXAcc, vk.gamma), (st.cAcc, vk.delta)]))

/-- The sum of the weights starts at the first one, which is 1. -/
lemma fromBytesLe_batchStart (scratch : List (List UInt8)) :
    (batchStart scratch).sumR.length = frBytes ∧ fromBytesLe (batchStart scratch).sumR = 1 := by
  refine ⟨rfl, ?_⟩
  show fromBytesLe ((List.replicate frBytes 0).set 0 1) = 1
  decide

lemma batchLoop_run (hB : B.Correct W e) {vkBytes entry : List UInt8}
    {es scratch : List (List UInt8)} {st : BatchState} (hvk : parseVk vkBytes = .ok vk)
    (hlen : ∀ d ∈ entry :: es, proofBytes ≤ d.length) (hscratch : es.length + 1 + 3 ≤ scratch.length)
    (h : batchLoop B hash vk seed 0 (entry :: es) (batchStart scratch) = .ok st) :
    ∃ x pts, vkX B vk.ic (entry.drop proofBytes) = .ok x ∧ List.Forall₂ (Decodes B W vk) es pts ∧
      RunResult B W e hash seed vk x entry es pts st := by
  obtain ⟨st₁, hstep, h⟩ := answer_bind_eq_ok.mp h
  obtain ⟨x, hx, rfl⟩ := batchStep_zero.mp hstep
  obtain ⟨pts, hpts, hres⟩ := batchLoop_points hB (by decide) h
  obtain ⟨hstart, hone⟩ := fromBytesLe_batchStart scratch
  obtain ⟨hsumLen, hsum⟩ := hres.sumR hstart (by rw [hone]; decide)
  have hproof : (entry.take proofBytes).length = 256 := by
    rw [List.length_take, min_eq_left (hlen entry List.mem_cons_self)]
    rfl
  have hslots := hres.slots
  have hlenSlots := hres.length_scratch
  simp only [List.length_set] at hslots hlenSlots
  have hzero : (batchStart scratch).scratch = scratch := rfl
  rw [hzero] at hslots hlenSlots
  have hfront : Operands (frontOperands W (weightFr hash seed) entry es pts) := by
    intro pq hpq
    rcases List.mem_cons.mp hpq with rfl | hpq
    · exact ⟨length_slice (by rw [hproof]; decide), length_slice (by rw [hproof]; decide)⟩
    · exact operands_operandsFrom hB (fun d hd => hlen d (List.mem_cons_of_mem _ hd)) pq hpq
  refine ⟨x, pts, hx, hpts, hres.vkXAcc, hres.cAcc, hsumLen, ?_, ?_⟩
  · rw [hsum, weightTotal_succ, hone]
    rfl
  · refine batchFinish_eq hB hvk ?_ hfront ?_ (hres.widths.1 ?_) (hres.widths.2 ?_) hsumLen
    · rw [Nat.add_comm, hslots (by omega), Nat.zero_add, take_set_succ (by omega)]
      rfl
    · rw [hlenSlots]
      exact hscratch
    · exact length_of_vkX hB (parseVk_ic hvk).1 hx
    · exact length_slice (by rw [hproof]; decide)

/-! ### The weight on `alpha` -/

lemma natCast_sumR {x entry : List UInt8} {es : List (List UInt8)} {pts : List (EntryPoints G₁)}
    {st : BatchState} (hres : RunResult B W e hash seed vk x entry es pts st) :
    (fromBytesLe st.sumR : Fr) = weightTotal (weightFr hash seed) 0 (es.length + 1) := by
  rw [hres.sumR, ZMod.natCast_mod, natCast_weightTotal]
  rfl

/-- One entry leaves `alpha` as it is; its weight is 1. -/
lemma dec_batchAlpha (hB : B.Correct W e) {x entry : List UInt8} {es : List (List UInt8)}
    {pts : List (EntryPoints G₁)} {st : BatchState}
    (hres : RunResult B W e hash seed vk x entry es pts st) {alpha : List UInt8}
    (h : batchAlpha B vk (es.length + 1) st = .ok alpha) :
    W.dec₁ alpha = (W.dec₁ vk.alpha).map fun α =>
      weightTotal (weightFr hash seed) 0 (es.length + 1) • α := by
  rw [batchAlpha] at h
  split_ifs at h with hn
  · obtain ⟨α, hα, rfl⟩ := (hB.g1Mul_eq_some hres.length_sumR).mp (syscall_eq_ok.mp h)
    rw [hB.dec₁_enc₁, hα, natCast_sumR hres, Option.map_some]
  · cases h
    have hes : es = [] := List.length_eq_zero_iff.mp (by omega)
    have hone : weightTotal (weightFr hash seed) 0 (([] : List (List UInt8)).length + 1) = 1 := by
      rw [List.length_nil, weightTotal_succ, weightTotal_zero, weightFr_zero, add_zero]
    rw [hes, hone]
    simp

lemma batchAlpha_exists (hB : B.Correct W e) {x entry : List UInt8} {es : List (List UInt8)}
    {pts : List (EntryPoints G₁)} {st : BatchState}
    (hres : RunResult B W e hash seed vk x entry es pts st) {α : G₁}
    (hα : W.dec₁ vk.alpha = some α) :
    ∃ alpha, batchAlpha B vk (es.length + 1) st = .ok alpha := by
  rw [batchAlpha]
  split_ifs
  · exact ⟨_, syscall_eq_ok.mpr ((hB.g1Mul_eq_some hres.length_sumR).mpr ⟨α, hα, rfl⟩)⟩
  · exact ⟨_, rfl⟩

/-! ### From exponents to the batch, and back -/

lemma exponents_of_fully {vkBytes : List UInt8} (hvk : parseVk vkBytes = .ok vk) {α : G₁}
    {β γ δ : G₂} (hk : KeyPoints W vk α β γ δ) {entry : List UInt8} {q : EntryPoints G₁ × G₂}
    (h : DecodesFully B W vk entry q) :
    entryExponent B W e vkBytes entry = some (pointsExponent e α β γ δ q) := by
  obtain ⟨⟨x, hx, hX, ha, hc⟩, hb⟩ := h
  exact (entryExponent_eq_some hvk).mpr ⟨x, hx, exponent_entryOperands hk hX ha hc hb⟩

lemma fully_of_exponent {vkBytes : List UInt8} (hvk : parseVk vkBytes = .ok vk)
    {entry : List UInt8} {t : Fr} (h : entryExponent B W e vkBytes entry = some t) :
    ∃ α β γ δ, KeyPoints W vk α β γ δ ∧ ∃ q, DecodesFully B W vk entry q := by
  obtain ⟨x, hx, ht⟩ := (entryExponent_eq_some hvk).mp h
  obtain ⟨α, β, γ, δ, hk, pt, b, hX, ha, hc, hb⟩ := points_of_exponent ht
  exact ⟨α, β, γ, δ, hk, (pt, b), ⟨x, hx, hX, ha, hc⟩, hb⟩

lemma fully_of_exponents {vkBytes : List UInt8} (hvk : parseVk vkBytes = .ok vk) {α : G₁}
    {β γ δ : G₂} (hk : KeyPoints W vk α β γ δ) {es : List (List UInt8)} {ts : List Fr}
    (h : List.Forall₂ (fun entry t => entryExponent B W e vkBytes entry = some t) es ts) :
    ∃ qs, List.Forall₂ (DecodesFully B W vk) es qs ∧ ts = qs.map (pointsExponent e α β γ δ) := by
  induction h with
  | nil => exact ⟨[], List.Forall₂.nil, rfl⟩
  | cons ht _ ih =>
      obtain ⟨qs, hqs, rfl⟩ := ih
      obtain ⟨-, -, -, -, -, q, hq⟩ := fully_of_exponent hvk ht
      have heq := (exponents_of_fully (e := e) hvk hk hq).symm.trans ht
      exact ⟨q :: qs, List.Forall₂.cons hq hqs, by rw [List.map_cons, Option.some.inj heq]⟩

/-- The pairing product of the batch, where all points are known. -/
lemma exponent_batch (hB : B.Correct W e) {x entry : List UInt8} {es : List (List UInt8)}
    {st : BatchState} {q : EntryPoints G₁ × G₂} {qs : List (EntryPoints G₁ × G₂)} {α : G₁}
    {β γ δ : G₂} (hk : KeyPoints W vk α β γ δ) (hx : vkX B vk.ic (entry.drop proofBytes) = .ok x)
    (hq : DecodesFully B W vk entry q) (hqs : List.Forall₂ (DecodesFully B W vk) es qs)
    (hres : RunResult B W e hash seed vk x entry es (qs.map Prod.fst) st) {alpha : List UInt8}
    (halpha : batchAlpha B vk (es.length + 1) st = .ok alpha) :
    exponent W e (frontOperands W (weightFr hash seed) entry es (qs.map Prod.fst)
        ++ [(alpha, vk.beta), (st.vkXAcc, vk.gamma), (st.cAcc, vk.delta)])
      = some (weightedSum (weightFr hash seed) 0 ((q :: qs).map (pointsExponent e α β γ δ))) := by
  obtain ⟨⟨x', hx', hX, ha, hc⟩, hb⟩ := hq
  rw [hx] at hx'
  cases hx'
  have hdα := dec_batchAlpha hB hres halpha
  have hdx := hres.vkXAcc
  have hdc := hres.cAcc
  rw [hk.alpha, Option.map_some] at hdα
  rw [hX, Option.map_some] at hdx
  rw [hc, Option.map_some] at hdc
  have hfront : exponent W e (frontOperands W (weightFr hash seed) entry es (qs.map Prod.fst))
      = some (e q.1.a q.2 + weightedSum (weightFr hash seed) 1 (qs.map fun q => e q.1.a q.2)) :=
    exponent_cons_eq_some.mpr ⟨q.1.a, q.2, _, ha, hb, exponent_operandsFrom hB hqs 1, rfl⟩
  have hlast : exponent W e [(alpha, vk.beta), (st.vkXAcc, vk.gamma), (st.cAcc, vk.delta)]
      = some (e (weightTotal (weightFr hash seed) 0 (es.length + 1) • α) β
        + (e (q.1.x + weightedSum (weightFr hash seed) 1 ((qs.map Prod.fst).map EntryPoints.x)) γ
        + (e (q.1.c + weightedSum (weightFr hash seed) 1 ((qs.map Prod.fst).map EntryPoints.c)) δ
        + 0))) :=
    exponent_cons_eq_some.mpr ⟨_, β, _, hdα, hk.beta, exponent_cons_eq_some.mpr
      ⟨_, γ, _, hdx, hk.gamma, exponent_cons_eq_some.mpr ⟨_, δ, 0, hdc, hk.delta, rfl, rfl⟩, rfl⟩,
      rfl⟩
  rw [exponent_append, hfront, hlast, Option.bind_some, Option.map_some,
    weightedSum_pointsExponent]
  simp only [List.map_cons, weightedSum_cons, weightFr_zero, one_smul, List.map_map, zero_add,
    List.length_cons, hqs.length_eq, add_zero]
  congr 1
  simp only [Function.comp_def]
  ring

/-- The points of the key and of every entry, from a pairing product that has an exponent. -/
lemma fully_of_exponent_batch (hB : B.Correct W e) {x entry : List UInt8}
    {es : List (List UInt8)} {st : BatchState} {pts : List (EntryPoints G₁)}
    (hx : vkX B vk.ic (entry.drop proofBytes) = .ok x)
    (hpts : List.Forall₂ (Decodes B W vk) es pts)
    (hres : RunResult B W e hash seed vk x entry es pts st) {alpha : List UInt8}
    (halpha : batchAlpha B vk (es.length + 1) st = .ok alpha) {t : Fr}
    (ht : exponent W e (frontOperands W (weightFr hash seed) entry es pts
        ++ [(alpha, vk.beta), (st.vkXAcc, vk.gamma), (st.cAcc, vk.delta)]) = some t) :
    ∃ α β γ δ, KeyPoints W vk α β γ δ ∧ ∃ qs, List.Forall₂ (DecodesFully B W vk) (entry :: es) qs := by
  rw [exponent_append, Option.bind_eq_some_iff] at ht
  obtain ⟨u, hu, ht⟩ := ht
  obtain ⟨v, hv, -⟩ := Option.map_eq_some_iff.mp ht
  obtain ⟨a, b, _, ha, hb, hrest, -⟩ := exponent_cons_eq_some.mp hu
  obtain ⟨qs, hqs⟩ := decodesFully_of_exponent hpts hrest
  obtain ⟨α', β, _, hα, hβ, hv, -⟩ := exponent_cons_eq_some.mp hv
  obtain ⟨X', γ, _, hX, hγ, hv, -⟩ := exponent_cons_eq_some.mp hv
  obtain ⟨C', δ, _, hC, hδ, -, -⟩ := exponent_cons_eq_some.mp hv
  -- the sums decode only when their first terms do
  rw [dec_batchAlpha hB hres halpha] at hα
  rw [hres.vkXAcc] at hX
  rw [hres.cAcc] at hC
  obtain ⟨α, hα, -⟩ := Option.map_eq_some_iff.mp hα
  obtain ⟨X, hX, -⟩ := Option.map_eq_some_iff.mp hX
  obtain ⟨C, hC, -⟩ := Option.map_eq_some_iff.mp hC
  have hentry : DecodesFully B W vk entry (⟨a, C, X⟩, b) := ⟨⟨x, hx, hX, ha, hC⟩, hb⟩
  exact ⟨α, β, γ, δ, ⟨hα, hβ, hγ, hδ⟩, _ :: qs, List.Forall₂.cons hentry hqs⟩

/-- **The batch in exponents**: it tells whether the weighted sum of the exponents is zero. -/
theorem batch_of_exponents (hB : B.Correct W e) {vkBytes : List UInt8}
    {es scratch : List (List UInt8)} (hvk : parseVk vkBytes = .ok vk)
    (hcvk : coordsCanonical vkBytes = true) (hes : es ≠ [])
    (hlen : ∀ entry ∈ es, entry.length = entryBytes vk)
    (hproofs : ∀ entry ∈ es, coordsCanonical (entry.take proofBytes) = true)
    (hscratch : es.length + 3 ≤ scratch.length) {ts : List Fr}
    (hts : List.Forall₂ (fun entry t => entryExponent B W e vkBytes entry = some t) es ts) :
    verifyGroth16Batch B hash vkBytes es.flatten scratch = .ok (decide
      (weightedSum (weightFr hash (batchSeed hash vkBytes es.flatten es.length)) 0 ts = 0)) := by
  rw [verifyGroth16Batch_eq hvk hcvk hes hlen hproofs hscratch]
  generalize batchSeed hash vkBytes es.flatten es.length = seed
  obtain ⟨entry, es, rfl⟩ := List.exists_cons_of_ne_nil hes
  have hwide : ∀ d ∈ entry :: es, proofBytes ≤ d.length := fun d hd => by
    rw [hlen d hd]
    exact Nat.le_add_right _ _
  obtain ⟨t, ts', ht, -, -⟩ := List.forall₂_cons_left_iff.mp hts
  obtain ⟨α, β, γ, δ, hk, -⟩ := fully_of_exponent hvk ht
  obtain ⟨all, hall, rfl⟩ := fully_of_exponents hvk hk hts
  obtain ⟨q, qs, hq, hqs, rfl⟩ := List.forall₂_cons_left_iff.mp hall
  -- the loop returns, with the points of the entries in its sums
  obtain ⟨⟨x, hx, hX, ha, hc⟩, hb⟩ := hq
  obtain ⟨st, hst⟩ : ∃ st, batchLoop B hash vk seed 0 (entry :: es) (batchStart scratch) = .ok st := by
    obtain ⟨st₁, hstep, hX₁, hC₁⟩ : ∃ st₁,
        batchStep B hash vk seed 0 entry (batchStart scratch) = .ok st₁ ∧
          W.dec₁ st₁.vkXAcc = some q.1.x ∧ W.dec₁ st₁.cAcc = some q.1.c :=
      ⟨_, batchStep_zero.mpr ⟨x, hx, rfl⟩, hX, hc⟩
    obtain ⟨st, h⟩ : ∃ st, batchLoop B hash vk seed 1 es st₁ = .ok st :=
      batchLoop_exists hB (decodes_of_decodesFully hqs) one_ne_zero hX₁ hC₁
    exact ⟨st, answer_bind_eq_ok.mpr ⟨st₁, hstep, h⟩⟩
  obtain ⟨x', pts, hx', hpts, hres⟩ := batchLoop_run hB hvk hwide hscratch hst
  rw [hx] at hx'
  cases hx'
  have hunique : Relator.RightUnique (Decodes B W vk) := fun _ _ _ h h' => h.unique h'
  obtain rfl := List.right_unique_forall₂' hunique hpts (decodes_of_decodesFully hqs)
  obtain ⟨alpha, halpha⟩ := batchAlpha_exists hB hres hk.alpha
  rw [hst, answer_ok_bind, List.length_cons, hres.finish, halpha, answer_ok_bind,
    exponent_batch hB hk hx ⟨⟨x, hx, hX, ha, hc⟩, hb⟩ hqs hres halpha]
  rfl

/-- The batch answers only when every entry has an exponent. -/
theorem exponents_of_batch (hB : B.Correct W e) {vkBytes : List UInt8}
    {es scratch : List (List UInt8)} (hvk : parseVk vkBytes = .ok vk)
    (hcvk : coordsCanonical vkBytes = true) (hes : es ≠ [])
    (hlen : ∀ entry ∈ es, entry.length = entryBytes vk)
    (hproofs : ∀ entry ∈ es, coordsCanonical (entry.take proofBytes) = true)
    (hscratch : es.length + 3 ≤ scratch.length) {v : Bool}
    (h : verifyGroth16Batch B hash vkBytes es.flatten scratch = .ok v) :
    ∃ ts, List.Forall₂ (fun entry t => entryExponent B W e vkBytes entry = some t) es ts := by
  rw [verifyGroth16Batch_eq hvk hcvk hes hlen hproofs hscratch] at h
  obtain ⟨entry, es, rfl⟩ := List.exists_cons_of_ne_nil hes
  have hwide : ∀ d ∈ entry :: es, proofBytes ≤ d.length := fun d hd => by
    rw [hlen d hd]
    exact Nat.le_add_right _ _
  obtain ⟨st, hst, h⟩ := answer_bind_eq_ok.mp h
  obtain ⟨x, pts, hx, hpts, hres⟩ := batchLoop_run hB hvk hwide hscratch hst
  rw [List.length_cons, hres.finish] at h
  obtain ⟨alpha, halpha, h⟩ := answer_bind_eq_ok.mp h
  cases ht : exponent W e (frontOperands W (weightFr hash _) entry es pts
      ++ [(alpha, vk.beta), (st.vkXAcc, vk.gamma), (st.cAcc, vk.delta)]) with
  | none =>
      rw [ht] at h
      exact absurd h refuse_ne_ok
  | some t =>
      obtain ⟨α, β, γ, δ, hk, qs, hqs⟩ := fully_of_exponent_batch hB hx hpts hres halpha ht
      refine ⟨qs.map (pointsExponent e α β γ δ), ?_⟩
      exact List.forall₂_map_right_iff.mpr (hqs.imp fun _ _ hq => exponents_of_fully hvk hk hq)

/-! ### The single checks -/

/-- A batch that answers has passed the checks before its loop. -/
lemma canonical_of_batch {vkBytes batch : List UInt8} {scratch : List (List UInt8)} {v : Bool}
    (h : verifyGroth16Batch B hash vkBytes batch scratch = .ok v) :
    coordsCanonical vkBytes = true ∧ ∃ vk, parseVk vkBytes = .ok vk ∧
      ∀ entry ∈ chunksExact (entryBytes vk) batch,
        coordsCanonical (entry.take proofBytes) = true := by
  rw [verifyGroth16Batch] at h
  split_ifs at h with hcvk
  · exact absurd h refuse_ne_ok
  · obtain ⟨vk, hvk, h⟩ := answer_bind_eq_ok.mp h
    dsimp only at h
    split_ifs at h with hshape hscratch hproofs
    · exact absurd h refuse_ne_ok
    · exact absurd h refuse_ne_ok
    · exact absurd h refuse_ne_ok
    · refine ⟨by simpa using hcvk, vk, hvk, ?_⟩
      simpa using hproofs

/-- The check of a single entry in exponents. -/
lemma single_eq_ok (hB : B.Correct W e) {vkBytes entry : List UInt8}
    (hentry : proofBytes ≤ entry.length) {b : Bool} :
    verifyProofOnlyStrict B vkBytes entry = .ok b ↔
      coordsCanonical vkBytes = true ∧ coordsCanonical (entry.take proofBytes) = true ∧
        ∃ t, entryExponent B W e vkBytes entry = some t ∧ b = decide (t = 0) := by
  by_cases hcvk : coordsCanonical vkBytes = true
  · by_cases hcp : coordsCanonical (entry.take proofBytes) = true
    · cases hvk : parseVk vkBytes with
      | error f =>
          have hnone : entryExponent B W e vkBytes entry = none := by rw [entryExponent, hvk]
          have herr : verifyProofOnlyStrict B vkBytes entry = .error f := by
            rw [verifyProofOnlyStrict, if_neg (not_lt.mpr hentry), verifyGroth16Strict, hcvk, hcp]
            simp only [Bool.not_true, Bool.or_self, Bool.false_eq_true, if_false]
            rw [verifyGroth16, hvk]
            rfl
          rw [herr, hnone]
          constructor
          · intro h
            cases h
          · rintro ⟨-, -, t, h, -⟩
            cases h
      | ok vk =>
          rw [verifyProofOnlyStrict_eq hB hvk hentry hcvk hcp, answer_bind_eq_ok]
          simp only [entryExponent_eq_some hvk, hcvk, hcp, true_and]
          constructor
          · rintro ⟨x, hx, h⟩
            cases ht : exponent W e (entryOperands vk entry x) with
            | none =>
                rw [ht] at h
                exact absurd h refuse_ne_ok
            | some t =>
                rw [ht] at h
                cases h
                exact ⟨t, ⟨x, hx, ht⟩, rfl⟩
          · rintro ⟨t, ⟨x, hx, ht⟩, rfl⟩
            exact ⟨x, hx, by rw [ht]; rfl⟩
    · have herr : verifyProofOnlyStrict B vkBytes entry = refuse .nonCanonicalCoordinate := by
        rw [verifyProofOnlyStrict, if_neg (not_lt.mpr hentry), verifyGroth16Strict,
          Bool.eq_false_iff.mpr hcp, Bool.not_false, Bool.or_true, if_pos rfl]
      rw [herr]
      exact ⟨fun h => absurd h refuse_ne_ok, fun h => absurd h.2.1 hcp⟩
  · have herr : verifyProofOnlyStrict B vkBytes entry = refuse .nonCanonicalCoordinate := by
      rw [verifyProofOnlyStrict, if_neg (not_lt.mpr hentry), verifyGroth16Strict,
        Bool.eq_false_iff.mpr hcvk, Bool.not_false, Bool.true_or, if_pos rfl]
    rw [herr]
    exact ⟨fun h => absurd h refuse_ne_ok, fun h => absurd h.1 hcvk⟩

/-- The width of an entry of the batch, from the bytes of the key. -/
def entryLength (vkBytes : List UInt8) : ℕ :=
  proofBytes + ((vkBytes.length - vkFixedPrefixBytes) / g1Bytes - 1) * frBytes

lemma entryBytes_of_parseVk {vkBytes : List UInt8} (h : parseVk vkBytes = .ok vk) :
    entryBytes vk = entryLength vkBytes := by
  rw [parseVk] at h
  dsimp only at h
  split_ifs at h with hshort hwhole
  · exact absurd h refuse_ne_ok
  · exact absurd h refuse_ne_ok
  · cases h
    rw [entryBytes, entryLength, List.length_drop]

/-- A single check whose inputs overflow the count stops every entry of that width, and the batch
with it. -/
lemma batch_of_panic {vkBytes : List UInt8} {es scratch : List (List UInt8)}
    (hvk : parseVk vkBytes = .ok vk) (hcvk : coordsCanonical vkBytes = true) (hes : es ≠ [])
    (hlen : ∀ entry ∈ es, entry.length = entryBytes vk)
    (hproofs : ∀ entry ∈ es, coordsCanonical (entry.take proofBytes) = true)
    (hscratch : es.length + 3 ≤ scratch.length) {entry : List UInt8} (hentry : entry ∈ es)
    (h : vkX B vk.ic (entry.drop proofBytes) = .error .panic) :
    verifyGroth16Batch B hash vkBytes es.flatten scratch = .error .panic := by
  rw [verifyGroth16Batch_eq hvk hcvk hes hlen hproofs hscratch]
  obtain ⟨hwhole, hover⟩ := vkX_eq_panic h
  obtain ⟨first, es, rfl⟩ := List.exists_cons_of_ne_nil hes
  have hsame : (first.drop proofBytes).length = (entry.drop proofBytes).length := by
    rw [List.length_drop, List.length_drop, hlen first List.mem_cons_self, hlen entry hentry]
  have hfirst : vkX B vk.ic (first.drop proofBytes) = .error .panic :=
    vkX_of_panic (by rw [hsame]; exact hwhole) (by rw [hsame]; exact hover)
  rw [batchLoop, batchStep]
  simp only [hfirst]
  rfl

/-- No entry errs: each has an exponent, or its check overflows. -/
lemma exponent_of_no_err (hB : B.Correct W e) {vkBytes entry : List UInt8}
    (hvk : parseVk vkBytes = .ok vk) (hcvk : coordsCanonical vkBytes = true)
    (hentry : proofBytes ≤ entry.length)
    (hcp : coordsCanonical (entry.take proofBytes) = true)
    (h : ∀ y, verifyProofOnlyStrict B vkBytes entry ≠ .error (.err y)) :
    vkX B vk.ic (entry.drop proofBytes) = .error .panic ∨
      ∃ t, entryExponent B W e vkBytes entry = some t := by
  rw [verifyProofOnlyStrict_eq hB hvk hentry hcvk hcp] at h
  cases hx : vkX B vk.ic (entry.drop proofBytes) with
  | error f =>
      cases f with
      | panic => exact Or.inl rfl
      | err y =>
          rw [hx] at h
          exact absurd rfl (h y)
  | ok x =>
      rw [hx, answer_ok_bind] at h
      cases ht : exponent W e (entryOperands vk entry x) with
      | none =>
          rw [ht] at h
          exact absurd rfl (h .syscall)
      | some t => exact Or.inr ⟨t, (entryExponent_eq_some hvk).mpr ⟨x, hx, ht⟩⟩

lemma forall₂_of_forall_exists {α β : Type} {R : α → β → Prop} {l : List α}
    (h : ∀ a ∈ l, ∃ b, R a b) : ∃ bs, List.Forall₂ R l bs := by
  induction l with
  | nil => exact ⟨[], List.Forall₂.nil⟩
  | cons a l ih =>
      obtain ⟨b, hb⟩ := h a List.mem_cons_self
      obtain ⟨bs, hbs⟩ := ih fun c hc => h c (List.mem_cons_of_mem _ hc)
      exact ⟨b :: bs, List.Forall₂.cons hb hbs⟩

/-- The batch errs only when some entry errs on its own. -/
lemma err_of_batch_err (hB : B.Correct W e) {vkBytes : List UInt8} {es scratch : List (List UInt8)}
    (hes : es ≠ []) (hlen : ∀ entry ∈ es, entry.length = entryLength vkBytes)
    (hscratch : es.length + 3 ≤ scratch.length) {x : VerifierError}
    (h : verifyGroth16Batch B hash vkBytes es.flatten scratch = .error (.err x)) :
    ∃ entry ∈ es, ∃ y, verifyProofOnlyStrict B vkBytes entry = .error (.err y) := by
  by_contra hno
  push Not at hno
  have hwide : ∀ entry ∈ es, proofBytes ≤ entry.length := fun entry hentry => by
    rw [hlen entry hentry]
    exact Nat.le_add_right _ _
  obtain ⟨first, hfirst⟩ := List.exists_mem_of_ne_nil es hes
  -- the checks before the loop are made on single entries, too
  have hcvk : coordsCanonical vkBytes = true := by
    by_contra hcvk
    refine hno first hfirst .nonCanonicalCoordinate ?_
    rw [verifyProofOnlyStrict, if_neg (not_lt.mpr (hwide first hfirst)), verifyGroth16Strict,
      Bool.eq_false_iff.mpr hcvk, Bool.not_false, Bool.true_or, if_pos rfl]
    rfl
  have hproofs : ∀ entry ∈ es, coordsCanonical (entry.take proofBytes) = true := by
    intro entry hentry
    by_contra hcp
    refine hno entry hentry .nonCanonicalCoordinate ?_
    rw [verifyProofOnlyStrict, if_neg (not_lt.mpr (hwide entry hentry)), verifyGroth16Strict,
      Bool.eq_false_iff.mpr hcp, Bool.not_false, Bool.or_true, if_pos rfl]
    rfl
  cases hvk : parseVk vkBytes with
  | error f =>
      have hf : f = .panic := by
        cases f with
        | panic => rfl
        | err y =>
            refine absurd ?_ (hno first hfirst y)
            rw [verifyProofOnlyStrict, if_neg (not_lt.mpr (hwide first hfirst)),
              verifyGroth16Strict, hcvk, hproofs first hfirst]
            simp only [Bool.not_true, Bool.or_self, Bool.false_eq_true, if_false]
            rw [verifyGroth16, hvk]
            rfl
      rw [verifyGroth16Batch, hcvk, hvk, hf] at h
      cases h
  | ok vk =>
      have hlen' : ∀ entry ∈ es, entry.length = entryBytes vk := fun entry hentry => by
        rw [hlen entry hentry, entryBytes_of_parseVk hvk]
      by_cases hpanic : ∃ entry ∈ es, vkX B vk.ic (entry.drop proofBytes) = .error .panic
      · obtain ⟨entry, hentry, hover⟩ := hpanic
        rw [batch_of_panic hvk hcvk hes hlen' hproofs hscratch hentry hover] at h
        cases h
      · push Not at hpanic
        obtain ⟨ts, hts⟩ := forall₂_of_forall_exists fun entry hentry =>
          (exponent_of_no_err hB hvk hcvk (hwide entry hentry) (hproofs entry hentry)
            (hno entry hentry)).resolve_left (hpanic entry hentry)
        rw [batch_of_exponents hB hvk hcvk hes hlen' hproofs hscratch hts] at h
        cases h

/-- Entries that answer on their own have exponents, and the batch tells about their sum. -/
lemma batch_of_singles (hB : B.Correct W e) {vkBytes : List UInt8} {es scratch : List (List UInt8)}
    (hes : es ≠ []) (hlen : ∀ entry ∈ es, entry.length = entryLength vkBytes)
    (hscratch : es.length + 3 ≤ scratch.length)
    (h : ∀ entry ∈ es, ∃ b, verifyProofOnlyStrict B vkBytes entry = .ok b) :
    ∃ ts, List.Forall₂ (fun entry t => entryExponent B W e vkBytes entry = some t) es ts ∧
      verifyGroth16Batch B hash vkBytes es.flatten scratch = .ok (decide
        (weightedSum (weightFr hash (batchSeed hash vkBytes es.flatten es.length)) 0 ts = 0)) := by
  have hwide : ∀ entry ∈ es, proofBytes ≤ entry.length := fun entry hentry => by
    rw [hlen entry hentry]
    exact Nat.le_add_right _ _
  have hall : ∀ entry ∈ es, coordsCanonical vkBytes = true ∧
      coordsCanonical (entry.take proofBytes) = true ∧
        ∃ t, entryExponent B W e vkBytes entry = some t := by
    intro entry hentry
    obtain ⟨b, hb⟩ := h entry hentry
    obtain ⟨hcvk, hcp, t, ht, -⟩ := (single_eq_ok hB (hwide entry hentry)).mp hb
    exact ⟨hcvk, hcp, t, ht⟩
  obtain ⟨first, hfirst⟩ := List.exists_mem_of_ne_nil es hes
  obtain ⟨hcvk, -, t, ht⟩ := hall first hfirst
  obtain ⟨vk, hvk⟩ : ∃ vk, parseVk vkBytes = .ok vk := by
    cases hvk : parseVk vkBytes with
    | error f =>
        rw [entryExponent, hvk] at ht
        cases ht
    | ok vk => exact ⟨vk, rfl⟩
  obtain ⟨ts, hts⟩ := forall₂_of_forall_exists fun entry hentry => (hall entry hentry).2.2
  refine ⟨ts, hts, batch_of_exponents hB hvk hcvk hes (fun entry hentry => ?_)
    (fun entry hentry => (hall entry hentry).2.1) hscratch hts⟩
  rw [hlen entry hentry, entryBytes_of_parseVk hvk]

/-- A batch that answers has entries that answer on their own. -/
lemma singles_of_batch (hB : B.Correct W e) {vkBytes : List UInt8} {es scratch : List (List UInt8)}
    (hes : es ≠ []) (hlen : ∀ entry ∈ es, entry.length = entryLength vkBytes)
    (hscratch : es.length + 3 ≤ scratch.length) {v : Bool}
    (h : verifyGroth16Batch B hash vkBytes es.flatten scratch = .ok v) :
    ∀ entry ∈ es, ∃ b, verifyProofOnlyStrict B vkBytes entry = .ok b := by
  obtain ⟨hcvk, vk, hvk, hproofs⟩ := canonical_of_batch h
  have hlen' : ∀ entry ∈ es, entry.length = entryBytes vk := fun entry hentry => by
    rw [hlen entry hentry, entryBytes_of_parseVk hvk]
  have hpos : 0 < entryBytes vk := Nat.add_pos_left (by decide) _
  rw [chunksExact_flatten hpos hlen'] at hproofs
  obtain ⟨ts, hts⟩ := exponents_of_batch hB hvk hcvk hes hlen' hproofs hscratch h
  intro entry hentry
  obtain ⟨k, hk, rfl⟩ := List.getElem_of_mem hentry
  have ht := hts.get hk (by rw [← hts.length_eq]; exact hk)
  have hwide : proofBytes ≤ (es[k]).length := by
    rw [hlen _ hentry]
    exact Nat.le_add_right _ _
  exact ⟨_, (single_eq_ok hB hwide).mpr ⟨hcvk, hproofs _ hentry, _, ht, rfl⟩⟩

/-- **What the batch decides**: it errs only when an entry errs, accepts when all entries are
accepted, and rejects when one of them is rejected. It accepts exactly when all entries answer and
the weighted sum of their exponents is zero; no weight is zero, and the weight on `alpha` is their
sum. -/
theorem batch_sound (hB : B.Correct W e) (hash : List UInt8 → Vector UInt8 32)
    (vkBytes : List UInt8) (es scratch : List (List UInt8)) (hes : es ≠ [])
    (hlen : ∀ entry ∈ es, entry.length = entryLength vkBytes)
    (hscratch : es.length + 3 ≤ scratch.length) :
    (∀ x, verifyGroth16Batch B hash vkBytes es.flatten scratch = .error (.err x) →
      ∃ entry ∈ es, ∃ y, verifyProofOnlyStrict B vkBytes entry = .error (.err y)) ∧
    ((∀ entry ∈ es, verifyProofOnlyStrict B vkBytes entry = .ok true) →
      verifyGroth16Batch B hash vkBytes es.flatten scratch = .ok true) ∧
    (∀ (k : ℕ) (hk : k < es.length), verifyProofOnlyStrict B vkBytes es[k] = .ok false →
      (∀ (j : ℕ) (hj : j < es.length), j ≠ k →
        verifyProofOnlyStrict B vkBytes es[j] = .ok true) →
      verifyGroth16Batch B hash vkBytes es.flatten scratch = .ok false) ∧
    (verifyGroth16Batch B hash vkBytes es.flatten scratch = .ok true ↔
      (∀ entry ∈ es, ∃ b, verifyProofOnlyStrict B vkBytes entry = .ok b) ∧
      ∃ ts, List.Forall₂ (fun entry t => entryExponent B W e vkBytes entry = some t) es ts ∧
        weightedSum (weightFr hash (batchSeed hash vkBytes es.flatten es.length)) 0 ts = 0) ∧
    (∀ seed i, weightFr hash seed i ≠ 0) ∧
    ∀ vk seed st, parseVk vkBytes = .ok vk →
      batchLoop B hash vk seed 0 es (batchStart scratch) = .ok st →
        fromBytesLe st.sumR = weightTotal (weight hash seed) 0 es.length % rModulus := by
  have hwide : ∀ entry ∈ es, proofBytes ≤ entry.length := fun entry hentry => by
    rw [hlen entry hentry]
    exact Nat.le_add_right _ _
  -- an entry's own answer is whether its exponent is zero
  have hown : ∀ {entry : List UInt8} {t : Fr} {b : Bool}, entry ∈ es →
      entryExponent B W e vkBytes entry = some t →
      verifyProofOnlyStrict B vkBytes entry = .ok b → b = decide (t = 0) := by
    intro entry t b hentry ht hb
    obtain ⟨-, -, t', ht', hbt⟩ := (single_eq_ok hB (hwide entry hentry)).mp hb
    rw [hbt, Option.some.inj (ht.symm.trans ht')]
  refine ⟨fun x => err_of_batch_err hB hes hlen hscratch, fun hall => ?_, fun k hk hbad hgood => ?_,
    ⟨fun h => ?_, fun ⟨hall, ts, hts, hsum⟩ => ?_⟩, fun seed i => weightFr_ne_zero i,
    fun vk seed st hvk hst => ?_⟩
  · obtain ⟨ts, hts, hbatch⟩ :=
      batch_of_singles hB hes hlen hscratch fun entry hentry => ⟨true, hall entry hentry⟩
    have hzero : ∀ t ∈ ts, t = 0 := by
      intro t ht
      obtain ⟨k, hk, rfl⟩ := List.getElem_of_mem ht
      have hk' : k < es.length := by rwa [hts.length_eq]
      exact of_decide_eq_true
        (hown (List.getElem_mem hk') (hts.get hk' hk) (hall _ (List.getElem_mem hk'))).symm
    rw [hbatch, weightedSum_eq_zero _ _ hzero]
    rfl
  · have hall : ∀ entry ∈ es, ∃ b, verifyProofOnlyStrict B vkBytes entry = .ok b := by
      intro entry hentry
      obtain ⟨j, hj, rfl⟩ := List.getElem_of_mem hentry
      by_cases hjk : j = k
      · subst hjk
        exact ⟨false, hbad⟩
      · exact ⟨true, hgood j hj hjk⟩
    obtain ⟨ts, hts, hbatch⟩ := batch_of_singles hB hes hlen hscratch hall
    have hk' : k < ts.length := by rwa [← hts.length_eq]
    have hne : ts[k] ≠ 0 := of_decide_eq_false
      (hown (List.getElem_mem hk) (hts.get hk hk') hbad).symm
    have hzero : ∀ (j : ℕ) (hj : j < ts.length), j ≠ k → ts[j] = 0 := by
      intro j hj hjk
      have hj' : j < es.length := by rwa [hts.length_eq]
      exact of_decide_eq_true
        (hown (List.getElem_mem hj') (hts.get hj' hj) (hgood j hj' hjk)).symm
    rw [hbatch, decide_eq_false (weightedSum_ne_zero weightFr_ne_zero hk' hne hzero 0)]
  · have hall := singles_of_batch hB hes hlen hscratch h
    obtain ⟨ts, hts, hbatch⟩ := batch_of_singles hB hes hlen hscratch hall
    refine ⟨hall, ts, hts, ?_⟩
    rw [hbatch] at h
    exact of_decide_eq_true (Except.ok.inj h)
  · obtain ⟨ts', hts', hbatch⟩ := batch_of_singles hB hes hlen hscratch hall
    have heq : ts = ts' :=
      List.right_unique_forall₂' (fun _ _ _ h h' => Option.some.inj (h.symm.trans h')) hts hts'
    rw [hbatch, ← heq, hsum]
    rfl
  · obtain ⟨first, es, rfl⟩ := List.exists_cons_of_ne_nil hes
    obtain ⟨x, pts, -, -, hres⟩ := batchLoop_run hB hvk hwide hscratch hst
    exact hres.sumR

/-! ### A curve of scalars -/

/-- The scalars as both groups, paired by their product: a point is its own discrete logarithm, and
the zero bytes are the point at infinity. -/
def scalarCurve : WireCurve Fr Fr where
  dec₁ p := if p.length = g1Bytes then some (fromBytesLe p) else none
  dec₂ p := if p.length = g2Bytes then some (fromBytesLe p) else none
  enc₁ P := leBytes g1Bytes P.val

lemma scalarCurve_correct :
    (scalarCurve.backend (LinearMap.mul Fr Fr)).Correct scalarCurve (LinearMap.mul Fr Fr) := by
  refine WireCurve.backend_correct _ (fun P => ?_) fun P => length_leBytes _ _
  have hval : P.val < 256 ^ g1Bytes := (ZMod.val_lt P).trans (by decide)
  show (if (leBytes g1Bytes P.val).length = g1Bytes then
    some (fromBytesLe (leBytes g1Bytes P.val) : Fr) else none) = some P
  rw [if_pos (length_leBytes _ _), fromBytesLe_leBytes, Nat.mod_eq_of_lt hval, ZMod.natCast_zmod_val]

/-- Two proofs at infinity under a key at infinity are accepted together. -/
theorem batch_sound_infinity :
    verifyGroth16Batch (scalarCurve.backend (LinearMap.mul Fr Fr)) (fun _ => Vector.replicate 32 0)
      (List.replicate 512 0) (List.replicate 2 (List.replicate 256 0)).flatten
      (List.replicate 5 []) = .ok true := by
  have hsingle : verifyProofOnlyStrict (scalarCurve.backend (LinearMap.mul Fr Fr))
      (List.replicate 512 0) (List.replicate 256 0) = .ok true := by decide +kernel
  have hscratch : (List.replicate 2 (List.replicate 256 (0 : UInt8))).length + 3
      ≤ (List.replicate 5 ([] : List UInt8)).length := by
    rw [List.length_replicate, List.length_replicate]
  refine (batch_sound scalarCurve_correct _ (List.replicate 512 0)
    (List.replicate 2 (List.replicate 256 0)) (List.replicate 5 []) (List.cons_ne_nil _ _)
    (fun entry hentry => ?_) hscratch).2.1 fun entry hentry => ?_
  · rw [List.eq_of_mem_replicate hentry, List.length_replicate, entryLength, List.length_replicate]
    decide
  · rw [List.eq_of_mem_replicate hentry]
    exact hsingle

end Verifier

end XarkCircuit
