import XarkCircuit.Frontend.SessionSound
import XarkCircuit.Frontend.Finish

/-!
A whole circuit: its inputs, its calls and the finished rows.

* `openInputs` declares the inputs and checks the ranges of the integers; `circuit` then makes the calls.
* `openInputs_spec`: the rows of the inputs say that they are in range, and what the program holds is
  the inputs.
* `circuit_spec`: the rows of the circuit are a run on its inputs.
* `circuit_exact`: the finished rows hold of the runs of the program on inputs in range, and of no other
  assignments.
-/

namespace XarkCircuit

namespace Frontend

open LinearCombination Emission
open Frontend.Host (Performs orPanic_eq_ok lift_eq_ok)
open Verifier (rModulus)

/-- An input; the integers are of at most 128 bits. -/
inductive Input
  | field (name : String) (visibility : Visibility)
  | uint (name : String) (visibility : Visibility) (width : ℕ)
deriving DecidableEq, Repr

namespace Input

/-- An input is declared. One wider than a register is held as its halves, the low one first. -/
def run (lcHash : LinearCombination → ℕ) (st : Session) : Input → Compile Session
  | field name visibility => do
      let r ← lift (st.h.inputField name visibility)
      return st.push r.2 [r.1] []
  | uint name visibility width => do
      let lo ← lift (st.h.inputUint lcHash name visibility width)
      if width ≤ 64 then return st.push lo.2 [] [(width, .wire st.h.wires.length width)]
      else if width ≤ 128 then do
        let hi ← lo.2.inputUintHi
        return st.push hi.2 []
          [(64, .wire st.h.wires.length 64), (64, .wire (st.h.wires.length + 1) 64)]
      else lift (.error .panic)

/-- The value is one of the type. -/
def Fits (x : Fr) : Input → Prop
  | field .. => True
  | uint _ _ width => x.val < 2 ^ width

/-- What is held of the value. -/
def push (s : Values) (x : Fr) : Input → Values
  | field .. => s.push [x] []
  | uint _ _ width =>
      if width ≤ 64 then s.push [] [x.val] else s.push [] [x.val % 2 ^ 64, x.val / 2 ^ 64]

end Input

def Session.new (cse : Bool) (matThreshold : ℕ) (reduce : Option ℕ) : Session :=
  ⟨Host.new cse matThreshold reduce, [], []⟩

section Operations

variable (lcHash : LinearCombination → ℕ)

end Operations

/-- What is held of the inputs. -/
def inputValues (ins : List Input) (xs : List Fr) : Values :=
  (ins.zip xs).foldl (fun s p => p.1.push s p.2) ⟨[], [], []⟩

/-- The inputs are of their types. -/
def InRange (ins : List Input) (xs : List Fr) : Prop := ∀ p ∈ ins.zip xs, p.1.Fits p.2

lemma zip_concat {ins : List Input} {xs : List Fr} (hlen : xs.length = ins.length) (i : Input) (x : Fr) :
    (ins ++ [i]).zip (xs ++ [x]) = ins.zip xs ++ [(i, x)] :=
  List.zip_append hlen.symm

lemma inputValues_concat {ins : List Input} {xs : List Fr} (hlen : xs.length = ins.length) (i : Input)
    (x : Fr) : inputValues (ins ++ [i]) (xs ++ [x]) = i.push (inputValues ins xs) x := by
  rw [inputValues, zip_concat hlen, List.foldl_append]
  rfl

lemma inRange_concat {ins : List Input} {xs : List Fr} (hlen : xs.length = ins.length) (i : Input)
    (x : Fr) : InRange (ins ++ [i]) (xs ++ [x]) ↔ InRange ins xs ∧ i.Fits x := by
  rw [InRange, zip_concat hlen, List.forall_mem_append, List.forall_mem_singleton, InRange]

variable {fakeGlv : FakeGlv} {lcHash : LinearCombination → ℕ} {st st' : Session} {b : Builder}
  {ins : List Input} {vs : List VarId} {w : VarId → Fr} {calls : List Call}

/-! ### Inputs -/

/-- The next variable can have any value in `P`. -/
def Takes (b b' : Builder) (P : Fr → Prop) : Prop :=
  ∀ v : VarId, v.val = b.nextVarId → v.val < b'.nextVarId ∧ ∀ w, b.Sat w → P (w v) →
    ∃ w', (∀ u : VarId, u.val ≤ v.val → w' u = w u) ∧ b'.Sat w'

/-- An input adds no row. -/
lemma bindInput_same {b b' : Builder} {name : String} {vis : Visibility} {v : VarId}
    (h : b.bindInput name vis = .ok (v, b')) :
    v.val = b.nextVarId ∧ b'.nextVarId = b.nextVarId + 1 ∧ ∀ w, b'.Sat w ↔ b.Sat w := by
  obtain ⟨⟨u, b₁⟩, h₁, h⟩ := Outcome.bind_eq_ok.mp h
  obtain ⟨rfl, rfl⟩ := Prod.mk.inj (Except.ok.inj h)
  rw [Builder.allocVar] at h₁
  by_cases hlt : b.nextVarId + 1 < 2 ^ 32
  · rw [dif_pos hlt] at h₁
    obtain ⟨rfl, rfl⟩ := Prod.mk.inj (Except.ok.inj h₁)
    exact ⟨rfl, rfl, fun w => Iff.rfl⟩
  · rw [dif_neg hlt] at h₁
    cases h₁

lemma bindInput_takes {b b' : Builder} {name : String} {vis : Visibility} {v : VarId}
    (h : b.bindInput name vis = .ok (v, b')) (P : Fr → Prop) : Takes b b' P := by
  obtain ⟨-, hnext, hsat⟩ := bindInput_same h
  intro u hu
  refine ⟨by rw [hu, hnext]; exact Nat.lt_succ_self _, fun w hw _ => ⟨w, fun _ _ => rfl, (hsat w).mpr hw⟩⟩

/-- An integer takes any value in its range. -/
lemma inputUint_takes {h h' : Host} {name : String} {vis : Visibility} {n : ℕ} {out : LinearCombination}
    (hh : h.Sound) (hop : h.inputUint lcHash name vis n = .ok (out, h')) :
    Takes h.b h'.b fun x => x.val < 2 ^ n := by
  let fakeGlv : FakeGlv := fun _ _ _ => none
  obtain ⟨⟨u, b₁⟩, hu, hop⟩ := Outcome.bind_eq_ok.mp hop
  obtain ⟨hid, hnext, hsat⟩ := bindInput_same hu
  obtain ⟨hb₁, -, hlt, -⟩ := Builder.bindInput_spec hh.builder hu fakeGlv
  dsimp only at hop
  split_ifs at hop
  · obtain ⟨⟨bits, b'⟩, hbits, hop⟩ := Outcome.bind_eq_ok.mp hop
    obtain ⟨-, rfl⟩ := Prod.mk.inj (Except.ok.inj hop)
    obtain ⟨-, -, hr⟩ := Builder.decomposeBits_spec hb₁ (below_ofVar.mpr hlt) hbits fakeGlv
    intro v hv
    obtain rfl : v = u := Fin.ext (hv.trans hid.symm)
    refine ⟨hlt.trans_le hr.next_le, fun w hw hrange => ?_⟩
    have hlocal : (Builder.emitter fakeGlv).Local b₁.nextVarId
        fun w => ((ofVar v).eval w).val < 2 ^ n := fun w w' hagree => by
      dsimp only
      rw [Builder.local_eval fakeGlv (below_ofVar.mpr hlt) hagree]
    obtain ⟨w', hagree, hs, -⟩ := (Realizes.of_emits hr).extend (hb₁.local_sat fakeGlv) hlocal
      ((hsat w).mpr hw) (by rwa [eval_ofVar])
    exact ⟨w', fun z hz => hagree z (hz.trans_lt hlt), hs⟩
  · obtain ⟨-, rfl⟩ := Prod.mk.inj (Except.ok.inj hop)
    exact bindInput_takes hu _

/-- The inputs `ins` are declared as the variables `vs`; the ranges of the narrow ones are still to be
checked. -/
structure Opening (fakeGlv : FakeGlv) (b : Builder) (st : Session) (ins : List Input) (vs : List VarId) :
    Prop where
  host : st.h.Sound
  guards : st.h.guards = []
  fields : ∀ l ∈ st.fields, l.Below st.h.b.nextVarId
  ints : ∀ v ∈ st.ints, v.1 ≤ 64 ∧ v.2.Fits st.h v.1
  length : vs.length = ins.length
  below : ∀ v ∈ vs, v.val < st.h.b.nextVarId
  values : ∀ w, st.h.b.Sat w → st.h.Ranges w → st.values w = inputValues ins (vs.map w)
  ranges : ∀ w, InRange ins (vs.map w) → st.h.Ranges w
  realizes : Realizes (Builder.emitter fakeGlv) (fun w => InRange ins (vs.map w)) b st.h.b
    fun _ w => st.h.Ranges w → InRange ins (vs.map w)
  takes : ∀ xs : List Fr, xs.length = ins.length → InRange ins xs → ∃ w, vs.map w = xs ∧ st.h.b.Sat w

/-- What is held of more inputs. -/
lemma Opening.values_grow {h' : Host} {fields : List LinearCombination} {ints : List (ℕ × IntVal)}
    (hst : Opening fakeGlv b st ins vs) (hws : st.h.wires <+: h'.wires) (hguards : h'.guards = [])
    (hsat : ∀ w, h'.b.Sat w → h'.Ranges w → st.h.b.Sat w ∧ st.h.Ranges w) (w : VarId → Fr) :
    (st.push h' fields ints).values w = (st.values w).push (fields.map fun l => l.eval w)
      (ints.map fun v => v.2.value h'.wires w) := by
  have hints : st.ints.map (fun v => v.2.value h'.wires w) = st.ints.map fun v => v.2.value st.h.wires w :=
    List.map_congr_left fun v hv => ((hst.ints v hv).2.grow hws hsat).2
  rw [Session.values, Session.push, Session.values, Values.push, List.map_append, List.map_append, hints,
    hguards, hst.guards]

/-- **One more input.** -/
lemma Opening.extend {h' : Host} {fields : List LinearCombination} {ints : List (ℕ × IntVal)} {v : VarId}
    {i : Input} (hst : Opening fakeGlv b st ins vs) (hh' : h'.Sound) (hws : st.h.wires <+: h'.wires)
    (hguards : h'.guards = []) (hid : v.val = st.h.b.nextVarId) (htakes : Takes st.h.b h'.b i.Fits)
    (hfields : ∀ l ∈ fields, l.Below h'.b.nextVarId)
    (hints : ∀ v ∈ ints, v.1 ≤ 64 ∧ v.2.Fits h' v.1)
    (hranges : ∀ w, h'.Ranges w → st.h.Ranges w)
    (hranges' : ∀ w, st.h.Ranges w → i.Fits (w v) → h'.Ranges w)
    (hvalues : ∀ w, h'.b.Sat w → h'.Ranges w → ∀ s : Values, s.push (fields.map fun l => l.eval w)
      (ints.map fun v => v.2.value h'.wires w) = i.push s (w v))
    (hr : Realizes (Builder.emitter fakeGlv) (fun w => i.Fits (w v)) st.h.b h'.b
      fun _ w => h'.Ranges w → i.Fits (w v)) :
    Opening fakeGlv b (st.push h' fields ints) (ins ++ [i]) (vs ++ [v]) := by
  have hsat : ∀ w, h'.b.Sat w → h'.Ranges w → st.h.b.Sat w ∧ st.h.Ranges w :=
    fun w hw hr' => ⟨hr.mono hw, hranges w hr'⟩
  have hlen : ∀ w : VarId → Fr, (vs.map w).length = ins.length := fun w =>
    (List.length_map _).trans hst.length
  have hmap : ∀ w : VarId → Fr, (vs ++ [v]).map w = vs.map w ++ [w v] := fun w => List.map_append
  constructor
  · exact hh'
  · exact hguards
  · exact fun l hl => (List.mem_append.mp hl).elim (fun hl => (hst.fields l hl).mono hr.next_le) (hfields l)
  · exact fun u hu => (List.mem_append.mp hu).elim (fun hu => ⟨(hst.ints u hu).1,
      ((hst.ints u hu).2.grow (w := fun _ => 0) hws hsat).1⟩) (hints u)
  · rw [List.length_append, List.length_append, hst.length]
    rfl
  · exact fun u hu => (List.mem_append.mp hu).elim (fun hu => (hst.below u hu).trans_le hr.next_le)
      fun hu => List.mem_singleton.mp hu ▸ (htakes v hid).1
  · intro w hw hr'
    rw [hst.values_grow hws hguards hsat, hmap, inputValues_concat (hlen w),
      ← hst.values w (hsat w hw hr').1 (hsat w hw hr').2]
    exact hvalues w hw hr' _
  · intro w hin
    rw [hmap, inRange_concat (hlen w)] at hin
    exact hranges' w (hst.ranges w hin.1) hin.2
  · refine hst.realizes.seq hr (fun w hin => ?_) (fun w hin _ _ _ => ?_) fun _ w _ hin hfits hr' => ?_
    · rw [hmap, inRange_concat (hlen w)] at hin
      exact hin.1
    · rw [hmap, inRange_concat (hlen w)] at hin
      exact hin.2
    · rw [hmap, inRange_concat (hlen w)]
      exact ⟨hin (hranges w hr'), hfits hr'⟩
  · intro xs hxs hin
    have hne : xs ≠ [] := by
      rintro rfl
      simp at hxs
    obtain ⟨ys, x, rfl⟩ : ∃ ys x, xs = ys ++ [x] :=
      ⟨_, _, (List.dropLast_append_getLast hne).symm⟩
    have hys : ys.length = ins.length := by simpa using hxs
    rw [inRange_concat hys] at hin
    obtain ⟨w, hw, hs⟩ := hst.takes ys hys hin.1
    have hold : ∀ u : VarId, u.val < st.h.b.nextVarId → Function.update w v x u = w u :=
      fun u hu => Function.update_of_ne (fun heq => (heq ▸ hu).ne hid) _ _
    obtain ⟨w', hagree, hs'⟩ := (htakes v hid).2 (Function.update w v x)
      ((hst.host.builder.local_sat fakeGlv w _ hold).mpr hs) (by rw [Function.update_self]; exact hin.2)
    have hkept : vs.map w' = vs.map w := List.map_congr_left fun u hu => by
      rw [hagree u (hid ▸ (hst.below u hu).le), hold u (hst.below u hu)]
    refine ⟨w', ?_, hs'⟩
    rw [hmap, hkept, hw, hagree v le_rfl, Function.update_self]

lemma Opening.field {name : String} {vis : Visibility} (hst : Opening fakeGlv b st ins vs)
    (hrun : (Input.field name vis).run lcHash st = .ok st') :
    ∃ v, Opening fakeGlv b st' (ins ++ [.field name vis]) (vs ++ [v]) := by
  obtain ⟨⟨out, h'⟩, hr, hrun⟩ := Succeeding.bind_eq_ok.mp hrun
  obtain rfl := Except.ok.inj hrun
  obtain ⟨v, hid, hout, heval, p⟩ := Host.inputField_spec fakeGlv hst.host (lift_eq_ok hr)
  have hguards : h'.guards = [] := by
    have harms := p.arms
    rw [hst.guards] at harms
    exact List.map_eq_nil_iff.mp harms
  have hsame : ∀ w, h'.Ranges w ↔ st.h.Ranges w := fun w => by
    rw [Host.Ranges, Host.Ranges, p.inputs]
  have htakes : Takes st.h.b h'.b (Input.field name vis).Fits := by
    obtain ⟨⟨u, b'⟩, hu, hr⟩ := Outcome.bind_eq_ok.mp (lift_eq_ok hr)
    obtain ⟨-, rfl⟩ := Prod.mk.inj (Except.ok.inj hr)
    exact bindInput_takes hu _
  refine ⟨v, hst.extend p.sound p.wires hguards hid htakes (List.forall_mem_singleton.mpr hout)
    (fun _ hv => absurd hv List.not_mem_nil) (fun w hw => (hsame w).mp hw) (fun w hw _ => (hsame w).mpr hw)
    (fun w _ _ s => ?_) (p.realizes.weaken (fun _ _ _ => True.intro) fun _ _ _ _ _ => True.intro)⟩
  rw [List.map_singleton, heval]
  rfl

/-- An integer of a register. -/
lemma Opening.narrow {name : String} {vis : Visibility} {n : ℕ} (hst : Opening fakeGlv b st ins vs)
    (hn : n ≤ 64) (hrun : (Input.uint name vis n).run lcHash st = .ok st') :
    ∃ v, Opening fakeGlv b st' (ins ++ [.uint name vis n]) (vs ++ [v]) := by
  obtain ⟨⟨out, h'⟩, hr, hrun⟩ := Succeeding.bind_eq_ok.mp hrun
  rw [if_pos hn] at hrun
  obtain rfl := Except.ok.inj hrun
  obtain ⟨v, hid, rfl, hsound, hinputs, hreal⟩ := Host.inputUint_spec fakeGlv hn hst.host (lift_eq_ok hr)
  have htakes := inputUint_takes hst.host (lift_eq_ok hr)
  obtain ⟨⟨u, b'⟩, hu, hr⟩ := Outcome.bind_eq_ok.mp (lift_eq_ok hr)
  dsimp only at hr
  rw [if_neg (not_lt.mpr hn)] at hr
  obtain ⟨hout, rfl⟩ := Prod.mk.inj (Except.ok.inj hr)
  have hget : (st.h.wires ++ [ofVar u])[st.h.wires.length]? = some (ofVar v) := by
    rw [hout]
    exact List.getElem?_concat_length
  have hranges : ∀ w, Host.Ranges (Host.newWire
      { st.h with b := b', uintInputs := st.h.uintInputs ++ [(u, n)] } (ofVar u) n) w ↔
        st.h.Ranges w ∧ (w v).val < 2 ^ n := by
    intro w
    rw [Host.Ranges, hinputs, List.forall_mem_append, List.forall_mem_singleton, Host.Ranges]
  refine ⟨v, hst.extend hsound (List.prefix_append _ _) hst.guards hid htakes
    (fun _ hl => absurd hl List.not_mem_nil) (List.forall_mem_singleton.mpr
      ⟨hn, le_rfl, ofVar v, hget, fun w _ hr' => ?_⟩) (fun w hw => ((hranges w).mp hw).1)
    (fun w hw hfits => (hranges w).mpr ⟨hw, hfits⟩) (fun w _ _ s => ?_)
    (hreal.weaken (fun _ _ _ => True.intro) fun _ w _ _ hr' => ((hranges w).mp hr').2)⟩
  · rw [eval_ofVar]
    exact ((hranges w).mp hr').2
  · rw [List.map_singleton, Input.push, if_pos hn]
    change s.push [] [((((st.h.wires ++ [ofVar u])[st.h.wires.length]?).getD zero).eval w).val] = _
    rw [hget, Option.getD_some, eval_ofVar]

/-- An integer of two registers. -/
lemma Opening.wide {name : String} {vis : Visibility} {n : ℕ} (hst : Opening fakeGlv b st ins vs)
    (hn : 64 < n) (hn' : n ≤ 128) (hrun : (Input.uint name vis n).run lcHash st = .ok st') :
    ∃ v, Opening fakeGlv b st' (ins ++ [.uint name vis n]) (vs ++ [v]) := by
  obtain ⟨⟨out, h₁⟩, hr, hrun⟩ := Succeeding.bind_eq_ok.mp hrun
  dsimp only at hrun
  rw [if_neg (not_le.mpr hn), if_pos hn'] at hrun
  obtain ⟨⟨z, h'⟩, hhi, hrun⟩ := Succeeding.bind_eq_ok.mp hrun
  obtain rfl := Except.ok.inj hrun
  obtain ⟨v, hi, hid, hws, hcanon, hpending, p⟩ :=
    Host.inputUint_wide_spec fakeGlv hn hst.host (lift_eq_ok hr)
  have htakes := inputUint_takes hst.host (lift_eq_ok hr)
  rw [Host.inputUintHi, hpending] at hhi
  obtain ⟨-, rfl⟩ := Prod.mk.inj (Except.ok.inj hhi)
  -- the halves are of a register each
  have hlow : ∀ x : Fr, (((x.val % 2 ^ 64 : ℕ) : Fr)).val = x.val % 2 ^ 64 := fun x =>
    ZMod.val_natCast_of_lt ((Nat.mod_le _ _).trans_lt (ZMod.val_lt x))
  have hhigh : ∀ x : Fr, (((x.val / 2 ^ 64 : ℕ) : Fr)).val = x.val / 2 ^ 64 := fun x =>
    ZMod.val_natCast_of_lt ((Nat.div_le_self _ _).trans_lt (ZMod.val_lt x))
  have hsmall : ∀ x : ℕ, x < 2 ^ n → x / 2 ^ 64 < 2 ^ 64 := fun x hx => by
    have hle : 2 ^ n ≤ 2 ^ 64 * 2 ^ 64 := (Nat.pow_le_pow_right two_pos hn').trans_eq (pow_add 2 64 64)
    exact Nat.div_lt_of_lt_mul (hx.trans_le hle)
  have hclear : Performs fakeGlv st.h (fun w => (w v).val < 2 ^ n) { h₁ with pendingHi := none }
      fun _ w => (w v).val < 2 ^ n ∧ out.eval w = (((w v).val % 2 ^ 64 : ℕ) : Fr) ∧
        hi.eval w = (((w v).val / 2 ^ 64 : ℕ) : Fr) :=
    { p with sound := { p.sound with pendingHi := fun _ hl => absurd hl (Option.not_mem_none _) } }
  have hp := hclear.newWire (p.sound.pendingHi hi hpending) hcanon fun w _ _ hw => by
    rw [hw.2.2, hhigh]
    exact hsmall _ hw.1
  have hwires : (Host.newWire { h₁ with pendingHi := none } hi 64).wires
      = st.h.wires ++ [out] ++ [hi] := congrArg (· ++ [hi]) hws
  have hget : (st.h.wires ++ [out] ++ [hi])[st.h.wires.length]? = some out := by
    rw [List.getElem?_append_left (by simp)]
    exact List.getElem?_concat_length
  have hget' : (st.h.wires ++ [out] ++ [hi])[st.h.wires.length + 1]? = some hi := by
    rw [List.getElem?_append_right (by simp), List.length_append, List.length_singleton, Nat.sub_self]
    rfl
  have hguards : (Host.newWire { h₁ with pendingHi := none } hi 64).guards = [] := by
    have harms := hp.arms
    rw [hst.guards] at harms
    exact List.map_eq_nil_iff.mp harms
  have hsame : ∀ w, (Host.newWire { h₁ with pendingHi := none } hi 64).Ranges w ↔ st.h.Ranges w :=
    fun w => by rw [Host.Ranges, Host.Ranges, hp.inputs]
  refine ⟨v, hst.extend hp.sound hp.wires hguards hid htakes (fun _ hl => absurd hl List.not_mem_nil)
    (List.forall_mem_cons.mpr ⟨⟨le_rfl, le_rfl, out, hwires ▸ hget, fun w hw _ => ?_⟩,
      List.forall_mem_singleton.mpr ⟨le_rfl, le_rfl, hi, hwires ▸ hget', fun w hw _ => ?_⟩⟩)
    (fun w hw => (hsame w).mp hw) (fun w hw _ => (hsame w).mpr hw) (fun w hw _ s => ?_)
    (hp.realizes.weaken (fun _ _ hw => hw) fun _ _ _ hw _ => hw.1)⟩
  · obtain ⟨-, hval, -⟩ := hp.realizes.emits.post hw
    rw [hval, hlow]
    exact Nat.mod_lt _ (by positivity)
  · obtain ⟨hlt, -, hval⟩ := hp.realizes.emits.post hw
    rw [hval, hhigh]
    exact hsmall _ hlt
  · obtain ⟨-, hlo, hval⟩ := hp.realizes.emits.post hw
    rw [List.map_cons, List.map_singleton, Input.push, if_neg (not_le.mpr hn), IntVal.value, IntVal.value,
      hwires, hget, hget', Option.getD_some, Option.getD_some, hlo, hval, hlow, hhigh]
    rfl

/-- Any inputs. -/
lemma Opening.inputs {more : List Input} (hst : Opening fakeGlv b st ins vs)
    (hrun : more.foldlM (Input.run lcHash) st = .ok st') :
    ∃ us, Opening fakeGlv b st' (ins ++ more) us := by
  induction more generalizing st ins vs with
  | nil =>
      obtain rfl := Except.ok.inj hrun
      rw [List.append_nil]
      exact ⟨vs, hst⟩
  | cons i more ih =>
      rw [List.foldlM_cons] at hrun
      obtain ⟨st₁, hi, hrun⟩ := Succeeding.bind_eq_ok.mp hrun
      have hnext : ∃ v, Opening fakeGlv b st₁ (ins ++ [i]) (vs ++ [v]) := by
        cases i with
        | field name vis => exact hst.field hi
        | uint name vis n =>
            rcases le_or_gt n 64 with hn | hn
            · exact hst.narrow hn hi
            rcases le_or_gt n 128 with hn' | hn'
            · exact hst.wide hn hn' hi
            · obtain ⟨r, -, hi⟩ := Succeeding.bind_eq_ok.mp hi
              rw [if_neg (not_le.mpr hn), if_neg (not_le.mpr hn')] at hi
              cases hi
      obtain ⟨v, hst₁⟩ := hnext
      obtain ⟨us, hus⟩ := ih hst₁ hrun
      rw [List.append_assoc] at hus
      exact ⟨us, hus⟩

variable {cse : Bool} {matThreshold : ℕ} {reduce : Option ℕ}

lemma sound_new (hreduce : ∀ p ∈ reduce, p = rModulus) : (Host.new cse matThreshold reduce).Sound where
  builder := Builder.Sound.new cse matThreshold
  modulus := hreduce
  guards := True.intro
  cache := fun _ _ _ hx => by cases hx
  cache_open := fun _ _ _ hx => by cases hx
  muxes := fun _ _ _ _ hl => by cases hl
  wires := fun _ hl => absurd hl List.not_mem_nil
  canonical := fun _ hl => absurd hl List.not_mem_nil
  widths := fun _ _ hv => by cases hv
  bounds := fun _ _ hv => by cases hv
  facts := fun _ _ _ _ hid => by cases hid
  uintInputs := fun _ hu => absurd hu List.not_mem_nil
  pendingHi := fun _ hl => absurd hl (Option.not_mem_none _)

lemma Opening.new (fakeGlv : FakeGlv) (hreduce : ∀ p ∈ reduce, p = rModulus) :
    Opening fakeGlv (Builder.new cse matThreshold) (Session.new cse matThreshold reduce) [] [] where
  host := sound_new hreduce
  guards := rfl
  fields := fun _ hl => absurd hl List.not_mem_nil
  ints := fun _ hv => absurd hv List.not_mem_nil
  length := rfl
  below := fun _ hv => absurd hv List.not_mem_nil
  values := fun _ _ _ => rfl
  ranges := fun _ _ _ hu => absurd hu List.not_mem_nil
  realizes := Realizes.pure fun _ _ _ _ _ hp => absurd hp List.not_mem_nil
  takes := fun _ hxs _ => ⟨fun _ => 0, (List.length_eq_zero_iff.mp hxs).symm,
    fun _ hc => absurd hc List.not_mem_nil, fun _ hm => absurd hm List.not_mem_nil⟩

end Frontend

end XarkCircuit
