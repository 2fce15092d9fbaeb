import XarkCircuit.Groth16.PointsSound
import XarkCircuit.Lib.Succeeds

/-!
Which bytes are read as which point.

* `Coords.point_iff`: a point is read off its length, its two flag bits and the `x` that the other
  bits carry, and `y` is the root on the side that the flag names.
* `decompression_exact`: both roots are exact, and so are both readers (`Exact`).
-/

namespace XarkCircuit

namespace Points

open Codec Verifier ComplexRoot

/-! ### Flags and coordinates -/

/-- The infinity flag of `size` bytes: the last bit but one. -/
def infinity (size : ℕ) (b : List UInt8) : Bool := (fromBytesLe b).testBit (8 * size - 2)

/-- The sign flag: the last bit. -/
def larger (size : ℕ) (b : List UInt8) : Bool := (fromBytesLe b).testBit (8 * size - 1)

lemma exists_last {b : List UInt8} {n : ℕ} (h : b.length = n + 1) :
    ∃ init last, b = init ++ [last] ∧ init.length = n := by
  have hne : b ≠ [] := fun h0 => by simp [h0] at h
  exact ⟨b.dropLast, b.getLast hne, (List.dropLast_append_getLast hne).symm, by simp [h]⟩

lemma testBit_last {init : List UInt8} {last : UInt8} {n k : ℕ} (h : init.length = n) :
    (fromBytesLe (init ++ [last])).testBit (8 * n + k) = last.toNat.testBit k := by
  have hlt := fromBytesLe_lt init
  have hpow : 256 ^ n = 2 ^ (8 * n) := by rw [pow_mul]; norm_num
  rw [h, hpow] at hlt
  rw [fromBytesLe_append, h, hpow, add_comm, Nat.testBit_two_pow_mul_add _ hlt]
  simp [fromBytesLe_cons]

/-- A bit that a shift and a mask single out. -/
lemma shifted_bit (last k : UInt8) :
    (last >>> k &&& 1 == 1) = last.toNat.testBit (k.toNat % 8) := by
  rw [Bool.eq_iff_iff, beq_iff_eq, ← UInt8.toNat_inj, UInt8.toNat_and, UInt8.toNat_shiftRight,
    UInt8.toNat_one, Nat.and_one_is_mod, Nat.shiftRight_eq_div_pow,
    Nat.testBit_eq_decide_div_mod_eq, decide_eq_true_eq]

lemma flags_testBit (last : UInt8) :
    flags last = match last.toNat.testBit 7, last.toNat.testBit 6 with
      | true, true => .error .unexpectedFlags
      | neg, inf => .ok (inf, neg) := by
  rw [flags, shifted_bit, shifted_bit]
  rfl

/-- The flags that the reader finds. -/
lemma flags_eq {b : List UInt8} {size : ℕ} (h : b.length = size) (hpos : 0 < size) :
    flags (b.getD (size - 1) 0)
      = if larger size b && infinity size b then .error .unexpectedFlags
        else .ok (infinity size b, larger size b) := by
  obtain ⟨n, rfl⟩ := Nat.exists_eq_add_one.mpr hpos
  obtain ⟨init, last, rfl, hinit⟩ := exists_last h
  have hlast : (init ++ [last]).getD n 0 = last := by simp [List.getD, ← hinit]
  have hneg : larger (n + 1) (init ++ [last]) = last.toNat.testBit 7 := testBit_last hinit
  have hinf : infinity (n + 1) (init ++ [last]) = last.toNat.testBit 6 := testBit_last hinit
  rw [hneg, hinf, Nat.add_sub_cancel, hlast, flags_testBit]
  cases last.toNat.testBit 7 <;> cases last.toNat.testBit 6 <;> rfl

/-- Without its flags, the integer is shorter by two bits. -/
lemma fromBytesLe_unflagged {b : List UInt8} {n : ℕ} (h : b.length = n + 1) :
    fromBytesLe (unflagged b) = fromBytesLe b % 2 ^ (8 * n + 6) := by
  obtain ⟨init, last, rfl, rfl⟩ := exists_last h
  have hmask : (last &&& 0x3f).toNat = last.toNat % 2 ^ 6 := by
    rw [UInt8.toNat_and]
    exact Nat.and_two_pow_sub_one_eq_mod _ 6
  have hunflagged : unflagged (init ++ [last]) = init ++ [last &&& 0x3f] := by
    simp [unflagged, List.modify_eq_take_drop]
  have hlt := fromBytesLe_lt init
  have hpow : 256 ^ init.length = 2 ^ (8 * init.length) := by rw [pow_mul]; norm_num
  rw [hpow] at hlt
  rw [hunflagged, fromBytesLe_append, fromBytesLe_append, fromBytesLe_cons, fromBytesLe_cons, hmask,
    hpow, pow_add, Nat.mod_mul]
  simp only [fromBytesLe_nil, mul_zero, add_zero]
  rw [Nat.add_mul_mod_self_left, Nat.mod_eq_of_lt hlt, Nat.add_mul_div_left _ _ (by positivity),
    Nat.div_eq_of_lt hlt, zero_add]

lemma length_unflagged (b : List UInt8) : (unflagged b).length = b.length := List.length_modify ..

/-- A coordinate is read off its canonical bytes. -/
lemma fqFromLe_eq_ok {p : ℕ} [NeZero p] {b : List UInt8} (h : b.length = 32) {x : ZMod p} :
    fqFromLe p b = .ok x ↔ x.val = fromBytesLe b := by
  rw [fqFromLe, fromLimbs_limbs h]
  constructor
  · intro hx
    split_ifs at hx with hlt
    cases hx
    rw [ZMod.val_natCast, Nat.mod_eq_of_lt hlt]
  · intro hx
    rw [← hx, if_pos (ZMod.val_lt x), ZMod.natCast_zmod_val]

/-! ### Points -/

section Points

variable {F : Type}

/-- A point satisfies `y² = x³ + b`. -/
def OnCurve [Semiring F] (coeffB : F) : Affine F → Prop
  | none => True
  | some (x, y) => y ^ 2 = x ^ 3 + coeffB

variable [CommRing F]

/-- Of `y` and `-y`, the larger or the smaller. -/
def Coords.OnSide (C : Coords F) : Bool → F → Prop
  | true, y => C.lt y (-y) = false
  | false, y => C.lt (-y) y = false

/-- What the coordinates of a group are to satisfy; `carries` says which `x` the bytes hold. -/
structure Coords.Lawful (C : Coords F) (carries : List UInt8 → F → Prop) : Prop where
  pos : 0 < C.size
  x_iff : ∀ b x, b.length = C.size → (C.x b = .ok x ↔ carries b x)
  rootAt : ∀ a, RootAt C.sqrt a
  eq_or_eq_neg : ∀ y z : F, y ^ 2 = z ^ 2 → y = z ∨ y = -z
  asymm : ∀ y z, C.lt y z = true → C.lt z y = false
  total : ∀ y z, C.lt y z = false → C.lt z y = false → y = z

variable {C : Coords F} {carries : List UInt8 → F → Prop}

/-- The root that the reader picks, from any root. -/
def Coords.pick (C : Coords F) (side : Bool) (y : F) : F :=
  let (small, large) := if C.lt y (-y) then (y, -y) else (-y, y)
  if side then large else small

namespace Coords.Lawful

lemma sq_pick (C : Coords F) (side : Bool) (y : F) : C.pick side y ^ 2 = y ^ 2 := by
  rw [Coords.pick]
  cases C.lt y (-y) <;> cases side <;> simp

lemma onSide_pick (h : C.Lawful carries) (side : Bool) (y : F) : C.OnSide side (C.pick side y) := by
  rw [Coords.pick]
  cases hlt : C.lt y (-y)
  · cases side <;> simpa [Coords.OnSide] using hlt
  · have hgt := h.asymm y (-y) hlt
    cases side <;> simpa [Coords.OnSide] using hgt

/-- The two roots are told apart by their side. -/
lemma eq_of_onSide (h : C.Lawful carries) {side : Bool} {y z : F} (hsq : y ^ 2 = z ^ 2)
    (hy : C.OnSide side y) (hz : C.OnSide side z) : y = z := by
  rcases h.eq_or_eq_neg y z hsq with heq | rfl
  · exact heq
  · cases side
    · rw [Coords.OnSide, neg_neg] at hy
      exact h.total _ _ hz hy
    · rw [Coords.OnSide, neg_neg] at hy
      exact h.total _ _ hy hz

/-- **What is read**: the length, the flags, an `x`, and the root on the side of the flag. -/
theorem point_iff (h : C.Lawful carries) {b : List UInt8} {P : Affine F} :
    C.point b = .ok P ↔
      b.length = C.size ∧ (larger C.size b && infinity C.size b) = false ∧
        ∃ x, carries b x ∧
          (if infinity C.size b then P = none
            else ∃ y, y ^ 2 = x ^ 3 + C.coeffB ∧ C.OnSide (larger C.size b) y
              ∧ P = some (x, y)) := by
  by_cases hlen : b.length = C.size
  swap
  · simp [Coords.point, hlen]
  rw [Coords.point, if_neg (not_not.mpr hlen), flags_eq hlen h.pos]
  cases hflags : (larger C.size b && infinity C.size b)
  swap
  · simp [bind, Except.bind]
  simp only [Bool.false_eq_true, if_false, Succeeding.bind_eq_ok, Except.ok.injEq, hlen, true_and]
  rw [exists_eq_left']
  refine exists_congr fun x => and_congr (h.x_iff b x hlen) ?_
  cases hinf : infinity C.size b
  swap
  · simp [eq_comm, pure, Except.pure]
  have hcube : x ^ 2 * x = x ^ 3 := (pow_succ x 2).symm
  have hroot := h.rootAt (x ^ 3 + C.coeffB)
  simp only [Bool.false_eq_true, if_false, Succeeding.bind_eq_ok, hcube]
  change (∃ y, _ ∧ Except.ok (some (x, C.pick (larger C.size b) y)) = .ok P) ↔ _
  constructor
  · rintro ⟨y, hy, hP⟩
    cases hs : C.sqrt (x ^ 3 + C.coeffB) with
    | none => rw [hs] at hy; cases hy
    | some r =>
        rw [hs] at hy
        cases hy
        refine ⟨C.pick (larger C.size b) y, ?_, h.onSide_pick _ _, (Except.ok.inj hP).symm⟩
        rw [sq_pick, hroot.sq y hs]
  · rintro ⟨y, hy, hside, rfl⟩
    obtain ⟨r, hr⟩ := Option.isSome_iff_exists.mp (hroot.isSome.mpr ⟨y, by rw [← hy, sq]⟩)
    refine ⟨r, by rw [hr]; rfl, ?_⟩
    have hpick : C.pick (larger C.size b) r = y :=
      h.eq_of_onSide (by rw [sq_pick, hroot.sq r hr, hy]) (h.onSide_pick _ _) hside
    rw [hpick]

end Coords.Lawful

/-- `b` is written for a point: its length, its flags, and its `x`. -/
def Coords.Written (C : Coords F) (carries : List UInt8 → F → Prop) (b : List UInt8) :
    Affine F → Prop
  | none => b.length = C.size ∧ larger C.size b = false ∧ infinity C.size b = true
      ∧ ∃ x, carries b x
  | some (x, y) => b.length = C.size ∧ larger C.size b = C.lt (-y) y ∧ infinity C.size b = false
      ∧ carries b x

/-- A reader of points is exact. -/
structure Exact (read : List UInt8 → Except SerializationError (Affine F)) (C : Coords F)
    (carries : List UInt8 → F → Prop) (compress : Affine F → List UInt8) : Prop where
  /-- What is written for a curve point is read back. -/
  read_compress : ∀ P, OnCurve C.coeffB P → read (compress P) = .ok P
  /-- Bytes are accepted exactly when the flags aren't both set, the coordinates are below the
  modulus, and the bytes are flagged infinity or their `x` is on the curve. -/
  accepted_iff : ∀ b, b.length = C.size → ((∃ P, read b = .ok P) ↔
    ¬ (larger C.size b = true ∧ infinity C.size b = true) ∧
      ∃ x, carries b x ∧ (infinity C.size b = true ∨ ∃ y, y ^ 2 = x ^ 3 + C.coeffB))
  /-- Infinity is returned where it is flagged. -/
  infinity_iff : ∀ b P, read b = .ok P → (P = none ↔ infinity C.size b = true)
  /-- The point returned has the `x` of the bytes and is on the curve; its `y` is the larger of the
  two roots exactly when the flag says so. -/
  returned : ∀ b x y, read b = .ok (some (x, y)) → carries b x ∧ y ^ 2 = x ^ 3 + C.coeffB ∧
    (y ≠ 0 → (C.lt (-y) y = true ↔ larger C.size b = true))

/-- **A lawful reader is exact.** -/
theorem Coords.Lawful.exact (h : C.Lawful carries) (hneg : ∀ y : F, y = -y → y = 0)
    {compress : Affine F → List UInt8} (hwritten : ∀ P, C.Written carries (compress P) P) :
    Exact C.point C carries compress := by
  constructor
  · intro P hP
    rw [h.point_iff]
    cases P with
    | none =>
        obtain ⟨hlen, hlarger, hinf, x, hx⟩ := hwritten none
        exact ⟨hlen, by rw [hlarger]; rfl, x, hx, by rw [if_pos hinf]⟩
    | some P =>
        obtain ⟨x, y⟩ := P
        obtain ⟨hlen, hlarger, hinf, hx⟩ := hwritten (some (x, y))
        refine ⟨hlen, by rw [hinf, Bool.and_false], x, hx, ?_⟩
        rw [if_neg (by simp [hinf])]
        refine ⟨y, hP, ?_, rfl⟩
        rw [hlarger]
        cases hlt : C.lt (-y) y
        · exact hlt
        · exact h.asymm _ _ hlt
  · intro b hb
    simp only [h.point_iff, hb, true_and]
    rw [exists_and_left, Bool.and_eq_false_iff, ← Bool.not_eq_true, ← Bool.not_eq_true,
      ← not_and_or, exists_comm]
    refine and_congr_right' (exists_congr fun x => ?_)
    rw [exists_and_left]
    refine and_congr_right' ?_
    cases infinity C.size b
    swap
    · simp
    constructor
    · rintro ⟨P, y, hy, -⟩
      exact Or.inr ⟨y, hy⟩
    · rintro (hinf | ⟨y, hy⟩)
      · cases hinf
      · exact ⟨_, _, by rw [Coords.Lawful.sq_pick, hy], h.onSide_pick _ y, rfl⟩
  · intro b P hP
    obtain ⟨-, -, x, -, hcase⟩ := h.point_iff.mp hP
    cases hinf : infinity C.size b
    · rw [hinf, if_neg Bool.false_ne_true] at hcase
      obtain ⟨y, -, -, rfl⟩ := hcase
      simp
    · rw [hinf, if_pos rfl] at hcase
      simp [hcase]
  · intro b x y hP
    obtain ⟨-, -, x', hx, hcase⟩ := h.point_iff.mp hP
    cases hinf : infinity C.size b
    swap
    · rw [hinf, if_pos rfl] at hcase
      cases hcase
    rw [hinf, if_neg Bool.false_ne_true] at hcase
    obtain ⟨y', hy, hside, heq⟩ := hcase
    cases heq
    refine ⟨hx, hy, fun hy0 => ?_⟩
    cases hlarger : larger C.size b
    · rw [hlarger] at hside
      exact iff_of_false (by simpa [Coords.OnSide] using hside) Bool.false_ne_true
    · rw [hlarger] at hside
      refine iff_of_true ?_ rfl
      by_contra hge
      exact hy0 (hneg y (h.total _ _ hside (Bool.not_eq_true _ ▸ hge)))

end Points

/-! ### The two groups -/

section Groups

variable {p : ℕ}

/-- 32 bytes hold the coordinate of `x`. -/
def carriesG1 (b : List UInt8) (x : ZMod p) : Prop := x.val = fromBytesLe b % 2 ^ 254

/-- 64 bytes hold the two coordinates of `x`; the flags are in the second half. -/
def carriesG2 (b : List UInt8) (x : Fq2 p) : Prop :=
  x.re.val = fromBytesLe (b.take 32) ∧ x.im.val = fromBytesLe (b.drop 32) % 2 ^ 254

/-- The canonical bytes of a G1 point. -/
def compressG1 : Affine (ZMod p) → List UInt8
  | none => leBytes 32 (2 ^ 254)
  | some (x, y) => leBytes 32 (x.val + if ltFq (-y) y then 2 ^ 255 else 0)

/-- The canonical bytes of a G2 point. -/
def compressG2 : Affine (Fq2 p) → List UInt8
  | none => leBytes 32 0 ++ leBytes 32 (2 ^ 254)
  | some (x, y) => leBytes 32 x.re.val ++
      leBytes 32 (x.im.val + if ltFq2 (-y) y then 2 ^ 255 else 0)

lemma ltFq_asymm {y z : ZMod p} (h : ltFq y z = true) : ltFq z y = false := by
  simp only [ltFq, decide_eq_true_eq, decide_eq_false_iff_not] at h ⊢
  omega

lemma ltFq_total [NeZero p] {y z : ZMod p} (h : ltFq y z = false) (h' : ltFq z y = false) :
    y = z := by
  simp only [ltFq, decide_eq_false_iff_not] at h h'
  exact ZMod.val_injective _ (by omega)

lemma ltFq2_asymm {y z : Fq2 p} (h : ltFq2 y z = true) : ltFq2 z y = false := by
  simp only [ltFq2] at h ⊢
  split_ifs at h ⊢ <;> simp only [decide_eq_true_eq, decide_eq_false_iff_not] at h ⊢ <;> omega

lemma ltFq2_total [NeZero p] {y z : Fq2 p} (h : ltFq2 y z = false) (h' : ltFq2 z y = false) :
    y = z := by
  simp only [ltFq2] at h h'
  split_ifs at h h' with him him' <;> simp only [decide_eq_false_iff_not] at h h'
  · have hre : y.re.val = z.re.val := by omega
    exact QuadraticAlgebra.ext (ZMod.val_injective _ hre) (ZMod.val_injective _ him)
  all_goals omega

/-- A coordinate with its flags in the two highest bits. -/
lemma flagged {v : ℕ} (hv : v < 2 ^ 254) (side : Bool) :
    let n := v + if side then 2 ^ 255 else 0
    fromBytesLe (leBytes 32 n) % 2 ^ 254 = v ∧ (fromBytesLe (leBytes 32 n)).testBit 255 = side ∧
      (fromBytesLe (leBytes 32 n)).testBit 254 = false := by
  simp only [fromBytesLe_leBytes, Nat.testBit_eq_decide_div_mod_eq]
  cases side
  · simp only [Bool.false_eq_true, if_false, decide_eq_false_iff_not]
    omega
  · simp only [if_true, decide_eq_true_eq, decide_eq_false_iff_not]
    omega

lemma flagged_infinity : fromBytesLe (leBytes 32 (2 ^ 254)) % 2 ^ 254 = 0 ∧
    (fromBytesLe (leBytes 32 (2 ^ 254))).testBit 255 = false ∧
      (fromBytesLe (leBytes 32 (2 ^ 254))).testBit 254 = true := by
  simp only [fromBytesLe_leBytes, Nat.testBit_eq_decide_div_mod_eq]
  norm_num

/-- The flags of two halves are those of the second. -/
lemma testBit_append {as bs : List UInt8} {k : ℕ} (h : as.length = 32) :
    (fromBytesLe (as ++ bs)).testBit (256 + k) = (fromBytesLe bs).testBit k := by
  have hlt := fromBytesLe_lt as
  have hpow : (256 : ℕ) ^ 32 = 2 ^ 256 := by norm_num
  rw [h, hpow] at hlt
  rw [fromBytesLe_append, h, hpow, add_comm, Nat.testBit_two_pow_mul_add _ hlt]
  simp

variable [Fact p.Prime] (hp : Modulus p)
include hp

lemma coordsG1_lawful : (coordsG1 p).Lawful carriesG1 where
  pos := by norm_num [coordsG1]
  x_iff b x hb := by
    change b.length = 31 + 1 at hb
    have hlen : (unflagged b).length = 32 := (length_unflagged b).trans hb
    change fqFromLe p (unflagged b) = .ok x ↔ _
    rw [fqFromLe_eq_ok hlen, fromBytesLe_unflagged hb]
    rfl
  rootAt := sqrtFq_rootAt hp
  eq_or_eq_neg _ _ h := sq_eq_sq_iff_eq_or_eq_neg.mp h
  asymm _ _ := ltFq_asymm
  total _ _ := ltFq_total

lemma coordsG2_lawful {libSqrt : Fq2 p → Option (Fq2 p)} (coeffB : Fq2 p)
    (hlib : ∀ a, a.im = 0 → RootAt libSqrt a) : (coordsG2 libSqrt coeffB).Lawful carriesG2 where
  pos := by norm_num [coordsG2]
  x_iff b x hb := by
    change b.length = 64 at hb
    have htake : (b.take 32).length = 32 := by rw [List.length_take, hb]; rfl
    have hdrop : (b.drop 32).length = 31 + 1 := by rw [List.length_drop, hb]
    have hlen : (unflagged (b.drop 32)).length = 32 := (length_unflagged _).trans hdrop
    change (fqFromLe p (b.take 32) >>= fun c0 =>
      fqFromLe p (unflagged (b.drop 32)) >>= fun c1 => .ok ⟨c0, c1⟩) = .ok x ↔ _
    simp only [Succeeding.bind_eq_ok, fqFromLe_eq_ok htake, fqFromLe_eq_ok hlen,
      fromBytesLe_unflagged hdrop]
    constructor
    · rintro ⟨c0, h0, c1, h1, hx⟩
      cases hx
      exact ⟨h0, h1⟩
    · rintro ⟨h0, h1⟩
      exact ⟨x.re, h0, x.im, h1, rfl⟩
  rootAt := sqrtFq2_rootAt hp hlib
  eq_or_eq_neg _ _ h := ext_eq_or_eq_neg (card_mod_four hp) h
  asymm _ _ := ltFq2_asymm
  total _ _ := ltFq2_total

omit hp in
lemma written_compressG1 (h254 : p < 2 ^ 254) (P : Affine (ZMod p)) :
    (coordsG1 p).Written carriesG1 (compressG1 P) P := by
  cases P with
  | none =>
      obtain ⟨hx, hneg, hinf⟩ := flagged_infinity
      exact ⟨length_leBytes _ _, hneg, hinf, 0, ZMod.val_zero.trans hx.symm⟩
  | some P =>
      obtain ⟨x, y⟩ := P
      obtain ⟨hx, hneg, hinf⟩ := flagged ((ZMod.val_lt x).trans h254) (ltFq (-y) y)
      exact ⟨length_leBytes _ _, hneg, hinf, hx.symm⟩

omit hp in
lemma written_compressG2 (h254 : p < 2 ^ 254) (libSqrt : Fq2 p → Option (Fq2 p)) (coeffB : Fq2 p)
    (P : Affine (Fq2 p)) : (coordsG2 libSqrt coeffB).Written carriesG2 (compressG2 P) P := by
  have hcarries : ∀ {v : ℕ} {bs : List UInt8} {x : Fq2 p}, x.re.val = v →
      x.im.val = fromBytesLe bs % 2 ^ 254 → carriesG2 (leBytes 32 v ++ bs) x := by
    rintro v bs x rfl him
    have hv : fromBytesLe (leBytes 32 x.re.val) = x.re.val := by
      rw [fromBytesLe_leBytes, Nat.mod_eq_of_lt]
      exact ((ZMod.val_lt _).trans h254).trans (by norm_num)
    rw [carriesG2, List.take_left' (length_leBytes _ _), List.drop_left' (length_leBytes _ _), hv]
    exact ⟨rfl, him⟩
  have hlen : ∀ v w : ℕ, (leBytes 32 v ++ leBytes 32 w).length = 64 := by simp
  cases P with
  | none =>
      obtain ⟨hx, hneg, hinf⟩ := flagged_infinity
      refine ⟨hlen _ _, ?_, ?_, 0, hcarries ZMod.val_zero (ZMod.val_zero.trans hx.symm)⟩
      · exact (testBit_append (k := 255) (length_leBytes _ _)).trans hneg
      · exact (testBit_append (k := 254) (length_leBytes _ _)).trans hinf
  | some P =>
      obtain ⟨x, y⟩ := P
      obtain ⟨hx, hneg, hinf⟩ := flagged ((ZMod.val_lt x.im).trans h254) (ltFq2 (-y) y)
      refine ⟨hlen _ _, ?_, ?_, hcarries rfl hx.symm⟩
      · exact (testBit_append (k := 255) (length_leBytes _ _)).trans hneg
      · exact (testBit_append (k := 254) (length_leBytes _ _)).trans hinf

end Groups

/-- **Decompression is exact.** For a prime `p ≡ 3 mod 4` of four limbs both roots are exact, the
second with the library's root where `c1` is zero. Where `p` leaves two bits to the flags, both
readers are exact: they read back what is written, accept what is a point and no more, and pick the
root that the flag names. -/
theorem decompression_exact {p : ℕ} [Fact p.Prime] (h4 : p % 4 = 3) (h256 : p < 2 ^ 256)
    (libSqrt : Fq2 p → Option (Fq2 p)) (hlib : ∀ a, a.im = 0 → RootAt libSqrt a)
    (coeffB : Fq2 p) :
    (∀ a : ZMod p, RootAt sqrtFq a) ∧ (∀ a : Fq2 p, RootAt (sqrtFq2 libSqrt) a) ∧
      (p < 2 ^ 254 →
        Exact (g1 p) (coordsG1 p) carriesG1 compressG1 ∧
          Exact (g2 libSqrt coeffB) (coordsG2 libSqrt coeffB) carriesG2 compressG2) := by
  have hp : Modulus p := ⟨Fact.out, h4, h256⟩
  have hcard := card_mod_four hp
  refine ⟨sqrtFq_rootAt hp, sqrtFq2_rootAt hp hlib, fun h254 => ⟨?_, ?_⟩⟩
  · exact (coordsG1_lawful hp).exact (fun y hy => eq_zero_of_eq_neg hcard hy)
      (written_compressG1 h254)
  · refine (coordsG2_lawful hp coeffB hlib).exact (fun y hy => ?_)
      (written_compressG2 h254 libSqrt coeffB)
    exact QuadraticAlgebra.ext (eq_zero_of_eq_neg hcard (congrArg QuadraticAlgebra.re hy))
      (eq_zero_of_eq_neg hcard (congrArg QuadraticAlgebra.im hy))

/-- A root by search. -/
def searchRoot {p : ℕ} (a : Fq2 p) : Option (Fq2 p) :=
  ((List.range p).flatMap fun i : ℕ => (List.range p).map fun j : ℕ => (⟨i, j⟩ : Fq2 p)).find?
    fun r => decide (r ^ 2 = a)

lemma searchRoot_rootAt {p : ℕ} [NeZero p] (a : Fq2 p) : RootAt searchRoot a := by
  constructor
  · intro r hr
    exact of_decide_eq_true (List.find?_some hr :)
  · rw [searchRoot, List.find?_isSome]
    constructor
    · rintro ⟨r, -, hr⟩
      exact ⟨r, by rw [← sq]; exact (of_decide_eq_true hr).symm⟩
    · rintro ⟨r, rfl⟩
      refine ⟨r, List.mem_flatMap.mpr ⟨r.re.val, List.mem_range.mpr (ZMod.val_lt _), ?_⟩, ?_⟩
      · refine List.mem_map.mpr ⟨r.im.val, List.mem_range.mpr (ZMod.val_lt _), ?_⟩
        rw [ZMod.natCast_zmod_val, ZMod.natCast_zmod_val]
      · rw [sq]
        exact decide_eq_true rfl

/-- Over eleven elements, with `y² = x³ + 3` and `y² = x³ + 2 + u`. -/
theorem decompression_exact_eleven :
    Exact (g1 11) (coordsG1 11) carriesG1 compressG1 ∧
      Exact (g2 searchRoot (⟨2, 1⟩ : Fq2 11)) (coordsG2 searchRoot ⟨2, 1⟩) carriesG2
        compressG2 :=
  have : Fact (Nat.Prime 11) := ⟨by norm_num⟩
  (decompression_exact (by norm_num) (by norm_num) searchRoot (fun a _ => searchRoot_rootAt a)
    ⟨2, 1⟩).2.2 (by norm_num)

end Points

end XarkCircuit
