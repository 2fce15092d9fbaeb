import XarkCircuit.Lib.Outcome
import Mathlib.NumberTheory.LegendreSymbol.Basic

/-!
Square roots modulo a prime, by Tonelli and Shanks.

* `sqrtMod p fuel n` is a root of `n` modulo `p`, `none` when `n` is not a square. Its loops are
  bounded by `fuel`.
* `SquareRoot.loop` keeps `r² = t · n`, so that `r` is a root when `t` has become one
  (`sq_loop`); that `none` is right is Euler's criterion. Together they are `sqrtMod_spec`.
-/

namespace SquareRoot

/-- `b.modpow(e, p)`. -/
def modpow (p b e : ℕ) : ℕ := b ^ e % p

/-- The number of zero bits below the lowest one bit. -/
def trailingZeros (n : ℕ) : Option ℕ := (List.range (n.log2 + 1)).find? n.testBit

/-- The first number from `z` on that is not a square. -/
def nonResidue (p : ℕ) : ℕ → ℕ → Outcome ℕ
  | 0, _ => .error .outOfFuel
  | fuel + 1, z => if modpow p z ((p - 1) >>> 1) = 1 then nonResidue p fuel (z + 1) else .ok z

/-- How often `t2` is squared until it is one, counted from `i`. -/
def order (p : ℕ) : ℕ → ℕ → ℕ → Outcome ℕ
  | 0, _, _ => .error .outOfFuel
  | fuel + 1, i, t2 => if t2 = 1 then .ok i else order p fuel (i + 1) (t2 * t2 % p)

/-- Correct the root `r` by a power of `c` until `t` is one. -/
def loop (p : ℕ) : ℕ → ℕ → ℕ → ℕ → ℕ → Outcome ℕ
  | 0, _, _, _, _ => .error .outOfFuel
  | fuel + 1, m, c, t, r =>
      if t = 1 then .ok r
      else do
        let i ← order p fuel 0 t
        if m < i + 1 then .error .panic
        else
          let b := modpow p c (1 <<< (m - i - 1))
          let c := b * b % p
          loop p fuel i c (t * c % p) (r * b % p)

end SquareRoot

open SquareRoot in
/-- A square root of `n` modulo the odd prime `p`, or `none` when `n` is not a square. -/
def sqrtMod (p fuel n : ℕ) : Outcome (Option ℕ) :=
  let n := n % p
  if n = 0 then .ok (some n)
  else
    let pm1 := p - 1
    if modpow p n (pm1 >>> 1) ≠ 1 then .ok none
    else do
      let s ← Outcome.orPanic (trailingZeros pm1)
      let q := pm1 >>> s
      let z ← nonResidue p fuel 2
      let r ← loop p fuel s (modpow p z q) (modpow p n q) (modpow p n ((q + 1) >>> 1))
      return some r

namespace SquareRoot

@[simp] lemma cast_modpow (p b e : ℕ) : ((modpow p b e : ℕ) : ZMod p) = (b : ZMod p) ^ e := by
  rw [modpow, ZMod.natCast_mod, Nat.cast_pow]

/-- Without its trailing zeros a number is odd. -/
lemma odd_shiftRight {n s : ℕ} (h : trailingZeros n = some s) : Odd (n >>> s) := by
  have hs : n.testBit s = true := List.find?_some h
  rw [Nat.testBit_eq_decide_div_mod_eq, decide_eq_true_iff] at hs
  rwa [Nat.odd_iff, Nat.shiftRight_eq_div_pow]

/-- Half of the successor of an odd number, doubled. -/
lemma half_succ_mul_two {q : ℕ} (h : Odd q) : (q + 1) >>> 1 * 2 = q + 1 := by
  obtain ⟨k, rfl⟩ := h
  rw [Nat.shiftRight_eq_div_pow]
  omega

/-- The loop ends with a root: it keeps `r² = t · n`. -/
lemma sq_loop {p fuel m c t r out : ℕ} {n : ZMod p} (hr : (r : ZMod p) ^ 2 = t * n)
    (h : loop p fuel m c t r = .ok out) : (out : ZMod p) ^ 2 = n := by
  induction fuel generalizing m c t r with
  | zero => exact absurd h (by simp [loop])
  | succ fuel ih =>
      rw [loop] at h
      split_ifs at h with ht
      · obtain rfl := Except.ok.inj h
        rw [hr, ht, Nat.cast_one, one_mul]
      · obtain ⟨i, -, h⟩ := Outcome.bind_eq_ok.mp h
        split_ifs at h with hm
        refine ih ?_ h
        rw [ZMod.natCast_mod, ZMod.natCast_mod, Nat.cast_mul, Nat.cast_mul, ZMod.natCast_mod,
          Nat.cast_mul, mul_pow, hr]
        ring

/-- When Euler's power of `n` is not one, `n` is not a square. -/
lemma not_isSquare_of_modpow {p : ℕ} [Fact p.Prime] {n : ℕ} (hn : n % p ≠ 0)
    (h : modpow p (n % p) ((p - 1) >>> 1) ≠ 1) : ¬ IsSquare (n : ZMod p) := by
  have hp : p.Prime := Fact.out
  rcases hp.eq_two_or_odd with rfl | hodd
  · exact absurd rfl h
  · have hn' : (n : ZMod p) ≠ 0 := by
      rwa [Ne, ZMod.natCast_eq_zero_iff, Nat.dvd_iff_mod_eq_zero]
    rw [ZMod.euler_criterion p hn']
    intro heq
    have hhalf : (p - 1) >>> 1 = p / 2 := by
      rw [Nat.shiftRight_eq_div_pow]
      omega
    refine h ?_
    have hcast : ((modpow p (n % p) ((p - 1) >>> 1) : ℕ) : ZMod p) = (1 : ℕ) := by
      rw [cast_modpow, hhalf, ZMod.natCast_mod, heq, Nat.cast_one]
    rw [ZMod.natCast_eq_natCast_iff, Nat.ModEq, Nat.mod_eq_of_lt hp.one_lt] at hcast
    rwa [modpow, Nat.mod_mod] at hcast

end SquareRoot

open SquareRoot in
/-- **What is returned is a square root, and `none` means that there is none.** -/
theorem sqrtMod_spec {p : ℕ} [Fact p.Prime] {fuel n : ℕ} {out : Option ℕ}
    (h : sqrtMod p fuel n = .ok out) :
    (out = none → ¬ IsSquare (n : ZMod p)) ∧ ∀ r, out = some r → (r : ZMod p) ^ 2 = n := by
  unfold sqrtMod at h
  dsimp only at h
  split_ifs at h with h0 hsq
  · obtain rfl := Except.ok.inj h
    refine ⟨by simp, fun r hr => ?_⟩
    obtain rfl := Option.some.inj hr
    rw [h0, Nat.cast_zero, zero_pow two_ne_zero]
    exact ((ZMod.natCast_eq_zero_iff n p).mpr (Nat.dvd_of_mod_eq_zero h0)).symm
  · obtain rfl := Except.ok.inj h
    exact ⟨fun _ => not_isSquare_of_modpow h0 hsq, by simp⟩
  · obtain ⟨s, hs, h⟩ := Outcome.bind_eq_ok.mp h
    obtain ⟨z, -, h⟩ := Outcome.bind_eq_ok.mp h
    obtain ⟨root, hroot, h⟩ := Outcome.bind_eq_ok.mp h
    obtain rfl := Except.ok.inj h
    refine ⟨by simp, fun r hr => ?_⟩
    obtain rfl := Option.some.inj hr
    cases htz : trailingZeros (p - 1) with
    | none => rw [htz] at hs; exact absurd hs (by simp)
    | some s' =>
        rw [htz, Outcome.orPanic_some, Except.ok.injEq] at hs
        subst hs
        refine sq_loop ?_ hroot
        rw [cast_modpow, cast_modpow, ZMod.natCast_mod, ← pow_mul,
          half_succ_mul_two (odd_shiftRight htz), pow_succ]

example : sqrtMod 13 9 10 = .ok (some 7) := by decide +kernel
