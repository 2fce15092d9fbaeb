import XarkCircuit.Lib.Instances
import Mathlib.Algebra.Polynomial.Roots

/-!
Geometric sequences, checked in one random combination.

* `batch ρ Ps` is `Σ ρⁱ Pᵢ`. A sequence is geometric of ratio `τ` when each element is `τ` times
  the one before (`eq_map_pow_iff`).
* `exists_polynomial`: for a sequence that isn't, the combinations of the sequence from its second
  element on and of the sequence up to the last but one have ratio `τ` at the roots of a nonzero
  polynomial only.
-/

namespace Ladder

open Polynomial

variable {F G : Type*} [Field F] [AddCommGroup G] [Module F G]

/-- `Σ ρⁱ Pᵢ`. -/
def batch (ρ : F) : List G → G
  | [] => 0
  | P :: Ps => P + ρ • batch ρ Ps

@[simp] lemma batch_nil (ρ : F) : batch ρ ([] : List G) = 0 := rfl

@[simp] lemma batch_cons (ρ : F) (P : G) (Ps : List G) :
    batch ρ (P :: Ps) = P + ρ • batch ρ Ps := rfl

/-- A combination of images. -/
lemma map_batch {H : Type*} [AddCommGroup H] [Module F H] (f : G →ₗ[F] H) (ρ : F) (Ps : List G) :
    batch ρ (Ps.map f) = f (batch ρ Ps) := by
  induction Ps with
  | nil => simp
  | cons P Ps ih => simp [ih]

/-- A combination of multiples of one element. -/
lemma batch_map_smul (ρ : F) (xs : List F) (g : G) :
    batch ρ (xs.map (· • g)) = batch ρ xs • g :=
  map_batch (LinearMap.toSpanSingleton F G g) ρ xs

/-- A combination, with the powers of `ρ` written out. -/
lemma sum_zipWith_iterate (ρ c : F) (n : ℕ) (Ps : List G) (h : Ps.length ≤ n) :
    (List.zipWith (fun s P => s • P) (List.iterate (· * ρ) c n) Ps).sum = c • batch ρ Ps := by
  induction Ps generalizing c n with
  | nil => simp
  | cons P Ps ih =>
      obtain ⟨n, rfl⟩ := Nat.exists_eq_add_one.mpr (lt_of_lt_of_le (Nat.succ_pos _) h)
      rw [List.iterate, List.zipWith_cons_cons, List.sum_cons, ih _ _ (Nat.le_of_succ_le_succ h),
        batch_cons, smul_add, smul_smul]

/-! ### Geometric sequences -/

lemma eq_map_pow_iff (τ : F) (Ps : List G) :
    Ps.tail = Ps.dropLast.map (τ • ·) ↔
      Ps = (List.range Ps.length).map fun i => τ ^ i • Ps.headD 0 := by
  have hhead : ∀ (h : 0 < Ps.length), Ps.headD 0 = Ps[0] := by
    intro h
    obtain ⟨P, Ps, rfl⟩ := List.exists_cons_of_length_pos h
    rfl
  constructor
  · intro h
    have hstep : ∀ i (hi : i + 1 < Ps.length), Ps[i + 1] = τ • Ps[i] := by
      intro i hi
      have hget := congrArg (fun l : List G => l[i]?) h
      have hi' : i < Ps.length - 1 := by omega
      simpa [List.getElem?_tail, List.getElem?_dropLast, hi, hi', Nat.lt_of_succ_lt hi] using hget
    refine List.ext_getElem (by simp) fun i hi _ => ?_
    rw [List.getElem_map, List.getElem_range]
    induction i with
    | zero => rw [pow_zero, one_smul, hhead hi]
    | succ i ih =>
        have hi' : i < Ps.length := Nat.lt_of_succ_lt hi
        rw [hstep i hi, ih hi' (by simpa using hi'), smul_smul, pow_succ']
  · intro h
    refine List.ext_getElem (by simp) fun i hi hi' => ?_
    have hget : ∀ k (hk : k < Ps.length), Ps[k] = τ ^ k • Ps.headD 0 := by
      intro k hk
      have hk' := congrArg (fun l : List G => l[k]?) h
      simpa [hk] using hk'
    rw [List.getElem_map, List.getElem_tail, List.getElem_dropLast, hget, hget, smul_smul, pow_succ']

/-! ### The polynomial of a sequence -/

/-- `Σ xᵢ Xⁱ`. -/
noncomputable def poly : List F → F[X]
  | [] => 0
  | x :: xs => C x + X * poly xs

lemma eval_poly (ρ : F) (xs : List F) : (poly xs).eval ρ = batch ρ xs := by
  induction xs with
  | nil => simp [poly]
  | cons x xs ih => simp [poly, ih]

lemma coeff_poly (xs : List F) (i : ℕ) : (poly xs).coeff i = xs.getD i 0 := by
  induction xs generalizing i with
  | nil => simp [poly]
  | cons x xs ih =>
      cases i with
      | zero => simp [poly]
      | succ i => simp [poly, ih, coeff_C_succ]

lemma degree_poly_lt (xs : List F) : (poly xs).degree < xs.length := by
  rw [degree_lt_iff_coeff_zero]
  intro i hi
  rw [coeff_poly]
  simp [List.getD_eq_getElem?_getD, hi]

lemma poly_eq_zero {xs : List F} (h : poly xs = 0) : ∀ x ∈ xs, x = 0 := by
  intro x hx
  obtain ⟨i, hi, rfl⟩ := List.getElem_of_mem hx
  have hcoeff := coeff_poly xs i
  rw [h, coeff_zero, List.getD_eq_getElem?_getD, List.getElem?_eq_getElem hi] at hcoeff
  exact hcoeff.symm

lemma batch_zipWith_sub (ρ τ : F) (xs ys : List F) (h : xs.length = ys.length) :
    batch ρ (List.zipWith (fun x y => x - τ * y) xs ys)
      = batch ρ xs - τ * batch ρ ys := by
  induction xs generalizing ys with
  | nil =>
      obtain rfl := List.length_eq_zero_iff.mp h.symm
      simp
  | cons x xs ih =>
      obtain ⟨y, ys, rfl⟩ := List.exists_cons_of_length_eq_add_one h.symm
      rw [List.zipWith_cons_cons, batch_cons, batch_cons, batch_cons,
        ih ys (Nat.succ.inj h)]
      simp only [smul_eq_mul]
      ring

/-- **A sequence that isn't geometric** passes at the roots of a nonzero polynomial only, of degree
below its length. -/
theorem exists_polynomial {τ : F} {xs : List F} (h : xs.tail ≠ xs.dropLast.map (τ * ·)) :
    ∃ p : F[X], p ≠ 0 ∧ p.natDegree < xs.length ∧
      ∀ ρ, p.eval ρ = batch ρ xs.tail - τ * batch ρ xs.dropLast := by
  have hlen : xs.tail.length = xs.dropLast.length := by
    rw [List.length_tail, List.length_dropLast]
  set ds := List.zipWith (fun x y => x - τ * y) xs.tail xs.dropLast with hds
  have hne : poly ds ≠ 0 := by
    intro hzero
    refine h (List.ext_getElem (by rw [hlen, List.length_map]) fun i hi hi' => ?_)
    have hi'' : i < xs.dropLast.length := hlen ▸ hi
    have hmem : xs.tail[i] - τ * xs.dropLast[i] ∈ ds := by
      rw [hds, List.mem_iff_getElem]
      exact ⟨i, by rw [List.length_zipWith]; omega, List.getElem_zipWith⟩
    rw [List.getElem_map]
    exact sub_eq_zero.mp (poly_eq_zero hzero _ hmem)
  refine ⟨poly ds, hne, ?_, fun ρ => ?_⟩
  · have hdeg : (poly ds).natDegree < ds.length :=
      (natDegree_lt_iff_degree_lt hne).mpr (degree_poly_lt ds)
    have hle : ds.length ≤ xs.length := by
      rw [hds, List.length_zipWith, List.length_tail]
      omega
    exact hdeg.trans_le hle
  · rw [eval_poly, hds, batch_zipWith_sub ρ τ _ _ hlen]

section Span

variable {τ : F} {Ps : List G}

lemma batch_tail (h : Ps.tail = Ps.dropLast.map (τ • ·)) (ρ : F) :
    batch ρ Ps.tail = τ • batch ρ Ps.dropLast := by
  rw [h]
  exact map_batch (LinearMap.lsmul F G τ) ρ Ps.dropLast

/-- The same among the multiples of one element. -/
theorem exists_polynomial_of_span {g : G} (hg : g ≠ 0) (hspan : ∀ P : G, ∃ x : F, x • g = P)
    (h : Ps.tail ≠ Ps.dropLast.map (τ • ·)) :
    ∃ p : F[X], p ≠ 0 ∧ p.natDegree < Ps.length ∧
      ∀ ρ, p.eval ρ ≠ 0 → batch ρ Ps.tail ≠ τ • batch ρ Ps.dropLast := by
  obtain ⟨xs, rfl⟩ := List.map_surjective_iff.mpr hspan Ps
  have hxs : xs.tail ≠ xs.dropLast.map (τ * ·) := by
    intro heq
    refine h ?_
    rw [← List.map_tail, ← List.map_dropLast, heq, List.map_map, List.map_map]
    exact List.map_congr_left fun x _ => (smul_smul τ x g).symm
  obtain ⟨p, hp, hdeg, heval⟩ := exists_polynomial hxs
  refine ⟨p, hp, by rwa [List.length_map], fun ρ hρ heq => hρ ?_⟩
  rw [← List.map_tail, ← List.map_dropLast, batch_map_smul, batch_map_smul, smul_smul] at heq
  rw [heval, smul_left_injective F hg heq, sub_self]

end Span

end Ladder
