import XarkCircuit.Lib.Instances
import Mathlib.Analysis.InnerProductSpace.GramMatrix
import Mathlib.Analysis.InnerProductSpace.PiL2
import Mathlib.LinearAlgebra.Matrix.SchurComplement

/-!
Gram determinants, and the integral form of the orthogonalization.

* `gramDet b n` is the determinant of the products of the first `n` rows, and `bordered b n x y`
  that of the first `n` rows with `x` on the left and `y` on the right.
* `sylvester`: a bordered determinant from those with one row less, in which the division is exact.
* `gramDet_of_sub_smul` and `gramDet_of_swap`: what the two steps of a reduction do to the
  determinants.
* `gramDet_pos`: independent rows have positive determinants.
-/

namespace GramMinor

open Matrix Function

section Ring

variable {R κ : Type*} [CommRing R] [Fintype κ]

/-- The products of the first `n` rows of two families. -/
def pairing (n : ℕ) (r c : ℕ → κ → R) : Matrix (Fin n) (Fin n) R := of fun i j => r i ⬝ᵥ c j

def minor (n : ℕ) (r c : ℕ → κ → R) : R := (pairing n r c).det

/-- The Gram determinant of the first `n` rows. -/
def gramDet (b : ℕ → κ → R) (n : ℕ) : R := minor n b b

/-- The Gram determinant bordered by a row and a column. -/
def bordered (b : ℕ → κ → R) (n : ℕ) (x y : κ → R) : R :=
  minor (n + 1) (update b n x) (update b n y)

variable {b b' r r' c c' : ℕ → κ → R} {n : ℕ}

lemma pairing_congr (hr : ∀ i < n, r i = r' i) (hc : ∀ i < n, c i = c' i) :
    pairing n r c = pairing n r' c' := by
  ext i j
  rw [pairing, pairing, of_apply, of_apply, hr i i.isLt, hc j j.isLt]

lemma minor_congr (hr : ∀ i < n, r i = r' i) (hc : ∀ i < n, c i = c' i) :
    minor n r c = minor n r' c' := by rw [minor, pairing_congr hr hc, minor]

lemma minor_comm (n : ℕ) (r c : ℕ → κ → R) : minor n r c = minor n c r := by
  rw [minor, ← det_transpose, minor]
  refine congrArg det (Matrix.ext fun i j => ?_)
  exact dotProduct_comm _ _

lemma gramDet_congr (h : ∀ i < n, b i = b' i) : gramDet b n = gramDet b' n := minor_congr h h

omit [CommRing R] [Fintype κ] in
lemma update_congr {x : κ → R} (h : ∀ i < n, b i = b' i) {i : ℕ} (hi : i < n + 1) :
    update b n x i = update b' n x i := by
  rcases Nat.lt_succ_iff_lt_or_eq.mp hi with hlt | rfl
  · rw [update_of_ne hlt.ne, update_of_ne hlt.ne, h i hlt]
  · rw [update_self, update_self]

lemma bordered_congr (h : ∀ i < n, b i = b' i) (x y : κ → R) :
    bordered b n x y = bordered b' n x y :=
  minor_congr (fun _ hi => update_congr h hi) fun _ hi => update_congr h hi

@[simp] lemma gramDet_zero (b : ℕ → κ → R) : gramDet b 0 = 1 := det_isEmpty

@[simp] lemma bordered_zero (b : ℕ → κ → R) (x y : κ → R) : bordered b 0 x y = x ⬝ᵥ y := by
  rw [bordered, minor, det_fin_one]
  show update b 0 x 0 ⬝ᵥ update b 0 y 0 = _
  rw [update_self, update_self]

/-- The row itself on the border. -/
lemma bordered_self (b : ℕ → κ → R) (n : ℕ) : bordered b n (b n) (b n) = gramDet b (n + 1) := by
  rw [bordered, update_eq_self, gramDet]

lemma bordered_comm (b : ℕ → κ → R) (n : ℕ) (x y : κ → R) :
    bordered b n x y = bordered b n y x := minor_comm _ _ _

/-- The border is linear. -/
lemma bordered_sub_smul (b : ℕ → κ → R) (n : ℕ) (x y z : κ → R) (q : R) :
    bordered b n (x - q • y) z = bordered b n x z - q * bordered b n y z := by
  have hrow : ∀ u, pairing (n + 1) (update b n u) (update b n z)
      = updateRow (pairing (n + 1) b (update b n z)) (Fin.last n)
        (fun j => u ⬝ᵥ update b n z j) := by
    intro u
    ext i j
    by_cases hi : i = Fin.last n
    · rw [hi, updateRow_self]
      show update b n u n ⬝ᵥ _ = _
      rw [update_self]
    · have hne : (i : ℕ) ≠ n := fun h => hi (Fin.ext h)
      rw [updateRow_ne hi]
      show update b n u i ⬝ᵥ _ = b i ⬝ᵥ _
      rw [update_of_ne hne]
  have hsum : (fun j : Fin (n + 1) => (x - q • y) ⬝ᵥ update b n z j)
      = (fun j : Fin (n + 1) => x ⬝ᵥ update b n z j)
        + (-q) • fun j : Fin (n + 1) => y ⬝ᵥ update b n z j := by
    funext j
    rw [Pi.add_apply, Pi.smul_apply, sub_dotProduct, smul_dotProduct, smul_eq_mul, smul_eq_mul]
    ring
  simp only [bordered, minor, hrow]
  rw [hsum, det_updateRow_add, det_updateRow_smul]
  ring

/-- A row that is there already. -/
lemma bordered_of_lt (b : ℕ → κ → R) {n l : ℕ} (hl : l < n) (y : κ → R) :
    bordered b n (b l) y = 0 := by
  refine det_zero_of_row_eq (i := ⟨l, by omega⟩) (j := Fin.last n) ?_ ?_
  · exact fun h => hl.ne (congrArg Fin.val h)
  · funext j
    show update b n (b l) l ⬝ᵥ _ = update b n (b l) n ⬝ᵥ _
    rw [update_self, update_of_ne hl.ne]

/-- A multiple of another row taken from a row. -/
lemma minor_of_sub_smul {k j : ℕ} (hjk : j ≠ k) {q : R} (hj : j < n) (hk : k < n)
    (hrow : r' k = r k - q • r j) (hrest : ∀ i, i ≠ k → r' i = r i) :
    minor n r' c = minor n r c := by
  have hne : (⟨k, hk⟩ : Fin n) ≠ ⟨j, hj⟩ := fun h => hjk (congrArg Fin.val h).symm
  rw [minor, minor, ← det_updateRow_add_smul_self (pairing n r c) hne (-q)]
  refine congrArg det (Matrix.ext fun i l => ?_)
  by_cases hi : i = ⟨k, hk⟩
  · rw [hi, updateRow_self]
    show r' k ⬝ᵥ c l = r k ⬝ᵥ c l + -q * (r j ⬝ᵥ c l)
    rw [hrow, sub_dotProduct, smul_dotProduct, smul_eq_mul]
    ring
  · rw [updateRow_ne hi]
    show r' i ⬝ᵥ c l = r i ⬝ᵥ c l
    rw [hrest i fun h => hi (Fin.ext h)]

/-- **Size reduction** keeps the determinants. -/
theorem gramDet_of_sub_smul {k j : ℕ} (hjk : j < k) {q : R} (hrow : b' k = b k - q • b j)
    (hrest : ∀ i, i ≠ k → b' i = b i) (n : ℕ) : gramDet b' n = gramDet b n := by
  rcases Nat.lt_or_ge k n with hk | hk
  · have hj := hjk.trans hk
    calc gramDet b' n = minor n b b' := minor_of_sub_smul hjk.ne hj hk hrow hrest
      _ = minor n b' b := minor_comm n b b'
      _ = gramDet b n := minor_of_sub_smul hjk.ne hj hk hrow hrest
  · exact gramDet_congr fun i hi => hrest i (by omega)

/-- **A swap** keeps the determinants but one. -/
theorem gramDet_of_swap {k : ℕ} (hk : b' k = b (k + 1)) (hk' : b' (k + 1) = b k)
    (hrest : ∀ i, i ≠ k → i ≠ k + 1 → b' i = b i) {n : ℕ} (hn : n ≠ k + 1) :
    gramDet b' n = gramDet b n := by
  rcases Nat.lt_or_ge n (k + 1) with hlt | hge
  · exact gramDet_congr fun i hi => hrest i (by omega) (by omega)
  · have hk₁ : k < n := by omega
    have hk₂ : k + 1 < n := by omega
    let σ : Equiv.Perm (Fin n) := Equiv.swap ⟨k, hk₁⟩ ⟨k + 1, hk₂⟩
    have hσ : ∀ i : Fin n, b' i = b (σ i) := by
      intro i
      by_cases h₁ : i = ⟨k, hk₁⟩
      · rw [h₁, Equiv.swap_apply_left]
        exact hk
      · by_cases h₂ : i = ⟨k + 1, hk₂⟩
        · rw [h₂, Equiv.swap_apply_right]
          exact hk'
        · rw [Equiv.swap_apply_of_ne_of_ne h₁ h₂]
          exact hrest i (fun h => h₁ (Fin.ext h)) fun h => h₂ (Fin.ext h)
    rw [gramDet, minor, gramDet, minor, ← det_submatrix_equiv_self σ (pairing n b b)]
    refine congrArg det (Matrix.ext fun i j => ?_)
    show b' i ⬝ᵥ b' j = b (σ i) ⬝ᵥ b (σ j)
    rw [hσ, hσ]

/-- Determinants go through a homomorphism. -/
lemma map_minor {S : Type*} [CommRing S] (f : R →+* S) (n : ℕ) (r c : ℕ → κ → R) :
    f (minor n r c) = minor n (fun i => f ∘ r i) fun i => f ∘ c i := by
  rw [minor, RingHom.map_det, minor]
  refine congrArg det (Matrix.ext fun i j => ?_)
  exact RingHom.map_dotProduct f (r i) (c j)

end Ring

/-! ### The identity of Sylvester -/

section Field

variable {K κ : Type*} [Field K] [Fintype κ] {b : ℕ → κ → K} {n : ℕ}

/-- What is left of a product once the first rows are taken off. -/
noncomputable def rest (b : ℕ → κ → K) (n : ℕ) (x y : κ → K) : K :=
  x ⬝ᵥ y - ∑ i : Fin n, (∑ j : Fin n, (x ⬝ᵥ b j) * (pairing n b b)⁻¹ j i) * (b i ⬝ᵥ y)

/-- Rows behind the first `n`. -/
lemma minor_add (hb : gramDet b n ≠ 0) {m : ℕ} {r c : ℕ → κ → K} (hr : ∀ i < n, r i = b i)
    (hc : ∀ i < n, c i = b i) : minor (n + m) r c
      = gramDet b n * (of fun i j : Fin m => rest b n (r (n + i)) (c (n + j))).det := by
  let A := pairing n b b
  have hinv : Invertible A := A.invertibleOfIsUnitDet (Ne.isUnit hb)
  have hblocks : (pairing (n + m) r c).submatrix finSumFinEquiv finSumFinEquiv
      = fromBlocks A (of fun (i : Fin n) (j : Fin m) => b i ⬝ᵥ c (n + j))
        (of fun (i : Fin m) (j : Fin n) => r (n + i) ⬝ᵥ b j)
        (of fun i j : Fin m => r (n + i) ⬝ᵥ c (n + j)) := by
    ext i j
    rcases i with i | i <;> rcases j with j | j
    · show r i ⬝ᵥ c j = b i ⬝ᵥ b j
      rw [hr i i.isLt, hc j j.isLt]
    · show r i ⬝ᵥ c (n + j) = b i ⬝ᵥ c (n + j)
      rw [hr i i.isLt]
    · show r (n + i) ⬝ᵥ c j = r (n + i) ⬝ᵥ b j
      rw [hc j j.isLt]
    · rfl
  rw [minor, ← det_submatrix_equiv_self finSumFinEquiv, hblocks, det_fromBlocks₁₁]
  refine congrArg (A.det * det ·) (Matrix.ext fun i j => ?_)
  rw [Matrix.sub_apply, mul_apply, invOf_eq_nonsing_inv]
  rfl

lemma bordered_eq_rest (hb : gramDet b n ≠ 0) (x y : κ → K) :
    bordered b n x y = gramDet b n * rest b n x y := by
  rw [bordered, minor_add hb (fun i hi => update_of_ne hi.ne _ _)
    (fun i hi => update_of_ne hi.ne _ _), det_fin_one]
  show gramDet b n * rest b n (update b n x n) (update b n y n) = _
  rw [update_self, update_self]

/-- **One more row**: the bordered determinants of `n + 1` rows from those of `n`. -/
theorem sylvester_field (hb : gramDet b n ≠ 0) (x y : κ → K) :
    gramDet b n * bordered b (n + 1) x y = gramDet b (n + 1) * bordered b n x y
      - bordered b n x (b n) * bordered b n (b n) y := by
  have hupdate : ∀ z, ∀ i < n, update b (n + 1) z i = b i := fun z i hi =>
    update_of_ne (by omega) _ _
  have htwo : bordered b (n + 1) x y = gramDet b n
      * (rest b n (b n) (b n) * rest b n x y - rest b n (b n) y * rest b n x (b n)) := by
    rw [bordered, show n + 1 + 1 = n + 2 from rfl, minor_add hb (hupdate x) (hupdate y),
      det_fin_two]
    show gramDet b n * (rest b n (update b (n + 1) x n) (update b (n + 1) y n)
      * rest b n (update b (n + 1) x (n + 1)) (update b (n + 1) y (n + 1))
      - rest b n (update b (n + 1) x n) (update b (n + 1) y (n + 1))
      * rest b n (update b (n + 1) x (n + 1)) (update b (n + 1) y n)) = _
    simp only [update_self, update_of_ne (Nat.succ_ne_self n).symm]
  rw [htwo, ← bordered_self, bordered_eq_rest hb, bordered_eq_rest hb, bordered_eq_rest hb,
    bordered_eq_rest hb]
  ring

end Field

/-! ### Integer rows -/

section Int

variable {κ : Type*} [Fintype κ] {b : ℕ → κ → ℤ} {n : ℕ}

/-- **The identity of Sylvester**, in which the division is exact. -/
theorem sylvester (hb : gramDet b n ≠ 0) (x y : κ → ℤ) :
    gramDet b n * bordered b (n + 1) x y = gramDet b (n + 1) * bordered b n x y
      - bordered b n x (b n) * bordered b n (b n) y := by
  let f := Int.castRingHom ℚ
  have hdet : ∀ m, f (gramDet b m) = gramDet (fun i => f ∘ b i) m := fun m => map_minor f m b b
  have hbord : ∀ m u v, f (bordered b m u v) = bordered (fun i => f ∘ b i) m (f ∘ u) (f ∘ v) := by
    intro m u v
    have hupdate : ∀ w : κ → ℤ, (fun i => f ∘ update b m w i)
        = update (fun i => f ∘ b i) m (f ∘ w) := by
      intro w
      funext i
      by_cases hi : i = m
      · rw [hi, update_self, update_self]
      · rw [update_of_ne hi, update_of_ne hi]
    rw [bordered, map_minor, hupdate, hupdate, bordered]
  have hb' : gramDet (fun i => f ∘ b i) n ≠ 0 := by
    rw [← hdet]
    exact (map_ne_zero_iff f (Int.cast_injective)).mpr hb
  refine Int.cast_injective (α := ℚ) ?_
  show f _ = f _
  rw [map_mul, map_sub, map_mul, map_mul, hdet, hdet, hbord, hbord, hbord, hbord]
  exact sylvester_field hb' _ _

/-- **Positive determinants** of independent rows. -/
theorem gramDet_pos {N : ℕ} (hb : gramDet b N ≠ 0) (hn : n ≤ N) : 0 < gramDet b n := by
  let f := Int.castRingHom ℝ
  let v : ℕ → EuclideanSpace ℝ κ := fun i => WithLp.toLp 2 (f ∘ b i)
  have hgram : ∀ m, pairing m (fun i => f ∘ b i) (fun i => f ∘ b i)
      = gram ℝ fun i : Fin m => v i := by
    intro m
    ext i j
    rw [gram_apply, EuclideanSpace.inner_eq_star_dotProduct, star_trivial]
    exact dotProduct_comm _ _
  have hdet : ∀ m, ((gramDet b m : ℤ) : ℝ) = (gram ℝ fun i : Fin m => v i).det := by
    intro m
    have hmap : f (minor m b b) = minor m (fun i => f ∘ b i) fun i => f ∘ b i := map_minor f m b b
    rw [← hgram]
    exact hmap
  have hind : LinearIndependent ℝ fun i : Fin N => v i := by
    rw [← det_gram_ne_zero_iff_linearIndependent, ← hdet]
    exact_mod_cast hb
  have hind' : LinearIndependent ℝ fun i : Fin n => v i :=
    hind.comp (Fin.castLE hn) (Fin.castLE_injective hn)
  have hpos := (posDef_gram_of_linearIndependent hind').det_pos
  rw [← hdet] at hpos
  exact_mod_cast hpos

end Int

end GramMinor
