import XarkCircuit.Groth16.FftSound

/-!
The passes of the blocked transform.

* `colPass_eq` and `rowsPass_apply`: every column and every row is transformed, whatever the tiles.
* `colsKernel_eq` and `rowsKernel_apply`: so do the kernels on slices.
* `transposeMap_apply`: the transpose.
-/

namespace XarkCircuit

namespace Fft

open Buffer Dft Finset
open Groth16 (entry trailingZeros isPowerOfTwo FftField)

variable {F : Type} [Field F]

/-! ### The transpose -/

lemma div_of_lt {n q r : ℕ} (hr : r < n) : (q * n + r) / n = q := by
  rw [mul_comm, Nat.mul_add_div (by omega), Nat.div_eq_of_lt hr, add_zero]

lemma mod_of_lt {n q r : ℕ} (hr : r < n) : (q * n + r) % n = r := by
  rw [mul_comm, Nat.mul_add_mod, Nat.mod_eq_of_lt hr]

lemma mul_add_lt {m n q r : ℕ} (hq : q < m) (hr : r < n) : q * n + r < m * n :=
  calc q * n + r < q * n + n := by omega
    _ = (q + 1) * n := (Nat.succ_mul q n).symm
    _ ≤ m * n := Nat.mul_le_mul_right n hq

/-- **The transpose**, whatever the tiles. -/
theorem transposeMap_apply {α β : Type} (src : ℕ → α) (dst : ℕ → β) {rows cols : ℕ} (tile : ℕ)
    (f : α → β) {r c : ℕ} (hr : r < rows) (hc : c < cols) :
    transposeMap src dst rows cols tile f (c * rows + r) = f (src (r * cols + c)) := by
  rw [transposeMap]
  set tile := max tile 1 with htile
  have hpos : 0 < tile := by omega
  have hdc : c % tile < tile := Nat.mod_lt c hpos
  have hc0 : c / tile * tile + c % tile = c := Nat.div_add_mod' c tile
  have hplace : c * rows + r = c / tile * (tile * rows) + (c % tile * rows + r) := by
    calc c * rows + r = (c / tile * tile + c % tile) * rows + r := by rw [hc0]
      _ = c / tile * (tile * rows) + (c % tile * rows + r) := by ring
  rw [hplace, chunks_apply _ _ _ (mul_add_lt hdc hr)]
  have hv : ∀ e ∈ (List.range ((rows + tile - 1) / tile)).flatMap fun br =>
      (List.range' (br * tile) (min tile (rows - br * tile))).flatMap fun r =>
        (List.range (min tile (cols - c / tile * tile))).map fun dc =>
          (dc * rows + r, f (src (r * cols + c / tile * tile + dc))),
      e.2 = (fun q => f (src (q % rows * cols + c / tile * tile + q / rows))) e.1 := by
    intro e he
    obtain ⟨br, -, he⟩ := List.mem_flatMap.mp he
    obtain ⟨r', hr', he⟩ := List.mem_flatMap.mp he
    obtain ⟨dc, -, rfl⟩ := List.mem_map.mp he
    have hr' : r' < rows := by
      have hmem := List.mem_range'_1.mp hr'
      omega
    simp only [div_of_lt hr', mod_of_lt hr']
  refine (write_eq (v := fun q => f (src (q % rows * cols + c / tile * tile + q / rows)))
    hv _ _).trans ?_
  rw [if_pos]
  · rw [mod_of_lt hr, div_of_lt hr, add_assoc, hc0]
  · have hbr : r / tile * tile + r % tile = r := Nat.div_add_mod' r tile
    have hrt : r % tile < tile := Nat.mod_lt r hpos
    rw [List.map_flatMap, List.mem_flatMap]
    refine ⟨r / tile, List.mem_range.mpr ?_, ?_⟩
    · rw [Nat.lt_iff_add_one_le, Nat.le_div_iff_mul_le hpos]
      rw [Nat.add_mul, one_mul]
      omega
    · rw [List.map_flatMap, List.mem_flatMap]
      refine ⟨r, List.mem_range'_1.mpr (by omega), ?_⟩
      rw [List.map_map, List.mem_map]
      exact ⟨c % tile, List.mem_range.mpr (by omega), rfl⟩

/-! ### Domains -/

/-- A domain on the powers of `ω`. -/
structure Domain.Split (d : Domain F) (ω : F) : Prop where
  n_eq : d.n = d.n1 * d.n2
  n1_eq : ∃ b k, k ≤ 64 ∧ d.n1 = 3 ^ b * 2 ^ k
  n2_eq : ∃ k ≤ 64, d.n2 = 2 ^ k
  tile_pos : 0 < d.tile
  root : IsPrimitiveRoot ω (d.n1 * d.n2)
  sizeInv : d.sizeInv = (d.n : F)⁻¹
  fwd : d.fwd = Tables.new ω d.n1 d.n2
  inv : d.inv = Tables.new ω⁻¹ d.n1 d.n2

section Passes

variable {d : Domain F} {ω η : F} (hd : d.Split ω)
include hd

lemma Domain.Split.n1_pos : 0 < d.n1 := by
  obtain ⟨b, k, -, h⟩ := hd.n1_eq
  rw [h]
  positivity

lemma Domain.Split.n2_pos : 0 < d.n2 := by
  obtain ⟨k, -, h⟩ := hd.n2_eq
  rw [h]
  positivity

omit hd in
lemma holds_powers (base : F) {count k : ℕ} (h : k ≤ count) : Holds (powers base count) 1 base k :=
  fun j hj => by rw [mul_one, entry_powers base (hj.trans_le h)]

/-- **A column**, with the table of one direction. -/
lemma colFft_eq (h2 : (2 : F) ≠ 0) (hη : IsPrimitiveRoot η (d.n1 * d.n2)) (col : ℕ → F) {p : ℕ}
    (hp : p < d.n1) :
    d.colFft (Tables.new η d.n1 d.n2) col p = dft (η ^ d.n2) d.n1 col p := by
  have hn1 := hd.n1_pos
  have hn2 := hd.n2_pos
  have hroot : IsPrimitiveRoot (η ^ d.n2) d.n1 := hη.pow (Nat.mul_pos hn1 hn2) (mul_comm _ _)
  have hquot : d.n1 * d.n2 / d.n1 = d.n2 := Nat.mul_div_cancel_left _ hn1
  obtain ⟨b, k, hk, hsize⟩ := hd.n1_eq
  rw [Domain.colFft, Tables.new]
  dsimp only
  rw [hquot]
  split_ifs with h3
  · have hmixed := @mixed_eq F _ h2 b k hk (powers (η ^ d.n2) d.n1) 1 (η ^ d.n2)
    rw [← hsize] at hmixed
    exact hmixed hroot (holds_powers _ le_rfl) col hp
  · have hb : b = 0 := by
      by_contra hne
      obtain ⟨b, rfl⟩ := Nat.exists_eq_succ_of_ne_zero hne
      refine h3 ?_
      rw [hsize, pow_succ, mul_comm (3 ^ b), mul_assoc, Nat.mul_mod_right]
    rw [hb, pow_zero, one_mul] at hsize
    have hradix := @radix2_eq F _ k hk (powers (η ^ d.n2) (d.n1 / 2)) 1 (η ^ d.n2)
    rw [← hsize] at hradix
    exact hradix hroot (holds_powers _ le_rfl) col hp

/-- **A row**, with the table of one direction. -/
lemma rowFft_eq (hη : IsPrimitiveRoot η (d.n1 * d.n2)) (row : ℕ → F) {p : ℕ} (hp : p < d.n2) :
    radix2FftStrided d.n2 (Tables.new η d.n1 d.n2).twN2 1 row p = dft (η ^ d.n1) d.n2 row p := by
  have hn1 := hd.n1_pos
  have hn2 := hd.n2_pos
  have hroot : IsPrimitiveRoot (η ^ d.n1) d.n2 := hη.pow (Nat.mul_pos hn1 hn2) rfl
  have hquot : d.n1 * d.n2 / d.n2 = d.n1 := Nat.mul_div_cancel _ hn2
  obtain ⟨k, hk, hsize⟩ := hd.n2_eq
  have hradix := @radix2_eq F _ k hk (powers (η ^ d.n1) (d.n2 / 2)) 1 (η ^ d.n1)
  rw [← hsize] at hradix
  rw [Tables.new, hquot]
  exact hradix hroot (holds_powers _ le_rfl) row hp

/-! ### Columns -/

omit hd in
/-- What a column becomes: twiddle factors, and the transform. -/
def column (d : Domain F) (η : F) (tw : Twiddle) (scale : F) (c : ℕ) (col : ℕ → F) (p : ℕ) : F :=
  match tw with
  | .pre => dft (η ^ d.n2) d.n1 (fun r => col r * (scale * (η ^ c) ^ r)) p
  | .post => dft (η ^ d.n2) d.n1 col p * (scale * (η ^ c) ^ p)

omit hd in
lemma column_congr {tw : Twiddle} {scale : F} {c : ℕ} {col col' : ℕ → F}
    (h : ∀ r < d.n1, col r = col' r) (p : ℕ) :
    column d η tw scale c col p = column d η tw scale c col' p := by
  cases tw
  · exact dft_congr (fun r hr => by rw [h r hr]) p
  · exact congrArg (· * _) (dft_congr h p)

variable (hblocked : d.isBlocked = true) (h2 : (2 : F) ≠ 0)
  (hη : IsPrimitiveRoot η (d.n1 * d.n2))
include hblocked h2 hη

/-- Columns side by side. -/
lemma colsCore_apply (c0 : ℕ) (tw : Twiddle) (scale : F) (cols : ℕ → F) {j p : ℕ} (hp : p < d.n1)
    (hj : c0 + j < d.n2) :
    d.colsCore c0 (Tables.new η d.n1 d.n2) tw scale cols (j * d.n1 + p)
      = column d η tw scale (c0 + j) (fun r => cols (j * d.n1 + r)) p := by
  have hstep : entry (Tables.new η d.n1 d.n2).colStep (c0 + j) = η ^ (c0 + j) := by
    have hn1 : 1 < d.n1 := of_decide_eq_true hblocked
    rw [Tables.new]
    dsimp only
    rw [if_pos hn1, entry_powers _ hj]
  rw [Domain.colsCore, chunks_apply _ _ _ hp, hstep]
  cases tw
  · simp only [if_true, reduceCtorEq, if_false]
    rw [colFft_eq hd h2 hη _ hp]
    exact dft_congr (fun r hr => by rw [scaleBy_eq, if_pos hr]) p
  · simp only [if_true, reduceCtorEq, if_false]
    rw [scaleBy_eq, if_pos hp, colFft_eq hd h2 hη _ hp]
    rfl

/-- **A tile of columns.** The others stay as they are. -/
lemma colTile_apply (tw : Twiddle) (scale : F) (buf : ℕ → F) (bt : ℕ) {r c : ℕ} (hr : r < d.n1)
    (hc : c < d.n2) :
    d.colTile (Tables.new η d.n1 d.n2) tw scale buf bt (r * d.n2 + c)
      = if bt * d.tile ≤ c ∧ c < bt * d.tile + d.tile then
          column d η tw scale c (fun r => buf (r * d.n2 + c)) r
        else buf (r * d.n2 + c) := by
  rw [Domain.colTile]
  set c0 := bt * d.tile with hc0
  set b := min d.tile (d.n2 - c0) with hb
  set scratch := write (fun _ => 0) ((List.range d.n1).flatMap fun r =>
    (List.range b).map fun j => (j * d.n1 + r, buf (r * d.n2 + c0 + j))) with hscratch
  have hgather : ∀ j < b, ∀ r < d.n1, scratch (j * d.n1 + r) = buf (r * d.n2 + (c0 + j)) := by
    intro j hj r hr
    rw [hscratch, write_grid (v := fun p => buf (p % d.n1 * d.n2 + c0 + p / d.n1))
      (q := fun r j => j * d.n1 + r) (fun r hr j _ => by rw [div_of_lt hr, mod_of_lt hr]) _ hr hj,
      add_assoc]
  set out := d.colsCore c0 (Tables.new η d.n1 d.n2) tw scale scratch with hout
  obtain ⟨v, hscatter⟩ : ∃ v : ℕ → F, ∀ r < d.n1, ∀ j < b,
      out (j * d.n1 + r) = v (r * d.n2 + c0 + j) := by
    refine ⟨fun p => out ((p % d.n2 - c0) * d.n1 + p / d.n2), fun r hr j hj => ?_⟩
    have hlt : c0 + j < d.n2 := by omega
    simp only [add_assoc, div_of_lt hlt, mod_of_lt hlt, Nat.add_sub_cancel_left]
  split_ifs with hin
  · obtain ⟨j, rfl⟩ := Nat.exists_eq_add_of_le hin.1
    have hj : j < b := by omega
    rw [← add_assoc]
    refine (write_grid (q := fun r j => r * d.n2 + c0 + j) hscatter buf hr hj).trans ?_
    rw [hout, colsCore_apply hd hblocked h2 hη c0 tw scale scratch hr hc]
    exact column_congr (fun r hr => by rw [hgather j hj r hr]) r
  · refine write_grid_of_ne (q := fun r j => r * d.n2 + c0 + j) hscatter buf ?_
    intro r' _ j hj heq
    have hlt : c0 + j < d.n2 := by omega
    have hmod := congrArg (· % d.n2) heq
    simp only [add_assoc, mod_of_lt hc, mod_of_lt hlt] at hmod
    omega

/-- **All columns**, whatever the tiles. -/
theorem colPass_eq (tw : Twiddle) (scale : F) (buf : ℕ → F) {r c : ℕ} (hr : r < d.n1)
    (hc : c < d.n2) :
    d.colPass (Tables.new η d.n1 d.n2) tw scale buf (r * d.n2 + c)
      = column d η tw scale c (fun r => buf (r * d.n2 + c)) r := by
  -- the first `k` tiles are done, and the others untouched
  have hround : ∀ k, ∀ r < d.n1, (List.range k).foldl (d.colTile (Tables.new η d.n1 d.n2) tw scale)
      buf (r * d.n2 + c) = if c < k * d.tile then
        column d η tw scale c (fun r => buf (r * d.n2 + c)) r else buf (r * d.n2 + c) := by
    intro k
    induction k with
    | zero => simp
    | succ k ih =>
        intro r hr
        rw [List.range_succ, List.foldl_append, List.foldl_cons, List.foldl_nil,
          colTile_apply hd hblocked h2 hη tw scale _ k hr hc]
        have hsucc : (k + 1) * d.tile = k * d.tile + d.tile := Nat.succ_mul _ _
        by_cases hk : k * d.tile ≤ c
        · have hnot : ¬ c < k * d.tile := by omega
          by_cases hk' : c < k * d.tile + d.tile
          · rw [if_pos ⟨hk, hk'⟩, hsucc, if_pos hk']
            exact column_congr (fun r hr => by rw [ih r hr, if_neg hnot]) r
          · rw [if_neg fun h => hk' h.2, hsucc, if_neg hk', ih r hr, if_neg hnot]
        · have hdone : c < (k + 1) * d.tile := by omega
          rw [if_neg fun h => hk h.1, ih r hr, if_pos (by omega), if_pos hdone]
  have hpos := hd.tile_pos
  have hcover : c < (d.n2 + d.tile - 1) / d.tile * d.tile := by
    have hdiv := Nat.div_add_mod (d.n2 + d.tile - 1) d.tile
    have hmod := Nat.mod_lt (d.n2 + d.tile - 1) hpos
    rw [mul_comm] at hdiv
    omega
  rw [Domain.colPass, hround _ r hr, if_pos hcover]

/-- **The kernel of columns** does what the pass does to its block. -/
theorem colsKernel_eq {op : ColOp} {tw : Twiddle} {scale : F}
    (hop : d.colOp op = (Tables.new η d.n1 d.n2, tw, scale)) {buf block : ℕ → F} {b c0 : ℕ}
    (hfits : c0 + b ≤ d.n2)
    (hblock : ∀ r < d.n1, ∀ j < b, block (r * b + j) = buf (r * d.n2 + (c0 + j))) {r j : ℕ}
    (hr : r < d.n1) (hj : j < b) :
    d.colsKernel block b c0 op (r * b + j)
      = d.colPass (Tables.new η d.n1 d.n2) tw scale buf (r * d.n2 + (c0 + j)) := by
  have hlt : c0 + j < d.n2 := by omega
  rw [Domain.colsKernel, hop, colPass_eq hd hblocked h2 hη tw scale buf hr hlt]
  dsimp only
  rw [transposeMap_apply _ _ _ _ hj hr, id_eq,
    colsCore_apply hd hblocked h2 hη c0 tw scale _ hr hlt]
  exact column_congr (fun r hr => by
    rw [transposeMap_apply _ _ _ _ hr hj, id_eq, hblock r hr j hj]) r

end Passes

/-! ### Rows -/

section Rows

variable (d : Domain F)

lemma rowsKernel_apply (rows : ℕ → F) (firstRow : ℕ) (stages : List (RowStage F)) (i : ℕ) {c : ℕ}
    (hc : c < d.n2) :
    d.rowsKernel rows firstRow stages (i * d.n2 + c)
      = stages.foldl (d.rowStage (firstRow + i)) (fun q => rows (i * d.n2 + q)) c :=
  chunks_apply _ _ _ hc

/-- **All rows**, however many at a time. -/
theorem rowsPass_apply (buf : ℕ → F) (stages : List (RowStage F)) (k1 : ℕ) {c : ℕ}
    (hc : c < d.n2) :
    d.rowsPass buf stages (k1 * d.n2 + c)
      = stages.foldl (d.rowStage k1) (fun q => buf (k1 * d.n2 + q)) c := by
  rw [Domain.rowsPass]
  set per := max ((2 ^ 15 + d.n2 - 1) / d.n2) 1 with hper
  have hpos : 0 < per := by omega
  have hmod : k1 % per < per := Nat.mod_lt _ hpos
  have hk1 : k1 / per * per + k1 % per = k1 := Nat.div_add_mod' k1 per
  have hplace : ∀ q, k1 * d.n2 + q = k1 / per * (d.n2 * per) + (k1 % per * d.n2 + q) := by
    intro q
    calc k1 * d.n2 + q = (k1 / per * per + k1 % per) * d.n2 + q := by rw [hk1]
      _ = k1 / per * (d.n2 * per) + (k1 % per * d.n2 + q) := by ring
  have hin : k1 % per * d.n2 + c < d.n2 * per := by
    rw [mul_comm d.n2]
    exact mul_add_lt hmod hc
  rw [hplace, chunks_apply _ _ _ hin, rowsKernel_apply d _ _ _ _ hc, hk1]
  simp only [hplace]

variable {d} {ω : F} (hd : d.Split ω)
include hd

lemma inverse_root : IsPrimitiveRoot ω⁻¹ (d.n1 * d.n2) := hd.root.inv

/-- A stage reads within its row. -/
lemma rowStage_congr (k1 : ℕ) {row row' : ℕ → F} (h : ∀ q < d.n2, row q = row' q) (st : RowStage F)
    {q : ℕ} (hq : q < d.n2) : d.rowStage k1 row st q = d.rowStage k1 row' st q := by
  cases st with
  | fft =>
      rw [Domain.rowStage, Domain.rowStage, hd.fwd, rowFft_eq hd hd.root _ hq,
        rowFft_eq hd hd.root _ hq]
      exact dft_congr h q
  | ifft =>
      rw [Domain.rowStage, Domain.rowStage, hd.inv, rowFft_eq hd (inverse_root hd) _ hq,
        rowFft_eq hd (inverse_root hd) _ hq]
      exact dft_congr h q
  | scale k => exact congrArg (· * k) (h q hq)
  | coset g => rw [Domain.rowStage, Domain.rowStage, scaleBy_eq, scaleBy_eq, h q hq]

lemma stages_congr (k1 : ℕ) (stages : List (RowStage F)) {row row' : ℕ → F}
    (h : ∀ q < d.n2, row q = row' q) {q : ℕ} (hq : q < d.n2) :
    stages.foldl (d.rowStage k1) row q = stages.foldl (d.rowStage k1) row' q := by
  induction stages generalizing row row' with
  | nil => exact h q hq
  | cons st stages ih => exact ih fun q hq => rowStage_congr hd k1 h st hq

/-- **The kernel of rows** does what the pass does to its rows. -/
theorem rowsKernel_eq {buf rows : ℕ → F} (firstRow : ℕ) (stages : List (RowStage F)) {i c : ℕ}
    (hrows : ∀ q < d.n2, rows (i * d.n2 + q) = buf ((firstRow + i) * d.n2 + q)) (hc : c < d.n2) :
    d.rowsKernel rows firstRow stages (i * d.n2 + c)
      = d.rowsPass buf stages ((firstRow + i) * d.n2 + c) := by
  rw [rowsKernel_apply d _ _ _ _ hc, rowsPass_apply d _ _ _ hc]
  exact stages_congr hd _ stages hrows hc

end Rows

end Fft

end XarkCircuit
