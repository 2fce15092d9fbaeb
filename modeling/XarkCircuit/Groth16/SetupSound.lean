import XarkCircuit.Groth16.QapSound

/-!
What key generation computes.

* `dot_transposeEval`: the transposed pass, summed against an assignment, is the pass over the rows
  summed against the weights.
* `lagrangeTable_powers`: the tables of phase 2 are the weights of the trusted-dealer setup.
* `columnSums_eq`: the sums over the columns are the transposed pass, in whatever order the entries
  arrive.
* `phase2_eq_devSetup`: phase 2 from the powers of the secrets gives the trusted dealer's key.
-/

namespace XarkCircuit

namespace Groth16

open Dft Finset

variable {F G : Type} [Field F] [AddCommGroup G] [Module F G]

/-! ### Sums of products -/

/-- The sum of the products of two vectors. -/
def dot (x y : List F) : F := (List.zipWith (· * ·) x y).sum

lemma dot_nil_left (y : List F) : dot [] y = 0 := rfl

lemma dot_cons (a b : F) (x y : List F) : dot (a :: x) (b :: y) = a * b + dot x y := by
  simp [dot]

lemma dot_comm (x y : List F) : dot x y = dot y x := by
  rw [dot, dot, List.zipWith_comm]
  simp only [mul_comm]

lemma dot_append {x x' y y' : List F} (h : x.length = y.length) :
    dot (x ++ x') (y ++ y') = dot x y + dot x' y' := by
  rw [dot, List.zipWith_append h, List.sum_append]
  rfl

lemma dot_zeros (k : ℕ) (y : List F) : dot (List.replicate k 0) y = 0 := by
  induction k generalizing y with
  | zero => rfl
  | succ k ih =>
      cases y with
      | nil => rfl
      | cons b y => rw [List.replicate_succ, dot_cons, ih, zero_mul, zero_add]

/-- Only the common length counts. -/
lemma dot_take (x y : List F) : dot x y = dot (x.take y.length) y := by
  induction x generalizing y with
  | nil => simp
  | cons a x ih =>
      cases y with
      | nil => rfl
      | cons b y => rw [List.length_cons, List.take_succ_cons, dot_cons, dot_cons, ← ih]

lemma dot_eq_sum {x y : List F} {n : ℕ} (hx : x.length = n) (hy : y.length = n) :
    dot x y = ∑ i ∈ range n, entry x i * entry y i := by
  induction n generalizing x y with
  | zero =>
      rw [List.length_eq_zero_iff.mp hx]
      rfl
  | succ n ih =>
      obtain ⟨a, x, rfl⟩ := List.exists_cons_of_length_eq_add_one hx
      obtain ⟨b, y, rfl⟩ := List.exists_cons_of_length_eq_add_one hy
      rw [dot_cons, sum_range_succ', add_comm, ih (by simpa using hx) (by simpa using hy)]
      rfl

/-- A change in one place. -/
lemma dot_modify (x : F) {v z : List F} {c : ℕ} (hc : c < v.length) (hz : v.length = z.length) :
    dot (v.modify c (· + x)) z = dot v z + x * entry z c := by
  induction v generalizing z c with
  | nil => exact absurd hc (Nat.not_lt_zero c)
  | cons a v ih =>
      obtain ⟨b, z, rfl⟩ := List.exists_cons_of_length_eq_add_one hz.symm
      cases c with
      | zero =>
          rw [List.modify_zero_cons, dot_cons, dot_cons, show entry (b :: z) 0 = b from rfl]
          ring
      | succ c =>
          rw [List.modify_succ_cons, dot_cons, dot_cons, ih (by simpa using hc) (by simpa using hz),
            show entry (b :: z) (c + 1) = entry z c from rfl]
          ring

/-! ### The transposed pass -/

lemma evalTerms_cons (t : ℕ × F) (terms : List (ℕ × F)) (z : List F) :
    evalTerms (t :: terms) z = entry z t.1 * t.2 + evalTerms terms z := by
  have hacc : ∀ (terms : List (ℕ × F)) (acc : F),
      terms.foldl (fun acc t => acc + entry z t.1 * t.2) acc = acc + evalTerms terms z := by
    intro terms
    induction terms with
    | nil => intro acc; simp [evalTerms]
    | cons t terms ih =>
        intro acc
        have hcons : evalTerms (t :: terms) z = terms.foldl
            (fun acc t => acc + entry z t.1 * t.2) (0 + entry z t.1 * t.2) := rfl
        rw [List.foldl_cons, ih, hcons, ih, zero_add, add_assoc]
  rw [evalTerms, List.foldl_cons, hacc, zero_add]

lemma length_addRow (w : F) (terms : List (ℕ × F)) (out : List F) :
    (addRow w terms out).length = out.length := by
  induction terms generalizing out with
  | nil => rfl
  | cons t terms ih => rw [addRow, List.foldl_cons, ← addRow, ih, List.length_modify]

lemma dot_addRow (w : F) {terms : List (ℕ × F)} {out z : List F} (hz : out.length = z.length)
    (hpos : ∀ t ∈ terms, t.1 < out.length) :
    dot (addRow w terms out) z = dot out z + w * evalTerms terms z := by
  induction terms generalizing out with
  | nil => simp [addRow, evalTerms]
  | cons t terms ih =>
      have hlen : (out.modify t.1 (· + w * t.2)).length = out.length := List.length_modify _ _ _
      rw [addRow, List.foldl_cons, ← addRow, ih (hlen.trans hz) fun t' ht' => by
          rw [hlen]
          exact hpos t' (List.mem_cons_of_mem _ ht'),
        dot_modify _ (hpos t List.mem_cons_self) hz, evalTerms_cons]
      ring

section Transpose

variable [DecidableEq F] (src : ConstraintSource F)

/-- **The transposed pass against an assignment** is the pass over the rows against the weights. -/
lemma dot_transposeEval {w out z : List F} (m : Fin 3) (hw : w.length = src.numConstraints)
    (hout : out.length = src.numVars) (hz : z.length = src.numVars) :
    dot (transposeEval src w m out) z = dot out z + dot w (evalRows src z m) := by
  have key : ∀ (rows : List (Row F)) (w out : List F), w.length = rows.length →
      out.length = src.numVars → (∀ r ∈ rows, ∀ t ∈ r m, t.1 < src.numVars) →
      dot ((w.zip rows).foldl (fun out r => if r.1 = 0 then out else addRow r.1 (r.2 m) out) out) z
        = dot out z + dot w (rows.map fun r => evalTerms (r m) z) := by
    intro rows
    induction rows with
    | nil =>
        intro w out hw _ _
        rw [List.length_eq_zero_iff.mp hw]
        simp [dot]
    | cons r rows ih =>
        intro w out hw hout hpos
        obtain ⟨a, w, rfl⟩ := List.exists_cons_of_length_eq_add_one hw
        have hrows := fun out hout => ih w out (by simpa using hw) hout
          fun r' hr' => hpos r' (List.mem_cons_of_mem _ hr')
        rw [List.zip_cons_cons, List.foldl_cons, List.map_cons, dot_cons]
        dsimp only
        split_ifs with h0
        · rw [hrows out hout, h0, zero_mul, zero_add]
        · rw [hrows _ (by rw [length_addRow, hout]), dot_addRow a (hout.trans hz.symm) fun t ht => by
            rw [hout]
            exact hpos r List.mem_cons_self t ht]
          ring
  exact key src.rows w out hw hout fun r hr => src.positions r hr m

lemma length_transposeEval (w : List F) (m : Fin 3) (out : List F) :
    (transposeEval src w m out).length = out.length := by
  have key : ∀ (l : List (F × Row F)) (out : List F),
      (l.foldl (fun out r => if r.1 = 0 then out else addRow r.1 (r.2 m) out) out).length
        = out.length := by
    intro l
    induction l with
    | nil => exact fun out => rfl
    | cons r l ih =>
        intro out
        rw [List.foldl_cons, ih]
        split_ifs
        · rfl
        · exact length_addRow _ _ _
  exact key _ out

end Transpose

/-! ### Entries -/

/-- Vectors of one length with the same entries are equal. -/
lemma ext_entry {v w : List G} (hlen : v.length = w.length)
    (h : ∀ i, i < v.length → entry v i = entry w i) : v = w := by
  refine List.ext_getElem hlen fun i hv hw => ?_
  have hi := h i hv
  simpa [entry, List.getD, hv, hw] using hi

/-- The vector with a one at `p`. -/
def unit (n p : ℕ) : List F := (List.range n).map fun q => if q = p then 1 else 0

lemma length_unit (n p : ℕ) : (unit n p : List F).length = n := by simp [unit]

lemma entry_unit {n p q : ℕ} (hq : q < n) : entry (unit n p : List F) q = if q = p then 1 else 0 :=
  entry_map_range _ hq

/-- Against a unit vector stands the entry. -/
lemma dot_unit {v : List F} {n p : ℕ} (hv : v.length = n) (hp : p < n) :
    dot v (unit n p) = entry v p := by
  rw [dot_eq_sum hv (length_unit n p), sum_eq_single_of_mem p (mem_range.mpr hp)]
  · rw [entry_unit hp, if_pos rfl, mul_one]
  · intro q hq hne
    rw [entry_unit (mem_range.mp hq), if_neg hne, mul_zero]

/-- The coefficient of position `p` in matrix `m`, summed over the rows against the weights. -/
def colDot (src : ConstraintSource F) (w : List F) (m : Fin 3) (p : ℕ) : F :=
  dot w (evalRows src (unit src.numVars p) m)

lemma entry_transposeEval [DecidableEq F] (src : ConstraintSource F) {w out : List F} (m : Fin 3)
    (hw : w.length = src.numConstraints) (hout : out.length = src.numVars) {p : ℕ}
    (hp : p < src.numVars) :
    entry (transposeEval src w m out) p = entry out p + colDot src w m p := by
  have h := dot_transposeEval src m hw hout (length_unit src.numVars p)
  rwa [dot_unit (by rw [length_transposeEval, hout]) hp, dot_unit hout hp] at h

lemma dot_map_mul (k : F) (x y : List F) : dot (x.map (k * ·)) y = k * dot x y := by
  induction x generalizing y with
  | nil => simp [dot]
  | cons a x ih =>
      cases y with
      | nil => simp [dot]
      | cons b y => rw [List.map_cons, dot_cons, dot_cons, ih]; ring

/-! ### The column index -/

section Columns

variable (es : List (MatrixEntry F))

/-- How many of the entries are in a column. -/
def colCount (p : ℕ) : ℕ := (es.filter fun e => e.col = p).length

omit [Field F] in
lemma columnStart_succ (p : ℕ) : columnStart es (p + 1) = columnStart es p + colCount es p := by
  rw [columnStart, List.range_succ, List.map_append, List.sum_append]
  simp [columnStart, colCount]

omit [Field F] in
lemma columnStart_mono {p q : ℕ} (h : p ≤ q) : columnStart es p ≤ columnStart es q := by
  induction q, h using Nat.le_induction with
  | base => exact le_rfl
  | succ q _ ih => rw [columnStart_succ]; omega

omit [Field F] in
lemma Filling.put_cursor (s : Filling F) (e : MatrixEntry F) :
    (s.put e).cursor = Function.update s.cursor e.col (s.cursor e.col + 1) := rfl

omit [Field F] in
lemma Filling.put_slot (s : Filling F) (e : MatrixEntry F) :
    (s.put e).slot = Function.update s.slot (s.cursor e.col) (e.row, e.coeff) := rfl

/-- After the entries `done`: each cursor has passed those of its column, which are at its places. -/
structure Filled (done : List (MatrixEntry F)) (s : Filling F) : Prop where
  cursor : ∀ p, s.cursor p = columnStart es p + colCount done p
  slots : ∀ p, (List.range' (columnStart es p) (colCount done p)).map s.slot
    = (done.filter fun e => e.col = p).map fun e => (e.row, e.coeff)

variable {es}

omit [Field F] in
/-- The next entry keeps the invariant, while its column has room. -/
lemma Filled.put {done : List (MatrixEntry F)} {s : Filling F} (h : Filled es done s)
    (e : MatrixEntry F) (hroom : ∀ p, colCount (done ++ [e]) p ≤ colCount es p) :
    Filled es (done ++ [e]) (s.put e) := by
  have hcount : ∀ p, colCount (done ++ [e]) p = colCount done p + if e.col = p then 1 else 0 := by
    intro p
    rw [colCount, List.filter_append, List.length_append]
    by_cases hp : e.col = p <;> simp [colCount, hp]
  have hpos : s.cursor e.col < columnStart es (e.col + 1) := by
    have := hroom e.col
    rw [hcount, if_pos rfl] at this
    rw [h.cursor, columnStart_succ]
    omega
  constructor
  · intro p
    rw [hcount]
    by_cases hp : e.col = p
    · subst hp
      rw [s.put_cursor, Function.update_self, h.cursor, if_pos rfl, Nat.add_assoc]
    · rw [s.put_cursor, Function.update_of_ne (Ne.symm hp), h.cursor, if_neg hp, Nat.add_zero]
  · intro p
    have hold : ∀ i ∈ List.range' (columnStart es p) (colCount done p),
        (s.put e).slot i = s.slot i := by
      intro i hi
      obtain ⟨hle, hlt⟩ := List.mem_range'_1.mp hi
      refine Function.update_of_ne (fun hi' => ?_) _ _
      have hroomp := hroom p
      rw [hcount] at hroomp
      rcases lt_trichotomy p e.col with hp | hp | hp
      · have := columnStart_mono es (show p + 1 ≤ e.col from hp)
        rw [columnStart_succ] at this
        have := h.cursor e.col
        omega
      · subst hp
        have := h.cursor e.col
        omega
      · have := columnStart_mono es (show e.col + 1 ≤ p from hp)
        omega
    rw [hcount, List.filter_append, List.map_append, ← h.slots p]
    by_cases hp : e.col = p
    · subst hp
      rw [if_pos rfl, ← List.range'_append_1, List.map_append, List.map_congr_left hold]
      have hnew : (s.put e).slot (columnStart es e.col + colCount done e.col)
          = (e.row, e.coeff) := by
        rw [← h.cursor, s.put_slot, Function.update_self]
      simp [hnew]
    · rw [if_neg hp, Nat.add_zero, List.map_congr_left hold]
      simp [hp]

/-- All entries are at the places of their columns, in the order they arrived. -/
lemma filled_build (es : List (MatrixEntry F)) :
    Filled es es (es.foldl Filling.put ⟨columnStart es, fun _ => (0, 0)⟩) := by
  have key : ∀ (rest done : List (MatrixEntry F)) (s : Filling F), es = done ++ rest →
      Filled es done s → Filled es es (rest.foldl Filling.put s) := by
    intro rest
    induction rest with
    | nil =>
        intro done s hes hs
        rw [List.append_nil] at hes
        rwa [← hes] at hs
    | cons e rest ih =>
        intro done s hes hs
        have hes' : es = (done ++ [e]) ++ rest := by rw [hes, List.append_assoc]; rfl
        refine ih (done ++ [e]) (s.put e) hes' (hs.put e fun p => ?_)
        have hcount : colCount es p = colCount (done ++ [e]) p + colCount rest p := by
          rw [hes', colCount, List.filter_append, List.length_append]
          rfl
        omega
  exact key es [] _ rfl ⟨fun p => by simp [colCount], fun p => by simp [colCount]⟩

/-- A column holds its entries, up to their order. -/
lemma col_perm (es : List (MatrixEntry F)) (p : ℕ) :
    ((Columns.build es).col p).Perm
      ((es.filter fun e => e.col = p).map fun e => (e.row, e.coeff)) := by
  have hslots := (filled_build es).slots p
  rw [Columns.col, Columns.build]
  dsimp only
  rw [columnStart_succ, Nat.add_sub_cancel_left, hslots]
  exact List.mergeSort_perm _ _

end Columns

/-! ### Column sums -/

section ColumnSums

variable [DecidableEq F]

/-- A column's sum, whatever shortcuts its coefficients take. -/
lemma entry_columnSums (c : Columns F) {nv : ℕ} (lambda : List G) {p : ℕ} (hp : p < nv) :
    entry (columnSums c nv lambda) p = ((c.col p).map fun e => e.2 • entry lambda e.1).sum := by
  have hstep : ∀ (l : List (ℕ × F)) (acc : G), l.foldl (fun acc e =>
      if e.2 = 1 then acc + entry lambda e.1
      else if e.2 = -1 then acc - entry lambda e.1 else acc + e.2 • entry lambda e.1) acc
      = acc + (l.map fun e => e.2 • entry lambda e.1).sum := by
    intro l
    induction l with
    | nil => exact fun acc => (add_zero acc).symm
    | cons e l ih =>
        intro acc
        have hadd : (if e.2 = 1 then acc + entry lambda e.1
            else if e.2 = -1 then acc - entry lambda e.1 else acc + e.2 • entry lambda e.1)
            = acc + e.2 • entry lambda e.1 := by
          split_ifs with h1 h2
          · rw [h1, one_smul]
          · rw [h2, neg_smul, one_smul, sub_eq_add_neg]
          · rfl
        rw [List.foldl_cons, hadd, ih, List.map_cons, List.sum_cons, add_assoc]
  rw [columnSums, entry_map_range _ hp]
  dsimp only
  rw [hstep, zero_add]

/-- What the entries of one column add up to. -/
def sumAt (es : List (MatrixEntry F)) (f : ℕ → G) (p : ℕ) : G :=
  ((es.filter fun e => e.col = p).map fun e => e.coeff • f e.row).sum

omit [DecidableEq F] in
lemma sumAt_append (es es' : List (MatrixEntry F)) (f : ℕ → G) (p : ℕ) :
    sumAt (es ++ es') f p = sumAt es f p + sumAt es' f p := by
  rw [sumAt, List.filter_append, List.map_append, List.sum_append]
  rfl

omit [DecidableEq F] in
lemma sumAt_perm {es es' : List (MatrixEntry F)} (h : es.Perm es') (f : ℕ → G) (p : ℕ) :
    sumAt es f p = sumAt es' f p :=
  ((h.filter _).map _).sum_eq

/-- A column's sum, in whatever order the entries arrived. -/
lemma entry_columnSums_build (es : List (MatrixEntry F)) {nv : ℕ} (lambda : List G) {p : ℕ}
    (hp : p < nv) :
    entry (columnSums (Columns.build es) nv lambda) p = sumAt es (entry lambda) p := by
  rw [entry_columnSums _ _ hp, ((col_perm es p).map _).sum_eq, List.map_map]
  rfl

omit [DecidableEq F] in
/-- The entries of one row in a column are its value at the unit vector. -/
lemma sumAt_row {nv : ℕ} {terms : List (ℕ × F)} (hterms : ∀ t ∈ terms, t.1 < nv) (k : ℕ)
    (f : ℕ → G) (p : ℕ) :
    sumAt (terms.map fun t => ⟨t.1, k, t.2⟩) f p = evalTerms terms (unit nv p) • f k := by
  induction terms with
  | nil => simp [sumAt, evalTerms]
  | cons t terms ih =>
      have hrest := ih fun t' ht' => hterms t' (List.mem_cons_of_mem _ ht')
      have hhead : sumAt [⟨t.1, k, t.2⟩] f p = (entry (unit nv p) t.1 * t.2) • f k := by
        rw [entry_unit (hterms t List.mem_cons_self)]
        by_cases htp : t.1 = p <;> simp [sumAt, htp]
      rw [List.map_cons, ← List.singleton_append, sumAt_append, hrest, hhead, evalTerms_cons,
        add_smul]

omit [DecidableEq F] in
/-- The entries of a column, against multiples of one point. -/
lemma sumAt_entries (src : ConstraintSource F) (m : Fin 3) {w : List F} {f : ℕ → G} {g : G}
    (hw : w.length = src.numConstraints) (hf : ∀ i, i < src.numConstraints → f i = entry w i • g)
    (p : ℕ) : sumAt (src.entries m) f p = colDot src w m p • g := by
  have key : ∀ (rows : List (Row F)) (w : List F) (k : ℕ), w.length = rows.length →
      (∀ r ∈ rows, ∀ t ∈ r m, t.1 < src.numVars) →
      (∀ i, i < rows.length → f (k + i) = entry w i • g) →
      sumAt ((rows.zipIdx k).flatMap fun r => (r.1 m).map fun t => ⟨t.1, r.2, t.2⟩) f p
        = dot w (rows.map fun r => evalTerms (r m) (unit src.numVars p)) • g := by
    intro rows
    induction rows with
    | nil =>
        intro w k hw _ _
        rw [List.length_eq_zero_iff.mp hw]
        simp [sumAt, dot]
    | cons r rows ih =>
        intro w k hw hpos hf
        obtain ⟨a, w, rfl⟩ := List.exists_cons_of_length_eq_add_one hw
        have hrest := ih w (k + 1) (by simpa using hw)
          (fun r' hr' => hpos r' (List.mem_cons_of_mem _ hr')) fun i hi => by
            rw [Nat.add_assoc, Nat.add_comm 1 i]
            exact hf (i + 1) (Nat.succ_lt_succ hi)
        have hhead : f k = a • g := hf 0 (Nat.succ_pos _)
        rw [List.zipIdx_cons, List.flatMap_cons, sumAt_append, hrest,
          sumAt_row (hpos r List.mem_cons_self), hhead, List.map_cons, dot_cons, add_smul, smul_smul,
          mul_comm a]
  exact key src.rows w 0 hw (fun r hr => src.positions r hr m) fun i hi => by
    rw [Nat.zero_add]
    exact hf i hi

/-- **Column sums** are the transposed pass, in whatever order the entries arrive. -/
theorem columnSums_eq {src : ConstraintSource F} {m : Fin 3} {order : List (MatrixEntry F)}
    (horder : order.Perm (src.entries m)) {u : List F} (hu : src.numConstraints ≤ u.length) (g : G)
    {p : ℕ} (hp : p < src.numVars) :
    entry (columnSums (Columns.build order) src.numVars (fixedBase g u)) p
      = colDot src (u.take src.numConstraints) m p • g := by
  rw [entry_columnSums_build _ _ hp, sumAt_perm horder]
  refine sumAt_entries src m (by rw [List.length_take]; omega) (fun i hi => ?_) p
  simp [entry, fixedBase, List.getD, hi, (Nat.lt_of_lt_of_le hi hu)]

end ColumnSums

/-! ### The tables -/

section Tables

lemma length_fixedBase (g : G) (u : List F) : (fixedBase g u).length = u.length :=
  List.length_map _

lemma entry_fixedBase (g : G) (u : List F) (i : ℕ) : entry (fixedBase g u) i = entry u i • g := by
  by_cases hi : i < u.length <;> simp [entry, fixedBase, List.getD, hi]

lemma entry_map_smul (k : F) (v : List G) (i : ℕ) :
    entry (v.map fun x => k • x) i = k • entry v i := by
  by_cases hi : i < v.length <;> simp [entry, List.getD, hi]

/-- The tables of phase 2 are the weights of the trusted dealer, times the factor of the powers. -/
lemma lagrangeTable_powers {ω : F} {n N : ℕ} (hω : IsPrimitiveRoot ω n) (hn : 0 < n) (hN : n ≤ N)
    {tau : F} (ht : tau ^ n ≠ 1) (k : F) (g : G) :
    lagrangeTable ω n (((List.range N).map fun i => (k * tau ^ i) • g).take n)
      = fixedBase g ((lagrangeCoefficients ω n tau).map (k * ·)) := by
  rw [lagrangeTable, fixedBase, lagrangeCoefficients, List.map_map, List.map_map]
  refine List.map_congr_left fun i hi => ?_
  have hpow : ∀ j, j < n → entry (((List.range N).map fun i => (k * tau ^ i) • g).take n) j
      = (k * tau ^ j) • g := by
    intro j hj
    simp [entry, List.getD, hj, Nat.lt_of_lt_of_le hj hN]
  have hscale : idft ω n (fun j => k * tau ^ j) i = k * lagrangeAt ω n tau i := by
    have h := idft_smul_const ω n (fun j => tau ^ j) k i
    simp only [smul_eq_mul] at h
    rw [lagrangeAt, mul_comm, ← h]
    exact idft_congr (fun j _ => mul_comm _ _) i
  rw [idft_congr hpow, idft_smul_const, hscale, lagrangeAt_eq hω hn ht]
  rfl

/-- The first places take what they are given. -/
lemma entry_addFrom (x y : List G) (start : ℕ) {count : ℕ} (hcount : count ≤ x.length) (i : ℕ) :
    (addFrom x y start count).length = x.length ∧ entry (addFrom x y start count) i
      = entry x i + if i < count then entry y (start + i) else 0 := by
  induction count with
  | zero => simp [addFrom]
  | succ count ih =>
      obtain ⟨hlen, hi⟩ := ih (by omega)
      have hsucc : addFrom x y start (count + 1)
          = (addFrom x y start count).modify count (· + entry y (start + count)) := by
        rw [addFrom, List.range_succ, List.foldl_append]
        rfl
      refine ⟨by rw [hsucc, List.length_modify, hlen], ?_⟩
      rw [hsucc]
      rcases eq_or_ne i count with rfl | hne
      · have hlt : i < (addFrom x y start i).length := by omega
        have hmod : entry ((addFrom x y start i).modify i (· + entry y (start + i))) i
            = entry (addFrom x y start i) i + entry y (start + i) := by
          simp [entry, List.getD, hlt]
        rw [hmod, hi, if_neg (Nat.lt_irrefl _), add_zero, if_pos (Nat.lt_succ_self _)]
      · have hmod : entry ((addFrom x y start count).modify count (· + entry y (start + count))) i
            = entry (addFrom x y start count) i := by
          simp [entry, List.getD, hne.symm]
        have hiff : i < count + 1 ↔ i < count := by omega
        rw [hmod, hi, if_congr hiff rfl rfl]

end Tables

/-! ### The key -/

section Key

lemma length_zerosWith {n : ℕ} {vals : List F} (h : vals.length ≤ n) :
    (zerosWith n vals).length = n := by
  rw [zerosWith, List.length_append, List.length_replicate]
  omega

lemma length_lagrangeCoefficients (ω : F) (n : ℕ) (t : F) :
    (lagrangeCoefficients ω n t).length = n := by simp [lagrangeCoefficients]

lemma entry_zerosWith (n : ℕ) (vals : List F) (i : ℕ) : entry (zerosWith n vals) i = entry vals i := by
  rcases lt_or_ge i vals.length with hi | hi
  · exact entry_append_left hi
  · obtain ⟨k, rfl⟩ := Nat.exists_eq_add_of_le hi
    rw [zerosWith, entry_append_right, entry_replicate, entry_of_length_le (by omega)]

/-- A factor of the weights is a factor of the sums. -/
lemma colDot_map_mul (src : ConstraintSource F) (k : F) (w : List F) (m : Fin 3) (p : ℕ) :
    colDot src (w.map (k * ·)) m p = k * colDot src w m p := dot_map_mul k w _

variable {src : ConstraintSource F} {u : List F}
  (hu : src.numConstraints + src.numInstance ≤ u.length)

omit [Field F] in
include hu in
lemma length_take_constraints : (u.take src.numConstraints).length = src.numConstraints := by
  rw [List.length_take]
  omega

variable [DecidableEq F]

lemma length_aAt (src : ConstraintSource F) (u : List F) : (aAt src u).length = src.numVars := by
  have hle := src.instance_le
  rw [aAt, length_transposeEval, length_zerosWith]
  rw [List.length_take]
  omega

lemma length_bAt (src : ConstraintSource F) (u : List F) : (bAt src u).length = src.numVars := by
  rw [bAt, length_transposeEval, length_zerosWith (Nat.zero_le _)]

lemma length_cAt (src : ConstraintSource F) (u : List F) : (cAt src u).length = src.numVars := by
  rw [cAt, length_transposeEval, length_zerosWith (Nat.zero_le _)]

include hu in
lemma entry_aAt {p : ℕ} (hp : p < src.numVars) :
    entry (aAt src u) p = colDot src (u.take src.numConstraints) 0 p
      + if p < src.numInstance then entry u (src.numConstraints + p) else 0 := by
  have hle := src.instance_le
  have hinst : ((u.drop src.numConstraints).take src.numInstance).length = src.numInstance := by
    rw [List.length_take, List.length_drop]
    omega
  rw [aAt, entry_transposeEval src 0 (length_take_constraints hu) (length_zerosWith (by omega)) hp,
    entry_zerosWith, add_comm]
  congr 1
  split_ifs with hlt
  · simp [entry, List.getD, hlt]
  · exact entry_of_length_le (by omega)

include hu in
lemma entry_bAt {p : ℕ} (hp : p < src.numVars) :
    entry (bAt src u) p = colDot src (u.take src.numConstraints) 1 p := by
  rw [bAt, entry_transposeEval src 1 (length_take_constraints hu) (length_zerosWith (Nat.zero_le _))
    hp, entry_zerosWith, entry_of_length_le (Nat.zero_le _), zero_add]

include hu in
lemma entry_cAt {p : ℕ} (hp : p < src.numVars) :
    entry (cAt src u) p = colDot src (u.take src.numConstraints) 2 p := by
  rw [cAt, entry_transposeEval src 2 (length_take_constraints hu) (length_zerosWith (Nat.zero_le _))
    hp, entry_zerosWith, entry_of_length_le (Nat.zero_le _), zero_add]

variable {order : Fin 3 → List (MatrixEntry F)} (horder : ∀ m, (order m).Perm (src.entries m))

lemma length_columnSums (c : Columns F) (nv : ℕ) (lambda : List G) :
    (columnSums c nv lambda).length = nv := by simp [columnSums]

include hu horder in
/-- The sums of one matrix against multiples of the weights. -/
lemma entry_sums (m : Fin 3) (k : F) (g : G) {p : ℕ} (hp : p < src.numVars) :
    entry (columnSums (Columns.build (order m)) src.numVars (fixedBase g (u.map (k * ·)))) p
      = (k * colDot src (u.take src.numConstraints) m p) • g := by
  rw [columnSums_eq (horder m) (by rw [List.length_map]; omega) g hp, ← List.map_take,
    colDot_map_mul]

include hu horder in
/-- The sums of the first matrix, with the instance rows. -/
lemma entry_sums_instance (k : F) (g : G) {p : ℕ} (hp : p < src.numVars) :
    entry (addFrom (columnSums (Columns.build (order 0)) src.numVars
        (fixedBase g (u.map (k * ·)))) (fixedBase g (u.map (k * ·))) src.numConstraints
        src.numInstance) p = (k * entry (aAt src u) p) • g := by
  have hle := src.instance_le
  have hscale : ∀ i, entry (u.map (k * ·)) i = k * entry u i := fun i => entry_map_smul k u i
  rw [(entry_addFrom _ _ _ (by rw [length_columnSums]; exact hle) p).2, entry_sums hu horder 0 k g hp,
    entry_aAt hu hp, entry_fixedBase, hscale]
  split_ifs
  · rw [mul_add, add_smul]
  · rw [add_zero, add_zero]

omit [DecidableEq F] in
lemma ext_entry_map {n : ℕ} {f : ℕ → F} {g : G} {v : List G} (hlen : v.length = n)
    (h : ∀ i, i < n → entry v i = f i • g) : v = fixedBase g ((List.range n).map f) := by
  refine ext_entry (by rw [hlen, length_fixedBase, List.length_map, List.length_range]) fun i hi => ?_
  rw [hlen] at hi
  rw [h i hi, entry_fixedBase, entry_map_range _ hi]

omit [Field F] [DecidableEq F] in
/-- The domain has room for all points. -/
lemma size_fits (src : ConstraintSource F) : src.numConstraints + src.numInstance
    ≤ DomainKind.radix2.size (src.numConstraints + src.numInstance) :=
  (le_max_left _ _).trans (Nat.le_pow_clog Nat.one_lt_two _)

lemma isPowerOfTwo_size (k : ℕ) : isPowerOfTwo (DomainKind.radix2.size k) = true := by
  simp [DomainKind.size, nextPowerOfTwo, isPowerOfTwo, Nat.log2_two_pow]

omit [DecidableEq F] in
lemma map_take_fixedBase (f : ℕ → F) (k : F) (g : G) {i n : ℕ} (h : i ≤ n) :
    ((fixedBase g ((List.range n).map f)).take i).map (fun y => k • y)
      = fixedBase g ((List.range i).map fun j => f j * k) := by
  rw [fixedBase, fixedBase, ← List.map_take, ← List.map_take, List.take_range, min_eq_left h,
    List.map_map, List.map_map, List.map_map]
  refine List.map_congr_left fun j _ => ?_
  rw [Function.comp_apply, Function.comp_apply, Function.comp_apply, smul_smul, mul_comm]

omit [DecidableEq F] in
lemma map_drop_fixedBase (f : ℕ → F) (k : F) (g : G) (i n : ℕ) :
    ((fixedBase g ((List.range n).map f)).drop i).map (fun y => k • y)
      = fixedBase g ((List.range' i (n - i)).map fun j => f j * k) := by
  have hdrop : (List.range n).drop i = List.range' i (n - i) := by
    rw [List.range_eq_range', List.drop_range', Nat.mul_one, Nat.zero_add]
  rw [fixedBase, fixedBase, ← List.map_drop, ← List.map_drop, hdrop, List.map_map, List.map_map,
    List.map_map]
  refine List.map_congr_left fun j _ => ?_
  rw [Function.comp_apply, Function.comp_apply, Function.comp_apply, smul_smul, mul_comm]

include hu horder in
/-- The combination that the public inputs and `L` share. -/
lemma combined_eq (alpha beta : F) (g : G) :
    List.zipWith (· + ·) (List.zipWith (· + ·)
      (addFrom (columnSums (Columns.build (order 0)) src.numVars (fixedBase g (u.map (beta * ·))))
        (fixedBase g (u.map (beta * ·))) src.numConstraints src.numInstance)
      (columnSums (Columns.build (order 1)) src.numVars (fixedBase g (u.map (alpha * ·)))))
      (columnSums (Columns.build (order 2)) src.numVars (fixedBase g u))
      = fixedBase g ((List.range src.numVars).map (abcAt src u alpha beta)) := by
  set x := addFrom (columnSums (Columns.build (order 0)) src.numVars
    (fixedBase g (u.map (beta * ·)))) (fixedBase g (u.map (beta * ·))) src.numConstraints
    src.numInstance with hx
  have hxlen : x.length = src.numVars := by
    rw [hx, (entry_addFrom _ _ _ (by rw [length_columnSums]; exact src.instance_le) 0).1,
      length_columnSums]
  refine ext_entry_map ?_ fun i hi => ?_
  · rw [List.length_zipWith, List.length_zipWith, hxlen, length_columnSums, length_columnSums,
      min_self, min_self]
  · have hlen : ∀ v : List F, ∀ m,
        i < (columnSums (Columns.build (order m)) src.numVars (fixedBase g v)).length := by
      intro v m
      rw [length_columnSums]
      exact hi
    have hc := columnSums_eq (horder 2) (by omega : src.numConstraints ≤ u.length) g hi
    rw [entry_zipWith _ (by rw [List.length_zipWith]; exact lt_min (by omega) (hlen _ 1)) (hlen _ 2),
      entry_zipWith _ (by omega) (hlen _ 1), hx, entry_sums_instance hu horder beta g hi,
      entry_sums hu horder 1 alpha g hi, hc, abcAt, entry_bAt hu hi, entry_cAt hu hi, add_smul,
      add_smul]

/-- **Phase 2** from the powers of the secrets is the trusted dealer's setup with these secrets. -/
theorem phase2_eq_devSetup {G₁ G₂ : Type} [AddCommGroup G₁] [Module F G₁] [AddCommGroup G₂]
    [Module F G₂] (R : FftField F) (src : ConstraintSource F)
    {order : Fin 3 → List (MatrixEntry F)} (horder : ∀ m, (order m).Perm (src.entries m))
    (x : Toxic F G₁ G₂) {N : ℕ}
    (hN : DomainKind.radix2.size (src.numConstraints + src.numInstance) ≤ N)
    (ht : x.t ^ DomainKind.radix2.size (src.numConstraints + src.numInstance) ≠ 1) :
    phase2Setup R src order (PtauPowers.ofSecrets x.t x.alpha x.beta x.g1 x.g2 N) x.gamma x.delta
      x.g1 x.g2 = devSetup R src x .radix2 := by
  have hpos := src.instance_pos
  have hfit := size_fits src
  rw [devSetup, devSetupOn, phase2Setup]
  dsimp only
  rw [if_pos (isPowerOfTwo_size _)]
  set n := DomainKind.radix2.size (src.numConstraints + src.numInstance)
  cases hroot : R.getRootOfUnity n with
  | none => rfl
  | some ω =>
      have hω := R.primitive n ω hroot
      have hn : 0 < n := by omega
      set u := lagrangeCoefficients ω n x.t with hu
      have hul : src.numConstraints + src.numInstance ≤ u.length := by
        rw [hu, length_lagrangeCoefficients]
        exact hfit
      have htable : ∀ {G : Type} [AddCommGroup G] [Module F G] (k : F) (g : G),
          lagrangeTable ω n (((List.range N).map fun i => (k * x.t ^ i) • g).take n)
            = fixedBase g (u.map (k * ·)) := fun k g => lagrangeTable_powers hω hn hN ht k g
      have hone : u.map ((1 : F) * ·) = u := by simp
      have htable1 : ∀ {G : Type} [AddCommGroup G] [Module F G] (g : G) {N' : ℕ}, n ≤ N' →
          lagrangeTable ω n (((List.range N').map fun i => (x.t ^ i) • g).take n)
            = fixedBase g u := by
        intro G _ _ g N' hN'
        have h := lagrangeTable_powers hω hn hN' ht 1 g
        simpa only [one_mul, ← hu, List.map_id'] using h
      have hb : ∀ {G : Type} [AddCommGroup G] [Module F G] (g : G),
          columnSums (Columns.build (order 1)) src.numVars (fixedBase g u)
            = fixedBase g (bAt src u) := by
        intro G _ _ g
        refine ext_entry (by rw [length_columnSums, length_fixedBase, length_bAt]) fun i hi => ?_
        rw [length_columnSums] at hi
        rw [columnSums_eq (horder 1) (by omega) g hi, entry_fixedBase, entry_bAt hul hi]
      have ha : addFrom (columnSums (Columns.build (order 0)) src.numVars (fixedBase x.g1 u))
          (fixedBase x.g1 u) src.numConstraints src.numInstance = fixedBase x.g1 (aAt src u) := by
        have hlen : (addFrom (columnSums (Columns.build (order 0)) src.numVars (fixedBase x.g1 u))
            (fixedBase x.g1 u) src.numConstraints src.numInstance).length = src.numVars := by
          rw [(entry_addFrom _ _ _ (by rw [length_columnSums]; exact src.instance_le) 0).1,
            length_columnSums]
        refine ext_entry (by rw [hlen, length_fixedBase, length_aAt]) fun i hi => ?_
        rw [hlen] at hi
        have h := entry_sums_instance hul horder 1 x.g1 hi
        rw [hone, one_mul] at h
        rw [h, entry_fixedBase]
      simp only [PtauPowers.ofSecrets, htable, htable1 x.g2 hN,
        htable1 x.g1 (show n ≤ 2 * N - 1 by omega), combined_eq hul horder, ha, hb, devKey, ← hu]
      have hzero : ∀ k : F, entry ((List.range N).map fun i => (k * x.t ^ i) • x.g1) 0
          = k • x.g1 := by
        intro k
        rw [entry_map_range _ (by omega), pow_zero, mul_one]
      have hpub := map_take_fixedBase (abcAt src u x.alpha x.beta) x.gamma⁻¹ x.g1 src.instance_le
      have hwit := map_drop_fixedBase (abcAt src u x.alpha x.beta) x.delta⁻¹ x.g1 src.numInstance
        src.numVars
      have hh : ((List.range (n - 1)).map fun k => x.delta⁻¹ •
            (entry ((List.range (2 * N - 1)).map fun i => x.t ^ i • x.g1) (n + k)
              - entry ((List.range (2 * N - 1)).map fun i => x.t ^ i • x.g1) k))
          = fixedBase x.g1 ((List.range (n - 1)).map fun i =>
            (x.t ^ n - 1) * x.delta⁻¹ * x.t ^ i) := by
        rw [fixedBase, List.map_map]
        refine List.map_congr_left fun k hk => ?_
        have hkn := List.mem_range.mp hk
        rw [entry_map_range _ (by omega), entry_map_range _ (by omega), ← sub_smul, smul_smul,
          Function.comp_apply]
        congr 1
        ring
      rw [hzero, hzero, hpub, hwit, hh]

end Key

end Groth16

end XarkCircuit
