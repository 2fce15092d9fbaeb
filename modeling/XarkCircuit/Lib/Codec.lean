import XarkCircuit.Lib.Instances
import Mathlib.Data.Nat.Digits.Defs
import Mathlib.Data.Nat.Size
import Mathlib.Tactic.Ring
import Mathlib.Tactic.Positivity

/-!
Reading back what was written.

* `Reader τ ε α` reads an `α` from the front of a tape of `τ` (for most readers bytes), or stops with
  an error.
* `Reads r bs a` says that `r` reads `a` off `bs` whatever follows. Its rules follow the shape of a
  reader: `Reads.bind` for a sequence, `Reads.cons` for a tag, `Reads.many` for a counted list, and
  `Reads.scan` for one whose entries are coded relative to the entry before.
* The integers, over bytes: LEB128 with its two readers (`varint` refuses an eleventh byte,
  `varintWrapping` shifts on modulo the word), zigzag, little-endian magnitudes, and the shortest
  two's complement.
-/

namespace Codec

variable {τ ε α β σ : Type}

/-- Reads from the front of a tape. -/
abbrev Reader (τ ε : Type) := StateT (List τ) (Except ε)

/-- `r` reads `a` off `bs`, whatever follows. -/
def Reads (r : Reader τ ε α) (bs : List τ) (a : α) : Prop :=
  ∀ rest, r (bs ++ rest) = .ok (a, rest)

/-- `r` reads all of `bs` as `a`. -/
lemma Reads.run {r : Reader τ ε α} {bs : List τ} {a : α} (h : Reads r bs a) :
    r bs = .ok (a, []) := by
  simpa using h []

/-! ### Sequences -/

lemma Reads.pure (a : α) : Reads (Pure.pure a : Reader τ ε α) [] a := fun _ => rfl

lemma Reads.bind {r : Reader τ ε α} {f : α → Reader τ ε β} {bs cs : List τ} {a : α} {b : β}
    (h : Reads r bs a) (hf : Reads (f a) cs b) : Reads (r >>= f) (bs ++ cs) b := by
  intro rest
  have h1 : (r >>= f) (bs ++ cs ++ rest) = (r (bs ++ cs ++ rest) >>= fun p => f p.1 p.2) := rfl
  rw [h1, List.append_assoc, h (cs ++ rest)]
  exact hf rest

/-- The last step of a sequence, where nothing more is read. -/
lemma Reads.last {r : Reader τ ε α} {f : α → Reader τ ε β} {bs : List τ} {a : α} {b : β}
    (h : Reads r bs a) (hf : f a = Pure.pure b) : Reads (r >>= f) bs b := by
  have h1 : Reads (r >>= f) (bs ++ []) b := h.bind (by rw [hf]; exact Reads.pure b)
  rwa [List.append_nil] at h1

lemma Reads.ret {r : Reader τ ε α} {bs : List τ} {a : α} (h : Reads r bs a) (f : α → β) :
    Reads (r >>= fun x => Pure.pure (f x)) bs (f a) := h.last rfl

/-! ### Tokens -/

/-- The next token. -/
def next (eof : ε) : Reader τ ε τ
  | [] => .error eof
  | b :: bs => .ok (b, bs)

/-- The next `n` tokens. -/
def take (eof : ε) (n : ℕ) : Reader τ ε (List τ) := fun bs =>
  if n ≤ bs.length then .ok (bs.take n, bs.drop n) else .error eof

lemma reads_next (eof : ε) (b : τ) : Reads (next eof) [b] b := fun _ => rfl

/-- A tag. -/
lemma Reads.cons {eof : ε} {f : τ → Reader τ ε β} {b : τ} {bs : List τ} {a : β}
    (h : Reads (f b) bs a) : Reads (next eof >>= f) (b :: bs) a :=
  (reads_next eof b).bind h

lemma reads_take (eof : ε) (bs : List τ) : Reads (take eof bs.length) bs bs := by
  intro rest
  have hle : bs.length ≤ (bs ++ rest).length := by simp
  rw [take, if_pos hle, List.take_left, List.drop_left]

/-! ### Lists -/

/-- `n` entries, one after the other. -/
def many (r : Reader τ ε α) : ℕ → Reader τ ε (List α)
  | 0 => Pure.pure []
  | n + 1 => do
      let a ← r
      let as ← many r n
      Pure.pure (a :: as)

lemma Reads.many {r : Reader τ ε α} {put : α → List τ} {as : List α}
    (h : ∀ a ∈ as, Reads r (put a) a) : Reads (Codec.many r as.length) (as.flatMap put) as := by
  induction as with
  | nil => exact Reads.pure []
  | cons a as ih =>
      have has := ih fun b hb => h b (List.mem_cons_of_mem _ hb)
      exact (h a List.mem_cons_self).bind (has.ret fun as => a :: as)

/-- `n` entries, each read relative to a state that it hands to the next. -/
def scan (r : σ → Reader τ ε (α × σ)) : ℕ → σ → Reader τ ε (List α)
  | 0, _ => Pure.pure []
  | n + 1, s => do
      let (a, s) ← r s
      let as ← scan r n s
      Pure.pure (a :: as)

/-- The writer of `scan`. -/
def putScan (put : σ → α → List τ) (next : σ → α → σ) : σ → List α → List τ
  | _, [] => []
  | s, a :: as => put s a ++ putScan put next (next s a) as

lemma Reads.scan {r : σ → Reader τ ε (α × σ)} {put : σ → α → List τ} {next : σ → α → σ}
    {as : List α} {s : σ} (I : σ → Prop) (hs : I s)
    (h : ∀ s, I s → ∀ a ∈ as, Reads (r s) (put s a) (a, next s a) ∧ I (next s a)) :
    Reads (Codec.scan r as.length s) (putScan put next s as) as := by
  induction as generalizing s with
  | nil => exact Reads.pure []
  | cons a as ih =>
      obtain ⟨ha, hI⟩ := h s hs a List.mem_cons_self
      have has := ih hI fun s' hs' b hb => h s' hs' b (List.mem_cons_of_mem _ hb)
      exact ha.bind (has.ret fun as => a :: as)

/-! ### Input that ends too early -/

/-- `r` reads `a` off `bs`, whatever follows, and refuses what is shorter. -/
structure Delimits (r : Reader τ ε α) (bs : List τ) (a : α) : Prop where
  reads : Reads r bs a
  starves : ∀ cs, cs <+: bs → cs.length < bs.length → ∃ e, r cs = .error e

lemma Delimits.pure (a : α) : Delimits (Pure.pure a : Reader τ ε α) [] a :=
  ⟨Reads.pure a, fun _ _ h => absurd h (Nat.not_lt_zero _)⟩

lemma Delimits.bind {r : Reader τ ε α} {f : α → Reader τ ε β} {bs cs : List τ} {a : α} {b : β}
    (h : Delimits r bs a) (hf : Delimits (f a) cs b) : Delimits (r >>= f) (bs ++ cs) b := by
  refine ⟨h.reads.bind hf.reads, fun ds hds hlt => ?_⟩
  have hbind : (r >>= f) ds = (r ds >>= fun p => f p.1 p.2) := rfl
  rcases List.prefix_or_prefix_of_prefix hds (List.prefix_append bs cs) with hle | ⟨es, rfl⟩
  · rcases lt_or_eq_of_le hle.length_le with hshort | hlen
    · obtain ⟨e, he⟩ := h.starves ds hle hshort
      exact ⟨e, by rw [hbind, he]; rfl⟩
    · obtain ⟨e, he⟩ := hf.starves [] List.nil_prefix (by simp at hlt ⊢; omega)
      refine ⟨e, ?_⟩
      rw [hbind, hle.eq_of_length hlen, h.reads.run]
      exact he
  · rw [List.prefix_append_right_inj] at hds
    obtain ⟨e, he⟩ := hf.starves es hds (by simpa using hlt)
    refine ⟨e, ?_⟩
    rw [hbind, h.reads es]
    exact he

/-- The last step of a sequence. -/
lemma Delimits.ret {r : Reader τ ε α} {bs : List τ} {a : α} (h : Delimits r bs a) (f : α → β) :
    Delimits (r >>= fun x => Pure.pure (f x)) bs (f a) := by
  have h1 : Delimits (r >>= fun x => Pure.pure (f x)) (bs ++ []) (f a) :=
    h.bind (Delimits.pure (f a))
  rwa [List.append_nil] at h1

lemma delimits_take (eof : ε) (bs : List τ) : Delimits (take eof bs.length) bs bs :=
  ⟨reads_take eof bs, fun _ _ h => ⟨eof, if_neg (Nat.not_le.mpr h)⟩⟩

lemma Delimits.many {r : Reader τ ε α} {put : α → List τ} {as : List α}
    (h : ∀ a ∈ as, Delimits r (put a) a) : Delimits (Codec.many r as.length) (as.flatMap put) as := by
  induction as with
  | nil => exact Delimits.pure []
  | cons a as ih =>
      have has := ih fun b hb => h b (List.mem_cons_of_mem _ hb)
      exact (h a List.mem_cons_self).bind (has.ret fun as => a :: as)

/-! ### LEB128 -/

/-- Seven bits a byte, the lowest first, with the high bit set on all but the last; a 64-bit value
has at most ten groups. -/
def putGroups : ℕ → ℕ → List UInt8
  | 0, _ => []
  | n + 1, v =>
      if v / 128 = 0 then [UInt8.ofNat (v % 128)]
      else UInt8.ofNat (v % 128 + 128) :: putGroups n (v / 128)

/-- LEB128 of a 64-bit value. -/
def putVarint (v : ℕ) : List UInt8 := putGroups 10 v

lemma length_putVarint_pos (v : ℕ) : 0 < (putVarint v).length := by
  rw [putVarint, putGroups]
  split_ifs <;> exact Nat.succ_pos _

/-- What a byte of a varint adds to the bits read so far. -/
def addGroup (v shift : ℕ) (byte : UInt8) : ℕ := v ||| (byte.toNat % 128 * 2 ^ shift) % 2 ^ 64

/-- At most `n` more bytes, the first one `shift` bits up. -/
def groups (eof : ε) : ℕ → ℕ → ℕ → Reader UInt8 ε ℕ
  | 0, _, _ => throw eof
  | n + 1, shift, v => do
      let byte ← next eof
      if byte.toNat < 128 then Pure.pure (addGroup v shift byte)
      else groups eof n (shift + 7) (addGroup v shift byte)

/-- A varint of at most ten bytes. -/
def varint (eof : ε) : Reader UInt8 ε ℕ := groups eof 10 0 0

/-- Any number of bytes, with shift counts modulo 64. -/
def groupsWrapping (eof : ε) (shift v : ℕ) : Reader UInt8 ε ℕ
  | [] => .error eof
  | byte :: bs =>
      if byte.toNat < 128 then .ok (addGroup v (shift % 64) byte, bs)
      else groupsWrapping eof (shift + 7) (addGroup v (shift % 64) byte) bs

/-- A varint of any length. -/
def varintWrapping (eof : ε) : Reader UInt8 ε ℕ := groupsWrapping eof 0 0

lemma toNat_last (v : ℕ) : (UInt8.ofNat (v % 128)).toNat = v % 128 :=
  UInt8.toNat_ofNat_of_lt' (by omega : v % 128 < 256)

lemma toNat_more (v : ℕ) : (UInt8.ofNat (v % 128 + 128)).toNat = v % 128 + 128 :=
  UInt8.toNat_ofNat_of_lt' (by omega : v % 128 + 128 < 256)

/-- A group lands above the bits read so far. -/
lemma addGroup_eq {v w shift : ℕ} {b : UInt8} (hb : b.toNat % 128 = w % 128)
    (hv : v < 2 ^ shift) (hw : w * 2 ^ shift < 2 ^ 64) :
    addGroup v shift b = v + w % 128 * 2 ^ shift := by
  have hle : w % 128 * 2 ^ shift ≤ w * 2 ^ shift := Nat.mul_le_mul_right _ (Nat.mod_le _ _)
  rw [addGroup, hb, Nat.mod_eq_of_lt (by omega), Nat.or_comm, Nat.mul_comm,
    ← Nat.two_pow_add_eq_or_of_lt hv, Nat.add_comm]

/-- The bits read so far, when there are more to come. -/
lemma addGroup_step {v w shift : ℕ} (hv : v < 2 ^ shift) :
    v + w % 128 * 2 ^ shift < 2 ^ (shift + 7) ∧
      v + w % 128 * 2 ^ shift + w / 128 * 2 ^ (shift + 7) = v + w * 2 ^ shift := by
  have hlt : w % 128 ≤ 127 := by omega
  have hle : w % 128 * 2 ^ shift ≤ 127 * 2 ^ shift := Nat.mul_le_mul_right _ hlt
  have hpow : (2 : ℕ) ^ (shift + 7) = 128 * 2 ^ shift := by rw [Nat.pow_add, Nat.mul_comm]
  constructor
  · omega
  · have hsum : w % 128 + 128 * (w / 128) = w := Nat.mod_add_div w 128
    calc v + w % 128 * 2 ^ shift + w / 128 * 2 ^ (shift + 7)
        = v + (w % 128 + 128 * (w / 128)) * 2 ^ shift := by rw [hpow]; ring
      _ = v + w * 2 ^ shift := by rw [hsum]

lemma reads_groups (eof : ε) {n v w shift : ℕ} (hv : v < 2 ^ shift) (hn : w < 128 ^ n)
    (hw : w * 2 ^ shift < 2 ^ 64) (hpos : 0 < n) :
    Reads (groups eof n shift v) (putGroups n w) (v + w * 2 ^ shift) := by
  induction n generalizing v w shift with
  | zero => exact absurd hpos (Nat.lt_irrefl 0)
  | succ n ih =>
      rw [putGroups]
      split_ifs with h0
      · have hmod : w % 128 = w := by omega
        have hb : (UInt8.ofNat (w % 128)).toNat % 128 = w % 128 := by rw [toNat_last]; omega
        have hg := addGroup_eq hb hv hw
        rw [groups]
        refine Reads.cons ?_
        rw [if_pos (by rw [toNat_last]; omega), hg, hmod]
        exact Reads.pure _
      · have hb : (UInt8.ofNat (w % 128 + 128)).toNat % 128 = w % 128 := by rw [toNat_more]; omega
        have hg := addGroup_eq hb hv hw
        obtain ⟨hlt, hsum⟩ := addGroup_step (w := w) hv
        have hlt' : w / 128 < 128 ^ n := by
          rw [Nat.div_lt_iff_lt_mul (by omega), ← Nat.pow_succ]
          exact hn
        have hn' : 0 < n := by
          rcases Nat.eq_zero_or_pos n with rfl | h
          · rw [Nat.pow_zero] at hlt'
            omega
          · exact h
        rw [groups]
        refine Reads.cons ?_
        rw [if_neg (by rw [toNat_more]; omega), hg, ← hsum]
        exact ih hlt hlt' (by omega) hn'

/-- **A 64-bit value is read back.** -/
theorem reads_varint (eof : ε) {v : ℕ} (hv : v < 2 ^ 64) : Reads (varint eof) (putVarint v) v := by
  have h : Reads (groups eof 10 0 0) (putGroups 10 v) (0 + v * 2 ^ 0) :=
    reads_groups eof (by simp) (lt_trans hv (by norm_num)) (by omega) (by omega)
  rwa [Nat.pow_zero, Nat.mul_one, Nat.zero_add] at h

lemma reads_groupsWrapping (eof : ε) {n v w shift : ℕ} (hv : v < 2 ^ shift) (hn : w < 128 ^ n)
    (hw : w * 2 ^ shift < 2 ^ 64) (hpos : 0 < n) (hs : shift < 64) :
    Reads (groupsWrapping eof shift v) (putGroups n w) (v + w * 2 ^ shift) := by
  induction n generalizing v w shift with
  | zero => exact absurd hpos (Nat.lt_irrefl 0)
  | succ n ih =>
      intro rest
      have hmod : shift % 64 = shift := Nat.mod_eq_of_lt hs
      rw [putGroups]
      split_ifs with h0
      · have hmod' : w % 128 = w := by omega
        have hb : (UInt8.ofNat (w % 128)).toNat % 128 = w % 128 := by rw [toNat_last]; omega
        have hg := addGroup_eq hb hv hw
        rw [List.singleton_append, groupsWrapping, if_pos (by rw [toNat_last]; omega), hmod, hg,
          hmod']
      · have hb : (UInt8.ofNat (w % 128 + 128)).toNat % 128 = w % 128 := by rw [toNat_more]; omega
        have hg := addGroup_eq hb hv hw
        obtain ⟨hlt, hsum⟩ := addGroup_step (w := w) hv
        have hlt' : w / 128 < 128 ^ n := by
          rw [Nat.div_lt_iff_lt_mul (by omega), ← Nat.pow_succ]
          exact hn
        have hn' : 0 < n := by
          rcases Nat.eq_zero_or_pos n with rfl | h
          · rw [Nat.pow_zero] at hlt'
            omega
          · exact h
        have hs' : shift + 7 < 64 := by
          have h1 : 1 * 2 ^ (shift + 7) ≤ w / 128 * 2 ^ (shift + 7) :=
            Nat.mul_le_mul_right _ (by omega)
          have h2 : (2 : ℕ) ^ (shift + 7) < 2 ^ 64 := by omega
          exact (Nat.pow_lt_pow_iff_right (by norm_num)).mp h2
        rw [List.cons_append, groupsWrapping, if_neg (by rw [toNat_more]; omega), hmod, hg, ← hsum]
        exact ih hlt hlt' (by omega) hn' hs' rest

/-- **A 64-bit value is read back**, also by the reader that never refuses a length. -/
theorem reads_varintWrapping (eof : ε) {v : ℕ} (hv : v < 2 ^ 64) :
    Reads (varintWrapping eof) (putVarint v) v := by
  have h : Reads (groupsWrapping eof 0 0) (putGroups 10 v) (0 + v * 2 ^ 0) :=
    reads_groupsWrapping eof (by simp) (lt_trans hv (by norm_num)) (by omega) (by omega) (by omega)
  rwa [Nat.pow_zero, Nat.mul_one, Nat.zero_add] at h

/-! ### Signed integers and magnitudes -/

/-- A signed integer as an unsigned one, the sign in the lowest bit. -/
def zigzag (v : ℤ) : ℕ := if 0 ≤ v then 2 * v.toNat else 2 * (-v).toNat - 1

/-- The inverse of `zigzag`. -/
def unzigzag (u : ℕ) : ℤ := if u % 2 = 0 then (u / 2 : ℕ) else -(u / 2 : ℕ) - 1

@[simp] lemma unzigzag_zigzag (v : ℤ) : unzigzag (zigzag v) = v := by
  unfold zigzag unzigzag
  split_ifs <;> omega

lemma zigzag_lt {v : ℤ} {n : ℕ} (hlo : -2 ^ n ≤ v) (hhi : v < 2 ^ n) : zigzag v < 2 ^ (n + 1) := by
  unfold zigzag
  rw [Nat.pow_succ]
  have h2 : ((2 ^ n : ℕ) : ℤ) = 2 ^ n := by push_cast; rfl
  split_ifs <;> omega

/-- The bytes of a magnitude, the lowest first. -/
def toBytesLe (n : ℕ) : List UInt8 := (Nat.digits 256 n).map UInt8.ofNat

/-- The magnitude of a byte string, the lowest first. -/
def fromBytesLe (bs : List UInt8) : ℕ := Nat.ofDigits 256 (bs.map UInt8.toNat)

@[simp] lemma fromBytesLe_nil : fromBytesLe [] = 0 := rfl

lemma fromBytesLe_cons (b : UInt8) (bs : List UInt8) :
    fromBytesLe (b :: bs) = b.toNat + 256 * fromBytesLe bs := by
  simp [fromBytesLe, Nat.ofDigits_cons]

lemma fromBytesLe_append (as bs : List UInt8) :
    fromBytesLe (as ++ bs) = fromBytesLe as + 256 ^ as.length * fromBytesLe bs := by
  simp [fromBytesLe, Nat.ofDigits_append]

lemma fromBytesLe_lt (bs : List UInt8) : fromBytesLe bs < 256 ^ bs.length := by
  induction bs with
  | nil => simp
  | cons b bs ih =>
      have hb : b.toNat < 256 := b.toNat_lt
      rw [fromBytesLe_cons, List.length_cons, Nat.pow_succ]
      omega

lemma fromBytesLe_injective {as bs : List UInt8} (hlen : as.length = bs.length)
    (h : fromBytesLe as = fromBytesLe bs) : as = bs := by
  induction as generalizing bs with
  | nil => exact (List.length_eq_zero_iff.mp hlen.symm).symm
  | cons a as ih =>
      obtain ⟨b, bs, rfl⟩ := List.exists_cons_of_length_eq_add_one hlen.symm
      have ha : a.toNat < 256 := a.toNat_lt
      have hb : b.toNat < 256 := b.toNat_lt
      rw [fromBytesLe_cons, fromBytesLe_cons] at h
      have hhead : a = b := UInt8.toNat_inj.mp (by omega)
      have htail : fromBytesLe as = fromBytesLe bs := by omega
      rw [hhead, ih (by simpa using hlen) htail]

@[simp] lemma fromBytesLe_replicate_zero (n : ℕ) : fromBytesLe (List.replicate n 0) = 0 := by
  induction n with
  | zero => rfl
  | succ n ih => rw [List.replicate_succ, fromBytesLe_cons, ih]; rfl

/-- The lowest `k` bytes of an integer, the lowest first. -/
def leBytes : ℕ → ℕ → List UInt8
  | 0, _ => []
  | k + 1, n => UInt8.ofNat n :: leBytes k (n / 256)

@[simp] lemma length_leBytes (k n : ℕ) : (leBytes k n).length = k := by
  induction k generalizing n with
  | zero => rfl
  | succ k ih => rw [leBytes, List.length_cons, ih]

lemma fromBytesLe_leBytes (k n : ℕ) : fromBytesLe (leBytes k n) = n % 256 ^ k := by
  induction k generalizing n with
  | zero => simp [leBytes, fromBytesLe, Nat.mod_one]
  | succ k ih =>
      have hcons : fromBytesLe (leBytes (k + 1) n)
          = (UInt8.ofNat n).toNat + 256 * fromBytesLe (leBytes k (n / 256)) := by
        simp [leBytes, fromBytesLe, Nat.ofDigits_cons]
      rw [hcons, ih, Nat.pow_succ', Nat.mod_mul]
      rfl

@[simp] lemma fromBytesLe_toBytesLe (n : ℕ) : fromBytesLe (toBytesLe n) = n := by
  have hmap : ((Nat.digits 256 n).map UInt8.ofNat).map UInt8.toNat = Nat.digits 256 n := by
    rw [List.map_map]
    refine (List.map_congr_left fun d hd => ?_).trans (List.map_id _)
    exact UInt8.toNat_ofNat_of_lt' (Nat.digits_lt_base (by norm_num) hd)
  rw [fromBytesLe, toBytesLe, hmap, Nat.ofDigits_digits]

/-- How many bytes the shortest two's complement of an integer takes. -/
def signedLen (z : ℤ) : ℕ := Nat.size (if 0 ≤ z then z.toNat else (-z).toNat - 1) / 8 + 1

/-- The shortest two's complement of an integer, the lowest byte first. -/
def toSignedBytesLe (z : ℤ) : List UInt8 :=
  leBytes (signedLen z) (z % 256 ^ signedLen z).toNat

/-- The two's complement value of a byte string, the lowest byte first. -/
def fromSignedBytesLe (bs : List UInt8) : ℤ :=
  if 2 * fromBytesLe bs < 256 ^ bs.length then fromBytesLe bs
  else fromBytesLe bs - 256 ^ bs.length

/-- The sign bit is the highest bit of the last byte. -/
lemma signedLen_spec (z : ℤ) : -256 ^ signedLen z ≤ 2 * z ∧ 2 * z < 256 ^ signedLen z := by
  set m := if 0 ≤ z then z.toNat else (-z).toNat - 1 with hm
  have hsize : m < 2 ^ (8 * (Nat.size m / 8) + 7) := by
    refine (Nat.lt_size_self m).trans_le (Nat.pow_le_pow_right (by norm_num) ?_)
    omega
  have hpow : (256 : ℤ) ^ signedLen z = 2 * (2 ^ (8 * (Nat.size m / 8) + 7) : ℕ) := by
    rw [signedLen, ← hm, show (256 : ℤ) = 2 ^ 8 by norm_num, ← pow_mul]
    push_cast
    ring
  rw [hpow]
  split_ifs at hm <;> omega

@[simp] lemma fromSignedBytesLe_toSignedBytesLe (z : ℤ) :
    fromSignedBytesLe (toSignedBytesLe z) = z := by
  obtain ⟨hlo, hhi⟩ := signedLen_spec z
  have hpos : (0 : ℤ) < 256 ^ signedLen z := by positivity
  have hnat : (((z % 256 ^ signedLen z).toNat : ℕ) : ℤ) = z % 256 ^ signedLen z :=
    Int.toNat_of_nonneg (Int.emod_nonneg _ hpos.ne')
  have hlt : (z % 256 ^ signedLen z).toNat < 256 ^ signedLen z := by
    zify
    rw [hnat]
    exact Int.emod_lt_of_pos z hpos
  rw [fromSignedBytesLe, toSignedBytesLe, fromBytesLe_leBytes, Nat.mod_eq_of_lt hlt, length_leBytes]
  zify
  rw [hnat]
  rcases lt_or_ge z 0 with hz | hz
  · have hmod : z % 256 ^ signedLen z = z + 256 ^ signedLen z := by
      rw [← Int.add_emod_right, Int.emod_eq_of_lt (by linarith) (by linarith)]
    rw [hmod, if_neg (by linarith)]
    ring
  · rw [Int.emod_eq_of_lt hz (by linarith), if_pos hhi]

lemma toSignedBytesLe_ne_nil (z : ℤ) : toSignedBytesLe z ≠ [] := by
  rw [← List.length_pos_iff, toSignedBytesLe, length_leBytes]
  exact Nat.succ_pos _

end Codec
