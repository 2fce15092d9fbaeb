import XarkCircuit.Lib.Codec

/-!
Reading a string by position.

* `PosReader τ ε α` reads an `α` at a position of a string of `τ` and moves the position, or stops
  with an error. The string has fewer than `2 ^ 63` tokens, as a vector in memory has.
* `Reads c bs a` says that `c` reads `a` off `bs`, whatever is before and after it.
* `Spans c` is the converse: what `c` moves over is all that it looked at.
* `Guarded P b Q c`: on `b`, what `c` returns is in `Q`, and what it stops with is in `P`.
* Each has a rule for a sequence (`bind`), for a test (`test`) and for a counted list (`many`).
* `uv` is LEB128 with at most 64 bits.
-/

/-- Reads at a position of a string. -/
abbrev PosReader (τ ε : Type) := ReaderT (List τ) (StateT ℕ (Except ε))

namespace PosReader

variable {τ ε α β : Type}

/-- `c` reads `a` off `bs`, whatever is before and after it. -/
def Reads (c : PosReader τ ε α) (bs : List τ) (a : α) : Prop :=
  ∀ before after, (before ++ (bs ++ after)).length < 2 ^ 63 →
    c (before ++ (bs ++ after)) before.length = .ok (a, before.length + bs.length)

/-- What `c` moves over is what it reads. -/
def Spans (c : PosReader τ ε α) : Prop :=
  ∀ b p a q, b.length < 2 ^ 63 → p ≤ b.length → c b p = .ok (a, q) →
    ∃ bs, b.drop p = bs ++ b.drop q ∧ q = p + bs.length ∧ Reads c bs a

/-- On `b`, `c` returns only what is in `Q`, with a position inside `b`, and stops only with what is
in `P`. -/
structure Guarded (P : ε → Prop) (b : List τ) (Q : α → Prop) (c : PosReader τ ε α) : Prop where
  returns : ∀ p a q, p ≤ b.length → c b p = .ok (a, q) → q ≤ b.length ∧ Q a
  stops : ∀ p e, p ≤ b.length → c b p = .error e → P e

/-! ### Sequences -/

lemma bind_apply (c : PosReader τ ε α) (f : α → PosReader τ ε β) (b : List τ) (p : ℕ) :
    (c >>= f) b p = c b p >>= fun x => f x.1 b x.2 := rfl

/-- A sequence reads what its parts read. -/
lemma bind_eq_ok {c : PosReader τ ε α} {f : α → PosReader τ ε β} {b : List τ} {p r : ℕ} {y : β} :
    (c >>= f) b p = .ok (y, r) ↔ ∃ a q, c b p = .ok (a, q) ∧ f a b q = .ok (y, r) := by
  rw [bind_apply]
  cases hc : c b p with
  | error e =>
      refine iff_of_false (fun h => ?_) ?_
      · cases h
      · rintro ⟨a, q, h, -⟩
        cases h
  | ok x =>
      constructor
      · exact fun h => ⟨x.1, x.2, rfl, h⟩
      · rintro ⟨a, q, h, hf⟩
        cases h
        exact hf

lemma bind_eq_error {c : PosReader τ ε α} {f : α → PosReader τ ε β} {b : List τ} {p : ℕ} {e : ε}
    (h : (c >>= f) b p = .error e) :
    c b p = .error e ∨ ∃ a q, c b p = .ok (a, q) ∧ f a b q = .error e := by
  rw [bind_apply] at h
  cases hc : c b p with
  | error e' =>
      rw [hc] at h
      cases h
      exact Or.inl rfl
  | ok x =>
      rw [hc] at h
      exact Or.inr ⟨x.1, x.2, rfl, h⟩

lemma Reads.pure (a : α) : Reads (Pure.pure a : PosReader τ ε α) [] a := fun _ _ _ => rfl

lemma Reads.bind {c : PosReader τ ε α} {f : α → PosReader τ ε β} {bs cs : List τ} {a : α} {y : β}
    (h : Reads c bs a) (hf : Reads (f a) cs y) : Reads (c >>= f) (bs ++ cs) y := by
  intro before after hlen
  have h1 := h before (cs ++ after) (by simpa using hlen)
  have h2 := hf (before ++ bs) after (by simpa using hlen)
  rw [List.append_assoc] at h2
  rw [List.append_assoc, bind_apply, h1, List.length_append, ← Nat.add_assoc, ← List.length_append]
  exact h2

/-- The last step of a sequence. -/
lemma Reads.ret {c : PosReader τ ε α} {bs : List τ} {a : α} (h : Reads c bs a) (f : α → β) :
    Reads (c >>= fun x => Pure.pure (f x)) bs (f a) := by
  have h1 : Reads (c >>= fun x => Pure.pure (f x)) (bs ++ []) (f a) := h.bind (Reads.pure (f a))
  rwa [List.append_nil] at h1

lemma Spans.pure (a : α) : Spans (Pure.pure a : PosReader τ ε α) := by
  rintro b p a' q _ _ h
  cases h
  exact ⟨[], rfl, rfl, Reads.pure a⟩

lemma Spans.throw (e : ε) : Spans (MonadExcept.throw e : PosReader τ ε α) := by
  rintro b p a q _ _ h
  cases h

/-- A span ends inside the string. -/
lemma le_of_drop_eq {b bs : List τ} {p q : ℕ} (hp : p ≤ b.length) (hq : q = p + bs.length)
    (h : b.drop p = bs ++ b.drop q) : q ≤ b.length := by
  have hlen := congrArg List.length h
  rw [List.length_append, List.length_drop, List.length_drop] at hlen
  omega

lemma Spans.bind {c : PosReader τ ε α} {f : α → PosReader τ ε β} (h : Spans c)
    (hf : ∀ a, Spans (f a)) : Spans (c >>= f) := by
  intro b p y r hb hp hr
  obtain ⟨a, q, hc, hr⟩ := bind_eq_ok.mp hr
  obtain ⟨bs, hbs, hq, hreads⟩ := h b p a q hb hp hc
  obtain ⟨cs, hcs, hr', hreads'⟩ := hf a b q y r hb (le_of_drop_eq hp hq hbs) hr
  refine ⟨bs ++ cs, ?_, ?_, hreads.bind hreads'⟩
  · rw [hbs, hcs, List.append_assoc]
  · rw [hr', hq, List.length_append, Nat.add_assoc]

lemma Guarded.pure {P : ε → Prop} {b : List τ} {Q : α → Prop} {a : α} (ha : Q a) :
    Guarded P b Q (Pure.pure a) := by
  constructor
  · intro p a' q hp h
    cases h
    exact ⟨hp, ha⟩
  · intro p e _ h
    cases h

lemma Guarded.throw {P : ε → Prop} {b : List τ} {Q : α → Prop} {e : ε} (he : P e) :
    Guarded P b Q (MonadExcept.throw e) := by
  constructor
  · intro p a q _ h
    cases h
  · intro p e' _ h
    cases h
    exact he

/-- The second part of a sequence may rely on what the first one returns. -/
lemma Guarded.bind {P : ε → Prop} {b : List τ} {Q : α → Prop} {Q' : β → Prop} {c : PosReader τ ε α}
    {f : α → PosReader τ ε β} (h : Guarded P b Q c) (hf : ∀ a, Q a → Guarded P b Q' (f a)) :
    Guarded P b Q' (c >>= f) := by
  constructor
  · intro p y r hp hr
    obtain ⟨a, q, hc, hr⟩ := bind_eq_ok.mp hr
    obtain ⟨hq, ha⟩ := h.returns p a q hp hc
    exact (hf a ha).returns q y r hq hr
  · intro p e hp he
    rcases bind_eq_error he with hc | ⟨a, q, hc, he⟩
    · exact h.stops p e hp hc
    · obtain ⟨hq, ha⟩ := h.returns p a q hp hc
      exact (hf a ha).stops q e hq he

lemma Guarded.mono {P : ε → Prop} {b : List τ} {Q Q' : α → Prop} {c : PosReader τ ε α}
    (h : Guarded P b Q c) (hQ : ∀ a, Q a → Q' a) : Guarded P b Q' c :=
  ⟨fun p a q hp hc => ⟨(h.returns p a q hp hc).1, hQ a (h.returns p a q hp hc).2⟩, h.stops⟩

/-! ### Tokens -/

/-- The next token; a position past the machine word is an overflow. -/
def next (eof overflow : ε) : PosReader τ ε τ := fun b p =>
  match b[p]? with
  | none => .error eof
  | some t => if p + 1 < 2 ^ 64 then .ok (t, p + 1) else .error overflow

/-- The next `n` tokens. -/
def take (eof : ε) (n : ℕ) : PosReader τ ε (List τ) := fun b p =>
  if p + n < 2 ^ 64 ∧ p + n ≤ b.length then .ok ((b.drop p).take n, p + n) else .error eof

lemma reads_next (eof overflow : ε) (t : τ) : Reads (next eof overflow) [t] t := by
  intro before after hlen
  have hget : (before ++ ([t] ++ after))[before.length]? = some t := by simp
  have hlt : before.length + 1 < 2 ^ 64 := by
    simp only [List.length_append, List.length_singleton] at hlen
    omega
  rw [next, hget]
  exact if_pos hlt

/-- A tag. -/
lemma Reads.cons {eof overflow : ε} {f : τ → PosReader τ ε β} {t : τ} {bs : List τ} {y : β}
    (h : Reads (f t) bs y) : Reads (next eof overflow >>= f) (t :: bs) y :=
  (reads_next eof overflow t).bind h

lemma reads_take (eof : ε) (bs : List τ) : Reads (take eof bs.length) bs bs := by
  intro before after hlen
  simp only [List.length_append] at hlen
  have hle : before.length + bs.length < 2 ^ 64 ∧
      before.length + bs.length ≤ (before ++ (bs ++ after)).length := by
    simp only [List.length_append]
    omega
  rw [take, if_pos hle, List.drop_left, List.take_left]

lemma spans_next (eof overflow : ε) : Spans (next eof overflow : PosReader τ ε τ) := by
  intro b p t q _ _ h
  rw [next] at h
  split at h
  · cases h
  · rename_i t' ht
    split_ifs at h
    cases h
    obtain ⟨hp, rfl⟩ := List.getElem?_eq_some_iff.mp ht
    exact ⟨[b[p]], List.drop_eq_getElem_cons hp, rfl, reads_next _ _ _⟩

lemma spans_take (eof : ε) (n : ℕ) : Spans (take eof n : PosReader τ ε (List τ)) := by
  intro b p bs q _ _ h
  rw [take] at h
  split_ifs at h with hn
  cases h
  have hlen : ((b.drop p).take n).length = n := by
    rw [List.length_take, List.length_drop]
    omega
  refine ⟨(b.drop p).take n, ?_, by rw [hlen], ?_⟩
  · rw [← List.drop_drop, List.take_append_drop]
  · have hreads := reads_take eof ((b.drop p).take n)
    rwa [hlen] at hreads

lemma guarded_next {P : ε → Prop} {b : List τ} (hb : b.length < 2 ^ 63) {eof overflow : ε}
    (heof : P eof) : Guarded P b (fun _ => True) (next eof overflow) := by
  constructor
  · intro p t q _ h
    rw [next] at h
    split at h
    · cases h
    · rename_i t' ht
      obtain ⟨hp, -⟩ := List.getElem?_eq_some_iff.mp ht
      split_ifs at h
      cases h
      exact ⟨hp, trivial⟩
  · intro p e _ h
    rw [next] at h
    split at h
    · cases h
      exact heof
    · rename_i t ht
      obtain ⟨hp, -⟩ := List.getElem?_eq_some_iff.mp ht
      rw [if_pos (by omega)] at h
      cases h

lemma guarded_take {P : ε → Prop} {b : List τ} {eof : ε} (heof : P eof) (n : ℕ) :
    Guarded P b (fun bs => bs.length = n) (take eof n) := by
  constructor
  · intro p bs q _ h
    rw [take] at h
    split_ifs at h with hn
    cases h
    refine ⟨hn.2, ?_⟩
    rw [List.length_take, List.length_drop]
    omega
  · intro p e _ h
    rw [take] at h
    split_ifs at h
    cases h
    exact heof

/-! ### Tests -/

lemma Reads.test {P : Prop} [Decidable P] {c : PosReader τ ε α} {e : ε} {bs : List τ} {a : α}
    (hP : ¬P) (h : Reads c bs a) : Reads (if P then MonadExcept.throw e else c) bs a := by
  rwa [if_neg hP]

lemma Spans.test {P : Prop} [Decidable P] {c : PosReader τ ε α} {e : ε} (h : Spans c) :
    Spans (if P then MonadExcept.throw e else c) := by
  split_ifs
  · exact Spans.throw e
  · exact h

lemma Guarded.test {P : ε → Prop} {b : List τ} {Q : α → Prop} {T : Prop} [Decidable T]
    {c : PosReader τ ε α} {e : ε} (he : P e) (h : ¬T → Guarded P b Q c) :
    Guarded P b Q (if T then MonadExcept.throw e else c) := by
  split_ifs with hT
  · exact Guarded.throw he
  · exact h hT

/-! ### Lists -/

/-- `n` entries, one after the other. -/
def many (c : PosReader τ ε α) : ℕ → PosReader τ ε (List α)
  | 0 => Pure.pure []
  | n + 1 => do
      let a ← c
      let as ← many c n
      Pure.pure (a :: as)

lemma Reads.many {c : PosReader τ ε α} {put : α → List τ} {as : List α}
    (h : ∀ a ∈ as, Reads c (put a) a) : Reads (PosReader.many c as.length) (as.flatMap put) as := by
  induction as with
  | nil => exact Reads.pure []
  | cons a as ih =>
      have has := ih fun b hb => h b (List.mem_cons_of_mem _ hb)
      exact (h a List.mem_cons_self).bind (has.ret fun as => a :: as)

lemma Guarded.many {P : ε → Prop} {b : List τ} {Q : α → Prop} {c : PosReader τ ε α}
    (h : Guarded P b Q c) (n : ℕ) :
    Guarded P b (fun as => as.length = n ∧ ∀ a ∈ as, Q a) (PosReader.many c n) := by
  induction n with
  | zero => exact Guarded.pure ⟨rfl, fun a ha => absurd ha List.not_mem_nil⟩
  | succ n ih =>
      refine h.bind fun a ha => ih.bind fun as has =>
        Guarded.pure ⟨by rw [List.length_cons, has.1], ?_⟩
      intro x hx
      rcases List.mem_cons.mp hx with rfl | hx
      · exact ha
      · exact has.2 x hx

lemma length_many {c : PosReader τ ε α} {n : ℕ} {b : List τ} {p q : ℕ} {as : List α}
    (h : PosReader.many c n b p = .ok (as, q)) : as.length = n := by
  induction n generalizing p as with
  | zero =>
      cases h
      rfl
  | succ n ih =>
      obtain ⟨a, r, -, h⟩ := bind_eq_ok.mp h
      obtain ⟨as', r', has, h⟩ := bind_eq_ok.mp h
      cases h
      rw [List.length_cons, ih has]

/-- **A counted list is read piece by piece**: what it moves over is cut in one piece an entry. -/
lemma many_pieces {c : PosReader τ ε α} (hc : Spans c) {n : ℕ} {b : List τ} {p q : ℕ} {as : List α}
    (hb : b.length < 2 ^ 63) (hp : p ≤ b.length) (h : PosReader.many c n b p = .ok (as, q)) :
    ∃ pieces : List (List τ), List.Forall₂ (Reads c) pieces as ∧
      b.drop p = pieces.flatten ++ b.drop q ∧ q = p + pieces.flatten.length := by
  induction n generalizing p as with
  | zero =>
      cases h
      exact ⟨[], .nil, rfl, rfl⟩
  | succ n ih =>
      obtain ⟨a, r, ha, h⟩ := bind_eq_ok.mp h
      obtain ⟨as', r', has, h⟩ := bind_eq_ok.mp h
      cases h
      obtain ⟨bs, hbs, hr, hreads⟩ := hc b p a r hb hp ha
      obtain ⟨pieces, hall, hdrop, hq⟩ := ih (le_of_drop_eq hp hr hbs) has
      refine ⟨bs :: pieces, .cons hreads hall, ?_, ?_⟩
      · rw [hbs, hdrop, List.flatten_cons, List.append_assoc]
      · rw [hq, hr, List.flatten_cons, List.length_append, Nat.add_assoc]

/-- Pieces that are read one by one are read as a list. -/
lemma reads_many {c : PosReader τ ε α} {pieces : List (List τ)} {as : List α}
    (h : List.Forall₂ (Reads c) pieces as) :
    Reads (PosReader.many c as.length) pieces.flatten as := by
  induction h with
  | nil => exact Reads.pure []
  | @cons bs a pieces as hreads _ ih => exact hreads.bind (ih.ret fun as => a :: as)

lemma Spans.many {c : PosReader τ ε α} (hc : Spans c) (n : ℕ) : Spans (PosReader.many c n) := by
  intro b p as q hb hp h
  obtain ⟨pieces, hall, hdrop, hq⟩ := many_pieces hc hb hp h
  refine ⟨pieces.flatten, hdrop, hq, ?_⟩
  have hreads := reads_many hall
  rwa [length_many h] at hreads

/-! ### LEB128 -/

/-- At most `n` more bytes, the first one `shift` bits up; the bits past the 64th are refused. -/
def uvGroups (bad overflow : ε) : ℕ → ℕ → ℕ → PosReader UInt8 ε ℕ
  | 0, _, _ => throw bad
  | n + 1, shift, v => do
      let byte ← next bad overflow
      if shift = 63 ∧ 1 < byte.toNat then throw bad
      else if byte.toNat < 128 then Pure.pure (Codec.addGroup v shift byte)
      else uvGroups bad overflow n (shift + 7) (Codec.addGroup v shift byte)

/-- A varint of at most 64 bits. -/
def uv (bad overflow : ε) : PosReader UInt8 ε ℕ := uvGroups bad overflow 10 0 0

lemma spans_uvGroups (bad overflow : ε) (n shift v : ℕ) :
    Spans (uvGroups bad overflow n shift v) := by
  induction n generalizing shift v with
  | zero => exact Spans.throw bad
  | succ n ih =>
      refine (spans_next bad overflow).bind fun byte => Spans.test ?_
      split_ifs
      · exact Spans.pure _
      · exact ih _ _

lemma spans_uv (bad overflow : ε) : Spans (uv bad overflow) := spans_uvGroups bad overflow 10 0 0

/-- A varint is below `2 ^ 64`. -/
lemma guarded_uv {P : ε → Prop} {b : List UInt8} (hb : b.length < 2 ^ 63) {bad overflow : ε}
    (hbad : P bad) : Guarded P b (fun v => v < 2 ^ 64) (uv bad overflow) := by
  have key : ∀ n shift v, v < 2 ^ 64 →
      Guarded P b (fun v => v < 2 ^ 64) (uvGroups bad overflow n shift v) := by
    intro n
    induction n with
    | zero => exact fun _ _ _ => Guarded.throw hbad
    | succ n ih =>
        intro shift v hv
        refine (guarded_next hb hbad).bind fun byte _ => Guarded.test hbad fun _ => ?_
        have hg : Codec.addGroup v shift byte < 2 ^ 64 :=
          Nat.or_lt_two_pow hv (Nat.mod_lt _ (by norm_num))
        split_ifs
        · exact Guarded.pure hg
        · exact ih _ _ hg
  exact key 10 0 0 (by norm_num)

/-- **A 64-bit value is read back.** -/
lemma reads_uv (bad overflow : ε) {v : ℕ} (hv : v < 2 ^ 64) :
    Reads (uv bad overflow) (Codec.putVarint v) v := by
  have key : ∀ n w shift v, v < 2 ^ shift → w < 128 ^ n → w * 2 ^ shift < 2 ^ 64 → 0 < n →
      Reads (uvGroups bad overflow n shift v) (Codec.putGroups n w) (v + w * 2 ^ shift) := by
    intro n
    induction n with
    | zero => exact fun _ _ _ _ _ _ h => absurd h (Nat.lt_irrefl 0)
    | succ n ih =>
        intro w shift v hv hn hw _
        -- at the last shift one bit is left
        have hlast : shift = 63 → w ≤ 1 := by
          rintro rfl
          omega
        rw [Codec.putGroups, uvGroups]
        split_ifs with h0
        · have hmod : w % 128 = w := by omega
          have hg := Codec.addGroup_eq (b := UInt8.ofNat (w % 128))
            (by rw [Codec.toNat_last]; omega) hv hw
          refine Reads.cons (Reads.test ?_ ?_)
          · rw [Codec.toNat_last]
            rintro ⟨hs, h1⟩
            have := hlast hs
            omega
          · rw [if_pos (by rw [Codec.toNat_last]; omega), hg, hmod]
            exact Reads.pure _
        · have hg := Codec.addGroup_eq (b := UInt8.ofNat (w % 128 + 128))
            (by rw [Codec.toNat_more]; omega) hv hw
          obtain ⟨hlt, hsum⟩ := Codec.addGroup_step (w := w) hv
          have hlt' : w / 128 < 128 ^ n := by
            rw [Nat.div_lt_iff_lt_mul (by omega), ← Nat.pow_succ]
            exact hn
          have hn' : 0 < n := by
            rcases Nat.eq_zero_or_pos n with rfl | h
            · rw [Nat.pow_zero] at hlt'
              omega
            · exact h
          refine Reads.cons (Reads.test ?_ ?_)
          · rintro ⟨hs, -⟩
            have := hlast hs
            omega
          · rw [if_neg (by rw [Codec.toNat_more]; omega), hg, ← hsum]
            exact ih _ _ _ hlt hlt' (by omega) hn'
  have h := key 10 v 0 0 (by simp) (lt_trans hv (by norm_num)) (by omega) (by omega)
  rwa [Nat.pow_zero, Nat.mul_one, Nat.zero_add] at h

end PosReader
