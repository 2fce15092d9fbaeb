import Mathlib.Algebra.BigOperators.Group.List.Basic
import Mathlib.Algebra.Group.Nat.Defs
import XarkCircuit.Lib.Succeeds
import XarkCircuit.Time.Text

/-!
What calendar times as texts stand for.

* `parse_dateText` and `parse_format`: a written date or moment is read back.
* `parse_offset`: the offset of a zone is subtracted, for every text before it.
* `parse_fraction`: a fraction of a second is dropped.
-/

namespace XarkCircuit

namespace Calendar

open Text Succeeding

/-! ### Characters -/

lemma utf8Size_of_isDigit {c : Char} (h : c.isDigit) : c.utf8Size = 1 := by
  rw [Char.isDigit, Bool.and_eq_true, decide_eq_true_iff, decide_eq_true_iff] at h
  rw [Char.utf8Size, if_pos]
  exact UInt32.le_trans h.2 (by decide)

lemma utf8Len_of_digits {t : List Char} (h : ∀ c ∈ t, c.isDigit) : utf8Len t = t.length := by
  have hone : ∀ n ∈ t.map Char.utf8Size, n = 1 := by
    intro n hn
    obtain ⟨c, hc, rfl⟩ := List.mem_map.mp hn
    exact utf8Size_of_isDigit (h c hc)
  rw [utf8Len, List.eq_replicate_of_mem hone, List.sum_replicate, List.length_map, nsmul_eq_mul,
    Nat.mul_one, Nat.cast_id]

lemma isWhitespace_of_isDigit {c : Char} (h : c.isDigit) : isWhitespace c = false := by
  rw [Char.isDigit, Bool.and_eq_true, decide_eq_true_iff, decide_eq_true_iff] at h
  have h48 : 48 ≤ c.toNat := UInt32.le_iff_toNat_le.mp h.1
  have h57 : c.toNat ≤ 57 := UInt32.le_iff_toNat_le.mp h.2
  simp only [isWhitespace, decide_eq_false_iff_not]
  omega

/-- A digit is no separator. -/
lemma ne_of_isDigit {c d : Char} (h : c.isDigit) (hd : d.isDigit = false) : c ≠ d := by
  rintro rfl
  rw [h] at hd
  cases hd

/-! ### Numbers -/

lemma num_padded (w : ℕ) {n : ℕ} (h : n < 2 ^ 63) : num (padded w n) = some (n : ℤ) := by
  rw [num, natOf_padded]
  exact if_pos h

lemma numOr_padded (e : TimeError) (w : ℕ) {n : ℕ} (h : n < 2 ^ 63) :
    numOr e (padded w n) = .ok (n : ℤ) := by
  rw [numOr, num_padded w h]

lemma utf8Len_padded {w n : ℕ} (hw : 0 < w) (h : n < 10 ^ w) : utf8Len (padded w n) = w := by
  rw [utf8Len_of_digits isDigit_of_mem_padded, length_padded hw h]

lemma natOf_of_num {t : List Char} {n : ℤ} (h : num t = some n) : ∃ k, natOf t = some k ∧ n = k := by
  rw [num] at h
  split at h
  · rename_i k hk
    split_ifs at h
    exact ⟨k, hk, (Option.some.inj h).symm⟩
  · cases h

lemma numOr_eq_ok {e : TimeError} {t : List Char} {n : ℤ} : numOr e t = .ok n ↔ num t = some n := by
  rw [numOr]
  cases num t with
  | none => simp
  | some k => simp

/-! ### Dates -/

/-- A written calendar day is read as its midnight. -/
lemma parseDate_dateText (s : List Char) {y m d : ℕ} (hy : y ≤ 9999) (h : IsDay y m d) :
    parseDate s (dateText y m d) = .ok (daysFromCivil y m d * DAY) := by
  obtain ⟨hm1, hm12, hd1, hd⟩ := h
  have hd31 : d ≤ 31 := by
    rw [daysInMonth] at hd
    split_ifs at hd <;> omega
  have hdash : ∀ {w n}, '-' ∉ padded w n := fun hmem =>
    ne_of_isDigit (isDigit_of_mem_padded _ hmem) (by decide) rfl
  have hsplit : (dateText y m d).splitOn '-' = [padded 4 y, padded 2 m, padded 2 d] := by
    rw [dateText, List.splitOn_append_cons_self, List.splitOn_append_cons_self,
      List.splitOn_eq_singleton hdash, List.splitOn_eq_singleton hdash,
      List.splitOn_eq_singleton hdash]
    rfl
  rw [parseDate, hsplit]
  dsimp only
  rw [if_pos ⟨utf8Len_padded (by norm_num) (by omega), utf8Len_padded (by norm_num) (by omega),
    utf8Len_padded (by norm_num) (by omega)⟩, numOr_padded _ _ (by omega),
    numOr_padded _ _ (by omega), numOr_padded _ _ (by omega)]
  simp only [bind, Except.bind, Int.toNat_natCast]
  rw [if_neg (by omega)]

lemma isDigit_of_num {t : List Char} {n : ℤ} (h : num t = some n) : ∀ c ∈ t, c.isDigit := by
  obtain ⟨k, hk, -⟩ := natOf_of_num h
  exact isDigit_of_natOf hk

/-- A date that is read has only digits and dashes. -/
lemma chars_of_parseDate {s date : List Char} {n : ℤ} (h : parseDate s date = .ok n) :
    ∀ c ∈ date, c.isDigit ∨ c = '-' := by
  rw [parseDate] at h
  split at h
  · rename_i y m d hsplit
    split_ifs at h
    obtain ⟨ky, hy, h⟩ := bind_eq_ok.mp h
    obtain ⟨km, hm, h⟩ := bind_eq_ok.mp h
    obtain ⟨kd, hd, -⟩ := bind_eq_ok.mp h
    have hdate := @List.intercalate_splitOn _ date _ _ '-'
    rw [hsplit] at hdate
    intro c hc
    rw [← hdate] at hc
    simp only [List.intercalate, List.intersperse, List.flatten_cons, List.flatten_nil, List.append_nil,
      List.mem_append, List.mem_singleton] at hc
    rcases hc with hc | hc | hc | hc | hc
    · exact .inl (isDigit_of_num (numOr_eq_ok.mp hy) c hc)
    · exact .inr hc
    · exact .inl (isDigit_of_num (numOr_eq_ok.mp hm) c hc)
    · exact .inr hc
    · exact .inl (isDigit_of_num (numOr_eq_ok.mp hd) c hc)
  · cases h

/-! ### Zones -/

/-- `Z` is the zone of an instant. -/
lemma parseZone_utc (s clock : List Char) {z : Char} (hz : z = 'Z' ∨ z = 'z') :
    parseZone s (clock ++ [z]) = .ok (clock, 0) := by
  have hlast : (clock ++ [z]).getLast? = some z := List.getLast?_concat
  rw [parseZone, hlast, if_pos (by simpa using hz), List.dropLast_concat]

/-- `±HH:MM`, of any digits. -/
def zoneText (neg : Bool) (h mi : List Char) : List Char :=
  (if neg then '-' else '+') :: (h ++ ':' :: mi)

/-- The seconds that the zone is ahead. -/
def zoneOffset (neg : Bool) (h mi : ℤ) : ℤ := (if neg then -1 else 1) * (h * 3600 + mi * 60)

/-- A zone that is read: hours and minutes in range. -/
structure IsZone (h mi : List Char) (hours minutes : ℤ) : Prop where
  hours_num : num h = some hours
  minutes_num : num mi = some minutes
  hours_le : hours ≤ 23
  minutes_le : minutes ≤ 59

lemma IsZone.exists_last {h mi : List Char} {hours minutes : ℤ} (hz : IsZone h mi hours minutes)
    (neg : Bool) : ∃ pre c, zoneText neg h mi = pre ++ [c] ∧ c.isDigit := by
  obtain ⟨k, hk, -⟩ := natOf_of_num hz.minutes_num
  obtain ⟨pre, c, rfl⟩ : ∃ pre c, mi = pre ++ [c] :=
    ⟨_, _, (List.dropLast_append_getLast (ne_nil_of_natOf hk)).symm⟩
  exact ⟨(if neg then '-' else '+') :: (h ++ ':' :: pre), c, by simp [zoneText],
    isDigit_of_num hz.minutes_num c (by simp)⟩

lemma IsZone.parseZone {h mi : List Char} {hours minutes : ℤ} (hz : IsZone h mi hours minutes)
    (s clock : List Char) (neg : Bool) :
    parseZone s (clock ++ zoneText neg h mi) = .ok (clock, zoneOffset neg hours minutes) := by
  have hh := isDigit_of_num hz.hours_num
  have hmi := isDigit_of_num hz.minutes_num
  obtain ⟨pre, c, hlast, hc⟩ := hz.exists_last neg
  have hutc : ¬((clock ++ zoneText neg h mi).getLast? = some 'Z' ∨
      (clock ++ zoneText neg h mi).getLast? = some 'z') := by
    rw [hlast, ← List.append_assoc, List.getLast?_concat, Option.some_inj, Option.some_inj]
    rintro (rfl | rfl)
    · exact absurd hc (by decide)
    · exact absurd hc (by decide)
  have hsign : splitLast (fun c => decide (c = '+' ∨ c = '-')) (clock ++ zoneText neg h mi)
      = some (clock, zoneText neg h mi) := by
    refine splitLast_append_cons (fun b hb => ?_) (by cases neg <;> rfl)
    rw [decide_eq_false_iff_not]
    rcases List.mem_append.mp hb with hb | hb
    · exact not_or.mpr ⟨ne_of_isDigit (hh b hb) (by decide), ne_of_isDigit (hh b hb) (by decide)⟩
    · rcases List.mem_cons.mp hb with rfl | hb
      · decide
      · exact not_or.mpr ⟨ne_of_isDigit (hmi b hb) (by decide), ne_of_isDigit (hmi b hb) (by decide)⟩
  have hcolon : splitFirst (fun c => decide (c = ':')) (zoneText neg h mi).tail = some (h, mi) :=
    splitFirst_append_cons
      (fun b hb => by rw [decide_eq_false_iff_not]; exact ne_of_isDigit (hh b hb) (by decide)) rfl
  obtain ⟨k, -, hk⟩ := natOf_of_num hz.hours_num
  have hlen : (Nat.toDigits 10 hours.toNat).length ≤ 2 := by
    refine (Nat.length_toDigits_le_iff (by decide) (by decide)).mpr ?_
    have hle := hz.hours_le
    omega
  have hle := hz.hours_le
  have hle' := hz.minutes_le
  rw [Calendar.parseZone, if_neg hutc, hsign]
  dsimp only
  rw [hcolon]
  dsimp only
  rw [numOr_eq_ok.mpr hz.hours_num, numOr_eq_ok.mpr hz.minutes_num]
  simp only [bind, Except.bind]
  rw [if_neg (by omega), zoneOffset]
  cases neg <;> rfl

/-- The zones of a date-time, and their offsets in seconds. -/
inductive Zone : List Char → ℤ → Prop
  | utc (z : Char) : z = 'Z' ∨ z = 'z' → Zone [z] 0
  | offset (neg : Bool) {h mi : List Char} {hours minutes : ℤ} : IsZone h mi hours minutes →
      Zone (zoneText neg h mi) (zoneOffset neg hours minutes)

lemma Zone.parseZone {z : List Char} {off : ℤ} (hz : Zone z off) (s clock : List Char) :
    parseZone s (clock ++ z) = .ok (clock, off) := by
  cases hz with
  | utc z h => exact parseZone_utc s clock h
  | offset neg h => exact h.parseZone s clock neg

/-! ### Date-times -/

/-- Where the date ends. -/
def isT (c : Char) : Bool := c = 'T' ∨ c = 't'

/-- The end of a date-time: there is no `T` in it, and no date ends with it. -/
structure Tail (z : List Char) : Prop where
  ends : ∃ a b, isWhitespace a = false ∧ isWhitespace b = false ∧
    ∃ m, z = a :: m ∧ ∃ m', z = m' ++ [b]
  noT : ∀ c ∈ z, isT c = false
  noDate : ∃ c ∈ z, c.isDigit = false ∧ c ≠ '-'

/-- The text matters only where there is an error. -/
lemma parseDate_congr (s s' : List Char) {date : List Char} {n : ℤ} (h : parseDate s date = .ok n) :
    parseDate s' date = .ok n := by
  rw [parseDate] at h ⊢
  split at h
  · split_ifs at h ⊢
    obtain ⟨ky, hy, h⟩ := bind_eq_ok.mp h
    obtain ⟨km, hm, h⟩ := bind_eq_ok.mp h
    obtain ⟨kd, hd, h⟩ := bind_eq_ok.mp h
    split_ifs at h with hday
    refine bind_eq_ok.mpr ⟨ky, numOr_eq_ok.mpr (numOr_eq_ok.mp hy), ?_⟩
    refine bind_eq_ok.mpr ⟨km, numOr_eq_ok.mpr (numOr_eq_ok.mp hm), ?_⟩
    refine bind_eq_ok.mpr ⟨kd, numOr_eq_ok.mpr (numOr_eq_ok.mp hd), ?_⟩
    rw [if_neg hday]
    exact h
  · cases h

lemma dropFraction_congr (s s' : List Char) {clock c : List Char}
    (h : dropFraction s clock = .ok c) : dropFraction s' clock = .ok c := by
  rw [dropFraction] at h ⊢
  split at h
  · split_ifs at h ⊢
    exact h
  · exact h

lemma parseClock_congr (s s' : List Char) {clock : List Char} {n : ℤ}
    (h : parseClock s clock = .ok n) : parseClock s' clock = .ok n := by
  obtain ⟨c, hc, h⟩ := bind_eq_ok.mp h
  refine bind_eq_ok.mpr ⟨c, dropFraction_congr s s' hc, ?_⟩
  dsimp only at h ⊢
  split_ifs at h with hbad
  rw [if_neg hbad]
  obtain ⟨hh, hh', h⟩ := bind_eq_ok.mp h
  obtain ⟨mi, hmi, h⟩ := bind_eq_ok.mp h
  refine bind_eq_ok.mpr ⟨hh, numOr_eq_ok.mpr (numOr_eq_ok.mp hh'), ?_⟩
  refine bind_eq_ok.mpr ⟨mi, numOr_eq_ok.mpr (numOr_eq_ok.mp hmi), ?_⟩
  split at h
  · obtain ⟨sec, hsec, h⟩ := bind_eq_ok.mp h
    split_ifs at h with htime
    refine bind_eq_ok.mpr ⟨sec, hsec, ?_⟩
    rw [if_neg htime]
    exact h
  · obtain ⟨sec, hsec, h⟩ := bind_eq_ok.mp h
    split_ifs at h with htime
    refine bind_eq_ok.mpr ⟨sec, numOr_eq_ok.mpr (numOr_eq_ok.mp hsec), ?_⟩
    rw [if_neg htime]
    exact h

lemma isT_of_isDigit {c : Char} (h : c.isDigit) : isT c = false := by
  rw [isT, decide_eq_false_iff_not]
  exact not_or.mpr ⟨ne_of_isDigit h (by decide), ne_of_isDigit h (by decide)⟩

lemma Zone.tail {z : List Char} {off : ℤ} (hz : Zone z off) : Tail z := by
  cases hz with
  | utc z h =>
      rcases h with rfl | rfl
      · exact ⟨⟨'Z', 'Z', by decide, by decide, [], rfl, [], rfl⟩, by simp [isT], 'Z', by simp⟩
      · exact ⟨⟨'z', 'z', by decide, by decide, [], rfl, [], rfl⟩, by simp [isT], 'z', by simp⟩
  | @offset neg h mi hours minutes hz =>
      obtain ⟨pre, c, hlast, hc⟩ := hz.exists_last neg
      have hh := isDigit_of_num hz.hours_num
      have hmi := isDigit_of_num hz.minutes_num
      refine ⟨⟨if neg then '-' else '+', c, by cases neg <;> decide, isWhitespace_of_isDigit hc, _,
        rfl, pre, hlast⟩, fun d hd => ?_, ':', by simp [zoneText], by decide, by decide⟩
      simp only [zoneText, List.mem_cons, List.mem_append] at hd
      rcases hd with rfl | hd | rfl | hd
      · cases neg <;> decide
      · exact isT_of_isDigit (hh d hd)
      · decide
      · exact isT_of_isDigit (hmi d hd)

/-- What stands before a fraction and a zone. -/
lemma Tail.fraction {z f : List Char} (hz : Tail z) (hf : (num f).isSome) : Tail ('.' :: (f ++ z)) := by
  obtain ⟨n, hn⟩ := Option.isSome_iff_exists.mp hf
  have hdigits := isDigit_of_num hn
  obtain ⟨a, b, -, hb, m, rfl, m', hm'⟩ := hz.ends
  refine ⟨⟨'.', b, by decide, hb, _, rfl, '.' :: (f ++ m'), ?_⟩, fun c hc => ?_, '.', by simp, by decide,
    by decide⟩
  · rw [hm', List.cons_append, List.append_assoc]
  · rcases List.mem_cons.mp hc with rfl | hc
    · decide
    · rcases List.mem_append.mp hc with hc | hc
      · exact isT_of_isDigit (hdigits c hc)
      · exact hz.noT c hc

/-- How a text that ends with a zone is read. -/
lemma parse_append {z : List Char} (hz : Tail z) (s : List Char) :
    parse (s ++ z) = (match splitFirst isT (s.dropWhile isWhitespace ++ z) with
      | none => parseDate (s ++ z) (s.dropWhile isWhitespace ++ z)
      | some (date, time) => (do
        let midnight ← parseDate (s ++ z) date
        let (clock, offset) ← parseZone (s ++ z) time
        let seconds ← parseClock (s ++ z) clock
        .ok (midnight + seconds - offset))) := by
  obtain ⟨a, b, ha, hb, hends⟩ := hz.ends
  have htrim : trim (s ++ z) = s.dropWhile isWhitespace ++ z := trimmed_append ha hb hends
  rw [parse, htrim]
  rfl

/-- What a date-time is read as, where it ends with `frac` and a zone. -/
lemma parse_tail_iff {z frac : List Char} {off : ℤ} (hz : Tail z)
    (hzone : ∀ s clock, parseZone s (clock ++ z) = .ok (clock ++ frac, off)) (s : List Char) (n : ℤ) :
    parse (s ++ z) = .ok n ↔ ∃ date rest midnight seconds,
      splitFirst isT (s.dropWhile isWhitespace) = some (date, rest) ∧
      parseDate [] date = .ok midnight ∧ parseClock [] (rest ++ frac) = .ok seconds ∧
      n = midnight + seconds - off := by
  rw [parse_append hz]
  rcases exists_first isT (s.dropWhile isWhitespace) with hnone | ⟨date, t, rest, hs, ht, hdate⟩
  · have hall : ∀ c ∈ s.dropWhile isWhitespace ++ z, isT c = false := fun c hc =>
      (List.mem_append.mp hc).elim (hnone c) (hz.noT c)
    rw [splitFirst_none hall, splitFirst_none hnone]
    constructor
    · intro h
      obtain ⟨c, hc, hdigit, hdash⟩ := hz.noDate
      rcases chars_of_parseDate h c (List.mem_append_right _ hc) with h' | h'
      · rw [h'] at hdigit
        cases hdigit
      · exact absurd h' hdash
    · rintro ⟨date, rest, -, -, hsplit, -⟩
      cases hsplit
  · rw [hs, List.append_assoc, List.cons_append, splitFirst_append_cons hdate ht,
      splitFirst_append_cons hdate ht]
    constructor
    · intro h
      obtain ⟨midnight, hmidnight, h⟩ := bind_eq_ok.mp h
      obtain ⟨⟨clock, offset⟩, hclock, h⟩ := bind_eq_ok.mp h
      obtain ⟨rfl, rfl⟩ := Prod.mk.inj (Except.ok.inj (hclock.symm.trans (hzone _ _)))
      obtain ⟨seconds, hseconds, h⟩ := bind_eq_ok.mp h
      exact ⟨date, rest, midnight, seconds, rfl, parseDate_congr _ _ hmidnight,
        parseClock_congr _ _ hseconds, (Except.ok.inj h).symm⟩
    · rintro ⟨date', rest', midnight, seconds, hsplit, hmidnight, hseconds, rfl⟩
      obtain ⟨rfl, rfl⟩ := Prod.mk.inj (Option.some.inj hsplit)
      refine bind_eq_ok.mpr ⟨midnight, parseDate_congr _ _ hmidnight, ?_⟩
      refine bind_eq_ok.mpr ⟨(rest ++ frac, off), hzone _ _, ?_⟩
      exact bind_eq_ok.mpr ⟨seconds, parseClock_congr _ _ hseconds, rfl⟩

lemma Zone.parse_iff {z : List Char} {off : ℤ} (hz : Zone z off) (s : List Char) (n : ℤ) :
    parse (s ++ z) = .ok n ↔ ∃ date rest midnight seconds,
      splitFirst isT (s.dropWhile isWhitespace) = some (date, rest) ∧
      parseDate [] date = .ok midnight ∧ parseClock [] rest = .ok seconds ∧
      n = midnight + seconds - off := by
  have hzone := fun s clock => hz.parseZone s clock
  have hiff := @parse_tail_iff z [] off hz.tail (by simpa using hzone) s n
  simpa using hiff

/-- **The offset** of a zone is subtracted from the time in it. -/
theorem parse_offset {z : List Char} {off : ℤ} (hz : Zone z off) (s : List Char) (n : ℤ) :
    parse (s ++ z) = .ok n ↔ parse (s ++ ['Z']) = .ok (n + off) := by
  rw [hz.parse_iff, (Zone.utc 'Z' (.inl rfl)).parse_iff]
  constructor
  · rintro ⟨date, rest, midnight, seconds, hsplit, hm, hs, rfl⟩
    exact ⟨date, rest, midnight, seconds, hsplit, hm, hs, by omega⟩
  · rintro ⟨date, rest, midnight, seconds, hsplit, hm, hs, heq⟩
    exact ⟨date, rest, midnight, seconds, hsplit, hm, hs, by omega⟩

lemma parseClock_fraction {rest f : List Char} (hrest : '.' ∉ rest) (hf : (num f).isSome) (n : ℤ) :
    parseClock [] (rest ++ '.' :: f) = .ok n ↔ parseClock [] rest = .ok n := by
  have hdot : ∀ c ∈ rest, decide (c = '.') = false := fun c hc => by
    rw [decide_eq_false_iff_not]
    rintro rfl
    exact hrest hc
  have hwith : dropFraction [] (rest ++ '.' :: f) = .ok rest := by
    rw [dropFraction, splitFirst_append_cons hdot rfl]
    exact if_pos hf
  have hwithout : dropFraction [] rest = .ok rest := by
    rw [dropFraction, splitFirst_none hdot]
  rw [parseClock, parseClock, hwith, hwithout]

/-- **A fraction of a second** is dropped. -/
theorem parse_fraction {z : List Char} {off : ℤ} (hz : Zone z off) {s f : List Char} (hs : '.' ∉ s)
    (hf : (num f).isSome) (n : ℤ) : parse (s ++ '.' :: (f ++ z)) = .ok n ↔ parse (s ++ z) = .ok n := by
  have hzone : ∀ t clock, parseZone t (clock ++ '.' :: (f ++ z)) = .ok (clock ++ '.' :: f, off) :=
    fun t clock => by simpa using hz.parseZone t (clock ++ '.' :: f)
  rw [parse_tail_iff (hz.tail.fraction hf) hzone, hz.parse_iff]
  have hrest : ∀ {date rest}, splitFirst isT (s.dropWhile isWhitespace) = some (date, rest) →
      '.' ∉ rest := by
    intro date rest hsplit hmem
    rcases exists_first isT (s.dropWhile isWhitespace) with hnone | ⟨date', t, rest', heq, ht, hdate⟩
    · rw [splitFirst_none hnone] at hsplit
      cases hsplit
    · rw [heq, splitFirst_append_cons hdate ht] at hsplit
      obtain ⟨rfl, rfl⟩ := Prod.mk.inj (Option.some.inj hsplit)
      refine hs ((List.dropWhile_sublist isWhitespace).subset ?_)
      rw [heq]
      exact List.mem_append_right _ (List.mem_cons_of_mem _ hmem)
  constructor
  · rintro ⟨date, rest, midnight, seconds, hsplit, hm, hclock, heq⟩
    exact ⟨date, rest, midnight, seconds, hsplit, hm,
      (parseClock_fraction (hrest hsplit) hf _).mp hclock, heq⟩
  · rintro ⟨date, rest, midnight, seconds, hsplit, hm, hclock, heq⟩
    exact ⟨date, rest, midnight, seconds, hsplit, hm,
      (parseClock_fraction (hrest hsplit) hf _).mpr hclock, heq⟩

/-! ### Writing and reading -/

/-- A written time of day is read as its seconds. -/
lemma parseClock_clockText (s : List Char) {h mi sec : ℕ} (hh : h ≤ 23) (hmi : mi ≤ 59)
    (hsec : sec ≤ 59) : parseClock s (clockText h mi sec) = .ok ((h * 3600 + mi * 60 + sec : ℕ) : ℤ) := by
  have hno : ∀ {c : Char} {w n}, c.isDigit = false → c ∉ padded w n := fun hc hmem =>
    ne_of_isDigit (isDigit_of_mem_padded _ hmem) hc rfl
  have hdot : ∀ c ∈ clockText h mi sec, decide (c = '.') = false := by
    intro c hc
    rw [decide_eq_false_iff_not]
    rintro rfl
    have hpad : ∀ {w n}, '.' ∉ padded w n := hno (by decide)
    simp [clockText, hpad] at hc
  have hcolon : ∀ {w n}, ':' ∉ padded w n := hno (by decide)
  have hsplit : (clockText h mi sec).splitOn ':' = [padded 2 h, padded 2 mi, padded 2 sec] := by
    rw [clockText, List.splitOn_append_cons_self, List.splitOn_append_cons_self,
      List.splitOn_eq_singleton hcolon, List.splitOn_eq_singleton hcolon,
      List.splitOn_eq_singleton hcolon]
    rfl
  have hlen : ∀ {n}, n ≤ 59 → utf8Len (padded 2 n) = 2 := fun hn =>
    utf8Len_padded (by norm_num) (by omega)
  have hdrop : dropFraction s (clockText h mi sec) = .ok (clockText h mi sec) := by
    rw [dropFraction, splitFirst_none hdot]
  have hany : ([padded 2 h, padded 2 mi, padded 2 sec].any fun p => utf8Len p ≠ 2) = false := by
    simp [hlen (by omega : h ≤ 59), hlen hmi, hlen hsec]
  rw [parseClock, hdrop]
  simp only [bind, Except.bind]
  rw [hsplit, hany]
  simp only [List.length_cons, List.length_nil, List.getElem?_cons_zero, List.getElem?_cons_succ,
    Option.getD_some]
  rw [if_neg (by simp), numOr_padded _ _ (by omega), numOr_padded _ _ (by omega),
    numOr_padded _ _ (by omega)]
  dsimp only
  rw [if_neg (by omega)]
  push_cast
  rfl

lemma mem_dateText {y m d : ℕ} {c : Char} (h : c ∈ dateText y m d) : c.isDigit ∨ c = '-' := by
  simp only [dateText, List.mem_append, List.mem_cons] at h
  rcases h with h | h | h | h | h
  · exact .inl (isDigit_of_mem_padded c h)
  · exact .inr h
  · exact .inl (isDigit_of_mem_padded c h)
  · exact .inr h
  · exact .inl (isDigit_of_mem_padded c h)

/-- A written date begins and ends with a digit, and there is no `T` in it. -/
lemma exists_dateText (y m d : ℕ) : (∃ a l, dateText y m d = a :: l ∧ a.isDigit) ∧
    (∃ l b, dateText y m d = l ++ [b] ∧ b.isDigit) ∧ ∀ c ∈ dateText y m d, isT c = false := by
  refine ⟨?_, ?_, fun c hc => ?_⟩
  · obtain ⟨a, l, hl⟩ := List.exists_cons_of_ne_nil (ne_nil_of_natOf (natOf_padded 4 y))
    exact ⟨a, _, by rw [dateText, hl, List.cons_append],
      isDigit_of_mem_padded (w := 4) (n := y) a (by rw [hl]; exact List.mem_cons_self)⟩
  · have hlast := List.dropLast_append_getLast (ne_nil_of_natOf (natOf_padded 2 d))
    refine ⟨padded 4 y ++ '-' :: (padded 2 m ++ '-' :: (padded 2 d).dropLast), _, ?_,
      isDigit_of_mem_padded _ (List.getLast_mem (ne_nil_of_natOf (natOf_padded 2 d)))⟩
    rw [dateText, List.append_assoc, List.cons_append, List.append_assoc, List.cons_append, hlast]
  · rcases mem_dateText hc with h | rfl
    · exact isT_of_isDigit h
    · decide

/-- The parts of a moment in years 0 to 9999. -/
lemma exists_civil {s : ℤ} (h0 : 0 ≤ (civilFromDays (s / DAY)).1)
    (h9999 : (civilFromDays (s / DAY)).1 ≤ 9999) : ∃ y m d h mi sec : ℕ, y ≤ 9999 ∧ IsDay y m d ∧
      (h ≤ 23 ∧ mi ≤ 59 ∧ sec ≤ 59) ∧ daysFromCivil y m d = s / DAY ∧
      ((h * 3600 + mi * 60 + sec : ℕ) : ℤ) = s % DAY ∧ format s true = dateText y m d ∧
      format s false = dateText y m d ++ 'T' :: (clockText h mi sec ++ ['Z']) := by
  obtain ⟨hday, hdays⟩ := daysFromCivil_civilFromDays (s / DAY)
  obtain ⟨⟨y, m, d⟩, hcivil⟩ : ∃ civil, civilFromDays (s / DAY) = civil := ⟨_, rfl⟩
  rw [hcivil] at h0 h9999 hday hdays
  dsimp only at h0 h9999 hday hdays
  have hsecs : 0 ≤ s % DAY ∧ s % DAY < 86400 :=
    ⟨Int.emod_nonneg s (by decide), Int.emod_lt_of_pos s (by decide)⟩
  have hyear : ((y.toNat : ℕ) : ℤ) = y := Int.toNat_of_nonneg h0
  refine ⟨y.toNat, m, d, (s % DAY / 3600).toNat, (s % DAY / 60 % 60).toNat, (s % DAY % 60).toNat,
    by omega, by rwa [hyear], by omega, by rwa [hyear], by omega, ?_, ?_⟩
  · simp only [format, hcivil]
    rw [if_neg (by omega)]
    rfl
  · simp only [format, hcivil]
    rw [if_neg (by omega)]
    rfl

/-- **A written moment** in years 0 to 9999 is read as the moment. -/
theorem parse_format {s : ℤ} (h0 : 0 ≤ (civilFromDays (s / DAY)).1)
    (h9999 : (civilFromDays (s / DAY)).1 ≤ 9999) : parse (format s false) = .ok s := by
  obtain ⟨y, m, d, h, mi, sec, hy, hday, ⟨hh, hmi, hsec⟩, hdays, hsecs, -, hformat⟩ :=
    exists_civil h0 h9999
  obtain ⟨⟨a, l, hal, ha⟩, -, hT⟩ := exists_dateText y m d
  have hdrop : (dateText y m d ++ 'T' :: clockText h mi sec).dropWhile isWhitespace
      = dateText y m d ++ 'T' :: clockText h mi sec := by
    rw [hal, List.cons_append, List.dropWhile_cons_of_neg (by simp [isWhitespace_of_isDigit ha])]
  have hsplit := @splitFirst_append_cons _ isT _ (clockText h mi sec) 'T' hT rfl
  rw [hformat, ← List.cons_append, ← List.append_assoc, (Zone.utc 'Z' (.inl rfl)).parse_iff]
  refine ⟨dateText y m d, clockText h mi sec, _, _, by rw [hdrop, hsplit],
    parseDate_dateText [] hy hday, parseClock_clockText [] hh hmi hsec, ?_⟩
  rw [hdays, hsecs, sub_zero]
  exact (Int.ediv_mul_add_emod s DAY).symm

/-- A written date is read as its midnight. -/
theorem parse_format_date {s : ℤ} (h0 : 0 ≤ (civilFromDays (s / DAY)).1)
    (h9999 : (civilFromDays (s / DAY)).1 ≤ 9999) : parse (format s true) = .ok (s / DAY * DAY) := by
  obtain ⟨y, m, d, h, mi, sec, hy, hday, -, hdays, -, hformat, -⟩ := exists_civil h0 h9999
  obtain ⟨⟨a, l, hal, ha⟩, ⟨l', b, hlb, hb⟩, hT⟩ := exists_dateText y m d
  have htrim : trim (dateText y m d) = dateText y m d := by
    have happend := trimmed_append (l := []) (isWhitespace_of_isDigit ha) (isWhitespace_of_isDigit hb)
      ⟨l, hal, l', hlb⟩
    simpa [trim] using happend
  have hsplit : splitFirst (fun c => decide (c = 'T' ∨ c = 't')) (dateText y m d) = none :=
    splitFirst_none hT
  rw [hformat, parse, htrim, hsplit, ← hdays]
  exact parseDate_dateText _ hy hday

end Calendar

end XarkCircuit
