import XarkCircuit.Schema.Impls
import XarkCircuit.Time.TextSound

/-!
Moments as steps of a range of years, in the two crates that count them.

* `moment` reads a text as Unix seconds, and `TimeRange.steps` and `TimeRange.format` of the schema turn
  a moment into its step and back.
* `Input.TimeRange.fromUnix` is `Time::from_unix` of the language.
* `calendar_round_trips`: the calendar, its texts and the two ranges agree.
-/

namespace XarkCircuit

namespace Calendar

open Text Succeeding

/-! ### Moments -/

/-- The value of a digit in base 16. -/
def hexDigit (c : Char) : Option ℕ :=
  if c.isDigit then some (c.toNat - '0'.toNat)
  else if 'a' ≤ c ∧ c ≤ 'f' then some (c.toNat - 'a'.toNat + 10)
  else if 'A' ≤ c ∧ c ≤ 'F' then some (c.toNat - 'A'.toNat + 10)
  else none

/-- `integer` of a text: decimal digits, or `0x` and hex digits. -/
def integer (s : List Char) : Option ℕ :=
  let hex (h : List Char) : Option ℕ :=
    if h = [] then none else (h.mapM hexDigit).map (List.foldl (fun n d => 16 * n + d) 0)
  match trim s with
  | '0' :: 'x' :: h => hex h
  | '0' :: 'X' :: h => hex h
  | t => natOf t

/-- `signed` of a text. -/
def signed (s : List Char) : Option ℤ :=
  if (trim s).head? = some '-' then (integer (trim s).tail).map fun n => -(n : ℤ)
  else (integer s).map Int.ofNat

/-- `str::as_bytes`. -/
def asBytes (t : List Char) : List UInt8 := t.flatMap String.utf8EncodeChar

/-- A moment as Unix seconds: a date, a date-time with a zone, or a number of seconds. -/
def moment (s : List Char) : Except TimeError ℤ :=
  let t := trim s
  if 10 ≤ utf8Len t ∧ (asBytes t)[4]? = some 45 then parse t
  else
    match signed s with
    | none => .error (.notANumber s)
    | some n => if -2 ^ 63 ≤ n ∧ n < 2 ^ 63 then .ok n else .error (.outOfRange n)

/-! ### Ranges -/

/-- A `time` encoding's range: steps of `unit` seconds from the start of `fromYear` to the end of
`toYear`. -/
structure TimeRange where
  unit : ℤ
  fromYear : ℤ
  toYear : ℤ

/-- `TimeRange::start`. -/
def TimeRange.start (r : TimeRange) : ℤ := daysFromCivil r.fromYear 1 1 * DAY

/-- The step holding `secs`, rounded down, or why it is outside the range. -/
def TimeRange.steps (r : TimeRange) (secs : ℤ) : Except TimeError ℕ :=
  let stop := daysFromCivil (r.toYear + 1) 1 1 * DAY
  if secs < r.start ∨ stop ≤ secs then
    .error (.outside (format secs (r.unit % DAY = 0)) r.fromYear r.toYear)
  else .ok ((secs - r.start) / r.unit).toNat

/-- An `i64`, or nothing. -/
def checked (n : ℤ) : Option ℤ := if -2 ^ 63 ≤ n ∧ n < 2 ^ 63 then some n else none

/-- The moment a step starts, in checked arithmetic. -/
def TimeRange.secs (r : TimeRange) (steps : ℕ) : Option ℤ :=
  (checked steps).bind fun n => (checked (n * r.unit)).bind fun n => checked (n + r.start)

/-- A step, as the moment it starts. -/
def TimeRange.format (r : TimeRange) (steps : ℕ) : Except TimeError (List Char) :=
  (r.secs steps).elim (.error (.pastEveryTime steps)) fun secs =>
    .ok (Calendar.format secs (r.unit % DAY = 0))

end Calendar

/-- `Time::from_unix`. -/
def Input.TimeRange.fromUnix (t : Input.TimeRange) (seconds : ℤ) : Option ℕ :=
  if seconds < t.start ∨ t.stop ≤ seconds then none
  else some ((seconds - t.start) / t.unit).toNat

namespace Calendar

open Text Succeeding

/-- The range of a `Time`, as the schema has it. -/
def rangeOf (t : Input.TimeRange) : TimeRange := ⟨t.unit, t.fromYear, t.toYear⟩

/-! ### Years of days -/

/-- The days of a year are between its first day and the next year's. -/
lemma days_of_year {y : ℤ} {m d : ℕ} (h : IsDay y m d) :
    daysFromCivil y 1 1 ≤ daysFromCivil y m d ∧ daysFromCivil y m d < daysFromCivil (y + 1) 1 1 := by
  obtain ⟨hm1, hm12, hd1, hd⟩ := h
  rw [daysInMonth] at hd
  simp only [daysFromCivil_eq, dayOfYear, fromMarch]
  interval_cases m <;> norm_num at hd ⊢ <;> (try split_ifs at hd) <;> omega

/-- Years begin one after the other. -/
lemma daysFromCivil_mono {y y' : ℤ} (h : y ≤ y') : daysFromCivil y 1 1 ≤ daysFromCivil y' 1 1 := by
  simp only [daysFromCivil_eq, dayOfYear, fromMarch]
  norm_num
  omega

/-- The year of a day, from a year's first day. -/
lemma year_of_days (n y : ℤ) : daysFromCivil y 1 1 ≤ n ↔ y ≤ (civilFromDays n).1 := by
  obtain ⟨hday, hn⟩ := daysFromCivil_civilFromDays n
  obtain ⟨hlo, hhi⟩ := days_of_year hday
  rw [hn] at hlo hhi
  constructor
  · intro h
    by_contra hlt
    have hmono := @daysFromCivil_mono ((civilFromDays n).1 + 1) y (by omega)
    omega
  · intro h
    have hmono := daysFromCivil_mono h
    omega

/-! ### Texts of moments -/

lemma utf8Len_append (s t : List Char) : utf8Len (s ++ t) = utf8Len s + utf8Len t := by
  simp [utf8Len]

lemma asBytes_append (s t : List Char) : asBytes (s ++ t) = asBytes s ++ asBytes t :=
  List.flatMap_append

/-- A digit is one byte. -/
lemma asBytes_of_digits {t : List Char} (h : ∀ c ∈ t, c.isDigit) :
    asBytes t = t.map Char.toUInt8 := by
  induction t with
  | nil => rfl
  | cons c t ih =>
      have hc := utf8Size_of_isDigit (h c List.mem_cons_self)
      rw [asBytes, List.flatMap_cons, String.utf8EncodeChar_eq_singleton hc, List.map_cons,
        ← ih fun c' hc' => h c' (List.mem_cons_of_mem _ hc')]
      rfl

/-- A text that begins and ends with no white space. -/
lemma trim_eq {t : List Char} {a b : Char} (ha : isWhitespace a = false) (hb : isWhitespace b = false)
    (h : ∃ m, t = a :: m ∧ ∃ m', t = m' ++ [b]) : trim t = t := by
  have happend := @trimmed_append _ isWhitespace [] t a b ha hb h
  simpa [trim] using happend

/-- The text of a date, or of a date-time, is read as one. -/
lemma moment_date {y m d : ℕ} (hy : y ≤ 9999) (hm : m ≤ 12) (hd : d ≤ 31) {rest : List Char} {b : Char}
    (hb : isWhitespace b = false) (hend : ∃ l, dateText y m d ++ rest = l ++ [b]) :
    moment (dateText y m d ++ rest) = parse (dateText y m d ++ rest) := by
  obtain ⟨⟨a, l, hal, ha⟩, -, -⟩ := exists_dateText y m d
  have htrim : trim (dateText y m d ++ rest) = dateText y m d ++ rest :=
    trim_eq (isWhitespace_of_isDigit ha) hb ⟨l ++ rest, by rw [hal, List.cons_append], hend⟩
  have hlen : utf8Len (dateText y m d) = 10 := by
    have hdash : ∀ t, utf8Len ('-' :: t) = 1 + utf8Len t := fun t => rfl
    rw [dateText, utf8Len_append, hdash, utf8Len_append, hdash, utf8Len_padded (by norm_num) (by omega),
      utf8Len_padded (by norm_num) (by omega), utf8Len_padded (by norm_num) (by omega)]
  have hbyte : (asBytes (dateText y m d ++ rest))[4]? = some 45 := by
    have hfour : (asBytes (padded 4 y)).length = 4 := by
      rw [asBytes_of_digits isDigit_of_mem_padded, List.length_map,
        length_padded (by norm_num) (by omega)]
    rw [dateText, List.append_assoc, asBytes_append, List.getElem?_append_right hfour.le, hfour]
    rfl
  rw [moment]
  simp only [htrim]
  rw [if_pos ⟨by rw [utf8Len_append, hlen]; omega, hbyte⟩]

/-- The text of a number is read as the number. -/
lemma moment_digits {n : ℕ} (h : n < 2 ^ 63) : moment (Nat.toDigits 10 n) = .ok (n : ℤ) := by
  have hdigits : ∀ c ∈ Nat.toDigits 10 n, c.isDigit := fun c hc =>
    Nat.isDigit_of_mem_toDigits (by decide) (by decide) hc
  obtain ⟨a, l, hal⟩ := List.exists_cons_of_ne_nil (Nat.toDigits_ne_nil (n := n) (b := 10))
  have hlast := List.dropLast_append_getLast (Nat.toDigits_ne_nil (n := n) (b := 10))
  have ha : a.isDigit := hdigits a (by rw [hal]; exact List.mem_cons_self)
  have hb := hdigits _ (List.getLast_mem (Nat.toDigits_ne_nil (n := n) (b := 10)))
  have htrim : trim (Nat.toDigits 10 n) = Nat.toDigits 10 n :=
    trim_eq (isWhitespace_of_isDigit ha) (isWhitespace_of_isDigit hb) ⟨l, hal, _, hlast.symm⟩
  have hbyte : (asBytes (Nat.toDigits 10 n))[4]? ≠ some 45 := by
    rw [asBytes_of_digits hdigits, List.getElem?_map]
    intro heq
    obtain ⟨c, hc, hcode⟩ := Option.map_eq_some_iff.mp heq
    have hdigit := hdigits c (List.mem_of_getElem? hc)
    rw [Char.isDigit, Bool.and_eq_true, decide_eq_true_iff, decide_eq_true_iff] at hdigit
    have h48 : 48 ≤ c.toNat := UInt32.le_iff_toNat_le.mp hdigit.1
    have h57 : c.toNat ≤ 57 := UInt32.le_iff_toNat_le.mp hdigit.2
    have hnat := congrArg UInt8.toNat hcode
    rw [← Char.toUInt8_val, UInt32.toNat_toUInt8] at hnat
    change c.toNat % 256 = 45 at hnat
    omega
  have hnat : natOf (Nat.toDigits 10 n) = some n := by
    have hpadded := natOf_padded 0 n
    rwa [padded, Nat.zero_sub, List.replicate_zero, List.nil_append] at hpadded
  have hint : integer (Nat.toDigits 10 n) = some n := by
    rw [integer, htrim]
    split
    · rename_i h' heq
      have hx := hdigits 'x' (by rw [heq]; simp)
      exact absurd hx (by decide)
    · rename_i h' heq
      have hx := hdigits 'X' (by rw [heq]; simp)
      exact absurd hx (by decide)
    · exact hnat
  have hsigned : signed (Nat.toDigits 10 n) = some (n : ℤ) := by
    have hhead : ¬(Nat.toDigits 10 n).head? = some '-' := by
      rw [hal, List.head?_cons, Option.some_inj]
      exact ne_of_isDigit ha (by decide)
    rw [signed, htrim, if_neg hhead, hint]
    rfl
  rw [moment]
  simp only [htrim]
  rw [if_neg fun hand => hbyte hand.2, hsigned]
  exact if_pos (by omega)

/-- A written moment is read as the moment, if it is the start of a day where only the day is written,
and the year is not negative. -/
lemma moment_format {s : ℤ} (h0 : 0 ≤ (civilFromDays (s / DAY)).1) (h63 : s < 2 ^ 63) {dateOnly : Bool}
    (hday : dateOnly = true → s % DAY = 0) : moment (format s dateOnly) = .ok s := by
  by_cases h9999 : (civilFromDays (s / DAY)).1 ≤ 9999
  · obtain ⟨y, m, d, h, mi, sec, hy, hd, -, -, -, hdate, hfull⟩ := exists_civil h0 h9999
    have hd31 : d ≤ 31 := by
      have hle := hd.day_le
      rw [daysInMonth] at hle
      split_ifs at hle <;> omega
    cases dateOnly with
    | true =>
        obtain ⟨-, ⟨l, b, hlb, hb⟩, -⟩ := exists_dateText y m d
        have hread := @moment_date y m d hy hd.month_le hd31 [] b (isWhitespace_of_isDigit hb)
          ⟨l, by rw [List.append_nil, hlb]⟩
        rw [List.append_nil, ← hdate] at hread
        have hmod := hday rfl
        rw [hread, parse_format_date h0 h9999, Int.ediv_mul_cancel (Int.dvd_of_emod_eq_zero hmod)]
    | false =>
        have hread := @moment_date y m d hy hd.month_le hd31 ('T' :: (clockText h mi sec ++ ['Z'])) 'Z'
          (by decide) ⟨dateText y m d ++ 'T' :: clockText h mi sec, by simp⟩
        rw [← hfull] at hread
        rw [hread, parse_format h0 h9999]
  · have hyear : daysFromCivil 10000 1 1 ≤ s / DAY := (year_of_days _ _).mpr (by omega)
    have hpos : 0 ≤ s := by
      have hconst : daysFromCivil 10000 1 1 = 2932897 := by decide
      rw [hconst, DAY] at hyear
      omega
    have hformat : format s dateOnly = intText s := by
      rw [format]
      exact if_pos fun h => h9999 h.2
    have hdigits := @moment_digits s.natAbs (by omega)
    rw [hformat, intText, if_neg (by omega), hdigits, Int.natAbs_of_nonneg hpos]

/-! ### Agreement -/

variable (t : Input.TimeRange)

lemma start_eq : (rangeOf t).start = t.start := rfl

lemma stop_eq : daysFromCivil ((rangeOf t).toYear + 1) 1 1 * DAY = t.stop := rfl

/-- The range, in the years of a `u16`. -/
lemma range_bounds (hto : t.toYear < 2 ^ 16) :
    -62167219200 ≤ t.start ∧ t.start < t.stop ∧ t.stop ≤ 2005949145600 := by
  have hstart := @daysFromCivil_mono 0 t.fromYear (by omega)
  have hstop := @daysFromCivil_mono (t.toYear + 1) 65536 (by omega)
  have hlt := (days_of_year (y := t.fromYear) ⟨le_rfl, by norm_num, le_rfl, by norm_num [daysInMonth]⟩).2
  have hle := @daysFromCivil_mono (t.fromYear + 1) (t.toYear + 1) (by have := t.ordered; omega)
  have h0 : daysFromCivil 0 1 1 = -719528 := by decide
  have h65536 : daysFromCivil 65536 1 1 = 23217004 := by decide
  rw [h0] at hstart
  rw [h65536] at hstop
  have hs : t.start = daysFromCivil t.fromYear 1 1 * 86400 := rfl
  have he : t.stop = daysFromCivil (t.toYear + 1) 1 1 * 86400 := rfl
  omega

/-- The two crates accept the same moments, and give them the same step. -/
lemma steps_eq (secs : ℤ) : (rangeOf t).steps secs = match t.fromUnix secs with
    | some n => .ok n
    | none => .error (.outside (format secs ((rangeOf t).unit % DAY = 0)) t.fromYear t.toYear) := by
  rw [TimeRange.steps, stop_eq, start_eq, Input.TimeRange.fromUnix]
  split_ifs <;> rfl

/-- The number of steps, which no `u64` cuts off. -/
lemma steps_eq_div (hto : t.toYear < 2 ^ 16) :
    (t.steps : ℤ) = (t.stop - t.start - 1) / t.unit + 1 := by
  obtain ⟨hlo, hlt, hhi⟩ := range_bounds t hto
  have hunit : (0 : ℤ) < t.unit := by exact_mod_cast t.unit_pos
  have hnonneg : 0 ≤ (t.stop - t.start - 1) / t.unit := Int.ediv_nonneg (by omega) hunit.le
  have hle : (t.stop - t.start - 1) / t.unit ≤ t.stop - t.start - 1 :=
    Int.ediv_le_self _ (by omega)
  rw [Input.TimeRange.steps, Nat.mod_eq_of_lt (by omega)]
  omega

/-- A step is below the number of steps. -/
lemma fromUnix_lt (hto : t.toYear < 2 ^ 16) {secs : ℤ} {n : ℕ} (h : t.fromUnix secs = some n) :
    n < t.steps := by
  rw [Input.TimeRange.fromUnix] at h
  split_ifs at h with hout
  obtain rfl := Option.some.inj h
  have hunit : (0 : ℤ) < t.unit := by exact_mod_cast t.unit_pos
  have hnonneg : 0 ≤ (secs - t.start) / t.unit := Int.ediv_nonneg (by omega) hunit.le
  have hle : (secs - t.start) / t.unit ≤ (t.stop - t.start - 1) / t.unit :=
    Int.ediv_le_ediv hunit (by omega)
  have hsteps := steps_eq_div t hto
  omega

/-- A step fits its bits. -/
lemma lt_two_pow_bits {n : ℕ} (h : n < t.steps) : n < 2 ^ t.bits := by
  rw [Input.TimeRange.bits]
  split_ifs with hlast
  · omega
  · have hlog := @Nat.lt_log2_self (t.steps - 1)
    omega

/-- **A step**, as the moment it starts, is encoded as the step again. -/
lemma format_step (hto : t.toYear < 2 ^ 16) {n : ℕ} (h : n < t.steps) :
    ∃ text, (rangeOf t).format n = .ok text ∧ (moment text >>= (rangeOf t).steps) = .ok n := by
  obtain ⟨hlo, hlt, hhi⟩ := range_bounds t hto
  have hunit : (0 : ℤ) < t.unit := by exact_mod_cast t.unit_pos
  have hsteps := steps_eq_div t hto
  have hmul : (n : ℤ) * t.unit ≤ t.stop - t.start - 1 := by
    have hle : (n : ℤ) ≤ (t.stop - t.start - 1) / t.unit := by omega
    exact (Int.le_ediv_iff_mul_le hunit).mp hle
  have hn : (n : ℤ) ≤ n * t.unit := le_mul_of_one_le_right (by omega) (by omega)
  have hnonneg : (0 : ℤ) ≤ n := Int.natCast_nonneg n
  -- the moment the step starts
  obtain ⟨secs, hsecs⟩ : ∃ secs, secs = n * t.unit + t.start := ⟨_, rfl⟩
  have hchecked : ∀ x : ℤ, -62167219200 ≤ x → x ≤ 2005949145600 + 62167219200 → checked x = some x := by
    intro x hx hx'
    rw [checked, if_pos (by omega)]
  have hmul' : checked (n * (rangeOf t).unit) = some (n * t.unit) :=
    hchecked (n * t.unit) (by omega) (by omega)
  have hsecs' : checked (n * t.unit + (rangeOf t).start) = some secs := by
    rw [start_eq, ← hsecs, hchecked _ (by omega) (by omega)]
  have hsome : (rangeOf t).secs n = some secs :=
    Option.bind_eq_some_iff.mpr ⟨n, hchecked n (by omega) (by omega),
      Option.bind_eq_some_iff.mpr ⟨n * t.unit, hmul', hsecs'⟩⟩
  have hformat : (rangeOf t).format n
      = .ok (Calendar.format secs (decide ((rangeOf t).unit % DAY = 0))) := by
    rw [TimeRange.format, hsome, Option.elim_some]
  have hyear : 0 ≤ (civilFromDays (secs / DAY)).1 := by
    have h0 : daysFromCivil 0 1 1 = -719528 := by decide
    refine (year_of_days _ 0).mp ?_
    rw [h0, DAY]
    omega
  have hday : decide ((rangeOf t).unit % DAY = 0) = true → secs % DAY = 0 := by
    intro hd
    have hdvd : DAY ∣ t.unit := Int.dvd_of_emod_eq_zero (of_decide_eq_true hd)
    rw [hsecs]
    exact Int.emod_eq_zero_of_dvd (dvd_add (hdvd.mul_left _) (Dvd.intro_left _ rfl))
  have hmoment := moment_format hyear (by omega) hday
  refine ⟨_, hformat, bind_eq_ok.mpr ⟨secs, hmoment, ?_⟩⟩
  have hdiv : (secs - t.start) / t.unit = n := by
    rw [hsecs, Int.add_sub_cancel, Int.mul_ediv_cancel _ hunit.ne']
  rw [steps_eq, Input.TimeRange.fromUnix, if_neg (by omega), hdiv]
  rfl

/-- **Calendar times round-trip**: days and integers are inverse on real calendar days, the day after
is the next integer, a written moment in years 0 to 9999 is read back, a zone's offset is subtracted and
a fraction of a second dropped; and the two crates accept the same moments, with the same steps, which
are written and encoded again as themselves. -/
theorem calendar_round_trips :
    (∀ y m d, Input.daysFromCivil y m d = daysFromCivil y m d) ∧
    (∀ y m d, IsDay y m d → civilFromDays (daysFromCivil y m d) = (y, m, d)) ∧
    (∀ n, let day := civilFromDays n
      IsDay day.1 day.2.1 day.2.2 ∧ daysFromCivil day.1 day.2.1 day.2.2 = n) ∧
    (∀ y m d, IsDay y m d → let next := nextDay (y, m, d)
      IsDay next.1 next.2.1 next.2.2 ∧
        daysFromCivil next.1 next.2.1 next.2.2 = daysFromCivil y m d + 1) ∧
    (∀ s, 0 ≤ (civilFromDays (s / DAY)).1 → (civilFromDays (s / DAY)).1 ≤ 9999 →
      parse (format s false) = .ok s) ∧
    (∀ z off, Zone z off → ∀ s n, parse (s ++ z) = .ok n ↔ parse (s ++ ['Z']) = .ok (n + off)) ∧
    (∀ z off, Zone z off → ∀ s f n, '.' ∉ s → (num f).isSome →
      (parse (s ++ '.' :: (f ++ z)) = .ok n ↔ parse (s ++ z) = .ok n)) ∧
    ∀ t : Input.TimeRange, t.toYear < 2 ^ 16 →
      (∀ secs n, (rangeOf t).steps secs = .ok n ↔ t.fromUnix secs = some n) ∧
      (∀ secs n, t.fromUnix secs = some n → n < t.steps ∧ n < 2 ^ t.bits) ∧
      ∀ n, n < t.steps → ∃ text, (rangeOf t).format n = .ok text ∧
        (moment text >>= (rangeOf t).steps) = .ok n := by
  refine ⟨fun _ _ _ => rfl, fun _ _ _ h => civilFromDays_daysFromCivil h,
    daysFromCivil_civilFromDays, fun _ _ _ h => ⟨isDay_nextDay h, daysFromCivil_nextDay h⟩,
    fun _ h0 h9999 => parse_format h0 h9999, fun _ _ hz => parse_offset hz,
    fun _ _ hz s f n hs hf => parse_fraction hz hs hf n, fun t hto => ⟨fun secs n => ?_, ?_, ?_⟩⟩
  · rw [steps_eq]
    cases t.fromUnix secs with
    | none => simp
    | some k => simp
  · exact fun secs n h => ⟨fromUnix_lt t hto h, lt_two_pow_bits t (fromUnix_lt t hto h)⟩
  · exact fun n h => format_step t hto h

/-- Days from 1900 to 2100. -/
def sampleDays : Input.TimeRange := ⟨86400, 1900, 2100, by decide, by decide⟩

/-- A leap day, a moment with an offset and a fraction, and a step of `Days<1900, 2100>`. -/
theorem calendar_round_trips_sample :
    civilFromDays (daysFromCivil 2024 2 29) = (2024, 2, 29) ∧
    daysFromCivil 2024 3 1 = daysFromCivil 2024 2 29 + 1 ∧
    parse (format 951826296 false) = .ok 951826296 ∧
    (parse ("2000-02-29T13:11".toList ++ "+01:00".toList) = .ok 951826260 ↔
      parse ("2000-02-29T13:11".toList ++ ['Z']) = .ok (951826260 + 3600)) ∧
    (parse ("2000-02-29T12:11:36".toList ++ '.' :: ("5".toList ++ ['Z'])) = .ok 951826296 ↔
      parse ("2000-02-29T12:11:36".toList ++ ['Z']) = .ok 951826296) ∧
    sampleDays.fromUnix 0 = some 25567 ∧ (rangeOf sampleDays).steps 0 = .ok 25567 ∧
    ∃ text, (rangeOf sampleDays).format 25567 = .ok text ∧
      (moment text >>= (rangeOf sampleDays).steps) = .ok 25567 := by
  obtain ⟨-, hdays, -, hnext, hparse, hoffset, hfraction, hrange⟩ := calendar_round_trips
  have hday : IsDay 2024 2 29 := ⟨by decide, by decide, by decide, by decide⟩
  obtain ⟨hsteps, hbounds, hformat⟩ := hrange sampleDays (by decide)
  have hstep : sampleDays.fromUnix 0 = some 25567 := by decide
  have hzone : Zone "+01:00".toList 3600 :=
    @Zone.offset false "01".toList "00".toList 1 0 ⟨by decide, by decide, by decide, by decide⟩
  exact ⟨hdays _ _ _ hday, (hnext _ _ _ hday).2, hparse _ (by decide) (by decide),
    hoffset _ _ hzone _ _, hfraction _ _ (.utc 'Z' (.inl rfl)) _ _ _ (by decide) (by decide), hstep,
    (hsteps 0 25567).mpr hstep, hformat 25567 (hbounds 0 25567 hstep).1⟩

end Calendar

end XarkCircuit
