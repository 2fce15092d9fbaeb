import XarkCircuit.Lib.Instances
import Mathlib.Tactic.IntervalCases
import Mathlib.Tactic.Ring

/-!
Calendar days as integers (`time.rs` of the schema).

* `daysFromCivil` and `civilFromDays` count days from 1970-01-01 in the proleptic Gregorian calendar.
* `IsDay`: a real calendar day, and `nextDay` the day after it.
* `civilFromDays_daysFromCivil` and `daysFromCivil_civilFromDays`: the two are inverse.
* `daysFromCivil_nextDay`: consecutive days are consecutive integers.

Both functions count years from March, so that a leap day is the last day of its year: a year of the
400-year era and a day of that year give the day of the era (`yearOfEra_of_march`, `exists_march`), and
a month from March and its day give the day of the year.
-/

namespace XarkCircuit

namespace Calendar

/-! ### The two functions -/

/-- Seconds in a day. -/
def DAY : ℤ := 86400

/-- Days from 1970-01-01 to `year-month-day` (negative before it). -/
def daysFromCivil (year : ℤ) (month day : ℕ) : ℤ :=
  let y := if month ≤ 2 then year - 1 else year
  let era := y / 400
  let yoe := y - era * 400
  let m : ℤ := month
  let doy := (153 * (if 2 < m then m - 3 else m + 9) + 2) / 5 + day - 1
  let doe := yoe * 365 + yoe / 4 - yoe / 100 + doy
  era * 146097 + doe - 719468

/-- The year of the era of a day of the era. -/
def yearOfEra (doe : ℤ) : ℤ := (doe - doe / 1460 + doe / 36524 - doe / 146096) / 365

/-- The `(year, month, day)` of day `days` since 1970-01-01. -/
def civilFromDays (days : ℤ) : ℤ × ℕ × ℕ :=
  let z := days + 719468
  let era := z / 146097
  let doe := z - era * 146097
  let yoe := yearOfEra doe
  let doy := doe - (365 * yoe + yoe / 4 - yoe / 100)
  let mp := (5 * doy + 2) / 153
  let day := (doy - (153 * mp + 2) / 5 + 1).toNat
  let month := (if mp < 10 then mp + 3 else mp - 9).toNat
  let year := yoe + era * 400 + (if month ≤ 2 then 1 else 0)
  (year, month, day)

/-- Days in `month` of `year`. -/
def daysInMonth (year : ℤ) (month : ℕ) : ℕ :=
  if month = 2 then
    if (year % 4 = 0 ∧ year % 100 ≠ 0) ∨ year % 400 = 0 then 29 else 28
  else if month = 4 ∨ month = 6 ∨ month = 9 ∨ month = 11 then 30 else 31

/-- A real calendar day. -/
structure IsDay (year : ℤ) (month day : ℕ) : Prop where
  one_le_month : 1 ≤ month
  month_le : month ≤ 12
  one_le_day : 1 ≤ day
  day_le : day ≤ daysInMonth year month

/-- The day after a calendar day. -/
def nextDay : ℤ × ℕ × ℕ → ℤ × ℕ × ℕ
  | (y, m, d) =>
    if d < daysInMonth y m then (y, m, d + 1)
    else if m < 12 then (y, m + 1, 1)
    else (y + 1, 1, 1)

/-! ### Years from March -/

/-- Day `doy` of year `yoe` of the era: the last day is a leap day, before the year it is in. -/
structure MarchDay (yoe doy : ℤ) : Prop where
  yoe_nonneg : 0 ≤ yoe
  yoe_lt : yoe < 400
  doy_nonneg : 0 ≤ doy
  doy_le : doy ≤ 365
  leap : doy = 365 → ((yoe + 1) % 4 = 0 ∧ (yoe + 1) % 100 ≠ 0) ∨ (yoe + 1) % 400 = 0

/-- The day of the era. -/
def dayOfEra (yoe doy : ℤ) : ℤ := yoe * 365 + yoe / 4 - yoe / 100 + doy

/-- A year of the era: its century, its place among 25 groups of four years, and in the group. -/
lemma exists_century {yoe : ℤ} (h0 : 0 ≤ yoe) (h400 : yoe < 400) :
    ∃ c q k : ℤ, yoe = 100 * c + 4 * q + k ∧ (0 ≤ c ∧ c ≤ 3) ∧ (0 ≤ q ∧ q ≤ 24) ∧ 0 ≤ k ∧ k ≤ 3 :=
  ⟨yoe / 100, yoe % 100 / 4, yoe % 4, by omega, by omega, by omega, by omega, by omega⟩

/-- The day of the era gives its year back. -/
lemma yearOfEra_of_march {yoe doy : ℤ} (h : MarchDay yoe doy) :
    0 ≤ dayOfEra yoe doy ∧ dayOfEra yoe doy < 146097 ∧ yearOfEra (dayOfEra yoe doy) = yoe := by
  obtain ⟨c, q, k, rfl, hc, hq, hk⟩ := exists_century h.yoe_nonneg h.yoe_lt
  have hleap := h.leap
  have h0 := h.doy_nonneg
  have h365 := h.doy_le
  have hfour : (100 * c + 4 * q + k) / 4 = 25 * c + q := by omega
  have hcentury : (100 * c + 4 * q + k) / 100 = c := by omega
  have hdoe : dayOfEra (100 * c + 4 * q + k) doy = 36524 * c + 1461 * q + 365 * k + doy := by
    rw [dayOfEra, hfour, hcentury]
    ring
  -- a leap day ends a group of four years, and the last group of a century only in the last century
  have hfull : doy = 365 → k = 3 ∧ (q ≤ 23 ∨ c = 3) := by
    intro heq
    have hl := hleap heq
    omega
  rw [hdoe]
  refine ⟨by omega, by omega, ?_⟩
  have hcent : (36524 * c + 1461 * q + 365 * k + doy) / 36524
      - (36524 * c + 1461 * q + 365 * k + doy) / 146096 = c := by
    obtain ⟨r, hr, hr0⟩ : ∃ r, 1461 * q + 365 * k + doy = r ∧ 0 ≤ r := ⟨_, rfl, by omega⟩
    have hsum : 36524 * c + 1461 * q + 365 * k + doy = 36524 * c + r := by omega
    rw [hsum]
    rcases lt_or_ge r 36524 with hlt | hge
    · have hdiv : (36524 * c + r) / 36524 = c := by omega
      have hdiv' : (36524 * c + r) / 146096 = 0 := by omega
      rw [hdiv, hdiv', sub_zero]
    · obtain ⟨rfl, rfl⟩ : r = 36524 ∧ c = 3 := by
        have hd : doy = 365 := by omega
        have hk3 := hfull hd
        omega
      norm_num
  have hgroup : (36524 * c + 1461 * q + 365 * k + doy) / 1460
      = 25 * c + q + (24 * c + q + 365 * k + doy) / 1460 := by
    omega
  have hyear : (365 * (100 * c + 4 * q + k) + doy - (24 * c + q + 365 * k + doy) / 1460) / 365
      = 100 * c + 4 * q + k := by
    omega
  rw [yearOfEra, hgroup]
  rw [← hyear]
  congr 1
  omega

/-- Every day of the era is a day of a year. -/
lemma exists_march {doe : ℤ} (h0 : 0 ≤ doe) (h : doe < 146097) :
    ∃ yoe doy, MarchDay yoe doy ∧ dayOfEra yoe doy = doe := by
  obtain ⟨c, r, rfl, hc, hr⟩ : ∃ c r : ℤ, doe = 36524 * c + r ∧ (0 ≤ c ∧ c ≤ 3) ∧ 0 ≤ r ∧
      r ≤ 36524 ∧ (r = 36524 → c = 3) :=
    ⟨min (doe / 36524) 3, doe - 36524 * min (doe / 36524) 3, by ring, by omega, by omega⟩
  obtain ⟨q, r, rfl, hq, hr'⟩ : ∃ q r' : ℤ, r = 1461 * q + r' ∧ (0 ≤ q ∧ q ≤ 24) ∧ 0 ≤ r' ∧ r' ≤ 1460 :=
    ⟨r / 1461, r % 1461, by omega, by omega, by omega⟩
  obtain ⟨k, doy, rfl, hk, hdoy⟩ : ∃ k doy : ℤ, r = 365 * k + doy ∧ (0 ≤ k ∧ k ≤ 3) ∧ 0 ≤ doy ∧
      doy ≤ 365 ∧ (doy = 365 → k = 3) :=
    ⟨min (r / 365) 3, r - 365 * min (r / 365) 3, by ring, by omega, by omega⟩
  refine ⟨100 * c + 4 * q + k, doy, ⟨by omega, by omega, by omega, by omega, fun heq => ?_⟩, ?_⟩
  · have hk3 := hdoy.2.2 heq
    omega
  · have hfour : (100 * c + 4 * q + k) / 4 = 25 * c + q := by omega
    have hcentury : (100 * c + 4 * q + k) / 100 = c := by omega
    rw [dayOfEra, hfour, hcentury]
    ring

/-! ### Months from March -/

/-- Month `mp` from March and its day, as a day of the year from March. -/
def dayOfYear (mp day : ℤ) : ℤ := (153 * mp + 2) / 5 + day - 1

/-- The number of the month from March. -/
def fromMarch (month : ℕ) : ℤ := if 2 < (month : ℤ) then month - 3 else month + 9

/-- A day of a month is a day of the year from March, and gives the month and its day back. -/
lemma month_of_dayOfYear {y : ℤ} {m d : ℕ} (h : IsDay y m d) :
    let doy := dayOfYear (fromMarch m) d
    let mp := (5 * doy + 2) / 153
    0 ≤ doy ∧ doy ≤ 365 ∧ mp = fromMarch m ∧ doy - (153 * mp + 2) / 5 + 1 = d ∧
      (doy = 365 → (y % 4 = 0 ∧ y % 100 ≠ 0) ∨ y % 400 = 0) ∧ (doy = 365 → m ≤ 2) := by
  obtain ⟨hm1, hm12, hd1, hd⟩ := h
  rw [daysInMonth] at hd
  simp only [dayOfYear, fromMarch]
  interval_cases m <;> simp at hd ⊢ <;> (try split_ifs at hd) <;> omega

/-- Every day of the year from March is a day of a month. -/
lemma exists_month {y doy : ℤ} (h0 : 0 ≤ doy) (h365 : doy ≤ 365)
    (hleap : doy = 365 → ((y + 1) % 4 = 0 ∧ (y + 1) % 100 ≠ 0) ∨ (y + 1) % 400 = 0) :
    ∃ m d : ℕ, IsDay (y + if m ≤ 2 then 1 else 0) m d ∧ dayOfYear (fromMarch m) d = doy := by
  obtain ⟨mp, hmp⟩ : ∃ mp, mp = (5 * doy + 2) / 153 := ⟨_, rfl⟩
  have hmp0 : 0 ≤ mp := by omega
  have hmp11 : mp ≤ 11 := by omega
  refine ⟨(if mp < 10 then mp + 3 else mp - 9).toNat, (doy - (153 * mp + 2) / 5 + 1).toNat, ?_⟩
  interval_cases mp <;>
    refine ⟨⟨by simp, by simp, by omega, ?_⟩, ?_⟩ <;>
    simp only [daysInMonth, dayOfYear, fromMarch] <;> norm_num <;> (try split_ifs) <;> omega

/-! ### Inverses -/

/-- The days before a year from March, with no era. -/
lemma daysFromCivil_eq (y : ℤ) (m d : ℕ) : let y' := if m ≤ 2 then y - 1 else y
    daysFromCivil y m d = 365 * y' + y' / 4 - y' / 100 + y' / 400 + dayOfYear (fromMarch m) d
      - 719468 := by
  simp only [daysFromCivil, dayOfYear, fromMarch]
  generalize (if m ≤ 2 then y - 1 else y) = y'
  omega

/-- A day of a year of the era is read back. -/
lemma civilFromDays_march {era yoe doy : ℤ} (h : MarchDay yoe doy) {m d : ℕ}
    (hday : IsDay (yoe + era * 400 + if m ≤ 2 then 1 else 0) m d)
    (hdoy : dayOfYear (fromMarch m) d = doy) :
    civilFromDays (era * 146097 + dayOfEra yoe doy - 719468)
      = (yoe + era * 400 + (if m ≤ 2 then 1 else 0), m, d) := by
  obtain ⟨h0, hlt, hyear⟩ := yearOfEra_of_march h
  obtain ⟨-, -, hmp, hd, -, -⟩ := month_of_dayOfYear hday
  have hera : (era * 146097 + dayOfEra yoe doy - 719468 + 719468) / 146097 = era := by omega
  have hdoe : era * 146097 + dayOfEra yoe doy - 719468 + 719468 - era * 146097
      = dayOfEra yoe doy := by ring
  have hrest : dayOfEra yoe doy - (365 * yoe + yoe / 4 - yoe / 100) = doy := by
    rw [dayOfEra]
    ring
  rw [hdoy] at hmp hd
  have hmonth : (if fromMarch m < 10 then fromMarch m + 3 else fromMarch m - 9).toNat = m := by
    have h1 := hday.one_le_month
    have h12 := hday.month_le
    rw [fromMarch]
    split_ifs <;> omega
  simp only [civilFromDays, hera, hdoe, hyear, hrest]
  rw [hd, hmp, hmonth, Int.toNat_natCast]

/-- A calendar day is a day of a year of an era. -/
lemma exists_era {y : ℤ} {m d : ℕ} (h : IsDay y m d) : ∃ era yoe doy, MarchDay yoe doy ∧
    y = yoe + era * 400 + (if m ≤ 2 then 1 else 0) ∧ dayOfYear (fromMarch m) d = doy ∧
      daysFromCivil y m d = era * 146097 + dayOfEra yoe doy - 719468 := by
  obtain ⟨h0, h365, -, -, hleap, hfeb⟩ := month_of_dayOfYear h
  obtain ⟨y', hy'⟩ : ∃ y', y' = if m ≤ 2 then y - 1 else y := ⟨_, rfl⟩
  have hy : y = y' + if m ≤ 2 then 1 else 0 := by
    rw [hy']
    split_ifs <;> omega
  refine ⟨y' / 400, y' % 400, _, ⟨by omega, by omega, h0, h365, fun heq => ?_⟩, by omega, rfl, ?_⟩
  · have hl := hleap heq
    rw [hy, if_pos (hfeb heq)] at hl
    omega
  · rw [daysFromCivil_eq, ← hy', dayOfEra]
    omega

/-- **Days read back**: a calendar day is the day its number stands for. -/
theorem civilFromDays_daysFromCivil {y : ℤ} {m d : ℕ} (h : IsDay y m d) :
    civilFromDays (daysFromCivil y m d) = (y, m, d) := by
  obtain ⟨era, yoe, doy, hmarch, rfl, hdoy, hdays⟩ := exists_era h
  rw [hdays, civilFromDays_march hmarch h hdoy]

/-- Every integer is the number of a calendar day. -/
lemma exists_day (n : ℤ) : ∃ y m d, IsDay y m d ∧ daysFromCivil y m d = n := by
  obtain ⟨yoe, doy, hmarch, hdoe⟩ := @exists_march ((n + 719468) % 146097) (by omega) (by omega)
  have hleap := hmarch.leap
  have heras : ((yoe + (n + 719468) / 146097 * 400 + 1) % 4 = (yoe + 1) % 4) ∧
      ((yoe + (n + 719468) / 146097 * 400 + 1) % 100 = (yoe + 1) % 100) ∧
      ((yoe + (n + 719468) / 146097 * 400 + 1) % 400 = (yoe + 1) % 400) := by omega
  obtain ⟨m, d, hday, hdoy⟩ := exists_month (y := yoe + (n + 719468) / 146097 * 400)
    hmarch.doy_nonneg hmarch.doy_le (by rw [heras.1, heras.2.1, heras.2.2]; exact hleap)
  refine ⟨_, m, d, hday, ?_⟩
  obtain ⟨era, yoe', doy', hmarch', hy, hdoy', hdays⟩ := exists_era hday
  have heq : yoe' = yoe ∧ era = (n + 719468) / 146097 := by
    have h1 := hmarch.yoe_nonneg
    have h2 := hmarch.yoe_lt
    have h3 := hmarch'.yoe_nonneg
    have h4 := hmarch'.yoe_lt
    omega
  obtain ⟨rfl, rfl⟩ := heq
  rw [hdays, ← hdoy', hdoy, hdoe]
  omega

/-- **Integers read back**: an integer is the number of the day that it stands for. -/
theorem daysFromCivil_civilFromDays (n : ℤ) :
    let day := civilFromDays n
    IsDay day.1 day.2.1 day.2.2 ∧ daysFromCivil day.1 day.2.1 day.2.2 = n := by
  obtain ⟨y, m, d, hday, rfl⟩ := exists_day n
  rw [civilFromDays_daysFromCivil hday]
  exact ⟨hday, rfl⟩

/-! ### Consecutive days -/

lemma isDay_nextDay {y : ℤ} {m d : ℕ} (h : IsDay y m d) :
    let next := nextDay (y, m, d)
    IsDay next.1 next.2.1 next.2.2 := by
  have hone : ∀ y' m', 1 ≤ daysInMonth y' m' := fun y' m' => by
    rw [daysInMonth]
    split_ifs <;> omega
  obtain ⟨hm1, hm12, hd1, hd⟩ := h
  simp only [nextDay]
  split_ifs with hday hmonth
  · exact ⟨hm1, hm12, Nat.le_add_left 1 d, hday⟩
  · exact ⟨Nat.le_add_left 1 m, hmonth, le_rfl, hone _ _⟩
  · exact ⟨le_rfl, by norm_num, le_rfl, hone _ _⟩

/-- **Consecutive days** are consecutive integers. -/
theorem daysFromCivil_nextDay {y : ℤ} {m d : ℕ} (h : IsDay y m d) :
    let next := nextDay (y, m, d)
    daysFromCivil next.1 next.2.1 next.2.2 = daysFromCivil y m d + 1 := by
  obtain ⟨hm1, hm12, hd1, hd⟩ := h
  simp only [nextDay]
  split_ifs with hday hmonth
  · simp only [daysFromCivil_eq, dayOfYear]
    push_cast
    ring
  · have hlast : d = daysInMonth y m := by omega
    subst hlast
    simp only [daysFromCivil_eq, dayOfYear, fromMarch, daysInMonth]
    interval_cases m <;> norm_num <;> (try split_ifs) <;> omega
  · obtain rfl : m = 12 := by omega
    have hlast : d = daysInMonth y 12 := by omega
    subst hlast
    simp only [daysFromCivil_eq, dayOfYear, fromMarch, daysInMonth]
    norm_num
    omega

end Calendar

end XarkCircuit
