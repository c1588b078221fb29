import Bookable.Time.Instant
import Mathlib.Algebra.GroupWithZero.Nat
import Mathlib.Algebra.Order.Group.Nat

/-!
# Days and dates

The year of a day is guessed from the mean length of a year, and the guess is off by one
at most: the days before a year and their mean differ by less than a year. With the year
right, the month and the day are what is left, so a date is the day that it was made
from, and a date that exists is made from its day again. Dates are made in order: of two
days the earlier one has the earlier year, or in the same year the earlier month, or in
the same month the earlier day. Readings of a clock inherit both.
-/

namespace Bookable.Time

/-! ## Years -/

theorem isLeap_iff (year : Nat) :
    isLeap year = true ↔ 4 ∣ year ∧ (¬ 100 ∣ year ∨ 400 ∣ year) := by
  simp [isLeap, Nat.dvd_iff_mod_eq_zero]

theorem daysBeforeYear_succ {year : Nat} (h : 1 ≤ year) :
    daysBeforeYear (year + 1) = daysBeforeYear year + daysInYear year := by
  obtain ⟨past, rfl⟩ := Nat.exists_eq_add_of_le' h
  have hfour : 100 ∣ past + 1 → 4 ∣ past + 1 := Nat.dvd_trans (by decide)
  have hhundred : 400 ∣ past + 1 → 100 ∣ past + 1 := Nat.dvd_trans (by decide)
  have hle : past / 100 ≤ past / 4 := Nat.div_le_div_left (by decide) (by decide)
  simp only [daysInYear, daysBeforeYear, isLeap_iff, Nat.add_sub_cancel, Nat.succ_div]
  by_cases h400 : 400 ∣ past + 1
  · simp only [h400, hhundred h400, hfour (hhundred h400), not_true, if_true, or_true, and_true]
    omega
  · by_cases h100 : 100 ∣ past + 1
    · simp only [h400, h100, hfour h100, not_true, if_true, if_false, or_false, and_false]
      omega
    · by_cases h4 : 4 ∣ past + 1
      · simp only [h400, h100, h4, not_false_eq_true, if_true, if_false, true_or, and_true]
        omega
      · simp only [h400, h100, h4, if_false, false_and]
        omega

theorem daysBeforeYear_mono {a b : Nat} (ha : 1 ≤ a) (h : a ≤ b) :
    daysBeforeYear a ≤ daysBeforeYear b := by
  induction b, h using Nat.le_induction with
  | base => exact Nat.le_refl _
  | succ b hb ih =>
      rw [daysBeforeYear_succ (Nat.le_trans ha hb)]
      omega

/-- Four hundred years have 146097 days. -/
theorem daysBeforeYear_bounds (past : Nat) :
    146097 * past ≤ 400 * daysBeforeYear (past + 1) + 699 ∧
      400 * daysBeforeYear (past + 1) ≤ 146097 * past + 396 := by
  have h4 := Nat.div_add_mod past 4
  have h100 := Nat.div_add_mod past 100
  have h400 := Nat.div_add_mod past 400
  have h4' := Nat.mod_lt past (show 4 > 0 by decide)
  have h100' := Nat.mod_lt past (show 100 > 0 by decide)
  have h400' := Nat.mod_lt past (show 400 > 0 by decide)
  rw [daysBeforeYear, Nat.add_sub_cancel]
  generalize past / 4 = a at *
  generalize past / 100 = b at *
  generalize past / 400 = c at *
  generalize past % 4 = a' at *
  generalize past % 100 = b' at *
  generalize past % 400 = c' at *
  omega

theorem yearOf_spec (n : Nat) :
    1 ≤ yearOf n ∧ daysBeforeYear (yearOf n) ≤ n ∧ n < daysBeforeYear (yearOf n + 1) := by
  have hdiv := Nat.div_add_mod (400 * n) 146097
  have hmod := Nat.mod_lt (400 * n) (show 146097 > 0 by decide)
  rw [yearOf]
  generalize 400 * n / 146097 = past at *
  generalize 400 * n % 146097 = rest at *
  -- So many years of mean length fit into the days; the bounds hold around this year only.
  have hguess := daysBeforeYear_bounds past
  have hnext := daysBeforeYear_bounds (past + 1)
  have hafter := daysBeforeYear_bounds (past + 1 + 1)
  split
  · next hlt =>
      cases past with
      | zero => exact absurd hlt (Nat.not_lt_zero n)
      | succ past =>
          have hbefore := daysBeforeYear_bounds past
          simp only [Nat.add_sub_cancel] at *
          omega
  · split
    · omega
    · omega

theorem yearOf_le {m n : Nat} (h : m ≤ n) : yearOf m ≤ yearOf n := by
  obtain ⟨-, hm, -⟩ := yearOf_spec m
  obtain ⟨hn, -, hn'⟩ := yearOf_spec n
  by_contra hlt
  have hmono : daysBeforeYear (yearOf n + 1) ≤ daysBeforeYear (yearOf m) :=
    daysBeforeYear_mono (by omega) (by omega)
  omega

theorem sum_monthLengths (year : Nat) : (monthLengths year).sum = daysInYear year := by
  rw [monthLengths, daysInYear]
  split <;> rfl

theorem daysBeforeMonth_eq (year month : Nat) :
    daysBeforeMonth year month = ((monthLengths year).take (month - 1)).sum := by
  rw [daysBeforeMonth, List.sum_eq_foldl]

theorem daysInMonth_le (year month : Nat) : daysInMonth year month ≤ 31 := by
  have hlengths : ∀ length ∈ monthLengths year, length ≤ 31 := by
    rw [monthLengths]
    split <;> decide
  rw [daysInMonth, List.getD_eq_getElem?_getD]
  split
  · exact Nat.zero_le 31
  · cases hlength : (monthLengths year)[month - 1]? with
    | none => exact Nat.zero_le 31
    | some length => exact hlengths length (List.mem_of_getElem? hlength)

theorem monthAndDay_spec {lengths : List Nat} {day : Nat} (h : day < lengths.sum) :
    (monthAndDay lengths day).1 < lengths.length ∧
      (monthAndDay lengths day).2 < lengths.getD (monthAndDay lengths day).1 0 ∧
      (lengths.take (monthAndDay lengths day).1).sum + (monthAndDay lengths day).2 = day := by
  induction lengths generalizing day with
  | nil => cases h
  | cons length rest ih =>
      rw [List.sum_cons] at h
      rw [monthAndDay]
      split
      · next hlt => exact ⟨Nat.zero_lt_succ _, hlt, Nat.zero_add day⟩
      · next hge =>
          obtain ⟨hmonth, hday, hsum⟩ := @ih (day - length) (by omega)
          refine ⟨Nat.succ_lt_succ hmonth, hday, ?_⟩
          show (length :: rest.take (monthAndDay rest (day - length)).1).sum +
            (monthAndDay rest (day - length)).2 = day
          rw [List.sum_cons]
          omega

/-- Months and days in them come in order. -/
theorem monthAndDay_lt (lengths : List Nat) {a b : Nat} (h : a < b) :
    (monthAndDay lengths a).1 < (monthAndDay lengths b).1 ∨
      (monthAndDay lengths a).1 = (monthAndDay lengths b).1 ∧
        (monthAndDay lengths a).2 < (monthAndDay lengths b).2 := by
  induction lengths generalizing a b with
  | nil => exact Or.inr ⟨rfl, h⟩
  | cons length rest ih =>
      rw [monthAndDay, monthAndDay]
      split
      · split
        · exact Or.inr ⟨rfl, h⟩
        · exact Or.inl (Nat.zero_lt_succ _)
      · next ha =>
          rw [if_neg (by omega)]
          rcases ih (show a - length < b - length by omega) with hmonth | ⟨hmonth, hday⟩
          · exact Or.inl (Nat.succ_lt_succ hmonth)
          · exact Or.inr ⟨congrArg Nat.succ hmonth, hday⟩

/-! ## Dates -/

namespace Date

theorem ofNumber_eq (n : Nat) : ofNumber n = ⟨yearOf n,
    (monthAndDay (monthLengths (yearOf n)) (n - daysBeforeYear (yearOf n))).1 + 1,
    (monthAndDay (monthLengths (yearOf n)) (n - daysBeforeYear (yearOf n))).2 + 1⟩ := rfl

theorem number_ofNumber (n : Nat) : (ofNumber n).number = n := by
  obtain ⟨hyear, hle, hlt⟩ := yearOf_spec n
  rw [daysBeforeYear_succ hyear, ← sum_monthLengths] at hlt
  obtain ⟨-, -, hsum⟩ := monthAndDay_spec
    (show n - daysBeforeYear (yearOf n) < (monthLengths (yearOf n)).sum by omega)
  rw [ofNumber_eq, number, daysBeforeMonth_eq]
  simp only [Nat.add_sub_cancel]
  omega

theorem year_ofNumber_le {n : Nat} (h : n < calendarDays) : (ofNumber n).year ≤ 9999 := by
  obtain ⟨-, hle, -⟩ := yearOf_spec n
  by_contra hlt
  have hend : daysBeforeYear 10000 ≤ daysBeforeYear (yearOf n) :=
    daysBeforeYear_mono (by decide) (Nat.lt_of_not_le hlt)
  have hdays : daysBeforeYear 10000 = calendarDays := by decide
  omega

theorem valid_ofNumber {n : Nat} (h : n < calendarDays) : (ofNumber n).Valid := by
  obtain ⟨hyear, hle, hlt⟩ := yearOf_spec n
  rw [daysBeforeYear_succ hyear, ← sum_monthLengths] at hlt
  obtain ⟨hmonth, hday, -⟩ := monthAndDay_spec
    (show n - daysBeforeYear (yearOf n) < (monthLengths (yearOf n)).sum by omega)
  refine ⟨hyear, year_ofNumber_le h, Nat.succ_pos _, hmonth, Nat.succ_pos _, ?_⟩
  rw [ofNumber_eq, daysInMonth, if_neg (Nat.succ_ne_zero _), Nat.add_sub_cancel]
  exact hday

/-- The earlier year, or in the same year the earlier month, or in the same month the earlier
day. -/
def Before (a b : Date) : Prop :=
  a.year < b.year ∨ a.year = b.year ∧
    (a.month < b.month ∨ a.month = b.month ∧ a.day < b.day)

theorem Before.asymm {a b : Date} (h : a.Before b) : ¬ b.Before a := by
  unfold Before at *
  omega

theorem before_of_lt {m n : Nat} (h : m < n) : (ofNumber m).Before (ofNumber n) := by
  rcases Nat.lt_or_eq_of_le (yearOf_le (Nat.le_of_lt h)) with hyear | hyear
  · exact Or.inl hyear
  · refine Or.inr ⟨hyear, ?_⟩
    obtain ⟨-, hle, -⟩ := yearOf_spec m
    rw [ofNumber_eq, ofNumber_eq, ← hyear]
    rcases monthAndDay_lt (monthLengths (yearOf m))
      (show m - daysBeforeYear (yearOf m) < n - daysBeforeYear (yearOf m) by omega)
      with hmonth | ⟨hmonth, hday⟩
    · exact Or.inl (Nat.succ_lt_succ hmonth)
    · exact Or.inr ⟨congrArg Nat.succ hmonth, Nat.succ_lt_succ hday⟩

end Date

/-! ## Readings of a clock -/

theorem div_minute (n : Nat) : n / minute = n / second / 60 := by
  rw [Nat.div_div_eq_div_mul, minute, Nat.mul_comm]

theorem div_hour (n : Nat) : n / hour = n / second / 60 / 60 := by
  rw [← div_minute, Nat.div_div_eq_div_mul, hour, Nat.mul_comm]

theorem div_day (n : Nat) : n / day = n / second / 60 / 60 / 24 := by
  rw [← div_hour, Nat.div_div_eq_div_mul, day, Nat.mul_comm]

namespace Civil

theorem micros_ofMicros (micros : Nat) : (ofMicros micros).micros = micros := by
  rw [Civil.micros, ofMicros, Date.number_ofNumber, div_day, div_hour, div_minute]
  simp only [Time.day, Time.hour, Time.minute, Time.second]
  omega

theorem valid_ofMicros {micros : Nat} (h : micros < horizon) : (ofMicros micros).Valid := by
  refine ⟨Date.valid_ofNumber (Nat.div_lt_of_lt_mul (by rwa [Nat.mul_comm])), ?_⟩
  exact ⟨Nat.mod_lt _ (by decide), Nat.mod_lt _ (by decide), Nat.mod_lt _ (by decide),
    Nat.mod_lt _ (by decide)⟩

/-- The earlier date, or on the same date the earlier time of day. -/
def Before (a b : Civil) : Prop :=
  a.date.Before b.date ∨ a.date = b.date ∧
    (a.hour < b.hour ∨ a.hour = b.hour ∧
      (a.minute < b.minute ∨ a.minute = b.minute ∧
        (a.second < b.second ∨ a.second = b.second ∧ a.micro < b.micro)))

theorem Before.asymm {a b : Civil} (h : a.Before b) : ¬ b.Before a := by
  intro h'
  rcases h with hdate | ⟨hsame, htime⟩
  · rcases h' with hdate' | ⟨hsame', -⟩
    · exact hdate.asymm hdate'
    · rw [hsame'] at hdate
      exact hdate.asymm hdate
  · rcases h' with hdate' | ⟨-, htime'⟩
    · rw [hsame] at hdate'
      exact hdate'.asymm hdate'
    · omega

theorem before_of_lt {m n : Nat} (h : m < n) : (ofMicros m).Before (ofMicros n) := by
  rcases Nat.lt_or_eq_of_le (Nat.div_le_div_right (c := day) (Nat.le_of_lt h)) with hday | hday
  · exact Or.inl (Date.before_of_lt hday)
  · refine Or.inr ⟨congrArg Date.ofNumber hday, ?_⟩
    simp only [ofMicros, div_hour, div_minute]
    rw [div_day, div_day] at hday
    have hm := Nat.div_add_mod m Time.second
    have hn := Nat.div_add_mod n Time.second
    simp only [Time.second] at *
    omega

end Civil

/-! ## Instants -/

namespace Instant

theorem eq_of_micros {a b : Instant} (h : a.micros = b.micros) : a = b := by
  cases a
  cases h
  rfl

/-- Instants that start a second are told apart by their seconds. -/
theorem eq_of_unixSecond {a b : Instant} (ha : second ∣ a.micros) (hb : second ∣ b.micros)
    (h : a.unixSecond = b.unixSecond) : a = b := by
  unfold unixSecond at h
  unfold second at *
  exact eq_of_micros (by omega)

theorem ofMicros?_natCast {n : Nat} :
    ofMicros? (n : Int) = if h : n < horizon then some ⟨n, h⟩ else none := by
  rw [ofMicros?]
  by_cases h : n < horizon
  · rw [dif_pos h, dif_pos ⟨Int.natCast_nonneg n, Int.ofNat_lt.mpr h⟩]
    rfl
  · rw [dif_neg h, dif_neg fun hand => h (Int.ofNat_lt.mp hand.2)]

theorem ofMicros?_micros (t : Instant) : ofMicros? t.micros = some t := by
  rw [ofMicros?_natCast, dif_pos t.lt_horizon]

theorem ofMicros?_eq_some {n : Int} {t : Instant} :
    ofMicros? n = some t ↔ (t.micros : Int) = n := by
  constructor
  · intro h
    rw [ofMicros?] at h
    split at h
    · next hin =>
        cases h
        exact Int.toNat_of_nonneg hin.1
    · cases h
  · rintro rfl
    exact ofMicros?_micros t

theorem micros_of_ofMicros? {n : Nat} {t : Instant} (h : ofMicros? (n : Int) = some t) :
    t.micros = n :=
  Int.ofNat_inj.mp (ofMicros?_eq_some.mp h)

theorem shift?_natCast (t : Instant) (n : Nat) :
    t.shift? (n : Int) =
      if h : t.micros + n < horizon then some ⟨t.micros + n, h⟩ else none := by
  rw [shift?, ← Int.natCast_add]
  exact ofMicros?_natCast

theorem micros_civil (t : Instant) : t.civil.micros = t.micros :=
  Civil.micros_ofMicros t.micros

/-- Instants are in the order of their dates and times of day. -/
theorem civil_before_iff {a b : Instant} : a.civil.Before b.civil ↔ a < b := by
  constructor
  · intro h
    rcases Nat.lt_trichotomy a.micros b.micros with hlt | heq | hgt
    · exact hlt
    · rw [eq_of_micros heq] at h
      exact absurd h h.asymm
    · exact absurd (Civil.before_of_lt hgt) h.asymm
  · exact Civil.before_of_lt

end Instant

end Bookable.Time
