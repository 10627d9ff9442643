import BabyLuigi.Cron.DateTimeProperties

/-! The order of dates, the dates that can be built, and the repetition of the
calendar. -/

set_option autoImplicit false

namespace BabyLuigi.Cron

variable {year month day : Int}

theorem lengthOfMonth_bounds (year month : Int) :
    28 ≤ lengthOfMonth year month ∧ lengthOfMonth year month ≤ 31 := by
  simp only [lengthOfMonth, DateTime.lastDays]
  split_ifs <;> decide

theorem ValidDate.first (firstMonth : 1 ≤ month) (lastMonth : month ≤ 12) :
    ValidDate year month 1 :=
  ⟨firstMonth, lastMonth, le_rfl, by have length := lengthOfMonth_bounds year month; omega⟩

theorem ValidDate.leap (valid : ValidDate year month day) :
    ValidDate 2000 month day := by
  refine ⟨valid.firstMonth, valid.lastMonth, valid.firstDay, valid.lastDay.trans ?_⟩
  simp only [lengthOfMonth]
  by_cases february : month = 2
  · have leap : DateTime.isLeap 2000 = true := rfl
    rw [if_pos february, if_pos february, if_pos leap]
    split_ifs <;> decide
  · rw [if_neg february, if_neg february]

/-! ### Order -/

/-- The number of the first day after a month. -/
def monthEnd (year month : Int) : Int := toDays year month 1 + lengthOfMonth year month

theorem monthEnd_le_nextYear (positive : 1 ≤ year) (firstMonth : 1 ≤ month)
    (lastMonth : month ≤ 12) : monthEnd year month ≤ toDays (year + 1) 1 1 := by
  have december := toDays_nextYear positive
  rw [toDays_day year 12 31] at december
  rcases lastMonth.eq_or_lt with rfl | earlier
  · have length : lengthOfMonth year 12 = 31 := rfl
    simp only [monthEnd]
    omega
  · have before := toDays_laterMonth positive firstMonth earlier le_rfl
    simp only [monthEnd]
    omega

theorem toDays_le_nextYear (positive : 1 ≤ year) (firstMonth : 1 ≤ month) (lastMonth : month ≤ 12)
    (lastDay : day ≤ 31) : toDays year month day ≤ toDays (year + 1) 1 1 := by
  have december := toDays_nextYear positive
  rw [toDays_day year 12 31] at december
  rw [toDays_day year month day]
  rcases lastMonth.eq_or_lt with rfl | earlier
  · omega
  · have before := toDays_laterMonth positive firstMonth earlier le_rfl
    have length := lengthOfMonth_bounds year month
    omega

theorem newYear_le_month (positive : 1 ≤ year) (firstMonth : 1 ≤ month) (lastMonth : month ≤ 12) :
    toDays year 1 1 ≤ toDays year month 1 := by
  rcases firstMonth.eq_or_lt with rfl | later
  · exact le_rfl
  · have after := toDays_laterMonth positive le_rfl later lastMonth
    have length := lengthOfMonth_bounds year 1
    omega

theorem newYear_mono {later : Int} (positive : 1 ≤ year) (ordered : year ≤ later) :
    toDays year 1 1 ≤ toDays later 1 1 := by
  induction later, ordered using Int.leInduction with
  | base => exact le_rfl
  | succ between after ih =>
      have december := toDays_nextYear (show 1 ≤ between by omega)
      have start : toDays between 1 1 ≤ toDays between 12 1 :=
        newYear_le_month (by omega) (by decide) le_rfl
      rw [toDays_day between 12 31] at december
      omega

namespace DateTime

variable {time later : DateTime}

theorem month_bounds (nonneg : 0 ≤ time.timePoint) :
    toDays time.year time.month 1 ≤ time.daysSinceEpoch ∧
      time.daysSinceEpoch < monthEnd time.year time.month := by
  obtain ⟨valid, _, days⟩ := validDate nonneg
  have firstDay := valid.firstDay
  have lastDay := valid.lastDay
  rw [toDays_day] at days
  simp only [monthEnd]
  omega

theorem year_bounds (nonneg : 0 ≤ time.timePoint) :
    toDays time.year 1 1 ≤ time.daysSinceEpoch ∧
      time.daysSinceEpoch < toDays (time.year + 1) 1 1 := by
  obtain ⟨valid, positive, days⟩ := validDate nonneg
  have start := newYear_le_month positive valid.firstMonth valid.lastMonth
  have within := (month_bounds nonneg).1
  have before := toDays_laterYear positive valid
  omega

theorem year_le_of_before (nonneg : 0 ≤ time.timePoint) {year : Int} (positive : 0 ≤ year)
    (before : time.daysSinceEpoch < toDays (year + 1) 1 1) : time.year ≤ year := by
  by_contra past
  have mono := newYear_mono (show 1 ≤ year + 1 by omega) (show year + 1 ≤ time.year by omega)
  have within := (year_bounds nonneg).1
  omega

theorem year_mono (nonneg : 0 ≤ time.timePoint) (laterNonneg : 0 ≤ later.timePoint)
    (ordered : time.daysSinceEpoch ≤ later.daysSinceEpoch) : time.year ≤ later.year := by
  have positive := (validDate laterNonneg).2.1
  have within := (year_bounds laterNonneg).2
  exact year_le_of_before nonneg (by omega) (by omega)

theorem year_ge (nonneg : 0 ≤ time.timePoint) : 1970 ≤ time.year := by
  have start : (0 : Int) ≤ (ofTimePoint 0).timePoint := le_rfl
  have days := (exists_rest nonneg).choose_spec.2.1
  exact year_mono start nonneg days

theorem newYear_le_of_laterYear (nonneg : 0 ≤ time.timePoint) (laterNonneg : 0 ≤ later.timePoint)
    (after : time.year < later.year) :
    toDays (time.year + 1) 1 1 ≤ later.daysSinceEpoch := by
  have positive := (validDate nonneg).2.1
  have mono := newYear_mono (show 1 ≤ time.year + 1 by omega) (show time.year + 1 ≤ later.year by omega)
  have within := (year_bounds laterNonneg).1
  omega

theorem month_mono (nonneg : 0 ≤ time.timePoint) (laterNonneg : 0 ≤ later.timePoint)
    (ordered : time.daysSinceEpoch ≤ later.daysSinceEpoch) (sameYear : later.year = time.year) :
    time.month ≤ later.month := by
  by_contra after
  obtain ⟨valid, positive, _⟩ := validDate nonneg
  have laterFirst := (validDate laterNonneg).1.firstMonth
  have between := toDays_laterMonth positive laterFirst (not_le.mp after) valid.lastMonth
  have start := (month_bounds nonneg).1
  have stop := (month_bounds laterNonneg).2
  rw [sameYear, monthEnd] at stop
  omega

/-- A date in another month than an earlier one lies behind that month. -/
theorem monthEnd_le_of_laterMonth (nonneg : 0 ≤ time.timePoint)
    (laterNonneg : 0 ≤ later.timePoint) (ordered : time.daysSinceEpoch ≤ later.daysSinceEpoch)
    (differ : ¬ (later.year = time.year ∧ later.month = time.month)) :
    monthEnd time.year time.month ≤ later.daysSinceEpoch := by
  obtain ⟨valid, positive, _⟩ := validDate nonneg
  rcases (year_mono nonneg laterNonneg ordered).eq_or_lt with sameYear | laterYear
  · have monthLe := month_mono nonneg laterNonneg ordered sameYear.symm
    have laterLast := (validDate laterNonneg).1.lastMonth
    have between := toDays_laterMonth positive valid.firstMonth
      (show time.month < later.month by omega) laterLast
    have start := (month_bounds laterNonneg).1
    rw [← sameYear] at start
    simp only [monthEnd]
    omega
  · have before := monthEnd_le_nextYear positive valid.firstMonth valid.lastMonth
    have after := newYear_le_of_laterYear nonneg laterNonneg laterYear
    omega

/-! ### Dates that can be built -/

theorem ofDate_ok {year month day : Int} (since : 1970 ≤ year) (upTo : year ≤ 5137)
    (firstMonth : 1 ≤ month) (lastMonth : month ≤ 12) (firstDay : 1 ≤ day) (lastDay : day ≤ 31) :
    ofDate year month day = .ok (ofTimePoint (wrap (toDays year month day * dayTicks))) := by
  rw [ofDate, if_neg (by omega), if_neg (by omega), if_neg (by omega)]

theorem days_of_midnight {days : Int} (midnight : time.timePoint = days * dayTicks) :
    time.daysSinceEpoch = days := by
  rw [daysSinceEpoch, midnight]
  exact Int.mul_tdiv_cancel _ (by decide)

theorem date_of_days {year month day : Int} (valid : ValidDate year month day)
    (positive : 1 ≤ year) (days : time.daysSinceEpoch = toDays year month day) :
    time.year = year ∧ time.month = month ∧ time.day = day := by
  have date := yearMonthDayFromDays_toDays valid positive
  simp only [DateTime.year, DateTime.month, DateTime.day, days, date, and_self]

theorem date_of_midnight {year month day : Int} (valid : ValidDate year month day)
    (positive : 1 ≤ year) (midnight : time.timePoint = toDays year month day * dayTicks) :
    time.year = year ∧ time.month = month ∧ time.day = day :=
  date_of_days valid positive (days_of_midnight midnight)

theorem toDays_nonneg {year month : Int} (since : 1970 ≤ year) (firstMonth : 1 ≤ month)
    (lastMonth : month ≤ 12) (day : Int) : day - 1 ≤ toDays year month day := by
  have epoch : toDays 1970 1 1 = 0 := rfl
  have mono := newYear_mono (by decide) since
  have start : toDays 1970 1 1 ≤ toDays year month 1 :=
    mono.trans (newYear_le_month (by omega) firstMonth lastMonth)
  rw [toDays_day]
  omega

/-! ### Dates that fit -/

/-- The number of the last day that begins before the ticks end, 11 April 2262. -/
def lastFit : Int := 106751

theorem midnight_fits {days : Int} (first : 0 ≤ days) (last : days ≤ lastFit) :
    Fits (days * dayTicks) := by
  simp only [Fits, lastFit, dayTicks, hourTicks, minuteTicks, secondTicks] at *
  omega

theorem days_le_lastFit (nonneg : 0 ≤ time.timePoint) (fits : time.timePoint < 2 ^ 63) :
    time.daysSinceEpoch ≤ lastFit := by
  obtain ⟨rest, split, _, _, _, _, _, _, _⟩ := exists_rest nonneg
  simp only [lastFit, dayTicks, hourTicks, minuteTicks, secondTicks] at *
  omega

theorem toDays_le_lastFit (positive : 1 ≤ year) (upTo : year ≤ 2261) (firstMonth : 1 ≤ month)
    (lastMonth : month ≤ 12) (lastDay : day ≤ 31) : toDays year month day ≤ lastFit := by
  have within := toDays_le_nextYear positive firstMonth lastMonth lastDay
  have mono := newYear_mono (show 1 ≤ year + 1 by omega) (show year + 1 ≤ 2262 by omega)
  have newYear : toDays 2262 1 1 = 106651 := rfl
  simp only [lastFit]
  omega

theorem midnight_ofDate {year month day : Int} (built : ofDate year month day = .ok time)
    (fits : toDays year month day ≤ lastFit) :
    0 ≤ time.timePoint ∧ time.timePoint = toDays year month day * dayTicks := by
  obtain ⟨since, firstMonth, lastMonth, firstDay, _, rfl⟩ := ofDate_eq_ok built
  have first := toDays_nonneg since firstMonth lastMonth day
  rw [wrap_of_fits (midnight_fits (by omega) fits), timePoint_ofTimePoint (second_dvd_days _)]
  exact ⟨Int.mul_nonneg (by omega) (by decide), rfl⟩

theorem lastDayOfMonth_ofDate {year month : Int} (built : ofDate year month 1 = .ok time)
    (fits : toDays year month 1 ≤ lastFit) : time.lastDayOfMonth = lengthOfMonth year month := by
  obtain ⟨since, firstMonth, lastMonth, _⟩ := ofDate_eq_ok built
  obtain ⟨sameYear, sameMonth, _⟩ := date_of_midnight (ValidDate.first firstMonth lastMonth)
    (by omega) (midnight_ofDate built fits).2
  simp only [lastDayOfMonth, sameYear, sameMonth, lengthOfMonth]

/-- The first day of April 2262, the month in which the ticks end. -/
def clockEnd : Int := toDays 2262 4 1

/-- The times from 1970 to March 2262, in the whole months that fit. -/
structure InClock (time : DateTime) : Prop where
  nonneg : 0 ≤ time.timePoint
  early : time.daysSinceEpoch < clockEnd

theorem InClock.fits (inClock : InClock time) : time.timePoint < 2 ^ 63 := by
  obtain ⟨nonneg, early⟩ := inClock
  have number : clockEnd = 106741 := rfl
  obtain ⟨rest, split, _, _, _, _, _, _, _⟩ := exists_rest nonneg
  simp only [dayTicks, hourTicks, minuteTicks, secondTicks] at *
  omega

theorem InClock.monthEnd_le (inClock : InClock time) : monthEnd time.year time.month ≤ clockEnd := by
  obtain ⟨nonneg, early⟩ := inClock
  let april := ofTimePoint (clockEnd * dayTicks)
  have midnight : april.timePoint = toDays 2262 4 1 * dayTicks :=
    timePoint_ofTimePoint (second_dvd_days _)
  obtain ⟨year, month, _⟩ :=
    date_of_midnight (ValidDate.first (by decide) (by decide)) (by decide) midnight
  have days : april.daysSinceEpoch = clockEnd := days_of_midnight midnight
  have differ : ¬ (april.year = time.year ∧ april.month = time.month) := by
    rintro ⟨sameYear, sameMonth⟩
    have start := (month_bounds nonneg).1
    rw [← sameYear, ← sameMonth, year, month] at start
    exact absurd start (not_le.mpr early)
  rw [← days] at early ⊢
  exact monthEnd_le_of_laterMonth nonneg (by decide) early.le differ

theorem year_le_of_fits (nonneg : 0 ≤ time.timePoint) (fits : time.timePoint < 2 ^ 63) :
    time.year ≤ 2262 := by
  have last := days_le_lastFit nonneg fits
  have newYear : toDays (2262 + 1) 1 1 = 107016 := rfl
  exact year_le_of_before nonneg (by decide) (by simp only [lastFit] at last; omega)

theorem InClock.ofDate_ok {day : Int} (inClock : InClock time) (firstDay : 1 ≤ day)
    (lastDay : day ≤ 31) : ofDate time.year time.month day =
      .ok (ofTimePoint (toDays time.year time.month day * dayTicks)) ∧
      toDays time.year time.month day ≤ lastFit := by
  obtain ⟨valid, _, _⟩ := validDate inClock.nonneg
  have since := year_ge inClock.nonneg
  have upTo := year_le_of_fits inClock.nonneg inClock.fits
  have first := toDays_nonneg since valid.firstMonth valid.lastMonth day
  have inMonth := toDays_day time.year time.month day
  have length := lengthOfMonth_bounds time.year time.month
  have ends := inClock.monthEnd_le
  have number : clockEnd = 106741 := rfl
  have fits : toDays time.year time.month day ≤ lastFit := by
    simp only [monthEnd, lastFit] at *
    omega
  rw [DateTime.ofDate_ok since (by omega) valid.firstMonth valid.lastMonth firstDay lastDay,
    wrap_of_fits (midnight_fits (by omega) fits)]
  exact ⟨rfl, fits⟩

/-! ### Weekdays -/

theorem daysSinceEpoch_plus_days (nonneg : 0 ≤ time.timePoint) {days : Int}
    (stays : 0 ≤ time.timePoint + days * dayTicks) (fits : time.timePoint + days * dayTicks < 2 ^ 63) :
    (time.plus (days * dayTicks)).daysSinceEpoch = time.daysSinceEpoch + days := by
  rw [daysSinceEpoch, daysSinceEpoch, timePoint_plus (second_dvd_days _) ⟨by omega, fits⟩,
    Int.tdiv_eq_ediv_of_nonneg stays, Int.tdiv_eq_ediv_of_nonneg nonneg,
    Int.add_mul_ediv_right _ _ (by decide)]

theorem weekdayFromDays_eq (days : Int) : weekdayFromDays days = (days + 4) % 7 := by
  unfold weekdayFromDays
  split
  · rw [Int.tmod_eq_emod_of_nonneg (by omega)]
  · have negative : (days + 5).tmod 7 = -(-(days + 5) % 7) := by
      rw [← Int.tmod_eq_emod_of_nonneg (by omega), Int.neg_tmod, Int.neg_neg]
    omega

theorem dayOfWeek_eq (time : DateTime) : time.dayOfWeek = (time.daysSinceEpoch + 4) % 7 :=
  weekdayFromDays_eq _

theorem dayOfWeek_bounds (time : DateTime) : 0 ≤ time.dayOfWeek ∧ time.dayOfWeek ≤ 6 := by
  rw [dayOfWeek_eq]
  omega

/-! ### Repetition -/

/-- The days of four hundred years. -/
def cycleDays : Int := 146097

theorem isLeap_cycle {year : Int} (nonneg : 0 ≤ year) : isLeap (year + 400) = isLeap year := by
  rw [Bool.eq_iff_iff, isLeap_iff nonneg, isLeap_iff (by omega)]
  omega

theorem toDays_cycle {year month : Int} (positive : 1 ≤ year) (day : Int) :
    toDays (year + 400) month day = toDays year month day + cycleDays := by
  have march : 0 ≤ marchYear year month ∧ 0 ≤ marchYear (year + 400) month := by
    simp only [marchYear]
    omega
  rw [toDays_eq march.1, toDays_eq march.2]
  simp only [daysBefore, marchYear, cycleDays]
  omega

end DateTime

end BabyLuigi.Cron
