import FastDb.Foundation.Calendar

/-! # Timestamps of articles

`mysql_datetime_to_time_point` of `deprecated/MySqlBlog.cppm`. It adds the fields of a
datetime as durations, and `std::chrono::months` and `std::chrono::years` are the fixed
durations of an average month and an average year, so the sum is the instant the calendar
gives only where an average is exact: from 1970 to 2261 in the first month and once more
3200 months later. The microseconds it does not add
(`FastDb.Blog.mysqlDatetimeToTimePoint_iff`). A time point counts nanoseconds from the epoch;
all of them in these years fit into 64 bits (`FastDb.Blog.mysqlDatetimeToTimePoint_int64`).
-/

namespace FastDb.Blog

open Foundation

/-! ## Durations, in nanoseconds -/

/-- `std::chrono::microseconds`, in nanoseconds. -/
def microseconds (count : Int) : Int := count * 1000

/-- `std::chrono::seconds`. -/
def seconds (count : Int) : Int := count * 1000000000

/-- `std::chrono::minutes`. -/
def minutes (count : Int) : Int := seconds (count * 60)

/-- `std::chrono::hours`. -/
def hours (count : Int) : Int := seconds (count * 3600)

/-- `std::chrono::days`. -/
def days (count : Int) : Int := seconds (count * 86400)

/-- `std::chrono::months`, twelfths of an average year. -/
def months (count : Int) : Int := seconds (count * 2629746)

/-- `std::chrono::years`, average Gregorian years. -/
def years (count : Int) : Int := seconds (count * 31556952)

/-- `boost::mysql::datetime`, the fields of a column. -/
structure Datetime where
  year : Nat
  month : Nat
  day : Nat
  hour : Nat
  minute : Nat
  second : Nat
  microsecond : Nat

/-- `mysql_datetime_to_time_point`. -/
def mysqlDatetimeToTimePoint (dt : Datetime) : Int :=
  let tp := 0
  let tp := tp + (hours dt.hour + minutes dt.minute + seconds dt.second)
  tp + (days (dt.day - 1) + months (dt.month - 1) + years (dt.year - 1970))

/-! ## The calendar -/

/-- A datetime of the calendar. -/
structure CivilDatetime extends CivilDate where
  hour : Nat
  minute : Nat
  second : Nat
  microsecond : Nat
  hour_lt : hour < 24
  minute_lt : minute < 60
  second_lt : second < 60
  microsecond_lt : microsecond < 1000000

namespace CivilDatetime

/-- The fields as they are stored. -/
def stored (dt : CivilDatetime) : Datetime where
  year := dt.year
  month := dt.month
  day := dt.day
  hour := dt.hour
  minute := dt.minute
  second := dt.second
  microsecond := dt.microsecond

/-- The time since midnight. -/
def timeOfDay (dt : CivilDatetime) : Int :=
  hours dt.hour + minutes dt.minute + seconds dt.second + microseconds dt.microsecond

/-- The instant the calendar gives. -/
def timePoint (dt : CivilDatetime) : Int :=
  days (dt.toCivilDate.number 1970) + dt.timeOfDay

/-- From years to microseconds. -/
def fields (dt : CivilDatetime) : List Nat :=
  [dt.year, dt.month, dt.day, dt.hour, dt.minute, dt.second, dt.microsecond]

/-- A month at whose beginning the average lengths are exact. -/
def InExactMonth (dt : CivilDatetime) : Prop :=
  dt.year = 1970 ∧ dt.month = 1 ∨ dt.year = 2236 ∧ dt.month = 9

/-- A datetime that is converted exactly. -/
def Exact (dt : CivilDatetime) : Prop := dt.InExactMonth ∧ dt.microsecond = 0

/-- The beginning of a day. -/
def ofDate (date : CivilDate) : CivilDatetime :=
  { date with
    hour := 0
    minute := 0
    second := 0
    microsecond := 0
    hour_lt := by decide
    minute_lt := by decide
    second_lt := by decide
    microsecond_lt := by decide }

variable (dt : CivilDatetime)

/-- The months between January 1970 and the month of a datetime. -/
def monthCount : Nat := 12 * (dt.year - 1970) + (dt.month - 1)

/-- The days between the first of January 1970 and the first of the month. -/
def monthStart : Nat := daysBeforeYear 1970 dt.year + daysBeforeMonth dt.year dt.month

/-- What is added is the average months, the days of the month and the time of day without
microseconds. -/
theorem mysqlDatetimeToTimePoint_stored (since : 1970 ≤ dt.year) :
    mysqlDatetimeToTimePoint dt.stored = months dt.monthCount + days (dt.day - 1) +
      (dt.timeOfDay - microseconds dt.microsecond) := by
  have month := dt.month_pos
  simp only [mysqlDatetimeToTimePoint, stored, timeOfDay, monthCount, months, years, days, hours,
    minutes, seconds, microseconds]
  omega

/-- A time point by its month, day and time of day. -/
theorem timePoint_eq : dt.timePoint = days dt.monthStart + days (dt.day - 1) + dt.timeOfDay := by
  have day := dt.day_pos
  simp only [timePoint, CivilDate.number, monthStart, days, seconds]
  omega

/-- Whole seconds are no part of a second. -/
theorem seconds_eq_microseconds_iff {count : Int} {part : Nat} (short : part < 1000000) :
    seconds count = microseconds part ↔ count = 0 ∧ part = 0 := by
  rw [seconds, microseconds]
  omega

/-- The two differ by how far the average months are off, and by the microseconds. -/
theorem mysqlDatetimeToTimePoint_eq_iff (since : 1970 ≤ dt.year) :
    mysqlDatetimeToTimePoint dt.stored = dt.timePoint ↔
      dt.monthCount * 2629746 = dt.monthStart * 86400 ∧ dt.microsecond = 0 := by
  have apart : mysqlDatetimeToTimePoint dt.stored = dt.timePoint ↔
      seconds (dt.monthCount * 2629746 - dt.monthStart * 86400) =
        microseconds dt.microsecond := by
    have difference : seconds (dt.monthCount * 2629746 - dt.monthStart * 86400) =
        months dt.monthCount - days dt.monthStart := Int.sub_mul _ _ _
    rw [dt.mysqlDatetimeToTimePoint_stored since, timePoint_eq, difference]
    omega
  rw [apart, seconds_eq_microseconds_iff dt.microsecond_lt]
  omega

/-- Average months add up to whole days after each 1600 months. -/
theorem count_of_exact {count start : Nat} (same : count * 2629746 = start * 86400)
    (below : count < 3504) : count = 0 ∨ count = 1600 ∨ count = 3200 := by
  have scaled : 48699 * count = 1600 * start := by
    clear below
    omega
  have coprime : Nat.Coprime 1600 48699 := by decide
  obtain ⟨turns, rfl⟩ := coprime.dvd_of_dvd_mul_left ⟨start, scaled⟩
  clear same scaled
  omega

/-- The months up to the year 2261. -/
theorem monthCount_lt (before : dt.year ≤ 2261) : dt.monthCount < 3504 := by
  have last := dt.month_le
  rw [monthCount]
  omega

/-- The months since 1970 give back year and month. -/
theorem year_month_eq (since : 1970 ≤ dt.year) :
    dt.year = 1970 + dt.monthCount / 12 ∧ dt.month = dt.monthCount % 12 + 1 := by
  have first := dt.month_pos
  have last := dt.month_le
  rw [monthCount]
  omega

/-- Of the three months at which that is before 2262, the calendar is behind in May 2103. -/
theorem exact_months_iff (since : 1970 ≤ dt.year) (before : dt.year ≤ 2261) :
    dt.monthCount * 2629746 = dt.monthStart * 86400 ↔ dt.InExactMonth := by
  constructor
  · intro same
    obtain ⟨year, month⟩ := dt.year_month_eq since
    rcases count_of_exact same (dt.monthCount_lt before) with count | count | count
    · rw [count] at year month
      exact Or.inl ⟨year, month⟩
    · rw [count] at year month
      rw [count, monthStart, year, month] at same
      exact absurd same (by decide +kernel)
    · rw [count] at year month
      exact Or.inr ⟨year, month⟩
  · intro inMonth
    rw [monthCount, monthStart]
    rcases inMonth with ⟨year, month⟩ | ⟨year, month⟩
    · rw [year, month]
      decide +kernel
    · rw [year, month]
      decide +kernel

/-- The calendar is kept. -/
theorem Exact.timePoint {dt : CivilDatetime} (kept : dt.Exact) :
    mysqlDatetimeToTimePoint dt.stored = dt.timePoint := by
  have years : 1970 ≤ dt.year ∧ dt.year ≤ 2261 := by
    rcases kept.1 with ⟨year, -⟩ | ⟨year, -⟩
    · omega
    · omega
  rw [dt.mysqlDatetimeToTimePoint_eq_iff years.1, dt.exact_months_iff years.1 years.2]
  exact kept

/-- A time of day is less than a day. -/
theorem timeOfDay_bounds : 0 ≤ dt.timeOfDay ∧ dt.timeOfDay < days 1 := by
  have hour := dt.hour_lt
  have minute := dt.minute_lt
  have second := dt.second_lt
  have microsecond := dt.microsecond_lt
  simp only [timeOfDay, hours, minutes, days, seconds, microseconds]
  omega

/-- Times of a day are in the order of their fields. -/
theorem timeOfDay_lt {dt later : CivilDatetime}
    (before : [dt.hour, dt.minute, dt.second, dt.microsecond] <
      [later.hour, later.minute, later.second, later.microsecond]) :
    dt.timeOfDay < later.timeOfDay := by
  have minute := dt.minute_lt
  have second := dt.second_lt
  have microsecond := dt.microsecond_lt
  simp only [List.cons_lt_cons_iff, List.not_lt_nil, and_false, or_false] at before
  simp only [timeOfDay, hours, minutes, seconds, microseconds]
  omega

/-- Datetimes are in the order of their dates, and on one day of their times. -/
theorem date_or_time_lt {dt later : CivilDatetime} (before : dt.fields < later.fields) :
    dt.toCivilDate.fields < later.toCivilDate.fields ∨
      dt.toCivilDate.fields = later.toCivilDate.fields ∧ dt.timeOfDay < later.timeOfDay := by
  rcases List.cons_lt_cons_iff.mp before with earlier | ⟨year, before⟩
  · exact Or.inl (List.cons_lt_cons_iff.mpr (Or.inl earlier))
  · rcases List.cons_lt_cons_iff.mp before with earlier | ⟨month, before⟩
    · left
      rw [CivilDate.fields, CivilDate.fields, year]
      exact List.cons_lt_cons_self.mpr (List.cons_lt_cons_iff.mpr (Or.inl earlier))
    · rcases List.cons_lt_cons_iff.mp before with earlier | ⟨day, before⟩
      · left
        rw [CivilDate.fields, CivilDate.fields, year, month]
        apply List.cons_lt_cons_self.mpr
        exact List.cons_lt_cons_self.mpr (List.cons_lt_cons_iff.mpr (Or.inl earlier))
      · right
        rw [CivilDate.fields, CivilDate.fields, year, month, day]
        exact ⟨rfl, timeOfDay_lt before⟩

/-- The instants the calendar gives follow the order of the fields. -/
theorem timePoint_lt {dt later : CivilDatetime} (since : 1970 ≤ dt.year)
    (before : dt.fields < later.fields) : dt.timePoint < later.timePoint := by
  rcases date_or_time_lt before with earlier | ⟨sameDay, earlier⟩
  · have numbers := CivilDate.number_lt since earlier
    have early := dt.timeOfDay_bounds.2
    have late := later.timeOfDay_bounds.1
    simp only [timePoint, days, seconds] at early ⊢
    omega
  · rw [timePoint, timePoint, CivilDate.number_congr 1970 sameDay]
    exact Int.add_lt_add_left earlier _

end CivilDatetime

/-- In these years all time points fit into 64 bits. -/
theorem mysqlDatetimeToTimePoint_int64 (dt : CivilDatetime) (since : 1970 ≤ dt.year)
    (before : dt.year ≤ 2261) : 0 ≤ mysqlDatetimeToTimePoint dt.stored ∧
      mysqlDatetimeToTimePoint dt.stored < 2 ^ 63 := by
  have first := dt.day_pos
  have last : dt.day ≤ 31 := dt.day_le.trans (monthLength_le dt.year dt.month)
  have count := dt.monthCount_lt before
  have time := dt.timeOfDay_bounds
  have microsecond := dt.microsecond_lt
  rw [dt.mysqlDatetimeToTimePoint_stored since]
  simp only [CivilDatetime.timeOfDay, months, days, hours, minutes, seconds, microseconds] at time ⊢
  omega

/-- **The calendar** is kept by a datetime of an exact month without microseconds, and by no
other one from 1970 to 2261; time points of datetimes that keep it follow their order. -/
theorem mysqlDatetimeToTimePoint_iff (dt : CivilDatetime) (since : 1970 ≤ dt.year)
    (before : dt.year ≤ 2261) :
    (mysqlDatetimeToTimePoint dt.stored = dt.timePoint ↔ dt.Exact) ∧
      ∀ later : CivilDatetime, dt.Exact → later.Exact → dt.fields < later.fields →
        mysqlDatetimeToTimePoint dt.stored < mysqlDatetimeToTimePoint later.stored := by
  constructor
  · rw [dt.mysqlDatetimeToTimePoint_eq_iff since, dt.exact_months_iff since before]
    rfl
  · intro later kept laterKept earlier
    rw [kept.timePoint, laterKept.timePoint]
    exact CivilDatetime.timePoint_lt since earlier

/-- The beginning of the second of September 2236. -/
def september : CivilDatetime :=
  CivilDatetime.ofDate ⟨2236, 9, 2, by decide, by decide, by decide, by decide⟩

/-- A datetime of a September, which is converted exactly. -/
theorem mysqlDatetimeToTimePoint_september :
    mysqlDatetimeToTimePoint september.stored = september.timePoint := by
  have kept : september.Exact := ⟨Or.inr ⟨rfl, rfl⟩, rfl⟩
  exact (mysqlDatetimeToTimePoint_iff september (by decide) (by decide)).1.mpr kept

/-- The first of February 1970 comes out before the evening of the last of January. -/
theorem mysqlDatetimeToTimePoint_february :
    mysqlDatetimeToTimePoint ⟨1970, 2, 1, 0, 0, 0, 0⟩ = seconds 2629746 ∧
      (CivilDatetime.ofDate ⟨1970, 2, 1, by decide, by decide, by decide, by decide⟩).timePoint =
        seconds 2678400 ∧
      mysqlDatetimeToTimePoint ⟨1970, 1, 31, 23, 0, 0, 0⟩ = seconds 2674800 := by
  decide +kernel

end FastDb.Blog
