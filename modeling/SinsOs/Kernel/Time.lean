/-
Reading the clock at startup (arch_read_time, include/asm/time.h) and the seconds since 1970 (mktime, kernel/time.c).

The clock is the bytes of its registers, by the number of the read. A value that does not fit in 32 bits and an index outside of
the table of the months are `none`. The month is counted from 0, and it is decoded after the 1 is taken off: of 0x10 that leaves
0x0F, which is 15.

- `mktime_eq`: mktime is the seconds since 1970, for the years in which every fourth year is a leap year.
- `clock_right_iff`: so a date on the clock is read right exactly when it is not in October.
-/
import Mathlib.Tactic

namespace SinsOs.Time

/-! ## Model -/

def minute : ℤ := 60
def hour : ℤ := 60 * minute
def day : ℤ := 24 * hour
def year : ℤ := 365 * day

structure Tm where
  sec : ℤ
  min : ℤ
  hour : ℤ
  mday : ℤ
  mon : ℤ
  year : ℤ
deriving DecidableEq, Repr

abbrev Byte := BitVec 8

/-- the 15 and the shift by 4 of BCD_TO_BIN -/
def bcdToBin (val : ℤ) : ℤ := val % 16 + val / 16 * 10

/-- the registers as they are read in a turn of the loop that starts with read t -/
def readRegisters (clock : ℕ → ℕ → Byte) (t : ℕ) : Tm where
  sec := (clock t 0).toNat
  min := (clock (t + 1) 2).toNat
  hour := (clock (t + 2) 4).toNat
  mday := (clock (t + 3) 7).toNat
  mon := (clock (t + 4) 8).toNat - 1
  year := (clock (t + 5) 9).toNat

def decode (time : Tm) : Tm where
  sec := bcdToBin time.sec
  min := bcdToBin time.min
  hour := bcdToBin time.hour
  mday := bcdToBin time.mday
  mon := bcdToBin time.mon
  year := bcdToBin time.year + 2000

/-- `none` when the fuel is used up: the second has changed in every turn -/
def archReadTime (clock : ℕ → ℕ → Byte) : ℕ → ℕ → Option Tm
  | 0, _ => none
  | fuel + 1, t =>
    let time := readRegisters clock t
    if time.sec ≠ (clock (t + 6) 0).toNat then archReadTime clock fuel (t + 7) else some (decode time)

/-- a value of an int or a long -/
def int32 (v : ℤ) : Option ℤ := if -0x80000000 ≤ v ∧ v < 0x80000000 then some v else none

/-- the seconds before each month of a leap year -/
def month : List ℤ :=
  [0, day * 31, day * (31 + 29), day * (31 + 29 + 31), day * (31 + 29 + 31 + 30), day * (31 + 29 + 31 + 30 + 31),
    day * (31 + 29 + 31 + 30 + 31 + 30), day * (31 + 29 + 31 + 30 + 31 + 30 + 31),
    day * (31 + 29 + 31 + 30 + 31 + 30 + 31 + 31), day * (31 + 29 + 31 + 30 + 31 + 30 + 31 + 31 + 30),
    day * (31 + 29 + 31 + 30 + 31 + 30 + 31 + 31 + 30 + 31), day * (31 + 29 + 31 + 30 + 31 + 30 + 31 + 31 + 30 + 31 + 30)]

def monthAt (mon : ℤ) : Option ℤ := if 0 ≤ mon then month[mon.toNat]? else none

def mktime (tm : Tm) : Option ℤ := do
  let y ← int32 (tm.year - 1970)
  let years ← int32 (year * y)
  let leaps ← int32 (day * (y + 1).tdiv 4)
  let res ← int32 (years + leaps)
  let before ← monthAt tm.mon
  let res ← int32 (res + before)
  -- the table is that of a leap year
  let res ← if tm.mon > 1 ∧ (y + 2).tmod 4 ≠ 0 then int32 (res - day) else some res
  let days ← int32 (day * (tm.mday - 1))
  let res ← int32 (res + days)
  let hours ← int32 (hour * tm.hour)
  let res ← int32 (res + hours)
  let minutes ← int32 (minute * tm.min)
  let res ← int32 (res + minutes)
  int32 (res + tm.sec)

/-! ## The calendar -/

def Leap (y : ℕ) : Prop := 4 ∣ y ∧ (¬ 100 ∣ y ∨ 400 ∣ y)

instance (y : ℕ) : Decidable (Leap y) := inferInstanceAs (Decidable (_ ∧ _))

def daysOfYear (y : ℕ) : ℕ := if Leap y then 366 else 365

def daysOfMonth (y m : ℕ) : ℕ :=
  if m = 2 then if Leap y then 29 else 28 else if m = 4 ∨ m = 6 ∨ m = 9 ∨ m = 11 then 30 else 31

/-- a date and a time of the day; the months and the days of a month are counted from 1 -/
structure Date where
  year : ℕ
  month : ℕ
  day : ℕ
  hour : ℕ
  min : ℕ
  sec : ℕ
deriving DecidableEq, Repr

structure Date.Valid (d : Date) : Prop where
  month : 1 ≤ d.month ∧ d.month ≤ 12
  day : 1 ≤ d.day ∧ d.day ≤ daysOfMonth d.year d.month
  hour : d.hour < 24
  min : d.min < 60
  sec : d.sec < 60

/-- the days from 1970-01-01 on -/
def Date.days (d : Date) : ℕ :=
  ∑ y ∈ Finset.Ico 1970 d.year, daysOfYear y + ∑ m ∈ Finset.Ico 1 d.month, daysOfMonth d.year m + (d.day - 1)

/-- the seconds from 1970-01-01 00:00:00 on -/
def Date.seconds (d : Date) : ℕ := d.days * 86400 + d.hour * 3600 + d.min * 60 + d.sec

/-- from 2000-01-01 00:00:00 to 2038-01-19 03:14:07 -/
def Date.InRange (d : Date) : Prop := 2000 ≤ d.year ∧ d.seconds < 0x80000000

/-- two decimal digits -/
def bcd (n : ℕ) : Byte := BitVec.ofNat 8 (n / 10 * 16 + n % 10)

/-- the registers hold the date -/
structure Shows (regs : ℕ → Byte) (d : Date) : Prop where
  sec : regs 0 = bcd d.sec
  min : regs 2 = bcd d.min
  hour : regs 4 = bcd d.hour
  mday : regs 7 = bcd d.day
  mon : regs 8 = bcd d.month
  year : regs 9 = bcd (d.year - 2000)

variable {d : Date} {m n y : ℕ} {v : ℤ}

theorem leap_iff (hl : 1901 ≤ y) (hu : y < 2100) : Leap y ↔ 4 ∣ y := by
  unfold Leap
  omega

theorem sum_years (hl : 1970 ≤ y) (hu : y ≤ 2100) :
    ∑ k ∈ Finset.Ico 1970 y, daysOfYear k = 365 * (y - 1970) + (y - 1969) / 4 := by
  induction y, hl using Nat.le_induction with
  | base => rfl
  | succ y hl ih =>
    rw [Finset.sum_Ico_succ_top hl, ih (Nat.le_of_succ_le hu), daysOfYear]
    have hleap := leap_iff (Nat.le_trans (by decide) hl) hu
    split_ifs with h
    · have hdvd := hleap.1 h
      omega
    · have hdvd : ¬ 4 ∣ y := fun hd => h (hleap.2 hd)
      omega

/-- the months of a year against those of a leap year -/
theorem sum_months (hm : 1 ≤ m) (hmu : m ≤ 12) (y : ℕ) :
    ∑ k ∈ Finset.Ico 1 m, daysOfMonth y k + (if 2 < m ∧ ¬ Leap y then 1 else 0) = ∑ k ∈ Finset.Ico 1 m,
    daysOfMonth 2000 k := by
  have hleap : Leap 2000 := by decide
  by_cases h : Leap y
  · simp [daysOfMonth, h, hleap]
  · interval_cases m <;> simp [daysOfMonth, h, hleap, Finset.sum_Ico_succ_top]

theorem year_le (h : d.InRange) : d.year ≤ 2038 := by
  by_contra hlt
  have hsub : Finset.Ico 1970 2039 ⊆ Finset.Ico 1970 d.year := Finset.Ico_subset_Ico_right (by omega)
  have hsum := Finset.sum_le_sum_of_subset (f := daysOfYear) hsub
  rw [sum_years (by decide) (by decide)] at hsum
  have hs := h.2
  unfold Date.seconds Date.days at hs
  omega

/-! ## The clock -/

theorem bcd_toNat (h : n < 100) : (bcd n).toNat = n / 10 * 16 + n % 10 := by
  rw [bcd, BitVec.toNat_ofNat]
  omega

theorem bcdToBin_bcd (h : n < 100) : bcdToBin (bcd n).toNat = n := by
  rw [bcd_toNat h, bcdToBin]
  omega

/-- the 1 is taken off the two digits, and not off the number -/
theorem bcdToBin_month (hm : 1 ≤ m) (hmu : m ≤ 12) : bcdToBin ((bcd m).toNat - 1) = if m = 10 then 15 else (m : ℤ) - 1 := by
  rw [bcd_toNat (by omega), bcdToBin]
  split_ifs <;> omega

/-- a clock that stands still is read in one turn -/
theorem archReadTime_stable {clock : ℕ → ℕ → Byte} {regs : ℕ → Byte} (h : ∀ t, clock t = regs) (fuel t : ℕ) :
    archReadTime clock (fuel + 1) t = some (decode (readRegisters (fun _ => regs) 0)) := by
  have hclock : clock = fun _ => regs := funext h
  rw [archReadTime, hclock]
  exact if_neg (not_not.2 rfl)

theorem decode_shows {regs : ℕ → Byte} (hs : Shows regs d) (hv : d.Valid) (hr : d.InRange) :
    decode (readRegisters (fun _ => regs) 0) =
      ⟨d.sec, d.min, d.hour, d.day, if d.month = 10 then 15 else (d.month : ℤ) - 1, d.year⟩ := by
  have hyear := year_le hr
  have hday : d.day < 100 := by
    have hdays := hv.day.2
    unfold daysOfMonth at hdays
    split_ifs at hdays <;> omega
  have hy : bcdToBin (bcd (d.year - 2000)).toNat + 2000 = d.year := by
    rw [bcdToBin_bcd (by omega)]
    have hlow := hr.1
    omega
  rw [decode, readRegisters]
  dsimp only
  rw [hs.sec, hs.min, hs.hour, hs.mday, hs.mon, hs.year, hy, bcdToBin_month hv.month.1 hv.month.2, bcdToBin_bcd hday,
    bcdToBin_bcd (Nat.lt_trans hv.sec (by decide)), bcdToBin_bcd (Nat.lt_trans hv.min (by decide)),
    bcdToBin_bcd (Nat.lt_trans hv.hour (by decide))]

/-! ## mktime -/

theorem int32_bind (h : -0x80000000 ≤ v ∧ v < 0x80000000) (f : ℤ → Option ℤ) : (int32 v).bind f = f v := by
  rw [int32, if_pos h]
  rfl

theorem monthAt_eq (hm : 1 ≤ m) (hmu : m ≤ 12) :
    monthAt ((m : ℤ) - 1) = some (86400 * ((∑ k ∈ Finset.Ico 1 m, daysOfMonth 2000 k : ℕ) : ℤ)) := by
  interval_cases m <;> rfl

theorem table_le (hm : 1 ≤ m) (hmu : m ≤ 12) : ∑ k ∈ Finset.Ico 1 m, daysOfMonth 2000 k ≤ 335 := by
  interval_cases m <;> decide

/-- **mktime.** For a date in range, with the month counted from 0, every value fits in 32 bits, and the result is the number of
seconds since 1970. -/
theorem mktime_eq (hv : d.Valid) (hr : d.InRange) :
    mktime ⟨d.sec, d.min, d.hour, d.day, (d.month : ℤ) - 1, d.year⟩ = some (d.seconds : ℤ) := by
  have hyear := year_le hr
  obtain ⟨hlow, hseconds⟩ := hr
  obtain ⟨⟨hm, hmu⟩, ⟨hday, hdayu⟩, hhour, hmin, hsec⟩ := hv
  have hmonths := sum_months hm hmu d.year
  have hyears := sum_years (y := d.year) (by omega) (by omega)
  have hleap := leap_iff (y := d.year) (by omega) (by omega)
  -- the table of the months is added with the day that a year without a leap day has too many
  have hfix : ((d.month : ℤ) - 1 > 1 ∧ ((d.year : ℤ) - 1970 + 2).tmod 4 ≠ 0) ↔ 2 < d.month ∧ ¬ Leap d.year := by
    rw [hleap, Int.tmod_eq_emod_of_nonneg (by omega)]
    omega
  have hdiv : ((d.year : ℤ) - 1970 + 1).tdiv 4 = ((d.year : ℤ) - 1969) / 4 := by
    rw [Int.tdiv_eq_ediv_of_nonneg (by omega)]
    omega
  have htable := table_le hm hmu
  have hlong : 2 < d.month → 31 ≤ ∑ k ∈ Finset.Ico 1 d.month, daysOfMonth d.year k := fun h =>
    Finset.single_le_sum (f := daysOfMonth d.year) (fun _ _ => Nat.zero_le _) (Finset.mem_Ico.2 ⟨le_refl 1, by omega⟩)
  unfold Date.seconds Date.days at *
  simp only [mktime, year, day, hour, minute]
  rw [monthAt_eq hm hmu]
  generalize ∑ k ∈ Finset.Ico 1 d.month, daysOfMonth 2000 k = table at *
  generalize ∑ k ∈ Finset.Ico 1 d.month, daysOfMonth d.year k = months at *
  generalize ∑ k ∈ Finset.Ico 1970 d.year, daysOfYear k = years at *
  simp only [Option.bind_eq_bind]
  rw [int32_bind (by omega), hdiv, int32_bind (by omega), int32_bind (by omega), int32_bind (by omega), Option.bind_some,
    int32_bind (by split_ifs at hmonths <;> omega)]
  by_cases hadjust : 2 < d.month ∧ ¬ Leap d.year
  · rw [if_pos (hfix.2 hadjust)]
    rw [if_pos hadjust] at hmonths
    rw [int32_bind (by omega), int32_bind (by omega), int32_bind (by omega), int32_bind (by omega), int32_bind (by omega),
      int32_bind (by omega), int32_bind (by omega), int32, if_pos (by omega)]
    congr 1
    omega
  · rw [if_neg fun h => hadjust (hfix.1 h)]
    rw [if_neg hadjust] at hmonths
    rw [Option.bind_some, int32_bind (by omega), int32_bind (by omega), int32_bind (by omega), int32_bind (by omega),
      int32_bind (by omega), int32_bind (by omega), int32, if_pos (by omega)]
    congr 1
    omega

/-- a month that is not in the table -/
theorem mktime_none (tm : Tm) (h : monthAt tm.mon = none) : mktime tm = none := by
  simp [mktime, h]

/-- mktime of what arch_read_time reads -/
def readSeconds (clock : ℕ → ℕ → Byte) (fuel : ℕ) : Option ℤ := (archReadTime clock fuel 0).bind mktime

/-- **The startup time.** For every date from 2000-01-01 00:00:00 to 2038-01-19 03:14:07 on a clock that stands still, the time
read is the number of seconds since 1970 if and only if the month is not October. -/
theorem clock_right_iff {clock : ℕ → ℕ → Byte} {regs : ℕ → Byte} (hc : ∀ t, clock t = regs) (hs : Shows regs d)
    (hv : d.Valid) (hr : d.InRange) (fuel : ℕ) : readSeconds clock (fuel + 1) = some (d.seconds : ℤ) ↔ d.month ≠ 10 := by
  rw [readSeconds, archReadTime_stable hc, Option.bind_some, decode_shows hs hv hr]
  split_ifs with h
  · have hnone := mktime_none ⟨d.sec, d.min, d.hour, d.day, 15, d.year⟩ rfl
    rw [hnone]
    refine iff_of_false ?_ (not_not.2 h)
    intro hsome
    cases hsome
  · exact iff_of_true (mktime_eq hv hr) h

/-- a clock that holds the date -/
def Date.regs (d : Date) : ℕ → Byte
  | 0 => bcd d.sec
  | 2 => bcd d.min
  | 4 => bcd d.hour
  | 7 => bcd d.day
  | 8 => bcd d.month
  | 9 => bcd (d.year - 2000)
  | _ => 0

theorem shows_regs (d : Date) : Shows d.regs d := ⟨rfl, rfl, rfl, rfl, rfl, rfl⟩

theorem last_second : readSeconds (fun _ => Date.regs ⟨2038, 1, 19, 3, 14, 7⟩) 1 = some 0x7fffffff :=
  (clock_right_iff (fun _ => rfl) (shows_regs ⟨2038, 1, 19, 3, 14, 7⟩)
    ⟨by decide, by decide, by decide, by decide, by decide⟩ ⟨by decide, by decide +kernel⟩ 0).2 (by decide)

/-- The first of October 2000: the index into the table of twelve is 15. -/
theorem october : Date.Valid ⟨2000, 10, 1, 0, 0, 0⟩ ∧ Date.InRange ⟨2000, 10, 1, 0, 0, 0⟩ ∧
    archReadTime (fun _ => Date.regs ⟨2000, 10, 1, 0, 0, 0⟩) 1 0 = some ⟨0, 0, 0, 1, 15, 2000⟩ ∧ month.length = 12 ∧
    readSeconds (fun _ => Date.regs ⟨2000, 10, 1, 0, 0, 0⟩) 1 = none :=
  ⟨⟨by decide, by decide, by decide, by decide, by decide⟩, ⟨by decide, by decide +kernel⟩, by decide, rfl, by decide⟩

end SinsOs.Time
