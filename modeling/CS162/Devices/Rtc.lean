import Mathlib.Tactic
import CS162.Block

/-!
# The real-time clock (`devices/rtc.c`)

`rtc_get_time` reads a date in BCD and turns it into a number of seconds; `Date.seconds` is the
number that it should return.  The two differ by what they count for the year and the month, of
which there are few.
-/

namespace CS162

def bcdToBin (x : UInt8) : ℤ := (x &&& 0x0f).toNat + (x >>> 4).toNat * 10

def daysPerMonth : List ℕ := [31, 28, 31, 30, 31, 30, 31, 31, 30, 31, 30, 31]

/-- What `rtc_get_time` counts for the year and the month. -/
def timeOfMonth (mon : ℕ) (year : ℤ) : ℤ :=
  let year := (if year < 70 then year + 100 else year) - 70
  (year * 365 + (year - 1).tdiv 4) * 24 * 60 * 60 + (daysPerMonth.take mon).sum * 24 * 60 * 60 +
    if mon > 2 ∧ year % 4 = 0 then 24 * 60 * 60 else 0

/-- `rtc_get_time`; read number `k` of register `index` gives `cmos k index`. -/
def rtcGetTime (cmos : ℕ → ℕ → UInt8) : ℕ → ℕ → Except Fault ℤ
  | 0, _ => .error .outOfFuel
  | fuel + 1, k =>
    let read i index := bcdToBin (cmos (k + i) index)
    if read 0 0 ≠ read 6 0 then rtcGetTime cmos fuel (k + 7)
    else if 12 < read 4 8 then .error (.undefined "days_per_month")
    else .ok ((timeOfMonth (read 4 8).toNat (read 5 9) + (read 3 7 - 1) * 24 * 60 * 60 +
      read 2 4 * 60 * 60 + read 1 2 * 60 + read 0 0) % 2 ^ 32)

/-- A date of the Gregorian calendar, with a time. -/
structure Date where
  (year month day hour minute second : ℕ)

namespace Date

def yearDays (year : ℕ) : ℕ :=
  if year % 4 = 0 ∧ (year % 100 ≠ 0 ∨ year % 400 = 0) then 366 else 365

def monthDays (year month : ℕ) : ℕ :=
  if month = 2 then yearDays year - 337 else daysPerMonth.getD (month - 1) 0

/-- The days from 1970 to the first of a month. -/
def daysBefore (year month : ℕ) : ℕ :=
  ((List.range' 1970 (year - 1970)).map yearDays).sum +
    ((List.range' 1 (month - 1)).map (monthDays year)).sum

def seconds (d : Date) : ℕ :=
  (daysBefore d.year d.month + d.day - 1) * 86400 + d.hour * 3600 + d.minute * 60 + d.second

/-- The dates from 1970 to the end of 31-bit seconds. -/
structure Valid (d : Date) : Prop where
  year : d.year ∈ Finset.Icc 1970 2038
  month : d.month ∈ Finset.Icc 1 12
  day : d.day ∈ Finset.Icc 1 (monthDays d.year d.month)
  time : d.hour < 24 ∧ d.minute < 60 ∧ d.second < 60
  seconds : d.seconds < 2 ^ 31

def bcd (n : ℕ) : UInt8 := .ofNat (n / 10 * 16 + n % 10)

/-- The registers hold the date, in BCD. -/
def cmos (d : Date) : ℕ → UInt8
  | 0 => bcd d.second
  | 2 => bcd d.minute
  | 4 => bcd d.hour
  | 7 => bcd d.day
  | 8 => bcd d.month
  | _ => bcd (d.year % 100)

theorem bcdToBin_bcd : ∀ n < 100, bcdToBin (bcd n) = n := by decide

/-- The clock is about a month fast: the month that has begun is counted. -/
theorem timeOfMonth_fast : ∀ year ∈ Finset.Icc 1970 2038, ∀ month ∈ Finset.Icc 1 12,
    (daysBefore year month + 26) * 86400 ≤ timeOfMonth month (year % 100 : ℕ) ∧
      timeOfMonth month (year % 100 : ℕ) ≤ (daysBefore year month + 33) * 86400 ∧
      monthDays year month ≤ 31 := by
  decide +kernel

/-- **`rtc_get_time` is wrong for every date.** -/
theorem rtcGetTime_ne (d : Date) (h : d.Valid) (fuel k : ℕ) :
    rtcGetTime (fun _ => d.cmos) (fuel + 1) k ≠ .ok d.seconds := by
  obtain ⟨hlow, hhigh, hday⟩ := timeOfMonth_fast _ h.year _ h.month
  obtain ⟨hhour, hminute, hsecond⟩ := h.time
  have hmonth' := Finset.mem_Icc.mp h.month
  have hday' := Finset.mem_Icc.mp h.day
  simp only [rtcGetTime, cmos]
  rw [bcdToBin_bcd _ (by omega), bcdToBin_bcd _ (by omega), bcdToBin_bcd _ (by omega),
    bcdToBin_bcd _ (by omega), bcdToBin_bcd _ (by omega), bcdToBin_bcd _ (by omega),
    if_neg (by simp), if_neg (by omega), Int.toNat_natCast]
  unfold seconds at *
  intro heq
  replace heq := Except.ok.inj heq
  omega

theorem rtcGetTime_ne_march : (⟨2017, 3, 14, 12, 30, 0⟩ : Date).Valid ∧
    rtcGetTime (fun _ => cmos ⟨2017, 3, 14, 12, 30, 0⟩) 1 0 ≠ .ok 1489494600 := by
  have hvalid : (⟨2017, 3, 14, 12, 30, 0⟩ : Date).Valid := by
    constructor <;> decide
  exact ⟨hvalid, rtcGetTime_ne _ hvalid 0 0⟩

/-- The epoch is given 31 days, and the first of February comes before the last of January. -/
theorem rtcGetTime_goes_back :
    rtcGetTime (fun _ => cmos ⟨1970, 1, 1, 0, 0, 0⟩) 1 0 = .ok (31 * 86400) ∧
      rtcGetTime (fun _ => cmos ⟨1970, 1, 31, 0, 0, 0⟩) 1 0 = .ok (61 * 86400) ∧
      rtcGetTime (fun _ => cmos ⟨1970, 2, 1, 0, 0, 0⟩) 1 0 = .ok (59 * 86400) := by
  decide

end Date

end CS162
