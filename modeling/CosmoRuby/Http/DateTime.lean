import Mathlib
import CosmoRuby.Lib.Bytes

/-!
# HTTP dates

`FormatHttpDateTime` and `ParseHttpDateTime`. The parser counts years from 1900 but tests them for
the rule of 400 years as if they were counted from zero.
-/

namespace CosmoRuby.Http

open Lib List

/-- The fields of `struct tm` that are printed. -/
structure Tm where
  sec : Int
  min : Int
  hour : Int
  mday : Int
  mon : Int
  year : Int
  wday : Nat
  deriving DecidableEq, Repr

def kMonthNameShort : List Bytes :=
  [[0x4A,0x61,0x6E], [0x46,0x65,0x62], [0x4D,0x61,0x72], [0x41,0x70,0x72], [0x4D,0x61,0x79],
   [0x4A,0x75,0x6E], [0x4A,0x75,0x6C], [0x41,0x75,0x67], [0x53,0x65,0x70], [0x4F,0x63,0x74],
   [0x4E,0x6F,0x76], [0x44,0x65,0x63]]

def kWeekdayNameShort : List Bytes :=
  [[0x53,0x75,0x6E], [0x4D,0x6F,0x6E], [0x54,0x75,0x65], [0x57,0x65,0x64], [0x54,0x68,0x75],
   [0x46,0x72,0x69], [0x53,0x61,0x74]]

def kMonthYearDay (leap : Bool) : List Int :=
  if leap then [0, 31, 60, 91, 121, 152, 182, 213, 244, 274, 305, 335]
  else [0, 31, 59, 90, 120, 151, 181, 212, 243, 273, 304, 334]

/-! ## The code -/

/-- `MIN(MAX(x, low), high)`. -/
def clamp (x low high : Int) : Nat := (min (max x low) high).toNat

def digitChar (i : Nat) : UInt8 := UInt8.ofNat (48 + i)

def twoDigits (i : Nat) : Bytes := [digitChar (i / 10), digitChar (i % 10)]

def formatHttpDateTime (tm : Tm) : Bytes :=
  let year := clamp (tm.year + 1900) 0 9999
  kWeekdayNameShort.getD tm.wday [] ++ [0x2C, 0x20] ++ twoDigits (clamp tm.mday 1 31) ++ [0x20] ++
    kMonthNameShort.getD (clamp tm.mon 0 11) [] ++ [0x20] ++
    [digitChar (year / 1000), digitChar (year / 100 % 10), digitChar (year / 10 % 10),
      digitChar (year % 10)] ++ [0x20] ++
    twoDigits (clamp tm.hour 0 23) ++ [0x3A] ++ twoDigits (clamp tm.min 0 59) ++ [0x3A] ++
    twoDigits (clamp tm.sec 0 59) ++ [0x20, 0x47, 0x4D, 0x54]

/-- The number of the month whose name the text starts with, or one. -/
def parseMonth (p : Bytes) : Nat := (kMonthNameShort.findIdx? (· == p.take 3)).getD 0 + 1

/-- The difference of a character and `'0'`. -/
def digitAt (p : Bytes) (i : Nat) : Int := (p.getD i 0).toInt8.toInt - 48

def unsignedInt (x : Int) : Int := x % 2 ^ 32

def twoAt (p : Bytes) (i : Nat) : Int := digitAt p i * 10 + digitAt p (i + 1)

def codeLeap (year : Int) : Bool :=
  year % 4 = 0 && (year % 100 ≠ 0 || year % 400 = 0)

def parseHttpDateTime (p : Bytes) : Int :=
  if p.length ≠ 29 then 0
  else
    let day := unsignedInt (twoAt p 5 - 1)
    let month := parseMonth (p.drop 8)
    let year := unsignedInt (digitAt p 12 * 1000 + digitAt p 13 * 100 + twoAt p 14 - 1900)
    let hour := unsignedInt (twoAt p 17)
    let minute := unsignedInt (twoAt p 20)
    let second := unsignedInt (twoAt p 23)
    let yday := unsignedInt (day + (kMonthYearDay (codeLeap year)).getD (month - 1) 0)
    (unsignedInt (second + minute * 60 + hour * 3600 + yday * 86400) +
      unsignedInt (year - 70) * 31536000 + unsignedInt (year - 69) / 4 * 86400 -
      unsignedInt (year - 1) / 100 * 86400 + unsignedInt (year + 299) / 400 * 86400).bmod (2 ^ 64)

/-! ## The calendar -/

def isLeap (y : Nat) : Bool := y % 4 = 0 && (y % 100 ≠ 0 || y % 400 = 0)

def monthLengths (y : Nat) : List Nat :=
  [31, if isLeap y then 29 else 28, 31, 30, 31, 30, 31, 31, 30, 31, 30, 31]

/-- The days from the start of 1970 to the start of the year `1970 + k`. -/
def daysBefore : Nat → Nat
  | 0 => 0
  | k + 1 => daysBefore k + if isLeap (1970 + k) then 366 else 365

/-- The days from the start of 1970 to day `d` of month `m` of the year `1970 + k`, all counted
from zero. -/
def daysTo (k m d : Nat) : Nat := daysBefore k + ((monthLengths (1970 + k)).take m).sum + d

/-- The breakdown of the time `t` in the years 1970 to 9999. -/
structure Breakdown (t : Int) (tm : Tm) (k m d : Nat) : Prop where
  year : tm.year = 70 + k ∧ k < 8030
  month : tm.mon = m ∧ m < 12
  day : tm.mday = d + 1 ∧ d < (monthLengths (1970 + k)).getD m 0
  hour : 0 ≤ tm.hour ∧ tm.hour < 24
  min : 0 ≤ tm.min ∧ tm.min < 60
  sec : 0 ≤ tm.sec ∧ tm.sec < 60
  wday : tm.wday = (daysTo k m d + 4) % 7
  time : t = daysTo k m d * 86400 + tm.hour * 3600 + tm.min * 60 + tm.sec

theorem daysBefore_eq (k : Nat) :
    (daysBefore k : Int) = k * 365 + (k + 1) / 4 - (k + 69) / 100 + (k + 369) / 400 := by
  induction k with
  | zero => rfl
  | succ k ih =>
    rw [daysBefore]
    unfold isLeap
    split_ifs with hleap
    · simp at hleap
      omega
    · simp at hleap
      omega

theorem sum_monthLengths (y : Nat) {m : Nat} (hm : m < 12) :
    (((monthLengths y).take m).sum : Int) = (kMonthYearDay (isLeap y)).getD m 0 := by
  unfold monthLengths kMonthYearDay
  cases isLeap y <;> interval_cases m <;> rfl

/-! ## Digits -/

theorem digitChar_value : ∀ i < 10, (digitChar i).toInt8.toInt - 48 = i := by decide

theorem twoDigits_value {i : Nat} (hi : i < 100) :
    ((digitChar (i / 10)).toInt8.toInt - 48) * 10 + ((digitChar (i % 10)).toInt8.toInt - 48) = i := by
  rw [digitChar_value _ (by omega), digitChar_value _ (by omega)]
  omega

theorem clamp_eq {x low high : Int} {n : Nat} (hx : x = n) (hlow : low ≤ x) (hhigh : x ≤ high) :
    clamp x low high = n := by
  rw [clamp, max_eq_left hlow, min_eq_left hhigh, hx]
  rfl

theorem weekday_name : ∀ i < 7, ∃ a b c, kWeekdayNameShort.getD i [] = [a, b, c] := by
  intro i hi
  interval_cases i <;> exact ⟨_, _, _, rfl⟩

theorem month_name {m : Nat} (hm : m < 12) : ∃ a b c, kMonthNameShort.getD m [] = [a, b, c] ∧
    ∀ rest, parseMonth (a :: b :: c :: rest) = m + 1 := by
  interval_cases m <;> exact ⟨_, _, _, rfl, fun _ => rfl⟩

/-! ## The round trip -/

variable {t : Int} {tm : Tm} {k m d : Nat}

theorem Breakdown.day_lt (h : Breakdown t tm k m d) : d < 31 := by
  have hday := h.day.2
  have hm := h.month.2
  unfold monthLengths at hday
  cases hleap : isLeap (1970 + k) <;> rw [hleap] at hday <;> interval_cases m <;>
    exact Nat.lt_of_lt_of_le hday (by decide)

theorem kMonthYearDay_range (leap : Bool) {m : Nat} (hm : m < 12) :
    0 ≤ (kMonthYearDay leap).getD m 0 ∧ (kMonthYearDay leap).getD m 0 ≤ 335 := by
  cases leap <;> interval_cases m <;> decide

/-- The formula for the seconds, where nothing wraps. -/
theorem seconds_eq {days : Int} {hour min sec : Nat} (hk : k < 8030) (hdays : 0 ≤ days ∧ days ≤ 335)
    (hd : d < 31) (hhour : hour < 24) (hmin : min < 60) (hsec : sec < 60) :
    (unsignedInt (sec + min * 60 + hour * 3600 + unsignedInt (d + days) * 86400) +
      unsignedInt (70 + k - 70) * 31536000 + unsignedInt (70 + k - 69) / 4 * 86400 -
      unsignedInt (70 + k - 1) / 100 * 86400 + unsignedInt (70 + k + 299) / 400 * 86400).bmod (2 ^ 64) =
      (daysBefore k + days + d) * 86400 + hour * 3600 + min * 60 + sec := by
  have hbefore := daysBefore_eq k
  dsimp only [unsignedInt]
  rw [Int.bmod_eq_of_le (by omega) (by omega)]
  omega

/-- What the parser reads is the date with the wrong rule for leap years. -/
theorem parseHttpDateTime_format (h : Breakdown t tm k m d) :
    parseHttpDateTime (formatHttpDateTime tm) =
      (daysBefore k + (kMonthYearDay (codeLeap (70 + k))).getD m 0 + d) * 86400 +
        tm.hour * 3600 + tm.min * 60 + tm.sec := by
  obtain ⟨hour, hhour⟩ := Int.eq_ofNat_of_zero_le h.hour.1
  obtain ⟨min, hmin⟩ := Int.eq_ofNat_of_zero_le h.min.1
  obtain ⟨sec, hsec⟩ := Int.eq_ofNat_of_zero_le h.sec.1
  obtain ⟨-, hhour'⟩ := h.hour
  obtain ⟨-, hmin'⟩ := h.min
  obtain ⟨-, hsec'⟩ := h.sec
  obtain ⟨hyears, hk⟩ := h.year
  obtain ⟨hmon, hm⟩ := h.month
  obtain ⟨hmday, -⟩ := h.day
  have hd := h.day_lt
  obtain ⟨a, b, c, hweekday⟩ := weekday_name tm.wday (by rw [h.wday]; exact Nat.mod_lt _ (by decide))
  obtain ⟨x, y, z, hname, hread⟩ := month_name hm
  have hformat : ∃ p, p = formatHttpDateTime tm ∧ p = [a, b, c, 0x2C, 0x20] ++ twoDigits (d + 1) ++
      [0x20, x, y, z, 0x20, digitChar ((1970 + k) / 1000), digitChar ((1970 + k) / 100 % 10),
        digitChar ((1970 + k) / 10 % 10), digitChar ((1970 + k) % 10), 0x20] ++ twoDigits hour ++
      [0x3A] ++ twoDigits min ++ [0x3A] ++ twoDigits sec ++ [0x20, 0x47, 0x4D, 0x54] := by
    refine ⟨_, rfl, ?_⟩
    unfold formatHttpDateTime
    rw [clamp_eq (n := 1970 + k) (by omega) (by omega) (by omega),
      clamp_eq (n := d + 1) hmday (by omega) (by omega), clamp_eq hmon (by omega) (by omega),
      clamp_eq hhour (by omega) (by omega), clamp_eq hmin (by omega) (by omega),
      clamp_eq hsec (by omega) (by omega), hweekday, hname]
    rfl
  obtain ⟨p, hp, htext⟩ := hformat
  have hlen : p.length = 29 := by rw [htext]; rfl
  have hsmall {n : Nat} (hn : n < 10000) : unsignedInt n = n := Int.emod_eq_of_lt (by omega) (by omega)
  have hday : twoAt p 5 - 1 = d := by
    rw [htext]
    exact (congrArg (· - 1) (twoDigits_value (i := d + 1) (by omega))).trans (by omega)
  have hmonth : parseMonth (p.drop 8) = m + 1 := by rw [htext]; exact hread _
  have hhours : twoAt p 17 = hour := by rw [htext]; exact twoDigits_value (by omega)
  have hmins : twoAt p 20 = min := by rw [htext]; exact twoDigits_value (by omega)
  have hsecs : twoAt p 23 = sec := by rw [htext]; exact twoDigits_value (by omega)
  have hyear : digitAt p 12 * 1000 + digitAt p 13 * 100 + twoAt p 14 - 1900 = 70 + k := by
    have h12 : digitAt p 12 = ((1970 + k) / 1000 : Nat) := by
      rw [htext]; exact digitChar_value _ (by omega)
    have h13 : digitAt p 13 = ((1970 + k) / 100 % 10 : Nat) := by
      rw [htext]; exact digitChar_value _ (by omega)
    have h14 : digitAt p 14 = ((1970 + k) / 10 % 10 : Nat) := by
      rw [htext]; exact digitChar_value _ (by omega)
    have h15 : digitAt p 15 = ((1970 + k) % 10 : Nat) := by
      rw [htext]; exact digitChar_value _ (by omega)
    rw [h12, h13, twoAt, h14, h15]
    omega
  have hwrap : unsignedInt (70 + k) = 70 + k := Int.emod_eq_of_lt (by omega) (by omega)
  rw [← hp, parseHttpDateTime, if_neg (not_not.mpr hlen), hday, hmonth, hhours, hmins, hsecs, hyear,
    hwrap]
  dsimp only
  rw [Nat.add_sub_cancel, hhour, hmin, hsec, hsmall (by omega), hsmall (by omega), hsmall (by omega),
    hsmall (by omega)]
  exact seconds_eq hk (kMonthYearDay_range _ hm) hd (by omega) (by omega) (by omega)

/-- The months whose first day the code puts on another day of the year. -/
def Misplaced (tm : Tm) : Prop := 2 ≤ tm.mon ∧ (tm.year % 400 = 100 ∨ tm.year % 400 = 0)

theorem kMonthYearDay_eq_iff {a b : Bool} {m : Nat} (hm : m < 12) :
    (kMonthYearDay a).getD m 0 = (kMonthYearDay b).getD m 0 ↔ m < 2 ∨ a = b := by
  cases a <;> cases b <;> interval_cases m <;> decide

theorem codeLeap_eq_iff (k : Nat) : codeLeap (70 + k) = isLeap (1970 + k) ↔
    ¬((70 + k : Int) % 400 = 100 ∨ (70 + k : Int) % 400 = 0) := by
  rw [Bool.eq_iff_iff]
  simp only [codeLeap, isLeap, Bool.and_eq_true, Bool.or_eq_true, decide_eq_true_eq]
  omega

/-- A date is read back exactly if it is not in March to December of a year that the rule of 400
years is about: 2000 and 2300, and every 400 years from these. -/
theorem parse_format_iff (h : Breakdown t tm k m d) :
    parseHttpDateTime (formatHttpDateTime tm) = t ↔ ¬Misplaced tm := by
  have hsum := sum_monthLengths (1970 + k) h.month.2
  have hdays := kMonthYearDay_eq_iff (a := codeLeap (70 + k)) (b := isLeap (1970 + k)) h.month.2
  rw [codeLeap_eq_iff, ← hsum] at hdays
  rw [parseHttpDateTime_format h, h.time, Misplaced, h.month.1, h.year.1, daysTo, Nat.cast_add,
    Nat.cast_add]
  omega

/-- 29 February 2024. -/
theorem parse_format_leap_day : Breakdown 1709164800 ⟨0, 0, 0, 29, 1, 124, 4⟩ 54 1 28 ∧
    parseHttpDateTime (formatHttpDateTime ⟨0, 0, 0, 29, 1, 124, 4⟩) = 1709164800 := by
  have hday : Breakdown 1709164800 ⟨0, 0, 0, 29, 1, 124, 4⟩ 54 1 28 :=
    ⟨by decide, by decide, by decide, by decide, by decide, by decide, by decide, by decide⟩
  exact ⟨hday, (parse_format_iff hday).mpr (fun h => absurd h.1 (by decide))⟩

/-- 1 March 2000 is read as the day before. -/
theorem not_parse_format_march_2000 : Breakdown 951868800 ⟨0, 0, 0, 1, 2, 100, 3⟩ 30 2 0 ∧
    parseHttpDateTime (formatHttpDateTime ⟨0, 0, 0, 1, 2, 100, 3⟩) = 951868800 - 86400 :=
  ⟨⟨by decide, by decide, by decide, by decide, by decide, by decide, by decide, by decide⟩,
    by decide⟩

end CosmoRuby.Http
