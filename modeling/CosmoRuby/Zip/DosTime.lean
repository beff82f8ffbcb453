import CosmoRuby.Http.DateTime

/-!
# DOS timestamps

`DosDateTimeToUnix` of `dosdatetimetounix.c`. It has the formula of `ParseHttpDateTime`, and its test for
leap years.
-/

namespace CosmoRuby.Zip

open Http

def dosDateTimeToUnix (date time : Nat) : Int :=
  let year := unsignedInt (date / 512 + 1980 - 1900)
  let month := max 1 (min 12 (date / 32 % 16))
  let day := if date % 32 ≠ 0 then date % 32 - 1 else 0
  let hour := time / 2048 % 32
  let minute := time / 32 % 64
  let second := time % 32 * 2
  let yday := unsignedInt (day + (kMonthYearDay (codeLeap year)).getD (month - 1) 0)
  (unsignedInt (second + minute * 60 + hour * 3600 + yday * 86400) +
    unsignedInt (year - 70) * 31536000 + unsignedInt (year - 69) / 4 * 86400 -
    unsignedInt (year - 1) / 100 * 86400 + unsignedInt (year + 299) / 400 * 86400).bmod (2 ^ 64)

/-- Words whose fields are a day of the calendar and a time of the day. -/
structure DosTime (date time : Nat) : Prop where
  word : date < 2 ^ 16
  month : 1 ≤ date / 32 % 16 ∧ date / 32 % 16 ≤ 12
  day : 1 ≤ date % 32 ∧ date % 32 ≤ (monthLengths (1980 + date / 512)).getD (date / 32 % 16 - 1) 0
  clock : time / 2048 < 24 ∧ time / 32 % 64 < 60 ∧ time % 32 < 30

/-- The seconds from 1970 on that the fields stand for. -/
def dosSeconds (date time : Nat) : Int :=
  daysTo (10 + date / 512) (date / 32 % 16 - 1) (date % 32 - 1) * 86400 +
    (time / 2048 * 3600 + time / 32 % 64 * 60 + time % 32 * 2 : Nat)

/-- Every date is right but those from March to December 2000. -/
theorem dosDateTimeToUnix_iff {date time : Nat} (h : DosTime date time) :
    dosDateTimeToUnix date time = dosSeconds date time ↔ ¬(date / 512 = 20 ∧ 3 ≤ date / 32 % 16) := by
  obtain ⟨hdate, ⟨hlow, hhigh⟩, ⟨hday, -⟩, hhour, hminute, hsecond⟩ := h
  obtain ⟨k, hk⟩ : ∃ k, k = 10 + date / 512 := ⟨_, rfl⟩
  obtain ⟨m, hm⟩ : ∃ m, date / 32 % 16 = m + 1 := ⟨_, (Nat.sub_add_cancel hlow).symm⟩
  obtain ⟨d, hd⟩ : ∃ d, date % 32 = d + 1 := ⟨_, (Nat.sub_add_cancel hday).symm⟩
  have hyear : unsignedInt (date / 512 + 1980 - 1900) = 70 + k := by
    unfold unsignedInt
    omega
  have hmonth : max 1 (min 12 (m + 1)) - 1 = m := by omega
  have hsum := sum_monthLengths (1970 + k) (m := m) (by omega)
  have hdays := kMonthYearDay_eq_iff (a := codeLeap (70 + k)) (b := isLeap (1970 + k)) (m := m) (by omega)
  rw [codeLeap_eq_iff, ← hsum] at hdays
  unfold dosDateTimeToUnix dosSeconds daysTo
  dsimp only
  rw [hyear, hm, hmonth, hd, if_pos (Nat.succ_ne_zero d), Nat.add_sub_cancel, Nat.add_sub_cancel,
    Nat.mod_eq_of_lt (show time / 2048 < 32 by omega),
    seconds_eq (by omega) (kMonthYearDay_range _ (by omega)) (by omega) hhour hminute (by omega), ← hk]
  omega

/-- 29 February 2024. -/
theorem dosDateTimeToUnix_leap_day : dosDateTimeToUnix 22621 0 = dosSeconds 22621 0 :=
  (dosDateTimeToUnix_iff ⟨by decide, by decide, by decide, by decide⟩).mpr (by decide)

/-- 1 March 2000 is taken for the day before. -/
theorem dosDateTimeToUnix_march_2000 : DosTime 10337 0 ∧
    dosDateTimeToUnix 10337 0 = dosSeconds 10337 0 - 86400 :=
  ⟨⟨by decide, by decide, by decide, by decide⟩, by decide⟩

end CosmoRuby.Zip
