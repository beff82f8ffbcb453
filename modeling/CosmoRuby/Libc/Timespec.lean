import Mathlib.Tactic
import CosmoRuby.Libc.Strtol

/-!
# Conversions of `timespec`

`timespec_fromnanos.c` and `timespec_frommicros.c`, whose division truncates, and `timespec_tonanos.c`,
`timespec_tomicros.c` and `timespec_tomillis.c`.
-/

namespace CosmoRuby.Libc

structure Timespec where
  sec : Int
  nsec : Int

def timespecFromnanos (x : Int) : Timespec := ⟨x.tdiv 1000000000, x.tmod 1000000000⟩

def timespecFrommicros (x : Int) : Timespec := ⟨x.tdiv 1000000, x.tmod 1000000 * 1000⟩

/-- How all three conversions end: where the product or the sum overflows, a limit by the sign of the seconds. -/
def toScalar (unit : Int) (ts : Timespec) : Int :=
  ((ckd (ts.sec * unit)).bind fun x => ckd (x + ts.nsec)).getD (if ts.sec < 0 then longMin else longMax)

/-- Units of `n` nanoseconds, rounded up. -/
def reduce (n : Int) (ts : Timespec) : Timespec :=
  if ts.nsec ≤ 1000000000 - n then ⟨ts.sec, (ts.nsec + (n - 1)).tdiv n⟩
  else ⟨if ts.sec < longMax then ts.sec + 1 else ts.sec, 0⟩

def timespecTonanos (ts : Timespec) : Int := toScalar 1000000000 ts

def timespecTomicros (ts : Timespec) : Int := toScalar 1000000 (reduce 1000 ts)

def timespecTomillis (ts : Timespec) : Int := toScalar 1000 (reduce 1000000 ts)

/-! ## What is exact -/

def IsInt64 (x : Int) : Prop := longMin ≤ x ∧ x ≤ longMax

instance (x : Int) : Decidable (IsInt64 x) := inferInstanceAs (Decidable (_ ∧ _))

structure Timespec.Normal (ts : Timespec) : Prop where
  sec : IsInt64 ts.sec
  nsec : 0 ≤ ts.nsec ∧ ts.nsec < 1000000000

def Timespec.nanos (ts : Timespec) : Int := ts.sec * 1000000000 + ts.nsec

structure ExactTime (x : Int) (ts : Timespec) : Prop where
  fromnanos : (timespecFromnanos x).Normal ∧ (timespecFromnanos x).nanos = x
  frommicros : (timespecFrommicros x).Normal ∧ (timespecFrommicros x).nanos = x * 1000
  tonanos : timespecTonanos ts = clampLong ts.nanos
  tomicros : timespecTomicros ts = clampLong (-(-ts.nanos / 1000))
  tomillis : timespecTomillis ts = clampLong (-(-ts.nanos / 1000000))
  nanosInverse : timespecTonanos (timespecFromnanos x) = x
  microsInverse : timespecTomicros (timespecFrommicros x) = x
  back : IsInt64 ts.nanos → timespecFromnanos (timespecTonanos ts) = ts

variable {x : Int} {ts : Timespec}

theorem tdiv_eq (x n : Int) : x.tdiv n = if 0 ≤ x then x / n else -(-x / n) := by
  split_ifs with hx
  · exact Int.tdiv_eq_ediv_of_nonneg hx
  · rw [← Int.tdiv_eq_ediv_of_nonneg (by omega), Int.neg_tdiv, neg_neg]

theorem toScalar_eq (unit : Int) (ts : Timespec) : toScalar unit ts =
    if IsInt64 (ts.sec * unit) ∧ IsInt64 (ts.sec * unit + ts.nsec) then ts.sec * unit + ts.nsec
    else if ts.sec < 0 then longMin else longMax := by
  unfold toScalar ckd IsInt64
  by_cases hmul : longMin ≤ ts.sec * unit ∧ ts.sec * unit ≤ longMax
  · rw [if_pos hmul, Option.bind_some]
    split_ifs <;> simp_all
  · rw [if_neg hmul]
    exact (if_neg fun h => hmul h.1).symm

section Scalar

variable (hx : IsInt64 x)
include hx

theorem fromnanos_iff : (timespecFromnanos x).Normal ∧ (timespecFromnanos x).nanos = x ↔
    0 ≤ x ∨ x % 1000000000 = 0 := by
  unfold IsInt64 longMin longMax at hx
  unfold timespecFromnanos Timespec.nanos
  rw [Int.tmod_def, tdiv_eq]
  constructor
  · rintro ⟨⟨-, hnsec⟩, -⟩
    dsimp only at hnsec
    split_ifs at hnsec <;> omega
  · intro h
    refine ⟨⟨?_, ?_⟩, ?_⟩ <;> dsimp only [IsInt64, longMin, longMax] <;> split_ifs <;> omega

theorem tonanos_fromnanos : timespecTonanos (timespecFromnanos x) = x := by
  unfold IsInt64 longMin longMax at hx
  unfold timespecTonanos timespecFromnanos
  rw [toScalar_eq, Int.tmod_def, tdiv_eq]
  dsimp only [IsInt64, longMin, longMax]
  split_ifs <;> omega

theorem frommicros_of (h : 0 ≤ x ∨ x % 1000000000 = 0) :
    ((timespecFrommicros x).Normal ∧ (timespecFrommicros x).nanos = x * 1000) ∧
      timespecTomicros (timespecFrommicros x) = x := by
  unfold IsInt64 longMin longMax at hx
  unfold timespecTomicros reduce timespecFrommicros Timespec.nanos
  rw [Int.tmod_def, tdiv_eq]
  constructor
  · refine ⟨⟨?_, ?_⟩, ?_⟩ <;> dsimp only [IsInt64, longMin, longMax] <;> split_ifs <;> omega
  · dsimp only
    rw [tdiv_eq]
    split_ifs <;> rw [toScalar_eq] <;> dsimp only [IsInt64, longMin, longMax] <;> split_ifs <;> omega

end Scalar

section Time

variable (hts : ts.Normal)
include hts

theorem tonanos_iff : timespecTonanos ts = clampLong ts.nanos ∧
    (IsInt64 ts.nanos → timespecFromnanos (timespecTonanos ts) = ts) ↔
      0 ≤ ts.sec ∨ ts.nsec = 0 ∨ ts.nanos < longMin := by
  obtain ⟨sec, nsec⟩ := ts
  obtain ⟨hsec, hnsec⟩ := hts
  unfold timespecTonanos timespecFromnanos Timespec.nanos clampLong
  simp only [toScalar_eq, Timespec.mk.injEq, Int.tmod_def, tdiv_eq, IsInt64, longMin, longMax] at *
  split_ifs <;> omega

theorem rounded_iff :
    (timespecTomicros ts = clampLong (-(-ts.nanos / 1000)) ↔
      ¬(ts.sec = -9223372036855 ∧ 224192000 < ts.nsec ∧ ts.nsec ≤ 999999000)) ∧
    (timespecTomillis ts = clampLong (-(-ts.nanos / 1000000)) ↔
      ¬(ts.sec = -9223372036854776 ∧ 192000000 < ts.nsec ∧ ts.nsec ≤ 999000000)) := by
  obtain ⟨sec, nsec⟩ := ts
  obtain ⟨hsec, hnsec⟩ := hts
  unfold timespecTomicros timespecTomillis reduce clampLong Timespec.nanos
  dsimp only [IsInt64, longMin, longMax] at *
  constructor <;>
  · rw [Int.tdiv_eq_ediv_of_nonneg (by omega)]
    split_ifs <;> rw [toScalar_eq] <;> dsimp only [IsInt64, longMin, longMax] <;> split_ifs <;> omega

end Time

/-- All conversions are exact just if the scalar is no negative part of a second, the time is not before 1970
with a part of a second, and the rounded microseconds and milliseconds do not come back above the least
`int64_t` only with the part of the second. -/
theorem exactTime_iff (hx : IsInt64 x) (hts : ts.Normal) : ExactTime x ts ↔
    (0 ≤ x ∨ x % 1000000000 = 0) ∧ (0 ≤ ts.sec ∨ ts.nsec = 0 ∨ ts.nanos < longMin) ∧
      ¬(ts.sec = -9223372036855 ∧ 224192000 < ts.nsec ∧ ts.nsec ≤ 999999000) ∧
      ¬(ts.sec = -9223372036854776 ∧ 192000000 < ts.nsec ∧ ts.nsec ≤ 999000000) := by
  rw [← fromnanos_iff hx, ← tonanos_iff hts, ← (rounded_iff hts).1, ← (rounded_iff hts).2]
  constructor
  · exact fun h => ⟨h.fromnanos, ⟨h.tonanos, h.back⟩, h.tomicros, h.tomillis⟩
  · rintro ⟨hfrom, ⟨hnanos, hback⟩, hmicros, hmillis⟩
    obtain ⟨hexact, hinverse⟩ := frommicros_of hx ((fromnanos_iff hx).mp hfrom)
    exact ⟨hfrom, hexact, hnanos, hmicros, hmillis, tonanos_fromnanos hx, hinverse, hback⟩

theorem exactTime_second : ExactTime (-1000000000) ⟨1, 500000000⟩ :=
  (exactTime_iff (by decide) ⟨by decide, by decide⟩).mpr (by decide)

/-- One nanosecond before 1970 has negative nanoseconds; and a time that fits is taken for one that does not. -/
theorem not_exactTime : ¬ ExactTime (-1) ⟨0, 0⟩ ∧ ¬ ExactTime 0 ⟨-9223372037, 145224193⟩ :=
  ⟨fun h => absurd h.fromnanos.1.nsec (by decide), fun h => absurd h.tonanos (by decide)⟩

end CosmoRuby.Libc
