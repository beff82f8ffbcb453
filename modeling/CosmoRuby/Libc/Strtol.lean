import Mathlib
import CosmoRuby.Libc.Strtoul

/-!
# `strtol`

The whole of `strtol.c`: the number, where `*endptr` points and what becomes of `errno`. A pointer into
the string is the list of the bytes from there on.

The accumulator runs on after it saturates. `strtolLoop_spec` says that it is at every digit the number
so far, kept within a `long`.
-/

namespace CosmoRuby.Libc

open Lib List Option

inductive StrtolErrno where
  | einval
  | erange
  deriving DecidableEq, Repr

structure StrtolResult where
  value : Int
  endptr : Bytes
  /-- What `errno` is set to, if it is. -/
  errno : Option StrtolErrno
  deriving DecidableEq, Repr

/-! ## 1. The code -/

def longMax : Int := 2 ^ 63 - 1

def longMin : Int := -2 ^ 63

/-- `(c = kBase36[c]) && --c < base` -/
def isDigitOf (base : Nat) (c : UInt8) : Bool := 0 < kBase36 c && kBase36 c - 1 < base

/-- `ckd_mul` and `ckd_add` on a `long`: nothing where the result does not fit. -/
def ckd (x : Int) : Option Int := if longMin ≤ x ∧ x ≤ longMax then some x else none

/-- One digit `c` with the sign `d`: the accumulator and whether it overflowed. -/
def strtolStep (base : Nat) (neg : Bool) (x : Int) (c : Nat) : Int × Bool :=
  let d : Int := if neg then -1 else 1
  match (ckd (x * base)).bind fun x => ckd (x + c * d) with
  | some x => (x, false)
  | none => (if neg then longMin else longMax, true)

/-- The loop over the digits. `erange` is whether `errno` was set. -/
def strtolLoop (base : Nat) (neg : Bool) : Int → Bool → Bytes → Int × Bool × Bytes
  | x, erange, [] => (x, erange, [])
  | x, erange, c :: s =>
    if isDigitOf base c then
      let r := strtolStep base neg x (kBase36 c - 1)
      strtolLoop base neg r.1 (erange || r.2) s
    else (x, erange, c :: s)

def strtol (s : Bytes) (base : Nat) : StrtolResult :=
  let d := getSign (consumeSpaces s)
  match getRadix d.2 base with
  | none => ⟨0, s, some .einval⟩
  | some (text, base) =>
    -- `t` is set by a 0 in `GET_RADIX`, whatever the base, and by the first digit
    let t := byteAt d.2 0 == 0x30 || (text.head?.any (isDigitOf base))
    let r := strtolLoop base d.1 0 false text
    ⟨r.1, if t then r.2.2 else s, if r.2.1 then some .erange else none⟩

/-! ## 2. Numerals -/

/-- The number that digits denote. -/
def digitsValue (base : Nat) (v : Nat) (run : Bytes) : Nat :=
  run.foldl (fun v c => v * base + (kBase36 c - 1)) v

def clampLong (v : Int) : Int := max longMin (min v longMax)

/-- The base of a numeral, and the numeral without its prefix. Only a prefix that a digit follows is one. -/
def splitPrefix (base : Nat) (body : Bytes) : Nat × Bytes :=
  if (base = 0 ∨ base = 16) ∧ byteAt body 0 = 0x30 ∧ isRadixX body.tail then (16, body.tail.tail)
  else if (base = 0 ∨ base = 2) ∧ byteAt body 0 = 0x30 ∧ isRadixB body.tail then (2, body.tail.tail)
  else (if base ≠ 0 then base else if byteAt body 0 = 0x30 then 8 else 10, body)

/-- The digits of a numeral: the longest run of them. -/
def digitRun (base : Nat) (body : Bytes) : Bytes :=
  (splitPrefix base body).2.takeWhile (isDigitOf (splitPrefix base body).1)

/-- What the digits behind the spaces and the sign denote. -/
def numeralValue (s : Bytes) (base : Nat) : Int :=
  let d := getSign (consumeSpaces s)
  let v := digitsValue (splitPrefix base d.2).1 0 (digitRun base d.2)
  if d.1 then -v else v

/-- The string behind the last digit, or all of it if there is none. -/
def numeralEnd (s : Bytes) (base : Nat) : Bytes :=
  let body := (getSign (consumeSpaces s)).2
  if digitRun base body = [] then s else (splitPrefix base body).2.drop (digitRun base body).length

/-! ## 3. The accumulator saturates -/

/-- A number with a sign, kept within a `long`. -/
def saturated (neg : Bool) (v : Nat) : Int := clampLong (if neg then -v else v)

theorem saturated_pos (v : Nat) : saturated false v = min (v : Int) longMax := by
  simp only [saturated, clampLong, longMin, longMax, Bool.false_eq_true, if_false]
  omega

theorem saturated_neg (v : Nat) : saturated true v = max longMin (-(v : Int)) := by
  simp only [saturated, clampLong, longMin, longMax, if_true]
  omega

/-- Whether a number with a sign is out of the range. -/
def exceeds (neg : Bool) (v : Nat) : Bool := if neg then 2 ^ 63 < v else 2 ^ 63 ≤ v

theorem exceeds_iff (neg : Bool) (v : Nat) :
    exceeds neg v = true ↔ saturated neg v ≠ if neg then -(v : Int) else v := by
  cases neg with
  | false =>
    rw [saturated_pos]
    simp only [exceeds, longMax, Bool.false_eq_true, if_false, decide_eq_true_eq]
    omega
  | true =>
    rw [saturated_neg]
    simp only [exceeds, longMin, if_true, decide_eq_true_eq]
    omega

variable {x : Int}

theorem ckd_eq_some (h₁ : longMin ≤ x) (h₂ : x ≤ longMax) : ckd x = some x :=
  if_pos ⟨h₁, h₂⟩

theorem ckd_eq_none (h : x < longMin ∨ longMax < x) : ckd x = none := by
  refine if_neg ?_
  omega

variable {base c r : Nat} {neg : Bool}

/-- Where the product and the sum fit, a step is exact. -/
theorem strtolStep_exact (hmul : longMin ≤ x * base ∧ x * base ≤ longMax)
    (hadd : longMin ≤ x * base + c * (if neg then -1 else 1) ∧
      x * base + c * (if neg then -1 else 1) ≤ longMax) :
    strtolStep base neg x c = (x * base + c * (if neg then -1 else 1), false) := by
  simp only [strtolStep, ckd_eq_some hmul.1 hmul.2, bind_some, ckd_eq_some hadd.1 hadd.2]

/-- Where the product does not fit, or the sum, it saturates. -/
theorem strtolStep_overflow (h : (x * base < longMin ∨ longMax < x * base) ∨
      x * base + c * (if neg then -1 else 1) < longMin ∨
        longMax < x * base + c * (if neg then -1 else 1)) :
    strtolStep base neg x c = (if neg then longMin else longMax, true) := by
  by_cases hmul : longMin ≤ x * base ∧ x * base ≤ longMax
  · have hadd := h.resolve_left (by omega)
    simp only [strtolStep, ckd_eq_some hmul.1 hmul.2, bind_some, ckd_eq_none hadd]
  · simp only [strtolStep, ckd_eq_none (show x * base < longMin ∨ longMax < x * base by omega),
      bind_none]

theorem strtolStep_saturated (hbase : 2 ≤ base) (neg : Bool) (v c : Nat) :
    strtolStep base neg (saturated neg v) c =
      (saturated neg (v * base + c), exceeds neg (v * base + c)) := by
  have hcast : ((v * base : Nat) : Int) = v * base := Int.natCast_mul v base
  have hprod : -(v : Int) * base = -(v * base : Nat) := by rw [hcast, Int.neg_mul]
  have hgrow : v ≤ v * base := Nat.le_mul_of_pos_right v (by omega)
  by_cases hnext : exceeds neg (v * base + c) = true
  · have hend : saturated neg (v * base + c) = if neg then longMin else longMax := by
      cases neg <;> simp [exceeds, saturated_pos, saturated_neg, longMin, longMax] at hnext ⊢ <;> omega
    rw [hend, hnext, strtolStep_overflow]
    by_cases hv : exceeds neg v = true
    · -- the accumulator is an end of the range, which no base of two or more leaves in it
      have hx : saturated neg v = if neg then longMin else longMax := by
        cases neg <;> simp [exceeds, saturated_pos, saturated_neg, longMin, longMax] at hv ⊢ <;> omega
      rw [hx]
      cases neg <;> simp [longMin, longMax] <;> omega
    · have hx := not_not.mp (mt (exceeds_iff neg v).mpr hv)
      rw [hx]
      cases neg <;> simp [exceeds, longMin, longMax, hprod] at hnext ⊢ <;> omega
  · have hv : exceeds neg v ≠ true := by
      cases neg <;> simp [exceeds] at hnext ⊢ <;> omega
    have hx := not_not.mp (mt (exceeds_iff neg v).mpr hv)
    have hy := not_not.mp (mt (exceeds_iff neg _).mpr hnext)
    rw [hx, hy, Bool.eq_false_iff.mpr hnext]
    cases neg <;> simp [exceeds] at hnext <;> rw [strtolStep_exact] <;>
      simp [longMin, longMax, hprod] <;> omega

/-- What is out of range stays so behind further digits. -/
theorem exceeds_mono (hbase : 2 ≤ base) (neg : Bool) (v c : Nat)
    (h : exceeds neg v = true) : exceeds neg (v * base + c) = true := by
  have hgrow : v ≤ v * base := Nat.le_mul_of_pos_right v (by omega)
  cases neg <;> simp only [exceeds, Bool.false_eq_true, if_false, if_true, decide_eq_true_eq] at h ⊢ <;>
    omega

/-- The loop reads the longest run of digits and ends with its number, saturated. -/
theorem strtolLoop_spec (hbase : 2 ≤ base) (neg : Bool) (v : Nat) (text : Bytes) :
    strtolLoop base neg (saturated neg v) (exceeds neg v) text =
      (saturated neg (digitsValue base v (text.takeWhile (isDigitOf base))),
        exceeds neg (digitsValue base v (text.takeWhile (isDigitOf base))),
        text.drop (text.takeWhile (isDigitOf base)).length) := by
  induction text generalizing v with
  | nil => rfl
  | cons c text ih =>
    rw [strtolLoop]
    by_cases hc : isDigitOf base c = true
    · have hflag : (exceeds neg v || exceeds neg (v * base + (kBase36 c - 1))) =
          exceeds neg (v * base + (kBase36 c - 1)) := by
        cases hex : exceeds neg v with
        | false => rfl
        | true => rw [exceeds_mono hbase neg v _ hex, Bool.or_true]
      rw [if_pos hc, takeWhile_cons_of_pos hc, strtolStep_saturated hbase]
      dsimp only
      rw [hflag, ih]
      rfl
    · rw [if_neg hc, takeWhile_cons_of_neg hc]
      rfl

/-! ## 4. The prefix -/

theorem any_head_iff {p : UInt8 → Bool} (text : Bytes) :
    text.head?.any p = true ↔ text.takeWhile p ≠ [] := by
  cases text with
  | nil => simp
  | cons c text =>
    rw [List.head?_cons, any_some]
    by_cases hc : p c = true
    · simp [hc]
    · simp [hc]

theorem isDigitOf_zero (hbase : 2 ≤ base) : isDigitOf base 0x30 = true := by
  have hzero : kBase36 0x30 = 1 := by decide
  simp only [isDigitOf, hzero, Bool.and_eq_true, decide_eq_true_eq]
  omega

variable {rest text : Bytes}

theorem takeWhile_tail {p : UInt8 → Bool} (hzero : p 0 = false) (h : p (byteAt rest 1) = true) :
    rest.tail.takeWhile p ≠ [] := by
  obtain _ | ⟨x, _ | ⟨c, rest⟩⟩ := rest
  · exact absurd (hzero.symm.trans h) Bool.false_ne_true
  · exact absurd (hzero.symm.trans h) Bool.false_ne_true
  · rw [tail_cons, takeWhile_cons_of_pos (show p c = true from h)]
    exact cons_ne_nil _ _

/-- The digit behind a prefix of base 16 is one. -/
theorem takeWhile_radixX (h : isRadixX rest = true) : rest.tail.takeWhile (isDigitOf 16) ≠ [] := by
  refine takeWhile_tail (by decide) ?_
  simp only [isRadixX, isxdigit, Bool.and_eq_true, decide_eq_true_eq] at h
  simp only [isDigitOf, Bool.and_eq_true, decide_eq_true_eq]
  omega

theorem takeWhile_radixB (h : isRadixB rest = true) : rest.tail.takeWhile (isDigitOf 2) ≠ [] := by
  refine takeWhile_tail (by decide) ?_
  simp only [isRadixB, Bool.and_eq_true, Bool.or_eq_true, beq_iff_eq] at h
  obtain ⟨-, h | h⟩ := h
  · rw [h]
    decide
  · rw [h]
    decide

/-- What `GET_RADIX` leaves to the loop, next to what it took off. -/
structure RadixOf (base : Nat) (body text : Bytes) : Prop where
  result : getRadix body base = some (text, (splitPrefix base body).1)
  rest : text.drop (text.takeWhile (isDigitOf (splitPrefix base body).1)).length =
    (splitPrefix base body).2.drop (digitRun base body).length
  value : digitsValue (splitPrefix base body).1 0 (text.takeWhile (isDigitOf (splitPrefix base body).1)) =
    digitsValue (splitPrefix base body).1 0 (digitRun base body)
  found : (byteAt body 0 == 0x30 || text.head?.any (isDigitOf (splitPrefix base body).1)) = true ↔
    digitRun base body ≠ []

theorem two_le_splitPrefix (hbase : base = 0 ∨ 2 ≤ base ∧ base ≤ 36) (body : Bytes) :
    2 ≤ (splitPrefix base body).1 := by
  rw [splitPrefix]
  split
  · exact Nat.le_add_left 2 14
  · split
    · exact Nat.le_refl 2
    · dsimp only
      split
      · omega
      · split <;> decide

/-- A prefix is taken off whole. -/
theorem RadixOf.of_letter (hsplit : splitPrefix base (0x30 :: rest) = (r, text))
    (hradix : getRadix (0x30 :: rest) base = some (text, r))
    (hrun : text.takeWhile (isDigitOf r) ≠ []) : RadixOf base (0x30 :: rest) text where
  result := by rw [hsplit, hradix]
  rest := by simp only [digitRun, hsplit]
  value := by simp only [digitRun, hsplit]
  found := by simp only [digitRun, hsplit]; exact ⟨fun _ => hrun, fun _ => rfl⟩

theorem RadixOf.of_zero (hr : 2 ≤ r) (hsplit : splitPrefix base (0x30 :: rest) = (r, 0x30 :: rest))
    (hradix : getRadix (0x30 :: rest) base = some (rest, r)) : RadixOf base (0x30 :: rest) rest where
  result := by rw [hsplit, hradix]
  rest := by
    simp only [digitRun, hsplit, takeWhile_cons_of_pos (isDigitOf_zero hr), length_cons,
      drop_succ_cons]
  value := by
    have hzero : kBase36 0x30 = 1 := by decide
    simp only [digitRun, hsplit, takeWhile_cons_of_pos (isDigitOf_zero hr), digitsValue,
      foldl_cons, hzero, Nat.zero_mul]
  found := by
    simp only [digitRun, hsplit, takeWhile_cons_of_pos (isDigitOf_zero hr)]
    exact ⟨fun _ => cons_ne_nil _ _, fun _ => rfl⟩

theorem RadixOf.of_none {body : Bytes} (hhead : byteAt body 0 ≠ 0x30)
    (hsplit : splitPrefix base body = (r, body)) (hradix : getRadix body base = some (body, r)) :
    RadixOf base body body where
  result := by rw [hsplit, hradix]
  rest := by simp only [digitRun, hsplit]
  value := by simp only [digitRun, hsplit]
  found := by
    simp only [digitRun, hsplit, beq_false_of_ne hhead, Bool.false_or]
    exact any_head_iff body

theorem exists_radixOf (hbase : base = 0 ∨ 2 ≤ base ∧ base ≤ 36) (body : Bytes) :
    ∃ text, RadixOf base body text := by
  have hvalid : base ≠ 0 → 2 ≤ base ∧ base ≤ 36 := fun h => hbase.resolve_left h
  by_cases hhead : byteAt body 0 = 0x30
  · obtain ⟨rest, rfl⟩ : ∃ rest, body = 0x30 :: rest := by
      cases body with
      | nil => exact absurd hhead (by decide)
      | cons c rest => exact ⟨rest, by rw [← hhead]; rfl⟩
    by_cases hX : (base = 0 ∨ base = 16) ∧ isRadixX rest = true
    · refine ⟨rest.tail, RadixOf.of_letter (r := 16) (by simp [splitPrefix, hhead, hX]) ?_
        (takeWhile_radixX hX.2)⟩
      obtain ⟨rfl | rfl, hx⟩ := hX <;> simp [getRadix, hhead, hx]
    · by_cases hB : (base = 0 ∨ base = 2) ∧ isRadixB rest = true
      · refine ⟨rest.tail, RadixOf.of_letter (r := 2) (by simp [splitPrefix, hhead, hX, hB]) ?_
          (takeWhile_radixB hB.2)⟩
        obtain ⟨rfl | rfl, hb⟩ := hB
        · simp only [true_or, true_and] at hX
          simp [getRadix, hhead, hX, hb]
        · simp [getRadix, hhead, hb]
      · refine ⟨rest, RadixOf.of_zero (r := (splitPrefix base (0x30 :: rest)).1)
          (two_le_splitPrefix hbase _) (by simp [splitPrefix, hhead, hX, hB]) ?_⟩
        by_cases h0 : base = 0
        · subst h0
          simp only [true_or, true_and] at hX hB
          simp [getRadix, splitPrefix, hhead, hX, hB]
        · have hnot : ¬((base = 2 ∧ isRadixB rest = true) ∨ (base = 16 ∧ isRadixX rest = true)) := by
            rintro (⟨h, hb⟩ | ⟨h, hx⟩)
            · exact hB ⟨.inr h, hb⟩
            · exact hX ⟨.inr h, hx⟩
          have hsplit : splitPrefix base (0x30 :: rest) = (base, 0x30 :: rest) := by
            rw [splitPrefix, if_neg fun h => hX ⟨h.1, h.2.2⟩, if_neg fun h => hB ⟨h.1, h.2.2⟩, if_pos h0]
          simp [getRadix, hsplit, hhead, h0, hvalid h0, hnot]
  · refine ⟨body, RadixOf.of_none (r := (splitPrefix base body).1) hhead
      (by simp [splitPrefix, hhead]) ?_⟩
    by_cases h0 : base = 0
    · simp [getRadix, splitPrefix, hhead, h0]
    · simp [getRadix, splitPrefix, hhead, h0, hvalid h0]

/-! ## 5. `strtol` -/

theorem strtol_eq (hbase : base = 0 ∨ 2 ≤ base ∧ base ≤ 36) (s : Bytes) :
    strtol s base = ⟨clampLong (numeralValue s base), numeralEnd s base,
      if clampLong (numeralValue s base) ≠ numeralValue s base then some .erange else none⟩ := by
  obtain ⟨text, hspec⟩ := exists_radixOf hbase (getSign (consumeSpaces s)).2
  have hloop := strtolLoop_spec (two_le_splitPrefix hbase (getSign (consumeSpaces s)).2)
    (getSign (consumeSpaces s)).1 0 text
  have hstart : saturated (getSign (consumeSpaces s)).1 0 = 0 ∧
      exceeds (getSign (consumeSpaces s)).1 0 = false := by
    cases (getSign (consumeSpaces s)).1 <;> decide
  rw [hstart.1, hstart.2, hspec.value, hspec.rest] at hloop
  simp only [strtol, hspec.result, hloop, StrtolResult.mk.injEq]
  refine ⟨rfl, ?_, ?_⟩
  · rw [numeralEnd]
    by_cases hrun : digitRun base (getSign (consumeSpaces s)).2 = []
    · rw [if_neg (fun h => hspec.found.1 h hrun), if_pos hrun]
    · rw [if_pos (hspec.found.2 hrun), if_neg hrun]
  · exact if_congr (exceeds_iff _ _) rfl rfl

theorem numeral_bareX {s : Bytes} {x : UInt8} (hbase : base = 0 ∨ base = 16)
    (hx : x = 0x78 ∨ x = 0x58) (hbody : (getSign (consumeSpaces s)).2 = 0x30 :: x :: text)
    (hdigit : isxdigit (byteAt text 0) = false) :
    numeralValue s base = 0 ∧ numeralEnd s base = x :: text := by
  have hX : isRadixX (x :: text) = false := by
    rw [isRadixX]
    have : byteAt (x :: text) 1 = byteAt text 0 := rfl
    rw [this, hdigit, Bool.and_false]
  have hB : isRadixB (x :: text) = false := by
    obtain rfl | rfl := hx <;> simp [isRadixB, byteAt]
  have hrun : ∃ r, splitPrefix base (0x30 :: x :: text) = (r, 0x30 :: x :: text) ∧
      digitRun base (0x30 :: x :: text) = [0x30] := by
    obtain rfl | rfl := hbase <;> obtain rfl | rfl := hx <;>
      simp [splitPrefix, digitRun, hX, hB, byteAt, isDigitOf, kBase36]
  obtain ⟨r, hsplit, hrun⟩ := hrun
  have hzero : kBase36 0x30 = 1 := by decide
  simp [numeralValue, numeralEnd, hbody, hsplit, hrun, digitsValue, hzero]

/-- `strtol` returns the number of the longest run of digits, clamped to a `long`. -/
theorem strtol_saturates (s : Bytes) (base : Nat) (hbase : base = 0 ∨ 2 ≤ base ∧ base ≤ 36) :
    (strtol s base).value = clampLong (numeralValue s base) ∧
      ((strtol s base).errno = some .erange ↔ clampLong (numeralValue s base) ≠ numeralValue s base) ∧
      ((strtol s base).errno = none ↔ clampLong (numeralValue s base) = numeralValue s base) ∧
      (strtol s base).endptr = numeralEnd s base ∧
      ∀ x text, (base = 0 ∨ base = 16) → (x = 0x78 ∨ x = 0x58) →
        (getSign (consumeSpaces s)).2 = 0x30 :: x :: text → isxdigit (byteAt text 0) = false →
          (strtol s base).value = 0 ∧ (strtol s base).endptr = x :: text := by
  rw [strtol_eq hbase s]
  refine ⟨rfl, ?_, ?_, rfl, ?_⟩
  · dsimp only
    split
    · simp_all
    · simp_all
  · dsimp only
    split
    · simp_all
    · simp_all
  · intro x text hb hx hbody hdigit
    obtain ⟨hvalue, hend⟩ := numeral_bareX hb hx hbody hdigit
    refine ⟨?_, hend⟩
    dsimp only
    rw [hvalue]
    decide

/-- Spaces, a sign, a prefix, digits and a letter. -/
theorem strtol_saturates_hex :
    (strtol [0x20, 0x09, 0x2D, 0x30, 0x78, 0x31, 0x66, 0x67] 16).value = -31 ∧
      (strtol [0x20, 0x09, 0x2D, 0x30, 0x78, 0x31, 0x66, 0x67] 16).endptr = [0x67] := by
  obtain ⟨hvalue, -, -, hend, -⟩ :=
    strtol_saturates [0x20, 0x09, 0x2D, 0x30, 0x78, 0x31, 0x66, 0x67] 16 (by decide)
  exact ⟨hvalue.trans (by decide), hend.trans (by decide)⟩

end CosmoRuby.Libc
