import Mathlib
import CosmoRuby.Http.Tables

/-!
# Range requests

`ParseHttpRange` of `parsehttprange.c`: the value of a `Range` header and the length of the resource
give the part of it that is asked for.
-/

namespace CosmoRuby.Http

open Lib List Option

/-- The result of `ckd_add`, `ckd_sub` and `ckd_mul`. -/
def ckd (x : Int) : Option Int := if -2 ^ 63 ≤ x ∧ x < 2 ^ 63 then some x else none

def wrapLong (x : Int) : Int := x.bmod (2 ^ 64)

def digit (c : UInt8) : Int := c.toNat - 48

/-- The loop over digits, with the number and what is left of the text. -/
def rangeNumber (x : Int) : Bytes → Option (Int × Bytes)
  | [] => some (x, [])
  | c :: p =>
    if isdigit c then do
      let x ← ckd (x * 10)
      let x ← ckd (x + digit c)
      rangeNumber x p
    else some (x, c :: p)

/-- The three forms, with `start`, `length` and what is left of the text. -/
def rangeForm (resourcelength : Int) (p : Bytes) : Option (Int × Int × Bytes) :=
  if p.head? = some 0x2D then do
    let length ← rangeNumber 0 p.tail
    let start ← ckd (resourcelength - length.1)
    some (start, length.1, length.2)
  else do
    let start ← rangeNumber 0 p
    if start.2.head? = some 0x2D then
      if start.2.tail = [] then
        some (start.1, wrapLong (max start.1 resourcelength - start.1), [])
      else do
        let last ← rangeNumber 0 start.2.tail
        let length ← ckd (last.1 + 1)
        let length ← ckd (length - start.1)
        some (start.1, length, last.2)
    else do
      let length ← ckd (resourcelength - start.1)
      some (start.1, length, start.2)

def bytesUnit : Bytes := [0x62, 0x79, 0x74, 0x65, 0x73, 0x3D]

def parseHttpRange (p : Bytes) (resourcelength : Int) : Option (Int × Int) :=
  if p.contains 0x2C then none
  else if p.length < 7 ∨ p.take 6 ≠ bytesUnit then none
  else do
    let r ← rangeForm resourcelength (p.drop 6)
    if r.2.2 ≠ [] ∨ r.1 < 0 ∨ r.2.1 < 1 ∨ r.1 > resourcelength then none
    else do
      let ending ← ckd (r.1 + r.2.1)
      some (r.1, if ending > resourcelength then wrapLong (resourcelength - r.1) else r.2.1)

/-- What is granted is a nonempty part of the resource. -/
def GrantsPart (p : Bytes) (resourcelength : Int) : Prop :=
  ∀ start length, parseHttpRange p resourcelength = some (start, length) →
    0 ≤ start ∧ 1 ≤ length ∧ start + length ≤ resourcelength

/-! ## Numbers -/

theorem ckd_eq_some {x y : Int} : ckd x = some y ↔ y = x ∧ -2 ^ 63 ≤ x ∧ x < 2 ^ 63 := by
  unfold ckd
  split_ifs with h
  · exact ⟨fun hy => ⟨(some.inj hy).symm, h⟩, fun hy => congrArg some hy.1.symm⟩
  · exact iff_of_false nofun fun hy => h hy.2

theorem wrapLong_eq {x : Int} (hlow : 0 ≤ x) (hhigh : x < 2 ^ 63) : wrapLong x = x :=
  Int.bmod_eq_of_le (by omega) (by omega)

def decimal (x : Int) (ds : Bytes) : Int := ds.foldl (fun x c => x * 10 + digit c) x

theorem digit_range : ∀ c : UInt8, isdigit c = true → 0 ≤ digit c ∧ digit c ≤ 9 := by decide +kernel

theorem le_decimal {x : Int} (hx : 0 ≤ x) {ds : Bytes} (hds : ∀ c ∈ ds, isdigit c = true) :
    x ≤ decimal x ds := by
  induction ds generalizing x with
  | nil => exact Int.le_refl x
  | cons c ds ih =>
    have hc := digit_range c (hds c mem_cons_self)
    have hle := ih (x := x * 10 + digit c) (by omega) fun d hd => hds d (mem_cons_of_mem c hd)
    show x ≤ decimal (x * 10 + digit c) ds
    omega

theorem rangeNumber_eq_some {x y : Int} (hx : 0 ≤ x) (hlong : x < 2 ^ 63) {p r : Bytes} :
    rangeNumber x p = some (y, r) ↔ y = decimal x (p.takeWhile isdigit) ∧ y < 2 ^ 63 ∧
      r = p.dropWhile isdigit := by
  induction p generalizing x with
  | nil =>
    simp only [rangeNumber, decimal, takeWhile_nil, dropWhile_nil, foldl_nil, some.injEq, Prod.mk.injEq]
    grind
  | cons c p ih =>
    by_cases hc : isdigit c = true
    · have hrange := digit_range c hc
      have hle : x * 10 + digit c ≤ decimal (x * 10 + digit c) (p.takeWhile isdigit) :=
        le_decimal (by omega) fun d hd => mem_takeWhile_imp hd
      simp only [rangeNumber, if_pos hc, bind_eq_bind, bind_eq_some_iff, ckd_eq_some,
        takeWhile_cons_of_pos hc, dropWhile_cons_of_pos hc]
      constructor
      · rintro ⟨_, ⟨rfl, -⟩, _, ⟨rfl, -, hsmall⟩, h⟩
        exact (ih (by omega) hsmall).mp h
      · rintro ⟨rfl, hsmall, rfl⟩
        change decimal (x * 10 + digit c) _ < 2 ^ 63 at hsmall
        exact ⟨_, ⟨rfl, by omega, by omega⟩, _, ⟨rfl, by omega, by omega⟩,
          (ih (by omega) (by omega)).mpr ⟨rfl, hsmall, rfl⟩⟩
    · simp only [rangeNumber, if_neg hc, takeWhile_cons_of_neg hc, dropWhile_cons_of_neg hc, decimal,
        foldl_nil, some.injEq, Prod.mk.injEq]
      grind

/-! ## What is granted -/

/-- A first number, which is `n`, a dash and a last number that is not below `n`. -/
def EndForm (q : Bytes) (n : Int) : Prop :=
  q.head? ≠ some 0x2D ∧ (q.dropWhile isdigit).head? = some 0x2D ∧ (q.dropWhile isdigit).tail ≠ [] ∧
    (q.dropWhile isdigit).tail.dropWhile isdigit = [] ∧ decimal 0 (q.takeWhile isdigit) = n ∧
    n ≤ decimal 0 ((q.dropWhile isdigit).tail.takeWhile isdigit) ∧
    decimal 0 ((q.dropWhile isdigit).tail.takeWhile isdigit) + 1 < 2 ^ 63

/-- The text asks for the bytes from exactly the end of the resource up to a last byte. -/
def FromEnd (p : Bytes) (n : Int) : Prop :=
  0x2C ∉ p ∧ p.take 6 = bytesUnit ∧ EndForm (p.drop 6) n

variable {p q : Bytes} {n : Int}

theorem rangeForm_end :
    (∃ l, rangeForm n q = some (n, l, []) ∧ 1 ≤ l ∧ n + l < 2 ^ 63) ↔ EndForm q n := by
  have hnumber : ∀ {p : Bytes} {y : Int} {r : Bytes}, rangeNumber 0 p = some (y, r) ↔ _ :=
    rangeNumber_eq_some (Int.le_refl 0) (by decide)
  unfold rangeForm EndForm
  by_cases hsuffix : q.head? = some 0x2D
  · -- the last bytes start before the end
    simp only [if_pos hsuffix, bind_eq_bind, bind_eq_some_iff, ckd_eq_some, some.injEq, Prod.mk.injEq]
    refine iff_of_false ?_ fun h => h.1 hsuffix
    rintro ⟨_, ⟨_, -, _, ⟨rfl, -⟩, hs, rfl, -⟩, hl, -⟩
    omega
  · rw [and_iff_right hsuffix]
    simp only [if_neg hsuffix, bind_eq_bind, bind_eq_some_iff, Prod.exists, hnumber]
    constructor
    · rintro ⟨_, ⟨start, rest, ⟨rfl, -, rfl⟩, h⟩, hl, hlong⟩
      split_ifs at h with hdash hopen
      · cases h
        rw [max_self, Int.sub_self] at hl
        exact absurd hl (by decide)
      · simp only [bind_eq_some_iff, ckd_eq_some, some.injEq, Prod.mk.injEq, Prod.exists, hnumber] at h
        obtain ⟨_, _, ⟨rfl, -, rfl⟩, _, ⟨rfl, -⟩, _, ⟨rfl, -⟩, rfl, rfl, hrest⟩ := h
        exact ⟨hdash, hopen, hrest, rfl, by omega, by omega⟩
      · simp only [bind_eq_some_iff, ckd_eq_some, some.injEq, Prod.mk.injEq] at h
        obtain ⟨_, ⟨rfl, -⟩, hs, rfl, -⟩ := h
        omega
    · rintro ⟨hdash, hopen, hrest, rfl, hle, hlong⟩
      have h0 : 0 ≤ decimal 0 (q.takeWhile isdigit) :=
        le_decimal (Int.le_refl 0) fun d hd => mem_takeWhile_imp hd
      refine ⟨decimal 0 ((q.dropWhile isdigit).tail.takeWhile isdigit) + 1 -
        decimal 0 (q.takeWhile isdigit), ⟨_, _, ⟨rfl, by omega, rfl⟩, ?_⟩, by omega, by omega⟩
      simp only [if_pos hdash, if_neg hopen, bind_eq_some_iff, ckd_eq_some, some.injEq,
        Prod.mk.injEq, Prod.exists, hnumber]
      exact ⟨_, _, ⟨rfl, by omega, rfl⟩, _, ⟨rfl, by omega, hlong⟩, _, ⟨rfl, by omega, by omega⟩,
        trivial, rfl, hrest⟩

/-- A part is granted for every header but those that start at the end of the resource. -/
theorem grantsPart_iff (h0 : 0 ≤ n) (hmax : n < 2 ^ 63) : GrantsPart p n ↔ ¬FromEnd p n := by
  unfold GrantsPart FromEnd parseHttpRange
  by_cases hcomma : p.contains 0x2C = true
  · rw [if_pos hcomma]
    exact iff_of_true nofun fun h => h.1 (contains_iff_mem.mp hcomma)
  · rw [if_neg hcomma, and_iff_right (mt contains_iff_mem.mpr hcomma)]
    by_cases hunit : p.length < 7 ∨ p.take 6 ≠ bytesUnit
    · rw [if_pos hunit]
      refine iff_of_true nofun ?_
      rintro ⟨htake, -, hdash, -⟩
      have hshort := hunit.resolve_right (not_not.mpr htake)
      rw [drop_eq_nil_of_le (by omega)] at hdash
      cases hdash
    · rw [if_neg hunit, and_iff_right (not_not.mp (not_or.mp hunit).2), ← rangeForm_end]
      simp only [bind_eq_bind, bind_eq_some_iff, Prod.exists]
      constructor
      · rintro hgrants ⟨l, hform, hl, hlong⟩
        have hbad : ¬(([] : Bytes) ≠ [] ∨ n < 0 ∨ l < 1 ∨ n > n) := by
          simp only [not_or, not_not, true_and]
          omega
        have hpart := hgrants n 0 ⟨n, l, [], hform, by
          rw [if_neg hbad]
          simp only [bind_eq_some_iff, ckd_eq_some]
          refine ⟨_, ⟨rfl, by omega, hlong⟩, ?_⟩
          rw [if_pos (by omega), Int.sub_self]
          rfl⟩
        omega
      · rintro hend start length ⟨s, l, rest, hform, h⟩
        split_ifs at h with hbad
        simp only [not_or, not_not, not_lt] at hbad
        simp only [bind_eq_some_iff, ckd_eq_some, some.injEq, Prod.mk.injEq] at h
        obtain ⟨_, ⟨rfl, -, hlong⟩, rfl, rfl⟩ := h
        obtain ⟨rfl, hs, hl, hsn⟩ := hbad
        have hne : s ≠ n := by
          rintro rfl
          exact hend ⟨l, hform, hl, hlong⟩
        have hwrap := wrapLong_eq (x := n - s) (by omega) (by omega)
        split_ifs <;> omega

/-- The last five bytes of ten. -/
theorem grantsPart_last_five : GrantsPart (bytesUnit ++ [0x2D, 0x35]) 10 ∧
    parseHttpRange (bytesUnit ++ [0x2D, 0x35]) 10 = some (5, 5) :=
  ⟨(grantsPart_iff (by decide) (by decide)).mpr fun h => h.2.2.1 rfl, by decide⟩

/-- `bytes=10-20` is granted for a resource of ten bytes, with length zero. -/
theorem not_grantsPart_from_end :
    parseHttpRange (bytesUnit ++ [0x31, 0x30, 0x2D, 0x32, 0x30]) 10 = some (10, 0) ∧
      ¬GrantsPart (bytesUnit ++ [0x31, 0x30, 0x2D, 0x32, 0x30]) 10 := by
  have hrange : parseHttpRange (bytesUnit ++ [0x31, 0x30, 0x2D, 0x32, 0x30]) 10 = some (10, 0) := by
    decide
  exact ⟨hrange, fun hgrants => absurd (hgrants _ _ hrange).2.1 (by decide)⟩

end CosmoRuby.Http