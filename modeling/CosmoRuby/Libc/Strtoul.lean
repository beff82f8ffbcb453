import CosmoRuby.Lib.Bytes

/-!
# `strtoul` and `strtoll`

The number at the start of a text, as `strtoul.c` and `strtol.c` read it. A list of bytes stands for the string
that ends where it ends or at its first NUL, which is no character of a number.
-/

namespace CosmoRuby.Libc

open Lib

def kBase36 (c : UInt8) : Nat :=
  if 0x30 ≤ c ∧ c ≤ 0x39 then c.toNat - 0x30 + 1
  else if 0x41 ≤ c ∧ c ≤ 0x5A then c.toNat - 0x41 + 11
  else if 0x61 ≤ c ∧ c ≤ 0x7A then c.toNat - 0x61 + 11
  else 0

def isxdigit (c : UInt8) : Bool := 0 < kBase36 c && kBase36 c ≤ 16

def consumeSpaces (s : Bytes) : Bytes := s.dropWhile fun c => c == 0x20 || c == 0x09

/-- `GET_SIGN`: whether the number is negated, and the text behind the sign. -/
def getSign : Bytes → Bool × Bytes
  | c :: s => if c = 0x2D then (true, s) else if c = 0x2B then (false, s) else (false, c :: s)
  | [] => (false, [])

def isRadixX (s : Bytes) : Bool :=
  (byteAt s 0 == 0x78 || byteAt s 0 == 0x58) && isxdigit (byteAt s 1)

def isRadixB (s : Bytes) : Bool :=
  (byteAt s 0 == 0x62 || byteAt s 0 == 0x42) && (byteAt s 1 == 0x30 || byteAt s 1 == 0x31)

/-- `GET_RADIX`: the text of the digits and the base; `none` where the base is not valid. -/
def getRadix (s : Bytes) (base : Nat) : Option (Bytes × Nat) :=
  if base = 0 then
    if byteAt s 0 = 0x30 then
      let s := s.tail
      if isRadixX s then some (s.tail, 16)
      else if isRadixB s then some (s.tail, 2)
      else some (s, 8)
    else some (s, 10)
  else if ¬(2 ≤ base ∧ base ≤ 36) then none
  else if byteAt s 0 = 0x30 then
    let s := s.tail
    if (base = 2 ∧ isRadixB s) ∨ (base = 16 ∧ isRadixX s) then some (s.tail, base) else some (s, base)
  else some (s, base)

/-- The loop over the digits; `none` where `ckd_mul` or `ckd_add` reports an overflow. -/
def digitsFrom (base : Nat) : Nat → Bytes → Option Nat
  | x, [] => some x
  | x, c :: s =>
    if 0 < kBase36 c ∧ kBase36 c - 1 < base then
      let x := x * base + (kBase36 c - 1)
      if 2 ^ 64 ≤ x then none else digitsFrom base x s
    else some x

def strtoul (s : Bytes) (base : Nat) : BitVec 64 :=
  let d := getSign (consumeSpaces s)
  match getRadix d.2 base with
  | none => 0
  | some (s, base) =>
    match digitsFrom base 0 s with
    | none => BitVec.allOnes 64
    | some x => if d.1 then -BitVec.ofNat 64 x else BitVec.ofNat 64 x

def strtoll (s : Bytes) : Int :=
  let d := getSign (consumeSpaces s)
  let x := ((digitsFrom 10 0 d.2).getD (2 ^ 64) : Int)
  if d.1 then max (-x) (-2 ^ 63) else min x (2 ^ 63 - 1)

end CosmoRuby.Libc
