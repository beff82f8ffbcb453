import CosmoRuby.Lib.Bytes

/-!
# Character tables of `net/http`

The tables of the C files, as functions of the byte; a nonzero entry reads as `true`.
-/

namespace CosmoRuby.Http

open Lib

/-! ## Characters -/

abbrev chTab : UInt8 := 0x09
abbrev chLf : UInt8 := 0x0A
abbrev chCr : UInt8 := 0x0D
abbrev chSpace : UInt8 := 0x20

def ascii (s : String) : Bytes := s.toList.map fun c => c.toNat.toUInt8

/-! ## Tables -/

/-- `khttptoken.c` as it says how it was generated: the visible characters but for some. -/
def kHttpToken (c : UInt8) : Bool :=
  0x20 < c && c < 0x7F && !(ascii "()<>@,;:\\\"/[]?=\x7b\x7d").contains c

/-- `khextoint.c` in closed form. -/
def kHexToInt (c : UInt8) : Int :=
  if 0x30 ≤ c ∧ c ≤ 0x39 then c.toNat - 0x30
  else if 0x41 ≤ c ∧ c ≤ 0x46 then c.toNat - 0x37
  else if 0x61 ≤ c ∧ c ≤ 0x66 then c.toNat - 0x57
  else -1

/-- `ktoupper.c` in closed form: the table is the identity outside `a`..`z`. -/
def kToUpper (c : UInt8) : UInt8 := if 0x61 ≤ c ∧ c ≤ 0x7A then c - 0x20 else c

def kToLower (c : UInt8) : UInt8 := if 0x41 ≤ c ∧ c ≤ 0x5A then c + 0x20 else c

def isdigit (c : UInt8) : Bool := 0x30 ≤ c && c ≤ 0x39

/-! ## What the tables say -/

theorem kHttpToken_visible (c : UInt8) (h : kHttpToken c = true) :
    0x20 < c ∧ c < 0x7F ∧ c ≠ 0x3A := by
  revert h
  revert c
  decide +kernel

theorem kHexToInt_bounds (c : UInt8) : -1 ≤ kHexToInt c ∧ kHexToInt c < 16 := by
  revert c
  decide +kernel

end CosmoRuby.Http
