import Mathlib
import CosmoRuby.Lib.Word
import CosmoRuby.Windows.Transcode

/-!
# `isutf8`

A pointer into the text is the list of the bytes from there to its end, so that the end is the empty list.
The 16-byte loads also read what lies `behind` the end.
-/

namespace CosmoRuby.Libc

open Lib Windows List

/-! ## 1. The code -/

/-- `kUtf8Dispatch[c - 0300]` -/
def kUtf8Dispatch (c : Nat) : Nat :=
  ([0, 0] ++ List.replicate 30 1 ++ 2 :: List.replicate 15 3 ++ [4, 5, 5, 5, 5]).getD (c - 0o300) 0

/-- `(b & 0300) == 0200` -/
def isCont (b : UInt8) : Bool := b &&& 0o300 == 0o200

/-- The test of the cases 4 and 5, on four bytes as one word. -/
def threeConts (lead b₀ b₁ b₂ : UInt8) : Bool :=
  (b₂.toNat * 2 ^ 24 + b₁.toNat * 2 ^ 16 + b₀.toNat * 2 ^ 8 + lead.toNat) &&& 0xC0C0C000 == 0x80808000

/-- `p < e && (*p & 0377) < bound` -/
def isOverlong (bound : Nat) : Bytes → Bool
  | [] => false
  | b :: _ => b.toNat < bound

def takeCont : Bytes → Option Bytes
  | b :: p => if isCont b then some p else none
  | [] => none

def takeTwoConts : Bytes → Option Bytes
  | b₀ :: b₁ :: p => if isCont b₀ && isCont b₁ then some p else none
  | _ => none

def takeThreeConts (lead : UInt8) : Bytes → Option Bytes
  | b₀ :: b₁ :: b₂ :: p => if threeConts lead b₀ b₁ b₂ then some p else none
  | _ => none

/-- The cases of the `switch`; 2 and 4 fall through. -/
def takeConts (c : UInt8) (p : Bytes) : Nat → Option Bytes
  | 1 => takeCont p
  | 2 => if isOverlong 0o240 p then none else takeTwoConts p
  | 3 => takeTwoConts p
  | 4 => if isOverlong 0o220 p then none else takeThreeConts c p
  | 5 => takeThreeConts c p
  | _ => none

/-- One character from its first byte on; nothing where the function returns false. -/
def isutf8Char (c : UInt8) (p : Bytes) : Option Bytes :=
  if c.toNat < 0o200 then some p
  else if c.toNat < 0o300 then none
  else takeConts c p (kUtf8Dispatch c.toNat)

/-- The sixteen bytes at `p`. -/
def xmmAt (behind p : Bytes) : Bytes := (p ++ (behind ++ List.replicate 16 0)).take 16

/-- The number of bytes in front of the first one that is not ASCII. -/
def asciiRun (xmm : Bytes) : Nat := (xmm.takeWhile fun b => b < 0o200).length

/-- The loop over whole blocks. It ends at a byte that is not ASCII, or at the end or behind it. -/
def skipAscii (behind : Bytes) : Nat → Bytes → Bytes
  | 0, p => p
  | fuel + 1, p =>
    if asciiRun (xmmAt behind p) < 16 then p.drop (asciiRun (xmmAt behind p))
    else if p.drop 16 = [] then []
    else skipAscii behind fuel (p.drop 16)

/-- The outer loop, with the address `e` of the end. -/
def isutf8Loop (x86 : Bool) (e : Nat) (behind : Bytes) : Nat → Bytes → Bool
  | 0, _ => false
  | fuel + 1, p =>
    if p = [] then true
    else
      match (if x86 && (e - p.length) % 16 == 0 then skipAscii behind p.length p else p) with
      | [] => true
      | c :: p =>
        match isutf8Char c p with
        | none => false
        | some p => isutf8Loop x86 e behind fuel p

/-- `isutf8(data, size)`, where no size stands for -1. `mem` is the memory from `data` on. -/
def isutf8 (x86 : Bool) (data : Nat) (mem : Bytes) (size : Option Nat) : Bool :=
  let size := size.getD (if data = 0 then 0 else (mem.takeWhile (· != 0)).length)
  isutf8Loop x86 (data + size) (mem.drop size) (size + 1) (mem.take size)

/-! ## 2. Single characters -/

/-- A concatenation of shortest forms of numbers that fit the first bytes up to F4. -/
def ShortestForms (s : Bytes) : Prop := ∃ vs : List Nat, (∀ v ∈ vs, v < 0x140000) ∧ s = vs.flatMap tpenc

theorem and_mask_iff (b : UInt8) : b.toNat &&& 0xC0 = 0x80 ↔ isCont b = true := by
  rw [isCont, beq_iff_eq, ← UInt8.toNat_inj, UInt8.toNat_and]
  exact Iff.rfl

theorem isCont_iff (b : UInt8) : isCont b = true ↔ 128 ≤ b.toNat ∧ b.toNat < 192 := by
  have hall : ∀ n < 256, n &&& 0xC0 = 0x80 ↔ 128 ≤ n ∧ n < 192 := by decide +kernel
  rw [← and_mask_iff]
  exact hall b.toNat b.toNat_lt

variable {y y₀ y₁ y₂ bound v a : Nat}

theorem isCont_ofNat (hy : y < 64) : isCont (UInt8.ofNat (y + 128)) = true := by
  rw [isCont_iff, toNat_ofNat_byte (by omega)]
  omega

/-- A mask acts on each byte. -/
theorem and_byte (x a y b : Nat) (ha : a < 256) (hb : b < 256) :
    (x * 256 + a) &&& (y * 256 + b) = (x &&& y) * 256 + (a &&& b) := by
  rw [Nat.mul_comm x, Nat.mul_comm y, Nat.mul_comm (x &&& y)]
  exact and_digits (k := 8) x y ha hb

theorem threeConts_eq (lead b₀ b₁ b₂ : UInt8) :
    threeConts lead b₀ b₁ b₂ = (isCont b₀ && isCont b₁ && isCont b₂) := by
  have hlead := lead.toNat_lt
  have h₀ := b₀.toNat_lt
  have h₁ := b₁.toNat_lt
  have h₂ := b₂.toNat_lt
  have hword : (b₂.toNat * 2 ^ 24 + b₁.toNat * 2 ^ 16 + b₀.toNat * 2 ^ 8 + lead.toNat) &&& 0xC0C0C000 =
      (((b₂.toNat &&& 0xC0) * 256 + (b₁.toNat &&& 0xC0)) * 256 + (b₀.toNat &&& 0xC0)) * 256 := by
    have hsum : b₂.toNat * 2 ^ 24 + b₁.toNat * 2 ^ 16 + b₀.toNat * 2 ^ 8 + lead.toNat =
        ((b₂.toNat * 256 + b₁.toNat) * 256 + b₀.toNat) * 256 + lead.toNat := by ring
    rw [hsum, show 0xC0C0C000 = ((0xC0 * 256 + 0xC0) * 256 + 0xC0) * 256 + 0 from rfl,
      and_byte _ _ _ _ hlead (by decide), and_byte _ _ _ _ h₀ (by decide),
      and_byte _ _ _ _ h₁ (by decide), Nat.and_zero, Nat.add_zero]
  have hlt (b : UInt8) : b.toNat &&& 0xC0 < 256 :=
    Nat.and_lt_two_pow b.toNat (show 0xC0 < 2 ^ 8 by decide)
  have hlt₀ := hlt b₀
  have hlt₁ := hlt b₁
  have hlt₂ := hlt b₂
  rw [threeConts, hword, Bool.eq_iff_iff, beq_iff_eq, Bool.and_eq_true, Bool.and_eq_true,
    ← and_mask_iff, ← and_mask_iff, ← and_mask_iff]
  omega

theorem kUtf8Dispatch_two : ∀ a < 30, kUtf8Dispatch (a + 194) = 1 := by decide

theorem kUtf8Dispatch_three : ∀ a < 15, kUtf8Dispatch (a + 225) = 3 := by decide

theorem kUtf8Dispatch_four : ∀ a < 4, kUtf8Dispatch (a + 241) = 5 := by decide

/-- Which first bytes the table has which case for. -/
theorem kUtf8Dispatch_cases : ∀ n < 256, 192 ≤ n →
    (kUtf8Dispatch n = 1 ∧ 194 ≤ n ∧ n < 224) ∨ (kUtf8Dispatch n = 2 ∧ n = 224) ∨
      (kUtf8Dispatch n = 3 ∧ 225 ≤ n ∧ n < 240) ∨ (kUtf8Dispatch n = 4 ∧ n = 240) ∨
      (kUtf8Dispatch n = 5 ∧ 241 ≤ n ∧ n < 245) ∨ kUtf8Dispatch n = 0 := by
  decide +kernel

variable {c : UInt8}

theorem isutf8Char_ascii (p : Bytes) (h : c.toNat < 128) : isutf8Char c p = some p :=
  if_pos h

/-- Behind a first byte the table decides. -/
theorem isutf8Char_lead {n : Nat} (p : Bytes) (h₁ : 192 ≤ n) (h₂ : n < 256) :
    isutf8Char (UInt8.ofNat n) p = takeConts (UInt8.ofNat n) p (kUtf8Dispatch n) := by
  rw [isutf8Char, toNat_ofNat_byte h₂, if_neg (by omega), if_neg (by omega)]

theorem takeTwoConts_ofNat (p : Bytes) (h₀ : y₀ < 64) (h₁ : y₁ < 64) :
    takeTwoConts (UInt8.ofNat (y₀ + 128) :: UInt8.ofNat (y₁ + 128) :: p) = some p := by
  rw [takeTwoConts, isCont_ofNat h₀, isCont_ofNat h₁]
  rfl

theorem takeThreeConts_ofNat (c : UInt8) (p : Bytes) (h₀ : y₀ < 64) (h₁ : y₁ < 64) (h₂ : y₂ < 64) :
    takeThreeConts c (UInt8.ofNat (y₀ + 128) :: UInt8.ofNat (y₁ + 128) :: UInt8.ofNat (y₂ + 128) :: p) =
      some p := by
  rw [takeThreeConts, threeConts_eq, isCont_ofNat h₀, isCont_ofNat h₁, isCont_ofNat h₂]
  rfl

theorem isOverlong_ofNat (p : Bytes) (hy : y < 256) (h : bound ≤ y) :
    isOverlong bound (UInt8.ofNat y :: p) = false := by
  rw [isOverlong, toNat_ofNat_byte hy]
  exact decide_eq_false (by omega)

/-- One pass over a text, as a function of lists. -/
def isutf8Pass : Bytes → Option Bytes
  | [] => none
  | c :: p => isutf8Char c p

/-- A shortest form is taken off. -/
theorem isutf8Pass_tpenc (p : Bytes) (hv : v < 0x140000) : isutf8Pass (tpenc v ++ p) = some p := by
  by_cases h₁ : v ≤ 127
  · rw [tpenc, if_pos h₁]
    exact isutf8Char_ascii p (by rw [toNat_ofNat_byte (by omega)]; omega)
  · by_cases h₂ : v < 2 ^ 11
    · have hcase := kUtf8Dispatch_two (v / 64 - 2) (by omega)
      rw [show v / 64 - 2 + 194 = v / 64 + 192 by omega] at hcase
      rw [tpenc_two (by omega) h₂, cons_append, isutf8Pass, isutf8Char_lead _ (by omega) (by omega),
        hcase, cons_append, takeConts, takeCont, isCont_ofNat (by omega)]
      rfl
    · by_cases h₃ : v < 2 ^ 16
      · rw [tpenc_three (by omega) h₃, cons_append, isutf8Pass,
          isutf8Char_lead _ (by omega) (by omega), cons_append, cons_append]
        by_cases hE0 : v / 4096 = 0
        · -- the first byte is E0, and the number has more than eleven bits
          rw [hE0, show kUtf8Dispatch (0 + 224) = 2 from rfl, takeConts,
            isOverlong_ofNat _ (by omega) (by omega), takeTwoConts_ofNat _ (by omega) (by omega)]
          rfl
        · have hcase := kUtf8Dispatch_three (v / 4096 - 1) (by omega)
          rw [show v / 4096 - 1 + 225 = v / 4096 + 224 by omega] at hcase
          rw [hcase, takeConts, takeTwoConts_ofNat _ (by omega) (by omega)]
          rfl
      · rw [tpenc_four (by omega) (by omega), cons_append, isutf8Pass,
          isutf8Char_lead _ (by omega) (by omega), cons_append, cons_append, cons_append]
        by_cases hF0 : v / 262144 = 0
        · rw [hF0, show kUtf8Dispatch (0 + 240) = 4 from rfl, takeConts,
            isOverlong_ofNat _ (by omega) (by omega),
            takeThreeConts_ofNat _ _ (by omega) (by omega) (by omega)]
          rfl
        · have hcase := kUtf8Dispatch_four (v / 262144 - 1) (by omega)
          rw [show v / 262144 - 1 + 241 = v / 262144 + 240 by omega] at hcase
          rw [hcase, takeConts, takeThreeConts_ofNat _ _ (by omega) (by omega) (by omega)]
          rfl

variable {p t : Bytes}

theorem takeCont_eq_some (h : takeCont p = some t) : ∃ y < 64, p = UInt8.ofNat (y + 128) :: t := by
  cases p with
  | nil => cases h
  | cons b p =>
    rw [takeCont] at h
    split at h
    · next hb =>
      rw [isCont_iff] at hb
      cases h
      refine ⟨b.toNat - 128, by omega, ?_⟩
      rw [show b.toNat - 128 + 128 = b.toNat by omega, UInt8.ofNat_toNat]
    · cases h

theorem takeTwoConts_eq_some (h : takeTwoConts p = some t) :
    ∃ y₀ < 64, ∃ y₁ < 64, p = UInt8.ofNat (y₀ + 128) :: UInt8.ofNat (y₁ + 128) :: t := by
  obtain _ | ⟨b₀, _ | ⟨b₁, p⟩⟩ := p
  · cases h
  · cases h
  · rw [takeTwoConts] at h
    split at h
    · next hb =>
      rw [Bool.and_eq_true] at hb
      cases h
      obtain ⟨y₀, hy₀, h₀⟩ := takeCont_eq_some (p := b₀ :: b₁ :: t) (if_pos hb.1)
      obtain ⟨y₁, hy₁, h₁⟩ := takeCont_eq_some (p := b₁ :: t) (if_pos hb.2)
      exact ⟨y₀, hy₀, y₁, hy₁, by rw [h₀, h₁]⟩
    · cases h

theorem takeThreeConts_eq_some (h : takeThreeConts c p = some t) : ∃ y₀ < 64, ∃ y₁ < 64, ∃ y₂ < 64,
      p = UInt8.ofNat (y₀ + 128) :: UInt8.ofNat (y₁ + 128) :: UInt8.ofNat (y₂ + 128) :: t := by
  obtain _ | ⟨b₀, _ | ⟨b₁, _ | ⟨b₂, p⟩⟩⟩ := p
  · cases h
  · cases h
  · cases h
  · rw [takeThreeConts, threeConts_eq] at h
    split at h
    · next hb =>
      rw [Bool.and_eq_true] at hb
      cases h
      obtain ⟨y₀, hy₀, y₁, hy₁, h₀₁⟩ := takeTwoConts_eq_some (p := b₀ :: b₁ :: b₂ :: t) (if_pos hb.1)
      obtain ⟨y₂, hy₂, h₂⟩ := takeCont_eq_some (p := b₂ :: t) (if_pos hb.2)
      exact ⟨y₀, hy₀, y₁, hy₁, y₂, hy₂, by rw [h₀₁, h₂]⟩
    · cases h

theorem le_of_isOverlong (hy : y < 256)
    (h : ¬ isOverlong bound (UInt8.ofNat y :: p) = true) : bound ≤ y := by
  rw [isOverlong, toNat_ofNat_byte hy, decide_eq_true_eq] at h
  omega

/-- Three bytes are the encoding of a number. -/
theorem exists_tpenc_three (hc : c.toNat = a + 224) (ha : a < 16) (h₀ : y₀ < 64) (h₁ : y₁ < 64)
    (hlong : 32 ≤ a * 64 + y₀) :
    ∃ v < 0x140000, c :: UInt8.ofNat (y₀ + 128) :: UInt8.ofNat (y₁ + 128) :: t = tpenc v ++ t := by
  refine ⟨(a * 64 + y₀) * 64 + y₁, by omega, ?_⟩
  rw [tpenc_three (by omega) (by omega), show ((a * 64 + y₀) * 64 + y₁) / 4096 = a by omega,
    show ((a * 64 + y₀) * 64 + y₁) / 64 % 64 = y₀ by omega,
    show ((a * 64 + y₀) * 64 + y₁) % 64 = y₁ by omega, ← hc, UInt8.ofNat_toNat]
  rfl

theorem exists_tpenc_four (hc : c.toNat = a + 240) (ha : a < 5) (h₀ : y₀ < 64) (h₁ : y₁ < 64) (h₂ : y₂ < 64)
    (hlong : 16 ≤ a * 64 + y₀) : ∃ v < 0x140000,
      c :: UInt8.ofNat (y₀ + 128) :: UInt8.ofNat (y₁ + 128) :: UInt8.ofNat (y₂ + 128) :: t = tpenc v ++ t := by
  obtain ⟨v, hv⟩ : ∃ v, v = ((a * 64 + y₀) * 64 + y₁) * 64 + y₂ := ⟨_, rfl⟩
  refine ⟨v, by omega, ?_⟩
  rw [tpenc_four (by omega) (by omega), show v / 262144 = a by omega, show v / 4096 % 64 = y₀ by omega,
    show v / 64 % 64 = y₁ by omega, show v % 64 = y₂ by omega, ← hc, UInt8.ofNat_toNat]
  rfl

/-- What is taken off is a shortest form. -/
theorem isutf8Char_eq_some (h : isutf8Char c p = some t) :
    ∃ v < 0x140000, c :: p = tpenc v ++ t := by
  have hc := c.toNat_lt
  by_cases hascii : c.toNat < 128
  · rw [isutf8Char_ascii p hascii] at h
    cases h
    refine ⟨c.toNat, by omega, ?_⟩
    rw [tpenc, if_pos (by omega), UInt8.ofNat_toNat, singleton_append]
  · by_cases hlead : c.toNat < 192
    · rw [isutf8Char, if_neg hascii, if_pos hlead] at h
      cases h
    · rw [isutf8Char, if_neg hascii, if_neg hlead] at h
      obtain ⟨hk, hlo, hhi⟩ | ⟨hk, heq⟩ | ⟨hk, hlo, hhi⟩ | ⟨hk, heq⟩ | ⟨hk, hlo, hhi⟩ | hk :=
        kUtf8Dispatch_cases c.toNat hc (by omega)
      · rw [hk, takeConts] at h
        obtain ⟨y, hy, rfl⟩ := takeCont_eq_some h
        refine ⟨(c.toNat - 192) * 64 + y, by omega, ?_⟩
        rw [tpenc_two (by omega) (by omega), show ((c.toNat - 192) * 64 + y) % 64 = y by omega,
          show ((c.toNat - 192) * 64 + y) / 64 + 192 = c.toNat by omega, UInt8.ofNat_toNat]
        rfl
      · rw [hk, takeConts] at h
        split at h
        · cases h
        · next hlong =>
          obtain ⟨y₀, h₀, y₁, h₁, rfl⟩ := takeTwoConts_eq_some h
          have hbound := le_of_isOverlong (by omega) hlong
          exact exists_tpenc_three (a := 0) heq (by decide) h₀ h₁ (by omega)
      · rw [hk, takeConts] at h
        obtain ⟨y₀, h₀, y₁, h₁, rfl⟩ := takeTwoConts_eq_some h
        exact exists_tpenc_three (a := c.toNat - 224) (by omega) (by omega) h₀ h₁ (by omega)
      · rw [hk, takeConts] at h
        split at h
        · cases h
        · next hlong =>
          obtain ⟨y₀, h₀, y₁, h₁, y₂, h₂, rfl⟩ := takeThreeConts_eq_some h
          have hbound := le_of_isOverlong (by omega) hlong
          exact exists_tpenc_four (a := 0) heq (by decide) h₀ h₁ h₂ (by omega)
      · rw [hk, takeConts] at h
        obtain ⟨y₀, h₀, y₁, h₁, y₂, h₂, rfl⟩ := takeThreeConts_eq_some h
        exact exists_tpenc_four (a := c.toNat - 240) (by omega) (by omega) h₀ h₁ h₂ (by omega)
      · rw [hk] at h
        cases h

/-! ## 3. The loops -/

theorem shortestForms_nil : ShortestForms [] := ⟨[], nofun, rfl⟩

theorem shortestForms_cons (c : UInt8) (p : Bytes) :
    ShortestForms (c :: p) ↔ ∃ t, isutf8Char c p = some t ∧ ShortestForms t := by
  constructor
  · rintro ⟨vs, hvs, hs⟩
    cases vs with
    | nil => cases hs
    | cons v vs =>
      refine ⟨vs.flatMap tpenc, ?_, vs, fun u hu => hvs u (mem_cons_of_mem v hu), rfl⟩
      have hpass := isutf8Pass_tpenc (vs.flatMap tpenc) (hvs v mem_cons_self)
      rw [← flatMap_cons, ← hs] at hpass
      exact hpass
  · rintro ⟨t, hchar, vs, hvs, rfl⟩
    obtain ⟨v, hv, hcp⟩ := isutf8Char_eq_some hchar
    refine ⟨v :: vs, List.forall_mem_cons.2 ⟨hv, hvs⟩, ?_⟩
    rw [hcp, flatMap_cons]

theorem shortestForms_append {run : Bytes} (p : Bytes) (hrun : ∀ b ∈ run, b.toNat < 128) :
    ShortestForms (run ++ p) ↔ ShortestForms p := by
  induction run with
  | nil => exact Iff.rfl
  | cons c run ih =>
    obtain ⟨hc, hrun⟩ := List.forall_mem_cons.1 hrun
    rw [cons_append, shortestForms_cons, isutf8Char_ascii _ hc]
    simp only [Option.some.injEq, exists_eq_left']
    exact ih hrun

theorem ascii_take {behind : Bytes} {k : Nat} (hk : k ≤ asciiRun (xmmAt behind p)) :
    ∀ b ∈ p.take k, b.toNat < 128 := by
  intro b hb
  have hall := all_takeWhile (l := xmmAt behind p) (p := fun b : UInt8 => decide (b < 0o200))
  have hfront : (xmmAt behind p).takeWhile (fun b => decide (b < 0o200)) =
      (p ++ (behind ++ List.replicate 16 0)).take (asciiRun (xmmAt behind p)) := by
    have hstart : (xmmAt behind p).takeWhile (fun b => decide (b < 0o200)) <+: xmmAt behind p :=
      takeWhile_prefix _
    have htake := List.prefix_iff_eq_take.1 hstart
    have hle : asciiRun (xmmAt behind p) ≤ 16 :=
      (takeWhile_sublist _).length_le.trans (length_take_le _ _)
    rw [htake]
    change ((p ++ _).take 16).take (asciiRun (xmmAt behind p)) = _
    rw [take_take, Nat.min_eq_left hle]
  have hmem : b ∈ (xmmAt behind p).takeWhile fun b => decide (b < 0o200) := by
    rw [hfront, take_append]
    refine mem_append_left _ ?_
    exact (take_sublist_take_left hk).subset hb
  have hlt := List.all_eq_true.1 hall b hmem
  exact UInt8.lt_iff_toNat_lt.1 (of_decide_eq_true hlt)

/-- The loop over blocks skips nothing but ASCII. -/
theorem skipAscii_spec (behind : Bytes) (fuel : Nat) (p : Bytes) :
    ∃ run, (∀ b ∈ run, b.toNat < 128) ∧ p = run ++ skipAscii behind fuel p := by
  induction fuel generalizing p with
  | zero => exact ⟨[], nofun, rfl⟩
  | succ fuel ih =>
    rw [skipAscii]
    by_cases hrun : asciiRun (xmmAt behind p) < 16
    · rw [if_pos hrun]
      exact ⟨_, ascii_take (Nat.le_refl _), (take_append_drop _ p).symm⟩
    · have hblock : ∀ b ∈ p.take 16, b.toNat < 128 := ascii_take (Nat.le_of_not_lt hrun)
      rw [if_neg hrun]
      by_cases hend : p.drop 16 = []
      · refine ⟨p.take 16, hblock, ?_⟩
        rw [if_pos hend, ← hend, take_append_drop]
      · obtain ⟨run, hascii, heq⟩ := ih (p.drop 16)
        refine ⟨p.take 16 ++ run, ?_, ?_⟩
        · intro b hb
          rcases List.mem_append.1 hb with hb | hb
          · exact hblock b hb
          · exact hascii b hb
        · rw [if_neg hend, append_assoc, ← heq, take_append_drop]

theorem isutf8Loop_iff (x86 : Bool) (e : Nat) (behind : Bytes) (fuel : Nat) (p : Bytes)
    (hfuel : p.length < fuel) : isutf8Loop x86 e behind fuel p = true ↔ ShortestForms p := by
  induction fuel generalizing p with
  | zero => omega
  | succ fuel ih =>
    rw [isutf8Loop]
    by_cases hnil : p = []
    · subst hnil
      exact iff_of_true rfl shortestForms_nil
    · obtain ⟨run, hrun, hp⟩ : ∃ run, (∀ b ∈ run, b.toNat < 128) ∧
          p = run ++ (if x86 && (e - p.length) % 16 == 0 then skipAscii behind p.length p else p) := by
        split
        · exact skipAscii_spec behind p.length p
        · exact ⟨[], nofun, rfl⟩
      rw [if_neg hnil]
      generalize (if x86 && (e - p.length) % 16 == 0 then skipAscii behind p.length p else p) = q at hp
      subst hp
      rw [shortestForms_append q hrun]
      cases q with
      | nil => exact iff_of_true rfl shortestForms_nil
      | cons c q =>
        dsimp only
        rw [shortestForms_cons]
        cases hchar : isutf8Char c q with
        | none => simp
        | some t =>
          have hlt : t.length < fuel := by
            obtain ⟨v, -, hcq⟩ := isutf8Char_eq_some hchar
            have hpos := List.length_pos_iff.2 (tpenc_ne_nil v)
            have hlen := congrArg List.length hcq
            rw [length_append] at hlen hfuel
            omega
          simp only [Option.some.injEq, exists_eq_left']
          exact ih t hlt

/-- `isutf8` accepts the shortest forms of the numbers up to 13FFFF. -/
theorem isutf8_iff (x86 : Bool) (data : Nat) (s behind : Bytes) :
    isutf8 x86 data (s ++ behind) (some s.length) = true ↔ ShortestForms s := by
  have hloop := isutf8Loop_iff x86 (data + s.length) behind (s.length + 1) s (Nat.lt_succ_self _)
  simp only [isutf8, Option.getD_some, take_left', drop_left']
  exact hloop

/-! ## 4. UTF-8 -/

/-- A number that UTF-16 cannot encode. -/
def NotUtf16 (v : Nat) : Prop := (0xd800 ≤ v ∧ v ≤ 0xdfff) ∨ 0x10ffff < v

/-- The text holds the encoding of a number that UTF-16 cannot encode, and is well formed otherwise. -/
def HoldsNotUtf16 (s : Bytes) : Prop :=
  ∃ vs : List Nat, (∀ v ∈ vs, v < 0x140000) ∧ s = vs.flatMap tpenc ∧ ∃ v ∈ vs, NotUtf16 v

/-- UTF-8, as the numbers that UTF-16 can encode. -/
def IsUtf8 (s : Bytes) : Prop := ∃ cs : List Char, s = cs.flatMap String.utf8EncodeChar

theorem notUtf16_toNat (c : Char) : ¬ NotUtf16 c.toNat := by
  rintro (h | h)
  · rcases c.valid with hc | hc
    · exact absurd hc (Nat.not_lt.2 h.1)
    · exact absurd hc.1 (Nat.not_lt.2 h.2)
  · exact absurd (toNat_le_max c) (Nat.not_le.2 h)

theorem exists_char (h : ¬ NotUtf16 v) : ∃ c : Char, c.toNat = v := by
  rw [NotUtf16] at h
  have hvalid : v.isValidChar := by
    rw [Nat.isValidChar]
    omega
  refine ⟨Char.ofNat v, ?_⟩
  rw [Char.ofNat, dif_pos hvalid]
  exact Char.toNat_ofNatAux hvalid

theorem flatMap_utf8 (cs : List Char) :
    cs.flatMap String.utf8EncodeChar = (cs.map Char.toNat).flatMap tpenc := by
  rw [flatMap_map]
  exact congrArg₂ List.flatMap (funext fun c => (tpenc_eq_utf8 c).symm) rfl

theorem exists_chars {vs : List Nat} (h : ∀ v ∈ vs, ¬ NotUtf16 v) : ∃ cs : List Char, cs.map Char.toNat = vs := by
  induction vs with
  | nil => exact ⟨[], rfl⟩
  | cons v vs ih =>
    obtain ⟨hv, hvs⟩ := List.forall_mem_cons.1 h
    obtain ⟨c, hc⟩ := exists_char hv
    obtain ⟨cs, hcs⟩ := ih hvs
    exact ⟨c :: cs, by rw [map_cons, hc, hcs]⟩

theorem isUtf8_iff (s : Bytes) : IsUtf8 s ↔ ShortestForms s ∧ ¬ HoldsNotUtf16 s := by
  constructor
  · rintro ⟨cs, rfl⟩
    have hmax : ∀ v ∈ cs.map Char.toNat, v < 0x140000 := by
      intro v hv
      obtain ⟨c, -, rfl⟩ := List.mem_map.1 hv
      have := toNat_le_max c
      omega
    refine ⟨⟨cs.map Char.toNat, hmax, flatMap_utf8 cs⟩, ?_⟩
    rintro ⟨vs, hvs, heq, v, hv, hnot⟩
    rw [flatMap_utf8] at heq
    have hinj := flatMap_tpenc_inj (fun u hu => (hmax u hu).trans (by decide))
      (fun u hu => (hvs u hu).trans (by decide)) heq
    rw [← hinj] at hv
    obtain ⟨c, -, rfl⟩ := List.mem_map.1 hv
    exact notUtf16_toNat c hnot
  · rintro ⟨⟨vs, hvs, rfl⟩, hnot⟩
    obtain ⟨cs, rfl⟩ := exists_chars fun v hv hv' => hnot ⟨vs, hvs, rfl, v, hv, hv'⟩
    exact ⟨cs, (flatMap_utf8 cs).symm⟩

/-- `isutf8` decides UTF-8 but for texts that encode surrogates or numbers above 10FFFF. -/
theorem isutf8_decides_iff (x86 : Bool) (data : Nat) (s behind : Bytes) :
    (isutf8 x86 data (s ++ behind) (some s.length) = true ↔ IsUtf8 s) ↔ ¬ HoldsNotUtf16 s := by
  rw [isutf8_iff, isUtf8_iff]
  constructor
  · intro h hholds
    obtain ⟨vs, hvs, hs, -⟩ := id hholds
    exact (h.1 ⟨vs, hvs, hs⟩).2 hholds
  · intro h
    exact ⟨fun hs => ⟨hs, h⟩, fun hs => hs.1⟩

/-- ED A0 80 and F4 90 80 80 pass for UTF-8. -/
theorem isutf8_surrogate :
    isutf8 true 0x1000 [0xED, 0xA0, 0x80] (some 3) = true ∧ ¬ IsUtf8 [0xED, 0xA0, 0x80] ∧
      isutf8 true 0x1000 [0xF4, 0x90, 0x80, 0x80] (some 4) = true ∧
      ¬ IsUtf8 [0xF4, 0x90, 0x80, 0x80] := by
  refine ⟨by decide +kernel, ?_, by decide +kernel, ?_⟩
  · rw [isUtf8_iff]
    exact fun h => h.2 ⟨[0xd800], by decide, by decide +kernel, 0xd800, by decide, .inl (by decide)⟩
  · rw [isUtf8_iff]
    exact fun h => h.2 ⟨[0x110000], by decide, by decide +kernel, 0x110000, by decide, .inr (by decide)⟩

end CosmoRuby.Libc