import Mathlib
import CosmoRuby.Lib.Bytes

/-!
# Code points, UTF-16 and bytes

The macros of `utf16.h` and `thompike.h` and the function `tpenc`, on code points as numbers. A
word that `tpenc` returns is the list of its bytes, lowest first, as its callers take it apart.
-/

open CosmoRuby.Lib

namespace CosmoRuby.Windows

open List

/-- `kTpEnc[bsr(c) - 7]`: the number of bytes behind the first one, and the marks of that one. -/
def kTpEnc (c : Nat) : Nat × Nat :=
  if c < 2 ^ 11 then (1, 0xc0)
  else if c < 2 ^ 16 then (2, 0xe0)
  else if c < 2 ^ 21 then (3, 0xf0)
  else if c < 2 ^ 26 then (4, 0xf8)
  else (5, 0xfc)

def tpencLoop : Nat → Nat → Bytes → Nat × Bytes
  | 0, c, w => (c, w)
  | n + 1, c, w => tpencLoop n (c / 64) (UInt8.ofNat (0x80 ||| c % 64) :: w)

def tpenc (c : Nat) : Bytes :=
  if c ≤ 127 then [UInt8.ofNat c]
  else
    let r := tpencLoop (kTpEnc c).1 c []
    UInt8.ofNat (r.1 ||| (kTpEnc c).2) :: r.2

def isUcs2 (x : Nat) : Bool := x % 65536 / 2048 != 27

def mergeUtf16 (hi lo : Nat) : Nat :=
  (((hi + 2 ^ 32 - 0xd800) * 1024 + (lo + 2 ^ 32 - 0xdc00)) + 0x10000) % 2 ^ 32

def encodeUtf16 (wc : Nat) : List UInt16 :=
  if wc < 0x10000 then [UInt16.ofNat wc]
  else if wc ≤ 0x10ffff then
    [UInt16.ofNat ((wc - 0x10000) / 1024 + 0xd800), UInt16.ofNat ((wc - 0x10000) % 1024 + 0xdc00)]
  else [0xfffd]

def thomPikeMsb (x : Nat) : Nat := if x % 256 < 252 then Nat.log2 (255 - x % 256) else 1

def thomPikeLen (x : Nat) : Nat := 7 - thomPikeMsb x

def thomPikeByte (x : Nat) : Nat := x &&& ((2 ^ thomPikeMsb x - 1) ||| 3)

def thomPikeMerge (x y : Nat) : Nat := (x * 64 ||| y % 64) % 2 ^ 32

def readCont : Nat → Nat → Bytes → Nat × Bytes
  | 0, x, text => (x, text)
  | _ + 1, _, [] => (0, [])
  | n + 1, x, y :: text => if y = 0 then (0, text) else readCont n (thomPikeMerge x y.toNat) text

def readUtf8 : Bytes → Nat × Bytes
  | [] => (0, [])
  | b :: text =>
    if 0o300 ≤ b.toNat then readCont (thomPikeLen b.toNat - 1) (thomPikeByte b.toNat) text
    else (b.toNat, text)

def readAllUtf8 : Nat → Bytes → List Nat
  | 0, _ => []
  | fuel + 1, text =>
    let r := readUtf8 text
    if r.1 = 0 then [] else r.1 :: readAllUtf8 fuel r.2

/-- All characters of a string of UTF-16. A unit that is not UCS-2 ends it if a NUL follows. -/
def readAllUtf16 : List UInt16 → List Nat
  | [] => []
  | [x] => if x = 0 then [] else if isUcs2 x.toNat then [x.toNat] else []
  | x :: y :: src =>
    if x = 0 then []
    else if isUcs2 x.toNat then x.toNat :: readAllUtf16 (y :: src)
    else if y = 0 then [] else mergeUtf16 x.toNat y.toNat :: readAllUtf16 src

/-! ## Scalar values -/

theorem tpenc_ne_nil (c : Nat) : tpenc c ≠ [] := by
  rw [tpenc]
  split <;> exact cons_ne_nil _ _

theorem or_marks {k b : Nat} (a : Nat) (hb : b < 2 ^ k) : b ||| 2 ^ k * a = b + 2 ^ k * a := by
  rw [Nat.or_comm, ← Nat.two_pow_add_eq_or_of_lt hb, Nat.add_comm]

theorem contByte_eq (c : Nat) : 0x80 ||| c % 64 = c % 64 + 128 := by
  rw [Nat.or_comm]
  exact or_marks (k := 6) 2 (Nat.mod_lt _ (by decide))

variable {v x y n : Nat}

theorem tpenc_two (h₁ : 127 < v) (h₂ : v < 2 ^ 11) :
    tpenc v = [UInt8.ofNat (v / 64 + 192), UInt8.ofNat (v % 64 + 128)] := by
  have hlead : v / 64 ||| 0xc0 = v / 64 + 192 := or_marks (k := 5) 6 (by omega)
  rw [tpenc, if_neg (by omega), kTpEnc, if_pos h₂]
  simp only [tpencLoop, contByte_eq, hlead]

theorem tpenc_three (h₁ : 2 ^ 11 ≤ v) (h₂ : v < 2 ^ 16) :
    tpenc v = [UInt8.ofNat (v / 4096 + 224), UInt8.ofNat (v / 64 % 64 + 128),
      UInt8.ofNat (v % 64 + 128)] := by
  have hdiv : v / 64 / 64 = v / 4096 := Nat.div_div_eq_div_mul v 64 64
  have hlead : v / 4096 ||| 0xe0 = v / 4096 + 224 := or_marks (k := 4) 14 (by omega)
  rw [tpenc, if_neg (by omega), kTpEnc, if_neg (by omega), if_pos h₂]
  simp only [tpencLoop, contByte_eq, hdiv, hlead]

theorem tpenc_four (h₁ : 2 ^ 16 ≤ v) (h₂ : v < 2 ^ 21) :
    tpenc v = [UInt8.ofNat (v / 262144 + 240), UInt8.ofNat (v / 4096 % 64 + 128),
      UInt8.ofNat (v / 64 % 64 + 128), UInt8.ofNat (v % 64 + 128)] := by
  have hdiv : v / 64 / 64 = v / 4096 := Nat.div_div_eq_div_mul v 64 64
  have hdiv' : v / 4096 / 64 = v / 262144 := Nat.div_div_eq_div_mul v 4096 64
  have hlead : v / 262144 ||| 0xf0 = v / 262144 + 240 := or_marks (k := 3) 30 (by omega)
  rw [tpenc, if_neg (by omega), kTpEnc, if_neg (by omega), if_neg (by omega), if_pos h₂]
  simp only [tpencLoop, contByte_eq, hdiv, hdiv', hlead]

theorem toNat_le_max (c : Char) : c.toNat ≤ 0x10ffff := Char.toNat_le_max c

theorem tpenc_eq_utf8 (c : Char) : tpenc c.toNat = String.utf8EncodeChar c := by
  have hmax := toNat_le_max c
  rw [String.utf8EncodeChar]
  change _ = if c.toNat ≤ 127 then [UInt8.ofNat c.toNat]
    else if c.toNat ≤ 2047 then
      [UInt8.ofNat (c.toNat / 64 % 32 + 192), UInt8.ofNat (c.toNat % 64 + 128)]
    else if c.toNat ≤ 65535 then
      [UInt8.ofNat (c.toNat / 4096 % 16 + 224), UInt8.ofNat (c.toNat / 64 % 64 + 128),
        UInt8.ofNat (c.toNat % 64 + 128)]
    else
      [UInt8.ofNat (c.toNat / 262144 % 8 + 240), UInt8.ofNat (c.toNat / 4096 % 64 + 128),
        UInt8.ofNat (c.toNat / 64 % 64 + 128), UInt8.ofNat (c.toNat % 64 + 128)]
  by_cases h₁ : c.toNat ≤ 127
  · rw [if_pos h₁, tpenc, if_pos h₁]
  · rw [if_neg h₁]
    split <;> rename_i h₂
    · rw [tpenc_two (by omega) (by omega),
        Nat.mod_eq_of_lt (show c.toNat / 64 < 32 by omega)]
    · split <;> rename_i h₃
      · rw [tpenc_three (by omega) (by omega),
          Nat.mod_eq_of_lt (show c.toNat / 4096 < 16 by omega)]
      · rw [tpenc_four (by omega) (by omega),
          Nat.mod_eq_of_lt (show c.toNat / 262144 < 8 by omega)]

/-! ## Reading what was encoded -/

theorem thomPike_two : ∀ a < 32, thomPikeLen (a + 192) = 2 ∧ thomPikeByte (a + 192) = a := by
  decide

theorem thomPike_three : ∀ a < 16, thomPikeLen (a + 224) = 3 ∧ thomPikeByte (a + 224) = a := by
  decide

theorem thomPike_four : ∀ a < 8, thomPikeLen (a + 240) = 4 ∧ thomPikeByte (a + 240) = a := by
  decide

theorem thomPikeMerge_cont (hx : x < 2 ^ 20) (hy : y < 64) :
    thomPikeMerge x (y + 128) = x * 64 + y := by
  have hmod : (y + 128) % 64 = y := by omega
  have hor : x * 64 ||| y = x * 64 + y := by
    rw [Nat.mul_comm, ← Nat.two_pow_add_eq_or_of_lt (show y < 2 ^ 6 from hy)]
  rw [thomPikeMerge, hmod, hor, Nat.mod_eq_of_lt (by omega)]

theorem toNat_ofNat_byte (h : n < 256) : (UInt8.ofNat n).toNat = n :=
  UInt8.toNat_ofNat_of_lt' h

theorem byte_ne_zero (h : n < 256) (hn : n ≠ 0) : UInt8.ofNat n ≠ 0 := by
  intro hzero
  have hnat := toNat_ofNat_byte h
  rw [hzero] at hnat
  exact hn hnat.symm

theorem toNat_contByte (hy : y < 64) :
    (UInt8.ofNat (y + 128)).toNat = y + 128 ∧ UInt8.ofNat (y + 128) ≠ 0 :=
  ⟨toNat_ofNat_byte (by omega), byte_ne_zero (by omega) (by omega)⟩

theorem readCont_digit (text : Bytes) (hv : v < 2 ^ 26) :
    readCont (n + 1) (v / 64) (UInt8.ofNat (v % 64 + 128) :: text) = readCont n v text := by
  have hy : v % 64 < 64 := Nat.mod_lt v (by decide)
  obtain ⟨hbyte, hne⟩ := toNat_contByte hy
  rw [readCont, if_neg hne, hbyte, thomPikeMerge_cont (by omega) hy, Nat.div_add_mod']

/-- A byte that continues a character. -/
def IsCont (b : UInt8) : Prop := ∃ y < 64, b = UInt8.ofNat (y + 128)

theorem tpenc_shape (h : 127 < v) (hv : v < 2 ^ 21) :
    ∃ n bs, tpenc v = UInt8.ofNat n :: bs ∧ 192 ≤ n ∧ n < 256 ∧ bs.length + 1 = thomPikeLen n ∧
      (∀ b ∈ bs, IsCont b) ∧ ∀ text, readCont bs.length (thomPikeByte n) (bs ++ text) = (v, text) := by
  have hcont (y : Nat) : IsCont (UInt8.ofNat (y % 64 + 128)) := ⟨y % 64, Nat.mod_lt y (by decide), rfl⟩
  have hdiv : v / 4096 = v / 64 / 64 := by omega
  by_cases h₂ : v < 2 ^ 11
  · obtain ⟨hlen, hbyte⟩ := thomPike_two (v / 64) (by omega)
    refine ⟨_, _, tpenc_two h h₂, by omega, by omega, hlen.symm, ?_, fun text => ?_⟩
    · simp only [forall_mem_cons]
      exact ⟨hcont _, nofun⟩
    · rw [hbyte]
      exact readCont_digit _ (by omega)
  · by_cases h₃ : v < 2 ^ 16
    · obtain ⟨hlen, hbyte⟩ := thomPike_three (v / 4096) (by omega)
      refine ⟨_, _, tpenc_three (by omega) h₃, by omega, by omega, hlen.symm, ?_, fun text => ?_⟩
      · simp only [forall_mem_cons]
        exact ⟨hcont _, hcont _, nofun⟩
      · rw [hbyte, hdiv]
        exact (readCont_digit _ (by omega)).trans (readCont_digit _ (by omega))
    · obtain ⟨hlen, hbyte⟩ := thomPike_four (v / 262144) (by omega)
      refine ⟨_, _, tpenc_four (by omega) hv, by omega, by omega, hlen.symm, ?_, fun text => ?_⟩
      · simp only [forall_mem_cons]
        exact ⟨hcont _, hcont _, hcont _, nofun⟩
      · rw [hbyte, hdiv, show v / 262144 = v / 64 / 64 / 64 by omega]
        exact (readCont_digit _ (by omega)).trans ((readCont_digit _ (by omega)).trans (readCont_digit _ (by omega)))

theorem readUtf8_tpenc_of_lt (text : Bytes) (hv : v < 2 ^ 21) :
    readUtf8 (tpenc v ++ text) = (v, text) := by
  by_cases h₁ : v ≤ 127
  · rw [tpenc, if_pos h₁, singleton_append, readUtf8, toNat_ofNat_byte (by omega),
      if_neg (by omega)]
  · obtain ⟨n, bs, hshape, hlo, hhi, hlen, -, hread⟩ := tpenc_shape (by omega) hv
    rw [hshape, cons_append, readUtf8, toNat_ofNat_byte hhi, if_pos hlo, ← hlen, Nat.add_sub_cancel, hread]

theorem readUtf8_tpenc (text : Bytes) (hv : v ≤ 0x10ffff) :
    readUtf8 (tpenc v ++ text) = (v, text) :=
  readUtf8_tpenc_of_lt text (by omega)

theorem flatMap_tpenc_inj {vs ws : List Nat} (hvs : ∀ v ∈ vs, v < 2 ^ 21)
    (hws : ∀ w ∈ ws, w < 2 ^ 21) (h : vs.flatMap tpenc = ws.flatMap tpenc) : vs = ws := by
  induction vs generalizing ws with
  | nil =>
    cases ws with
    | nil => rfl
    | cons w ws =>
      rw [flatMap_nil, flatMap_cons] at h
      exact absurd (List.append_eq_nil_iff.1 h.symm).1 (tpenc_ne_nil w)
  | cons v vs ih =>
    cases ws with
    | nil =>
      rw [flatMap_nil, flatMap_cons] at h
      exact absurd (List.append_eq_nil_iff.1 h).1 (tpenc_ne_nil v)
    | cons w ws =>
      have hread := congrArg readUtf8 h
      rw [flatMap_cons, flatMap_cons, readUtf8_tpenc_of_lt _ (hvs v mem_cons_self),
        readUtf8_tpenc_of_lt _ (hws w mem_cons_self), Prod.mk.injEq] at hread
      rw [hread.1, ih (fun u hu => hvs u (mem_cons_of_mem v hu))
        (fun u hu => hws u (mem_cons_of_mem w hu)) hread.2]

theorem readAllUtf8_tpenc (fuel : Nat) (cs : List Nat) (hcs : ∀ v ∈ cs, v ≠ 0 ∧ v ≤ 0x10ffff)
    (hfuel : cs.length ≤ fuel) : readAllUtf8 fuel (cs.flatMap tpenc) = cs := by
  induction cs generalizing fuel with
  | nil =>
    cases fuel with
    | zero => rfl
    | succ fuel => rfl
  | cons v cs ih =>
    obtain ⟨k, rfl⟩ : ∃ k, fuel = k + 1 := ⟨fuel - 1, by rw [length_cons] at hfuel; omega⟩
    obtain ⟨hne, hle⟩ := hcs v mem_cons_self
    have hread := readUtf8_tpenc (cs.flatMap tpenc) hle
    rw [flatMap_cons, readAllUtf8, hread, if_neg hne,
      ih k (fun u hu => hcs u (mem_cons_of_mem v hu)) (by rw [length_cons] at hfuel; omega)]

theorem tpenc_ne_zero (hne : v ≠ 0) (hv : v ≤ 0x10ffff) : ∀ b ∈ tpenc v, b ≠ 0 := by
  by_cases h₁ : v ≤ 127
  · rw [tpenc, if_pos h₁]
    exact List.forall_mem_singleton.2 (byte_ne_zero (by omega) hne)
  · obtain ⟨n, bs, hshape, hlo, hhi, -, hbs, -⟩ := tpenc_shape (v := v) (by omega) (by omega)
    rw [hshape]
    refine List.forall_mem_cons.2 ⟨byte_ne_zero hhi (by omega), fun b hb => ?_⟩
    obtain ⟨y, hy, rfl⟩ := hbs b hb
    exact (toNat_contByte hy).2

theorem length_le_flatMap {α : Type} {enc : Nat → List α} (hne : ∀ v, enc v ≠ []) (cs : List Nat) :
    cs.length ≤ (cs.flatMap enc).length := by
  induction cs with
  | nil => exact Nat.le_refl 0
  | cons v cs ih =>
    have hpos := List.length_pos_iff.2 (hne v)
    rw [flatMap_cons, length_append, length_cons]
    omega

theorem toNat_ofNat_unit (h : n < 65536) : (UInt16.ofNat n).toNat = n :=
  UInt16.toNat_ofNat_of_lt' h

theorem unit_ne_zero (h : n < 65536) (hn : n ≠ 0) : UInt16.ofNat n ≠ 0 := by
  intro hzero
  have hnat := toNat_ofNat_unit h
  rw [hzero] at hnat
  exact hn hnat.symm

theorem surrogates (hlarge : ¬ v < 0x10000) (hv : v ≤ 0x10ffff) :
    (v - 0x10000) / 1024 + 0xd800 < 0x10000 ∧ (v - 0x10000) % 1024 + 0xdc00 < 0x10000 ∧
      ¬ isUcs2 ((v - 0x10000) / 1024 + 0xd800) = true ∧
      mergeUtf16 ((v - 0x10000) / 1024 + 0xd800) ((v - 0x10000) % 1024 + 0xdc00) = v := by
  refine ⟨by omega, by omega, ?_, ?_⟩
  · rw [isUcs2, bne_iff_ne]
    omega
  · rw [mergeUtf16]
    omega

theorem readAllUtf16_encodeUtf16 (src : List UInt16) (hne : v ≠ 0) (hv : v ≤ 0x10ffff)
    (hscalar : v < 0xd800 ∨ 0xdfff < v) :
    readAllUtf16 (encodeUtf16 v ++ src) = v :: readAllUtf16 src := by
  rw [encodeUtf16]
  by_cases hsmall : v < 0x10000
  · have hucs : isUcs2 v = true := by
      rw [isUcs2, bne_iff_ne]
      omega
    rw [if_pos hsmall, singleton_append]
    cases src with
    | nil =>
      change readAllUtf16 [UInt16.ofNat v] = [v]
      unfold readAllUtf16
      rw [if_neg (unit_ne_zero hsmall hne), toNat_ofNat_unit hsmall, if_pos hucs]
    | cons y src =>
      rw [readAllUtf16, if_neg (unit_ne_zero hsmall hne), toNat_ofNat_unit hsmall, if_pos hucs]
  · obtain ⟨hhi, hlo, hucs, hmerge⟩ := surrogates hsmall hv
    rw [if_neg hsmall, if_pos hv]
    change readAllUtf16 (_ :: _ :: src) = _
    rw [readAllUtf16, if_neg (unit_ne_zero hhi (by omega)), toNat_ofNat_unit hhi, if_neg hucs,
      if_neg (unit_ne_zero hlo (by omega)), toNat_ofNat_unit hlo, hmerge]

def Scalar (v : Nat) : Prop := v ≠ 0 ∧ v ≤ 0x10ffff ∧ (v < 0xd800 ∨ 0xdfff < v)

theorem Scalar.lt (h : Scalar v) : v < 2 ^ 21 := by
  have hmax := h.2.1
  omega

theorem scalar_toNat {c : Char} (hc : c ≠ '\x00') : Scalar c.toNat := by
  refine ⟨fun h => hc (Char.toNat_inj.1 h), toNat_le_max c, ?_⟩
  rcases c.valid with h | ⟨h, -⟩
  · exact .inl h
  · exact .inr h

theorem readAllUtf16_flatMap (cs : List Nat) (hcs : ∀ v ∈ cs, Scalar v) :
    readAllUtf16 (cs.flatMap encodeUtf16) = cs := by
  induction cs with
  | nil => rfl
  | cons v cs ih =>
    obtain ⟨hne, hle, hscalar⟩ := hcs v mem_cons_self
    rw [flatMap_cons, readAllUtf16_encodeUtf16 _ hne hle hscalar,
      ih fun u hu => hcs u (mem_cons_of_mem v hu)]

end CosmoRuby.Windows