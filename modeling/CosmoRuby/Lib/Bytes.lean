import Mathlib

/-!
# Byte buffers and byte-indexed tables

A C buffer is a `List UInt8`; `byteAt p i` is the load `p[i] & 255`.  A 256-entry table is kept as
its sixteen printed rows, so that a lookup costs two short walks.
-/

namespace CosmoRuby.Lib

open List

abbrev Bytes := List UInt8

def byteAt (p : Bytes) (i : Nat) : UInt8 := p.getD i 0

def slice (p : Bytes) (a b : Nat) : Bytes := (p.take b).drop a

def tableAt {α : Type} (rows : List (List α)) (default : α) (c : UInt8) : α :=
  (rows.getD (c.toNat / 16) []).getD (c.toNat % 16) default

theorem byteAt_append_left (s t : Bytes) (i : Nat) (h : i < s.length) :
    byteAt (s ++ t) i = byteAt s i := by
  simp only [byteAt, List.getD_eq_getElem?_getD, List.getElem?_append_left h]

theorem byteAt_append_right (s t : Bytes) (i : Nat) :
    byteAt (s ++ t) (s.length + i) = byteAt t i := by
  simp only [byteAt, List.getD_eq_getElem?_getD,
    List.getElem?_append_right (Nat.le_add_right _ _), Nat.add_sub_cancel_left]

theorem take_succ_byteAt (p : Bytes) (i : Nat) (h : i < p.length) :
    p.take (i + 1) = p.take i ++ [byteAt p i] := by
  rw [take_add_one, List.getElem?_eq_getElem h]
  simp [byteAt, List.getD_eq_getElem?_getD, h]

theorem drop_byteAt (p : Bytes) (i : Nat) (h : i < p.length) :
    p.drop i = byteAt p i :: p.drop (i + 1) := by
  rw [drop_eq_getElem_cons h]
  simp [byteAt, List.getD_eq_getElem?_getD, h]

theorem byteAt_take (p : Bytes) (n i : Nat) (h : i < n) : byteAt (p.take n) i = byteAt p i := by
  simp only [byteAt, List.getD_eq_getElem?_getD, List.getElem?_take_of_lt h]

theorem slice_append_mid (s t u : Bytes) :
    slice (s ++ t ++ u) s.length (s.length + t.length) = t := by
  rw [slice, ← length_append, take_left, drop_left]

theorem take_eq_append_slice {m : Bytes} (i n : Nat) (h : i ≤ n) : m.take n = m.take i ++ slice m i n := by
  have hi : (m.take n).take i = m.take i := by rw [take_take, Nat.min_eq_left h]
  rw [slice, ← hi, take_append_drop]

/-! ## Moving bytes inside a buffer -/

def memmove (p : Bytes) (dst src len : Nat) : Bytes :=
  p.take dst ++ slice p src (src + len) ++ p.drop (dst + len)

theorem length_slice (p : Bytes) (a len : Nat) (h : a + len ≤ p.length) :
    (slice p a (a + len)).length = len := by
  rw [slice, length_drop, length_take]
  omega

theorem drop_eq_slice_append (p : Bytes) (a len : Nat) :
    p.drop a = slice p a (a + len) ++ p.drop (a + len) := by
  rw [slice, drop_take, Nat.add_sub_cancel_left, ← drop_drop, take_append_drop]

variable {p : Bytes} {dst src len : Nat}

section

variable (hdst : dst ≤ src) (hsrc : src + len ≤ p.length)
include hdst hsrc

theorem memmove_length : (memmove p dst src len).length = p.length := by
  rw [memmove, length_append, length_append, length_slice _ _ _ hsrc, length_take,
    length_drop]
  omega

theorem length_moved : (p.take dst ++ slice p src (src + len)).length = dst + len := by
  rw [length_append, length_slice _ _ _ hsrc, length_take]
  omega

theorem memmove_take :
    (memmove p dst src len).take (dst + len) = p.take dst ++ slice p src (src + len) := by
  rw [memmove, ← length_moved hdst hsrc, take_left]

theorem memmove_drop : (memmove p dst src len).drop (src + len) = p.drop (src + len) := by
  have hlen := length_moved hdst hsrc
  rw [memmove, drop_append, hlen, drop_eq_nil_of_le (by omega), nil_append,
    drop_drop]
  congr 1
  omega

end

end CosmoRuby.Lib
