import Mathlib
import CosmoRuby.Lib.LittleEndian

/-!
# Replenishing the token buckets

`ReplenishTokens` of `tokenbucket.c`, which tops up the eight signed bytes of a word by one addition.
The test for full buckets never borrows from the next byte, but the addition carries out of every
byte that is -1.
-/

namespace CosmoRuby.Http

open Lib List

def replenishWord (a : UInt64) : UInt64 :=
  if a = 0x7f7f7f7f7f7f7f7f then a
  else
    let b : UInt64 := 0x8080808080808080
    let c := 0x7f7f7f7f7f7f7f7f ^^^ a
    let d := ((((c >>> 1 ||| b) - c) &&& b) ^^^ b) >>> 7
    a + d

def replenishTokens (w : List UInt64) : List UInt64 := w.map replenishWord

/-- The bytes that a word aliases. -/
def buckets (a : UInt64) : Bytes := leBytes 8 a.toNat

/-- What a bucket should be replenished to. -/
def topUp (b : UInt8) : UInt8 := (Int8.ofInt (min (b.toInt8.toInt + 1) 127)).toUInt8

/-! ## The addition -/

def token (b : UInt8) : UInt8 := if b = 127 then 0 else 1

theorem token_carry : ∀ b : UInt8,
    b.toNat + (token b).toNat = (topUp b).toNat + 256 * if b = 255 then 1 else 0 := by
  decide +kernel

theorem leBytes_add_token (n v : Nat) :
    leBytes n (v + leNat ((leBytes n v).map token)) = (leBytes n v).map topUp ↔
      ∀ b ∈ (leBytes n v).dropLast, b ≠ 255 := by
  induction n generalizing v with
  | zero => simp [leBytes]
  | succ n ih =>
    have hcarry := token_carry (UInt8.ofNat v)
    have hlow : (UInt8.ofNat v).toNat = v % 256 := UInt8.toNat_ofNat'
    have htop := UInt8.toNat_lt (topUp (UInt8.ofNat v))
    rw [leBytes_succ, leBytes_succ, map_cons, map_cons, leNat]
    generalize hrest : leNat ((leBytes n (v / 256)).map token) = r
    -- the byte itself is right, and what it carries goes to the rest of the word
    have hbyte : UInt8.ofNat (v + ((token (UInt8.ofNat v)).toNat + 256 * r)) = topUp (UInt8.ofNat v) := by
      apply UInt8.toNat_inj.mp
      rw [UInt8.toNat_ofNat']
      omega
    have hnext : (v + ((token (UInt8.ofNat v)).toNat + 256 * r)) / 256 =
        v / 256 + r + if UInt8.ofNat v = 255 then 1 else 0 := by
      omega
    rw [hbyte, hnext, List.cons.injEq, and_iff_right rfl]
    split_ifs with hfull
    · cases n with
      | zero => simp [leBytes]
      | succ n =>
        have hne : leBytes (n + 1) (v / 256 + r + 1) ≠ (leBytes (n + 1) (v / 256)).map topUp := by
          intro heq
          have hcarry := token_carry (UInt8.ofNat (v / 256))
          rw [leBytes_succ, leBytes_succ, map_cons] at heq
          rw [leBytes_succ, map_cons, leNat] at hrest
          have hhead := congrArg UInt8.toNat (List.cons.inj heq).1
          rw [UInt8.toNat_ofNat'] at hhead
          have hlow : (UInt8.ofNat (v / 256)).toNat = v / 256 % 256 := UInt8.toNat_ofNat'
          omega
        refine iff_of_false hne fun hall => hall _ ?_ hfull
        rw [leBytes_succ, dropLast_cons_cons]
        exact mem_cons_self
    · rw [Nat.add_zero, ← hrest, ih]
      cases n with
      | zero => simp [leBytes]
      | succ n => rw [leBytes_succ, dropLast_cons_cons]; simp [hfull]

/-! ## The test for full buckets -/

/-- An operation on numbers that works on their bytes one by one. -/
def Lanewise (op : Nat → Nat → Nat) : Prop :=
  ∀ x y v w : Nat, x < 256 → y < 256 → op (x + 256 * v) (y + 256 * w) = op x y + 256 * op v w

theorem lanewise_of_pow {op : Nat → Nat → Nat}
    (hmod : ∀ {v w n : Nat}, op v w % 2 ^ n = op (v % 2 ^ n) (w % 2 ^ n))
    (hdiv : ∀ {v w n : Nat}, op v w / 2 ^ n = op (v / 2 ^ n) (w / 2 ^ n)) : Lanewise op := by
  intro x y v w hx hy
  rw [← Nat.mod_add_div (op (x + 256 * v) (y + 256 * w)) (2 ^ 8), hmod, hdiv]
  simp only [Nat.reducePow]
  congr 3 <;> omega

theorem lanewise_xor : Lanewise (· ^^^ ·) :=
  lanewise_of_pow Nat.xor_mod_two_pow Nat.xor_div_two_pow

theorem lanewise_and : Lanewise (· &&& ·) :=
  lanewise_of_pow Nat.and_mod_two_pow Nat.and_div_two_pow

theorem lanewise_or : Lanewise (· ||| ·) :=
  lanewise_of_pow Nat.or_mod_two_pow Nat.or_div_two_pow

/-- A byte of `(c >> 1 | b) - c`, which is 128 only if the byte of `c` is zero. -/
def borrowed (x : UInt8) : UInt8 := ((x ^^^ 127) >>> 1 ||| 128) - (x ^^^ 127)

theorem leNat_test (l : Bytes) :
    let b := leNat (l.map fun _ => 128)
    let c := leNat (l.map fun _ => 127) ^^^ leNat l
    ∃ t, c >>> 1 ||| b = t + c ∧ (t &&& b) ^^^ b = 128 * leNat (l.map token) := by
  -- the bit that is shifted in from the next byte is covered by the bit that is set
  have hbyte : ∀ x : UInt8, ∀ k < 2, ((127 ^^^ x.toNat) / 2 + 128 * k) ||| 128 =
      (borrowed x).toNat + (127 ^^^ x.toNat) := by decide +kernel
  have htest : ∀ x : UInt8, ((borrowed x).toNat &&& 128) ^^^ 128 = 128 * (token x).toNat := by
    decide +kernel
  have hlow : ∀ x : UInt8, 127 ^^^ x.toNat < 256 := by decide +kernel
  have hmask : ∀ x : UInt8, (borrowed x).toNat &&& 128 < 256 := by decide +kernel
  induction l with
  | nil => exact ⟨0, rfl, rfl⟩
  | cons x l ih =>
    obtain ⟨t, hsum, hmul⟩ := ih
    have hx := hlow x
    have hc := lanewise_xor 127 x.toNat (leNat (l.map fun _ => 127)) (leNat l) (by decide)
      x.toNat_lt
    dsimp only at hc hsum hmul ⊢
    simp only [map_cons, leNat]
    rw [show (127 : UInt8).toNat = 127 from rfl, show (128 : UInt8).toNat = 128 from rfl, hc]
    generalize leNat (l.map fun _ => 127) ^^^ leNat l = c at *
    generalize leNat (l.map fun _ => 128) = b at *
    have hbit : c % 2 < 2 := Nat.mod_lt _ (by decide)
    refine ⟨(borrowed x).toNat + 256 * t, ?_, ?_⟩
    · have hshift : ((127 ^^^ x.toNat) + 256 * c) >>> 1 =
          ((127 ^^^ x.toNat) / 2 + 128 * (c % 2)) + 256 * (c >>> 1) := by
        rw [Nat.shiftRight_one, Nat.shiftRight_one]
        omega
      have hor := lanewise_or ((127 ^^^ x.toNat) / 2 + 128 * (c % 2)) 128 (c >>> 1) b
        (by omega) (by decide)
      dsimp only at hor
      rw [hshift, hor, hbyte x _ hbit, hsum]
      omega
    · have hand := lanewise_and (borrowed x).toNat 128 t b (UInt8.toNat_lt _) (by decide)
      have hxor := lanewise_xor ((borrowed x).toNat &&& 128) 128 (t &&& b) b (hmask x) (by decide)
      dsimp only at hand hxor
      rw [hand, hxor, htest, hmul]
      omega

theorem leNat_buckets (a : UInt64) : leNat (buckets a) = a.toNat := by
  rw [buckets, leNat_leBytes]
  exact Nat.mod_eq_of_lt a.toNat_lt

theorem buckets_map_const (a : UInt64) (k : UInt8) :
    (buckets a).map (fun _ => k) = replicate 8 k := by
  rw [buckets, leBytes, map_map]
  rfl

theorem replenishWord_toNat (a : UInt64) :
    (replenishWord a).toNat = (a.toNat + leNat ((buckets a).map token)) % 2 ^ 64 := by
  unfold replenishWord
  split_ifs with hfull
  · rw [hfull]
    decide +kernel
  · have hfull : (0x7f7f7f7f7f7f7f7f : UInt64).toNat = leNat (replicate 8 127) := by decide
    have hhigh : (0x8080808080808080 : UInt64).toNat = leNat (replicate 8 128) := by decide
    obtain ⟨t, hsum, hmul⟩ := leNat_test (buckets a)
    rw [buckets_map_const, buckets_map_const, leNat_buckets, ← hfull, ← hhigh] at hsum
    rw [buckets_map_const, ← hhigh] at hmul
    have hle : (0x7f7f7f7f7f7f7f7f : UInt64) ^^^ a ≤ (0x7f7f7f7f7f7f7f7f ^^^ a) >>> 1 ||| 0x8080808080808080 := by
      rw [UInt64.le_iff_toNat_le, UInt64.toNat_or, UInt64.toNat_shiftRight, UInt64.toNat_xor]
      exact hsum ▸ Nat.le_add_left _ _
    dsimp only
    rw [UInt64.toNat_add, UInt64.toNat_shiftRight, UInt64.toNat_xor, UInt64.toNat_and,
      UInt64.toNat_sub_of_le _ _ hle, UInt64.toNat_or, UInt64.toNat_shiftRight, UInt64.toNat_xor]
    show (_ + ((_ >>> 1 ||| _) - _ &&& _ ^^^ _) >>> 7) % _ = _
    rw [hsum, Nat.add_sub_cancel, hmul, Nat.shiftRight_eq_div_pow]
    exact congrArg (fun d => (a.toNat + d) % 2 ^ 64) (Nat.mul_div_cancel_left _ (by decide))

theorem leBytes_mod (n v : Nat) : leBytes n (v % 256 ^ n) = leBytes n v := by
  induction n generalizing v with
  | zero => rfl
  | succ n ih =>
    have hbyte : UInt8.ofNat (v % 256 ^ (n + 1)) = UInt8.ofNat v := by
      apply UInt8.toNat_inj.mp
      rw [UInt8.toNat_ofNat', UInt8.toNat_ofNat', pow_succ', Nat.mod_mul_right_mod]
    rw [leBytes_succ, leBytes_succ, hbyte, pow_succ', Nat.mod_mul_right_div_self, ih]

/-! ## The array -/

theorem replenishWord_iff (a : UInt64) :
    buckets (replenishWord a) = (buckets a).map topUp ↔ ∀ b ∈ (buckets a).dropLast, b ≠ 255 := by
  have hsum : buckets (replenishWord a) = leBytes 8 (a.toNat + leNat ((buckets a).map token)) := by
    rw [buckets, replenishWord_toNat]
    exact leBytes_mod 8 _
  rw [hsum]
  exact leBytes_add_token 8 a.toNat

/-- A pass tops up every bucket by itself exactly if no bucket but the last of a word is -1. -/
theorem replenishTokens_lanes_iff (w : List UInt64) :
    (replenishTokens w).flatMap buckets = (w.flatMap buckets).map topUp ↔
      ∀ a ∈ w, ∀ b ∈ (buckets a).dropLast, b.toInt8 ≠ -1 := by
  have hneg : ∀ b : UInt8, b.toInt8 ≠ -1 ↔ b ≠ 255 := by decide +kernel
  simp only [hneg, ← replenishWord_iff, replenishTokens]
  induction w with
  | nil => simp
  | cons a w ih =>
    have hlen : (buckets (replenishWord a)).length = ((buckets a).map topUp).length := by
      simp [buckets, leBytes]
    rw [map_cons, flatMap_cons, flatMap_cons, map_append, forall_mem_cons]
    refine Iff.trans ⟨fun h => append_inj h hlen, fun h => ?_⟩ (and_congr_right' ih)
    rw [h.1, h.2]

/-- The bucket that is at -1 carries into the one behind it, which gains two tokens. -/
theorem replenishTokens_carries : replenishTokens [0xff] = [0x0101010101010200] ∧
    (replenishTokens [0xff]).flatMap buckets ≠ ([0xff].flatMap buckets).map topUp := by decide

end CosmoRuby.Http