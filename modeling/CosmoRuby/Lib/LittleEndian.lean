import CosmoRuby.Lib.Bytes
import CosmoRuby.Lib.Word

/-!
# Numbers in memory

Little-endian loads and stores in a memory of bytes with 64-bit addresses, and fields of a number
of bytes that are extended to a word when they are read.
-/

namespace CosmoRuby.Lib

open List

abbrev Memory := BitVec 64 → UInt8

/-! ## Bytes and numbers -/

def leNat : Bytes → Nat
  | [] => 0
  | b :: l => b.toNat + 256 * leNat l

def leBytes (n v : Nat) : Bytes := (List.range n).map fun i => UInt8.ofNat (v / 256 ^ i)

theorem leBytes_succ (n v : Nat) : leBytes (n + 1) v = UInt8.ofNat v :: leBytes n (v / 256) := by
  unfold leBytes
  rw [range_succ_eq_map, map_cons, map_map, pow_zero, Nat.div_one]
  refine congrArg _ (map_congr_left fun i _ => ?_)
  rw [Function.comp_apply, pow_succ', Nat.div_div_eq_div_mul]

theorem leBytes_add (m n v : Nat) :
    leBytes (m + n) v = leBytes m v ++ leBytes n (v / 256 ^ m) := by
  unfold leBytes
  rw [range_add, map_append, map_map]
  refine congrArg _ (map_congr_left fun i _ => ?_)
  rw [Function.comp_apply, pow_add, Nat.div_div_eq_div_mul]

theorem leNat_leBytes (n v : Nat) : leNat (leBytes n v) = v % 256 ^ n := by
  induction n generalizing v with
  | zero => rw [pow_zero, Nat.mod_one]; rfl
  | succ n ih => rw [leBytes_succ, leNat, ih, UInt8.toNat_ofNat', pow_succ' 256 n, Nat.mod_mul]

/-! ## Memory -/

def readBytes (m : Memory) (p : BitVec 64) (n : Nat) : Bytes :=
  (List.range n).map fun i => m (p + BitVec.ofNat 64 i)

def storeLe (m : Memory) (p : BitVec 64) (n v : Nat) : Memory := fun q =>
  if (q - p).toNat < n then UInt8.ofNat (v / 256 ^ (q - p).toNat) else m q

variable {m m' : Memory} {p q : BitVec 64} {n k v : Nat}

theorem toNat_offset (p : BitVec 64) (hk : k < 2 ^ 64) : (p + BitVec.ofNat 64 k - p).toNat = k := by
  rw [add_sub_cancel_left, BitVec.toNat_ofNat, Nat.mod_eq_of_lt hk]

theorem readBytes_storeLe (hn : n ≤ 2 ^ 64) : readBytes (storeLe m p n v) p n = leBytes n v := by
  refine map_congr_left fun k hk => ?_
  have hlt := List.mem_range.mp hk
  unfold storeLe
  rw [toNat_offset p (Nat.lt_of_lt_of_le hlt hn), if_pos hlt]

theorem storeLe_of_le (h : n ≤ (q - p).toNat) : storeLe m p n v q = m q :=
  if_neg (Nat.not_lt.mpr h)

theorem readBytes_congr (hn : n ≤ 2 ^ 64) (h : ∀ q, (q - p).toNat < n → m q = m' q) :
    readBytes m p n = readBytes m' p n := by
  refine map_congr_left fun k hk => h _ ?_
  have hlt := List.mem_range.mp hk
  rwa [toNat_offset p (Nat.lt_of_lt_of_le hlt hn)]

/-! ## Fields -/

inductive Extension where
  | zero
  | sign
  deriving DecidableEq, Repr

structure Field where
  bytes : Nat
  ext : Extension
  deriving DecidableEq, Repr

def Field.extend (f : Field) (v : Nat) : BitVec 64 :=
  match f.ext with
  | .zero => BitVec.ofNat 64 v
  | .sign => (BitVec.ofNat (8 * f.bytes) v).signExtend 64

def Field.read (f : Field) (m : Memory) (p : BitVec 64) : BitVec 64 :=
  f.extend (leNat (readBytes m p f.bytes))

def Field.Fits (f : Field) (v : BitVec 64) : Prop :=
  match f.ext with
  | .zero => v.toNat < 2 ^ (8 * f.bytes)
  | .sign => -2 ^ (8 * f.bytes - 1) ≤ v.toInt ∧ v.toInt < 2 ^ (8 * f.bytes - 1)

instance (f : Field) (v : BitVec 64) : Decidable (f.Fits v) :=
  match f with
  | ⟨_, .zero⟩ => inferInstanceAs (Decidable (_ < _))
  | ⟨_, .sign⟩ => inferInstanceAs (Decidable (_ ∧ _))

theorem signExtend_ofNat_toInt {w : Nat} (hw : w ≤ 64) (v : BitVec 64) :
    ((BitVec.ofNat w (v.toNat % 2 ^ w)).signExtend 64).toInt = v.toInt.bmod (2 ^ w) := by
  rw [BitVec.toInt_signExtend_of_le hw, BitVec.toInt_eq_toNat_bmod, BitVec.toNat_ofNat,
    Nat.mod_mod, BitVec.toInt_eq_toNat_bmod v, Int.bmod_bmod_of_dvd (Nat.pow_dvd_pow 2 hw),
    Int.natCast_emod]
  exact Int.emod_bmod _ _

theorem Field.extend_mod_iff (f : Field) (hpos : 0 < f.bytes) (hle : f.bytes ≤ 8) (v : BitVec 64) :
    f.extend (v.toNat % 2 ^ (8 * f.bytes)) = v ↔ f.Fits v := by
  obtain ⟨b, ext⟩ := f
  have hw : 8 * b ≤ 64 := by dsimp only at hle; omega
  cases ext with
  | zero =>
    have hpow : 2 ^ (8 * b) ≤ 2 ^ 64 := Nat.pow_le_pow_right (by decide) hw
    have hmod := Nat.mod_lt v.toNat (Nat.two_pow_pos (8 * b))
    change BitVec.ofNat 64 (v.toNat % 2 ^ (8 * b)) = v ↔ v.toNat < 2 ^ (8 * b)
    rw [← BitVec.toNat_inj, BitVec.toNat_ofNat, Nat.mod_eq_of_lt (Nat.lt_of_lt_of_le hmod hpow)]
    exact ⟨fun h => h ▸ hmod, Nat.mod_eq_of_lt⟩
  | sign =>
    obtain ⟨k, hk⟩ : ∃ k, 8 * b = k + 1 := ⟨8 * b - 1, by dsimp only at hpos; omega⟩
    change (BitVec.ofNat (8 * b) (v.toNat % 2 ^ (8 * b))).signExtend 64 = v ↔
      -2 ^ (8 * b - 1) ≤ v.toInt ∧ v.toInt < 2 ^ (8 * b - 1)
    rw [← BitVec.toInt_inj, signExtend_ofNat_toInt hw, Int.bmod_eq_iff (Nat.two_pow_pos _), hk,
      Nat.add_sub_cancel, sub_self]
    push_cast
    rw [pow_succ]
    have hhalf : ((2 : Int) ^ k * 2 / 2) = 2 ^ k ∧ ((2 : Int) ^ k * 2 + 1) / 2 = 2 ^ k := by omega
    rw [hhalf.1, hhalf.2]
    simp only [dvd_zero, and_true]

theorem Field.read_storeLe {f : Field} (hf : 0 < f.bytes ∧ f.bytes ≤ 8) {v : BitVec 64} :
    f.read (storeLe m p f.bytes v.toNat) p = v ↔ f.Fits v := by
  unfold Field.read
  rw [readBytes_storeLe (Nat.le_trans hf.2 (by decide)), leNat_leBytes,
    show 256 ^ f.bytes = 2 ^ (8 * f.bytes) by rw [pow_mul]; rfl]
  exact f.extend_mod_iff hf.1 hf.2 v

theorem Field.read_congr (f : Field) (hle : f.bytes ≤ 8)
    (h : ∀ q, (q - p).toNat < f.bytes → m q = m' q) : f.read m p = f.read m' p := by
  unfold Field.read
  rw [readBytes_congr (Nat.le_trans hle (by decide)) h]

theorem fits_eight (v : BitVec 64) (ext : Extension) : Field.Fits ⟨8, ext⟩ v := by
  cases ext with
  | zero => exact v.isLt
  | sign => exact ⟨BitVec.le_toInt v, BitVec.toInt_lt⟩

end CosmoRuby.Lib
