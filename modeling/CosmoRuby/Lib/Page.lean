import CosmoRuby.Lib.Word

/-!
# Pages

Rounding of numbers and of 64-bit words to a page size that is a power of two.
-/

namespace CosmoRuby.Lib

/-! ## Numbers -/

def roundDown (ps n : Nat) : Nat := n / ps * ps

def roundUp (ps n : Nat) : Nat := (n + (ps - 1)) / ps * ps

variable {ps m n : Nat}

theorem roundDown_le (ps n : Nat) : roundDown ps n ≤ n := Nat.div_mul_le_self n ps

theorem roundDown_add_mod (ps n : Nat) : roundDown ps n + n % ps = n := by
  unfold roundDown
  rw [Nat.mul_comm]
  exact Nat.div_add_mod n ps

theorem dvd_roundDown (ps n : Nat) : ps ∣ roundDown ps n := Nat.dvd_mul_left ps _

theorem dvd_roundUp (ps n : Nat) : ps ∣ roundUp ps n := Nat.dvd_mul_left ps _

section

variable (hps : 0 < ps)
include hps

theorem le_roundUp (n : Nat) : n ≤ roundUp ps n := by
  have hmod := Nat.div_add_mod (n + (ps - 1)) ps
  have hlt := Nat.mod_lt (n + (ps - 1)) hps
  unfold roundUp
  rw [Nat.mul_comm]
  omega

theorem roundUp_lt (n : Nat) : roundUp ps n < n + ps := by
  have hle := Nat.div_mul_le_self (n + (ps - 1)) ps
  unfold roundUp
  omega

theorem roundUp_le (hn : n ≤ m) (hm : ps ∣ m) : roundUp ps n ≤ m := by
  obtain ⟨k, rfl⟩ := hm
  have hlt := roundUp_lt hps n
  obtain ⟨j, hj⟩ := dvd_roundUp ps n
  rw [hj] at hlt ⊢
  apply Nat.mul_le_mul_left
  -- two multiples of the page size that are less than a page apart
  by_contra hkj
  have hmul := Nat.mul_le_mul_left ps (Nat.succ_le_of_lt (Nat.lt_of_not_le hkj))
  rw [Nat.mul_succ] at hmul
  omega

theorem roundUp_pos (hn : n ≠ 0) : 0 < roundUp ps n :=
  Nat.lt_of_lt_of_le (Nat.pos_of_ne_zero hn) (le_roundUp hps n)

theorem roundUp_mono (hn : n ≤ m) : roundUp ps n ≤ roundUp ps m :=
  roundUp_le hps (Nat.le_trans hn (le_roundUp hps m)) (dvd_roundUp ps m)

theorem roundUp_of_dvd (hn : ps ∣ n) : roundUp ps n = n :=
  Nat.le_antisymm (roundUp_le hps (Nat.le_refl n) hn) (le_roundUp hps n)

theorem roundUp_sub (hn : ps ∣ n) (hm : ps ∣ m) : roundUp ps (m - n) = m - n :=
  roundUp_of_dvd hps (Nat.dvd_sub hm hn)

theorem roundUp_add (hm : ps ∣ m) (n : Nat) : roundUp ps (m + n) = m + roundUp ps n := by
  obtain ⟨k, rfl⟩ := hm
  unfold roundUp
  rw [Nat.add_assoc, Nat.mul_add_div hps, Nat.add_mul, Nat.mul_comm k ps]

end

/-! ## Words -/

variable {pagesz : BitVec 64} {k : Nat}

theorem toNat_pred (hpos : pagesz ≠ 0) : (pagesz - 1).toNat = pagesz.toNat - 1 := by
  have hne : pagesz.toNat ≠ 0 := fun h => hpos (BitVec.eq_of_toNat_eq h)
  exact BitVec.toNat_sub_of_le (Nat.pos_of_ne_zero hne)

theorem exists_pagesz (hpos : pagesz ≠ 0) (hand : pagesz &&& (pagesz - 1) = 0) :
    ∃ k, k < 64 ∧ pagesz.toNat = 2 ^ k := by
  have hne : pagesz.toNat ≠ 0 := fun h => hpos (BitVec.eq_of_toNat_eq h)
  have hland : pagesz.toNat &&& (pagesz.toNat - 1) = 0 := by
    rw [← toNat_pred hpos, ← BitVec.toNat_and, hand]
    rfl
  obtain ⟨k, hk⟩ := (Nat.and_sub_one_eq_zero_iff_isPowerOfTwo hne).mp hland
  refine ⟨k, ?_, hk⟩
  have hlt := pagesz.isLt
  rw [hk] at hlt
  exact (Nat.pow_lt_pow_iff_right (by decide)).mp hlt

section

variable (hk : pagesz.toNat = 2 ^ k)
include hk

theorem toNat_pagesz_pos : 0 < pagesz.toNat := hk ▸ Nat.two_pow_pos k

theorem pagesz_pos : pagesz ≠ 0 := by
  rintro rfl
  exact Nat.ne_of_lt (Nat.two_pow_pos k) hk

theorem toNat_and_pred (x : BitVec 64) : (x &&& (pagesz - 1)).toNat = x.toNat % pagesz.toNat := by
  rw [BitVec.toNat_and, toNat_pred (pagesz_pos hk), hk, Nat.and_two_pow_sub_one_eq_mod]

theorem toNat_and_neg (x : BitVec 64) : (x &&& -pagesz).toNat = roundDown pagesz.toNat x.toNat := by
  -- the two masks split the word
  have hsplit : (x &&& -pagesz) + (x &&& (pagesz - 1)) = x := by
    have hneg : -pagesz = ~~~(pagesz - 1#64) := by
      rw [BitVec.not_eq_neg_add]
      ring
    rw [hneg, show (1 : BitVec 64) = 1#64 from rfl, BitVec.add_eq_or_of_and_eq_zero]
    · ext i
      rw [BitVec.getElem_or, BitVec.getElem_and, BitVec.getElem_and, BitVec.getElem_not]
      cases x[i] <;> cases (pagesz - 1#64)[i] <;> rfl
    · ext i
      rw [BitVec.getElem_and, BitVec.getElem_and, BitVec.getElem_and, BitVec.getElem_not,
        BitVec.getElem_zero]
      cases x[i] <;> cases (pagesz - 1#64)[i] <;> rfl
  have hlow := toNat_and_pred hk x
  have hadd := congrArg BitVec.toNat hsplit
  rw [BitVec.toNat_add, hlow] at hadd
  have hx := x.isLt
  have hle : (x &&& -pagesz).toNat ≤ x.toNat := by
    rw [BitVec.toNat_and]
    exact Nat.and_le_left
  have hround := roundDown_add_mod pagesz.toNat x.toNat
  have hmod := Nat.mod_lt x.toNat (toNat_pagesz_pos hk)
  omega

end

end CosmoRuby.Lib
