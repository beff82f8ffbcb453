import CosmoRuby.Lib.Page
import Mathlib.Logic.Function.Basic
import Mathlib.Tactic.Ring

/-!
# The trie of page bits

`kisdangerous` does not look at the table of mappings but at a radix trie: four levels of
directories with 512 slots each, and page tables of eight words with one bit for each 4096 bytes.
`__maps_mark` and `__maps_unmark` set and clear the bits of a range, a word at a time.
-/

namespace CosmoRuby.Mmap

open CosmoRuby.Lib

/-- `(w >> 12) & 511`, `(w >> 21) & 511`, and so on up to `(w >> 48) & 511`. -/
def slot (n w : Nat) : Nat := w / 2 ^ (12 + 9 * n) % 512

@[reducible]
def Node : Nat → Type
  | 0 => Nat → BitVec 64
  | n + 1 => Nat → Option (Node n)

def Node.empty : (n : Nat) → Node n
  | 0 => fun _ => 0
  | _ + 1 => fun _ => none

def Node.lookup : (n : Nat) → Node n → Nat → Option (BitVec 64)
  | 0, table, w => some (table (slot 0 w / 64))
  | n + 1, dir, w => (dir (slot (n + 1) w)).bind fun next => Node.lookup n next w

/-- The word is changed; what is missing on the way is made, as `__maps_getpd` and `__maps_getpt`
do. -/
def Node.modify (f : BitVec 64 → BitVec 64) : (n : Nat) → Node n → Nat → Node n
  | 0, table, w => Function.update table (slot 0 w / 64) (f (table (slot 0 w / 64)))
  | n + 1, dir, w =>
    Function.update dir (slot (n + 1) w)
      (some (Node.modify f n ((dir (slot (n + 1) w)).getD (Node.empty n)) w))

abbrev Trie := Option (Node 4)

def Trie.lookup (trie : Trie) (w : Nat) : Option (BitVec 64) :=
  trie.bind fun dir => Node.lookup 4 dir w

def Trie.modify (f : BitVec 64 → BitVec 64) (trie : Trie) (w : Nat) : Trie :=
  some (Node.modify f 4 (trie.getD (Node.empty 4)) w)

def slotBit (i : Nat) : BitVec 64 := 1#64 <<< (i % 64)

structure Batch where
  mask : BitVec 64
  w : Nat
deriving DecidableEq

def batch (ps e : Nat) : Nat → Nat → BitVec 64 → Nat → Batch
  | 0, _, mask, w => ⟨mask, w⟩
  | fuel + 1, i, mask, w =>
    if w < e then
      if slot 0 w / 64 ≠ i / 64 then ⟨mask, w⟩
      else batch ps e fuel (slot 0 w) (mask ||| slotBit (slot 0 w)) (w + ps)
    else ⟨mask, w⟩

def markLoop (ps e : Nat) : Nat → Nat → Trie → Trie
  | 0, _, trie => trie
  | fuel + 1, w, trie =>
    if w < e then
      markLoop ps e fuel (batch ps e fuel (slot 0 w) (slotBit (slot 0 w)) (w + ps)).w
        (trie.modify
          (fun v => v ||| (batch ps e fuel (slot 0 w) (slotBit (slot 0 w)) (w + ps)).mask) w)
    else trie

def mapsMark (ps addr size : Nat) (trie : Trie) : Trie :=
  markLoop ps (addr + size) (size / ps + 1) addr trie

def unmarkLoop (ps e : Nat) : Nat → Nat → Trie → Trie
  | 0, _, trie => trie
  | fuel + 1, w, trie =>
    if w < e then
      if (trie.lookup w).isNone then unmarkLoop ps e fuel (w + ps) trie
      else
        unmarkLoop ps e fuel (batch ps e fuel (slot 0 w) (slotBit (slot 0 w)) (w + ps)).w
          (trie.modify
            (fun v => v &&& ~~~(batch ps e fuel (slot 0 w) (slotBit (slot 0 w)) (w + ps)).mask) w)
    else trie

def mapsUnmark (ps addr size : Nat) (trie : Trie) : Trie :=
  if trie.isNone then trie else unmarkLoop ps (addr + size) (size / ps + 1) addr trie

def Trie.bit (trie : Trie) (w : Nat) : Bool := ((trie.lookup w).getD 0).getLsbD (slot 0 w % 64)

def kisdangerous (ps : Nat) (trie : Trie) (addr : Nat) : Bool :=
  match trie.lookup (roundDown ps addr) with
  | none => true
  | some v => !v.getLsbD (slot 0 (roundDown ps addr) % 64)

theorem kisdangerous_eq (ps : Nat) (trie : Trie) (addr : Nat) :
    kisdangerous ps trie addr = !trie.bit (roundDown ps addr) := by
  unfold kisdangerous Trie.bit
  cases trie.lookup (roundDown ps addr) with
  | none =>
    rw [Option.getD_none, show (0 : BitVec 64) = 0#64 from rfl, BitVec.getLsbD_zero]
    rfl
  | some v => rfl

/-! ## Words -/

def SameWord : Nat → Nat → Nat → Prop
  | 0, w, y => slot 0 w / 64 = slot 0 y / 64
  | n + 1, w, y => slot (n + 1) w = slot (n + 1) y ∧ SameWord n w y

instance decidableSameWord : (n w y : Nat) → Decidable (SameWord n w y)
  | 0, w, y => inferInstanceAs (Decidable (slot 0 w / 64 = slot 0 y / 64))
  | n + 1, w, y =>
    have := decidableSameWord n w y
    inferInstanceAs (Decidable (slot (n + 1) w = slot (n + 1) y ∧ SameWord n w y))

section

variable {n w y ps e : Nat} {f : BitVec 64 → BitVec 64} {trie : Trie}

theorem lookup_empty (n w : Nat) : (Node.lookup n (Node.empty n) w).getD 0 = 0 := by
  cases n with
  | zero => rfl
  | succ n => rfl

theorem Node.lookup_modify (f : BitVec 64 → BitVec 64) (n : Nat) (node : Node n) (w y : Nat) :
    (Node.lookup n (Node.modify f n node w) y).getD 0 =
      if SameWord n w y then f ((Node.lookup n node y).getD 0)
      else (Node.lookup n node y).getD 0 := by
  induction n with
  | zero =>
    by_cases h : slot 0 w / 64 = slot 0 y / 64
    · rw [if_pos (show SameWord 0 w y from h)]
      show (Function.update node (slot 0 w / 64) (f (node (slot 0 w / 64)))) (slot 0 y / 64) = _
      rw [h, Function.update_self]
      rfl
    · rw [if_neg (show ¬ SameWord 0 w y from h)]
      show (Function.update node (slot 0 w / 64) (f (node (slot 0 w / 64)))) (slot 0 y / 64) = _
      rw [Function.update_of_ne (Ne.symm h)]
      rfl
  | succ n ih =>
    have hlookup : ∀ (d : Node (n + 1)) (x : Nat), Node.lookup (n + 1) d x =
        (d (slot (n + 1) x)).bind fun next => Node.lookup n next x := fun _ _ => rfl
    rw [hlookup, hlookup]
    show ((Function.update node (slot (n + 1) w) (some (Node.modify f n
      ((node (slot (n + 1) w)).getD (Node.empty n)) w)) (slot (n + 1) y)).bind _).getD 0 = _
    by_cases h : slot (n + 1) w = slot (n + 1) y
    · rw [h, Function.update_self]
      have hsame : SameWord (n + 1) w y ↔ SameWord n w y := and_iff_right h
      -- the directory below, or the one that is made for it
      have hbelow : ((node (slot (n + 1) y)).bind fun next => Node.lookup n next y).getD 0 =
          (Node.lookup n ((node (slot (n + 1) y)).getD (Node.empty n)) y).getD 0 := by
        cases node (slot (n + 1) y) with
        | none => exact (lookup_empty n y).symm
        | some next => rfl
      show (Node.lookup n (Node.modify f n _ w) y).getD 0 = _
      rw [ih, hbelow]
      by_cases hw : SameWord n w y
      · rw [if_pos hw, if_pos (hsame.mpr hw)]
      · rw [if_neg hw, if_neg fun h' => hw (hsame.mp h')]
    · rw [Function.update_of_ne (Ne.symm h), if_neg fun h' : SameWord (n + 1) w y => h h'.1]

theorem Trie.lookup_modify (f : BitVec 64 → BitVec 64) (trie : Trie) (w y : Nat) :
    ((trie.modify f w).lookup y).getD 0 =
      if SameWord 4 w y then f ((trie.lookup y).getD 0) else (trie.lookup y).getD 0 := by
  have hroot : (trie.lookup y).getD 0 =
      (Node.lookup 4 (trie.getD (Node.empty 4)) y).getD 0 := by
    cases trie with
    | none => exact (lookup_empty 4 y).symm
    | some dir => rfl
  rw [hroot]
  exact Node.lookup_modify f 4 _ w y

theorem Node.lookup_sameWord (n : Nat) (node : Node n) (h : SameWord n w y) :
    Node.lookup n node w = Node.lookup n node y := by
  induction n with
  | zero => exact congrArg (fun i => some (node i)) h
  | succ n ih =>
    show (node (slot (n + 1) w)).bind _ = (node (slot (n + 1) y)).bind _
    rw [h.1]
    exact congrArg _ (funext fun next => ih next h.2)

theorem Trie.lookup_sameWord (trie : Trie) (h : SameWord 4 w y) :
    trie.lookup w = trie.lookup y := by
  show trie.bind _ = trie.bind _
  exact congrArg _ (funext fun dir => Node.lookup_sameWord 4 dir h)

def pageKey (w : Nat) : Nat := w / 4096 % 2 ^ 45

theorem mod_mul_eq_iff (x y a b : Nat) :
    x % (a * b) = y % (a * b) ↔ x % a = y % a ∧ x / a % b = y / a % b := by
  constructor
  · intro h
    rw [← Nat.mod_mul_right_mod x a b, ← Nat.mod_mul_right_mod y a b,
      ← Nat.mod_mul_right_div_self x a b, ← Nat.mod_mul_right_div_self y a b, h]
    exact ⟨rfl, rfl⟩
  · rintro ⟨hlow, hhigh⟩
    rw [Nat.mod_mul, Nat.mod_mul, hlow, hhigh]

theorem sameWord_iff (n w y : Nat) :
    SameWord n w y ↔ w / 2 ^ 18 % 2 ^ (3 + 9 * n) = y / 2 ^ 18 % 2 ^ (3 + 9 * n) := by
  induction n with
  | zero =>
    have hslot : ∀ v, slot 0 v / 64 = v / 2 ^ 18 % 2 ^ 3 := by
      intro v
      show v / 2 ^ 12 % 512 / 64 = v / 2 ^ 18 % 2 ^ 3
      omega
    show slot 0 w / 64 = slot 0 y / 64 ↔ _
    rw [hslot, hslot]
  | succ n ih =>
    have hslot : ∀ v, slot (n + 1) v = v / 2 ^ 18 / 2 ^ (3 + 9 * n) % 2 ^ 9 := by
      intro v
      have hexp : 12 + 9 * (n + 1) = 18 + (3 + 9 * n) := by omega
      unfold slot
      rw [Nat.div_div_eq_div_mul, ← Nat.pow_add, hexp]
      rfl
    have hpow : 2 ^ (3 + 9 * (n + 1)) = 2 ^ (3 + 9 * n) * 2 ^ 9 := by
      rw [← Nat.pow_add]
      congr 1
    show slot (n + 1) w = slot (n + 1) y ∧ SameWord n w y ↔ _
    rw [ih, hslot, hslot, hpow, mod_mul_eq_iff, and_comm]

theorem pageKey_eq_iff :
    pageKey w = pageKey y ↔ SameWord 4 w y ∧ slot 0 w % 64 = slot 0 y % 64 := by
  have hbit : ∀ v, slot 0 v % 64 = v / 4096 % 2 ^ 6 := fun v => Nat.mod_mod_of_dvd _ (by decide)
  have hword : ∀ v, v / 4096 / 2 ^ 6 = v / 2 ^ 18 := fun v => Nat.div_div_eq_div_mul v 4096 (2 ^ 6)
  unfold pageKey
  rw [sameWord_iff, hbit, hbit, show (2 : Nat) ^ 45 = 2 ^ 6 * 2 ^ 39 from rfl, mod_mul_eq_iff,
    hword, hword, and_comm]

/-- A next page with the same word in its table is in the same stretch: a page has at most
sixteen bits. -/
theorem block_of_word (hps : ps ≤ 65536) (h : slot 0 (w + ps) / 64 = slot 0 w / 64) :
    (w + ps) / 2 ^ 18 = w / 2 ^ 18 := by
  simp only [slot] at h
  omega

theorem getLsbD_slotBit (i b : Nat) (hb : b < 64) :
    (slotBit i).getLsbD b = decide (i % 64 = b) := by
  unfold slotBit
  rw [BitVec.getLsbD_shiftLeft, BitVec.getLsbD_one, decide_eq_true hb, Bool.true_and]
  by_cases h : i % 64 = b
  · rw [decide_eq_true h, decide_eq_false (by omega : ¬ b < i % 64),
      decide_eq_true (by omega : b - i % 64 = 0)]
    rfl
  · rw [decide_eq_false h]
    by_cases hlt : b < i % 64
    · rw [decide_eq_true hlt]
      rfl
    · rw [decide_eq_false (by omega : ¬ b - i % 64 = 0), Bool.and_false, Bool.and_false]

/-! ## The loops -/

/-- Behind the page at `p`, some pages with the same word in their table are put into the mask. -/
def Batched (ps e p : Nat) (mask : BitVec 64) (r : Batch) : Prop :=
  ∃ k, r.w = p + ps + k * ps ∧
    (∀ j < k, (p + ps + j * ps) / 2 ^ 18 = p / 2 ^ 18 ∧ p + ps + j * ps < e) ∧
    ∀ b < 64, r.mask.getLsbD b = true ↔
      mask.getLsbD b = true ∨ ∃ j < k, slot 0 (p + ps + j * ps) % 64 = b

theorem batched_stop (mask : BitVec 64) (p : Nat) : Batched ps e p mask ⟨mask, p + ps⟩ := by
  refine ⟨0, by dsimp only; omega, fun j hj => absurd hj (Nat.not_lt_zero j), fun b _ => ⟨Or.inl, ?_⟩⟩
  rintro (h | ⟨j, hj, -⟩)
  · exact h
  · exact absurd hj (Nat.not_lt_zero j)

theorem batch_spec (hps : ps ≤ 65536) (fuel : Nat) (mask : BitVec 64) (p : Nat) :
    Batched ps e p mask (batch ps e fuel (slot 0 p) mask (p + ps)) := by
  induction fuel generalizing mask p with
  | zero => exact batched_stop mask p
  | succ fuel ih =>
    unfold batch
    split <;> rename_i he
    · split <;> rename_i hword
      · exact batched_stop mask p
      · have hblock := block_of_word hps (not_not.mp hword)
        obtain ⟨k, hw, hpages, hmask⟩ := ih (mask ||| slotBit (slot 0 (p + ps))) (p + ps)
        have hshift : ∀ j, p + ps + ps + j * ps = p + ps + (j + 1) * ps := by
          intro j
          ring
        refine ⟨k + 1, ?_, ?_, ?_⟩
        · rw [hw, hshift]
        · intro j hj
          cases j with
          | zero => exact ⟨by rw [Nat.zero_mul]; exact hblock, by rw [Nat.zero_mul]; exact he⟩
          | succ j =>
            have hprev := hpages j (Nat.lt_of_succ_lt_succ hj)
            rw [hshift] at hprev
            exact ⟨hprev.1.trans hblock, hprev.2⟩
        · intro b hb
          rw [hmask b hb, BitVec.getLsbD_or, Bool.or_eq_true, getLsbD_slotBit _ _ hb,
            decide_eq_true_eq, or_assoc]
          refine or_congr_right ?_
          constructor
          · rintro (h | ⟨j, hj, h⟩)
            · exact ⟨0, Nat.succ_pos k, by rw [Nat.zero_mul]; exact h⟩
            · rw [hshift] at h
              exact ⟨j + 1, Nat.succ_lt_succ hj, h⟩
          · rintro ⟨j, hj, h⟩
            cases j with
            | zero =>
              rw [Nat.zero_mul] at h
              exact Or.inl h
            | succ j =>
              refine Or.inr ⟨j, Nat.lt_of_succ_lt_succ hj, ?_⟩
              rw [hshift]
              exact h
    · exact batched_stop mask p

theorem batch_pages (hps : ps ≤ 65536) (fuel : Nat) (hw : w < e) :
    ∃ k, (batch ps e fuel (slot 0 w) (slotBit (slot 0 w)) (w + ps)).w = w + (k + 1) * ps ∧
      (∀ j ≤ k, w + j * ps < e) ∧
      ∀ y, (SameWord 4 w y ∧ (batch ps e fuel (slot 0 w) (slotBit (slot 0 w))
        (w + ps)).mask.getLsbD (slot 0 y % 64) = true) ↔
          ∃ j ≤ k, pageKey (w + j * ps) = pageKey y := by
  obtain ⟨k, hnext, hpages, hmask⟩ := batch_spec (e := e) hps fuel (slotBit (slot 0 w)) w
  have hshift : ∀ j, w + ps + j * ps = w + (j + 1) * ps := by
    intro j
    ring
  have hblock : ∀ j ≤ k, (w + j * ps) / 2 ^ 18 = w / 2 ^ 18 ∧ w + j * ps < e := by
    intro j hj
    cases j with
    | zero => exact ⟨by rw [Nat.zero_mul, Nat.add_zero], by rw [Nat.zero_mul]; exact hw⟩
    | succ j =>
      have h := hpages j hj
      rwa [hshift] at h
  have hsame : ∀ j ≤ k, ∀ y, SameWord 4 (w + j * ps) y ↔ SameWord 4 w y := by
    intro j hj y
    rw [sameWord_iff, sameWord_iff, (hblock j hj).1]
  refine ⟨k, by rw [hnext, hshift], fun j hj => (hblock j hj).2, fun y => ?_⟩
  have hb : slot 0 y % 64 < 64 := Nat.mod_lt _ (by decide)
  rw [hmask _ hb, getLsbD_slotBit _ _ hb, decide_eq_true_eq]
  constructor
  · rintro ⟨hword, h | ⟨j, hj, h⟩⟩
    · refine ⟨0, Nat.zero_le k, pageKey_eq_iff.mpr ⟨(hsame 0 (Nat.zero_le k) y).mpr hword, ?_⟩⟩
      rw [Nat.zero_mul]
      exact h
    · rw [hshift] at h
      exact ⟨j + 1, hj, pageKey_eq_iff.mpr ⟨(hsame (j + 1) hj y).mpr hword, h⟩⟩
  · rintro ⟨j, hj, h⟩
    obtain ⟨hword, hbit⟩ := pageKey_eq_iff.mp h
    refine ⟨(hsame j hj y).mp hword, ?_⟩
    cases j with
    | zero =>
      rw [Nat.zero_mul] at hbit
      exact Or.inl hbit
    | succ j =>
      refine Or.inr ⟨j, hj, ?_⟩
      rw [hshift]
      exact hbit

def OnPage (ps e w y : Nat) : Prop := ∃ j, w + j * ps < e ∧ pageKey (w + j * ps) = pageKey y

theorem onPage_batch {k : Nat} (hk : ∀ j ≤ k, w + j * ps < e) :
    OnPage ps e w y ↔ (∃ j ≤ k, pageKey (w + j * ps) = pageKey y) ∨
      OnPage ps e (w + (k + 1) * ps) y := by
  have hshift : ∀ i, w + (k + 1) * ps + i * ps = w + (k + 1 + i) * ps := by
    intro i
    ring
  constructor
  · rintro ⟨j, hj, h⟩
    by_cases hle : j ≤ k
    · exact Or.inl ⟨j, hle, h⟩
    · obtain ⟨i, rfl⟩ := Nat.exists_eq_add_of_lt (Nat.lt_of_not_le hle)
      have heq : w + (k + i + 1) * ps = w + (k + 1) * ps + i * ps := by ring
      rw [heq] at hj h
      exact Or.inr ⟨i, hj, h⟩
  · rintro (⟨j, hj, h⟩ | ⟨i, hi, h⟩)
    · exact ⟨j, hk j hj, h⟩
    · rw [hshift] at hi h
      exact ⟨k + 1 + i, hi, h⟩

theorem onPage_end (hw : ¬ w < e) : ¬ OnPage ps e w y := by
  rintro ⟨j, hj, -⟩
  omega

theorem fuel_batch {fuel : Nat} (k : Nat) (h : e ≤ w + (fuel + 1) * ps) :
    e ≤ w + (k + 1) * ps + fuel * ps := by
  have hk := Nat.zero_le (k * ps)
  rw [Nat.add_mul] at h ⊢
  omega

theorem bit_modify (f : BitVec 64 → BitVec 64) (trie : Trie) (w y : Nat) :
    (trie.modify f w).bit y =
      if SameWord 4 w y then (f ((trie.lookup y).getD 0)).getLsbD (slot 0 y % 64)
      else trie.bit y := by
  unfold Trie.bit
  rw [Trie.lookup_modify]
  by_cases h : SameWord 4 w y
  · rw [if_pos h, if_pos h]
  · rw [if_neg h, if_neg h]

theorem bit_markLoop (hps : ps ≤ 65536) (fuel : Nat) (hfuel : e ≤ w + fuel * ps) :
    (markLoop ps e fuel w trie).bit y = true ↔ trie.bit y = true ∨ OnPage ps e w y := by
  induction fuel generalizing w trie with
  | zero =>
    rw [Nat.zero_mul] at hfuel
    exact (or_iff_left (onPage_end (by omega))).symm
  | succ fuel ih =>
    unfold markLoop
    split_ifs with hw
    · obtain ⟨k, hnext, hin, hmask⟩ := batch_pages hps fuel hw
      rw [hnext, ih (fuel_batch k hfuel), onPage_batch hin, bit_modify, ← or_assoc, ← hmask y]
      refine or_congr_left ?_
      split_ifs with hword
      · rw [BitVec.getLsbD_or, Bool.or_eq_true, and_iff_right hword]
        rfl
      · exact (or_iff_left fun h => hword h.1).symm
    · exact (or_iff_left (onPage_end hw)).symm

theorem bit_unmarkLoop (hps : ps ≤ 65536) (fuel : Nat) (hfuel : e ≤ w + fuel * ps) :
    (unmarkLoop ps e fuel w trie).bit y = true ↔ trie.bit y = true ∧ ¬ OnPage ps e w y := by
  induction fuel generalizing w trie with
  | zero =>
    rw [Nat.zero_mul] at hfuel
    exact (and_iff_left (onPage_end (by omega))).symm
  | succ fuel ih =>
    unfold unmarkLoop
    split <;> rename_i hw
    · by_cases hnone : (trie.lookup w).isNone
      · have hrest : e ≤ w + ps + fuel * ps := by
          have h := fuel_batch 0 hfuel
          rwa [Nat.zero_add, Nat.one_mul] at h
        rw [if_pos hnone, ih hrest]
        have hsplit : OnPage ps e w y ↔ (∃ j ≤ 0, pageKey (w + j * ps) = pageKey y) ∨
            OnPage ps e (w + (0 + 1) * ps) y := by
          refine onPage_batch fun j hj => ?_
          rw [Nat.le_zero.mp hj, Nat.zero_mul]
          exact hw
        rw [Nat.zero_add, Nat.one_mul] at hsplit
        rw [hsplit, not_or]
        refine and_congr_right fun hbit => (and_iff_right ?_).symm
        -- a page without a table has no bit to clear
        rintro ⟨j, hj, h⟩
        rw [Nat.le_zero.mp hj, Nat.zero_mul, Nat.add_zero] at h
        unfold Trie.bit at hbit
        rw [← trie.lookup_sameWord (pageKey_eq_iff.mp h).1, Option.isNone_iff_eq_none.mp hnone,
          Option.getD_none, show (0 : BitVec 64) = 0#64 from rfl, BitVec.getLsbD_zero] at hbit
        exact Bool.false_ne_true hbit
      · rw [if_neg hnone]
        obtain ⟨k, hnext, hin, hmask⟩ := batch_pages hps fuel hw
        rw [hnext, ih (fuel_batch k hfuel), onPage_batch hin, bit_modify, not_or, ← and_assoc,
          ← hmask y]
        refine and_congr_left fun _ => ?_
        by_cases hword : SameWord 4 w y
        · have hb : slot 0 y % 64 < 64 := Nat.mod_lt _ (by decide)
          rw [if_pos hword, BitVec.getLsbD_and, BitVec.getLsbD_not, decide_eq_true hb,
            Bool.true_and, Bool.and_eq_true, Bool.not_eq_true', and_iff_right hword,
            Bool.not_eq_true]
          rfl
        · rw [if_neg hword]
          exact (and_iff_left fun h => hword h.1).symm
    · exact (and_iff_left (onPage_end hw)).symm

/-! ## Ranges of pages -/

variable {addr size : Nat}

theorem onPage_iff (hpos : 0 < ps) (h4096 : 4096 ∣ ps) (haddr : ps ∣ addr)
    (hend : addr + roundUp ps size ≤ 2 ^ 57) (hy : ps ∣ y) (hlt : y < 2 ^ 57) :
    OnPage ps (addr + size) addr y ↔ addr ≤ y ∧ y < addr + roundUp ps size := by
  have hsize := le_roundUp hpos size
  constructor
  · rintro ⟨j, hj, hkey⟩
    have hw : 4096 ∣ addr + j * ps :=
      Nat.dvd_add (Nat.dvd_trans h4096 haddr) (Nat.dvd_mul_left_of_dvd h4096 j)
    have hy' : 4096 ∣ y := Nat.dvd_trans h4096 hy
    have heq : addr + j * ps = y := by
      unfold pageKey at hkey
      omega
    rw [← heq]
    omega
  · rintro ⟨hle, hlt'⟩
    obtain ⟨j, hj⟩ := Nat.dvd_sub hy haddr
    have heq : addr + j * ps = y := by
      rw [Nat.mul_comm]
      omega
    refine ⟨j, ?_, by rw [heq]⟩
    by_contra hge
    have hcover := roundUp_le hpos (m := j * ps) (n := size) (by omega) (Nat.dvd_mul_left ps j)
    omega

theorem fuel_enough (hpos : 0 < ps) (addr size : Nat) :
    addr + size ≤ addr + (size / ps + 1) * ps := by
  have hmod := Nat.div_add_mod size ps
  have hlt := Nat.mod_lt size hpos
  rw [Nat.mul_comm] at hmod
  rw [Nat.add_mul]
  omega

section

variable (hpos : 0 < ps) (hps : ps ≤ 65536) (h4096 : 4096 ∣ ps) (haddr : ps ∣ addr)
  (hend : addr + roundUp ps size ≤ 2 ^ 57) (hy : ps ∣ y) (hlt : y < 2 ^ 57)
include hpos hps h4096 haddr hend hy hlt

theorem bit_mapsMark : (mapsMark ps addr size trie).bit y = true ↔
      trie.bit y = true ∨ (addr ≤ y ∧ y < addr + roundUp ps size) := by
  unfold mapsMark
  rw [bit_markLoop hps _ (fuel_enough hpos addr size),
    onPage_iff hpos h4096 haddr hend hy hlt]

theorem bit_mapsUnmark : (mapsUnmark ps addr size trie).bit y = true ↔
      trie.bit y = true ∧ ¬ (addr ≤ y ∧ y < addr + roundUp ps size) := by
  unfold mapsUnmark
  cases trie with
  | none =>
    have hnone : Trie.bit none y = false := by
      show (0#64).getLsbD _ = false
      exact BitVec.getLsbD_zero
    rw [Option.isNone_none, if_pos rfl, hnone]
    exact iff_of_false Bool.false_ne_true fun h => Bool.false_ne_true h.1
  | some dir =>
    rw [Option.isNone_some, if_neg Bool.false_ne_true,
      bit_unmarkLoop hps _ (fuel_enough hpos addr size),
      onPage_iff hpos h4096 haddr hend hy hlt]

end

end

end CosmoRuby.Mmap