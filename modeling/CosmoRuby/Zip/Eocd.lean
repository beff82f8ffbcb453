import Mathlib
import CosmoRuby.Lib.Bytes
import CosmoRuby.Lib.LittleEndian

/-!
# The end of central directory

`GetZipEocd` looks for the record backwards from the end of the file, with and without the vector
step that skips sixteen bytes without a `PK`. A load outside of the file ends the computation with
`none`. Sums of an index into the file and a small number do not wrap, since an object in memory is
smaller than half of the address space.
-/

open CosmoRuby.Lib

namespace CosmoRuby.Zip

open List

/-! ## 1. Loads -/

def le (p : Bytes) (i k : Nat) : Nat := leNat (slice p i (i + k))

def load (p : Bytes) (i k : Nat) : Option Nat := if i + k ≤ p.length then some (le p i k) else none

variable {p : Bytes} {i k : Nat}

theorem load_inside (h : i + k ≤ p.length) : load p i k = some (le p i k) :=
  if_pos h

theorem load_outside (h : p.length < i + k) : load p i k = none :=
  if_neg (Nat.not_le.2 h)

def kZipCdirHdrMagic : Nat := 0x06054b50
def kZipCdir64HdrMagic : Nat := 0x06064b50
def kZipCdir64LocatorMagic : Nat := 0x07064b50
def kZipCdirHdrMinSize : Nat := 22
def kZipCdir64HdrMinSize : Nat := 56
def kZipCdir64LocatorSize : Nat := 20
def kZipCfileHdrMinSize : Nat := 46

inductive ZipStatus where
  | ok
  | eocdNotFound
  | eocdOffsetOverflow
  | eocdMagicNotFound
  | eocdSizeOverflow
  | eocdDiskMismatch
  | eocdOffsetSizeOverflow
  | eocdRecordsMismatch
  | eocdRecordsOverflow
  | cdirOffsetPastEocd
  | eocdLocatorMagic
  | eocdLocatorOffset
deriving DecidableEq

/-! ## 2. Checking a record -/

def fits (n : Nat) : Bool := n < 2 ^ 64

def isZipEocd64 (p : Bytes) (i : Nat) : Option ZipStatus :=
  if p.length < i ∨ p.length < i + kZipCdir64HdrMinSize then some .eocdOffsetOverflow
  else (load p i 4).bind fun magic =>
    if magic ≠ kZipCdir64HdrMagic then some .eocdMagicNotFound
    else (load p (i + 4) 8).bind fun hdrsize =>
      let loc := i + (hdrsize + 12) % 2 ^ 64
      if !fits loc ∨ !fits (loc + kZipCdir64LocatorSize) ∨ p.length < loc + kZipCdir64LocatorSize then
        some .eocdSizeOverflow
      else (load p loc 4).bind fun locator =>
        if locator ≠ kZipCdir64LocatorMagic then some .eocdLocatorMagic
        else (load p (loc + 8) 8).bind fun located =>
          if located ≠ i then some .eocdLocatorOffset
          else (load p (i + 48) 8).bind fun offset => (load p (i + 40) 8).bind fun size =>
            if !fits (offset + size) then some .eocdOffsetSizeOverflow
            else if i < offset + size then some .cdirOffsetPastEocd
            else (load p (i + 32) 8).bind fun records =>
              if !fits (records * kZipCfileHdrMinSize) ∨ size < records * kZipCfileHdrMinSize then
                some .eocdRecordsOverflow
              else some .ok

def isZipEocd32 (p : Bytes) (i : Nat) : Option ZipStatus :=
  if p.length < i ∨ p.length - i < kZipCdirHdrMinSize then some .eocdOffsetOverflow
  else (load p i 4).bind fun magic =>
    if magic ≠ kZipCdirHdrMagic then some .eocdMagicNotFound
    else (load p (i + 20) 2).bind fun commentsize =>
      if p.length < i + (commentsize + kZipCdirHdrMinSize) then some .eocdSizeOverflow
      else (load p (i + 4) 2).bind fun disk => (load p (i + 6) 2).bind fun startingdisk =>
        if disk ≠ startingdisk then some .eocdDiskMismatch
        else (load p (i + 8) 2).bind fun recordsondisk => (load p (i + 10) 2).bind fun records =>
          if recordsondisk ≠ records then some .eocdRecordsMismatch
          else (load p (i + 12) 4).bind fun size =>
            if size < records * kZipCfileHdrMinSize then some .eocdRecordsOverflow
            else (load p (i + 16) 4).bind fun offset =>
              if offset = 0xffffffff then some .eocdRecordsOverflow
              else if !fits (offset + size) then some .eocdOffsetSizeOverflow
              else if i < offset + size then some .cdirOffsetPastEocd
              else some .ok

/-! ## 3. The search -/

/-- How the search ends: with the offset of a record, or with an error code. -/
inductive Verdict where
  | found (o : Nat)
  | miss (err : ZipStatus)
deriving DecidableEq

def Verdict.orElse (k : ZipStatus → Option Verdict) : Verdict → Option Verdict
  | .found o => some (.found o)
  | .miss err => k err

def findLocator (p : Bytes) (i : Nat) : Nat → Nat → Option (Option Nat)
  | 0, _ => some none
  | fuel + 1, j =>
    let goOn := if 0 < j ∧ i - (j - 1) < 128 then findLocator p i fuel (j - 1) else some none
    (load p j 4).bind fun magic =>
      if magic = kZipCdir64LocatorMagic ∧ j + kZipCdir64LocatorSize ≤ p.length then
        (load p (j + 8) 8).bind fun o => (isZipEocd64 p o).bind fun status =>
          if status = .ok then some (some o) else goOn
      else goOn

def examine (p : Bytes) (i magic : Nat) (err : ZipStatus) : Option Verdict :=
  if magic = kZipCdir64LocatorMagic ∧ i + kZipCdir64LocatorSize ≤ p.length then
    (load p (i + 8) 8).bind fun o => (isZipEocd64 p o).map fun status =>
      if status = .ok then .found o else .miss status
  else if magic = kZipCdirHdrMagic then
    (isZipEocd32 p i).bind fun status =>
      if status = .ok then (findLocator p i 128 i).map fun r => .found (r.getD i)
      else some (.miss status)
  else some (.miss err)

def inTail (p : Bytes) (i : Nat) : Bool := p.length ≤ i + 0x10000 + 0x1000

def scanDown (p : Bytes) : Nat → Option (Nat × Nat)
  | 0 => (load p 0 4).map fun magic => (0, magic)
  | i + 1 =>
    (load p (i + 1) 4).bind fun magic =>
      if magic ≠ kZipCdir64LocatorMagic ∧ magic ≠ kZipCdirHdrMagic ∧ inTail p (i + 1) then
        scanDown p i
      else some (i + 1, magic)

def anyLane (x : Bytes) : Bool :=
  (List.range 8).any fun k => byteAt x (2 * k) = 0x50 && byteAt x (2 * k + 1) = 0x4b

/-- Whether `PK` is among the sixteen bytes, at an even place or, shifted by one byte, at an odd
one. -/
def anyPk (x : Bytes) : Bool := anyLane x || anyLane (x.drop 1 ++ [0])

def loadVector (p : Bytes) (i : Nat) : Option Bytes :=
  if i + 16 ≤ p.length then some (slice p i (i + 16)) else none

def search (vector : Bool) (p : Bytes) : Nat → Nat → ZipStatus → Option Verdict
  | 0, _, _ => none
  | fuel + 1, i, err =>
    let again := fun i err =>
      if 0 < i ∧ inTail p i then search vector p fuel (i - 1) err else some (.miss err)
    let scalar := (scanDown p i).bind fun r => (examine p r.1 r.2 err).bind (Verdict.orElse (again r.1))
    if vector ∧ 14 ≤ i then
      (loadVector p (i - 14)).bind fun x => if anyPk x then scalar else again (i - 13) err
    else scalar

def getZipEocd (vector : Bool) (p : Bytes) : Option Verdict :=
  let i := (p.length + 2 ^ 64 - 4) % 2 ^ 64
  search vector p (i + 1) i .eocdNotFound

/-! ## 4. What the checks establish -/

section

variable (p : Bytes) (o : Nat)

/-- The fields of the record at `o`, by its magic number as the caller tells the formats apart. -/
def cdirOffset : Nat :=
  if le p o 4 = kZipCdir64HdrMagic then le p (o + 48) 8 else le p (o + 16) 4

def cdirSize : Nat :=
  if le p o 4 = kZipCdir64HdrMagic then le p (o + 40) 8 else le p (o + 12) 4

def cdirRecords : Nat :=
  if le p o 4 = kZipCdir64HdrMagic then le p (o + 32) 8 else le p (o + 10) 2

/-- The record lies in the file, and the central directory it describes lies before it and has
room for its records. -/
structure Describes : Prop where
  inside : o ≤ p.length
  before : cdirOffset p o + cdirSize p o ≤ o
  room : cdirRecords p o * kZipCfileHdrMinSize ≤ cdirSize p o

end

/-- A record is answered without a load outside of the file, and only a good one with `ok`. -/
def Answers (p : Bytes) (i : Nat) (x : Option ZipStatus) : Prop :=
  ∃ status, x = some status ∧ (status = .ok → Describes p i)

section Answers

variable {p : Bytes} {i : Nat}

theorem Answers.check {c : Prop} [Decidable c] {e : ZipStatus} {x : Option ZipStatus} (he : e ≠ .ok)
    (h : ¬c → Answers p i x) : Answers p i (if c then some e else x) := by
  split_ifs with hc
  · exact ⟨e, rfl, fun hok => absurd hok he⟩
  · exact h hc

theorem Answers.load {o n : Nat} {k : Nat → Option ZipStatus} (hin : o + n ≤ p.length)
    (h : Answers p i (k (le p o n))) : Answers p i ((Zip.load p o n).bind k) := by
  rw [load_inside hin, Option.bind_some]
  exact h

end Answers

theorem isZipEocd64_spec (p : Bytes) (i : Nat) :
    ∃ status, isZipEocd64 p i = some status ∧ (status = .ok → Describes p i) := by
  apply Answers.check (by decide)
  intro hlen
  have hin : i + 56 ≤ p.length := Nat.not_lt.1 fun h => hlen (.inr h)
  refine .load (by omega) (.check (by decide) fun hmagic => .load (by omega) ?_)
  obtain ⟨loc, hlocdef⟩ : ∃ loc, i + (le p (i + 4) 8 + 12) % 2 ^ 64 = loc := ⟨_, rfl⟩
  rw [hlocdef]
  apply Answers.check (by decide)
  intro hloc
  have hlocator : loc + 20 ≤ p.length := Nat.not_lt.1 fun h => hloc (.inr (.inr h))
  refine .load (by omega) (.check (by decide) fun _ => .load (by omega) (.check (by decide) fun _ => ?_))
  refine .load (by omega) (.load (by omega) (.check (by decide) fun _ => ?_))
  refine .check (by decide) fun hpast => .load (by omega) (.check (by decide) fun hroom => ?_)
  have hformat : le p i 4 = kZipCdir64HdrMagic := not_not.1 hmagic
  refine ⟨_, rfl, fun _ => ⟨by omega, ?_, ?_⟩⟩
  · rw [cdirOffset, cdirSize, if_pos hformat, if_pos hformat]
    exact Nat.not_lt.1 hpast
  · rw [cdirRecords, cdirSize, if_pos hformat, if_pos hformat]
    exact Nat.not_lt.1 fun h => hroom (.inr h)

theorem isZipEocd32_spec (p : Bytes) (i : Nat) :
    ∃ status, isZipEocd32 p i = some status ∧ (status = .ok → Describes p i) := by
  apply Answers.check (by decide)
  intro hlen
  have hin : i + 22 ≤ p.length := by
    have hle := Nat.not_lt.1 fun h => hlen (.inl h)
    have hmin : 22 ≤ p.length - i := Nat.not_lt.1 fun h => hlen (.inr h)
    omega
  refine .load (by omega) (.check (by decide) fun hmagic => ?_)
  have hformat : le p i 4 ≠ kZipCdir64HdrMagic := by
    rw [not_not.1 hmagic]
    decide
  refine .load (by omega) (.check (by decide) fun _ => .load (by omega) (.load (by omega) ?_))
  refine .check (by decide) fun _ => .load (by omega) (.load (by omega) (.check (by decide) fun _ => ?_))
  refine .load (by omega) (.check (by decide) fun hroom => .load (by omega) ?_)
  refine .check (by decide) fun _ => .check (by decide) fun _ => .check (by decide) fun hpast => ?_
  refine ⟨_, rfl, fun _ => ⟨by omega, ?_, ?_⟩⟩
  · rw [cdirOffset, cdirSize, if_neg hformat, if_neg hformat]
    exact Nat.not_lt.1 hpast
  · rw [cdirRecords, cdirSize, if_neg hformat, if_neg hformat]
    exact Nat.not_lt.1 hroom

theorem findLocator_spec (p : Bytes) (i fuel j : Nat) (hj : j + 4 ≤ p.length) :
    ∃ r, findLocator p i fuel j = some r ∧ ∀ o, r = some o → Describes p o := by
  induction fuel generalizing j with
  | zero => exact ⟨none, rfl, nofun⟩
  | succ fuel ih =>
    have hgoOn : ∃ r, (if 0 < j ∧ i - (j - 1) < 128 then findLocator p i fuel (j - 1) else some none) =
        some r ∧ ∀ o, r = some o → Describes p o := by
      split
      · exact ih (j - 1) (by omega)
      · exact ⟨none, rfl, nofun⟩
    rw [findLocator, load_inside hj, Option.bind_some]
    split
    · next hlocator =>
      have hin : j + 20 ≤ p.length := hlocator.2
      obtain ⟨status, hstatus, hok⟩ := isZipEocd64_spec p (le p (j + 8) 8)
      rw [load_inside (by omega), Option.bind_some, hstatus, Option.bind_some]
      split <;> rename_i hs
      · exact ⟨_, rfl, fun o ho => Option.some.inj ho ▸ hok hs⟩
      · exact hgoOn
    · exact hgoOn

theorem examine_spec (p : Bytes) (i : Nat) (err : ZipStatus) (hi : i + 4 ≤ p.length) :
    ∃ verdict, examine p i (le p i 4) err = some verdict ∧
      ∀ o, verdict = .found o → Describes p o := by
  rw [examine]
  split
  · next hlocator =>
    have hin : i + 20 ≤ p.length := hlocator.2
    obtain ⟨status, hstatus, hok⟩ := isZipEocd64_spec p (le p (i + 8) 8)
    rw [load_inside (by omega), Option.bind_some, hstatus, Option.map_some]
    refine ⟨_, rfl, fun o ho => ?_⟩
    split at ho
    · next hs => exact Verdict.found.inj ho ▸ hok hs
    · cases ho
  · split
    · obtain ⟨status, hstatus, hok⟩ := isZipEocd32_spec p i
      rw [hstatus, Option.bind_some]
      by_cases hs : status = .ok
      · obtain ⟨r, hr, hlocated⟩ := findLocator_spec p i 128 i hi
        rw [if_pos hs, hr, Option.map_some]
        refine ⟨_, rfl, fun o ho => ?_⟩
        have heq := Verdict.found.inj ho
        cases r with
        | none => exact heq ▸ hok hs
        | some o' => exact heq ▸ hlocated o' rfl
      · rw [if_neg hs]
        exact ⟨_, rfl, nofun⟩
    · exact ⟨_, rfl, nofun⟩

/-! ## 5. One position after the other -/

def walk (p : Bytes) : Nat → ZipStatus → Option Verdict
  | 0, err => (load p 0 4).bind fun magic => examine p 0 magic err
  | i + 1, err =>
    (load p (i + 1) 4).bind fun magic => (examine p (i + 1) magic err).bind <| Verdict.orElse
      fun err => if inTail p (i + 1) then walk p i err else some (.miss err)

theorem walk_spec (p : Bytes) (i : Nat) (err : ZipStatus) (hi : i + 4 ≤ p.length) :
    ∃ verdict, walk p i err = some verdict ∧ ∀ o, verdict = .found o → Describes p o := by
  induction i generalizing err with
  | zero =>
    rw [walk, load_inside hi, Option.bind_some]
    exact examine_spec p 0 err hi
  | succ i ih =>
    obtain ⟨verdict, hverdict, hfound⟩ := examine_spec p (i + 1) err hi
    rw [walk, load_inside hi, Option.bind_some, hverdict, Option.bind_some]
    cases verdict with
    | found o => exact ⟨_, rfl, hfound⟩
    | miss err' =>
      rw [Verdict.orElse]
      split
      · exact ih err' (by omega)
      · exact ⟨_, rfl, nofun⟩

theorem examine_other {magic : Nat} {err : ZipStatus}
    (hl : magic ≠ kZipCdir64LocatorMagic) (hc : magic ≠ kZipCdirHdrMagic) :
    examine p i magic err = some (.miss err) := by
  rw [examine, if_neg fun h => hl h.1, if_neg hc]

theorem le_four (hi : i + 4 ≤ p.length) :
    le p i 4 = (byteAt p i).toNat + 256 * ((byteAt p (i + 1)).toNat +
      256 * ((byteAt p (i + 2)).toNat + 256 * (byteAt p (i + 3)).toNat)) := by
  rw [le, slice, drop_take, Nat.add_sub_cancel_left, drop_byteAt p i (by omega),
    drop_byteAt p (i + 1) (by omega), drop_byteAt p (i + 1 + 1) (by omega),
    drop_byteAt p (i + 1 + 1 + 1) (by omega)]
  simp only [take_succ_cons, take_zero, leNat, Nat.mul_zero, Nat.add_zero]

theorem pk_of_magic (hi : i + 4 ≤ p.length)
    (h : le p i 4 = kZipCdir64LocatorMagic ∨ le p i 4 = kZipCdirHdrMagic) :
    byteAt p i = 0x50 ∧ byteAt p (i + 1) = 0x4b := by
  have h₀ := (byteAt p i).toNat_lt
  have h₁ := (byteAt p (i + 1)).toNat_lt
  rw [le_four hi] at h
  have hnat : (byteAt p i).toNat = 0x50 ∧ (byteAt p (i + 1)).toNat = 0x4b := by
    rcases h with h | h
    · rw [kZipCdir64LocatorMagic] at h
      omega
    · rw [kZipCdirHdrMagic] at h
      omega
  exact ⟨UInt8.toNat_inj.1 hnat.1, UInt8.toNat_inj.1 hnat.2⟩

theorem walk_skip (p : Bytes) (i k : Nat) (err : ZipStatus) (hi : i + k + 4 ≤ p.length)
    (hother : ∀ j, i < j → j ≤ i + k →
      le p j 4 ≠ kZipCdir64LocatorMagic ∧ le p j 4 ≠ kZipCdirHdrMagic) :
    walk p (i + k) err =
      if k = 0 ∨ inTail p (i + 1) then walk p i err else some (.miss err) := by
  induction k with
  | zero => rw [if_pos (.inl rfl), Nat.add_zero]
  | succ k ih =>
    obtain ⟨hl, hc⟩ := hother (i + k + 1) (by omega) (by omega)
    have hstep : walk p (i + (k + 1)) err =
        if inTail p (i + k + 1) then walk p (i + k) err else some (.miss err) := by
      rw [← Nat.add_assoc, walk, load_inside (by omega), Option.bind_some, examine_other hl hc]
      rfl
    rw [hstep, ih (by omega) fun j hlt hle => hother j hlt (by omega)]
    simp only [Nat.succ_ne_zero, false_or]
    by_cases hk : k = 0
    · subst hk
      rw [Nat.add_zero]
      simp only [true_or, if_true]
    · simp only [hk, false_or]
      by_cases htail : inTail p (i + 1) = true
      · have htail' : inTail p (i + k + 1) = true := by
          rw [inTail, decide_eq_true_eq] at htail ⊢
          omega
        rw [if_pos htail', if_pos htail]
      · rw [if_neg htail, ite_self]

/-! ## 6. The loops -/

theorem scanDown_walk (p : Bytes) (i : Nat) (err : ZipStatus) (k : Nat → ZipStatus → Option Verdict)
    (hk : ∀ j err, j ≤ i → k j err =
      if 0 < j ∧ inTail p j then walk p (j - 1) err else some (.miss err)) :
    ((scanDown p i).bind fun r => (examine p r.1 r.2 err).bind (Verdict.orElse (k r.1))) =
      walk p i err := by
  induction i with
  | zero =>
    rw [scanDown, walk]
    cases hload : load p 0 4 with
    | none => rfl
    | some magic =>
      rw [Option.map_some, Option.bind_some, Option.bind_some]
      cases hverdict : examine p 0 magic err with
      | none => rfl
      | some verdict =>
        rw [Option.bind_some]
        cases verdict with
        | found o => rfl
        | miss err' => exact (hk 0 err' (Nat.le_refl 0)).trans (if_neg fun h => Nat.lt_irrefl 0 h.1)
  | succ i ih =>
    rw [scanDown, walk]
    cases hload : load p (i + 1) 4 with
    | none => rfl
    | some magic =>
      rw [Option.bind_some, Option.bind_some]
      split <;> rename_i hgo
      · rw [ih fun j err hj => hk j err (by omega), examine_other hgo.1 hgo.2.1,
          Option.bind_some]
        exact (if_pos hgo.2.2).symm
      · rw [Option.bind_some]
        congr 1
        funext verdict
        cases verdict with
        | found o => rfl
        | miss err' =>
          refine (hk (i + 1) err' (Nat.le_refl _)).trans ?_
          simp only [Nat.succ_pos, true_and, Nat.add_sub_cancel, Verdict.orElse]

theorem no_pk_of_anyPk {j : Nat} (hi : i + 16 ≤ p.length)
    (hnone : anyPk (slice p i (i + 16)) = false) (hij : i ≤ j) (hj : j ≤ i + 14) :
    ¬ (byteAt p j = 0x50 ∧ byteAt p (j + 1) = 0x4b) := by
  obtain ⟨heven, hodd⟩ := Bool.or_eq_false_iff.1 hnone
  rw [anyLane, any_eq_false] at heven hodd
  have hbyte (r : Nat) (hr : r < 16) : byteAt (slice p i (i + 16)) r = byteAt p (i + r) := by
    rw [slice, byteAt, byteAt, List.getD_eq_getElem?_getD, List.getD_eq_getElem?_getD,
      List.getElem?_drop, List.getElem?_take_of_lt (by omega)]
  have hlen : (slice p i (i + 16)).length = 16 := length_slice p i 16 hi
  have hshift (r : Nat) (hr : r < 15) :
      byteAt ((slice p i (i + 16)).drop 1 ++ [0]) r = byteAt p (i + (r + 1)) := by
    rw [byteAt_append_left _ _ _ (by rw [length_drop, hlen]; omega), ← hbyte (r + 1) (by omega),
      byteAt, byteAt, List.getD_eq_getElem?_getD, List.getD_eq_getElem?_getD, List.getElem?_drop,
      Nat.add_comm 1 r]
  rintro ⟨hp, hk⟩
  rcases Nat.mod_two_eq_zero_or_one (j - i) with hmod | hmod
  · refine heven ((j - i) / 2) (List.mem_range.2 (by omega)) ?_
    rw [hbyte _ (by omega), hbyte _ (by omega), show i + 2 * ((j - i) / 2) = j by omega,
      show i + (2 * ((j - i) / 2) + 1) = j + 1 by omega, hp, hk]
    decide
  · refine hodd ((j - i) / 2) (List.mem_range.2 (by omega)) ?_
    rw [hshift _ (by omega), hshift _ (by omega), show i + (2 * ((j - i) / 2) + 1) = j by omega,
      show i + (2 * ((j - i) / 2) + 1 + 1) = j + 1 by omega, hp, hk]
    decide

theorem search_eq_walk (vector : Bool) (p : Bytes) (fuel i : Nat) (err : ZipStatus)
    (hi : i + 4 ≤ p.length) (hfuel : i < fuel) : search vector p fuel i err = walk p i err := by
  induction fuel generalizing i err with
  | zero => exact absurd hfuel (Nat.not_lt_zero i)
  | succ fuel ih =>
    obtain ⟨again, hdef⟩ : ∃ again : Nat → ZipStatus → Option Verdict, again = fun i err =>
        if 0 < i ∧ inTail p i then search vector p fuel (i - 1) err else some (.miss err) := ⟨_, rfl⟩
    have hagain (j : Nat) (err : ZipStatus) (hj : j ≤ i) : again j err =
        if 0 < j ∧ inTail p j then walk p (j - 1) err else some (.miss err) := by
      rw [hdef]
      split_ifs with h
      · rw [← ih (j - 1) err (by omega) (by omega)]
        exact if_pos h
      · exact if_neg h
    have hscalar := scanDown_walk p i err again hagain
    rw [search, ← hdef]
    by_cases hvector : vector ∧ 14 ≤ i
    · have hin : i - 14 + 16 ≤ p.length := by omega
      rw [if_pos hvector, loadVector, if_pos hin, Option.bind_some]
      cases hpk : anyPk (slice p (i - 14) (i - 14 + 16)) with
      | true => exact hscalar
      | false =>
        rw [if_neg Bool.false_ne_true, hagain (i - 13) err (by omega)]
        have hskip := walk_skip p (i - 14) 14 err (by omega) fun j hlt hle => by
          refine ⟨fun h => ?_, fun h => ?_⟩
          · exact no_pk_of_anyPk hin hpk (by omega) hle (pk_of_magic (by omega) (.inl h))
          · exact no_pk_of_anyPk hin hpk (by omega) hle (pk_of_magic (by omega) (.inr h))
        rw [Nat.sub_add_cancel hvector.2] at hskip
        rw [hskip, show i - 14 + 1 = i - 13 by omega, show i - 13 - 1 = i - 14 by omega]
        refine if_congr ?_ rfl rfl
        have hpos : 0 < i - 13 := by omega
        simp [hpos]
    · rw [if_neg hvector]
      exact hscalar

/-! ## 7. Safe and complete -/

/-- Both variants stay inside of the file and give one result, and a record that is found
describes a directory before it with room for its records. -/
def FindsEocd (p : Bytes) : Prop :=
  ∃ verdict, getZipEocd false p = some verdict ∧ getZipEocd true p = some verdict ∧
    ∀ o, verdict = .found o → Describes p o

theorem start_eq (h : 4 ≤ p.length) (hp : p.length < 2 ^ 64) :
    (p.length + 2 ^ 64 - 4) % 2 ^ 64 = p.length - 4 := by
  omega

theorem getZipEocd_short (h : p.length < 4) (vector : Bool) : getZipEocd vector p = none := by
  obtain ⟨i, hi⟩ : ∃ i, (p.length + 2 ^ 64 - 4) % 2 ^ 64 = i + 1 :=
    ⟨(p.length + 2 ^ 64 - 4) % 2 ^ 64 - 1, by omega⟩
  have hscan : scanDown p (i + 1) = none := by
    rw [scanDown, load_outside (by omega)]
    rfl
  have hvec : loadVector p (i + 1 - 14) = none := by
    rw [loadVector, if_neg (by omega)]
  rw [getZipEocd, hi, search, hvec, hscan]
  split <;> rfl

/-- For a file that is a `size_t` long: all is well exactly if it has four bytes. -/
theorem findsEocd_iff_four_bytes (p : Bytes) (hp : p.length < 2 ^ 64) :
    FindsEocd p ↔ 4 ≤ p.length := by
  constructor
  · rintro ⟨verdict, hverdict, -⟩
    by_contra hshort
    rw [getZipEocd_short (Nat.not_le.1 hshort)] at hverdict
    cases hverdict
  · intro h
    have hi : p.length - 4 + 4 ≤ p.length := by omega
    obtain ⟨verdict, hverdict, hfound⟩ := walk_spec p (p.length - 4) .eocdNotFound hi
    have heq (vector : Bool) : getZipEocd vector p = some verdict := by
      rw [getZipEocd, start_eq h hp]
      exact (search_eq_walk vector p _ _ _ hi (Nat.lt_succ_self _)).trans hverdict
    exact ⟨verdict, heq false, heq true, hfound⟩

theorem findsEocd_empty : FindsEocd ([0x50, 0x4B, 5, 6] ++ List.replicate 18 0) ∧
    getZipEocd true ([0x50, 0x4B, 5, 6] ++ List.replicate 18 0) = some (.found 0) :=
  ⟨(findsEocd_iff_four_bytes _ (by decide)).2 (by decide), by decide⟩

/-- For the empty file the search begins with a load four bytes before it. -/
theorem getZipEocd_empty : getZipEocd false [] = none ∧ ¬ FindsEocd [] := by
  have hnone : getZipEocd false [] = none := getZipEocd_short (by decide) false
  refine ⟨hnone, ?_⟩
  rintro ⟨verdict, hverdict, -⟩
  rw [hnone] at hverdict
  cases hverdict

end CosmoRuby.Zip