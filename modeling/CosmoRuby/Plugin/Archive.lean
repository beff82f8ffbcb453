import CosmoRuby.Http.Tables
import CosmoRuby.Lib.LittleEndian
import CosmoRuby.Lib.Reach
import CosmoRuby.Libc.Strtoul

/-!
# The plugin archive

`ParseArchive` of `cosmo_plugin.c`: the loop over the members of an `ar` archive. Pointers are
64-bit words, and the archive is a range of the memory.
-/

namespace CosmoRuby.Plugin

open Lib Libc Http

/-! ## The loop -/

inductive MemberName where
  | null
  /-- The characters at an address. -/
  | pointer (p : BitVec 64)
  /-- The characters of the header. -/
  | namebuf (s : Bytes)
  deriving DecidableEq, Repr

structure LoadCall where
  mname : MemberName
  member : BitVec 64
  msize : BitVec 64
  deriving DecidableEq, Repr

structure ArchiveState where
  cur : BitVec 64
  strtab : BitVec 64
  strtabSize : BitVec 64
  deriving DecidableEq, Repr

section

variable (m : Memory) (cur : BitVec 64)

def namebuf : Bytes := readBytes m cur 16

def headerSize : BitVec 64 := strtoul (readBytes m (cur + 48) 10) 10

def isBsdName : Bool := (ascii "#1/").isPrefixOf (namebuf m cur)

def headerNameLen : BitVec 64 := strtoul ((namebuf m cur).drop 3) 10

end

/-- One iteration: the state after it and what it hands to `LoadObject`; `none` where the loop is
left, by its condition or by the `break`. -/
def archiveIteration (m : Memory) (stop : BitVec 64) (s : ArchiveState) :
    Option (ArchiveState × LoadCall) :=
  if ¬s.cur + 60 ≤ stop then none
  else
    let name := namebuf m s.cur
    let msize := headerSize m s.cur
    let cur := s.cur + 60
    if stop < cur + msize then none
    else
      let next := cur + ((msize + 1) &&& ~~~(1 : BitVec 64))
      if name = ascii "//              " then
        some (⟨next, cur, msize⟩, ⟨.null, cur, msize⟩)
      else if name = ascii "/               " then
        some ({ s with cur := next }, ⟨.null, cur, msize⟩)
      else if isBsdName m s.cur then
        let len := headerNameLen m s.cur
        some ({ s with cur := next }, ⟨.pointer cur, cur + len, msize - len⟩)
      else if byteAt name 0 = 0x2F ∧ isdigit (byteAt name 1) then
        let off := strtoul (name.drop 1) 10
        some ({ s with cur := next },
          ⟨if s.strtab ≠ 0 ∧ off < s.strtabSize then .pointer (s.strtab + off) else .null, cur, msize⟩)
      else some ({ s with cur := next }, ⟨.namebuf name, cur, msize⟩)

def archiveStep (m : Memory) (stop : BitVec 64) (s : ArchiveState) (_ : Unit) : Option ArchiveState :=
  (archiveIteration m stop s).map Prod.fst

def startArchive (ar : BitVec 64) : ArchiveState := ⟨ar + 8, 0, 0⟩

def hasMagic (m : Memory) (ar size : BitVec 64) : Bool := 8 ≤ size && readBytes m ar 8 == ascii "!<arch>\n"

/-- What the loop hands to `LoadObject`; `none` where the fuel runs out first. -/
def archiveCalls (m : Memory) (stop : BitVec 64) : Nat → ArchiveState → Option (List LoadCall)
  | 0, _ => none
  | fuel + 1, s =>
    match archiveIteration m stop s with
    | none => some []
    | some (s, call) => (archiveCalls m stop fuel s).map (call :: ·)

/-- `ParseArchive`, with what `LoadObject` makes of a member: the objects, or -1. -/
def parseArchive {α : Type} (loadObject : LoadCall → Option α) (m : Memory) (ar size : BitVec 64)
    (fuel : Nat) : Option (Option (List α)) :=
  if !hasMagic m ar size then some none
  else
    (archiveCalls m (ar + size) fuel (startArchive ar)).map fun calls =>
      let objs := calls.filterMap loadObject
      if objs.isEmpty then none else some objs

/-! ## What is wanted -/

def LoadCall.Inside (ar size : BitVec 64) (c : LoadCall) : Prop :=
  ar.toNat ≤ c.member.toNat ∧ c.member.toNat + c.msize.toNat ≤ ar.toNat + size.toNat

def Iterates (m : Memory) (ar size : BitVec 64) (s : ArchiveState) : Prop :=
  ∀ s' c, archiveIteration m (ar + size) s = some (s', c) → s.cur < s'.cur ∧ c.Inside ar size

abbrev ArchiveReaches (m : Memory) (ar size : BitVec 64) : ArchiveState → Prop :=
  Reaches (archiveStep m (ar + size)) (fun _ => True) (startArchive ar)

def ArchiveSound (m : Memory) (ar size : BitVec 64) : Prop :=
  hasMagic m ar size = true →
    (∃ fuel, (archiveCalls m (ar + size) fuel (startArchive ar)).isSome = true) ∧
      ∀ s, ArchiveReaches m ar size s → Iterates m ar size s

/-- The header at `cur` ends the loop, or its size is not negative; where it is followed by the name,
the name's length is at most the size and does not lead back before the archive, and the size is at
least -59. -/
def HeaderOk (m : Memory) (ar size cur : BitVec 64) : Prop :=
  cur + 60 ≤ ar + size → cur + 60 + headerSize m cur ≤ ar + size →
    if isBsdName m cur then
      -59 ≤ (headerSize m cur).toInt ∧ (headerNameLen m cur).toInt ≤ (headerSize m cur).toInt ∧
        (ar.toNat : Int) ≤ cur.toNat + 60 + (headerNameLen m cur).toInt
    else 0 ≤ (headerSize m cur).toInt

/-! ## One iteration -/

variable {m : Memory} {ar size stop : BitVec 64} {s s' : ArchiveState} {c : LoadCall}

def Continues (m : Memory) (stop cur : BitVec 64) : Prop :=
  cur + 60 ≤ stop ∧ cur + 60 + headerSize m cur ≤ stop

theorem archiveIteration_none (h : ¬Continues m stop s.cur) : archiveIteration m stop s = none := by
  unfold archiveIteration
  by_cases h1 : s.cur + 60 ≤ stop
  · rw [if_neg (not_not.mpr h1)]
    exact if_pos (BitVec.not_le.mp fun h2 => h ⟨h1, h2⟩)
  · exact if_pos h1

theorem archiveIteration_some (h : Continues m stop s.cur) : ∃ s' c,
    archiveIteration m stop s = some (s', c) ∧
      s'.cur = s.cur + 60 + ((headerSize m s.cur + 1) &&& ~~~(1 : BitVec 64)) ∧
      (isBsdName m s.cur = false → c.member = s.cur + 60 ∧ c.msize = headerSize m s.cur) ∧
      (isBsdName m s.cur = true → c.member = s.cur + 60 + headerNameLen m s.cur ∧
        c.msize = headerSize m s.cur - headerNameLen m s.cur) := by
  unfold archiveIteration
  rw [if_neg (not_not.mpr h.1)]
  dsimp only
  rw [if_neg (BitVec.not_lt.mpr h.2)]
  have hnot : ∀ w : Bytes, (ascii "#1/").isPrefixOf w = false → namebuf m s.cur = w →
      isBsdName m s.cur = false := by
    intro w hw hname
    rw [isBsdName, hname, hw]
  split <;> rename_i h1
  · have hb := hnot _ (by decide) h1
    exact ⟨_, _, rfl, rfl, fun _ => ⟨rfl, rfl⟩, fun hbsd => absurd (hb.symm.trans hbsd) Bool.false_ne_true⟩
  split <;> rename_i h2
  · have hb := hnot _ (by decide) h2
    exact ⟨_, _, rfl, rfl, fun _ => ⟨rfl, rfl⟩, fun hbsd => absurd (hb.symm.trans hbsd) Bool.false_ne_true⟩
  cases hb : isBsdName m s.cur with
  | true => exact ⟨_, _, rfl, rfl, fun h => absurd h.symm Bool.false_ne_true, fun _ => ⟨rfl, rfl⟩⟩
  | false =>
    rw [if_neg Bool.false_ne_true]
    split <;> exact ⟨_, _, rfl, rfl, fun _ => ⟨rfl, rfl⟩, fun h => absurd h Bool.false_ne_true⟩

section

variable (hfit : ar.toNat + size.toNat ≤ 2 ^ 63)
include hfit

section

variable {cur msize len : BitVec 64} (hlow : ar.toNat ≤ cur.toNat) (hhigh : cur.toNat ≤ ar.toNat + size.toNat + 1)
  (h1 : cur + 60 ≤ ar + size) (h2 : cur + 60 + msize ≤ ar + size)
include hlow hhigh h1 h2

theorem bsdMember_iff :
    (cur < cur + 60 + ((msize + 1) &&& ~~~(1 : BitVec 64)) ∧ ar.toNat ≤ (cur + 60 + len).toNat ∧
        (cur + 60 + len).toNat + (msize - len).toNat ≤ ar.toNat + size.toNat) ↔
      -59 ≤ msize.toInt ∧ len.toInt ≤ msize.toInt ∧ (ar.toNat : Int) ≤ cur.toNat + 60 + len.toInt := by
  have hm := msize.isLt
  have hl := len.isLt
  simp only [BitVec.le_def, BitVec.lt_def, BitVec.toNat_add, BitVec.toNat_sub, toNat_and_not_one,
    BitVec.toInt_eq_toNat_cond, show (60 : BitVec 64).toNat = 60 from rfl,
    show (1 : BitVec 64).toNat = 1 from rfl] at *
  split <;> split <;> omega

theorem plainMember_iff :
    (cur < cur + 60 + ((msize + 1) &&& ~~~(1 : BitVec 64)) ∧ ar.toNat ≤ (cur + 60).toNat ∧
        (cur + 60).toNat + msize.toNat ≤ ar.toNat + size.toNat) ↔ 0 ≤ msize.toInt := by
  -- the name of a member that is not of BSD has no bytes
  have hbsd := @bsdMember_iff ar size hfit cur msize 0 hlow hhigh h1 h2
  rw [add_zero, sub_zero] at hbsd
  rw [hbsd, show (0 : BitVec 64).toInt = 0 from rfl]
  omega

end

/-- The cursor is in the archive, or just past the padding of its last member. -/
structure CursorIn (ar size cur : BitVec 64) : Prop where
  low : ar.toNat ≤ cur.toNat
  high : cur.toNat ≤ ar.toNat + size.toNat + 1

theorem iterates_iff (hin : CursorIn ar size s.cur) :
    Iterates m ar size s ↔ HeaderOk m ar size s.cur := by
  by_cases hgo : Continues m (ar + size) s.cur
  · obtain ⟨s', c, hiter, hcur, hplain, hbsd⟩ := archiveIteration_some hgo
    have hone : Iterates m ar size s ↔ s.cur < s'.cur ∧ c.Inside ar size := by
      constructor
      · exact fun h => h s' c hiter
      · intro h s'' c' hiter'
        cases hiter.symm.trans hiter'
        exact h
    have hok : HeaderOk m ar size s.cur ↔ _ := ⟨fun h => h hgo.1 hgo.2, fun h _ _ => h⟩
    rw [hone, hok, hcur, LoadCall.Inside]
    cases hname : isBsdName m s.cur with
    | false =>
      obtain ⟨hmember, hsize⟩ := hplain hname
      rw [hmember, hsize, if_neg Bool.false_ne_true]
      exact plainMember_iff hfit hin.low hin.high hgo.1 hgo.2
    | true =>
      obtain ⟨hmember, hsize⟩ := hbsd hname
      rw [hmember, hsize, if_pos rfl]
      exact bsdMember_iff hfit hin.low hin.high hgo.1 hgo.2
  · constructor
    · exact fun _ h1 h2 => absurd ⟨h1, h2⟩ hgo
    · intro _ s' c hiter
      rw [archiveIteration_none hgo] at hiter
      cases hiter

/-! ## The whole loop -/

theorem next_high {cur msize : BitVec 64} (h : cur + 60 + msize ≤ ar + size) :
    (cur + 60 + ((msize + 1) &&& ~~~(1 : BitVec 64))).toNat ≤ ar.toNat + size.toNat + 1 := by
  have hm := msize.isLt
  simp only [BitVec.le_def, BitVec.toNat_add, toNat_and_not_one,
    show (60 : BitVec 64).toNat = 60 from rfl, show (1 : BitVec 64).toNat = 1 from rfl] at *
  omega

omit hfit in
theorem archiveStep_cur (hstep : archiveStep m stop s () = some s') : Continues m stop s.cur ∧
    s'.cur = s.cur + 60 + ((headerSize m s.cur + 1) &&& ~~~(1 : BitVec 64)) := by
  obtain ⟨⟨s'', c⟩, hs, rfl⟩ := Option.map_eq_some_iff.mp hstep
  have hgo : Continues m stop s.cur := by
    by_contra hgo
    rw [archiveIteration_none hgo] at hs
    cases hs
  obtain ⟨s', c', hs', hcur, -⟩ := archiveIteration_some hgo
  cases hs.symm.trans hs'
  exact ⟨hgo, hcur⟩

theorem cursorIn_step (hin : CursorIn ar size s.cur)
    (hiter : Iterates m ar size s) (hstep : archiveStep m (ar + size) s () = some s') :
    CursorIn ar size s'.cur := by
  obtain ⟨hgo, hcur⟩ := archiveStep_cur hstep
  obtain ⟨⟨s'', c⟩, hs, rfl⟩ := Option.map_eq_some_iff.mp hstep
  refine ⟨hin.low.trans (Nat.le_of_lt (hiter s'' c hs).1), ?_⟩
  rw [hcur]
  exact next_high hfit hgo.2

theorem cursorIn_start (hmagic : hasMagic m ar size = true) :
    CursorIn ar size (startArchive ar).cur := by
  have hsize : 8 ≤ size.toNat := by
    simp only [hasMagic, Bool.and_eq_true, decide_eq_true_eq] at hmagic
    exact hmagic.1
  have hcur : (startArchive ar).cur.toNat = ar.toNat + 8 := by
    rw [startArchive, BitVec.toNat_add, show (8 : BitVec 64).toNat = 8 from rfl]
    omega
  constructor <;> omega

theorem cursorIn_reaches (hmagic : hasMagic m ar size = true)
    (hiter : ∀ s, ArchiveReaches m ar size s → CursorIn ar size s.cur → Iterates m ar size s)
    (hs : ArchiveReaches m ar size s) : CursorIn ar size s.cur := by
  induction hs with
  | refl _ => exact cursorIn_start hfit hmagic
  | tail hu _ hstep _ ih => exact cursorIn_step hfit ih (hiter _ hu ih) hstep

end

theorem archiveCalls_isSome (hiter : ∀ s, ArchiveReaches m ar size s → Iterates m ar size s)
    (hs : ArchiveReaches m ar size s) :
    ∃ fuel, (archiveCalls m (ar + size) fuel s).isSome = true := by
  induction hk : 2 ^ 64 - s.cur.toNat using Nat.strong_induction_on generalizing s with
  | h k ih =>
    cases hnext : archiveIteration m (ar + size) s with
    | none => exact ⟨1, by rw [archiveCalls, hnext]; rfl⟩
    | some r =>
      obtain ⟨s', c⟩ := r
      have hlt : s.cur.toNat < s'.cur.toNat := (hiter s hs s' c hnext).1
      have hs' : ArchiveReaches m ar size s' :=
        .tail hs () (by rw [archiveStep, hnext]; rfl) trivial
      have hmax := s'.cur.isLt
      obtain ⟨fuel, hfuel⟩ := ih _ (by omega) hs' rfl
      refine ⟨fuel + 1, ?_⟩
      rw [archiveCalls, hnext, Option.isSome_map]
      exact hfuel

def HeadersOk (m : Memory) (ar size : BitVec 64) : Prop :=
  hasMagic m ar size = true → ∀ s, ArchiveReaches m ar size s → HeaderOk m ar size s.cur

/-- The loop is sound for an archive, wherever it lies in the lower half of the address space, if and
only if every header that it comes to is as it should be. -/
theorem archiveSound_iff_headersOk (m : Memory) (ar size : BitVec 64)
    (hfit : ar.toNat + size.toNat ≤ 2 ^ 63) : ArchiveSound m ar size ↔ HeadersOk m ar size := by
  constructor
  · intro hsound hmagic s hs
    obtain ⟨-, hiter⟩ := hsound hmagic
    exact (iterates_iff hfit (cursorIn_reaches hfit hmagic (fun s hs _ => hiter s hs) hs)).mp (hiter s hs)
  · intro hok hmagic
    have hin : ∀ s, ArchiveReaches m ar size s → CursorIn ar size s.cur := fun s hs =>
      cursorIn_reaches hfit hmagic (fun s hs hin => (iterates_iff hfit hin).mpr (hok hmagic s hs)) hs
    have hiter : ∀ s, ArchiveReaches m ar size s → Iterates m ar size s := fun s hs =>
      (iterates_iff hfit (hin s hs)).mpr (hok hmagic s hs)
    exact ⟨archiveCalls_isSome hiter (.refl trivial), hiter⟩

def fileAt (p : BitVec 64) (file : Bytes) : Memory := fun q => byteAt file (q - p).toNat

def archiveHeader (name size : String) : Bytes :=
  ascii name ++ ascii "0           0     0     644     " ++ ascii size ++ ascii "`\n"

def oneMember (name size : String) : Bytes :=
  ascii "!<arch>\n" ++ archiveHeader name size ++ ascii "text"

theorem archiveSound_oneMember :
    ArchiveSound (fileAt 0x10000000 (oneMember "a.o/            " "4         ")) 0x10000000 72 := by
  refine (archiveSound_iff_headersOk _ _ _ (by decide)).mpr fun _ s hs => ?_
  have hcur : s.cur = 0x10000008 ∨ s.cur = 0x10000048 := by
    refine hs.invariant (fun s => s.cur = 0x10000008 ∨ s.cur = 0x10000048) (.inl rfl) ?_
    rintro u _ v _ _ hu hstep
    obtain ⟨hgo, hv⟩ := archiveStep_cur hstep
    rcases hu with hu | hu
    · rw [hv, hu]
      exact .inr (by decide)
    · rw [hu] at hgo
      exact absurd hgo.1 (by decide)
  rcases hcur with hcur | hcur
  · rw [hcur]
    unfold HeaderOk
    decide
  · rw [hcur]
    exact fun h => absurd h (by decide)

/-- A size of -60 leads back to the header it is in. -/
theorem not_archiveSound_negative :
    ¬ArchiveSound (fileAt 0x10000000 (oneMember "a.o/            " "-60       ")) 0x10000000 72 := by
  intro hsound
  obtain ⟨-, hiter⟩ := hsound (by decide)
  have hgo : Continues (fileAt 0x10000000 (oneMember "a.o/            " "-60       "))
      (0x10000000 + 72) (startArchive 0x10000000).cur := by
    unfold Continues
    decide
  obtain ⟨s', c, hs', hcur, -⟩ := archiveIteration_some hgo
  have hlt := (hiter _ (.refl trivial) s' c hs').1
  rw [hcur] at hlt
  exact absurd hlt (by decide)

end CosmoRuby.Plugin