import Mathlib

/-!
# POSIX record locks on Windows

`libc/calls/flocks.c` keeps a list of the byte ranges the process has locked. Windows only takes
back the ranges it was given, so that a request that overlaps older locks deletes them, resurrects
the shards outside its range and then locks the range itself. POSIX knows of no ranges: a request
sets the lock type of each byte.
-/

namespace CosmoRuby.Windows

open List

inductive LockType where
  | rdlck
  | wrlck
deriving DecidableEq, Repr

structure FileLock where
  handle : Int
  dev : Int
  ino : Int
  off : Int
  len : Int
  type : LockType
deriving DecidableEq, Repr

inductive RequestType where
  | lock (type : LockType)
  | unlck
  | other
deriving DecidableEq, Repr

inductive Whence where
  | set
  | cur
  | fromEnd
  | other
deriving DecidableEq, Repr

structure Flock where
  type : RequestType
  whence : Whence
  start : Int
  len : Int
deriving DecidableEq, Repr

/-- What `__flocks_fcntl` reads of the file descriptor: its file, position and file size. -/
structure LockFd where
  handle : Int
  dev : Int
  ino : Int
  pointer : Int
  fileSize : Int
deriving DecidableEq, Repr

def protectedBytes : Int := 0x7fffffff00000000

inductive Status where
  | ok
  | einval
  | ebadf
  | enomem
deriving DecidableEq, Repr

/-! ## `__flocks_setlk` -/

def flocksOverlaps (fl : FileLock) (off len : Int) : Bool :=
  decide (max off fl.off < min (off + len) (fl.off + fl.len))

def sameFile (fl : FileLock) (dev ino : Int) : Bool := decide (fl.dev = dev) && decide (fl.ino = ino)

def envelops (dev ino off len : Int) (type : LockType) (fl : FileLock) : Bool :=
  sameFile fl dev ino && decide (fl.type = type) && decide (fl.off ≤ off) &&
    decide (off + len ≤ fl.off + fl.len)

def leftShard (handle off : Int) (fl : FileLock) : List FileLock :=
  if fl.off < off then [{ fl with handle := handle, len := off - fl.off }] else []

def rightShard (handle off len : Int) (fl : FileLock) : List FileLock :=
  if off + len < fl.off + fl.len then
    [{ fl with
      handle := handle
      off := off + len
      len := (fl.off + fl.len) - (off + len) }]
  else []

/-- What the planning loop ends with. A list is written from its first element to its last, which
the pointer of the circular list points to. -/
structure Plan where
  done : Bool
  table : List FileLock
  deleteLocks : List FileLock
  resurrectLocks : List FileLock
  allocs : Nat

/-- The planning loop over the table. `alloc n` says whether the `n`th allocation succeeds. -/
def planLoop (alloc : Nat → Bool) (fd : LockFd) (off len : Int) :
    List FileLock → List FileLock → List FileLock → List FileLock → Nat → Plan
  | [], kept, deleted, resurrect, n => ⟨true, kept, deleted, resurrect, n⟩
  | fl :: rest, kept, deleted, resurrect, n =>
    if !sameFile fl fd.dev fd.ino || !flocksOverlaps fl off len then
      planLoop alloc fd off len rest (kept ++ [fl]) deleted resurrect n
    else if decide (fl.off < off) && !alloc n then
      ⟨false, kept ++ rest, fl :: deleted, resurrect, n⟩
    else if decide (off + len < fl.off + fl.len) &&
        !alloc (n + (leftShard fd.handle off fl).length) then
      ⟨false, kept ++ rest, fl :: deleted, leftShard fd.handle off fl ++ resurrect, n⟩
    else
      planLoop alloc fd off len rest kept (fl :: deleted)
        (rightShard fd.handle off len fl ++ leftShard fd.handle off fl ++ resurrect)
        (n + (leftShard fd.handle off fl).length + (rightShard fd.handle off len fl).length)

/-- `__flocks_add(delete_locks)`: the pointer of a circular list is its last element, so that the
list is spliced in turned by one. -/
def addList (list table : List FileLock) : List FileLock :=
  list.getLast?.toList ++ list.dropLast ++ table

def resurrectAll (resurrect table : List FileLock) : List FileLock := resurrect.reverse ++ table

def newLock (fd : LockFd) (off len : Int) (type : LockType) : FileLock where
  handle := fd.handle
  dev := fd.dev
  ino := fd.ino
  off := off
  len := len
  type := type

def requestLocks (fd : LockFd) (off len : Int) : RequestType → List FileLock
  | .lock type => [newLock fd off len type]
  | .unlck => []
  | .other => []

def isNoop (fd : LockFd) (off len : Int) (table : List FileLock) : RequestType → Bool
  | .lock type => table.any (envelops fd.dev fd.ino off len type)
  | .unlck => false
  | .other => false

def flocksSetlk (alloc : Nat → Bool) (fd : LockFd) (type : RequestType) (off len : Int)
    (table : List FileLock) : Status × List FileLock :=
  if isNoop fd off len table type then (.ok, table)
  else
    let plan := planLoop alloc fd off len table [] [] [] 0
    if plan.done && alloc plan.allocs then
      (.ok, requestLocks fd off len type ++ resurrectAll plan.resurrectLocks plan.table)
    else (.enomem, addList plan.deleteLocks plan.table)

/-! ## `__flocks_fcntl` -/

def bottom (fd : LockFd) : Whence → Option Int
  | .set => some 0
  | .cur => some fd.pointer
  | .fromEnd => some fd.fileSize
  | .other => none

def requestLen (off len : Int) : Int := if len = 0 then protectedBytes - off else len

def requestRange (fd : LockFd) (l : Flock) : Option (Int × Int) :=
  match bottom fd l.whence with
  | none => none
  | some bot =>
    if l.start + bot < -2 ^ 63 ∨ 2 ^ 63 ≤ l.start + bot ∨ l.start + bot < 0 then none
    else if requestLen (l.start + bot) l.len < 0 ∨
        2 ^ 63 ≤ l.start + bot + requestLen (l.start + bot) l.len then none
    else if protectedBytes < l.start + bot + requestLen (l.start + bot) l.len then none
    else some (l.start + bot, requestLen (l.start + bot) l.len)

def flocksFcntl (info : Bool) (alloc : Nat → Bool) (fd : LockFd) (l : Flock) (table : List FileLock) :
    Status × List FileLock :=
  if l.type = .other then (.einval, table)
  -- `GetFileInformationByHandle`, where it is asked
  else if !info then (.ebadf, table)
  else
    match requestRange fd l with
    | none => (.einval, table)
    | some (off, len) => flocksSetlk alloc fd l.type off len table

/-! ## What the table denotes -/

abbrev LockMap := Int → Int → Int → Option LockType

def posixSet (fd : LockFd) (off len : Int) (type : RequestType) (locks : LockMap) : LockMap :=
  fun dev ino x =>
    if dev = fd.dev ∧ ino = fd.ino ∧ off ≤ x ∧ x < off + len then
      match type with
      | .lock ty => some ty
      | .unlck => none
      | .other => locks dev ino x
    else locks dev ino x

def FileLock.Holds (fl : FileLock) (dev ino x : Int) : Prop :=
  fl.dev = dev ∧ fl.ino = ino ∧ fl.off ≤ x ∧ x < fl.off + fl.len

def Separate (a b : FileLock) : Prop :=
  a.dev = b.dev → a.ino = b.ino → a.off + a.len ≤ b.off ∨ b.off + b.len ≤ a.off

def Denoted (table : List FileLock) (dev ino x : Int) (type : LockType) : Prop :=
  ∃ fl ∈ table, fl.Holds dev ino x ∧ fl.type = type

/-- Disjoint entries of positive length that denote the locks. -/
structure Records (table : List FileLock) (locks : LockMap) : Prop where
  pos : ∀ fl ∈ table, 0 < fl.len
  separate : table.Pairwise Separate
  denotes : ∀ dev ino x type, locks dev ino x = some type ↔ Denoted table dev ino x type

section

variable {table table' l l' : List FileLock} {locks : LockMap} {fl k : FileLock} {fd : LockFd}
  {off len dev ino x : Int} {type : LockType} {alloc : Nat → Bool}

instance : Std.Symm Separate := ⟨fun _ _ h hdev hino => (h hdev.symm hino.symm).symm⟩

theorem Denoted.perm (h : l.Perm l') : Denoted l dev ino x type ↔ Denoted l' dev ino x type := by
  unfold Denoted
  simp only [h.mem_iff]

theorem Records.perm (h : Records table locks) (hp : table.Perm table') : Records table' locks := by
  refine ⟨fun fl hfl => h.pos fl (hp.mem_iff.mpr hfl), ?_, fun dev ino x type => ?_⟩
  · exact hp.pairwise h.separate fun hab hdev hino => (hab hdev.symm hino.symm).symm
  · rw [h.denotes, Denoted.perm hp]

/-! ## What is left of a lock -/

def carve (fd : LockFd) (off len : Int) (fl : FileLock) : List FileLock :=
  if !sameFile fl fd.dev fd.ino || !flocksOverlaps fl off len then [fl]
  else rightShard fd.handle off len fl ++ leftShard fd.handle off fl

theorem sameFile_iff : sameFile fl dev ino = true ↔ fl.dev = dev ∧ fl.ino = ino := by
  unfold sameFile
  rw [Bool.and_eq_true, decide_eq_true_eq, decide_eq_true_eq]

theorem apart_iff : (!sameFile fl fd.dev fd.ino || !flocksOverlaps fl off len) = true ↔
    (fl.dev = fd.dev → fl.ino = fd.ino →
      min (off + len) (fl.off + fl.len) ≤ max off fl.off) := by
  have hover : flocksOverlaps fl off len = true ↔
      max off fl.off < min (off + len) (fl.off + fl.len) := by
    unfold flocksOverlaps
    rw [decide_eq_true_eq]
  rw [Bool.or_eq_true, Bool.not_eq_true', Bool.not_eq_true', ← Bool.not_eq_true,
    ← Bool.not_eq_true, sameFile_iff, hover]
  constructor
  · rintro (h | h) hdev hino
    · exact absurd ⟨hdev, hino⟩ h
    · exact Int.not_lt.mp h
  · intro h
    by_cases hsame : fl.dev = fd.dev ∧ fl.ino = fd.ino
    · exact Or.inr (Int.not_lt.mpr (h hsame.1 hsame.2))
    · exact Or.inl hsame

theorem overlaps_of_not_apart (hap : ¬ (!sameFile fl fd.dev fd.ino || !flocksOverlaps fl off len) = true) :
    fl.dev = fd.dev ∧ fl.ino = fd.ino ∧ max off fl.off < min (off + len) (fl.off + fl.len) := by
  by_contra hno
  refine hap (apart_iff.mpr fun hdev hino => ?_)
  exact Int.not_lt.mp fun hlt => hno ⟨hdev, hino, hlt⟩

theorem mem_carve (hlen : 0 ≤ len) (hpos : 0 < fl.len) (hk : k ∈ carve fd off len fl) :
    k.dev = fl.dev ∧ k.ino = fl.ino ∧ k.type = fl.type ∧ 0 < k.len ∧ fl.off ≤ k.off ∧
      k.off + k.len ≤ fl.off + fl.len ∧
      (fl.dev = fd.dev → fl.ino = fd.ino → k.off + k.len ≤ off ∨ off + len ≤ k.off ∨
        min (off + len) (fl.off + fl.len) ≤ max off fl.off ∧ k = fl) := by
  unfold carve at hk
  split_ifs at hk with hap
  · rw [List.mem_singleton.mp hk]
    refine ⟨rfl, rfl, rfl, hpos, Int.le_refl _, Int.le_refl _, fun hdev hino => ?_⟩
    exact Or.inr (Or.inr ⟨apart_iff.mp hap hdev hino, rfl⟩)
  · obtain ⟨-, -, hover⟩ := overlaps_of_not_apart hap
    rcases List.mem_append.mp hk with hk | hk
    · obtain ⟨hright, hk⟩ := mem_ite_nil_right.mp hk
      rw [List.mem_singleton.mp hk]
      dsimp only
      refine ⟨rfl, rfl, rfl, by omega, by omega, by omega, fun _ _ => Or.inr (Or.inl ?_)⟩
      omega
    · obtain ⟨hleft, hk⟩ := mem_ite_nil_right.mp hk
      rw [List.mem_singleton.mp hk]
      dsimp only
      refine ⟨rfl, rfl, rfl, by omega, by omega, by omega, fun _ _ => Or.inl ?_⟩
      omega

theorem separate_carve (hlen : 0 ≤ len) : (carve fd off len fl).Pairwise Separate := by
  unfold carve
  split_ifs with hap
  · exact pairwise_singleton _ _
  · unfold rightShard leftShard
    refine List.pairwise_append.mpr ⟨?_, ?_, ?_⟩
    · split
      · exact pairwise_singleton _ _
      · exact List.Pairwise.nil
    · split
      · exact pairwise_singleton _ _
      · exact List.Pairwise.nil
    · intro a ha b hb _ _
      rw [List.mem_singleton.mp (mem_ite_nil_right.mp ha).2, List.mem_singleton.mp (mem_ite_nil_right.mp hb).2]
      dsimp only
      omega

theorem denoted_carve (hlen : 0 ≤ len) (hpos : 0 < fl.len) :
    Denoted (carve fd off len fl) dev ino x type ↔ (fl.Holds dev ino x ∧ fl.type = type) ∧
      ¬ (dev = fd.dev ∧ ino = fd.ino ∧ off ≤ x ∧ x < off + len) := by
  constructor
  · rintro ⟨k, hk, ⟨hdev, hino, hlow, hhigh⟩, htype⟩
    obtain ⟨h₁, h₂, h₃, -, h₄, h₅, h₆⟩ := mem_carve hlen hpos hk
    refine ⟨⟨⟨h₁ ▸ hdev, h₂ ▸ hino, by omega, by omega⟩, h₃ ▸ htype⟩, ?_⟩
    rintro ⟨hd, hi, hlo, hhi⟩
    rcases h₆ (by rw [← h₁, hdev, hd]) (by rw [← h₂, hino, hi]) with h | h | ⟨h, rfl⟩ <;> omega
  · rintro ⟨⟨⟨hdev, hino, hlow, hhigh⟩, htype⟩, hout⟩
    unfold carve
    split_ifs with hap
    · exact ⟨fl, List.mem_singleton.mpr rfl, ⟨hdev, hino, hlow, hhigh⟩, htype⟩
    · obtain ⟨hd, hi, -⟩ := overlaps_of_not_apart hap
      by_cases hx : x < off
      · refine ⟨_, mem_append_right _ (mem_ite_nil_right.mpr ⟨hlow.trans_lt hx, List.mem_singleton.mpr rfl⟩),
          ⟨hdev, hino, hlow, ?_⟩, htype⟩
        dsimp only
        omega
      · have hright : off + len ≤ x := by
          by_contra hno
          exact hout ⟨by rw [← hdev, hd], by rw [← hino, hi], by omega, by omega⟩
        refine ⟨_, mem_append_left _ (mem_ite_nil_right.mpr ⟨hright.trans_lt hhigh, List.mem_singleton.mpr rfl⟩),
          ⟨hdev, hino, hright, ?_⟩, htype⟩
        dsimp only
        omega

/-! ## The planning loop -/

theorem planLoop_spec (rest kept deleted resurrect : List FileLock) (n : Nat) :
    let plan := planLoop alloc fd off len rest kept deleted resurrect n
    (plan.deleteLocks ++ plan.table).Perm (deleted ++ kept ++ rest) ∧
      (plan.done = true → (plan.resurrectLocks ++ plan.table).Perm
        (resurrect ++ kept ++ rest.flatMap (carve fd off len))) := by
  have hmove : ∀ (fl : FileLock) (deleted kept rest : List FileLock),
      (fl :: deleted ++ (kept ++ rest)).Perm (deleted ++ kept ++ fl :: rest) := by
    refine fun fl deleted kept rest => List.perm_iff_count.mpr fun e => ?_
    simp only [count_append, count_cons]
    omega
  fun_induction planLoop alloc fd off len rest kept deleted resurrect n with
  | case1 kept deleted resurrect n => simp
  | case2 fl rest kept deleted resurrect n hap ih =>
    have hcarve : carve fd off len fl = [fl] := if_pos hap
    rw [flatMap_cons, hcarve]
    simpa only [append_assoc, singleton_append] using ih
  | case3 fl rest kept deleted resurrect n | case4 fl rest kept deleted resurrect n =>
    exact ⟨hmove fl deleted kept rest, nofun⟩
  | case5 fl rest kept deleted resurrect n hap _ _ ih =>
    have hcarve : carve fd off len fl =
        rightShard fd.handle off len fl ++ leftShard fd.handle off fl := if_neg hap
    refine ⟨ih.1.trans ?_, fun h => (ih.2 h).trans ?_⟩
    · rw [append_assoc]
      exact hmove fl deleted kept rest
    · rw [flatMap_cons, hcarve]
      -- the shards go from the one list to the other
      refine List.perm_iff_count.mpr fun e => ?_
      simp only [count_append]
      omega

theorem perm_addList (l l' : List FileLock) : (addList l l').Perm (l ++ l') := by
  unfold addList
  cases h : l.getLast? with
  | none =>
    rw [List.getLast?_eq_none_iff.mp h]
    exact List.Perm.refl _
  | some y =>
    obtain ⟨front, rfl⟩ := List.getLast?_eq_some_iff.mp h
    rw [dropLast_concat]
    refine List.perm_iff_count.mpr fun e => ?_
    simp only [Option.toList_some, count_append]
    omega

/-! ## One request -/

theorem records_lock (h : Records l (posixSet fd off len .unlck locks)) (hlen : 0 < len)
    (ty : LockType) : Records (newLock fd off len ty :: l) (posixSet fd off len (.lock ty) locks) := by
  have hclear : ∀ k ∈ l, Separate (newLock fd off len ty) k := by
    intro k hk hdev hino
    have hkpos := h.pos k hk
    by_contra hno
    -- a byte of both would be locked and not locked
    have hboth : k.Holds k.dev k.ino (max off k.off) := by
      refine ⟨rfl, rfl, by omega, ?_⟩
      simp only [newLock] at hno
      omega
    have hsome := (h.denotes _ _ _ _).mpr ⟨k, hk, hboth, rfl⟩
    have hin : k.dev = fd.dev ∧ k.ino = fd.ino ∧ off ≤ max off k.off ∧
        max off k.off < off + len := by
      refine ⟨hdev.symm, hino.symm, by omega, ?_⟩
      simp only [newLock] at hno
      omega
    unfold posixSet at hsome
    rw [if_pos hin] at hsome
    cases hsome
  refine ⟨List.forall_mem_cons.mpr ⟨hlen, h.pos⟩, List.pairwise_cons.mpr ⟨hclear, h.separate⟩,
    fun dev ino x type => ?_⟩
  have hcons : Denoted (newLock fd off len ty :: l) dev ino x type ↔
      ((newLock fd off len ty).Holds dev ino x ∧ ty = type) ∨ Denoted l dev ino x type := by
    unfold Denoted
    rw [exists_mem_cons_iff]
    rfl
  have hrest := h.denotes dev ino x type
  have hnew : (newLock fd off len ty).Holds dev ino x ↔
      dev = fd.dev ∧ ino = fd.ino ∧ off ≤ x ∧ x < off + len := by
    unfold FileLock.Holds newLock
    rw [eq_comm, @eq_comm _ fd.ino]
  rw [hcons, ← hrest, hnew]
  unfold posixSet
  by_cases hin : dev = fd.dev ∧ ino = fd.ino ∧ off ≤ x ∧ x < off + len
  · rw [if_pos hin, if_pos hin]
    simp only [Option.some.injEq]
    exact ⟨fun hty => Or.inl ⟨hin, hty⟩, fun hty => hty.elim And.right fun hno => by cases hno⟩
  · rw [if_neg hin, if_neg hin]
    exact ⟨Or.inr, fun hty => hty.elim (fun hno => absurd hno.1 hin) id⟩

section

variable (h : Records table locks)
include h

theorem records_carve (hlen : 0 ≤ len) :
    Records (table.flatMap (carve fd off len)) (posixSet fd off len .unlck locks) := by
  refine ⟨?_, ?_, fun dev ino x type => ?_⟩
  · intro k hk
    obtain ⟨fl, hfl, hk⟩ := List.mem_flatMap.mp hk
    exact (mem_carve hlen (h.pos fl hfl) hk).2.2.2.1
  · refine List.pairwise_flatMap.mpr ⟨fun fl _ => separate_carve hlen, ?_⟩
    refine h.separate.imp_of_mem fun {a b} ha hb hab p hp q hq hdev hino => ?_
    obtain ⟨h₁, h₂, -, -, h₃, h₄, -⟩ := mem_carve hlen (h.pos a ha) hp
    obtain ⟨k₁, k₂, -, -, k₃, k₄, -⟩ := mem_carve hlen (h.pos b hb) hq
    have := hab (by rw [← h₁, ← k₁, hdev]) (by rw [← h₂, ← k₂, hino])
    omega
  · have hflat : Denoted (table.flatMap (carve fd off len)) dev ino x type ↔
        Denoted table dev ino x type ∧
          ¬ (dev = fd.dev ∧ ino = fd.ino ∧ off ≤ x ∧ x < off + len) := by
      constructor
      · rintro ⟨k, hk, hheld⟩
        obtain ⟨fl, hfl, hk⟩ := List.mem_flatMap.mp hk
        obtain ⟨hfl', hout⟩ := (denoted_carve hlen (h.pos fl hfl)).mp ⟨k, hk, hheld⟩
        exact ⟨⟨fl, hfl, hfl'⟩, hout⟩
      · rintro ⟨⟨fl, hfl, hheld⟩, hout⟩
        obtain ⟨k, hk, hk'⟩ := (denoted_carve hlen (h.pos fl hfl)).mpr ⟨hheld, hout⟩
        exact ⟨k, List.mem_flatMap.mpr ⟨fl, hfl, hk⟩, hk'⟩
    rw [hflat, ← h.denotes]
    unfold posixSet
    split_ifs with hin
    · exact ⟨fun hno => absurd hno (by simp), fun hno => absurd hin hno.2⟩
    · exact (and_iff_left hin).symm

theorem records_noop {request : RequestType} (hnoop : isNoop fd off len table request = true) :
    Records table (posixSet fd off len request locks) := by
  cases request with
  | unlck | other => exact absurd hnoop Bool.false_ne_true
  | lock ty =>
    obtain ⟨fl, hfl, henv⟩ := List.any_eq_true.mp hnoop
    unfold envelops at henv
    simp only [Bool.and_eq_true, decide_eq_true_eq, sameFile_iff] at henv
    obtain ⟨⟨⟨⟨hdev, hino⟩, hty⟩, hlow⟩, hhigh⟩ := henv
    refine ⟨h.pos, h.separate, fun dev ino x type => ?_⟩
    rw [← h.denotes]
    unfold posixSet
    by_cases hin : dev = fd.dev ∧ ino = fd.ino ∧ off ≤ x ∧ x < off + len
    · have hheld : locks dev ino x = some ty := by
        refine (h.denotes dev ino x ty).mpr ⟨fl, hfl, ⟨?_, ?_, by omega, by omega⟩, hty⟩
        · rw [hdev, hin.1]
        · rw [hino, hin.2.1]
      rw [if_pos hin, hheld]
    · rw [if_neg hin]

variable {plan : Plan} (hplan : planLoop alloc fd off len table [] [] [] 0 = plan)
include hplan

theorem records_planned (hlen : 0 ≤ len) (hdone : plan.done = true) :
    Records (resurrectAll plan.resurrectLocks plan.table) (posixSet fd off len .unlck locks) := by
  subst hplan
  refine (records_carve h hlen).perm ?_
  have hperm := (planLoop_spec table [] [] [] 0).2 hdone
  unfold resurrectAll
  exact hperm.symm.trans (List.Perm.append_right _ (reverse_perm _).symm)

theorem records_oom : Records (addList plan.deleteLocks plan.table) locks := by
  subst hplan
  exact h.perm ((perm_addList _ _).trans (planLoop_spec table [] [] [] 0).1).symm

end

theorem planLoop_empty (rest kept deleted resurrect : List FileLock) (n : Nat) :
    planLoop alloc fd off 0 rest kept deleted resurrect n =
      ⟨true, kept ++ rest, deleted, resurrect, n⟩ := by
  induction rest generalizing kept with
  | nil =>
    rw [append_nil]
    rfl
  | cons fl rest ih =>
    have hap : (!sameFile fl fd.dev fd.ino || !flocksOverlaps fl off 0) = true := by
      refine apart_iff.mpr fun _ _ => ?_
      omega
    unfold planLoop
    rw [if_pos hap, ih, append_assoc]
    rfl

theorem requestRange_nonneg {l : Flock} (h : requestRange fd l = some (off, len)) : 0 ≤ len := by
  unfold requestRange at h
  cases hbot : bottom fd l.whence with
  | none =>
    rw [hbot] at h
    cases h
  | some bot =>
    rw [hbot] at h
    simp only [Option.ite_none_left_eq_some] at h
    obtain ⟨hoff, hneg, hprot, heq⟩ := h
    obtain ⟨-, rfl⟩ := Prod.mk.inj (Option.some.inj heq)
    omega

end

/-! ## Sequences of requests -/

structure LockCall where
  info : Bool
  alloc : Nat → Bool
  fd : LockFd
  flock : Flock

def LockCall.posix (c : LockCall) (status : Status) (locks : LockMap) : LockMap :=
  match requestRange c.fd c.flock with
  | none => locks
  | some (off, len) => if status = .ok then posixSet c.fd off len c.flock.type locks else locks

def LockCall.run (c : LockCall) (table : List FileLock) : Status × List FileLock :=
  flocksFcntl c.info c.alloc c.fd c.flock table

/-- The request does not lock the empty range at the end of what may be locked; unless it is a
noop there, or there is no memory for it. -/
def LockCall.Proper (c : LockCall) (table : List FileLock) : Prop :=
  ∀ ty off, c.info = true → c.flock.type = .lock ty → requestRange c.fd c.flock = some (off, 0) →
    isNoop c.fd off 0 table (.lock ty) = true ∨ c.alloc 0 = false

section

variable {table : List FileLock} {locks : LockMap} {fd : LockFd} {off len : Int}
  {alloc : Nat → Bool}

/-- The table after a request is as POSIX has it, if what the request adds is. -/
theorem setlk_planned {request : RequestType} (h : Records table locks) (hlen : 0 ≤ len)
    (hnoop : ¬ isNoop fd off len table request = true)
    (hadd : ∀ {l}, Records l (posixSet fd off len .unlck locks) →
      Records (requestLocks fd off len request ++ l) (posixSet fd off len request locks)) :
    Records (flocksSetlk alloc fd request off len table).2
      (if (flocksSetlk alloc fd request off len table).1 = .ok then
        posixSet fd off len request locks else locks) := by
  unfold flocksSetlk
  rw [if_neg hnoop]
  generalize hplan : planLoop alloc fd off len table [] [] [] 0 = plan
  by_cases hdone : (plan.done && alloc plan.allocs) = true
  · simp only [if_pos hdone, if_true]
    exact hadd (records_planned h hplan hlen (Bool.and_eq_true _ _ ▸ hdone).1)
  · simp only [if_neg hdone, reduceCtorEq, if_false]
    exact records_oom h hplan

theorem setlk_lock_iff (h : Records table locks) (hlen : 0 ≤ len) (ty : LockType) :
    Records (flocksSetlk alloc fd (.lock ty) off len table).2
      (if (flocksSetlk alloc fd (.lock ty) off len table).1 = .ok then
        posixSet fd off len (.lock ty) locks else locks) ↔
      (len = 0 → isNoop fd off len table (.lock ty) = true ∨ alloc 0 = false) := by
  by_cases hnoop : isNoop fd off len table (.lock ty) = true
  · simp only [flocksSetlk, if_pos hnoop, if_true]
    exact iff_of_true (records_noop h hnoop) fun _ => Or.inl hnoop
  by_cases hzero : len = 0
  · subst hzero
    simp only [flocksSetlk, if_neg hnoop, planLoop_empty, Bool.true_and]
    by_cases halloc : alloc 0 = true
    · -- the entry has length zero
      simp only [if_pos halloc, if_true]
      refine iff_of_false (fun hrec => ?_) (fun hno => ?_)
      · exact absurd (hrec.pos _ mem_cons_self) (Int.lt_irrefl 0)
      · rcases hno trivial with hno | hno
        · exact hnoop hno
        · exact absurd (halloc.symm.trans hno) (by decide)
    · simp only [if_neg halloc, reduceCtorEq, if_false]
      refine iff_of_true ?_ fun _ => Or.inr (Bool.not_eq_true _ ▸ halloc)
      exact h
  · refine iff_of_true (setlk_planned h hlen hnoop fun hl => ?_) fun hz => absurd hz hzero
    exact records_lock hl (by omega) ty

theorem records_run_iff (h : Records table locks) (c : LockCall) :
    Records (c.run table).2 (c.posix (c.run table).1 locks) ↔ c.Proper table := by
  obtain ⟨info, alloc, fd, l⟩ := c
  unfold LockCall.run LockCall.posix LockCall.Proper flocksFcntl
  cases info
  · refine iff_of_true ?_ fun _ _ hno => nomatch hno
    by_cases hother : l.type = .other <;> cases requestRange fd l <;> simpa [hother] using h
  simp only [Bool.not_true, Bool.false_eq_true, if_false, forall_const]
  cases hrange : requestRange fd l with
  | none =>
    have hsame : Records (if l.type = .other then (Status.einval, table)
        else (Status.einval, table)).2 locks := by
      split <;> exact h
    refine iff_of_true hsame fun ty off _ hno => ?_
    cases hno
  | some range =>
    obtain ⟨off, len⟩ := range
    have hlen := requestRange_nonneg hrange
    simp only [Option.some.injEq, Prod.mk.injEq]
    cases htype : l.type with
    | other =>
      simp only [if_true, reduceCtorEq, if_false]
      exact iff_of_true h fun ty off' hno => absurd hno (by simp)
    | unlck =>
      simp only [reduceCtorEq, if_false]
      exact iff_of_true (setlk_planned h hlen Bool.false_ne_true id) fun ty off' hno => absurd hno (by simp)
    | lock ty =>
      simp only [reduceCtorEq, if_false, RequestType.lock.injEq]
      rw [setlk_lock_iff h hlen ty]
      constructor
      · rintro hcond ty' off' rfl ⟨rfl, hz⟩
        have := hcond hz
        rwa [hz] at this
      · intro hcond hz
        have := hcond ty off rfl ⟨rfl, hz⟩
        rwa [← hz] at this

end

def AllRecord : List LockCall → List FileLock → LockMap → Prop
  | [], table, locks => Records table locks
  | c :: cs, table, locks =>
    Records table locks ∧ AllRecord cs (c.run table).2 (c.posix (c.run table).1 locks)

def AllProper : List LockCall → List FileLock → Prop
  | [], _ => True
  | c :: cs, table => c.Proper table ∧ AllProper cs (c.run table).2

theorem AllRecord.start {cs : List LockCall} {table : List FileLock} {locks : LockMap}
    (h : AllRecord cs table locks) : Records table locks := by
  cases cs with
  | nil => exact h
  | cons c cs => exact h.1

/-- The table records the POSIX locks all along exactly if no request locks the empty range at the
end. -/
theorem allRecord_iff_allProper (cs : List LockCall) {table : List FileLock} {locks : LockMap}
    (h : Records table locks) : AllRecord cs table locks ↔ AllProper cs table := by
  induction cs generalizing table locks with
  | nil => exact iff_of_true h trivial
  | cons c cs ih =>
    have hstep := records_run_iff h c
    constructor
    · rintro ⟨-, hrest⟩
      have hnext := hrest.start
      exact ⟨hstep.mp hnext, (ih hnext).mp hrest⟩
    · rintro ⟨hproper, hrest⟩
      exact ⟨h, (ih (hstep.mpr hproper)).mpr hrest⟩

theorem records_nil : Records [] fun _ _ _ => none := by
  refine ⟨fun _ h => absurd h not_mem_nil, List.Pairwise.nil, fun dev ino x type => ?_⟩
  refine iff_of_false (fun h => ?_) ?_
  · cases h
  · rintro ⟨fl, hfl, -⟩
    exact absurd hfl not_mem_nil

def someFd : LockFd where
  handle := 4
  dev := 1
  ino := 1
  pointer := 0
  fileSize := 0

def lockAtEnd : LockCall where
  info := true
  alloc := fun _ => true
  fd := someFd
  flock := ⟨.lock .wrlck, .set, protectedBytes, 0⟩

/-- The request succeeds and leaves an entry of length zero. -/
theorem lockAtEnd_empty_entry :
    lockAtEnd.run [] = (.ok, [newLock someFd protectedBytes 0 .wrlck]) ∧
      ¬ AllRecord [lockAtEnd] [] fun _ _ _ => none := by
  have hrun : lockAtEnd.run [] = (.ok, [newLock someFd protectedBytes 0 .wrlck]) := by decide
  refine ⟨hrun, fun h => ?_⟩
  have hlast : Records (lockAtEnd.run []).2 _ := h.2
  rw [hrun] at hlast
  exact absurd (hlast.pos _ mem_cons_self) (Int.lt_irrefl 0)

def lockMiddle : List LockCall :=
  [⟨true, fun _ => true, someFd, ⟨.lock .rdlck, .set, 0, 100⟩⟩,
    ⟨true, fun _ => true, someFd, ⟨.lock .wrlck, .set, 40, 20⟩⟩]

theorem allRecord_lockMiddle : AllRecord lockMiddle [] fun _ _ _ => none :=
  (allRecord_iff_allProper lockMiddle records_nil).mpr
    ⟨fun _ _ _ _ h => (by cases h), fun _ _ _ _ h => (by cases h), trivial⟩

end CosmoRuby.Windows
