import CosmoRuby.Mmap.Munmap

/-!
# The table and the address space

The abstract address space says of every address whether it is mapped, and how. The table of
`libc/intrin/mmap.c` follows it through any sequence of successful `mmap`, `munmap` and `mprotect`.
-/

namespace CosmoRuby.Mmap

open CosmoRuby.Lib

abbrev PageMap := Nat → Option Attr

inductive Call where
  /-- `res` is the address the call returned. -/
  | mmap (res size prot : Nat) (flags : Flags) (off : Int)
  | munmap (addr size : Nat)
  | mprotect (addr size prot : Nat)
deriving Repr

/-- The entry of a new mapping: `off` is zero for anonymous memory, `prot` is a `short`. -/
def newMap (res size prot : Nat) (flags : Flags) (off : Int) : Map where
  addr := res
  size := size
  off := if flags.anonymous then 0 else off
  flags := flags
  prot := prot % 2 ^ 16

def fixedMode (flags : Flags) : Bool := flags.fixed && !flags.noreplace

def Call.track (ps : Nat) : Call → Maps → Maps
  | .mmap res size prot flags off, t =>
    mapsInsert ps (newMap res size prot flags off)
      (if fixedMode flags then muntrack ps res size t else t)
  | .munmap addr size, t => muntrack ps addr size t
  | .mprotect addr size prot, t => Mmap.mprotect ps addr size prot t

def Call.apply (ps : Nat) : Call → PageMap → PageMap
  | .mmap res size prot flags off, space => fun x =>
    if res ≤ x ∧ x < res + roundUp ps size then
      some
        { prot := prot % 8
          flags := mapsFungeFlags flags
          off := if flags.anonymous then none else some (off + ((x - res : Nat) : Int)) }
    else space x
  | .munmap addr size, space => fun x =>
    if addr ≤ x ∧ x < addr + roundUp ps size then none else space x
  | .mprotect addr size prot, space => fun x =>
    (space x).map (protectAttr addr (addr + roundUp ps size) prot x)

/-- What is known of a call that succeeded. The kernel gives pages that are not in use unless
`MAP_FIXED` asks for others, never the last page of the address space; it refuses to change the
protection up to there, and `__maps_unmark` does not return from there. -/
def Call.Succeeds (ps gran : Nat) : Call → PageMap → Prop
  | .mmap res size _ flags _, space =>
    ps ∣ res ∧ 0 < size ∧ res + roundUp ps size < 2 ^ 64 ∧
      (fixedMode flags = true ∨ ∀ x, res ≤ x → x < res + roundUp ps size → space x = none)
  | .munmap addr size, _ => gran ∣ addr ∧ 0 < size ∧ addr + roundUp ps size < 2 ^ 64
  | .mprotect addr size prot, _ => ps ∣ addr ∧ prot < 8 ∧ addr + roundUp ps size < 2 ^ 64

/-- The table is in order and says of each address what holds. -/
structure Mirrors (ps : Nat) (t : Maps) (space : PageMap) : Prop where
  valid : t.Valid ps
  agrees : ∀ x a, space x = some a ↔ Denotes ps t.maps x a

section

variable {ps gran x : Nat} {m k : Map} {t : Maps} {space : PageMap}

theorem Mirrors.none_iff (h : Mirrors ps t space) : space x = none ↔ ¬ Tracked ps t x := by
  rw [tracked_iff_denotes, Option.eq_none_iff_forall_ne_some, not_exists]
  exact forall_congr' fun a => not_congr (h.agrees x a)

theorem apart_of_untracked (hps : 0 < ps) (ht : Ordered ps t.maps) (hm : m.Ok ps)
    (hfree : ∀ x, m.Holds ps x → ¬ Tracked ps t x) (hk : k ∈ t.maps) : Apart ps k m := by
  by_contra hno
  have hkpos := (ht.ok k hk).lt_stop hps
  have hmpos := hm.lt_stop hps
  unfold Apart at hno
  refine hfree (max k.addr m.addr) ?_ ⟨k, hk, ?_⟩ <;>
  · unfold Map.Holds
    omega

theorem attr_newMap (res size prot : Nat) (flags : Flags) (off : Int) (x : Nat) :
    (newMap res size prot flags off).attr x =
      { prot := prot % 8
        flags := mapsFungeFlags flags
        off := if flags.anonymous then none else some (off + ((x - res : Nat) : Int)) } := by
  have hprot : prot % 2 ^ 16 % 8 = prot % 8 := by omega
  unfold Map.attr newMap
  by_cases hanon : flags.anonymous
  · simp only [hanon, hprot, if_true]
  · simp only [hanon, hprot, Bool.false_eq_true, if_false]

/-! ## One call -/

section

variable (hps : 0 < ps) (h64 : ps ∣ 2 ^ 64)
include hps h64

theorem mirrors_mmap (h : Mirrors ps t space) {res size prot : Nat} {flags : Flags} {off : Int}
    (hok : (Call.mmap res size prot flags off).Succeeds ps gran space) :
    Mirrors ps ((Call.mmap res size prot flags off).track ps t)
      ((Call.mmap res size prot flags off).apply ps space) := by
  obtain ⟨hres, hsize, hend, hfree⟩ := hok
  have hm : (newMap res size prot flags off).Ok ps := ⟨hsize, hres, hend⟩
  have hin : ∀ x, (newMap res size prot flags off).Holds ps x ↔
      res ≤ x ∧ x < res + roundUp ps size := fun x => Iff.rfl
  -- what is in the table when the entry is inserted
  have hbefore : ∃ t₀ : Maps,
      (if fixedMode flags then muntrack ps res size t else t) = t₀ ∧ t₀.Valid ps ∧
        ∀ x a, Denotes ps t₀.maps x a ↔
          Denotes ps t.maps x a ∧ ¬ (res ≤ x ∧ x < res + roundUp ps size) := by
    by_cases hfixed : fixedMode flags
    · refine ⟨_, if_pos hfixed, valid_muntrack hps h64 hres size h.valid, fun x a => ?_⟩
      rw [denotes_muntrack hps h64 hres size h.valid, rangeEnd_of_lt hend]
    · refine ⟨_, if_neg hfixed, h.valid, fun x a => ⟨fun hx => ⟨hx, fun hr => ?_⟩, And.left⟩⟩
      have hnone := (hfree.resolve_left hfixed) x hr.1 hr.2
      rw [(h.agrees x a).mpr hx] at hnone
      cases hnone
  obtain ⟨t₀, ht₀, hvalid, hdenotes⟩ := hbefore
  have hapart : ∀ k ∈ t₀.maps, Apart ps k (newMap res size prot flags off) := by
    intro k hk
    refine apart_of_untracked hps hvalid.ordered hm (fun x hx htr => ?_) hk
    obtain ⟨a, ha⟩ := tracked_iff_denotes.mp htr
    exact ((hdenotes x a).mp ha).2 ((hin x).mp hx)
  show Mirrors ps (mapsInsert ps _ (if fixedMode flags then muntrack ps res size t else t)) _
  rw [ht₀]
  refine ⟨valid_mapsInsert hps hvalid hm hapart, fun x a => ?_⟩
  rw [denotes_mapsInsert hps hvalid.ordered hm hapart, hdenotes, attr_newMap, hin]
  show (if res ≤ x ∧ x < res + roundUp ps size then some _ else space x) = some a ↔ _
  split <;> rename_i hx
  · rw [Option.some.injEq]
    exact ⟨fun ha => Or.inr ⟨hx, ha⟩, fun ha => ha.elim (fun hno => absurd hx hno.2) And.right⟩
  · rw [h.agrees x a]
    exact ⟨fun ha => Or.inl ⟨ha, hx⟩, fun ha => ha.elim And.left fun hno => absurd hno.1 hx⟩

theorem mirrors_mprotect (h : Mirrors ps t space)
    {addr size prot : Nat} (hok : (Call.mprotect addr size prot).Succeeds ps gran space) :
    Mirrors ps ((Call.mprotect addr size prot).track ps t)
      ((Call.mprotect addr size prot).apply ps space) := by
  obtain ⟨haddr, -, hend⟩ := hok
  refine ⟨valid_mprotect hps h64 haddr size prot h.valid, fun x a => ?_⟩
  show (space x).map _ = some a ↔ Denotes ps (mprotect ps addr size prot t).maps x a
  rw [Option.map_eq_some_iff]
  by_cases hsize : size = 0
  · -- an empty range changes nothing
    have hempty : ∀ b, protectAttr addr (addr + roundUp ps size) prot x b = b := by
      intro b
      have hzero : roundUp ps size = 0 := by
        rw [hsize]
        exact roundUp_of_dvd hps (Nat.dvd_zero ps)
      refine if_neg ?_
      omega
    unfold mprotect
    rw [if_pos hsize]
    simp only [hempty, exists_eq_right]
    exact h.agrees x a
  · rw [denotes_mprotect hps h64 haddr hsize prot h.valid, rangeEnd_of_lt hend]
    exact exists_congr fun b => and_congr_left fun _ => h.agrees x b

theorem mirrors_munmap (hgran : ps ∣ gran) (h : Mirrors ps t space) {addr size : Nat}
    (hok : (Call.munmap addr size).Succeeds ps gran space) :
    Mirrors ps ((Call.munmap addr size).track ps t) ((Call.munmap addr size).apply ps space) := by
  obtain ⟨haddr, -, hlt⟩ := hok
  have hdvd := Nat.dvd_trans hgran haddr
  refine ⟨valid_muntrack hps h64 hdvd size h.valid, fun x a => ?_⟩
  show (if addr ≤ x ∧ x < addr + roundUp ps size then none else space x) = some a ↔
    Denotes ps (muntrack ps addr size t).maps x a
  rw [denotes_muntrack hps h64 hdvd size h.valid, rangeEnd_of_lt hlt]
  split_ifs with hx
  · refine ⟨fun hno => ?_, fun hno => absurd hx hno.2⟩
    cases hno
  · rw [h.agrees x a]
    exact ⟨fun ha => ⟨ha, hx⟩, And.left⟩

theorem mirrors_step (hgran : ps ∣ gran) (h : Mirrors ps t space) (c : Call)
    (hok : c.Succeeds ps gran space) : Mirrors ps (c.track ps t) (c.apply ps space) := by
  cases c with
  | mmap res size prot flags off => exact mirrors_mmap hps h64 h hok
  | munmap addr size => exact mirrors_munmap hps h64 hgran h hok
  | mprotect addr size prot => exact mirrors_mprotect hps h64 h hok

end

end

/-! ## Sequences of calls -/

def AllSucceed (ps gran : Nat) : List Call → PageMap → Prop
  | [], _ => True
  | c :: cs, space => c.Succeeds ps gran space ∧ AllSucceed ps gran cs (c.apply ps space)

def AllMirror (ps : Nat) : List Call → Maps → PageMap → Prop
  | [], t, space => Mirrors ps t space
  | c :: cs, t, space =>
    Mirrors ps t space ∧ AllMirror ps cs (c.track ps t) (c.apply ps space)

/-- The table mirrors the address space all along. -/
theorem allMirror_of_allSucceed {ps gran : Nat} (hps : 0 < ps) (h64 : ps ∣ 2 ^ 64)
    (hgran : ps ∣ gran) (cs : List Call) {t : Maps} {space : PageMap} (h : Mirrors ps t space)
    (hok : AllSucceed ps gran cs space) : AllMirror ps cs t space := by
  induction cs generalizing t space with
  | nil => exact h
  | cons c cs ih => exact ⟨h, ih (mirrors_step hps h64 hgran h c hok.1) hok.2⟩

def noMaps : Maps where
  maps := []
  count := 0
  pages := 0

theorem mirrors_noMaps (ps : Nat) : Mirrors ps noMaps fun _ => none := by
  refine ⟨⟨⟨fun _ h => absurd h List.not_mem_nil, List.Pairwise.nil⟩, rfl, rfl⟩, fun x a => ?_⟩
  refine ⟨fun h => ?_, fun h => absurd h denotes_nil⟩
  cases h

/-- Two mappings, the one made to replace half of the other; half of it is then made read-only, and
the other half is unmapped. -/
theorem allMirror_replace : AllMirror 4096
    [.mmap 65536 8192 3 anonymousFlags 0,
      .mmap 69632 8192 1 { anonymousFlags with fixed := true } 0,
      .mprotect 69632 4096 1, .munmap 73728 4096] noMaps fun _ => none :=
  allMirror_of_allSucceed (by decide) (by decide) (Nat.dvd_refl 4096) _ (mirrors_noMaps 4096)
    ⟨⟨by decide, by decide, by decide, Or.inr fun _ _ _ => rfl⟩,
      ⟨by decide, by decide, by decide, Or.inl rfl⟩, ⟨by decide, by decide, by decide⟩,
      ⟨by decide, by decide, by decide⟩, trivial⟩

end CosmoRuby.Mmap