import CosmoRuby.Mmap.Operations

/-!
# What `munmap` gives back

`__munmap` takes the range out of the table and passes to `sys_munmap` the entries it removed and
the parts it took off the entries it kept. The latter are linked through `temp`, but each pass
makes the list begin at `temp[0]`, so that the second element of `temp` is never reached.
-/

namespace CosmoRuby.Mmap

open CosmoRuby.Lib List

/-- The list `untracked`: `temp[ti].freed = *untracked; *untracked = temp`. Its head is `temp[0]`
after every pass, and `temp[0].freed` was set when the list was empty. -/
def untrackedList (temp : List Range) : List Range := temp.take 1

/-- The calls of `sys_munmap` in `__maps_destroy_all`, for `untracked` and then for `deleted`. -/
def mapsDestroyAll (temp : List Range) (deleted : List Map) : List Range :=
  untrackedList temp ++ deleted.map fun m => ⟨m.addr, m.size⟩

/-- `__maps_unmark` goes from page to page while it is below `addr + size`. Behind the last page of
the address space it is at zero again, and does not return. -/
def unmarkReturns (ps addr size : Nat) : Bool := addr + roundUp ps size < 2 ^ 64

/-- `__munmap`, with the entry for a hole allocated: the table afterwards and what is passed to
`sys_munmap`; nothing for `EINVAL` and for a call that does not return. -/
def munmap (ps gran addr size : Nat) (t : Maps) : Option (Maps × List Range) :=
  if addr % gran ≠ 0 ∨ size = 0 ∨ (addr + size) % 2 ^ 64 < size then none
  else if unmarkReturns ps addr size then
    some (muntrack ps addr size t,
      mapsDestroyAll (muntrackTemp ps addr size t) (muntrackDeleted ps addr size t))
  else none

def Range.Holds (ps : Nat) (c : Range) (x : Nat) : Prop :=
  c.addr ≤ x ∧ x < c.addr + roundUp ps c.size

def Tracked (ps : Nat) (t : Maps) (x : Nat) : Prop := ∃ m ∈ t.maps, m.Holds ps x

/-- The kernel is given the tracked pages of the range, and the others stay in the table. -/
structure GivesBack (ps addr size : Nat) (t t' : Maps) (calls : List Range) : Prop where
  calls : ∀ x, (∃ c ∈ calls, c.Holds ps x) ↔
    Tracked ps t x ∧ addr ≤ x ∧ x < addr + roundUp ps size
  kept : ∀ x, Tracked ps t' x ↔ Tracked ps t x ∧ ¬ (addr ≤ x ∧ x < addr + roundUp ps size)

def SplitsTwo (ps addr size : Nat) (t : Maps) : Prop :=
  ∃ m ∈ t.maps, ∃ k ∈ t.maps, m ≠ k ∧ (m.addr < addr ∧ addr < m.stop ps) ∧
    k.addr < addr + roundUp ps size ∧ addr + roundUp ps size < k.stop ps

section

variable {ps lo hi x addr size : Nat} {m k : Map} {t : Maps}

/-! ## One entry -/

theorem shaved_of_outside (h : m.Outside ps lo hi) : shaved ps lo hi m = [] := if_pos h

theorem removed_of_outside (h : m.Outside ps lo hi) : removed ps lo hi m = false := by
  unfold removed
  rw [decide_eq_false (not_not_intro h)]
  rfl

theorem removed_iff : removed ps lo hi m = true ↔ ¬ m.Outside ps lo hi ∧ m.Covered ps lo hi := by
  unfold removed
  rw [Bool.and_eq_true, decide_eq_true_eq, decide_eq_true_eq]

theorem shaved_cases (ps lo hi : Nat) (m : Map) :
    (shaved ps lo hi m = [] ∧ (m.Outside ps lo hi ∨ m.Covered ps lo hi)) ∨
      (∃ c, shaved ps lo hi m = [c]) ∧ ¬ m.Outside ps lo hi ∧ ¬ m.Covered ps lo hi := by
  unfold shaved
  split <;> rename_i hout
  · exact Or.inl ⟨rfl, Or.inl hout⟩
  split <;> rename_i hcov
  · exact Or.inl ⟨rfl, Or.inr hcov⟩
  refine Or.inr ⟨?_, hout, hcov⟩
  by_cases hlow : lo ≤ m.addr
  · exact ⟨_, if_pos hlow⟩
  rw [if_neg hlow]
  by_cases hhigh : m.stop ps ≤ hi
  · exact ⟨_, if_pos hhigh⟩
  · exact ⟨_, if_neg hhigh⟩

section

variable (hps : 0 < ps) (hm : m.Ok ps) (hlo : ps ∣ lo) (hhi : ps ∣ hi)
include hps hm hlo hhi

/-- What is shaved off are the pages of the entry in the range. -/
theorem shaved_eq (hout : ¬ m.Outside ps lo hi) (hcov : ¬ m.Covered ps lo hi) :
    ∃ n, shaved ps lo hi m = [⟨max lo m.addr, n⟩] ∧ max lo m.addr + roundUp ps n = min hi (m.stop ps) := by
  have hself := hm.lt_stop hps
  unfold shaved
  rw [if_neg hout, if_neg hcov]
  unfold Map.Outside at hout
  unfold Map.Covered at hcov
  split_ifs with hlow hhigh
  · rw [max_eq_right hlow, min_eq_left (by omega)]
    exact ⟨_, rfl, by rw [roundUp_sub hps hm.aligned hhi]; omega⟩
  · rw [max_eq_left (by omega), min_eq_right hhigh]
    exact ⟨_, rfl, stop_right hps hm hlo (by omega)⟩
  · rw [max_eq_left (by omega), min_eq_left (by omega)]
    exact ⟨_, rfl, by rw [roundUp_sub hps hlo hhi]; omega⟩

theorem shaved_or_removed :
    ((∃ c ∈ shaved ps lo hi m, c.Holds ps x) ∨ (removed ps lo hi m = true ∧ m.Holds ps x)) ↔
      m.Holds ps x ∧ lo ≤ x ∧ x < hi := by
  rw [removed_iff]
  rcases shaved_cases ps lo hi m with ⟨hnil, hcase⟩ | ⟨-, hout, hcov⟩
  · rw [hnil]
    simp only [not_mem_nil, false_and, exists_false, false_or]
    unfold Map.Outside Map.Covered at *
    unfold Map.Holds
    omega
  · obtain ⟨n, hc, hstop⟩ := shaved_eq hps hm hlo hhi hout hcov
    simp only [hc, mem_singleton, exists_eq_left, Range.Holds, hstop, hcov, and_false, false_and, or_false]
    unfold Map.Holds
    omega

end

/-! ## All entries -/

theorem muntrackTemp_eq (hps : 0 < ps) (ht : Ordered ps t.maps) :
    muntrackTemp ps addr size t = t.maps.flatMap (shaved ps addr (rangeEnd ps addr size)) :=
  mem_flatMap_visited hps ht fun _ => shaved_of_outside

theorem mem_muntrackDeleted (hps : 0 < ps) (ht : Ordered ps t.maps) :
    m ∈ muntrackDeleted ps addr size t ↔
      m ∈ t.maps ∧ removed ps addr (rangeEnd ps addr size) m = true := by
  unfold muntrackDeleted
  rw [mem_reverse, mem_filter]
  refine and_congr_left fun hrem => ⟨mem_of_mem_visited, fun hm => ?_⟩
  have hout := (removed_iff.mp hrem).1
  rw [← beforeRange_visited_afterRange addr (rangeEnd ps addr size) t.maps] at hm
  rcases List.mem_append.mp hm with hm | hm
  · rcases List.mem_append.mp hm with hm | hm
    · exact absurd (outside_of_mem_beforeRange ht hm) hout
    · exact hm
  · exact absurd (outside_of_mem_afterRange hps ht hm) hout

theorem tracked_iff_denotes : Tracked ps t x ↔ ∃ a, Denotes ps t.maps x a := by
  constructor
  · rintro ⟨m, hm, hx⟩
    exact ⟨_, m, hm, hx, rfl⟩
  · rintro ⟨a, m, hm, hx, -⟩
    exact ⟨m, hm, hx⟩

theorem splits_of_partial (hmk : m.stop ps ≤ k.addr) (hm : ¬ m.Outside ps lo hi)
    (hm' : ¬ m.Covered ps lo hi) (hk : ¬ k.Outside ps lo hi) (hk' : ¬ k.Covered ps lo hi) :
    (m.addr < lo ∧ lo < m.stop ps) ∧ k.addr < hi ∧ hi < k.stop ps := by
  unfold Map.Outside Map.Covered at *
  omega

theorem untrackedList_eq (hps : 0 < ps) (ht : t.Valid ps)
    (hend : rangeEnd ps addr size = addr + roundUp ps size) (hno : ¬ SplitsTwo ps addr size t) :
    untrackedList (muntrackTemp ps addr size t) = muntrackTemp ps addr size t := by
  rw [muntrackTemp_eq hps ht.ordered, hend]
  generalize hhi : addr + roundUp ps size = hi
  have hpair : ∀ m ∈ t.maps, ∀ k ∈ t.maps, m.stop ps ≤ k.addr →
      ¬ m.Outside ps addr hi → ¬ m.Covered ps addr hi → k.Outside ps addr hi ∨
        k.Covered ps addr hi := by
    intro m hm k hk hmk hout hcov
    by_contra hno'
    obtain ⟨hkout, hkcov⟩ := not_or.mp hno'
    have hsplit := splits_of_partial hmk hout hcov hkout hkcov
    refine hno ⟨m, hm, k, hk, ?_, hsplit.1, ?_⟩
    · rintro rfl
      have := (ht.ordered.ok m hm).lt_stop hps
      omega
    · rw [hhi]
      exact hsplit.2
  have hsorted := ht.ordered.sorted
  revert hpair hsorted
  generalize t.maps = maps
  intro hpair hsorted
  -- the first entry that stays in part is the only one
  induction maps with
  | nil => rfl
  | cons m maps ih =>
    rw [flatMap_cons]
    obtain ⟨hafter, hrest⟩ := List.pairwise_cons.mp hsorted
    rcases shaved_cases ps addr hi m with ⟨hnil, -⟩ | ⟨⟨c, hc⟩, hout, hcov⟩
    · rw [hnil]
      exact ih (fun m' hm' k hk => hpair m' (mem_cons_of_mem _ hm') k
        (mem_cons_of_mem _ hk)) hrest
    · have hnil : maps.flatMap (shaved ps addr hi) = [] := by
        refine List.flatMap_eq_nil_iff.mpr fun k hk => ?_
        have hcase := hpair m mem_cons_self k (mem_cons_of_mem _ hk) (hafter k hk) hout
          hcov
        rcases shaved_cases ps addr hi k with h | ⟨-, hkout, hkcov⟩
        · exact h.1
        · rcases hcase with h | h
          · exact absurd h hkout
          · exact absurd h hkcov
      rw [hnil, hc]
      rfl

theorem holds_deleted :
    (∃ c ∈ (muntrackDeleted ps addr size t).map fun m => (⟨m.addr, m.size⟩ : Range),
      c.Holds ps x) ↔ ∃ m ∈ muntrackDeleted ps addr size t, m.Holds ps x := by
  constructor
  · rintro ⟨c, hc, hx⟩
    obtain ⟨m, hm, rfl⟩ := List.mem_map.mp hc
    exact ⟨m, hm, hx⟩
  · rintro ⟨m, hm, hx⟩
    exact ⟨_, mem_map_of_mem hm, hx⟩

section

variable (hps : 0 < ps) (h64 : ps ∣ 2 ^ 64) (haddr : ps ∣ addr) (ht : t.Valid ps)
include hps h64 haddr ht

theorem tracked_muntrack : Tracked ps (muntrack ps addr size t) x ↔
      Tracked ps t x ∧ ¬ (addr ≤ x ∧ x < rangeEnd ps addr size) := by
  rw [tracked_iff_denotes, tracked_iff_denotes]
  simp only [denotes_muntrack hps h64 haddr size ht, exists_and_right]

theorem temp_or_deleted : ((∃ c ∈ muntrackTemp ps addr size t, c.Holds ps x) ∨
      ∃ m ∈ muntrackDeleted ps addr size t, m.Holds ps x) ↔
      Tracked ps t x ∧ addr ≤ x ∧ x < rangeEnd ps addr size := by
  have hhi := dvd_rangeEnd h64 haddr size
  rw [muntrackTemp_eq hps ht.ordered]
  simp only [mem_muntrackDeleted hps ht.ordered, mem_flatMap]
  have hparts m (hm : m ∈ t.maps) := shaved_or_removed (x := x) hps (ht.ordered.ok m hm) haddr hhi
  constructor
  · rintro (⟨c, ⟨m, hm, hc⟩, hx⟩ | ⟨m, ⟨hm, hrem⟩, hx⟩)
    · have h := (hparts m hm).mp (Or.inl ⟨c, hc, hx⟩)
      exact ⟨⟨m, hm, h.1⟩, h.2⟩
    · have h := (hparts m hm).mp (Or.inr ⟨hrem, hx⟩)
      exact ⟨⟨m, hm, h.1⟩, h.2⟩
  · rintro ⟨⟨m, hm, hx⟩, hin⟩
    rcases (hparts m hm).mpr ⟨hx, hin⟩ with ⟨c, hc, hcx⟩ | h
    · exact Or.inl ⟨c, ⟨m, hm, hc⟩, hcx⟩
    · exact Or.inr ⟨m, ⟨hm, h.1⟩, h.2⟩

theorem lost_of_splitsTwo (hend : rangeEnd ps addr size = addr + roundUp ps size)
    (hsplit : SplitsTwo ps addr size t) :
    ∃ x, Tracked ps t x ∧ (addr ≤ x ∧ x < addr + roundUp ps size) ∧
      ¬ ∃ c ∈ mapsDestroyAll (muntrackTemp ps addr size t) (muntrackDeleted ps addr size t),
        c.Holds ps x := by
  obtain ⟨m, hm, k, hk, hne, hmlo, hkhi⟩ := hsplit
  have hhi := dvd_rangeEnd h64 haddr size
  set hi := rangeEnd ps addr size
  have hkpos := (ht.ordered.ok k hk).lt_stop hps
  have hmk : m.stop ps ≤ k.addr := by
    have hle := Nat.le_add_right addr (roundUp ps size)
    rcases ht.ordered.apart hm hk hne with h | h
    · exact h
    · omega
  have hkx : k.Holds ps k.addr := ⟨Nat.le_refl _, hkpos⟩
  refine ⟨k.addr, ⟨k, hk, hkx⟩, by omega, ?_⟩
  rintro ⟨c, hc, hcx⟩
  rcases List.mem_append.mp hc with hc | hc
  · -- the first element of `temp` comes from an entry that is not after `m`
    obtain ⟨front, back, hmaps⟩ := append_of_mem hm
    have hord := ht.ordered
    unfold untrackedList at hc
    rw [muntrackTemp_eq hps ht.ordered, hmaps, flatMap_append, flatMap_cons,
      ← append_assoc] at hc
    have hmne : ¬ m.Outside ps addr hi ∧
        ¬ m.Covered ps addr hi := by
      rw [hend]
      unfold Map.Outside Map.Covered
      omega
    have hlen : 1 ≤ (front.flatMap (shaved ps addr hi) ++
        shaved ps addr hi m).length := by
      obtain ⟨n, hn, -⟩ := shaved_eq hps (ht.ordered.ok m hm) haddr hhi hmne.1 hmne.2
      rw [hn, length_append]
      exact Nat.le_add_left _ _
    rw [take_append_of_le_length hlen] at hc
    have hpos := (ht.ordered.ok m hm).lt_stop hps
    obtain ⟨m', hm'mem, hm'stop, hc⟩ : ∃ m' ∈ t.maps, m'.stop ps ≤ m.stop ps ∧ c ∈ shaved ps addr hi m' := by
      rw [hmaps] at hord ⊢
      rcases List.mem_append.mp (mem_of_mem_take hc) with hc | hc
      · obtain ⟨m', hm', hc⟩ := List.mem_flatMap.mp hc
        have hbefore := hord.before hm' mem_cons_self
        exact ⟨m', mem_append_left _ hm', by omega, hc⟩
      · exact ⟨m, mem_append_right _ mem_cons_self, Nat.le_refl _, hc⟩
    have hheld := (shaved_or_removed hps (ht.ordered.ok m' hm'mem) haddr hhi).mp
      (Or.inl ⟨c, hc, hcx⟩)
    have := hheld.1.2
    omega
  · obtain ⟨d, hd, rfl⟩ := List.mem_map.mp hc
    obtain ⟨hdmem, hrem⟩ := (mem_muntrackDeleted hps ht.ordered).mp hd
    have hdx : d.Holds ps k.addr := hcx
    have hdk := ht.ordered.eq_of_holds hdmem hk hdx hkx
    have hcov : d.Covered ps addr hi := (removed_iff.mp hrem).2
    rw [hdk, hend] at hcov
    unfold Map.Covered at hcov
    omega

theorem givesBack_muntrack (hlt : addr + roundUp ps size < 2 ^ 64) (hno : ¬ SplitsTwo ps addr size t) :
    GivesBack ps addr size t (muntrack ps addr size t)
      (mapsDestroyAll (muntrackTemp ps addr size t) (muntrackDeleted ps addr size t)) := by
  have hend := rangeEnd_of_lt hlt
  refine ⟨fun x => ?_, fun x => ?_⟩
  · unfold mapsDestroyAll
    rw [untrackedList_eq hps ht hend hno]
    simp only [mem_append, or_and_right, exists_or]
    rw [holds_deleted, temp_or_deleted hps h64 haddr ht, hend]
  · rw [tracked_muntrack hps h64 haddr ht, hend]

end

theorem munmap_some {gran : Nat} {t' : Maps} {calls : List Range}
    (h : munmap ps gran addr size t = some (t', calls)) :
    gran ∣ addr ∧ 0 < size ∧ addr + roundUp ps size < 2 ^ 64 ∧ t' = muntrack ps addr size t ∧
      calls = mapsDestroyAll (muntrackTemp ps addr size t) (muntrackDeleted ps addr size t) := by
  unfold munmap at h
  split_ifs at h with hinval hreturns
  obtain ⟨rfl, rfl⟩ := Prod.mk.inj (Option.some.inj h)
  obtain ⟨halign, hrest⟩ := not_or.mp hinval
  exact ⟨Nat.dvd_of_mod_eq_zero (not_not.mp halign), Nat.pos_of_ne_zero (not_or.mp hrest).1,
    of_decide_eq_true hreturns, rfl, rfl⟩

end

section

variable {ps gran addr size : Nat} (hps : 0 < ps) (h64 : ps ∣ 2 ^ 64)
include hps h64

theorem unmarkReturns_iff (haddr : ps ∣ addr) :
    unmarkReturns ps addr size = true ↔ ∃ n, addr + size ≤ (addr + n * ps) % 2 ^ 64 := by
  unfold unmarkReturns
  rw [decide_eq_true_eq, ← roundUp_add hps haddr]
  constructor
  · intro hlt
    obtain ⟨k, hk⟩ := dvd_roundUp ps size
    refine ⟨k, ?_⟩
    rw [Nat.mul_comm, ← hk, ← roundUp_add hps haddr, Nat.mod_eq_of_lt hlt]
    exact le_roundUp hps _
  · rintro ⟨n, hn⟩
    have hpage : ps ∣ (addr + n * ps) % 2 ^ 64 :=
      (Nat.dvd_mod_iff h64).mpr (Nat.dvd_add haddr (Nat.dvd_mul_left ps n))
    calc roundUp ps (addr + size) ≤ (addr + n * ps) % 2 ^ 64 := roundUp_le hps hn hpage
      _ < 2 ^ 64 := Nat.mod_lt _ (by decide)

/-- `munmap` returns and gives the kernel what it stops tracking, unless the ends of the range are
strictly inside two entries or the end is in the last page of the address space. -/
theorem givesBack_iff_not_splitsTwo (hgran : ps ∣ gran) {t : Maps} (ht : t.Valid ps)
    (halign : gran ∣ addr) (hpos : 0 < size) (hsum : addr + size < 2 ^ 64) :
    (∃ t' calls, munmap ps gran addr size t = some (t', calls) ∧
      GivesBack ps addr size t t' calls) ↔
      ¬ SplitsTwo ps addr size t ∧ addr + roundUp ps size < 2 ^ 64 := by
  have hdvd : ps ∣ addr := Nat.dvd_trans hgran halign
  constructor
  · rintro ⟨t', calls, h, hg⟩
    obtain ⟨-, -, hlt, rfl, rfl⟩ := munmap_some h
    refine ⟨fun hsplit => ?_, hlt⟩
    obtain ⟨x, hx, hin, hno⟩ := lost_of_splitsTwo hps h64 hdvd ht (rangeEnd_of_lt hlt) hsplit
    exact hno ((hg.calls x).mpr ⟨hx, hin⟩)
  · rintro ⟨hno, hlt⟩
    have hvalid : ¬ (addr % gran ≠ 0 ∨ size = 0 ∨ (addr + size) % 2 ^ 64 < size) := by
      rw [Nat.mod_eq_of_lt hsum, Nat.mod_eq_zero_of_dvd halign]
      omega
    refine ⟨_, _, ?_, givesBack_muntrack hps h64 hdvd ht hlt hno⟩
    unfold munmap unmarkReturns
    rw [if_neg hvalid, if_pos (decide_eq_true hlt)]

end

def anonymousFlags : Flags where
  type := 2
  anonymous := true
  fixed := false
  noreplace := false
  others := 0

def anonymousMap (addr size prot : Nat) : Map where
  addr := addr
  size := size
  off := 0
  flags := anonymousFlags
  prot := prot

def twoMappings : Maps where
  maps := [anonymousMap 65536 8192 3, anonymousMap 73728 8192 1]
  count := 2
  pages := 4

theorem valid_twoMappings : twoMappings.Valid 4096 := by
  refine ⟨⟨List.forall_mem_cons.mpr ⟨?_, List.forall_mem_singleton.mpr ?_⟩, by decide⟩, rfl, by decide⟩
  · exact ⟨by decide, by decide, by decide⟩
  · exact ⟨by decide, by decide, by decide⟩

/-- The second half of the one and the first half of the other: only the former is given back. -/
theorem munmap_keeps_second_part : ∃ t' calls,
    munmap 4096 4096 69632 8192 twoMappings = some (t', calls) ∧ calls = [⟨69632, 4096⟩] ∧
      ¬ GivesBack 4096 69632 8192 twoMappings t' calls := by
  refine ⟨_, _, rfl, by decide, ?_⟩
  intro hg
  have hlost := (hg.calls 73728).mpr
    ⟨⟨anonymousMap 73728 8192 1, by decide, by decide, by decide⟩, by decide, by decide⟩
  obtain ⟨c, hc, hx⟩ := hlost
  have hone : c = ⟨69632, 4096⟩ := by
    have hcalls : mapsDestroyAll (muntrackTemp 4096 69632 8192 twoMappings)
        (muntrackDeleted 4096 69632 8192 twoMappings) = [⟨69632, 4096⟩] := by decide
    rw [hcalls] at hc
    exact List.mem_singleton.mp hc
  rw [hone] at hx
  exact absurd hx.2 (by decide)

/-- The first page of the first mapping is taken off it. -/
theorem givesBack_one_mapping : ∃ t' calls,
    munmap 4096 4096 65536 4096 twoMappings = some (t', calls) ∧
      GivesBack 4096 65536 4096 twoMappings t' calls :=
  (givesBack_iff_not_splitsTwo (by decide) (by decide) (Nat.dvd_refl 4096) valid_twoMappings
    (by decide) (by decide) (by decide)).mpr ⟨by unfold SplitsTwo; decide, by decide⟩

end CosmoRuby.Mmap
