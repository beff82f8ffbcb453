import CosmoRuby.Mmap.Mremap
import CosmoRuby.Mmap.Trie

/-!
# What `kisdangerous` says

The bits of the trie are kept apart from the table of mappings, by `mmap`, `munmap`, `mprotect` and
`mremap`. After any sequence of such calls the bit of a page is set exactly if the kernel has the
page with read or write access, as long as no `mremap` shrinks a mapping in place or marks pages
without access, and `munmap` gives back what it unmarks.
-/

namespace CosmoRuby.Mmap

open CosmoRuby.Lib List

/-- The table, the trie, and the protection of the pages the kernel has mapped. -/
structure System where
  maps : Maps
  alive : Trie
  space : Nat → Option Nat

inductive VmCall where
  | mmap (res size prot : Nat) (flags : Flags) (off : Int)
  | munmap (addr size : Nat)
  | mprotect (addr size prot : Nat)
  /-- `res` is the answer of the kernel, if it is asked. -/
  | mremap (r : Remap) (res rlimit : Nat)

def accessible (prot : Nat) : Bool := prot % 4 != 0

def markAs (ps prot addr size : Nat) (trie : Trie) : Trie :=
  if accessible prot then mapsMark ps addr size trie else mapsUnmark ps addr size trie

instance (ps : Nat) (c : Range) (x : Nat) : Decidable (c.Holds ps x) :=
  inferInstanceAs (Decidable (_ ∧ _))

def inSome (ps : Nat) (ranges : List Range) (x : Nat) : Bool :=
  ranges.any fun c => c.Holds ps x

def chunk (ps lo hi : Nat) (m : Map) : List Range :=
  if removed ps lo hi m then [⟨m.addr, m.size⟩] else shaved ps lo hi m

def mprotectChunks (ps addr size : Nat) (t : Maps) : List Range :=
  match (visited addr (rangeEnd ps addr size) t.maps).flatMap
      (chunk ps addr (rangeEnd ps addr size)) with
  | [] => [⟨addr, roundUp ps size⟩]
  | chunks => chunks

instance (ps : Nat) (r : Remap) (x : Nat) : Decidable (r.Old ps x) :=
  inferInstanceAs (Decidable (_ ∧ _))

instance (ps : Nat) (r : Remap) (res x : Nat) : Decidable (r.New ps res x) :=
  inferInstanceAs (Decidable (_ ∧ _))

/-- What the kernel makes of a `mremap`: the pages move with their protection, and new ones get that
of the mapping. -/
def remapSpace (ps : Nat) (r : Remap) (res : Nat) (space : Nat → Option Nat) : Nat → Option Nat :=
  fun x =>
    if r.New ps res x then
      if x - res < roundUp ps r.oldSize then space (r.oldAddr + (x - res)) else space r.oldAddr
    else if r.Old ps x then none
    else space x

def VmCall.step (ps gran : Nat) : VmCall → System → Option System
  | .mmap res size prot flags off, s =>
    some
      { maps := (Call.mmap res size prot flags off).track ps s.maps
        alive := markAs ps prot res size s.alive
        space := fun x =>
          if res ≤ x ∧ x < res + roundUp ps size then some (prot % 8) else s.space x }
  | .munmap addr size, s =>
    (Mmap.munmap ps gran addr size s.maps).map fun out =>
      { maps := out.1
        alive := mapsUnmark ps addr size s.alive
        space := fun x => if inSome ps out.2 x then none else s.space x }
  | .mprotect addr size prot, s =>
    if size = 0 then some s
    else
      some
        { maps := Mmap.mprotect ps addr size prot s.maps
          alive := (mprotectChunks ps addr size s.maps).foldl
            (fun trie c => markAs ps prot c.addr c.size trie) s.alive
          space := fun x =>
            if inSome ps (mprotectChunks ps addr size s.maps) x then
              (s.space x).map fun _ => prot % 8
            else s.space x }
  | .mremap r res rlimit, s =>
    (Mmap.mremap ps gran rlimit r res s.maps).map fun out =>
      { maps := out.1
        alive := mapsMark ps out.2 r.newSize
          (if r.oldAddr ≠ out.2 then mapsUnmark ps r.oldAddr r.oldSize s.alive else s.alive)
        space := if r.Noop ps then s.space else remapSpace ps r res s.space }

/-- What is known of the kernel's part in a call that succeeds: pages are below `2^56`; protection
is changed only where something is mapped. -/
def VmCall.Succeeds (ps : Nat) : VmCall → System → Prop
  | .mmap res size _ flags _, s =>
    ps ∣ res ∧ 0 < size ∧ res + roundUp ps size ≤ 2 ^ 56 ∧
      (fixedMode flags = true ∨ ∀ x, res ≤ x → x < res + roundUp ps size → s.space x = none)
  | .munmap addr size, _ => addr < 2 ^ 64 ∧ size < 2 ^ 64
  | .mprotect addr size prot, s =>
    ps ∣ addr ∧ prot < 8 ∧ addr + roundUp ps size < 2 ^ 64 ∧
      (size ≠ 0 → ∃ x, (addr ≤ x ∧ x < addr + roundUp ps size) ∧ s.space x ≠ none)
  | .mremap r res _, s =>
    ¬ r.Noop ps → Kernel ps r s.maps res ∧ res + roundUp ps r.newSize ≤ 2 ^ 56

def Accessible (space : Nat → Option Nat) (x : Nat) : Prop :=
  ∃ prot, space x = some prot ∧ accessible prot = true

/-- The condition on the calls: `munmap` ends where the trie ends at most and does not split two
entries; `mremap` is used on accessible pages, not on a target that is mapped, and does not shrink
in place. -/
def VmCall.Safe (ps : Nat) : VmCall → System → Prop
  | .munmap addr size, s =>
    ¬ SplitsTwo ps addr size s.maps ∧ addr + roundUp ps size ≤ 2 ^ 57
  | .mremap r _ _, s =>
    (∀ x, r.Old ps x → Accessible s.space x) ∧
      (r.Noop ps ∨ ((r.fixed = true → ∀ x, r.New ps r.newAddr x → s.space x = none) ∧
        (roundUp ps r.newSize < roundUp ps r.oldSize → r.fixed = true)))
  | .mmap .., _ => True
  | .mprotect .., _ => True

/-- The table mirrors an address space with the kernel's protections, and the trie has the bits of
the accessible pages. -/
structure Truthful (ps : Nat) (s : System) : Prop where
  mirrors : ∃ attrs : PageMap, Mirrors ps s.maps attrs ∧
    ∀ x, s.space x = (attrs x).map Attr.prot
  low : ∀ x, s.space x ≠ none → x < 2 ^ 56
  bits : ∀ y, ps ∣ y → y < 2 ^ 57 → (s.alive.bit y = true ↔ Accessible s.space y)

structure PageSize (ps : Nat) : Prop where
  pos : 0 < ps
  le : ps ≤ 65536
  dvd : 4096 ∣ ps
  dvd64 : ps ∣ 2 ^ 64

theorem pageSize_two_pow {k : Nat} (h12 : 12 ≤ k) (h16 : k ≤ 16) : PageSize (2 ^ k) where
  pos := Nat.two_pow_pos k
  le := Nat.pow_le_pow_right (by decide) h16
  dvd := Nat.pow_dvd_pow 2 h12
  dvd64 := Nat.pow_dvd_pow 2 (by omega)

section

variable {ps gran x y prot : Nat} {m : Map} {t : Maps} {s s' : System} {l : List Range}
  {space : Nat → Option Nat}

/-! ## Tables and address spaces -/

theorem exists_mirrors (ht : t.Valid ps) : ∃ attrs : PageMap, Mirrors ps t attrs := by
  classical
  refine ⟨fun x => if h : ∃ a, Denotes ps t.maps x a then some h.choose else none, ht,
    fun x a => ?_⟩
  by_cases h : ∃ a, Denotes ps t.maps x a
  · rw [dif_pos h, Option.some.injEq]
    obtain ⟨k, hk, hkx, hka⟩ := h.choose_spec
    constructor
    · intro heq
      exact ⟨k, hk, hkx, hka.trans heq⟩
    · rintro ⟨m, hm, hmx, rfl⟩
      rw [← hka, ht.ordered.eq_of_holds hk hm hkx hmx]
  · rw [dif_neg h]
    exact ⟨fun hno => absurd hno (by simp), fun ha => absurd ⟨a, ha⟩ h⟩

section

variable (hps : 0 < ps) (h : Truthful ps s)
include h

theorem Truthful.none_iff : s.space x = none ↔ ¬ Tracked ps s.maps x := by
  obtain ⟨attrs, hmir, hspace⟩ := h.mirrors
  rw [hspace, Option.map_eq_none_iff]
  exact hmir.none_iff

theorem Truthful.valid : s.maps.Valid ps := by
  obtain ⟨attrs, hmir, -⟩ := h.mirrors
  exact hmir.valid

theorem Truthful.space_of_holds (hm : m ∈ s.maps.maps)
    (hx : m.Holds ps x) : s.space x = some (m.prot % 8) := by
  obtain ⟨attrs, hmir, hspace⟩ := h.mirrors
  rw [hspace, (hmir.agrees x _).mpr ⟨m, hm, hx, rfl⟩]
  rfl

include hps

theorem Truthful.stop_le (hm : m ∈ s.maps.maps) : m.stop ps ≤ 2 ^ 56 := by
  have hlt := (h.valid.ordered.ok m hm).lt_stop hps
  have hlast : m.Holds ps (m.stop ps - 1) := by
    unfold Map.Holds
    omega
  have hlow := h.low (m.stop ps - 1) (by rw [h.space_of_holds hm hlast]; simp)
  omega

theorem Truthful.space_roundDown (x : Nat) : s.space (roundDown ps x) = s.space x := by
  have hle := roundDown_le ps x
  have hmod := roundDown_add_mod ps x
  have hlt := Nat.mod_lt x hps
  have hpage : ∀ m ∈ s.maps.maps, m.Holds ps x ↔ m.Holds ps (roundDown ps x) := by
    intro m hm
    have hok := h.valid.ordered.ok m hm
    -- the start and the end of an entry are page bounds
    have hdown : ∀ {i}, ps ∣ i → (i ≤ roundDown ps x ↔ i ≤ x) := by
      rintro _ ⟨i, rfl⟩
      refine ⟨fun hi => Nat.le_trans hi hle, fun hi => ?_⟩
      unfold roundDown
      rw [Nat.mul_comm]
      exact Nat.mul_le_mul_right ps ((Nat.le_div_iff_mul_le hps).mpr (by rwa [Nat.mul_comm]))
    have hstop : ps ∣ m.stop ps := Nat.dvd_add hok.aligned (dvd_roundUp ps _)
    unfold Map.Holds
    rw [hdown hok.aligned, ← Nat.not_le, ← Nat.not_le, hdown hstop]
  by_cases htr : Tracked ps s.maps x
  · obtain ⟨m, hm, hx⟩ := htr
    rw [h.space_of_holds hm hx, h.space_of_holds hm ((hpage m hm).mp hx)]
  · rw [h.none_iff.mpr htr, h.none_iff]
    rintro ⟨m, hm, hx⟩
    exact htr ⟨m, hm, (hpage m hm).mpr hx⟩

theorem Truthful.kisdangerous_iff (hx : x < 2 ^ 56) :
    kisdangerous ps s.alive x = false ↔ Accessible s.space x := by
  have hle := roundDown_le ps x
  rw [kisdangerous_eq, Bool.not_eq_false', h.bits _ (dvd_roundDown ps x) (by omega)]
  unfold Accessible
  rw [h.space_roundDown hps]

end

theorem accessible_congr {space space' : Nat → Option Nat} (h : space x = space' x) :
    Accessible space x ↔ Accessible space' x := by
  unfold Accessible
  rw [h]

theorem inSome_iff : inSome ps l x = true ↔ ∃ c ∈ l, c.Holds ps x := by
  unfold inSome
  simp only [any_eq_true, decide_eq_true_eq]

/-! ## The trie -/

variable {addr size res lo hi rlimit : Nat} {trie : Trie}

theorem bit_markAs (hps : PageSize ps) (haddr : ps ∣ addr)
    (hend : addr + roundUp ps size ≤ 2 ^ 57) (hy : ps ∣ y) (hlt : y < 2 ^ 57) :
    (markAs ps prot addr size trie).bit y = true ↔
      if addr ≤ y ∧ y < addr + roundUp ps size then accessible prot = true
      else trie.bit y = true := by
  unfold markAs
  split <;> rename_i hacc
  · rw [bit_mapsMark hps.pos hps.le hps.dvd haddr hend hy hlt]
    split <;> rename_i hin
    · exact iff_of_true (Or.inr hin) hacc
    · exact or_iff_left hin
  · rw [bit_mapsUnmark hps.pos hps.le hps.dvd haddr hend hy hlt]
    split <;> rename_i hin
    · exact iff_of_false (fun h => h.2 hin) hacc
    · exact and_iff_left hin

theorem bit_foldl_markAs (hps : PageSize ps)
    (hl : ∀ c ∈ l, ps ∣ c.addr ∧ c.addr + roundUp ps c.size ≤ 2 ^ 57) (hy : ps ∣ y)
    (hlt : y < 2 ^ 57) :
    (l.foldl (fun trie c => markAs ps prot c.addr c.size trie) trie).bit y = true ↔
      if inSome ps l y then accessible prot = true else trie.bit y = true := by
  induction l generalizing trie with
  | nil =>
    rw [if_neg (by rw [inSome_iff]; simp)]
    rfl
  | cons c l ih =>
    obtain ⟨haddr, hend⟩ := hl c mem_cons_self
    rw [foldl_cons, ih fun d hd => hl d (mem_cons_of_mem _ hd)]
    have hcons : inSome ps (c :: l) y = true ↔ c.Holds ps y ∨ inSome ps l y = true := by
      rw [inSome_iff, inSome_iff, exists_mem_cons_iff]
    by_cases hrest : inSome ps l y = true
    · rw [if_pos hrest, if_pos (hcons.mpr (Or.inr hrest))]
    · rw [if_neg hrest, bit_markAs hps haddr hend hy hlt]
      by_cases hc : c.Holds ps y
      · rw [if_pos (show c.addr ≤ y ∧ y < c.addr + roundUp ps c.size from hc),
          if_pos (hcons.mpr (Or.inl hc))]
      · rw [if_neg (show ¬ (c.addr ≤ y ∧ y < c.addr + roundUp ps c.size) from hc),
          if_neg fun h => (hcons.mp h).elim hc hrest]

/-! ## One call -/

theorem truthful_mmap (hps : PageSize ps) (h : Truthful ps s) {prot : Nat}
    {flags : Flags} {off : Int}
    (hok : (VmCall.mmap res size prot flags off).Succeeds ps s)
    (hstep : (VmCall.mmap res size prot flags off).step ps gran s = some s') :
    Truthful ps s' := by
  obtain ⟨hres, hsize, hend, hfree⟩ := hok
  obtain rfl := Option.some.inj hstep
  obtain ⟨attrs, hmir, hspace⟩ := h.mirrors
  have hsucc : (Call.mmap res size prot flags off).Succeeds ps ps attrs := by
    refine ⟨hres, hsize, by omega, hfree.imp_right fun hnone x h₁ h₂ => ?_⟩
    have := hnone x h₁ h₂
    rwa [hspace, Option.map_eq_none_iff] at this
  refine ⟨⟨_, mirrors_mmap hps.pos hps.dvd64 hmir hsucc, fun x => ?_⟩, fun x hx => ?_,
    fun y hy hlt => ?_⟩
  · show (if res ≤ x ∧ x < res + roundUp ps size then some (prot % 8) else s.space x) =
      (if res ≤ x ∧ x < res + roundUp ps size then some _ else attrs x).map Attr.prot
    rw [apply_ite (Option.map Attr.prot), hspace x]
    rfl
  · by_cases hin : res ≤ x ∧ x < res + roundUp ps size
    · omega
    · have hx' : (if res ≤ x ∧ x < res + roundUp ps size then some (prot % 8) else s.space x) ≠
          none := hx
      rw [if_neg hin] at hx'
      exact h.low x hx'
  · rw [bit_markAs hps hres (by omega) hy hlt]
    unfold Accessible
    split_ifs with hin
    · simp only [if_pos hin, Option.some.injEq, exists_eq_left']
      unfold accessible
      simp only [bne_iff_ne]
      omega
    · simp only [if_neg hin]
      exact h.bits y hy hlt

theorem truthful_munmap (hps : PageSize ps) (hgran : ps ∣ gran) (h : Truthful ps s)
    (hsafe : (VmCall.munmap addr size).Safe ps s)
    (hstep : (VmCall.munmap addr size).step ps gran s = some s') : Truthful ps s' := by
  obtain ⟨⟨t', calls⟩, hmun, rfl⟩ := Option.map_eq_some_iff.mp hstep
  obtain ⟨halign, hpos, hlt, rfl, rfl⟩ := munmap_some hmun
  obtain ⟨hno, hend⟩ := hsafe
  have hdvd := Nat.dvd_trans hgran halign
  have hback := givesBack_muntrack hps.pos hps.dvd64 hdvd h.valid hlt hno
  obtain ⟨attrs, hmir, hspace⟩ := h.mirrors
  -- what the kernel is told to unmap is what is mapped in the range
  have hcalls : ∀ x, (if inSome ps (mapsDestroyAll (muntrackTemp ps addr size s.maps)
      (muntrackDeleted ps addr size s.maps)) x then none else s.space x) =
      if addr ≤ x ∧ x < addr + roundUp ps size then none else s.space x := by
    intro x
    have hx := hback.calls x
    rw [← inSome_iff] at hx
    by_cases hin : addr ≤ x ∧ x < addr + roundUp ps size
    · rw [if_pos hin]
      by_cases htr : Tracked ps s.maps x
      · rw [if_pos (hx.mpr ⟨htr, hin⟩)]
      · rw [if_neg fun hc => htr (hx.mp hc).1]
        exact h.none_iff.mpr htr
    · rw [if_neg hin, if_neg fun hc => hin (hx.mp hc).2]
  refine ⟨⟨_, mirrors_munmap hps.pos hps.dvd64 hgran hmir ⟨halign, hpos, hlt⟩, fun x => ?_⟩,
    fun x hx => ?_, fun y hy hylt => ?_⟩
  · refine (hcalls x).trans ?_
    show _ = (if addr ≤ x ∧ x < addr + roundUp ps size then none else attrs x).map Attr.prot
    rw [apply_ite (Option.map Attr.prot), hspace x]
    rfl
  · have hx' := (hcalls x).symm.trans_ne hx
    split_ifs at hx' with hin
    · exact absurd rfl hx'
    · exact h.low x hx'
  · rw [bit_mapsUnmark hps.pos hps.le hps.dvd hdvd hend hy hylt, h.bits y hy hylt]
    by_cases hin : addr ≤ y ∧ y < addr + roundUp ps size
    · refine iff_of_false (fun hno => hno.2 hin) ?_
      rintro ⟨p, hp, -⟩
      have hnone := (hcalls y).symm.trans hp
      rw [if_pos hin] at hnone
      cases hnone
    · rw [and_iff_left hin]
      exact (accessible_congr ((hcalls y).trans (if_neg hin))).symm

theorem chunk_holds (hps : 0 < ps) (hm : m.Ok ps) (hlo : ps ∣ lo) (hhi : ps ∣ hi) :
    (∃ c ∈ chunk ps lo hi m, c.Holds ps x) ↔ m.Holds ps x ∧ lo ≤ x ∧ x < hi := by
  rw [← shaved_or_removed hps hm hlo hhi]
  unfold chunk
  by_cases hrem : removed ps lo hi m = true
  · have hnil : shaved ps lo hi m = [] := by
      rcases shaved_cases ps lo hi m with h | ⟨-, -, hcov⟩
      · exact h.1
      · exact absurd (removed_iff.mp hrem).2 hcov
    rw [if_pos hrem, hnil]
    simp only [mem_singleton, exists_eq_left, not_mem_nil, false_and, exists_false,
      false_or, hrem, true_and]
    rfl
  · rw [if_neg hrem]
    exact (or_iff_left fun h => hrem h.1).symm

theorem chunk_bounds {c : Range} (hps : 0 < ps) (hm : m.Ok ps) (hlo : ps ∣ lo)
    (hhi : ps ∣ hi) (hc : c ∈ chunk ps lo hi m) :
    ps ∣ c.addr ∧ c.addr + roundUp ps c.size ≤ m.stop ps := by
  unfold chunk at hc
  split at hc <;> rename_i hrem
  · rw [List.mem_singleton.mp hc]
    exact ⟨hm.aligned, Nat.le_refl _⟩
  rcases shaved_cases ps lo hi m with ⟨hnil, -⟩ | ⟨-, hout, hcov⟩
  · rw [hnil] at hc
    exact absurd hc not_mem_nil
  · obtain ⟨n, heq, hstop⟩ := shaved_eq hps hm hlo hhi hout hcov
    rw [heq] at hc
    rw [List.mem_singleton.mp hc]
    exact ⟨(max_choice lo m.addr).elim (·.symm ▸ hlo) (·.symm ▸ hm.aligned),
      hstop.trans_le (Nat.min_le_right _ _)⟩

theorem mem_mprotectChunks (hps : 0 < ps) (haddr : ps ∣ addr) (h64 : ps ∣ 2 ^ 64) (ht : t.Valid ps)
    (hfound : ∃ x, (addr ≤ x ∧ x < rangeEnd ps addr size) ∧ Tracked ps t x) (c : Range) :
    c ∈ mprotectChunks ps addr size t ↔
      ∃ m ∈ t.maps, c ∈ chunk ps addr (rangeEnd ps addr size) m := by
  have hhi := dvd_rangeEnd h64 haddr size
  have hall : (visited addr (rangeEnd ps addr size) t.maps).flatMap
      (chunk ps addr (rangeEnd ps addr size)) =
      t.maps.flatMap (chunk ps addr (rangeEnd ps addr size)) := by
    refine mem_flatMap_visited hps ht.ordered fun m hout => ?_
    unfold chunk
    rw [removed_of_outside hout, if_neg Bool.false_ne_true, shaved_of_outside hout]
  unfold mprotectChunks
  rw [hall, ← mem_flatMap]
  cases hl : t.maps.flatMap (chunk ps addr (rangeEnd ps addr size)) with
  | nil =>
    -- something is found, so there is a chunk
    obtain ⟨x, hin, m, hm, hx⟩ := hfound
    obtain ⟨d, hd, -⟩ := (chunk_holds hps (ht.ordered.ok m hm) haddr hhi).mpr ⟨hx, hin⟩
    have hmem := List.mem_flatMap.mpr ⟨m, hm, hd⟩
    rw [hl] at hmem
    exact absurd hmem not_mem_nil
  | cons d rest => rfl

theorem truthful_mprotect (hps : PageSize ps) (h : Truthful ps s) {prot : Nat}
    (hok : (VmCall.mprotect addr size prot).Succeeds ps s)
    (hstep : (VmCall.mprotect addr size prot).step ps gran s = some s') : Truthful ps s' := by
  obtain ⟨haddr, hprot, hlt, hfound⟩ := hok
  by_cases hsize : size = 0
  · have hsame : (VmCall.mprotect addr size prot).step ps gran s = some s := if_pos hsize
    obtain rfl := Option.some.inj (hsame.symm.trans hstep)
    exact h
  obtain rfl := Option.some.inj ((if_neg hsize).symm.trans hstep)
  have hend := rangeEnd_of_lt hlt
  have hhi := dvd_rangeEnd hps.dvd64 haddr size
  set chunks := mprotectChunks ps addr size s.maps
  have hchunks : ∀ c, c ∈ chunks ↔
      ∃ m ∈ s.maps.maps, c ∈ chunk ps addr (rangeEnd ps addr size) m := by
    refine mem_mprotectChunks hps.pos haddr hps.dvd64 h.valid ?_
    obtain ⟨x, hin, hx⟩ := hfound hsize
    refine ⟨x, by rwa [hend], ?_⟩
    by_contra htr
    exact hx (h.none_iff.mpr htr)
  have hinSome : ∀ x, inSome ps chunks x = true ↔
      Tracked ps s.maps x ∧ addr ≤ x ∧ x < addr + roundUp ps size := by
    intro x
    rw [inSome_iff, ← hend]
    constructor
    · rintro ⟨c, hc, hx⟩
      obtain ⟨m, hm, hcm⟩ := (hchunks c).mp hc
      have hin := (chunk_holds hps.pos (h.valid.ordered.ok m hm) haddr hhi).mp ⟨c, hcm, hx⟩
      exact ⟨⟨m, hm, hin.1⟩, hin.2⟩
    · rintro ⟨⟨m, hm, hmx⟩, hin⟩
      obtain ⟨c, hcm, hx⟩ :=
        (chunk_holds hps.pos (h.valid.ordered.ok m hm) haddr hhi).mpr ⟨hmx, hin⟩
      exact ⟨c, (hchunks c).mpr ⟨m, hm, hcm⟩, hx⟩
  obtain ⟨attrs, hmir, hspace⟩ := h.mirrors
  have hsucc : (Call.mprotect addr size prot).Succeeds ps ps attrs := ⟨haddr, hprot, hlt⟩
  let space x := if inSome ps chunks x then (s.space x).map fun _ => prot % 8 else s.space x
  have hnew x : space x =
      (s.space x).map fun p => if addr ≤ x ∧ x < addr + roundUp ps size then prot % 8 else p := by
    dsimp only [space]
    by_cases htr : Tracked ps s.maps x
    · by_cases hin : addr ≤ x ∧ x < addr + roundUp ps size
      · simp only [if_pos ((hinSome x).mpr ⟨htr, hin⟩), if_pos hin]
      · simp only [if_neg fun hc => hin ((hinSome x).mp hc).2, if_neg hin, Option.map_id']
    · rw [h.none_iff.mpr htr]
      split <;> rfl
  refine ⟨⟨_, mirrors_mprotect hps.pos hps.dvd64 hmir hsucc,
    fun x => ?_⟩, fun x hx => h.low x fun hnone => hx ?_, fun y hy hylt => ?_⟩
  · show space x = ((attrs x).map (protectAttr addr (addr + roundUp ps size) prot x)).map Attr.prot
    rw [hnew, hspace, Option.map_map, Option.map_map]
    refine congrArg (Option.map · _) (funext fun a => ?_)
    dsimp only [Function.comp_apply, protectAttr]
    rw [apply_ite Attr.prot]
  · show space x = none
    rw [hnew, hnone]
    rfl
  · have hbounds : ∀ c ∈ chunks, ps ∣ c.addr ∧ c.addr + roundUp ps c.size ≤ 2 ^ 57 := by
      intro c hc
      obtain ⟨m, hm, hcm⟩ := (hchunks c).mp hc
      have hb := chunk_bounds hps.pos (h.valid.ordered.ok m hm) haddr hhi hcm
      have := h.stop_le hps.pos hm
      exact ⟨hb.1, by omega⟩
    rw [bit_foldl_markAs hps hbounds hy hylt]
    split_ifs with hc
    · obtain ⟨m, hm, hmy⟩ := ((hinSome y).mp hc).1
      have hset : space y = some prot := by
        dsimp only [space]
        rw [if_pos hc, h.space_of_holds hm hmy, Option.map_some, Nat.mod_eq_of_lt hprot]
      constructor
      · exact fun hacc => ⟨prot, hset, hacc⟩
      · rintro ⟨p, hp, hacc⟩
        have heq := hset.symm.trans hp
        rwa [Option.some.inj heq]
    · rw [h.bits y hy hylt]
      exact (accessible_congr (if_neg hc)).symm

variable {r : Remap}

theorem step_mremap_of_some {t' : Maps}
    (h : mremap ps gran rlimit r r.oldAddr s.maps = some (t', r.oldAddr))
    (hnoop : ¬ r.Noop ps) :
    (VmCall.mremap r r.oldAddr rlimit).step ps gran s =
      some
        { maps := t'
          alive := mapsMark ps r.oldAddr r.newSize s.alive
          space := remapSpace ps r r.oldAddr s.space } := by
  show Option.map _ (mremap ps gran rlimit r r.oldAddr s.maps) = _
  rw [h, Option.map_some, if_neg hnoop]
  simp only [ne_eq, not_true_eq_false, if_false]

theorem truthful_mremap (hps : PageSize ps) (hgran : ps ∣ gran) (h : Truthful ps s)
    (hok : (VmCall.mremap r res rlimit).Succeeds ps s)
    (hsafe : (VmCall.mremap r res rlimit).Safe ps s)
    (hstep : (VmCall.mremap r res rlimit).step ps gran s = some s') : Truthful ps s' := by
  obtain ⟨⟨t', res'⟩, hre, rfl⟩ := Option.map_eq_some_iff.mp hstep
  obtain ⟨hacc, hcase⟩ := hsafe
  obtain ⟨hcheck, hout⟩ := mremap_some hps.pos hre
  have hdvd : ps ∣ r.oldAddr := Nat.dvd_trans hgran (Nat.dvd_of_mod_eq_zero hcheck.oldAddr)
  have hpos := roundUp_pos hps.pos hcheck.oldSize
  -- the old range is mapped, so it is below the reach of the trie
  have hreach : r.oldAddr + roundUp ps r.oldSize ≤ 2 ^ 57 := by
    obtain ⟨p, hp, -⟩ := hacc (r.oldAddr + roundUp ps r.oldSize - 1) ⟨by omega, by omega⟩
    have := h.low _ (by rw [hp]; simp)
    omega
  rcases hout with ⟨hnoop, rfl, rfl⟩ | ⟨hnoop, rfl, old, hmem, hheld, hend, rfl⟩
  · have hsame : roundUp ps r.newSize = roundUp ps r.oldSize := hnoop
    simp only [if_pos hnoop, ne_eq, not_true_eq_false, if_false]
    refine ⟨h.mirrors, h.low, fun y hy hylt => ?_⟩
    rw [bit_mapsMark hps.pos hps.le hps.dvd hdvd (by rwa [hsame]) hy hylt, h.bits y hy hylt, hsame]
    exact or_iff_left_of_imp (hacc y)
  · obtain ⟨hk, hlow⟩ := hok hnoop
    obtain ⟨hfix, hshrink⟩ := hcase.resolve_left hnoop
    have hm : (movedMap old r.newSize res').Ok ps :=
      ⟨Nat.pos_of_ne_zero hcheck.newSize, hk.aligned, hk.below⟩
    have hfree := hk.target_free fun hfixed x hx => h.none_iff.mp (hfix hfixed x hx)
    obtain ⟨hvalid, hdenotes⟩ := remapped hps.pos hps.dvd64 hdvd h.valid hmem hend hm hfree
    -- all old pages have the protection of the old entry
    have hold : ∀ x, r.Old ps x → s.space x = some (old.prot % 8) := by
      intro x hx
      refine h.space_of_holds hmem ?_
      have := hheld.1
      unfold Remap.Old at hx
      unfold Map.Holds
      omega
    have hfirst : r.Old ps r.oldAddr := ⟨Nat.le_refl _, by omega⟩
    have haccOld : accessible (old.prot % 8) = true := by
      obtain ⟨p, hp, hpacc⟩ := hacc r.oldAddr hfirst
      rw [hold r.oldAddr hfirst] at hp
      rwa [Option.some.inj hp]
    have hnew : ∀ x, remapSpace ps r res' s.space x =
        if r.New ps res' x then some (old.prot % 8)
        else if r.Old ps x then none else s.space x := by
      intro x
      unfold remapSpace
      by_cases hx : r.New ps res' x
      · rw [if_pos hx, if_pos hx]
        split <;> rename_i hd
        · exact hold _ ⟨by omega, by omega⟩
        · exact hold _ hfirst
      · rw [if_neg hx, if_neg hx]
    obtain ⟨attrs, hmir, hattrs⟩ := h.mirrors
    obtain ⟨attrs', hmir'⟩ := exists_mirrors hvalid
    simp only [if_neg hnoop]
    refine ⟨⟨attrs', hmir', fun x => ?_⟩, fun x hx => ?_, fun y hy hylt => ?_⟩
    · refine (hnew x).trans ?_
      have hagree := fun a => (hmir'.agrees x a).trans (hdenotes x a)
      split <;> rename_i hx
      · rw [(hagree ((movedMap old r.newSize res').attr x)).mpr (Or.inr ⟨hx, rfl⟩)]
        rfl
      · have hrest : ∀ a, attrs' x = some a ↔ attrs x = some a ∧ ¬ r.Old ps x := by
          intro a
          rw [hagree, hmir.agrees]
          exact or_iff_left fun hno => hx hno.1
        split <;> rename_i hxo
        · have hnone : attrs' x = none :=
            Option.eq_none_iff_forall_ne_some.mpr fun a ha => ((hrest a).mp ha).2 hxo
          rw [hnone]
          rfl
        · rw [hattrs]
          have heq : attrs' x = attrs x := by
            refine Option.ext fun a => ?_
            rw [hrest]
            exact and_iff_left hxo
          rw [heq]
    · replace hx := (hnew x).symm.trans_ne hx
      by_cases hxn : r.New ps res' x
      · unfold Remap.New at hxn
        omega
      · rw [if_neg hxn] at hx
        split at hx <;> rename_i hxo
        · exact absurd rfl hx
        · exact h.low x hx
    · dsimp only
      rw [bit_mapsMark hps.pos hps.le hps.dvd hk.aligned (by omega) hy hylt]
      have hstart : ((if r.oldAddr ≠ res' then mapsUnmark ps r.oldAddr r.oldSize s.alive
          else s.alive) : Trie).bit y = true ↔
          Accessible s.space y ∧ (r.oldAddr ≠ res' → ¬ r.Old ps y) := by
        split <;> rename_i hmove
        · rw [bit_mapsUnmark hps.pos hps.le hps.dvd hdvd hreach hy hylt,
            h.bits y hy hylt]
          exact and_congr_right fun _ => ⟨fun hno _ => hno, fun hno => hno hmove⟩
        · rw [h.bits y hy hylt]
          exact (and_iff_left fun hno => absurd hno hmove).symm
      rw [hstart]
      show _ ∨ r.New ps res' y ↔ _
      unfold Accessible
      rw [hnew]
      split <;> rename_i hyn
      · exact iff_of_true (Or.inr hyn) ⟨_, rfl, haccOld⟩
      · rw [or_iff_left hyn]
        by_cases hyo : r.Old ps y
        · -- a page that is gone: the range has moved, since it does not shrink in place
          rw [if_pos hyo]
          refine iff_of_false (fun hno => ?_) (fun hno => ?_)
          · refine hno.2 (fun hstay => ?_) hyo
            have hless : roundUp ps r.newSize < roundUp ps r.oldSize := by
              unfold Remap.Old at hyo
              unfold Remap.New at hyn
              omega
            have hfixed := hshrink hless
            have hdis := hcheck.disjoint hfixed
            have hres := hk.fixed hfixed
            have hnewpos := roundUp_pos hps.pos hcheck.newSize
            omega
          · obtain ⟨p, hp, -⟩ := hno
            cases hp
        · rw [if_neg hyo]
          exact and_iff_left fun _ => hyo

end

/-! ## Sequences of calls -/

/-- A sequence of successful calls that meet the condition, from one state to another. -/
inductive Runs (ps gran : Nat) : System → List VmCall → System → Prop
  | nil (s : System) : Runs ps gran s [] s
  | cons {s s' s'' : System} {c : VmCall} {cs : List VmCall} (hstep : c.step ps gran s = some s')
      (hok : c.Succeeds ps s) (hsafe : c.Safe ps s) (hrest : Runs ps gran s' cs s'') :
      Runs ps gran s (c :: cs) s''

theorem truthful_step {ps gran : Nat} (hps : PageSize ps) (hgran : ps ∣ gran) {s s' : System}
    {c : VmCall} (h : Truthful ps s) (hok : c.Succeeds ps s) (hsafe : c.Safe ps s)
    (hstep : c.step ps gran s = some s') : Truthful ps s' := by
  cases c with
  | mmap res size prot flags off => exact truthful_mmap hps h hok hstep
  | munmap addr size => exact truthful_munmap hps hgran h hsafe hstep
  | mprotect addr size prot => exact truthful_mprotect hps h hok hstep
  | mremap r res rlimit => exact truthful_mremap hps hgran h hok hsafe hstep

theorem Runs.truthful {ps gran : Nat} (hps : PageSize ps) (hgran : ps ∣ gran) {s s' : System}
    {cs : List VmCall} (h : Truthful ps s) (hrun : Runs ps gran s cs s') : Truthful ps s' := by
  induction hrun with
  | nil => exact h
  | cons hstep hok hsafe _ ih => exact ih (truthful_step hps hgran h hok hsafe hstep)

def freshSystem : System where
  maps := noMaps
  alive := none
  space := fun _ => none

theorem truthful_freshSystem (ps : Nat) : Truthful ps freshSystem := by
  refine ⟨⟨_, mirrors_noMaps ps, fun x => rfl⟩, fun x hx => absurd rfl hx, fun y _ _ => ?_⟩
  refine iff_of_false (fun h => ?_) (fun h => ?_)
  · have hzero : Trie.bit none y = false := by
      show (0#64).getLsbD _ = false
      exact BitVec.getLsbD_zero
    rw [show freshSystem.alive = none from rfl, hzero] at h
    exact Bool.false_ne_true h
  · obtain ⟨p, hp, -⟩ := h
    cases hp

/-- After every sequence of successful calls that meet the condition, `kisdangerous` is false exactly
on the pages that are mapped with read or write access. -/
theorem kisdangerous_truthful {k gran : Nat} (h12 : 12 ≤ k) (h16 : k ≤ 16) (hgran : 2 ^ k ∣ gran)
    {cs : List VmCall} {s : System} (hrun : Runs (2 ^ k) gran freshSystem cs s) {x : Nat}
    (hx : x < 2 ^ 56) :
    kisdangerous (2 ^ k) s.alive x = false ↔ Accessible s.space x := by
  have hps := pageSize_two_pow h12 h16
  exact (hrun.truthful hps hgran (truthful_freshSystem _)).kisdangerous_iff hps.pos hx

def growReserved : Remap :=
  { growTail with oldAddr := 65536, oldSize := 4096, newSize := 8192, mayMove := false }

def reservedMaps (prot size pages : Nat) : Maps where
  maps := [anonymousMap 65536 size prot]
  count := 1
  pages := pages

def reservedSystem : System where
  maps := reservedMaps 0 4096 1
  alive := mapsUnmark 4096 65536 4096 none
  space := fun x => if 65536 ≤ x ∧ x < 65536 + roundUp 4096 4096 then some (0 % 8) else none

def grownSystem : System where
  maps := reservedMaps 0 8192 2
  alive := mapsMark 4096 65536 8192 reservedSystem.alive
  space := remapSpace 4096 growReserved 65536 reservedSystem.space

/-- A page that nobody may touch is marked by `mremap`. -/
theorem kisdangerous_after_mremap :
    (VmCall.mmap 65536 4096 0 anonymousFlags 0).step 4096 4096 freshSystem =
      some reservedSystem ∧
    (VmCall.mremap growReserved 65536 (2 ^ 64 - 1)).step 4096 4096 reservedSystem =
      some grownSystem ∧
    kisdangerous 4096 grownSystem.alive 65536 = false ∧
      ¬ Accessible grownSystem.space 65536 := by
  have hmaps : (Call.mmap 65536 4096 0 anonymousFlags 0).track 4096 noMaps =
      reservedMaps 0 4096 1 := by decide
  have hgrown : mremap 4096 4096 (2 ^ 64 - 1) growReserved 65536 (reservedMaps 0 4096 1) =
      some (reservedMaps 0 8192 2, 65536) := by decide
  have hnoop : ¬ growReserved.Noop 4096 := by decide
  refine ⟨?_, ?_, by decide, ?_⟩
  · unfold reservedSystem
    rw [← hmaps]
    rfl
  · exact step_mremap_of_some hgrown hnoop
  · rintro ⟨p, hp, hacc⟩
    have hspace : grownSystem.space 65536 = some 0 := by decide
    rw [hspace] at hp
    rw [← Option.some.inj hp] at hacc
    exact Bool.false_ne_true hacc

/-- A page is mapped, grown by another, and that one is unmapped. -/
def regrown : List VmCall :=
  [.mmap 65536 4096 1 anonymousFlags 0, .mremap growReserved 65536 (2 ^ 64 - 1), .munmap 69632 4096]

theorem kisdangerous_regrown : ∃ s, Runs (2 ^ 12) 4096 freshSystem regrown s ∧
    (kisdangerous (2 ^ 12) s.alive 65537 = false ↔ Accessible s.space 65537) := by
  have hgrown : mremap (2 ^ 12) 4096 (2 ^ 64 - 1) growReserved 65536 (reservedMaps 1 4096 1) =
      some (reservedMaps 1 8192 2, 65536) := by decide
  have hkernel : Kernel (2 ^ 12) growReserved (reservedMaps 1 4096 1) 65536 := by
    refine ⟨by decide, by decide, nofun, fun _ => rfl, fun _ x _ hold => ?_⟩
    rintro ⟨m, hm, hx⟩
    cases List.mem_singleton.mp hm
    exact hold hx
  obtain ⟨s, hrun⟩ : ∃ s, Runs (2 ^ 12) 4096 freshSystem regrown s := by
    refine ⟨_, .cons rfl ?_ trivial (.cons (step_mremap_of_some hgrown (by decide)) ?_ ?_
      (.cons rfl ?_ ?_ (.nil _)))⟩
    · exact ⟨by decide, by decide, by decide, .inr fun _ _ _ => rfl⟩
    · exact fun _ => ⟨hkernel, by decide⟩
    · exact ⟨fun x hx => ⟨1, if_pos hx, rfl⟩, .inr ⟨nofun, fun h => absurd h (by decide)⟩⟩
    · exact ⟨by decide, by decide⟩
    · exact ⟨by unfold SplitsTwo; decide, by decide⟩
  exact ⟨s, hrun, kisdangerous_truthful (by decide) (by decide) (by decide) hrun (by decide)⟩

end CosmoRuby.Mmap