import CosmoRuby.Ape.Image
import Mathlib.Data.List.SplitBy

/-!
# The merge of program headers

Before `Spawn` sees the table, `TryElf` drops empty headers and makes one header of neighbours that
it takes for contiguous. The headers as they were read come out in the memory if those of each run
are contiguous; the merge looks at the pages that the headers end in only, and takes no care of that.
-/

namespace CosmoRuby.Ape

open Lib List

/-! ## Runs -/

def phdrsOf (ebuf file : Bytes) : List ElfPhdr :=
  match pread file ((readEhdr ebuf).ePhnum * sizeofPhdr) (readEhdr ebuf).ePhoff with
  | none => []
  | some buf =>
    (List.range (readEhdr ebuf).ePhnum).map fun i => readPhdr (buf.drop (sizeofPhdr * i))

def runs (pagesz : BitVec 64) (p : List ElfPhdr) : List (List ElfPhdr) :=
  (dropEmpty p).splitBy (mergeable pagesz)

def span (run : List ElfPhdr) : Option ElfPhdr := do
  return mergeTwo (← run.head?) (← run.getLast?)

variable {pagesz : BitVec 64} {g h q : ElfPhdr} {run rest p : List ElfPhdr}

theorem mergeTwo_self (g : ElfPhdr) : mergeTwo g g = g := by
  unfold mergeTwo
  rw [BitVec.add_comm g.pVaddr, BitVec.add_sub_cancel, BitVec.add_comm g.pOffset,
    BitVec.add_sub_cancel]

theorem span_cons (g : ElfPhdr) (rest : List ElfPhdr) :
    span (g :: rest) = some (mergeTwo g ((g :: rest).getLast (cons_ne_nil g rest))) := by
  unfold span
  rw [List.head?_cons, List.getLast?_eq_some_getLast (cons_ne_nil g rest)]
  rfl

theorem mergeTwo_fileEnd (g h : ElfPhdr) :
    (mergeTwo g h).pOffset + (mergeTwo g h).pFilesz = h.pOffset + h.pFilesz := by
  change g.pOffset + (h.pOffset + h.pFilesz - g.pOffset) = _
  rw [add_sub_cancel]

theorem mergeTwo_memEnd (g h : ElfPhdr) :
    (mergeTwo g h).pVaddr + (mergeTwo g h).pMemsz = h.pVaddr + h.pMemsz := by
  change g.pVaddr + (h.pVaddr + h.pMemsz - g.pVaddr) = _
  rw [add_sub_cancel]

theorem mergeable_same (hm : mergeable pagesz g h = true) :
    g.pType = ptLoad ∧ h.pType = ptLoad ∧ g.pFlags &&& pfRwx = h.pFlags &&& pfRwx := by
  unfold mergeable at hm
  simp only [Bool.and_eq_true, beq_iff_eq] at hm
  exact ⟨hm.1.1.1.1, hm.1.1.1.2, hm.1.1.2⟩

/-- A header that was merged ends where the last of its run ends, so whether the next one is merged
with it is a matter of the last one. -/
theorem mergeable_mergeTwo (hm : g = h ∨
      g.pType = h.pType ∧ g.pFlags &&& pfRwx = h.pFlags &&& pfRwx) :
    mergeable pagesz (mergeTwo g h) q = mergeable pagesz h q := by
  have htype : (mergeTwo g h).pType = h.pType := by
    rcases hm with rfl | ⟨ht, -⟩
    · rfl
    · exact ht
  have hflags : (mergeTwo g h).pFlags &&& pfRwx = h.pFlags &&& pfRwx := by
    rcases hm with rfl | ⟨-, hf⟩
    · rfl
    · exact hf
  unfold mergeable
  rw [mergeTwo_fileEnd, mergeTwo_memEnd, htype, hflags]

theorem run_same (hchain : (g :: rest).IsChain fun x y => mergeable pagesz x y = true)
    (hh : h ∈ g :: rest) :
    g = h ∨ g.pType = h.pType ∧ g.pFlags &&& pfRwx = h.pFlags &&& pfRwx := by
  induction rest generalizing g with
  | nil => exact Or.inl (List.mem_singleton.mp hh).symm
  | cons q rest ih =>
    cases List.mem_cons.mp hh with
    | inl heq => exact Or.inl heq.symm
    | inr hmem =>
      obtain ⟨hm, hrest⟩ := List.isChain_cons_cons.mp hchain
      obtain ⟨hg, hq, hf⟩ := mergeable_same hm
      right
      rcases ih hrest hmem with rfl | ⟨ht, hf'⟩
      · exact ⟨hg.trans hq.symm, hf⟩
      · exact ⟨(hg.trans hq.symm).trans ht, hf.trans hf'⟩

theorem mergeFrom_eq (rest : List ElfPhdr)
    (hchain : (g :: run).IsChain fun x y => mergeable pagesz x y = true) :
    mergeFrom pagesz (mergeTwo g ((g :: run).getLast (cons_ne_nil g run))) rest =
      ((g :: run ++ rest).splitBy (mergeable pagesz)).filterMap span := by
  -- on the headers still to come: the run so far grows, or is finished
  induction rest generalizing g run with
  | nil =>
    rw [append_nil, splitBy_of_isChain (cons_ne_nil g run) hchain,
      filterMap_cons_some (span_cons g run)]
    rfl
  | cons q rest ih =>
    have hsame := run_same hchain (getLast_mem (cons_ne_nil g run))
    rw [mergeFrom, mergeable_mergeTwo hsame]
    split_ifs with hm
    · have hnext : (g :: (run ++ [q])).IsChain fun x y => mergeable pagesz x y = true := by
        rw [← cons_append, isChain_append]
        refine ⟨hchain, isChain_singleton q, ?_⟩
        intro x hx y hy
        rw [List.getLast?_eq_some_getLast (cons_ne_nil g run), Option.mem_some_iff] at hx
        rw [List.head?_cons, Option.mem_some_iff] at hy
        rw [← hx, ← hy]
        exact hm
      have hlast : (g :: (run ++ [q])).getLast (cons_ne_nil g (run ++ [q])) = q :=
        getLast_append_singleton (g :: run)
      have hgrow := ih hnext
      rw [hlast, cons_append, append_assoc, singleton_append] at hgrow
      exact hgrow
    · rw [splitBy_append_cons rest (by
          intro x hx
          rw [List.getLast?_eq_some_getLast (cons_ne_nil g run), Option.mem_some_iff] at hx
          rw [← hx]
          exact eq_false_of_ne_true hm),
        splitBy_of_isChain (cons_ne_nil g run) hchain, singleton_append,
        filterMap_cons_some (span_cons g run)]
      have hfresh := @ih q [] (isChain_singleton q)
      rw [getLast_singleton, mergeTwo_self, singleton_append] at hfresh
      rw [hfresh]

theorem mergeLoads_eq (l : List ElfPhdr) :
    mergeLoads pagesz l = (l.splitBy (mergeable pagesz)).filterMap span := by
  cases l with
  | nil => rfl
  | cons g rest =>
    have h := mergeFrom_eq rest (isChain_singleton (R := fun x y => mergeable pagesz x y = true) g)
    rwa [getLast_singleton, mergeTwo_self, singleton_append] at h

variable {arch : Arch} {ebuf file : Bytes} {kernel : Kernel} {loader : LoaderImage}
  {dynbase launch : BitVec 64} {done : List Call} {s : ElfPhdr}

theorem tryElf_spawns (htry : tryElf arch ebuf file pagesz = .spawns p) :
    p = mergeLoads (pageSize pagesz) (dropEmpty (phdrsOf ebuf file)) := by
  unfold tryElf at htry
  dsimp only at htry
  split_ifs at htry
  unfold phdrsOf
  cases hread : pread file ((readEhdr ebuf).ePhnum * sizeofPhdr) (readEhdr ebuf).ePhoff with
  | none => rw [hread] at htry; nomatch htry
  | some buf =>
    rw [hread] at htry
    dsimp only at htry ⊢
    split_ifs at htry
    unfold preparePhdrs at htry
    cases hfind : List.find? (fun h => h.pType == ptInterp || h.pType == ptDynamic)
        ((List.range (readEhdr ebuf).ePhnum).map fun i =>
          readPhdr (buf.drop (sizeofPhdr * i))) with
    | none =>
      rw [hfind] at htry
      exact (Tried.spawns.inj htry).symm
    | some h =>
      rw [hfind] at htry
      dsimp only at htry
      split_ifs at htry

theorem mem_spawned (htry : tryElf arch ebuf file pagesz = .spawns p) :
    s ∈ loads p ↔ s.pType = ptLoad ∧
      ∃ run ∈ runs (pageSize pagesz) (phdrsOf ebuf file), span run = some s := by
  rw [tryElf_spawns htry, mem_loads, mergeLoads_eq, mem_filterMap, and_comm]
  rfl

theorem mem_runs : (∃ run ∈ runs pagesz p, h ∈ run) ↔ h ∈ dropEmpty p := by
  rw [← mem_flatten]
  unfold runs
  rw [flatten_splitBy]

/-! ## The image that the headers describe -/

structure HeadersOk (ps : Nat) (file : Bytes) (phdrs : List ElfPhdr) : Prop where
  congruent : ∀ h ∈ loads phdrs, h.pVaddr.toNat % ps = h.pOffset.toNat % ps
  inside : ∀ h ∈ loads phdrs, h.pOffset.toNat + h.pFilesz.toNat ≤ file.length
  apart : (loads phdrs).Pairwise fun g h =>
    Disjoint (Set.Ico g.pVaddr.toNat (g.pVaddr.toNat + g.pMemsz.toNat))
      (Set.Ico h.pVaddr.toNat (h.pVaddr.toNat + h.pMemsz.toNat))

def describedByte (file : Bytes) (h : ElfPhdr) (k : Nat) : UInt8 :=
  if k < h.pFilesz.toNat then file.getD (h.pOffset.toNat + k) 0 else 0

def ImageRight (file : Bytes) (image : Image) (dynbase : Nat) (phdrs : List ElfPhdr) : Prop :=
  ∀ h ∈ loads phdrs, ∀ k, (k < h.pFilesz.toNat ∨ k < h.pMemsz.toNat) →
    image (dynbase + (h.pVaddr.toNat + k)) =
      some ⟨describedByte file h k, Prot.ofFlags h.pFlags⟩

theorem span_inside (hok : HeadersOk pagesz.toNat file p)
    (hrun : run ∈ runs pagesz p) (hspan : span run = some s) (hload : s.pType = ptLoad)
    (hoff : s.pOffset ≤ s.pOffset + s.pFilesz) :
    s.pOffset.toNat + s.pFilesz.toNat ≤ file.length := by
  cases run with
  | nil => nomatch hspan
  | cons g rest =>
    have hchain := isChain_of_mem_splitBy hrun
    rw [span_cons] at hspan
    obtain rfl := Option.some.inj hspan
    generalize hlast : (g :: rest).getLast (cons_ne_nil g rest) = m at *
    have hmem : m ∈ g :: rest := hlast ▸ getLast_mem _
    have htype : m.pType = ptLoad := by
      rcases run_same hchain hmem with rfl | ⟨ht, -⟩
      · exact hload
      · exact ht ▸ hload
    have hkept : m ∈ dropEmpty p := mem_runs.mp ⟨_, hrun, hmem⟩
    have hm := hok.inside m (mem_loads.mpr ⟨(List.mem_filter.mp hkept).1, htype⟩)
    have hsum := congrArg BitVec.toNat (mergeTwo_fileEnd g m)
    have hle := BitVec.le_def.mp hoff
    have hmod := Nat.mod_le (m.pOffset.toNat + m.pFilesz.toNat) (2 ^ 64)
    have ho := (mergeTwo g m).pOffset.isLt
    have hf := (mergeTwo g m).pFilesz.isLt
    rw [BitVec.toNat_add] at hle
    rw [BitVec.toNat_add, BitVec.toNat_add] at hsum
    omega

/-! ## Contiguous headers -/

/-- The header `h` follows `g` in the file as it does in the memory, and `g` has no bss. -/
def Follows (g h : ElfPhdr) : Prop :=
  g.pFilesz = g.pMemsz ∧ g.pVaddr.toNat + g.pMemsz.toNat ≤ h.pVaddr.toNat ∧
    h.pVaddr.toNat + g.pOffset.toNat = g.pVaddr.toNat + h.pOffset.toNat

/-- What the comment on the merge says of the headers: contiguous. -/
structure Contiguous (run : List ElfPhdr) : Prop where
  follows : run.IsChain Follows
  filesz : ∀ h ∈ run, h.pFilesz.toNat ≤ h.pMemsz.toNat
  memory : ∀ h ∈ run, h.pVaddr.toNat + h.pMemsz.toNat < 2 ^ 64
  file : ∀ h ∈ run, h.pOffset.toNat + h.pFilesz.toNat < 2 ^ 64

theorem Follows.trans (h₁ : Follows g h) (h₂ : Follows h q) : Follows g q := by
  unfold Follows at *
  refine ⟨h₁.1, ?_, ?_⟩ <;> omega

section

variable (hrun : Contiguous (g :: rest))
include hrun

theorem Contiguous.place (hh : h ∈ g :: rest) :
    (g = h ∨ Follows g h) ∧
      (h = (g :: rest).getLast (cons_ne_nil g rest) ∨
        Follows h ((g :: rest).getLast (cons_ne_nil g rest))) := by
  have hpair : (g :: rest).Pairwise Follows :=
    haveI : IsTrans ElfPhdr Follows := ⟨fun _ _ _ => Follows.trans⟩
    List.isChain_iff_pairwise.mp hrun.follows
  constructor
  · cases List.mem_cons.mp hh with
    | inl heq => exact Or.inl heq.symm
    | inr hmem => exact Or.inr ((List.pairwise_cons.mp hpair).1 h hmem)
  · generalize hne : cons_ne_nil g rest = hnil
    rw [← dropLast_append_getLast hnil] at hh hpair
    cases List.mem_append.mp hh with
    | inl hmem =>
      exact Or.inr ((List.pairwise_append.mp hpair).2.2 h hmem _ (List.mem_singleton.mpr rfl))
    | inr hlast => exact Or.inl (List.mem_singleton.mp hlast)

/-- Where a header starts, seen from the first of the run. -/
theorem Contiguous.start (hh : h ∈ g :: rest) :
    g.pVaddr.toNat ≤ h.pVaddr.toNat ∧
      h.pVaddr.toNat + g.pOffset.toNat = g.pVaddr.toNat + h.pOffset.toNat := by
  rcases (hrun.place hh).1 with rfl | hf
  · exact ⟨Nat.le_refl _, rfl⟩
  · unfold Follows at hf
    omega

theorem Contiguous.toNat_span {m : ElfPhdr} (hlast : (g :: rest).getLast (cons_ne_nil g rest) = m) :
    g.pVaddr.toNat + (mergeTwo g m).pMemsz.toNat = m.pVaddr.toNat + m.pMemsz.toNat ∧
      g.pVaddr.toNat + (mergeTwo g m).pFilesz.toNat = m.pVaddr.toNat + m.pFilesz.toNat := by
  have hmem : m ∈ g :: rest := hlast ▸ getLast_mem _
  have hmemory := hrun.memory m hmem
  have hfile := hrun.file m hmem
  have hfollow := hrun.start hmem
  have hspan {a b c : BitVec 64} (hlt : a.toNat + b.toNat < 2 ^ 64) (hle : c.toNat ≤ a.toNat + b.toNat) :
      (a + b - c).toNat = a.toNat + b.toNat - c.toNat := by
    rw [BitVec.toNat_sub_of_le, BitVec.toNat_add_of_lt hlt]
    rwa [BitVec.le_def, BitVec.toNat_add_of_lt hlt]
  have hM : (mergeTwo g m).pMemsz.toNat = m.pVaddr.toNat + m.pMemsz.toNat - g.pVaddr.toNat :=
    hspan hmemory (by omega)
  have hF : (mergeTwo g m).pFilesz.toNat = m.pOffset.toNat + m.pFilesz.toNat - g.pOffset.toNat :=
    hspan hfile (by omega)
  omega

theorem Contiguous.segByte_eq (file : Bytes) (hh : h ∈ g :: rest) {ps k : Nat} (hps : 0 < ps) {m : ElfPhdr}
    (hlast : (g :: rest).getLast (cons_ne_nil g rest) = m) (hk : k < h.pMemsz.toNat) :
    h.pVaddr.toNat + k ∈ segPages ps (mergeTwo g m) ∧
      segByte file ps (mergeTwo g m) (h.pVaddr.toNat + k) = describedByte file h k := by
  obtain ⟨hM, hF⟩ := hrun.toNat_span hlast
  have hend := (hrun.place hh).2
  rw [hlast] at hend
  have hfile := hrun.filesz h hh
  have hfiles : h.pFilesz = h.pMemsz → h.pFilesz.toNat = h.pMemsz.toNat := congrArg _
  have hvaddr : (mergeTwo g m).pVaddr = g.pVaddr := rfl
  have hoffset : (mergeTwo g m).pOffset = g.pOffset := rfl
  have hstart := hrun.start hh
  -- where it ends, seen from the last: only the last one may have bss
  have hstop : h.pVaddr.toNat + h.pMemsz.toNat ≤ m.pVaddr.toNat + m.pMemsz.toNat ∧
      h.pVaddr.toNat + h.pFilesz.toNat ≤ m.pVaddr.toNat + m.pFilesz.toNat ∧
      (h.pFilesz.toNat < h.pMemsz.toNat →
        h.pVaddr.toNat + h.pFilesz.toNat = m.pVaddr.toNat + m.pFilesz.toNat) := by
    rcases hend with rfl | hf
    · exact ⟨Nat.le_refl _, Nat.le_refl _, fun _ => rfl⟩
    · have hsame := hfiles hf.1
      have hle := hf.2.1
      omega
  have hup := le_roundUp hps (g.pVaddr.toNat + (mergeTwo g m).pFilesz.toNat)
  constructor
  · have hdown := roundDown_le ps g.pVaddr.toNat
    have hmem := le_roundUp hps (g.pVaddr.toNat + (mergeTwo g m).pMemsz.toNat)
    constructor
    · change roundDown ps g.pVaddr.toNat ≤ _
      omega
    · change _ < roundUp ps (g.pVaddr.toNat + (mergeTwo g m).pMemsz.toNat)
      omega
  · unfold segByte describedByte
    rw [hvaddr, hoffset]
    by_cases hcontent : k < h.pFilesz.toNat
    · have hne : (mergeTwo g m).pFilesz ≠ 0 := by
        intro hzero
        rw [hzero, show (0 : BitVec 64).toNat = 0 from rfl] at hF
        omega
      rw [if_pos hcontent, if_neg (by rw [not_or, not_or]; exact ⟨hne, by omega, by omega⟩)]
      congr 1
      omega
    · rw [if_neg hcontent, if_pos (by right; right; omega)]

end

theorem prot_ofFlags_eq {f₁ f₂ : BitVec 32} (h : f₁ &&& pfRwx = f₂ &&& pfRwx) :
    Prot.ofFlags f₁ = Prot.ofFlags f₂ := by
  have hbit : ∀ bit, pfRwx &&& bit = bit → f₁ &&& bit = f₂ &&& bit := by
    intro bit hbit
    rw [← hbit, ← BitVec.and_assoc, h, BitVec.and_assoc]
  unfold Prot.ofFlags
  rw [hbit pfR (by decide), hbit pfW (by decide), hbit pfX (by decide)]

/-- Nothing is lost by the merge where the headers of each run are contiguous, as the comment on it
has it, and the headers that are dropped have no file content. -/
theorem run_of_contiguous (hps : 0 < pagesz.toNat)
    (hfilesz : ∀ h ∈ loads p, h.pFilesz.toNat ≤ h.pMemsz.toNat)
    (hruns : ∀ run ∈ runs pagesz p, (∃ h ∈ run, h.pType = ptLoad) → Contiguous run)
    (hh : h ∈ loads p) {k : Nat} (hk : k < h.pFilesz.toNat ∨ k < h.pMemsz.toNat) :
    ∃ run ∈ runs pagesz p, ∃ s, span run = some s ∧ s.pType = ptLoad ∧
      h.pVaddr.toNat + k ∈ segPages pagesz.toNat s ∧
      segCell file pagesz.toNat s (h.pVaddr.toNat + k) =
        ⟨describedByte file h k, Prot.ofFlags h.pFlags⟩ := by
  have hk' : k < h.pMemsz.toNat := by
    have hle := hfilesz h hh
    omega
  obtain ⟨hp, hload⟩ := mem_loads.mp hh
  have hkept : h ∈ dropEmpty p := by
    apply List.mem_filter.mpr
    refine ⟨hp, ?_⟩
    have hne : h.pMemsz ≠ 0 := by
      intro hzero
      rw [hzero] at hk'
      exact absurd hk' (Nat.not_lt_zero k)
    rw [beq_eq_false_iff_ne.mpr hne, Bool.and_false]
    rfl
  obtain ⟨run, hrun, hmem⟩ := mem_runs.mpr hkept
  have hcont := hruns run hrun ⟨h, hmem, hload⟩
  cases run with
  | nil => nomatch hmem
  | cons g rest =>
    have hsame := run_same (isChain_of_mem_splitBy hrun) hmem
    obtain ⟨hpages, hbyte⟩ := hcont.segByte_eq file hmem hps rfl hk'
    refine ⟨_, hrun, _, span_cons g rest, ?_, hpages, ?_⟩
    · rcases hsame with rfl | ⟨ht, -⟩
      · exact hload
      · exact ht.trans hload
    · refine congrArg₂ Cell.mk hbyte ?_
      rcases hsame with rfl | ⟨-, hf⟩
      · rfl
      · exact prot_ofFlags_eq hf

/-! ## The image of a file -/

/-- For every file and page size for which the loader reaches the program: the memory is what the
headers describe if those of each run are contiguous. -/
theorem imageRight_of_contiguous (htry : tryElf arch ebuf file pagesz = .spawns p)
    (hlaunch : spawn kernel loader (pageSize pagesz) (readEhdr ebuf).eType (readEhdr ebuf).eEntry p =
      .launched dynbase done launch)
    (hok : HeadersOk (pageSize pagesz).toNat file (phdrsOf ebuf file))
    (hfilesz : ∀ h ∈ loads (phdrsOf ebuf file), h.pFilesz.toNat ≤ h.pMemsz.toNat)
    (hruns : ∀ run ∈ runs (pageSize pagesz) (phdrsOf ebuf file), (∃ h ∈ run, h.pType = ptLoad) →
      Contiguous run) :
    ImageRight file (imageOf file (pageSize pagesz).toNat (fun _ => none) done) dynbase.toNat
      (phdrsOf ebuf file) := by
  have hfile : ∀ s ∈ loads p, s.pFilesz ≠ 0 →
      s.pOffset.toNat + s.pFilesz.toNat ≤ file.length := by
    intro s hs _
    obtain ⟨hload, run, hrun, hspan⟩ := (mem_spawned htry).mp hs
    obtain ⟨f, hacc, -⟩ := spawn_launched hlaunch
    have hchecked := (validated_of_validate hacc.1).checked s hs
    exact span_inside hok hrun hspan hload hchecked.offset
  have hpower := tryElf_pageSize htry
  have hps : 0 < (pageSize pagesz).toNat := by
    obtain ⟨k, -, hk⟩ := hpower
    rw [hk]
    exact Nat.two_pow_pos k
  intro h hh k hk
  obtain ⟨run, hrun, s, hspan, hload, hpages, hcell⟩ := run_of_contiguous hps hfilesz hruns hh hk
  exact (imageOf_launched hpower hlaunch hfile _ _).mpr
    ⟨s, (mem_spawned htry).mpr ⟨hload, run, hrun, hspan⟩, hpages, hcell⟩

def contiguousFile : Bytes :=
  execHeader 0x10080 2 ++ loadHeader pfRwx 0 0x10000 0x100 0x100 ++
    loadHeader pfRwx 0x100 0x10100 0x10 0x20 ++ List.replicate 96 0xcc

theorem imageRight_contiguousFile :
    ImageRight contiguousFile
      (imageOf contiguousFile 4096 (fun _ => none)
        [.progMmap 0x10000 0x110 ⟨true, true, true⟩ 0, .bzero 0x10110 0x10])
      0 (phdrsOf (execHeader 0x10080 2) contiguousFile) := by
  have htry : tryElf .x86_64 (execHeader 0x10080 2) contiguousFile 4096 =
      .spawns [⟨ptLoad, pfRwx, 0, 0x10000, 0x110, 0x120, 4096⟩] := by decide
  have hlaunch : spawn willingKernel ⟨0x200000, 0x210000⟩ (pageSize 4096)
      (readEhdr (execHeader 0x10080 2)).eType (readEhdr (execHeader 0x10080 2)).eEntry
      [⟨ptLoad, pfRwx, 0, 0x10000, 0x110, 0x120, 4096⟩] =
      .launched 0 [.progMmap 0x10000 0x110 ⟨true, true, true⟩ 0, .bzero 0x10110 0x10] 0x10080 := by
    decide
  have hphdrs : phdrsOf (execHeader 0x10080 2) contiguousFile =
      [⟨ptLoad, pfRwx, 0, 0x10000, 0x100, 0x100, 4096⟩, ⟨ptLoad, pfRwx, 0x100, 0x10100, 0x10, 0x20, 4096⟩] := by
    decide
  have hruns : runs 4096 [⟨ptLoad, pfRwx, 0, 0x10000, 0x100, 0x100, 4096⟩,
      ⟨ptLoad, pfRwx, 0x100, 0x10100, 0x10, 0x20, 4096⟩] =
      [[⟨ptLoad, pfRwx, 0, 0x10000, 0x100, 0x100, 4096⟩, ⟨ptLoad, pfRwx, 0x100, 0x10100, 0x10, 0x20, 4096⟩]] := by
    decide
  apply imageRight_of_contiguous htry hlaunch
  · rw [hphdrs]
    refine ⟨by decide +kernel, by decide +kernel, ?_⟩
    simp only [Set.Ico_disjoint_Ico]
    decide
  · rw [hphdrs]
    decide
  · rw [hphdrs]
    intro run hrun _
    change run ∈ runs 4096 _ at hrun
    rw [hruns, mem_singleton] at hrun
    subst hrun
    exact ⟨by unfold Follows; decide, by decide, by decide,
      by decide⟩

def bssBetweenFile : Bytes :=
  execHeader 0x10080 2 ++ loadHeader pfRwx 0 0x10000 0x800 0x900 ++
    loadHeader pfRwx 0x1000 0x11000 0x10 0x10 ++ List.replicate 0xf60 0xcc

/-- They are merged, so that the bss of the first has the bytes that come next in the file. -/
theorem not_imageRight_bssBetween :
    tryElf .x86_64 (execHeader 0x10080 2) bssBetweenFile 4096 =
      .spawns [⟨ptLoad, pfRwx, 0, 0x10000, 0x1010, 0x1010, 4096⟩] ∧
    spawn willingKernel ⟨0x200000, 0x210000⟩ 4096 etExec 0x10080
        [⟨ptLoad, pfRwx, 0, 0x10000, 0x1010, 0x1010, 4096⟩] =
      .launched 0 [.progMmap 0x10000 0x1010 ⟨true, true, true⟩ 0] 0x10080 ∧
    HeadersOk 4096 bssBetweenFile (phdrsOf (execHeader 0x10080 2) bssBetweenFile) ∧
    ¬ImageRight bssBetweenFile
      (imageOf bssBetweenFile 4096 (fun _ => none)
        [.progMmap 0x10000 0x1010 ⟨true, true, true⟩ 0])
      0 (phdrsOf (execHeader 0x10080 2) bssBetweenFile) := by
  have hphdrs : phdrsOf (execHeader 0x10080 2) bssBetweenFile =
      [⟨ptLoad, pfRwx, 0, 0x10000, 0x800, 0x900, 4096⟩,
        ⟨ptLoad, pfRwx, 0x1000, 0x11000, 0x10, 0x10, 4096⟩] := by
    decide
  rw [hphdrs]
  refine ⟨by decide +kernel, by decide +kernel, ?_, ?_⟩
  · refine ⟨by decide +kernel, by decide +kernel, ?_⟩
    simp only [Set.Ico_disjoint_Ico]
    decide
  · intro h
    have hbyte := h ⟨ptLoad, pfRwx, 0, 0x10000, 0x800, 0x900, 4096⟩ (by decide) 0x800 (by decide)
    revert hbyte
    decide +kernel

end CosmoRuby.Ape
