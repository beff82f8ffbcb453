import CosmoRuby.Ape.Safety
import CosmoRuby.Lib.Region

/-!
# The memory image

What the calls of `Spawn` make of the memory, if `mmap` and `mprotect` do what POSIX says. Each
segment of the table that `Spawn` is given comes out as its header describes it.
-/

namespace CosmoRuby.Ape

open Lib List

/-! ## Calls on a memory -/

structure Cell where
  byte : UInt8
  prot : Prot
  deriving DecidableEq, Repr

abbrev Image : Type := Nat → Option Cell

/-- A mapped byte of a file. The rest of the last page is zero; pages after it cannot be touched. -/
def fileCell (file : Bytes) (ps pos : Nat) (prot : Prot) : Option Cell :=
  if pos < roundUp ps file.length then some ⟨file.getD pos 0, prot⟩ else none

def Call.exec (file : Bytes) (ps : Nat) (m : Image) (c : Call) : Image :=
  onRegion c.addr.toNat (c.stop ps)
    (match c with
    | .progMmap addr _ prot off => fun a _ =>
      fileCell file ps (off.toNat + (a - addr.toNat)) prot
    | .bzero .. => fun _ cell => cell.map fun x => { x with byte := 0 }
    | .progMprotect _ _ prot => fun _ cell => cell.map fun x => { x with prot := prot }
    | .extraBss _ _ prot | .bssMmap _ _ prot => fun _ _ => some ⟨0, prot⟩) m

def imageOf (file : Bytes) (ps : Nat) (m : Image) (calls : List Call) : Image :=
  calls.foldl (Call.exec file ps) m

theorem Call.exec_outside {file : Bytes} {ps x : Nat} (m : Image) (c : Call)
    (h : x < c.addr.toNat ∨ c.stop ps ≤ x) : c.exec file ps m x = m x :=
  onRegion_outside _ m h

theorem imageOf_singleton (file : Bytes) (ps : Nat) (m : Image) (c : Call) :
    imageOf file ps m [c] = c.exec file ps m :=
  rfl

theorem imageOf_append (file : Bytes) (ps : Nat) (m : Image) (l₁ l₂ : List Call) :
    imageOf file ps m (l₁ ++ l₂) = imageOf file ps (imageOf file ps m l₁) l₂ :=
  foldl_append

def segByte (file : Bytes) (ps : Nat) (s : ElfPhdr) (a : Nat) : UInt8 :=
  if s.pFilesz = 0 ∨ roundUp ps (s.pVaddr.toNat + s.pFilesz.toNat) ≤ a ∨
      (s.pVaddr.toNat + s.pFilesz.toNat ≤ a ∧ a < s.pVaddr.toNat + s.pMemsz.toNat) then 0
  else file.getD (s.pOffset.toNat + a - s.pVaddr.toNat) 0

def segCell (file : Bytes) (ps : Nat) (s : ElfPhdr) (a : Nat) : Cell :=
  ⟨segByte file ps s a, Prot.ofFlags s.pFlags⟩

/-! ## One segment -/

variable {loader : LoaderImage} {pagesz entry dynbase : BitVec 64} {s : ElfPhdr}
  {p : List ElfPhdr} {f : Found} {k : Nat} {kernel : Kernel} {eType : Nat} {file : Bytes}

theorem toNat_wipe_eq (hk : pagesz.toNat = 2 ^ k) (hs : Sums pagesz s) :
    (wipe pagesz s).toNat =
      min (roundUp pagesz.toNat (s.pVaddr.toNat + s.pFilesz.toNat) -
        (s.pVaddr.toNat + s.pFilesz.toNat)) (s.pMemsz.toNat - s.pFilesz.toNat) := by
  have hps := toNat_pagesz_pos hk
  have hfile := hs.toNat_fileStop
  have hdata := hs.toNat_dataStop
  have hbss := hs.toNat_bssStart hk
  have hle := hs.filesz
  have hup := le_roundUp hps (s.pVaddr.toNat + s.pFilesz.toNat)
  have hpage : (bssStart pagesz s - fileStop s).toNat =
      (bssStart pagesz s).toNat - (fileStop s).toNat :=
    BitVec.toNat_sub_of_le (by rw [BitVec.le_def]; omega)
  have hrest : (dataStop s - fileStop s).toNat = (dataStop s).toNat - (fileStop s).toNat :=
    BitVec.toNat_sub_of_le (by rw [BitVec.le_def]; omega)
  unfold wipe wordMin
  split_ifs with hlt
  all_goals
    rw [BitVec.lt_def] at hlt
    omega

section Segment

variable (hk : pagesz.toNat = 2 ^ k) (hs : Sums pagesz s)
  (hbase : dynbase.toNat + segStop pagesz.toNat s < 2 ^ 64) {a : Nat}

include hk hs hbase

theorem toNat_base_fileStop :
    (dynbase + fileStop s).toNat = dynbase.toNat + (s.pVaddr.toNat + s.pFilesz.toNat) := by
  have hps := toNat_pagesz_pos hk
  have hfile := hs.toNat_fileStop
  have hbounds := seg_bounds hps s
  have hle := hs.filesz
  rw [← hfile]
  exact BitVec.toNat_add_of_lt (by omega)

section

variable (hhigh : a < roundUp pagesz.toNat (s.pVaddr.toNat + s.pFilesz.toNat))
include hhigh

/-- The file content is mapped so that each address has the byte at its distance from the start. -/
theorem exec_progMmap (hcong : s.pVaddr &&& (pagesz - 1) = s.pOffset &&& (pagesz - 1))
    (hfile : s.pOffset.toNat + s.pFilesz.toNat ≤ file.length) (m : Image) (prot : Prot)
    (hlow : segStart pagesz.toNat s ≤ a) :
    (Call.progMmap (dynbase + pageStart pagesz s) ((s.pVaddr &&& (pagesz - 1)) + s.pFilesz) prot
        (s.pOffset &&& -pagesz)).exec file pagesz.toNat m (dynbase.toNat + a) =
      some ⟨file.getD (s.pOffset.toNat + a - s.pVaddr.toNat) 0, prot⟩ := by
  have hps := toNat_pagesz_pos hk
  have haddr := toNat_base_pageStart hk hbase
  have hstop := stop_pages hk hs hbase hs.filesz
  have hmod : s.pVaddr.toNat % pagesz.toNat = s.pOffset.toNat % pagesz.toNat := by
    rw [← toNat_and_pred hk, ← toNat_and_pred hk, hcong]
  have hv := segStart_add_mod pagesz.toNat s
  have ho := roundDown_add_mod pagesz.toNat s.pOffset.toNat
  have hpos : (s.pOffset &&& -pagesz).toNat + (dynbase.toNat + a -
      (dynbase + pageStart pagesz s).toNat) = s.pOffset.toNat + a - s.pVaddr.toNat := by
    rw [toNat_and_neg hk]
    omega
  -- the pages of the file content end with the page that the content ends in
  have hpages : s.pOffset.toNat + a - s.pVaddr.toNat < roundUp pagesz.toNat file.length := by
    have hsame := segStart_roundUp hps s s.pFilesz.toNat
    have hoff := roundUp_add hps (dvd_roundDown pagesz.toNat s.pOffset.toNat)
      (s.pVaddr.toNat % pagesz.toNat + s.pFilesz.toNat)
    have hmono := roundUp_mono hps hfile
    have hsum : roundDown pagesz.toNat s.pOffset.toNat +
        (s.pVaddr.toNat % pagesz.toNat + s.pFilesz.toNat) =
          s.pOffset.toNat + s.pFilesz.toNat := by omega
    rw [hsum] at hoff
    omega
  unfold Call.exec
  rw [onRegion_inside _ _ (by dsimp only [Call.addr]; omega)
    (by dsimp only [Call.stop, Call.addr, Call.size]; omega)]
  dsimp only
  rw [hpos]
  exact if_pos hpages

theorem imageOf_wipe (m : Image) {c : Cell} (hcell : m (dynbase.toNat + a) = some c) :
    imageOf file pagesz.toNat m
        (if wipe pagesz s ≠ 0 then [Call.bzero (dynbase + fileStop s) (wipe pagesz s)] else [])
        (dynbase.toNat + a) =
      some { c with
        byte := if s.pVaddr.toNat + s.pFilesz.toNat ≤ a ∧ a < s.pVaddr.toNat + s.pMemsz.toNat
          then 0 else c.byte } := by
  have haddr := toNat_base_fileStop hk hs hbase
  have hwipe := toNat_wipe_eq hk hs
  have hle := hs.filesz
  by_cases hbss : s.pVaddr.toNat + s.pFilesz.toNat ≤ a ∧ a < s.pVaddr.toNat + s.pMemsz.toNat
  · have hne : wipe pagesz s ≠ 0 := by
      intro hzero
      rw [hzero, show (0 : BitVec 64).toNat = 0 from rfl] at hwipe
      omega
    rw [if_pos hne, if_pos hbss]
    rw [imageOf_singleton, Call.exec, onRegion_inside _ _ (by dsimp only [Call.addr]; omega)
      (by dsimp only [Call.stop]; omega), hcell]
    rfl
  · rw [if_neg hbss]
    split_ifs with hne
    · rw [imageOf_singleton, Call.exec_outside _ _ (by dsimp only [Call.stop, Call.addr]; omega)]
      exact hcell
    · exact hcell

theorem imageOf_protect (m : Image) {byte : UInt8} {first prot : Prot}
    (hcell : m (dynbase.toNat + a) = some ⟨byte, first⟩) (hlow : segStart pagesz.toNat s ≤ a) :
    imageOf file pagesz.toNat m
        (if prot ≠ first then
          [Call.progMprotect (dynbase + pageStart pagesz s)
            ((s.pVaddr &&& (pagesz - 1)) + s.pFilesz) prot] else [])
        (dynbase.toNat + a) = some ⟨byte, prot⟩ := by
  have haddr := toNat_base_pageStart hk hbase
  have hstop := stop_pages hk hs hbase hs.filesz
  split_ifs with hne
  · rw [imageOf_singleton, Call.exec, onRegion_inside _ _ (by dsimp only [Call.addr]; omega)
      (by dsimp only [Call.stop, Call.addr, Call.size]; omega), hcell]
    rfl
  · rw [not_not.mp hne]
    exact hcell

end

theorem imageOf_extraBss (m : Image) {prot : Prot} :
    imageOf file pagesz.toNat m
        (if bssStart pagesz s < dataStop s then
          [Call.extraBss (dynbase + bssStart pagesz s) (dataStop s - bssStart pagesz s) prot]
        else []) (dynbase.toNat + a) =
      if roundUp pagesz.toNat (s.pVaddr.toNat + s.pFilesz.toNat) ≤ a ∧ a < segStop pagesz.toNat s
      then some ⟨0, prot⟩ else m (dynbase.toNat + a) := by
  have hps := toNat_pagesz_pos hk
  have hstart := hs.toNat_bssStart hk
  have hdata := hs.toNat_dataStop
  split_ifs with hlt hin hin
  · have hend := extraBss_stop hk hs hbase hlt
    rw [imageOf_singleton, Call.exec, onRegion_inside _ _ (by dsimp only [Call.addr]; omega)
      (by dsimp only [Call.stop, Call.addr, Call.size]; omega)]
  · have hend := extraBss_stop hk hs hbase hlt
    rw [imageOf_singleton, Call.exec_outside _ _
      (by dsimp only [Call.stop, Call.addr, Call.size]; omega)]
  · -- the bss ends in the last page of the file content
    rw [BitVec.lt_def] at hlt
    have hmono := roundUp_le hps (show s.pVaddr.toNat + s.pMemsz.toNat ≤
      roundUp pagesz.toNat (s.pVaddr.toNat + s.pFilesz.toNat) by omega) (dvd_roundUp _ _)
    change _ ≤ _ ∧ _ < roundUp _ _ at hin
    omega
  · rfl

theorem imageOf_segment (hcong : s.pVaddr &&& (pagesz - 1) = s.pOffset &&& (pagesz - 1))
    (hfile : s.pFilesz ≠ 0 → s.pOffset.toNat + s.pFilesz.toNat ≤ file.length) (m : Image)
    (ha : a ∈ segPages pagesz.toNat s) :
    imageOf file pagesz.toNat m (segmentCalls dynbase pagesz s) (dynbase.toNat + a) =
      some (segCell file pagesz.toNat s a) := by
  obtain ⟨hlow, hhigh⟩ := ha
  unfold segmentCalls segCell segByte
  by_cases hempty : s.pFilesz = 0
  · -- pure bss
    have haddr := toNat_base_pageStart hk hbase
    have hstop := stop_pages hk hs hbase (Nat.le_refl s.pMemsz.toNat)
    rw [if_neg (not_not.mpr hempty), if_pos (Or.inl hempty), imageOf_singleton, Call.exec,
      onRegion_inside _ _ (by dsimp only [Call.addr]; omega) (by
        dsimp only [Call.stop, Call.addr, Call.size]
        change _ < roundUp _ _ at hhigh
        omega)]
  · rw [if_pos hempty]
    unfold fileCalls
    dsimp only
    rw [← singleton_append, imageOf_append, imageOf_extraBss hk hs hbase]
    by_cases hbss : roundUp pagesz.toNat (s.pVaddr.toNat + s.pFilesz.toNat) ≤ a
    · rw [if_pos ⟨hbss, hhigh⟩, if_pos (Or.inr (Or.inl hbss))]
    · rw [if_neg fun h => hbss h.1, imageOf_append, imageOf_append, imageOf_singleton]
      have hlt := Nat.lt_of_not_le hbss
      have hmap := exec_progMmap hk hs hbase hlt hcong (hfile hempty) m (firstProt pagesz s) hlow
      rw [imageOf_protect hk hs hbase hlt _ (imageOf_wipe hk hs hbase hlt _ hmap) hlow]
      simp only [hempty, hbss, false_or]

theorem imageOf_segment_outside (m : Image) {x : Nat}
    (hx : ∀ a ∈ segPages pagesz.toNat s, x ≠ dynbase.toNat + a) :
    imageOf file pagesz.toNat m (segmentCalls dynbase pagesz s) x = m x := by
  have hout : x < dynbase.toNat + segStart pagesz.toNat s ∨
      dynbase.toNat + segStop pagesz.toNat s ≤ x := by
    by_contra hin
    rw [not_or, Nat.not_lt, Nat.not_le] at hin
    exact hx (x - dynbase.toNat) ⟨by omega, by omega⟩ (by omega)
  have hcalls : ∀ c ∈ segmentCalls dynbase pagesz s, Inside pagesz.toNat dynbase s c :=
    fun c hc => inside_segmentCalls hk hs hbase hc
  generalize segmentCalls dynbase pagesz s = calls at hcalls
  induction calls generalizing m with
  | nil => rfl
  | cons c calls ih =>
    have hc := hcalls c mem_cons_self
    rw [← singleton_append, imageOf_append, imageOf_singleton,
      ih _ fun d hd => hcalls d (mem_cons_of_mem c hd)]
    apply Call.exec_outside
    unfold Inside at hc
    omega

end Segment

/-! ## The whole table -/

def loadedPages (ps base : Nat) (s : ElfPhdr) : Set Nat :=
  Set.Ico (base + segStart ps s) (base + segStop ps s)

theorem mem_loadedPages {ps base a : Nat} (s : ElfPhdr) : base + a ∈ loadedPages ps base s ↔ a ∈ segPages ps s :=
  and_congr (Nat.add_le_add_iff_left) (Nat.add_lt_add_iff_left)

section

variable (h : Small loader pagesz entry p f) (hbase : chooseBase kernel pagesz eType f = .ok dynbase)
  (hfile : ∀ s ∈ loads p, s.pFilesz ≠ 0 → s.pOffset.toNat + s.pFilesz.toNat ≤ file.length)
include h hbase hfile

theorem writes_segments :
    Writes (loads p) (loadedPages pagesz.toNat dynbase.toNat)
      (fun s x => some (segCell file pagesz.toNat s (x - dynbase.toNat)))
      fun m s => imageOf file pagesz.toNat m (segmentCalls dynbase pagesz s) := by
  obtain ⟨k, -, hk⟩ := h.power
  exact {
    inside := by
      intro s hs m x hx
      obtain ⟨a, rfl⟩ := Nat.exists_eq_add_of_le (show dynbase.toNat ≤ x by have := hx.1; omega)
      rw [Nat.add_sub_cancel_left]
      exact imageOf_segment hk (h.sums hs) (h.base_lt hs hbase) (h.validated.checked s hs).congruent
        (hfile s hs) m ((mem_loadedPages s).mp hx)
    outside := by
      intro s hs m x hx
      apply imageOf_segment_outside hk (h.sums hs) (h.base_lt hs hbase)
      rintro a ha rfl
      exact hx ((mem_loadedPages s).mpr ha)
    disjoint := by
      apply h.disjoint.imp
      intro s t hdis
      rw [Set.disjoint_left] at hdis ⊢
      intro x hx hxt
      obtain ⟨a, rfl⟩ := Nat.exists_eq_add_of_le (show dynbase.toNat ≤ x by have := hx.1; omega)
      exact hdis ((mem_loadedPages s).mp hx) ((mem_loadedPages t).mp hxt) }

theorem imageOf_loads (a : Nat) (c : Cell) :
    imageOf file pagesz.toNat (fun _ => none) ((loads p).flatMap (segmentCalls dynbase pagesz))
        (dynbase.toNat + a) = some c ↔
      ∃ s ∈ loads p, a ∈ segPages pagesz.toNat s ∧ segCell file pagesz.toNat s a = c := by
  have hw := writes_segments h hbase hfile
  have hfold : imageOf file pagesz.toNat (fun _ => none)
      ((loads p).flatMap (segmentCalls dynbase pagesz)) = (loads p).foldl
        (fun m s => imageOf file pagesz.toNat m (segmentCalls dynbase pagesz s)) fun _ => none :=
    List.foldl_flatMap
  rw [hfold]
  by_cases hin : ∃ s ∈ loads p, a ∈ segPages pagesz.toNat s
  · obtain ⟨s, hs, ha⟩ := hin
    have hcell := hw.foldl_inside (fun _ => none) hs ((mem_loadedPages s).mpr ha)
    rw [Nat.add_sub_cancel_left] at hcell
    rw [hcell]
    constructor
    · intro heq
      exact ⟨s, hs, ha, Option.some.inj heq⟩
    · rintro ⟨t, ht, hat, heq⟩
      have hother := hw.foldl_inside (fun _ => none) ht ((mem_loadedPages t).mpr hat)
      rw [hcell, Nat.add_sub_cancel_left, heq] at hother
      exact hother
  · have hnone := hw.foldl_outside (a := dynbase.toNat + a) (fun _ => none)
      fun s hs ha => hin ⟨s, hs, (mem_loadedPages s).mp ha⟩
    rw [hnone]
    constructor
    · intro heq
      nomatch heq
    · rintro ⟨s, hs, ha, -⟩
      exact absurd ⟨s, hs, ha⟩ hin

end

/-! ## Launch -/

theorem runCalls_ok {calls done done' : List Call}
    (h : runCalls kernel done calls = .ok done') :
    done' = done ++ calls ∧ ∀ c ∈ calls, c.Fits := by
  induction calls generalizing done with
  | nil =>
    cases h
    exact ⟨(append_nil _).symm, fun c hc => nomatch hc⟩
  | cons c calls ih =>
    rcases runCalls_cons kernel done c calls with ⟨hc, hstep⟩ | hstep
    · rw [hstep] at h
      obtain ⟨hdone, hcalls⟩ := ih h
      rw [append_assoc, singleton_append] at hdone
      exact ⟨hdone, List.forall_mem_cons.mpr ⟨hc, hcalls⟩⟩
    · rw [hstep] at h
      nomatch h

theorem spawn_launched {done : List Call} {launch : BitVec 64}
    (h : spawn kernel loader pagesz eType entry p = .launched dynbase done launch) :
    ∃ f, Accepted loader pagesz entry p f ∧ chooseBase kernel pagesz eType f = .ok dynbase ∧
      done = (loads p).flatMap (segmentCalls dynbase pagesz) ∧
      ∀ s ∈ loads p, ∀ c ∈ segmentCalls dynbase pagesz s, c.Fits := by
  have hpow : pagesz &&& (pagesz - 1) = 0 := by
    by_contra hne
    rw [spawn, if_pos hne] at h
    nomatch h
  by_cases hacc : ∃ f, Accepted loader pagesz entry p f
  · obtain ⟨f, hacc⟩ := hacc
    obtain ⟨hbase, -⟩ := spawn_run hpow hacc "" (Or.inr h)
    obtain ⟨hdone, hcalls⟩ := runCalls_ok (spawn_launch hpow hacc hbase h).1
    exact ⟨f, hacc, hbase, hdone, fun s hs c hc => hcalls c (List.mem_flatMap.mpr ⟨s, hs, hc⟩)⟩
  · obtain ⟨why, hexit⟩ := spawn_not_accepted kernel eType hacc
    rw [hexit] at h
    nomatch h

/-- The system does not let a segment through that is so large that rounding up its size wraps. -/
theorem memsz_small_of_mapped (hk : pagesz.toNat = 2 ^ k) (hk64 : k < 64)
    (hv : Validated loader pagesz entry p ⟨false, 0, 0⟩ f) (hs : s ∈ loads p)
    (hbase : chooseBase kernel pagesz eType f = .ok dynbase)
    (hcalls : ∀ c ∈ segmentCalls dynbase pagesz s, c.Fits) :
    s.pMemsz.toNat + (pagesz.toNat - 1) < 2 ^ 64 := by
  have hps := toNat_pagesz_pos hk
  have hhalf : pagesz.toNat ≤ 2 ^ 63 := by
    rw [hk]
    exact Nat.pow_le_pow_right (by omega) (by omega)
  by_contra hbig
  have hchecked := hv.checked s hs
  have hwrap := BitVec.le_def.mp hchecked.vaddr
  rw [BitVec.toNat_add] at hwrap
  have hv64 := s.pVaddr.isLt
  have hm64 := s.pMemsz.isLt
  -- the segment starts in the first page and ends in the last one
  have hdata : (dataStop s).toNat = s.pVaddr.toNat + s.pMemsz.toNat :=
    BitVec.toNat_add_of_lt (by omega)
  by_cases hdyn : eType = etDyn
  · subst hdyn
    obtain ⟨-, hfits⟩ := chooseBase_dyn hk hk64 (hv.virtmin rfl) hbase
    have hmax := BitVec.le_def.mp (hv.virtmax s hs)
    change (dataStop s).toNat ≤ _ at hmax
    have hup := le_roundUp hps f.virtmax.toNat
    omega
  · obtain rfl := chooseBase_exec hdyn hbase
    unfold segmentCalls at hcalls
    split_ifs at hcalls with hfile
    · have hlast : (bssStart pagesz s).toNat < (dataStop s).toNat := by
        have hmul : (bssStart pagesz s).toNat + pagesz.toNat ≤ 2 ^ 64 := by
          unfold bssStart
          rw [toNat_and_neg hk]
          have hdvd := dvd_roundDown pagesz.toNat (fileStop s + (pagesz - 1)).toNat
          have hle := roundDown_le pagesz.toNat (fileStop s + (pagesz - 1)).toNat
          have hlt := (fileStop s + (pagesz - 1)).isLt
          have hdvd64 : pagesz.toNat ∣ 2 ^ 64 := by
            rw [hk]
            exact Nat.pow_dvd_pow 2 (by omega)
          exact Nat.le_of_lt_add_of_dvd (by omega) (Nat.dvd_add hdvd (Nat.dvd_refl _)) hdvd64
        omega
      have hextra := hcalls (.extraBss (0 + bssStart pagesz s) (dataStop s - bssStart pagesz s)
        (Prot.ofFlags s.pFlags)) (by
          unfold fileCalls
          dsimp only
          rw [if_pos (BitVec.lt_def.mpr hlast)]
          exact mem_append_right _ (List.mem_singleton.mpr rfl))
      rcases hextra with ⟨a, n, heq⟩ | ⟨-, hfits⟩
      · nomatch heq
      · change (0 + bssStart pagesz s).toNat + (dataStop s - bssStart pagesz s).toNat ≤ _ at hfits
        rw [zero_add, BitVec.toNat_sub_of_le (by rw [BitVec.le_def]; omega)] at hfits
        omega
    · rcases hcalls _ (List.mem_singleton.mpr rfl) with ⟨a, n, heq⟩ | ⟨-, hfits⟩
      · nomatch heq
      · change _ + ((s.pVaddr &&& (pagesz - 1)) + s.pMemsz).toNat ≤ _ at hfits
        have hmod : s.pVaddr.toNat % pagesz.toNat = s.pVaddr.toNat :=
          Nat.mod_eq_of_lt (by omega)
        rw [BitVec.toNat_add (s.pVaddr &&& (pagesz - 1)), toNat_and_pred hk, hmod,
          Nat.mod_eq_of_lt (show s.pVaddr.toNat + s.pMemsz.toNat < 2 ^ 64 by omega)] at hfits
        omega

theorem imageOf_launched (hpower : ∃ k < 64, pagesz.toNat = 2 ^ k) {done : List Call}
    {launch : BitVec 64}
    (h : spawn kernel loader pagesz eType entry p = .launched dynbase done launch)
    (hfile : ∀ s ∈ loads p, s.pFilesz ≠ 0 → s.pOffset.toNat + s.pFilesz.toNat ≤ file.length)
    (a : Nat) (c : Cell) :
    imageOf file pagesz.toNat (fun _ => none) done (dynbase.toNat + a) = some c ↔
      ∃ s ∈ loads p, a ∈ segPages pagesz.toNat s ∧ segCell file pagesz.toNat s a = c := by
  obtain ⟨f, hacc, hbase, rfl, hcalls⟩ := spawn_launched h
  have hsmall : Small loader pagesz entry p f := ⟨hacc, hpower, fun s hs => by
    obtain ⟨k, hk64, hk⟩ := hpower
    exact memsz_small_of_mapped hk hk64 (validated_of_validate hacc.1) hs hbase (hcalls s hs)⟩
  exact imageOf_loads hsmall hbase hfile a c

end CosmoRuby.Ape
