import CosmoRuby.Ape.Loader

/-!
# Where the loader maps

Every mapping of `Spawn` is meant to stay inside the pages of its own segment, away from the other
segments and from the loader. The checks of the headers see to it, but for a segment so large that
rounding its end up to a page wraps around.
-/

namespace CosmoRuby.Ape

open Lib List

/-! ## Intervals -/

def segStart (ps : Nat) (s : ElfPhdr) : Nat := roundDown ps s.pVaddr.toNat

def segStop (ps : Nat) (s : ElfPhdr) : Nat := roundUp ps (s.pVaddr.toNat + s.pMemsz.toNat)

def segPages (ps : Nat) (s : ElfPhdr) : Set Nat := Set.Ico (segStart ps s) (segStop ps s)

def Call.stop (ps : Nat) : Call → Nat
  | .bzero a n => a.toNat + n.toNat
  | c => c.addr.toNat + roundUp ps c.size.toNat

def Inside (ps : Nat) (dynbase : BitVec 64) (s : ElfPhdr) (c : Call) : Prop :=
  dynbase.toNat + segStart ps s ≤ c.addr.toNat ∧ c.stop ps ≤ dynbase.toNat + segStop ps s

def Accepted (loader : LoaderImage) (pagesz entry : BitVec 64) (p : List ElfPhdr) (f : Found) :
    Prop :=
  validate loader pagesz entry p ⟨false, 0, 0⟩ = .ok f ∧ f.entry = true

structure SpawnSafe (k : Kernel) (loader : LoaderImage) (pagesz : BitVec 64) (eType : Nat)
    (entry : BitVec 64) (p : List ElfPhdr) (f : Found) : Prop where
  /-- No address sum of a segment wraps. -/
  noWrap : ∀ s ∈ loads p, s.pVaddr.toNat + s.pMemsz.toNat + (pagesz.toNat - 1) < 2 ^ 64
  /-- The segments are apart from each other. -/
  disjoint : (loads p).Pairwise fun s t =>
    Disjoint (segPages pagesz.toNat s) (segPages pagesz.toNat t)
  /-- They are apart from the loader. -/
  apart : eType = etExec → ∀ s ∈ loads p,
    Disjoint (segPages pagesz.toNat s) (Set.Ico loader.executableStart.toNat loader.stop.toNat)
  /-- A position-independent program is inside the region that was reserved for it. -/
  reserved : eType = etDyn → ∀ dynbase, chooseBase k pagesz eType f = .ok dynbase →
    ∃ len, k.reserve len = some dynbase ∧ dynbase.toNat + roundUp pagesz.toNat len.toNat ≤ 2 ^ 64 ∧
      ∀ s ∈ loads p, segStop pagesz.toNat s ≤ roundUp pagesz.toNat len.toNat
  /-- Every call is inside the pages of the segment it is for. -/
  inside : ∀ why dynbase done launch,
    (spawn k loader pagesz eType entry p = .stopped why dynbase done ∨
      spawn k loader pagesz eType entry p = .launched dynbase done launch) →
    ∀ c ∈ done, ∃ s ∈ loads p, c ∈ segmentCalls dynbase pagesz s ∧ Inside pagesz.toNat dynbase s c
  /-- The program starts in an executable segment. -/
  launch : ∀ dynbase done launch,
    spawn k loader pagesz eType entry p = .launched dynbase done launch →
    ∃ s ∈ loads p, s.pFlags &&& pfX ≠ 0 ∧
      dynbase.toNat + s.pVaddr.toNat ≤ launch.toNat ∧
      launch.toNat < dynbase.toNat + s.pVaddr.toNat + s.pMemsz.toNat

/-! ## What the checks say -/

variable {loader : LoaderImage} {pagesz entry dynbase : BitVec 64} {s t : ElfPhdr}
  {p later : List ElfPhdr} {f g : Found} {k : Nat}

structure Checked (loader : LoaderImage) (pagesz : BitVec 64) (s : ElfPhdr) : Prop where
  filesz : s.pFilesz ≤ s.pMemsz
  congruent : s.pVaddr &&& (pagesz - 1) = s.pOffset &&& (pagesz - 1)
  vaddr : s.pVaddr ≤ s.pVaddr + s.pMemsz
  vaddrUp : s.pVaddr ≤ s.pVaddr + s.pMemsz + (pagesz - 1)
  offset : s.pOffset ≤ s.pOffset + s.pFilesz
  apart : overlap (pageStart pagesz s) (pageStop pagesz s) loader.executableStart loader.stop = false

theorem checked_of_checkSegment (h : checkSegment loader pagesz s later = none) :
    Checked loader pagesz s ∧
      ∀ t ∈ later, t.pType = ptLoad →
        overlap (pageStart pagesz s) (pageStop pagesz s) (pageStart pagesz t)
          (pageStop pagesz t) = false := by
  unfold checkSegment at h
  dsimp only at h
  split_ifs at h with hfile hcong hvaddr hoff hloader hothers
  rw [not_or] at hvaddr hoff
  constructor
  · exact {
      filesz := BitVec.not_lt.mp hfile
      congruent := not_not.mp hcong
      vaddr := BitVec.not_lt.mp hvaddr.1
      vaddrUp := BitVec.not_lt.mp hvaddr.2
      offset := BitVec.not_lt.mp hoff.1
      apart := eq_false_of_ne_true hloader }
  · intro t ht hload
    by_contra hne
    apply hothers
    rw [any_eq_true]
    refine ⟨t, ht, ?_⟩
    rw [hload, Bool.of_not_eq_false hne]
    rfl

theorem loads_cons (s : ElfPhdr) (p : List ElfPhdr) :
    loads (s :: p) = if s.pType = ptLoad then s :: loads p else loads p := by
  unfold loads
  rw [filter_cons]
  simp only [beq_iff_eq]

theorem mem_loads : s ∈ loads p ↔ s ∈ p ∧ s.pType = ptLoad := by
  unfold loads
  rw [mem_filter, beq_iff_eq]

theorem lookAt_virtmax (entry : BitVec 64) (s : ElfPhdr) (f : Found) :
    f.virtmax ≤ (lookAt entry s f).virtmax ∧
      s.pVaddr + s.pMemsz ≤ (lookAt entry s f).virtmax := by
  unfold lookAt
  dsimp only
  split_ifs with hlt
  · exact ⟨BitVec.le_of_lt hlt, BitVec.le_refl _⟩
  · exact ⟨BitVec.le_refl _, BitVec.not_lt.mp hlt⟩

structure Validated (loader : LoaderImage) (pagesz entry : BitVec 64) (p : List ElfPhdr)
    (f g : Found) : Prop where
  checked : ∀ s ∈ loads p, Checked loader pagesz s
  apart : (loads p).Pairwise fun s t =>
    overlap (pageStart pagesz s) (pageStop pagesz s) (pageStart pagesz t) (pageStop pagesz t) = false
  virtmaxMono : f.virtmax ≤ g.virtmax
  virtmax : ∀ s ∈ loads p, s.pVaddr + s.pMemsz ≤ g.virtmax
  virtmin : f.virtmin = 0 → g.virtmin = 0
  entry : g.entry = true → f.entry = true ∨ ∃ s ∈ loads p, s.pFlags &&& pfX ≠ 0 ∧
    s.pVaddr ≤ entry ∧ entry < s.pVaddr + s.pMemsz

theorem Validated.skip (hload : s.pType ≠ ptLoad) (h : Validated loader pagesz entry p f g) :
    Validated loader pagesz entry (s :: p) f g := by
  have hsame : loads (s :: p) = loads p := by rw [loads_cons, if_neg hload]
  exact {
    checked := hsame ▸ h.checked
    apart := hsame ▸ h.apart
    virtmaxMono := h.virtmaxMono
    virtmax := hsame ▸ h.virtmax
    virtmin := h.virtmin
    entry := hsame ▸ h.entry }

theorem Validated.cons (hload : s.pType = ptLoad) (hcheck : checkSegment loader pagesz s p = none)
    (h : Validated loader pagesz entry p (lookAt entry s f) g) :
    Validated loader pagesz entry (s :: p) f g := by
  obtain ⟨hself, hlater⟩ := checked_of_checkSegment hcheck
  have hmax := lookAt_virtmax entry s f
  have hcons : loads (s :: p) = s :: loads p := by rw [loads_cons, if_pos hload]
  exact {
    checked := by
      intro t ht
      rw [hcons, mem_cons] at ht
      cases ht with
      | inl heq => rwa [heq]
      | inr hmem => exact h.checked t hmem
    apart := by
      rw [hcons, pairwise_cons]
      exact ⟨fun t ht => hlater t (mem_loads.mp ht).1 (mem_loads.mp ht).2, h.apart⟩
    virtmaxMono := BitVec.le_trans hmax.1 h.virtmaxMono
    virtmax := by
      intro t ht
      rw [hcons, mem_cons] at ht
      cases ht with
      | inl heq => rw [heq]; exact BitVec.le_trans hmax.2 h.virtmaxMono
      | inr hmem => exact h.virtmax t hmem
    virtmin := by
      intro hzero
      apply h.virtmin
      -- no address is below zero
      change (if s.pVaddr < f.virtmin then s.pVaddr else f.virtmin) = 0
      rw [hzero]
      exact if_neg BitVec.not_lt_zero
    entry := by
      intro hentry
      rw [hcons]
      rcases h.entry hentry with hfound | ⟨t, ht, hx⟩
      · unfold lookAt at hfound
        dsimp only at hfound
        rw [Bool.or_eq_true] at hfound
        cases hfound with
        | inl hbefore => exact Or.inl hbefore
        | inr hhere =>
          simp only [Bool.and_eq_true, bne_iff_ne, decide_eq_true_eq] at hhere
          exact Or.inr ⟨s, mem_cons_self, hhere.1.1, hhere.1.2, hhere.2⟩
      · exact Or.inr ⟨t, mem_cons_of_mem s ht, hx⟩ }

theorem validated_of_validate (h : validate loader pagesz entry p f = .ok g) :
    Validated loader pagesz entry p f g := by
  -- on the headers: each is checked against those after it
  induction p generalizing f with
  | nil =>
    cases h
    exact ⟨by simp [loads], List.Pairwise.nil, BitVec.le_refl _, by simp [loads], id, Or.inl⟩
  | cons s p ih =>
    rw [validate] at h
    by_cases hload : s.pType = ptLoad
    · rw [if_neg (not_not.mpr hload)] at h
      cases hcheck : checkSegment loader pagesz s p with
      | some why => rw [hcheck] at h; nomatch h
      | none => rw [hcheck] at h; exact (ih h).cons hload hcheck
    · rw [if_pos hload] at h
      exact (ih h).skip hload

/-! ## Numbers -/

theorem Checked.noWrap (hk : pagesz.toNat = 2 ^ k) (hs : Checked loader pagesz s)
    (hsmall : s.pMemsz.toNat + (pagesz.toNat - 1) < 2 ^ 64) :
    s.pVaddr.toNat + s.pMemsz.toNat + (pagesz.toNat - 1) < 2 ^ 64 := by
  have hv := BitVec.le_def.mp hs.vaddr
  have hup := BitVec.le_def.mp hs.vaddrUp
  have hlt := s.pVaddr.isLt
  have hm := s.pMemsz.isLt
  rw [BitVec.toNat_add] at hv
  rw [BitVec.toNat_add, BitVec.toNat_add, toNat_pred (pagesz_pos hk)] at hup
  -- a sum that wraps comes out below the address
  omega

structure Sums (pagesz : BitVec 64) (s : ElfPhdr) : Prop where
  filesz : s.pFilesz.toNat ≤ s.pMemsz.toNat
  bound : s.pVaddr.toNat + s.pMemsz.toNat + (pagesz.toNat - 1) < 2 ^ 64

theorem Sums.toNat_dataStop (hs : Sums pagesz s) :
    (dataStop s).toNat = s.pVaddr.toNat + s.pMemsz.toNat := by
  have hb := hs.bound
  exact BitVec.toNat_add_of_lt (by omega)

theorem Sums.toNat_fileStop (hs : Sums pagesz s) :
    (fileStop s).toNat = s.pVaddr.toNat + s.pFilesz.toNat := by
  have hb := hs.bound
  have hf := hs.filesz
  exact BitVec.toNat_add_of_lt (by omega)

theorem disjoint_of_overlap {a b c d : BitVec 64} (h : overlap a b c d = false) :
    Disjoint (Set.Ico a.toNat b.toNat) (Set.Ico c.toNat d.toNat) := by
  unfold overlap wordMax wordMin at h
  rw [decide_eq_false_iff_not, BitVec.lt_def] at h
  rw [Set.disjoint_left]
  rintro x ⟨hax, hxb⟩ ⟨hcx, hxd⟩
  apply h
  split_ifs <;> omega

section

variable (hk : pagesz.toNat = 2 ^ k)
include hk

theorem Checked.sums (hs : Checked loader pagesz s)
    (hsmall : s.pMemsz.toNat + (pagesz.toNat - 1) < 2 ^ 64) : Sums pagesz s :=
  ⟨BitVec.le_def.mp hs.filesz, hs.noWrap hk hsmall⟩

theorem toNat_roundUp {x : BitVec 64} (hx : x.toNat + (pagesz.toNat - 1) < 2 ^ 64) :
    ((x + (pagesz - 1)) &&& -pagesz).toNat = roundUp pagesz.toNat x.toNat := by
  rw [toNat_and_neg hk, BitVec.toNat_add, toNat_pred (pagesz_pos hk), Nat.mod_eq_of_lt hx]
  rfl

theorem toNat_pageStart : (pageStart pagesz s).toNat = segStart pagesz.toNat s :=
  toNat_and_neg hk s.pVaddr

theorem Sums.toNat_pageStop (hs : Sums pagesz s) : (pageStop pagesz s).toNat = segStop pagesz.toNat s := by
  have hb := hs.bound
  have hstop := hs.toNat_dataStop
  unfold pageStop segStop
  rw [← hstop]
  apply toNat_roundUp hk
  change (dataStop s).toNat + _ < _
  omega

theorem Sums.toNat_bssStart (hs : Sums pagesz s) :
    (bssStart pagesz s).toNat = roundUp pagesz.toNat (s.pVaddr.toNat + s.pFilesz.toNat) := by
  have hb := hs.bound
  have hf := hs.filesz
  have hstop := hs.toNat_fileStop
  unfold bssStart
  rw [← hstop]
  exact toNat_roundUp hk (by omega)

theorem Checked.pages_apart (hs : Sums pagesz s) {c d : BitVec 64}
    (h : overlap (pageStart pagesz s) (pageStop pagesz s) c d = false) :
    Disjoint (segPages pagesz.toNat s) (Set.Ico c.toNat d.toNat) := by
  have hdis := disjoint_of_overlap h
  rwa [toNat_pageStart hk, hs.toNat_pageStop hk] at hdis

end

/-! ## The calls of a segment -/

theorem segStart_add_mod (ps : Nat) (s : ElfPhdr) :
    segStart ps s + s.pVaddr.toNat % ps = s.pVaddr.toNat :=
  roundDown_add_mod ps _

theorem segStart_roundUp {ps : Nat} (hps : 0 < ps) (s : ElfPhdr) (n : Nat) :
    segStart ps s + roundUp ps (s.pVaddr.toNat % ps + n) = roundUp ps (s.pVaddr.toNat + n) := by
  have hdvd : ps ∣ segStart ps s := dvd_roundDown ps _
  rw [← roundUp_add hps hdvd, ← Nat.add_assoc, segStart_add_mod]

theorem seg_bounds {ps : Nat} (hps : 0 < ps) (s : ElfPhdr) :
    s.pVaddr.toNat + s.pMemsz.toNat ≤ segStop ps s ∧ segStart ps s ≤ s.pVaddr.toNat :=
  ⟨le_roundUp hps _, roundDown_le ps _⟩

theorem toNat_size (hk : pagesz.toNat = 2 ^ k) (hs : Sums pagesz s) {n : BitVec 64}
    (hn : n.toNat ≤ s.pMemsz.toNat) :
    ((s.pVaddr &&& (pagesz - 1)) + n).toNat = s.pVaddr.toNat % pagesz.toNat + n.toNat := by
  have hb := hs.bound
  have hmod := Nat.mod_le s.pVaddr.toNat pagesz.toNat
  rw [BitVec.toNat_add, toNat_and_pred hk]
  apply Nat.mod_eq_of_lt
  omega

theorem Sums.segStop_lt (hs : Sums pagesz s) (hps : 0 < pagesz.toNat) :
    segStop pagesz.toNat s < 2 ^ 64 := by
  have hb := hs.bound
  have hlt := roundUp_lt hps (s.pVaddr.toNat + s.pMemsz.toNat)
  unfold segStop
  omega

theorem toNat_base_pageStart (hk : pagesz.toNat = 2 ^ k)
    (hbase : dynbase.toNat + segStop pagesz.toNat s < 2 ^ 64) :
    (dynbase + pageStart pagesz s).toNat = dynbase.toNat + segStart pagesz.toNat s := by
  have hps := toNat_pagesz_pos hk
  have hbounds := seg_bounds hps s
  rw [← toNat_pageStart hk]
  apply BitVec.toNat_add_of_lt
  rw [toNat_pageStart hk]
  omega

theorem toNat_wipe (hs : Sums pagesz s) :
    (wipe pagesz s).toNat ≤ s.pMemsz.toNat - s.pFilesz.toNat := by
  have hfile := hs.toNat_fileStop
  have hdata := hs.toNat_dataStop
  have hle := hs.filesz
  have hsub : (dataStop s - fileStop s).toNat = s.pMemsz.toNat - s.pFilesz.toNat := by
    rw [BitVec.toNat_sub_of_le (by rw [BitVec.le_def]; omega)]
    omega
  rw [← hsub]
  unfold wipe wordMin
  split_ifs with hlt
  · exact Nat.le_of_lt (BitVec.lt_def.mp hlt)
  · exact Nat.le_refl _

section Calls

variable (hk : pagesz.toNat = 2 ^ k) (hs : Sums pagesz s)
  (hbase : dynbase.toNat + segStop pagesz.toNat s < 2 ^ 64)

include hk hs hbase

theorem stop_pages {n : BitVec 64} (hn : n.toNat ≤ s.pMemsz.toNat) :
    (dynbase + pageStart pagesz s).toNat +
        roundUp pagesz.toNat ((s.pVaddr &&& (pagesz - 1)) + n).toNat =
      dynbase.toNat + roundUp pagesz.toNat (s.pVaddr.toNat + n.toNat) := by
  have hps := toNat_pagesz_pos hk
  have hpages := segStart_roundUp hps s n.toNat
  rw [toNat_base_pageStart hk hbase, toNat_size hk hs hn]
  omega

theorem inside_pages {n : BitVec 64} (hn : n.toNat ≤ s.pMemsz.toNat) :
    dynbase.toNat + segStart pagesz.toNat s ≤ (dynbase + pageStart pagesz s).toNat ∧
      (dynbase + pageStart pagesz s).toNat +
          roundUp pagesz.toNat ((s.pVaddr &&& (pagesz - 1)) + n).toNat ≤
        dynbase.toNat + segStop pagesz.toNat s := by
  have hps := toNat_pagesz_pos hk
  have hmono : roundUp pagesz.toNat (s.pVaddr.toNat + n.toNat) ≤ segStop pagesz.toNat s :=
    roundUp_mono hps (Nat.add_le_add_left hn _)
  rw [stop_pages hk hs hbase hn, toNat_base_pageStart hk hbase]
  omega

theorem inside_bzero :
    Inside pagesz.toNat dynbase s (.bzero (dynbase + fileStop s) (wipe pagesz s)) := by
  have hps := toNat_pagesz_pos hk
  have hfile := hs.toNat_fileStop
  have hwipe := toNat_wipe hs
  have hbounds := seg_bounds hps s
  have hle := hs.filesz
  have haddr : (dynbase + fileStop s).toNat = dynbase.toNat + (fileStop s).toNat :=
    BitVec.toNat_add_of_lt (by omega)
  constructor
  · change _ ≤ (dynbase + fileStop s).toNat
    omega
  · change (dynbase + fileStop s).toNat + (wipe pagesz s).toNat ≤ _
    omega

theorem extraBss_stop (hbss : bssStart pagesz s < dataStop s) :
    (dynbase + bssStart pagesz s).toNat = dynbase.toNat + (bssStart pagesz s).toNat ∧
      (dynbase + bssStart pagesz s).toNat +
          roundUp pagesz.toNat (dataStop s - bssStart pagesz s).toNat =
        dynbase.toNat + segStop pagesz.toNat s := by
  have hps := toNat_pagesz_pos hk
  have hbounds := seg_bounds hps s
  have hstart := hs.toNat_bssStart hk
  have hdata := hs.toNat_dataStop
  have hlt := BitVec.lt_def.mp hbss
  set bss := bssStart pagesz s
  have haddr : (dynbase + bss).toNat = dynbase.toNat + bss.toNat :=
    BitVec.toNat_add_of_lt (by omega)
  have hsize : (dataStop s - bss).toNat = (dataStop s).toNat - bss.toNat :=
    BitVec.toNat_sub_of_le (by rw [BitVec.le_def]; omega)
  -- the mapping starts at a page, so its pages end with those of the segment
  have hdvd : pagesz.toNat ∣ bss.toNat := by
    rw [hstart]
    exact dvd_roundUp _ _
  have hpages := roundUp_add hps hdvd ((dataStop s).toNat - bss.toNat)
  have hsum : bss.toNat + ((dataStop s).toNat - bss.toNat) =
      s.pVaddr.toNat + s.pMemsz.toNat := by omega
  rw [hsum] at hpages
  refine ⟨haddr, ?_⟩
  rw [haddr, hsize]
  change _ = dynbase.toNat + roundUp pagesz.toNat (s.pVaddr.toNat + s.pMemsz.toNat)
  omega

theorem inside_extraBss {prot : Prot} (hbss : bssStart pagesz s < dataStop s) :
    Inside pagesz.toNat dynbase s
      (.extraBss (dynbase + bssStart pagesz s) (dataStop s - bssStart pagesz s) prot) := by
  have hps := toNat_pagesz_pos hk
  have hbounds := seg_bounds hps s
  have hstart := hs.toNat_bssStart hk
  have hle := le_roundUp hps (s.pVaddr.toNat + s.pFilesz.toNat)
  obtain ⟨haddr, hstop⟩ := extraBss_stop hk hs hbase hbss
  constructor
  · change _ ≤ (dynbase + bssStart pagesz s).toNat
    omega
  · exact Nat.le_of_eq hstop

theorem inside_segmentCalls {c : Call} (hc : c ∈ segmentCalls dynbase pagesz s) :
    Inside pagesz.toNat dynbase s c := by
  unfold segmentCalls at hc
  split_ifs at hc with hfile
  · unfold fileCalls at hc
    simp only [cons_append, mem_cons, mem_append, mem_ite_nil_right, not_mem_nil, or_false] at hc
    rcases hc with rfl | (⟨-, rfl⟩ | ⟨-, rfl⟩) | ⟨hbss, rfl⟩
    · exact inside_pages hk hs hbase hs.filesz
    · exact inside_bzero hk hs hbase
    · exact inside_pages hk hs hbase hs.filesz
    · exact inside_extraBss hk hs hbase hbss
  · rw [List.mem_singleton.mp hc]
    exact inside_pages hk hs hbase (Nat.le_refl _)

end Calls

/-! ## The whole run -/

variable {kernel : Kernel} {eType : Nat}

def Call.Fits (c : Call) : Prop :=
  (∃ a n, c = .bzero a n) ∨ c.size ≠ 0 ∧ c.addr.toNat + c.size.toNat ≤ 2 ^ 63

theorem runCalls_cons (kernel : Kernel) (done : List Call) (c : Call) (calls : List Call) :
    (c.Fits ∧ runCalls kernel done (c :: calls) = runCalls kernel (done ++ [c]) calls) ∨
      runCalls kernel done (c :: calls) = .error (c.failure, done) := by
  cases c with
  | bzero a n => exact Or.inl ⟨Or.inl ⟨a, n, rfl⟩, rfl⟩
  | progMmap | progMprotect | extraBss | bssMmap =>
    simp only [runCalls]
    split_ifs with hacc
    · exact Or.inl ⟨Or.inr (kernel.accepts_fits hacc), rfl⟩
    · exact Or.inr rfl

theorem runCalls_prefix {calls done done' : List Call} (why : String)
    (h : runCalls kernel done calls = .error (why, done') ∨ runCalls kernel done calls = .ok done') :
    ∃ made, made <+: calls ∧ done' = done ++ made := by
  induction calls generalizing done with
  | nil =>
    rcases h with h | h
    · nomatch h
    · cases h
      exact ⟨[], prefix_refl _, (append_nil _).symm⟩
  | cons c calls ih =>
    rcases runCalls_cons kernel done c calls with ⟨-, hstep⟩ | hstep
    · -- a call that was made, and the rest
      rw [hstep] at h
      obtain ⟨made, hpre, hdone⟩ := ih h
      refine ⟨c :: made, (prefix_cons_inj c).mpr hpre, ?_⟩
      rw [hdone, append_assoc, singleton_append]
    · rw [hstep] at h
      rcases h with h | h
      · cases h
        exact ⟨[], nil_prefix, (append_nil _).symm⟩
      · nomatch h

theorem chooseBase_dyn (hk : pagesz.toNat = 2 ^ k) (hk64 : k < 64) (hmin : f.virtmin = 0)
    (h : chooseBase kernel pagesz etDyn f = .ok dynbase) :
    kernel.reserve f.virtmax = some dynbase ∧
      dynbase.toNat + roundUp pagesz.toNat f.virtmax.toNat ≤ 2 ^ 63 := by
  unfold chooseBase at h
  rw [if_pos rfl, hmin, show f.virtmax - 0 = f.virtmax from BitVec.sub_zero _] at h
  cases hres : kernel.reserve f.virtmax with
  | none => rw [hres] at h; nomatch h
  | some base =>
    rw [hres] at h
    dsimp only at h
    split_ifs at h with halign hwrap
    obtain rfl := Except.ok.inj h
    refine ⟨rfl, ?_⟩
    have hps := toNat_pagesz_pos hk
    have hfits := (kernel.reserve_fits hres).2
    have hdvd : pagesz.toNat ∣ base.toNat := by
      apply Nat.dvd_of_mod_eq_zero
      rw [← toNat_and_pred hk, not_not.mp halign]
      rfl
    -- both the base and the half of the address space are multiples of the page size
    rw [← roundUp_add hps hdvd]
    apply roundUp_le hps hfits
    rw [hk]
    exact Nat.pow_dvd_pow 2 (by omega)

theorem chooseBase_exec (hexec : eType ≠ etDyn)
    (h : chooseBase kernel pagesz eType f = .ok dynbase) : dynbase = 0 := by
  unfold chooseBase at h
  rw [if_neg hexec] at h
  cases h
  rfl

section

variable (hpow : pagesz &&& (pagesz - 1) = 0) (hacc : Accepted loader pagesz entry p f)
include hpow hacc

theorem spawn_accepted (hbase : chooseBase kernel pagesz eType f = .ok dynbase) :
    spawn kernel loader pagesz eType entry p = loadElf kernel pagesz dynbase entry p := by
  unfold spawn
  rw [if_neg (not_not.mpr hpow), hacc.1]
  dsimp only
  rw [hacc.2, if_neg (show ¬(!true) = true by decide), hbase]

theorem spawn_refused {why : String} (hbase : chooseBase kernel pagesz eType f = .error why) :
    ∃ why, spawn kernel loader pagesz eType entry p = .exits why := by
  unfold spawn
  rw [if_neg (not_not.mpr hpow), hacc.1]
  dsimp only
  rw [hacc.2, if_neg (show ¬(!true) = true by decide), hbase]
  exact ⟨_, rfl⟩

theorem spawn_run (why : String) {done : List Call} {launch : BitVec 64}
    (h : spawn kernel loader pagesz eType entry p = .stopped why dynbase done ∨
      spawn kernel loader pagesz eType entry p = .launched dynbase done launch) :
    chooseBase kernel pagesz eType f = .ok dynbase ∧
      done <+: (loads p).flatMap (segmentCalls dynbase pagesz) := by
  cases hbase : chooseBase kernel pagesz eType f with
  | error w =>
    obtain ⟨w', hw'⟩ := spawn_refused hpow hacc hbase
    rw [hw'] at h
    rcases h with h | h <;> nomatch h
  | ok base =>
    rw [spawn_accepted hpow hacc hbase] at h
    unfold loadElf at h
    cases hrun : runCalls kernel [] ((loads p).flatMap (segmentCalls base pagesz)) with
    | error x =>
      obtain ⟨w, d⟩ := x
      rw [hrun] at h
      rcases h with h | h
      · cases h
        obtain ⟨made, hpre, hdone⟩ := runCalls_prefix why (Or.inl hrun)
        exact ⟨rfl, by rw [hdone]; exact hpre⟩
      · nomatch h
    | ok d =>
      rw [hrun] at h
      rcases h with h | h
      · nomatch h
      · cases h
        obtain ⟨made, hpre, hdone⟩ := runCalls_prefix why (Or.inr hrun)
        exact ⟨rfl, by rw [hdone]; exact hpre⟩

theorem spawn_launch {done : List Call} {launch : BitVec 64}
    (hbase : chooseBase kernel pagesz eType f = .ok dynbase)
    (h : spawn kernel loader pagesz eType entry p = .launched dynbase done launch) :
    runCalls kernel [] ((loads p).flatMap (segmentCalls dynbase pagesz)) = .ok done ∧
      launch = dynbase + entry := by
  rw [spawn_accepted hpow hacc hbase] at h
  unfold loadElf at h
  cases hrun : runCalls kernel [] ((loads p).flatMap (segmentCalls dynbase pagesz)) with
  | error x => rw [hrun] at h; nomatch h
  | ok d =>
    rw [hrun] at h
    cases h
    exact ⟨rfl, rfl⟩

end

theorem spawn_not_accepted (kernel : Kernel) (eType : Nat)
    (h : ¬∃ f, Accepted loader pagesz entry p f) :
    ∃ why, spawn kernel loader pagesz eType entry p = .exits why := by
  unfold spawn
  split_ifs with hpow
  · exact ⟨_, rfl⟩
  · cases hval : validate loader pagesz entry p ⟨false, 0, 0⟩ with
    | error why => exact ⟨_, rfl⟩
    | ok f =>
      have hentry : f.entry = false := by
        by_contra hne
        exact h ⟨f, hval, Bool.of_not_eq_false hne⟩
      dsimp only
      rw [hentry]
      exact ⟨_, rfl⟩

theorem base_segStop_lt (hk : pagesz.toNat = 2 ^ k) (hk64 : k < 64) (hs : Sums pagesz s)
    (hv : Validated loader pagesz entry p ⟨false, 0, 0⟩ f) (hmem : s ∈ loads p)
    (hbase : chooseBase kernel pagesz eType f = .ok dynbase) :
    dynbase.toNat + segStop pagesz.toNat s < 2 ^ 64 := by
  have hps := toNat_pagesz_pos hk
  by_cases hdyn : eType = etDyn
  · subst hdyn
    obtain ⟨-, hfits⟩ := chooseBase_dyn hk hk64 (hv.virtmin rfl) hbase
    have hmax := BitVec.le_def.mp (hv.virtmax s hmem)
    have hdata := hs.toNat_dataStop
    unfold dataStop at hdata
    rw [hdata] at hmax
    have hmono : segStop pagesz.toNat s ≤ roundUp pagesz.toNat f.virtmax.toNat :=
      roundUp_mono hps hmax
    omega
  · rw [chooseBase_exec hdyn hbase]
    have hlt := hs.segStop_lt hps
    rwa [show (0 : BitVec 64).toNat = 0 from rfl, Nat.zero_add]

/-! ## What holds of an accepted table -/

/-- The segments of a table that was accepted, where no size wraps by rounding. -/
structure Small (loader : LoaderImage) (pagesz entry : BitVec 64) (p : List ElfPhdr) (f : Found) :
    Prop where
  accepted : Accepted loader pagesz entry p f
  power : ∃ k < 64, pagesz.toNat = 2 ^ k
  fits : ∀ s ∈ loads p, s.pMemsz.toNat + (pagesz.toNat - 1) < 2 ^ 64

section

variable (h : Small loader pagesz entry p f)
include h

theorem Small.validated : Validated loader pagesz entry p ⟨false, 0, 0⟩ f :=
  validated_of_validate h.accepted.1

theorem Small.sums (hmem : s ∈ loads p) : Sums pagesz s := by
  obtain ⟨k, -, hk⟩ := h.power
  exact (h.validated.checked s hmem).sums hk (h.fits s hmem)

theorem Small.base_lt (hmem : s ∈ loads p) (hbase : chooseBase kernel pagesz eType f = .ok dynbase) :
    dynbase.toNat + segStop pagesz.toNat s < 2 ^ 64 := by
  obtain ⟨k, hk64, hk⟩ := h.power
  exact base_segStop_lt hk hk64 (h.sums hmem) h.validated hmem hbase

theorem Small.disjoint : (loads p).Pairwise fun s t =>
      Disjoint (segPages pagesz.toNat s) (segPages pagesz.toNat t) := by
  obtain ⟨k, -, hk⟩ := h.power
  apply h.validated.apart.imp_of_mem
  intro s t hs ht hno
  have hdis := Checked.pages_apart hk (h.sums hs) hno
  rwa [toNat_pageStart hk, (h.sums ht).toNat_pageStop hk] at hdis

theorem Small.reserved (hbase : chooseBase kernel pagesz etDyn f = .ok dynbase) :
    ∃ len, kernel.reserve len = some dynbase ∧
      dynbase.toNat + roundUp pagesz.toNat len.toNat ≤ 2 ^ 64 ∧
      ∀ s ∈ loads p, segStop pagesz.toNat s ≤ roundUp pagesz.toNat len.toNat := by
  obtain ⟨k, hk64, hk⟩ := h.power
  have hps := toNat_pagesz_pos hk
  obtain ⟨hres, hfits⟩ := chooseBase_dyn hk hk64 (h.validated.virtmin rfl) hbase
  refine ⟨f.virtmax, hres, by omega, ?_⟩
  intro s hs
  apply roundUp_mono hps
  rw [← (h.sums hs).toNat_dataStop]
  exact BitVec.le_def.mp (h.validated.virtmax s hs)

theorem Small.inside {c : Call} (hbase : chooseBase kernel pagesz eType f = .ok dynbase)
    (hc : c ∈ (loads p).flatMap (segmentCalls dynbase pagesz)) :
    ∃ s ∈ loads p, c ∈ segmentCalls dynbase pagesz s ∧ Inside pagesz.toNat dynbase s c := by
  obtain ⟨k, -, hk⟩ := h.power
  obtain ⟨s, hs, hcs⟩ := List.mem_flatMap.mp hc
  exact ⟨s, hs, hcs, inside_segmentCalls hk (h.sums hs) (h.base_lt hs hbase) hcs⟩

theorem Small.launch (hbase : chooseBase kernel pagesz eType f = .ok dynbase) :
    ∃ s ∈ loads p, s.pFlags &&& pfX ≠ 0 ∧
      dynbase.toNat + s.pVaddr.toNat ≤ (dynbase + entry).toNat ∧
      (dynbase + entry).toNat < dynbase.toNat + s.pVaddr.toNat + s.pMemsz.toNat := by
  obtain ⟨k, -, hk⟩ := h.power
  have hps := toNat_pagesz_pos hk
  rcases h.validated.entry h.accepted.2 with hno | ⟨s, hs, hx, hlow, hhigh⟩
  · nomatch hno
  · have hdata : (s.pVaddr + s.pMemsz).toNat = s.pVaddr.toNat + s.pMemsz.toNat :=
      (h.sums hs).toNat_dataStop
    have hlt := h.base_lt hs hbase
    have hbounds := seg_bounds hps s
    rw [BitVec.le_def] at hlow
    rw [BitVec.lt_def, hdata] at hhigh
    have hadd : (dynbase + entry).toNat = dynbase.toNat + entry.toNat :=
      BitVec.toNat_add_of_lt (by omega)
    refine ⟨s, hs, hx, ?_, ?_⟩ <;> omega

theorem Small.spawnSafe : SpawnSafe kernel loader pagesz eType entry p f := by
  obtain ⟨k, -, hk⟩ := h.power
  have hpow : pagesz &&& (pagesz - 1) = 0 := by
    apply BitVec.eq_of_toNat_eq
    rw [toNat_and_pred hk, Nat.mod_self]
    rfl
  exact {
    noWrap := fun s hs => (h.sums hs).bound
    disjoint := h.disjoint
    apart := fun _ s hs => Checked.pages_apart hk (h.sums hs) (h.validated.checked s hs).apart
    reserved := by
      intro hdyn base hbase
      subst hdyn
      exact h.reserved hbase
    inside := by
      intro why base done launch hrun c hc
      obtain ⟨hbase, hpre⟩ := spawn_run hpow h.accepted why hrun
      exact h.inside hbase (hpre.subset hc)
    launch := by
      intro base done launch hrun
      obtain ⟨hbase, -⟩ := spawn_run hpow h.accepted "" (Or.inr hrun)
      rw [(spawn_launch hpow h.accepted hbase hrun).2]
      exact h.launch hbase }

end

/-! ## Files -/

variable {arch : Arch} {ebuf file : Bytes}

theorem tryElf_pageSize (h : tryElf arch ebuf file pagesz = .spawns p) :
    ∃ k < 64, (pageSize pagesz).toNat = 2 ^ k := by
  have hne : pageSize pagesz ≠ 0 := by
    unfold pageSize
    split_ifs with hzero
    · decide
    · exact hzero
  unfold tryElf at h
  dsimp only at h
  split_ifs at h with hpow
  all_goals exact exists_pagesz hne (not_not.mp hpow)

/-- The bytes of an x86-64 header of an `ET_EXEC` file, with the program headers after it. -/
def execHeader (entry phnum : Nat) : Bytes :=
  [0x7f, 0x45, 0x4c, 0x46, 2, 1, 1, 0] ++ leBytes 8 0 ++ leBytes 2 etExec ++
    leBytes 2 Arch.x86_64.machine ++ leBytes 4 1 ++ leBytes 8 entry ++ leBytes 8 64 ++
    leBytes 8 0 ++ leBytes 4 0 ++ leBytes 2 64 ++ leBytes 2 sizeofPhdr ++ leBytes 2 phnum ++
    leBytes 6 0

def loadHeader (flags : BitVec 32) (offset vaddr filesz memsz : Nat) : Bytes :=
  leBytes 4 ptLoad ++ leBytes 4 flags.toNat ++ leBytes 8 offset ++ leBytes 8 vaddr ++
    leBytes 8 vaddr ++ leBytes 8 filesz ++ leBytes 8 memsz ++ leBytes 8 4096

def willingKernel : Kernel where
  reserve := fun _ => none
  accepts := fun _ c => decide (c.size ≠ 0 ∧ c.addr.toNat + c.size.toNat ≤ 2 ^ 63)
  reserve_fits := fun h => nomatch h
  accepts_fits := of_decide_eq_true

/-- For every file, and every page size: a table that the checks of `Spawn` refuse is not mapped,
and one that they accept is mapped where it may be, just if no segment is so large that rounding up
its size wraps. -/
theorem spawnSafe_iff_memsz_small (kernel : Kernel) (loader : LoaderImage)
    (htry : tryElf arch ebuf file pagesz = .spawns p) :
    ((¬∃ f, Accepted loader (pageSize pagesz) (readEhdr ebuf).eEntry p f) →
      ∃ why, spawn kernel loader (pageSize pagesz) (readEhdr ebuf).eType (readEhdr ebuf).eEntry p =
        .exits why) ∧
    ∀ f, Accepted loader (pageSize pagesz) (readEhdr ebuf).eEntry p f →
      (SpawnSafe kernel loader (pageSize pagesz) (readEhdr ebuf).eType (readEhdr ebuf).eEntry p f ↔
        ∀ s ∈ loads p, s.pMemsz.toNat + ((pageSize pagesz).toNat - 1) < 2 ^ 64) := by
  constructor
  · exact spawn_not_accepted kernel _
  · intro f hacc
    constructor
    · intro hsafe s hs
      have hb := hsafe.noWrap s hs
      omega
    · intro hsmall
      exact Small.spawnSafe ⟨hacc, tryElf_pageSize htry, hsmall⟩

def textAndData : List ElfPhdr :=
  [⟨ptLoad, pfR ||| pfX, 0, 0x400000, 0x1800, 0x1800, 4096⟩,
    ⟨ptLoad, pfR ||| pfW, 0x2000, 0x402000, 0x100, 0x800, 4096⟩]

/-- Two pages of code, and a page of data with its bss. -/
theorem spawnSafe_two_segments :
    SpawnSafe willingKernel ⟨0x200000, 0x210000⟩ 4096 etExec 0x400010 textAndData ⟨true, 0, 0x402800⟩ :=
  ((spawnSafe_iff_memsz_small willingKernel ⟨0x200000, 0x210000⟩
    (show tryElf .x86_64 (execHeader 0x400010 2) (execHeader 0x400010 2 ++
        loadHeader (pfR ||| pfX) 0 0x400000 0x1800 0x1800 ++
        loadHeader (pfR ||| pfW) 0x2000 0x402000 0x100 0x800) 0 = .spawns textAndData by decide)).2
    ⟨true, 0, 0x402800⟩ (by unfold Accepted; decide)).mpr (by decide)

def hugeLoad : ElfPhdr := ⟨ptLoad, pfR ||| pfX, 0, 0, 0x600000, 0xfffffffffffff001, 4096⟩

/-- A segment that ends less than a page below `2 ^ 64`: rounded up its end is zero, so that it
seems to meet nothing, and its file content is mapped over the loader. -/
theorem not_spawnSafe_memsz_huge :
    tryElf .x86_64 (execHeader 0 1)
        (execHeader 0 1 ++ loadHeader (pfR ||| pfX) 0 0 0x600000 0xfffffffffffff001) 4096 =
      .spawns [hugeLoad] ∧
    Accepted ⟨0x400000, 0x410000⟩ 4096 0
      [hugeLoad] ⟨true, 0, 0xfffffffffffff001⟩ ∧
    spawn willingKernel ⟨0x400000, 0x410000⟩ 4096 etExec 0
        [hugeLoad] =
      .stopped "extra bss mmap" 0 [.progMmap 0 0x600000 ⟨true, false, true⟩ 0] ∧
    ¬SpawnSafe willingKernel ⟨0x400000, 0x410000⟩ 4096 etExec 0
      [hugeLoad] ⟨true, 0, 0xfffffffffffff001⟩ := by
  refine ⟨by decide, by unfold Accepted; decide, by decide, ?_⟩
  intro h
  have hwrap := h.noWrap _ (List.mem_singleton.mpr rfl)
  revert hwrap
  decide

end CosmoRuby.Ape
