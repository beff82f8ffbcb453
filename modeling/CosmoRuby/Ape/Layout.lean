import CosmoRuby.Ape.Fixup
import CosmoRuby.Ape.Safety
import CosmoRuby.Lib.Page

/-!
# Where apelink moves the inputs

The images of the inputs are put one behind the other, each at an aligned offset, and the program
headers move with them. They stay congruent to their addresses if the image starts at a page of the
input, which nothing sees to; and the search for an offset with the mask 65534, where 65535 is meant,
also takes one that is a multiple of 65536 and one.
-/

namespace CosmoRuby.Ape

open Lib List

/-! ## The search for an offset -/

theorem searchOffset_le (mask fuel start : Nat) : start ≤ searchOffset mask fuel start := by
  induction fuel generalizing start with
  | zero => exact Nat.le_refl _
  | succ fuel ih =>
    rw [searchOffset]
    split_ifs
    · exact Nat.le_of_succ_le (ih (start + 1))
    · exact Nat.le_refl _

variable {mask fuel k esize first size : Nat}

theorem searchOffset_min {start u : Nat} (hlow : start ≤ u)
    (hhigh : u < searchOffset mask fuel start) : u &&& mask ≠ 0 := by
  induction fuel generalizing start with
  | zero => exact absurd hhigh (Nat.not_lt.mpr hlow)
  | succ fuel ih =>
    rw [searchOffset] at hhigh
    split_ifs at hhigh with haligned
    · cases Nat.eq_or_lt_of_le hlow with
      | inl heq => exact heq ▸ haligned
      | inr hlt => exact ih hlt hhigh
    · exact absurd hhigh (Nat.not_lt.mpr hlow)

theorem searchOffset_aligned {start t : Nat} (hlow : start ≤ t) (hhigh : t < start + fuel)
    (ht : t &&& mask = 0) : searchOffset mask fuel start &&& mask = 0 := by
  induction fuel generalizing start with
  | zero => exact absurd hhigh (Nat.not_lt.mpr hlow)
  | succ fuel ih =>
    rw [searchOffset]
    split_ifs with haligned
    · have hne : start ≠ t := by
        rintro rfl
        exact haligned ht
      exact ih (by omega) (by omega)
    · exact not_not.mp haligned

theorem and_65534_eq_zero_iff (n : Nat) : n &&& 65534 = 0 ↔ n % 65536 < 2 := by
  have hmask := and_digits (k := 1) (n / 2) 32767 (Nat.mod_lt n (by decide)) (show 0 < 2 ^ 1 by decide)
  rw [pow_one, Nat.div_add_mod, Nat.and_zero] at hmask
  have hhigh : n / 2 &&& 32767 = n / 2 % 32768 := Nat.and_two_pow_sub_one_eq_mod (n / 2) 15
  rw [hhigh] at hmask
  rw [hmask]
  omega

theorem searchOffset_pe (start : Nat) :
    searchOffset 65534 65536 start % 65536 = if start % 65536 = 1 then 1 else 0 := by
  set found := searchOffset 65534 65536 start
  have hlow : start ≤ found := searchOffset_le 65534 65536 start
  have hreach := roundUp_lt (show 0 < 65536 by omega) start
  have hmultiple : roundUp 65536 start &&& 65534 = 0 := by
    rw [and_65534_eq_zero_iff, Nat.mod_eq_zero_of_dvd (dvd_roundUp 65536 start)]
    omega
  have hfound : found &&& 65534 = 0 :=
    searchOffset_aligned (le_roundUp (by omega) start) (by omega) hmultiple
  rw [and_65534_eq_zero_iff] at hfound
  split_ifs with hone
  · -- the start itself is taken
    have hstart : found = start := by
      show searchOffset _ _ _ = start
      rw [searchOffset, if_neg]
      exact not_not.mpr ((and_65534_eq_zero_iff start).mpr (by omega))
    rw [hstart, hone]
  · -- an odd offset would not be the first that is found
    by_contra hne
    have hbefore : start ≤ found - 1 := by
      by_contra hbelow
      have heq : found = start := by omega
      rw [heq] at hfound hne
      omega
    apply searchOffset_min hbefore (show _ < found by omega)
    rw [and_65534_eq_zero_iff]
    omega

theorem searchOffset_page {ps : Nat} (hk : ps = 2 ^ k) (hps : ps ≤ 65536) (start : Nat) :
    searchOffset (ps - 1) 65536 start % ps = 0 := by
  have hpos : 0 < ps := hk ▸ Nat.two_pow_pos k
  have hreach := roundUp_lt hpos start
  have hmask : ∀ n, n &&& (ps - 1) = n % ps := by
    intro n
    rw [hk]
    exact Nat.and_two_pow_sub_one_eq_mod n k
  rw [← hmask]
  apply searchOffset_aligned (le_roundUp hpos start) (by omega)
  rw [hmask]
  exact Nat.mod_eq_zero_of_dvd (dvd_roundUp ps start)

variable {o : Options} {i : Input} {start offset : Nat} {h : ElfPhdr} {x : Placed}

theorem toNat_machinePagesz (machine : Nat) :
    (machinePagesz machine).toNat = 2 ^ 12 ∨ (machinePagesz machine).toNat = 2 ^ 14 := by
  unfold machinePagesz
  split_ifs
  · exact Or.inr rfl
  · exact Or.inl rfl

theorem searchOffset_mod (o : Options) (i : Input) (start : Nat) :
    searchOffset (i.imageAlign o - 1) 65536 start % (machinePagesz i.machine).toNat =
        (if i.generatesPe o ∧ start % 65536 = 1 then 1 else 0) ∧
      (i.generatesPe o = true → searchOffset (i.imageAlign o - 1) 65536 start % 65536 =
        if start % 65536 = 1 then 1 else 0) := by
  have hpages := toNat_machinePagesz i.machine
  unfold Input.imageAlign
  by_cases hpe : i.generatesPe o = true
  · have hmask : max 65535 (machinePagesz i.machine).toNat - 1 = 65534 := by omega
    have hoff := searchOffset_pe start
    have hdvd : (machinePagesz i.machine).toNat ∣ 65536 := by
      rcases hpages with heq | heq <;> rw [heq] <;> decide
    rw [if_pos hpe, hmask]
    refine ⟨?_, fun _ => hoff⟩
    rw [← Nat.mod_mod_of_dvd _ hdvd, hoff]
    simp only [hpe, true_and]
    split_ifs
    · exact Nat.mod_eq_of_lt (by omega)
    · exact Nat.zero_mod _
  · have hpage : searchOffset ((machinePagesz i.machine).toNat - 1) 65536 start %
        (machinePagesz i.machine).toNat = 0 := by
      rcases hpages with heq | heq
      · exact searchOffset_page heq (by omega) start
      · exact searchOffset_page heq (by omega) start
    rw [if_neg hpe, if_neg fun h => hpe h.1]
    exact ⟨hpage, fun h => absurd h hpe⟩

/-! ## The extent of an input -/

/-- A fold whose steps only go down, in the order `r`, ends below all it has seen. -/
theorem foldl_below {r : BitVec 64 → BitVec 64 → Prop} (hrefl : ∀ m, r m m)
    (htrans : ∀ {a b c}, r a b → r b c → r a c) {f : BitVec 64 → ElfPhdr → BitVec 64}
    {key : ElfPhdr → BitVec 64} (hf : ∀ m h, r (f m h) m ∧ r (f m h) (key h)) (l : List ElfPhdr)
    (m : BitVec 64) : r (l.foldl f m) m ∧ ∀ h ∈ l, r (l.foldl f m) (key h) := by
  induction l generalizing m with
  | nil => exact ⟨hrefl m, fun h hh => nomatch hh⟩
  | cons g l ih =>
    obtain ⟨hm, hl⟩ := ih (f m g)
    rw [foldl_cons]
    exact ⟨htrans hm (hf m g).1, List.forall_mem_cons.mpr ⟨htrans hm (hf m g).2, hl⟩⟩

theorem foldl_wordMin_le (l : List ElfPhdr) (m : BitVec 64) :
    l.foldl (fun m h => wordMin m h.pOffset) m ≤ m ∧
      ∀ h ∈ l, l.foldl (fun m h => wordMin m h.pOffset) m ≤ h.pOffset := by
  refine foldl_below BitVec.le_refl BitVec.le_trans (fun m h => ?_) l m
  unfold wordMin
  split_ifs with hlt
  · exact ⟨BitVec.le_refl m, BitVec.le_of_lt hlt⟩
  · exact ⟨BitVec.not_lt.mp hlt, BitVec.le_refl _⟩

theorem le_foldl_wordMax (l : List ElfPhdr) (m : BitVec 64) :
    m ≤ l.foldl (fun m h => wordMax m (h.pOffset + h.pFilesz)) m ∧
      ∀ h ∈ l, h.pOffset + h.pFilesz ≤
        l.foldl (fun m h => wordMax m (h.pOffset + h.pFilesz)) m := by
  refine foldl_below (r := fun a b => b ≤ a) BitVec.le_refl (fun hab hbc => BitVec.le_trans hbc hab)
    (fun m h => ?_) l m
  unfold wordMax
  split_ifs with hlt
  · exact ⟨BitVec.le_refl m, BitVec.le_of_lt hlt⟩
  · exact ⟨BitVec.not_lt.mp hlt, BitVec.le_refl _⟩

/-- What validation makes sure of for a segment with file content. -/
structure Storable (i : Input) (h : ElfPhdr) : Prop where
  mem : h ∈ i.phdrs
  filesz : h.pFilesz ≠ 0
  congruent : h.pVaddr.toNat % (machinePagesz i.machine).toNat =
    h.pOffset.toNat % (machinePagesz i.machine).toNat
  noWrap : h.pOffset.toNat + h.pFilesz.toNat < 2 ^ 64

theorem filesz_pos (hfilesz : h.pFilesz ≠ 0) : 0 < h.pFilesz.toNat := by
  apply Nat.pos_of_ne_zero
  intro hzero
  exact hfilesz (BitVec.eq_of_toNat_eq hzero)

theorem Storable.extent (hs : Storable i h) :
    i.minload.toNat ≤ h.pOffset.toNat ∧
      h.pOffset.toNat + h.pFilesz.toNat ≤ i.maxload.toNat ∧ 0 < h.pFilesz.toNat := by
  have hmem : h ∈ i.stored := by
    apply List.mem_filter.mpr
    exact ⟨hs.mem, bne_iff_ne.mpr hs.filesz⟩
  have hmin := BitVec.le_def.mp ((foldl_wordMin_le i.stored (-1)).2 h hmem)
  have hmax := BitVec.le_def.mp ((le_foldl_wordMax i.stored 0).2 h hmem)
  rw [BitVec.toNat_add_of_lt hs.noWrap] at hmax
  exact ⟨hmin, hmax, filesz_pos hs.filesz⟩

theorem not_of_ite_some {c : Prop} [Decidable c] {why : String} {e : Option String}
    (hok : (if c then some why else e) = none) : ¬c ∧ e = none := by
  split at hok <;> rename_i hc
  · nomatch hok
  · exact ⟨hc, hok⟩

variable {e : ElfEhdr} {v : Support}

theorem validatePhdr_load {later : List ElfPhdr}
    (hload : h.pType = ptLoad) (hok : validatePhdr v e esize false h later = none) :
    h.pOffset ≤ h.pOffset + h.pFilesz ∧
      h.pVaddr &&& (machinePagesz e.eMachine - 1) = h.pOffset &&& (machinePagesz e.eMachine - 1) := by
  unfold validatePhdr at hok
  have hok := (not_of_ite_some (not_of_ite_some hok).2).2
  rw [if_neg (not_not.mpr hload)] at hok
  have hok := (not_of_ite_some (not_of_ite_some (not_of_ite_some (not_of_ite_some
    (not_of_ite_some hok).2).2).2).2).2
  obtain ⟨hwrap, hok⟩ := not_of_ite_some hok
  have hcong := (not_of_ite_some (not_of_ite_some hok).2).1
  rw [not_or] at hwrap
  exact ⟨BitVec.not_lt.mp hwrap.1, not_not.mp hcong⟩

theorem validatePhdrs_mem {l : List ElfPhdr}
    (hok : validatePhdrs v e esize false l = .ok ()) (hh : h ∈ l) :
    ∃ later, validatePhdr v e esize false h later = none := by
  induction l with
  | nil => nomatch hh
  | cons g l ih =>
    rw [validatePhdrs] at hok
    cases hg : validatePhdr v e esize false g l with
    | some why => rw [hg] at hok; nomatch hok
    | none =>
      rw [hg] at hok
      cases List.mem_cons.mp hh with
      | inl heq => exact ⟨l, heq ▸ hg⟩
      | inr hmem => exact ih hok hmem

variable {map image prologue : Bytes}

theorem validateElfImage_phdrs {file : Bytes} (hok : validateElfImage v file false = .ok map) :
    validatePhdrs v (readEhdr map) file.length false (phdrTable (readEhdr file).ePhoff.toNat map) =
      .ok () := by
  unfold validateElfImage at hok
  have hhead := checked_ok (checked_ok (checked_ok (checked_ok (checked_ok (checked_ok
    (checked_ok hok))))))
  obtain ⟨_, _, hrest⟩ := bind_eq_ok hhead
  obtain ⟨_, _, hrest⟩ := bind_eq_ok (checked_ok (checked_ok hrest))
  obtain ⟨_, hphdrs, hrest⟩ := bind_eq_ok hrest
  cases checked_ok hrest
  exact hphdrs

/-- The image passes, and the table of program headers is not laid over the header that names it. -/
def ValidInput (o : Options) (i : Input) : Prop :=
  validateElfImage o.support i.file false = .ok i.map ∧
    (readEhdr i.map).ePhoff = (readEhdr i.file).ePhoff

theorem ValidInput.storable (hv : ValidInput o i) (hh : h ∈ i.phdrs) (hload : h.pType = ptLoad)
    (hfilesz : h.pFilesz ≠ 0) : Storable i h := by
  obtain ⟨hok, hphoff⟩ := hv
  have hphdrs := validateElfImage_phdrs hok
  rw [← hphoff] at hphdrs
  obtain ⟨later, hphdr⟩ := validatePhdrs_mem hphdrs hh
  obtain ⟨hle, hcong⟩ := validatePhdr_load hload hphdr
  refine ⟨hh, hfilesz, ?_, ?_⟩
  · have hmod := congrArg BitVec.toNat hcong
    unfold Input.machine
    rcases toNat_machinePagesz (readEhdr i.map).eMachine with hk | hk
    · rwa [toNat_and_pred hk, toNat_and_pred hk] at hmod
    · rwa [toNat_and_pred hk, toNat_and_pred hk] at hmod
  · rw [BitVec.le_def, BitVec.toNat_add] at hle
    have hpos := filesz_pos hfilesz
    omega

theorem exists_minload (hh : h ∈ i.stored) :
    ∃ g ∈ i.stored, g.pOffset = i.minload := by
  have hfold : ∀ (l : List ElfPhdr) (m : BitVec 64),
      l.foldl (fun m h => wordMin m h.pOffset) m = m ∨
        ∃ g ∈ l, g.pOffset = l.foldl (fun m h => wordMin m h.pOffset) m := by
    intro l
    induction l with
    | nil => exact fun m => Or.inl rfl
    | cons g l ih =>
      intro m
      rw [foldl_cons]
      rcases ih (wordMin m g.pOffset) with heq | ⟨g', hg', heq⟩
      · rw [heq, wordMin]
        split_ifs
        · exact Or.inl rfl
        · exact Or.inr ⟨g, mem_cons_self, rfl⟩
      · exact Or.inr ⟨g', mem_cons_of_mem g hg', heq⟩
  rcases hfold i.stored (-1) with heq | hex
  · -- no offset is above the initial value
    refine ⟨h, hh, ?_⟩
    have hle := (foldl_wordMin_le i.stored (-1)).2 h hh
    have hge : h.pOffset ≤ -1 := by
      rw [BitVec.le_def]
      have := h.pOffset.isLt
      change h.pOffset.toNat ≤ 2 ^ 64 - 1
      omega
    rw [heq] at hle
    exact (BitVec.le_antisymm hge hle).trans heq.symm
  · exact hex

/-! ## One input -/

structure Moved (o : Options) (x : Placed) : Prop where
  offset : x.offset = searchOffset (x.input.imageAlign o - 1) 65536 x.start
  phdrs : x.phdrs = x.input.phdrs.map (relocate (BitVec.ofNat 64 x.offset - x.input.minload))
  image : ∃ m, Kept ⟨x.input.map, []⟩ m ∧ x.fixups = m.written ∧
    copyImage m.map x.input.minload.toNat (x.input.maxload - x.input.minload).toNat x.offset =
      .ok x.image

theorem thirdPass_moved (hok : thirdPass o start i = .ok x) :
    Moved o x ∧ x.input = i ∧ x.start = start := by
  unfold thirdPass at hok
  obtain ⟨m, hm, hok⟩ := bind_eq_ok hok
  obtain ⟨image, himage, hok⟩ := bind_eq_ok hok
  cases hok
  exact ⟨⟨rfl, rfl, m, keeps_linkPe o i _ m hm, rfl, himage⟩, rfl, rfl⟩

theorem copyImage_length
    (hok : copyImage map first size offset = .ok image) : image.length = size := by
  unfold copyImage at hok
  split_ifs at hok with hzero hmapped hfar
  · cases hok
    exact hzero.symm
  · cases hok
    rw [length_take, length_drop]
    omega

theorem copyImage_getElem (hok : copyImage map first size offset = .ok image) (hk : k < size) :
    image[k]? = map[first + k]? ∧ first + size ≤ map.length ∧ offset + size < 2 ^ 63 := by
  unfold copyImage at hok
  split_ifs at hok with hzero hmapped hfar
  · omega
  · cases hok
    rw [List.getElem?_take_of_lt hk, List.getElem?_drop]
    exact ⟨rfl, by omega, by omega⟩

theorem Moved.segment (hx : Moved o x) (hs : Storable x.input h) :
    (h.pOffset + (BitVec.ofNat 64 x.offset - x.input.minload)).toNat =
        x.offset + (h.pOffset.toNat - x.input.minload.toNat) ∧
      x.offset + (h.pOffset.toNat - x.input.minload.toNat) + h.pFilesz.toNat ≤ x.stop ∧
      ∀ k < h.pFilesz.toNat, ¬Covered x.fixups (h.pOffset.toNat + k) →
        x.image[h.pOffset.toNat - x.input.minload.toNat + k]? =
          some (x.input.map.getD (h.pOffset.toNat + k) 0) := by
  obtain ⟨hmin, hmax, hpos⟩ := hs.extent
  obtain ⟨m, hkept, hfixups, hcopy⟩ := hx.image
  have hsize : (x.input.maxload - x.input.minload).toNat =
      x.input.maxload.toNat - x.input.minload.toNat :=
    BitVec.toNat_sub_of_le (BitVec.le_def.mpr (by omega))
  rw [hsize] at hcopy
  have hlength := copyImage_length hcopy
  have hfirst := copyImage_getElem hcopy (show 0 < _ by omega)
  refine ⟨?_, ?_, ?_⟩
  · rw [BitVec.toNat_add, BitVec.toNat_sub, BitVec.toNat_ofNat]
    have := h.pOffset.isLt
    have := x.input.minload.isLt
    omega
  · unfold Placed.stop
    omega
  · intro k hk hcovered
    rw [hfixups] at hcovered
    have hin : h.pOffset.toNat + k < x.input.map.length := by
      rw [← show m.map.length = x.input.map.length from hkept.length]
      omega
    rw [(copyImage_getElem hcopy (by omega)).1,
      show x.input.minload.toNat + (h.pOffset.toNat - x.input.minload.toNat + k) =
        h.pOffset.toNat + k by omega,
      hkept.same _ hcovered, List.getD_eq_getElem?_getD, List.getElem?_eq_getElem hin]
    rfl

/-! ## All inputs -/

structure Laid (o : Options) (start : Nat) (inputs : List Input) (placed : List Placed) : Prop where
  moved : ∀ x ∈ placed, Moved o x ∧ x.input ∈ inputs
  from_start : ∀ x ∈ placed, start ≤ x.offset
  in_order : placed.Pairwise fun x y => x.stop ≤ y.offset
  to_end : ∀ x ∈ placed, x.stop ≤ (placed.getLast?.map Placed.stop).getD start
  forward : start ≤ (placed.getLast?.map Placed.stop).getD start

variable {inputs : List Input} {placed : List Placed}

theorem placeAll_laid
    (hok : placeAll o start inputs = .ok placed) : Laid o start inputs placed := by
  induction inputs generalizing start placed with
  | nil =>
    cases hok
    exact ⟨List.forall_mem_nil _, List.forall_mem_nil _, List.Pairwise.nil, List.forall_mem_nil _,
      Nat.le_refl start⟩
  | cons i rest ih =>
    rw [placeAll] at hok
    obtain ⟨x, hthird, hok⟩ := bind_eq_ok hok
    obtain ⟨xs, hrest, hok⟩ := bind_eq_ok hok
    cases hok
    obtain ⟨hmoved, hinput, hstart⟩ := thirdPass_moved hthird
    have hlaid := ih hrest
    have hoffset : start ≤ x.offset := by
      rw [hmoved.offset, hstart]
      exact searchOffset_le _ _ start
    have hstop : x.offset ≤ x.stop := Nat.le_add_right _ _
    -- the rest starts where this input stops
    have hlast : (((x :: xs).getLast?).map Placed.stop).getD start =
        (xs.getLast?.map Placed.stop).getD x.stop := by
      rw [List.getLast?_cons, Option.map_some, Option.getD_some, Option.getD_map]
    have hforward := hlaid.forward
    refine ⟨?_, ?_, List.pairwise_cons.mpr ⟨hlaid.from_start, hlaid.in_order⟩, ?_, ?_⟩
    · refine List.forall_mem_cons.mpr ⟨⟨hmoved, hinput ▸ mem_cons_self⟩, fun y hy => ?_⟩
      exact (hlaid.moved y hy).imp_right (mem_cons_of_mem i)
    · refine List.forall_mem_cons.mpr ⟨hoffset, fun y hy => ?_⟩
      have := hlaid.from_start y hy
      omega
    · rw [hlast]
      exact List.forall_mem_cons.mpr ⟨hforward, hlaid.to_end⟩
    · rw [hlast]
      omega

theorem linkInputs_laid {n : Nat}
    (hok : linkInputs o n inputs = .ok placed) : Laid o n inputs placed := by
  unfold linkInputs at hok
  obtain ⟨_, _, hok⟩ := bind_eq_ok hok
  exact placeAll_laid hok

theorem disjoint_Ico {a b c d : Nat} (h : b ≤ c) : Disjoint (Set.Ico a b) (Set.Ico c d) := by
  apply Set.disjoint_left.mpr
  rintro n ⟨_, hhi⟩ ⟨hlo, _⟩
  omega

def writeRegion (w : Nat × Bytes) : Set Nat := Set.Ico w.1 (w.1 + w.2.length)

theorem Laid.writes (hlaid : Laid o prologue.length inputs placed) (behind : Bytes) :
    Writes (outputWrites prologue behind placed) writeRegion (fun w a => w.2[a - w.1]?)
      pwriteFile where
  inside := by
    rintro w _ f a ⟨hlo, hhi⟩
    exact onRegion_inside _ f hlo hhi
  outside := by
    intro w _ f a ha
    apply onRegion_outside
    by_contra hin
    exact ha ⟨by omega, by omega⟩
  disjoint := by
    have hforward := hlaid.forward
    unfold outputWrites
    apply List.pairwise_append.mpr
    refine ⟨?_, ?_, ?_⟩
    · apply List.pairwise_map.mpr
      exact hlaid.in_order.imp fun h => disjoint_Ico h
    · apply List.pairwise_pair.mpr
      apply Disjoint.symm
      apply disjoint_Ico
      change 0 + prologue.length ≤ _
      omega
    · intro w hw w' hw'
      obtain ⟨x, hx, rfl⟩ := List.mem_map.mp hw
      simp only [mem_cons, not_mem_nil, or_false] at hw'
      rcases hw' with rfl | rfl
      · exact disjoint_Ico (hlaid.to_end x hx)
      · apply Disjoint.symm
        apply disjoint_Ico
        change 0 + prologue.length ≤ x.offset
        have := hlaid.from_start x hx
        omega

theorem Laid.outputFile_image
    (hlaid : Laid o prologue.length inputs placed) (behind : Bytes) (hx : x ∈ placed)
    (hk : k < x.image.length) : outputFile prologue behind placed (x.offset + k) = x.image[k]? := by
  have hmem : (x.offset, x.image) ∈ outputWrites prologue behind placed := by
    apply mem_append_left
    exact List.mem_map.mpr ⟨x, hx, rfl⟩
  have hin : x.offset + k ∈ writeRegion (x.offset, x.image) :=
    ⟨Nat.le_add_right _ _, Nat.add_lt_add_left hk _⟩
  rw [outputFile, (hlaid.writes behind).foldl_inside _ hmem hin, Nat.add_sub_cancel_left]

/-! ## Moved without breaking -/

def Input.becomesPe (o : Options) (i : Input) : Prop := i.generatesPe o = true ∧ i.pe.isSome = true

instance (o : Options) (i : Input) : Decidable (i.becomesPe o) :=
  inferInstanceAs (Decidable (_ ∧ _))

/-- The segments of the inputs are in the output as they were. -/
structure MovedRight (o : Options) (prologue behind : Bytes) (placed : List Placed) : Prop where
  /-- but for the fields of a PE header and its imports, which are meant to change -/
  bytes : ∀ x ∈ placed, ∀ hh ∈ x.input.phdrs.zip x.phdrs, hh.1.pType = ptLoad →
    ∀ k < hh.2.pFilesz.toNat, ¬Covered x.fixups (hh.1.pOffset.toNat + k) →
      outputFile prologue behind placed (hh.2.pOffset.toNat + k) =
        some (x.input.file.getD (hh.1.pOffset.toNat + k) 0)
  sizes : ∀ x ∈ placed, ∀ hh ∈ x.input.phdrs.zip x.phdrs,
    hh.2 = { hh.1 with pOffset := hh.2.pOffset }
  congruent : ∀ x ∈ placed, ∀ h ∈ x.phdrs, h.pType = ptLoad → h.pFilesz ≠ 0 →
    h.pVaddr.toNat % (machinePagesz x.input.machine).toNat =
      h.pOffset.toNat % (machinePagesz x.input.machine).toNat
  apart : placed.Pairwise fun x y => Disjoint (Set.Ico x.offset x.stop) (Set.Ico y.offset y.stop)
  behind_prologue : ∀ x ∈ placed, Disjoint (Set.Ico 0 prologue.length) (Set.Ico x.offset x.stop)
  aligned : ∀ x ∈ placed, x.input.becomesPe o → x.offset % 65536 = 0

structure StartsRight (o : Options) (x : Placed) : Prop where
  /-- the offset that the search for a multiple of 65536 takes by mistake -/
  skewed : x.input.becomesPe o → x.start % 65536 ≠ 1
  /-- the lowest of the offsets of the input is that of a page -/
  lowest : (∃ h ∈ x.input.phdrs, h.pType = ptLoad ∧ h.pFilesz ≠ 0) →
    ∀ g ∈ x.input.stored, (∀ h ∈ x.input.stored, g.pOffset ≤ h.pOffset) →
      g.pOffset.toNat % (machinePagesz x.input.machine).toNat =
        if x.input.generatesPe o ∧ x.start % 65536 = 1 then 1 else 0
  /-- what `ValidateElfImage` rewrites is in no segment, or has the same value -/
  unwritten : ∀ h ∈ x.input.phdrs, h.pType = ptLoad → ∀ k < h.pFilesz.toNat,
    ¬Covered x.fixups (h.pOffset.toNat + k) →
      x.input.map.getD (h.pOffset.toNat + k) 0 = x.input.file.getD (h.pOffset.toNat + k) 0

theorem relocate_type (delta : BitVec 64) (h : ElfPhdr) : (relocate delta h).pType = h.pType ∧
    (relocate delta h).pFilesz = h.pFilesz ∧ (relocate delta h).pVaddr = h.pVaddr ∧
    relocate delta h = { h with pOffset := (relocate delta h).pOffset } := by
  unfold relocate
  split_ifs
  · exact ⟨rfl, rfl, rfl, rfl⟩
  · exact ⟨rfl, rfl, rfl, rfl⟩

theorem relocate_offset (delta : BitVec 64) (hfilesz : h.pFilesz ≠ 0) :
    (relocate delta h).pOffset = h.pOffset + delta := by
  unfold relocate
  rw [if_pos hfilesz]

theorem Moved.mem_zip_iff (hx : Moved o x) {hh : ElfPhdr × ElfPhdr} :
    hh ∈ x.input.phdrs.zip x.phdrs ↔
      ∃ h ∈ x.input.phdrs, (h, relocate (BitVec.ofNat 64 x.offset - x.input.minload) h) = hh := by
  rw [hx.phdrs, ← map_prod_left_eq_zip, List.mem_map]

/-- A segment is in the output as it is in memory. -/
theorem Laid.output_byte (hlaid : Laid o prologue.length inputs placed) (behind : Bytes)
    (hx : x ∈ placed) (hs : Storable x.input h) (hk : k < h.pFilesz.toNat)
    (hcovered : ¬Covered x.fixups (h.pOffset.toNat + k)) :
    outputFile prologue behind placed
        ((relocate (BitVec.ofNat 64 x.offset - x.input.minload) h).pOffset.toNat + k) =
      some (x.input.map.getD (h.pOffset.toNat + k) 0) := by
  obtain ⟨hoffset, hstop, himage⟩ := (hlaid.moved x hx).1.segment hs
  have hlen : h.pOffset.toNat - x.input.minload.toNat + k < x.image.length := by
    unfold Placed.stop at hstop
    omega
  rw [relocate_offset _ hs.filesz, hoffset, Nat.add_assoc, hlaid.outputFile_image behind hx hlen]
  exact himage k hk hcovered

theorem filesz_ne_zero (hk : k < h.pFilesz.toNat) : h.pFilesz ≠ 0 := by
  intro hzero
  rw [hzero] at hk
  nomatch hk

theorem Moved.congruent_iff (hx : Moved o x) (hs : Storable x.input h) :
    h.pVaddr.toNat % (machinePagesz x.input.machine).toNat =
        (h.pOffset + (BitVec.ofNat 64 x.offset - x.input.minload)).toNat %
          (machinePagesz x.input.machine).toNat ↔
      x.input.minload.toNat % (machinePagesz x.input.machine).toNat =
        if x.input.generatesPe o ∧ x.start % 65536 = 1 then 1 else 0 := by
  have hmin := hs.extent.1
  rw [(hx.segment hs).1, hs.congruent]
  have hoffset := (searchOffset_mod o x.input x.start).1
  rw [← hx.offset] at hoffset
  rw [← hoffset]
  -- the distance from the first load is on both sides
  have hsame := Nat.ModEq.refl (n := (machinePagesz x.input.machine).toNat)
    (h.pOffset.toNat - x.input.minload.toNat)
  have hiff := hsame.add_iff_right (a := x.input.minload.toNat) (b := x.offset)
  rwa [Nat.add_sub_cancel' hmin] at hiff

theorem lowest_iff (hs : Storable i h) (ps n : Nat) :
    (∀ g ∈ i.stored, (∀ h ∈ i.stored, g.pOffset ≤ h.pOffset) → g.pOffset.toNat % ps = n) ↔
      i.minload.toNat % ps = n := by
  have hstored : h ∈ i.stored := List.mem_filter.mpr ⟨hs.mem, bne_iff_ne.mpr hs.filesz⟩
  obtain ⟨low, hlow, heq⟩ := exists_minload hstored
  have hle : ∀ g ∈ i.stored, i.minload ≤ g.pOffset := (foldl_wordMin_le i.stored (-1)).2
  constructor
  · intro hall
    have := hall low hlow (by rw [heq]; exact hle)
    rwa [heq] at this
  · intro hmod g hg hleast
    have := hleast low hlow
    rw [heq] at this
    rwa [BitVec.le_antisymm this (hle g hg)]

theorem movedRight_iff_startsRight (o : Options) (prologue behind : Bytes) (inputs : List Input)
    (placed : List Placed) (hvalid : ∀ i ∈ inputs, ValidInput o i)
    (hlink : linkInputs o prologue.length inputs = .ok placed) :
    MovedRight o prologue behind placed ↔ ∀ x ∈ placed, StartsRight o x := by
  have hlaid := linkInputs_laid hlink
  have hstorable : ∀ x ∈ placed, ∀ h ∈ x.input.phdrs, h.pType = ptLoad → h.pFilesz ≠ 0 →
      Storable x.input h := by
    intro x hx h hh hload hfilesz
    exact (hvalid x.input (hlaid.moved x hx).2).storable hh hload hfilesz
  constructor
  · intro hright x hx
    have hmoved := (hlaid.moved x hx).1
    constructor
    · intro hpe hone
      have hzero := hright.aligned x hx hpe
      rw [hmoved.offset, (searchOffset_mod o x.input x.start).2 hpe.1, if_pos hone] at hzero
      nomatch hzero
    · rintro ⟨h, hh, hload, hfilesz⟩
      have hs := hstorable x hx h hh hload hfilesz
      have hmem : relocate (BitVec.ofNat 64 x.offset - x.input.minload) h ∈ x.phdrs := by
        rw [hmoved.phdrs]
        exact mem_map_of_mem hh
      obtain ⟨htype, hsize, hvaddr, _⟩ :=
        relocate_type (BitVec.ofNat 64 x.offset - x.input.minload) h
      have hcong := hright.congruent x hx _ hmem (htype.trans hload) (by rwa [hsize])
      rw [hvaddr, relocate_offset _ hfilesz] at hcong
      exact (lowest_iff hs _ _).mpr ((hmoved.congruent_iff hs).mp hcong)
    · intro h hh hload k hk hcovered
      have hs := hstorable x hx h hh hload (filesz_ne_zero hk)
      have hbyte := hright.bytes x hx _ (hmoved.mem_zip_iff.mpr ⟨h, hh, rfl⟩) hload k
        (by rwa [(relocate_type _ h).2.1]) hcovered
      exact Option.some.inj ((hlaid.output_byte behind hx hs hk hcovered).symm.trans hbyte)
  · intro hstarts
    constructor
    · -- the bytes
      intro x hx hh hmem hload k hk hcovered
      obtain ⟨h, hin, rfl⟩ := (hlaid.moved x hx).1.mem_zip_iff.mp hmem
      rw [(relocate_type _ h).2.1] at hk
      have hs := hstorable x hx h hin hload (filesz_ne_zero hk)
      rw [hlaid.output_byte behind hx hs hk hcovered,
        (hstarts x hx).unwritten h hin hload k hk hcovered]
    · intro x hx hh hmem
      obtain ⟨h, _, rfl⟩ := (hlaid.moved x hx).1.mem_zip_iff.mp hmem
      exact (relocate_type _ h).2.2.2
    · -- the congruence
      intro x hx h' hmem hload hfilesz
      have hmoved := (hlaid.moved x hx).1
      rw [hmoved.phdrs] at hmem
      obtain ⟨h, hh, rfl⟩ := List.mem_map.mp hmem
      obtain ⟨htype, hsize, hvaddr, _⟩ :=
        relocate_type (BitVec.ofNat 64 x.offset - x.input.minload) h
      rw [htype] at hload
      rw [hsize] at hfilesz
      have hs := hstorable x hx h hh hload hfilesz
      rw [hvaddr, relocate_offset _ hfilesz, hmoved.congruent_iff hs]
      exact (lowest_iff hs _ _).mp ((hstarts x hx).lowest ⟨h, hh, hload, hfilesz⟩)
    · apply hlaid.in_order.imp
      intro x y hle
      exact disjoint_Ico hle
    · intro x hx
      exact disjoint_Ico (hlaid.from_start x hx)
    · intro x hx hpe
      have hmoved := (hlaid.moved x hx).1
      rw [hmoved.offset, (searchOffset_mod o x.input x.start).2 hpe.1,
        if_neg ((hstarts x hx).skewed hpe)]

def smallFile (offset vaddr : Nat) : Bytes :=
  execHeader vaddr 1 ++ loadHeader (pfR ||| pfX) offset vaddr 16 16 ++
    replicate 64 0x90 ++ replicate 64 0

def smallInput (offset vaddr : Nat) : Input := ⟨smallFile offset vaddr, smallFile offset vaddr, none⟩

def elfOptions : Options := ⟨.elf, ⟨false, false, false, false⟩, true⟩

/-- The input behind one byte. -/
def smallPlaced (offset vaddr : Nat) : Placed where
  input := smallInput offset vaddr
  start := 1
  offset := 4096
  phdrs := [⟨ptLoad, pfR ||| pfX, 4096, BitVec.ofNat 64 vaddr, 16, 16, 4096⟩]
  image := ((smallFile offset vaddr).drop offset).take 16
  fixups := []

/-- The image starts at a page. -/
theorem movedRight_page_zero :
    MovedRight elfOptions [0x23] [] [smallPlaced 0 0x400000] ∧
    linkInputs elfOptions 1 [smallInput 0 0x400000] = .ok [smallPlaced 0 0x400000] :=
  (and_iff_right_of_imp fun hlink => (movedRight_iff_startsRight elfOptions [0x23] [] [smallInput 0 0x400000] _
    (List.forall_mem_singleton.mpr ⟨by decide +kernel, rfl⟩) hlink).mpr (List.forall_mem_singleton.mpr
      ⟨by decide +kernel, by decide +kernel, fun _ _ _ _ _ _ => rfl⟩)).mpr (by decide +kernel)

/-- The lowest offset of the input is not that of a page: 160 bytes of the address are left out. -/
theorem not_movedRight_offset_160 :
    ValidInput elfOptions (smallInput 160 0x4000a0) ∧
    linkInputs elfOptions 1 [smallInput 160 0x4000a0] = .ok [smallPlaced 160 0x4000a0] ∧
    ¬MovedRight elfOptions [0x23] [] [smallPlaced 160 0x4000a0] := by
  refine ⟨⟨by decide +kernel, rfl⟩, by decide +kernel, ?_⟩
  intro hright
  have hcong := hright.congruent _ mem_cons_self _ mem_cons_self
  exact absurd hcong (by decide +kernel)

-- behind a prologue of 65537 bytes, the search takes that for a multiple of 65536
example : (linkInputs ⟨.pe, ⟨false, true, false, false⟩, false⟩ 65537
      [{ smallInput 0 0x400000 with pe := some 96 }]).map (List.map Placed.offset) = .ok [65537] := by
  decide +kernel

end CosmoRuby.Ape