import CosmoRuby.Mmap.Mirror

/-!
# `mremap` on Linux

The kernel moves, grows or shrinks the pages; the tracker takes the old range out of the table and
inserts one entry made from what it saved of the old one. It saves the offset as an `int`, does not
move it along when the range begins inside the entry, and does not look at what was tracked at the
target of `MREMAP_FIXED`.
-/

namespace CosmoRuby.Mmap

open CosmoRuby.Lib List

/-- The arguments of `cosmo_mremap`; `others` are the flags that are not supported. -/
structure Remap where
  oldAddr : Nat
  oldSize : Nat
  newSize : Nat
  mayMove : Bool
  fixed : Bool
  others : Bool
  newAddr : Nat
deriving DecidableEq, Repr

def maxSize : Nat := 0x0ff800000000

def mapsFloorMap (addr : Nat) (maps : List Map) : Option Map :=
  (maps.takeWhile fun m => m.addr ≤ addr).getLast?

def toInt32 (n : Int) : Int := n.bmod (2 ^ 32)

def mremapImpl (ps oldAddr oldSize newSize res : Nat) (t : Maps) : Option Maps :=
  match mapsFloorMap oldAddr t.maps with
  | none => none
  | some old =>
    if old.stop ps < oldAddr + roundUp ps oldSize ∨ oldAddr < old.addr then none
    else
      some (mapsInsert ps
        { addr := res, size := newSize, off := toInt32 old.off, flags := old.flags,
          prot := old.prot }
        (muntrack ps oldAddr oldSize t))

def Remap.moves (ps : Nat) (r : Remap) : Bool :=
  r.mayMove && !(decide (r.newSize ≤ roundUp ps r.oldSize) && !r.fixed)

structure Remap.Checked (ps gran : Nat) (r : Remap) : Prop where
  oldSize : r.oldSize ≠ 0
  newSize : r.newSize ≠ 0
  oldMax : r.oldSize ≤ maxSize
  newMax : r.newSize ≤ maxSize
  flags : r.others = false
  fixedMoves : r.fixed = true → r.moves ps = true
  oldAddr : r.oldAddr % gran = 0
  newAddr : r.fixed = true → r.newAddr % gran = 0
  oldOver : ¬ (r.oldAddr + roundUp ps r.oldSize) % 2 ^ 64 < roundUp ps r.oldSize
  newOver : r.fixed = true → ¬ (r.newAddr + r.newSize) % 2 ^ 64 < r.newSize
  disjoint : r.fixed = true → min (r.oldAddr + roundUp ps r.oldSize)
    (r.newAddr + roundUp ps r.newSize) ≤ max r.oldAddr r.newAddr

instance (ps gran : Nat) (r : Remap) : Decidable (r.Checked ps gran) :=
  decidable_of_iff
    (r.oldSize ≠ 0 ∧ r.newSize ≠ 0 ∧ r.oldSize ≤ maxSize ∧ r.newSize ≤ maxSize ∧
      r.others = false ∧ (r.fixed = true → r.moves ps = true) ∧ r.oldAddr % gran = 0 ∧
      (r.fixed = true → r.newAddr % gran = 0) ∧
      ¬ (r.oldAddr + roundUp ps r.oldSize) % 2 ^ 64 < roundUp ps r.oldSize ∧
      (r.fixed = true → ¬ (r.newAddr + r.newSize) % 2 ^ 64 < r.newSize) ∧
      (r.fixed = true → min (r.oldAddr + roundUp ps r.oldSize)
        (r.newAddr + roundUp ps r.newSize) ≤ max r.oldAddr r.newAddr))
    ⟨fun ⟨h₁, h₂, h₃, h₄, h₅, h₆, h₇, h₈, h₉, h₁₀, h₁₁⟩ =>
      ⟨h₁, h₂, h₃, h₄, h₅, h₆, h₇, h₈, h₉, h₁₀, h₁₁⟩,
    fun ⟨h₁, h₂, h₃, h₄, h₅, h₆, h₇, h₈, h₉, h₁₀, h₁₁⟩ =>
      ⟨h₁, h₂, h₃, h₄, h₅, h₆, h₇, h₈, h₉, h₁₀, h₁₁⟩⟩

def Remap.Noop (ps : Nat) (r : Remap) : Prop := roundUp ps r.newSize = roundUp ps r.oldSize

instance (ps : Nat) (r : Remap) : Decidable (r.Noop ps) := inferInstanceAs (Decidable (_ = _))

/-- `__mremap`: the table afterwards and the address returned, where the kernel answers `res` if it
is asked; `rlimit` is `~rlimit[RLIMIT_AS].rlim_cur`. -/
def mremap (ps gran rlimit : Nat) (r : Remap) (res : Nat) (t : Maps) : Option (Maps × Nat) :=
  if ¬ r.Checked ps gran then none
  else if r.Noop ps then some (t, r.oldAddr)
  else if roundUp ps r.oldSize < roundUp ps r.newSize ∧
      rlimit < (t.count * ps + 2 ^ 64 - roundUp ps r.oldSize + roundUp ps r.newSize) % 2 ^ 64 then
    none
  else
    (mremapImpl ps r.oldAddr (roundUp ps r.oldSize) r.newSize res t).map fun t' => (t', res)

section

variable (ps : Nat) (r : Remap)

def Remap.Old (x : Nat) : Prop :=
  r.oldAddr ≤ x ∧ x < r.oldAddr + roundUp ps r.oldSize

def Remap.New (res x : Nat) : Prop :=
  res ≤ x ∧ x < res + roundUp ps r.newSize

/-- What the kernel answers: the target of `MREMAP_FIXED`, or pages that were not in use or belong
to the old range, and it stays in place unless it may move. -/
structure Kernel (t : Maps) (res : Nat) : Prop where
  aligned : ps ∣ res
  below : res + roundUp ps r.newSize < 2 ^ 64
  fixed : r.fixed = true → res = r.newAddr
  stays : r.moves ps = false → res = r.oldAddr
  free : r.fixed = false → ∀ x, r.New ps res x → ¬ r.Old ps x → ¬ Tracked ps t x

/-- What a successful call leaves: entries that are pairwise disjoint; none for a page of the old
range that is gone; each page says of its content what was said before, and where the mapping has
grown, it goes on. -/
structure Faithful (t t' : Maps) (res : Nat) : Prop where
  disjoint : t'.maps.Pairwise (Apart ps)
  unmapped : ∀ x, r.Old ps x → ¬ r.New ps res x → ¬ Tracked ps t' x
  moved : ∀ d a, d < roundUp ps r.oldSize → d < roundUp ps r.newSize →
    Denotes ps t.maps (r.oldAddr + d) a → Denotes ps t'.maps (res + d) a
  grown : ∀ m ∈ t.maps, m.Holds ps r.oldAddr → ∀ d, roundUp ps r.oldSize ≤ d →
    d < roundUp ps r.newSize → Denotes ps t'.maps (res + d) (m.attr (r.oldAddr + d))

/-- Nothing is tracked at the target of `MREMAP_FIXED`; and the offset of a file mapping fits an
`int`, counted from the first page that is moved. -/
structure Remap.Sound (t : Maps) : Prop where
  target : r.fixed = true → ∀ x, r.New ps r.newAddr x → ¬ Tracked ps t x
  offset : ∀ m ∈ t.maps, m.Holds ps r.oldAddr → m.flags.anonymous = true ∨
    toInt32 m.off = m.off + ((r.oldAddr - m.addr : Nat) : Int)

end

section

variable {ps lo hi x res : Nat} {m k z : Map} {a : Attr} {l l' : List Map} {t : Maps} {r : Remap}

/-! ## How many entries cover an address -/

instance (ps : Nat) (m : Map) (x : Nat) : Decidable (m.Holds ps x) :=
  inferInstanceAs (Decidable (_ ∧ _))

def covers (ps : Nat) (l : List Map) (x : Nat) : Nat := l.countP fun m => m.Holds ps x

theorem covers_append : covers ps (l ++ l') x = covers ps l x + covers ps l' x :=
  List.countP_append

theorem covers_cons :
    covers ps (m :: l) x = covers ps l x + if m.Holds ps x then 1 else 0 := by
  unfold covers
  rw [countP_cons]
  simp only [decide_eq_true_eq]

theorem one_le_covers (hm : m ∈ l) (hx : m.Holds ps x) : 1 ≤ covers ps l x :=
  List.countP_pos_iff.mpr ⟨m, hm, decide_eq_true hx⟩

theorem covers_le_one (h : l.Pairwise (Apart ps)) : covers ps l x ≤ 1 := by
  induction l with
  | nil => exact Nat.zero_le _
  | cons m l ih =>
    obtain ⟨hm, hl⟩ := List.pairwise_cons.mp h
    rw [covers_cons]
    by_cases hx : m.Holds ps x
    · have hzero : covers ps l x = 0 := by
        refine List.countP_eq_zero.mpr fun k hk hkx => ?_
        have hapart := hm k hk
        have hkx' : k.Holds ps x := of_decide_eq_true hkx
        unfold Apart at hapart
        unfold Map.Holds at hx hkx'
        omega
      rw [hzero, if_pos hx]
    · rw [if_neg hx]
      exact ih hl

theorem Joins.covers (hps : 0 < ps) (hz : Joins ps m k z) :
    covers ps (z :: l) x = covers ps (m :: k :: l) x := by
  have hstop := hz.stop hps
  have hadj := hz.adjacent
  have haddr := hz.addr
  have hle : m.addr ≤ m.stop ps := Nat.le_add_right _ _
  have hle' : k.addr ≤ k.stop ps := Nat.le_add_right _ _
  have hunion : z.Holds ps x ↔ m.Holds ps x ∨ k.Holds ps x := by
    unfold Map.Holds
    omega
  have hexcl : m.Holds ps x → ¬ k.Holds ps x := by
    unfold Map.Holds
    omega
  rw [covers_cons, covers_cons, covers_cons]
  by_cases hm : m.Holds ps x
  · rw [if_pos (hunion.mpr (Or.inl hm)), if_pos hm, if_neg (hexcl hm)]
  · by_cases hk : k.Holds ps x
    · rw [if_pos (hunion.mpr (Or.inr hk)), if_neg hm, if_pos hk]
    · rw [if_neg fun h => (hunion.mp h).elim hm hk, if_neg hm, if_neg hk]

theorem Joined.covers (hps : 0 < ps) (h : Joined ps l l') :
    Mmap.covers ps l' x = Mmap.covers ps l x := by
  induction h with
  | refl => rfl
  | join _ _ hz _ ih => rw [ih, covers_append, covers_append, hz.covers hps]

theorem covers_mapsInsert (hps : 0 < ps) (m : Map) (t : Maps) (x : Nat) :
    covers ps (mapsInsert ps m t).maps x =
      covers ps t.maps x + if m.Holds ps x then 1 else 0 := by
  have hsplit := congrArg (fun l => covers ps l x)
    (takeWhile_append_dropWhile (p := fun k : Map => k.addr ≤ m.addr) (l := t.maps))
  rw [(joined_mapsInsert m t).covers hps, covers_append, covers_cons, ← hsplit, covers_append, Nat.add_assoc]

/-! ## The old entry -/

theorem mapsFloorMap_mem {maps : List Map} (h : mapsFloorMap lo maps = some m) :
    m ∈ maps ∧ m.addr ≤ lo := by
  have hmem := List.mem_of_getLast? h
  have htrue := mem_takeWhile_imp hmem
  exact ⟨(takeWhile_sublist _).subset hmem, of_decide_eq_true htrue⟩

def movedMap (old : Map) (newSize res : Nat) : Map where
  addr := res
  size := newSize
  off := toInt32 old.off
  flags := old.flags
  prot := old.prot

theorem mremapImpl_some {t' : Maps} {oldAddr oldSize newSize : Nat}
    (hsize : 0 < roundUp ps oldSize)
    (h : mremapImpl ps oldAddr oldSize newSize res t = some t') :
    ∃ old ∈ t.maps, old.Holds ps oldAddr ∧ oldAddr + roundUp ps oldSize ≤ old.stop ps ∧
      t' = mapsInsert ps (movedMap old newSize res) (muntrack ps oldAddr oldSize t) := by
  unfold mremapImpl at h
  cases hold : mapsFloorMap oldAddr t.maps with
  | none =>
    rw [hold] at h
    cases h
  | some old =>
    rw [hold] at h
    simp only at h
    split at h <;> rename_i hfault
    · cases h
    obtain ⟨hmem, hle⟩ := mapsFloorMap_mem hold
    refine ⟨old, hmem, ⟨hle, ?_⟩, ?_, (Option.some.inj h).symm⟩
    · omega
    · omega

/-- The new entry says of a page what the old one said of its content, if the offset is right. -/
theorem attr_movedMap {old : Map} {oldAddr newSize d : Nat} (hle : old.addr ≤ oldAddr) :
    (movedMap old newSize res).attr (res + d) = old.attr (oldAddr + d) ↔
      old.flags.anonymous = true ∨
        toInt32 old.off = old.off + ((oldAddr - old.addr : Nat) : Int) := by
  unfold Map.attr movedMap
  by_cases hanon : old.flags.anonymous
  · simp only [hanon, if_true, true_or]
  · simp only [hanon, Bool.false_eq_true, if_false, Attr.mk.injEq, Option.some.injEq, true_and,
      false_or]
    omega

theorem mremap_some {gran rlimit res' : Nat} {t' : Maps} (hps : 0 < ps)
    (h : mremap ps gran rlimit r res t = some (t', res')) :
    r.Checked ps gran ∧ ((r.Noop ps ∧ t' = t ∧ res' = r.oldAddr) ∨
      ¬ r.Noop ps ∧ res' = res ∧ ∃ old ∈ t.maps, old.Holds ps r.oldAddr ∧
        r.oldAddr + roundUp ps r.oldSize ≤ old.stop ps ∧
        t' = mapsInsert ps (movedMap old r.newSize res)
          (muntrack ps r.oldAddr (roundUp ps r.oldSize) t)) := by
  unfold mremap at h
  by_cases hcheck : r.Checked ps gran
  swap
  · rw [if_pos hcheck] at h
    cases h
  rw [if_neg (not_not_intro hcheck)] at h
  refine ⟨hcheck, ?_⟩
  split at h <;> rename_i hnoop
  · obtain ⟨rfl, rfl⟩ := Prod.mk.inj (Option.some.inj h)
    exact Or.inl ⟨hnoop, rfl, rfl⟩
  split at h <;> rename_i hlimit
  · cases h
  obtain ⟨t₁, himpl, heq⟩ := Option.map_eq_some_iff.mp h
  obtain ⟨rfl, rfl⟩ := Prod.mk.inj heq
  have hround := roundUp_of_dvd hps (dvd_roundUp ps r.oldSize)
  have hpos := roundUp_pos hps hcheck.oldSize
  obtain ⟨old, hmem, hheld, hend, ht'⟩ := mremapImpl_some (by rw [hround]; exact hpos) himpl
  rw [hround] at hend
  exact Or.inr ⟨hnoop, rfl, old, hmem, hheld, hend, ht'⟩

abbrev Remap.rest (r : Remap) (ps : Nat) (t : Maps) : Maps := muntrack ps r.oldAddr (roundUp ps r.oldSize) t

theorem denotes_without_old {old : Map} (hps : 0 < ps) (h64 : ps ∣ 2 ^ 64)
    (hdvd : ps ∣ r.oldAddr) (ht : t.Valid ps) (hmem : old ∈ t.maps)
    (hend : r.oldAddr + roundUp ps r.oldSize ≤ old.stop ps) :
    Denotes ps (r.rest ps t).maps x a ↔
      Denotes ps t.maps x a ∧ ¬ r.Old ps x := by
  have hbelow := (ht.ordered.ok old hmem).below
  have hround := roundUp_of_dvd hps (dvd_roundUp ps r.oldSize)
  have hrange : rangeEnd ps r.oldAddr (roundUp ps r.oldSize) =
      r.oldAddr + roundUp ps r.oldSize := by
    rw [rangeEnd_of_lt (by rw [hround]; omega), hround]
  rw [denotes_muntrack hps h64 hdvd _ ht, hrange]
  rfl

theorem remapped {old : Map} (hps : 0 < ps) (h64 : ps ∣ 2 ^ 64) (hdvd : ps ∣ r.oldAddr)
    (ht : t.Valid ps) (hmem : old ∈ t.maps)
    (hend : r.oldAddr + roundUp ps r.oldSize ≤ old.stop ps)
    (hm : (movedMap old r.newSize res).Ok ps)
    (hfree : ∀ x, r.New ps res x → ¬ r.Old ps x → ¬ Tracked ps t x) :
    (mapsInsert ps (movedMap old r.newSize res) (r.rest ps t)).Valid ps ∧
    ∀ x a, Denotes ps (mapsInsert ps (movedMap old r.newSize res) (r.rest ps t)).maps x a ↔
        (Denotes ps t.maps x a ∧ ¬ r.Old ps x) ∨
          (r.New ps res x ∧ (movedMap old r.newSize res).attr x = a) := by
  have hvalid := valid_muntrack hps h64 hdvd (roundUp ps r.oldSize) ht
  have hdenotes : ∀ x a, _ := fun x a =>
    denotes_without_old (x := x) (a := a) hps h64 hdvd ht hmem hend
  have hapart : ∀ k ∈ (r.rest ps t).maps,
      Apart ps k (movedMap old r.newSize res) := by
    intro k hk
    refine apart_of_untracked hps hvalid.ordered hm (fun x hx htr => ?_) hk
    obtain ⟨a, ha⟩ := tracked_iff_denotes.mp htr
    obtain ⟨ha, hold⟩ := (hdenotes x a).mp ha
    exact hfree x hx hold (tracked_iff_denotes.mpr ⟨a, ha⟩)
  refine ⟨valid_mapsInsert hps hvalid hm hapart, fun x a => ?_⟩
  rw [denotes_mapsInsert hps hvalid.ordered hm hapart, hdenotes]
  rfl

/-- What is not fixed is free. -/
theorem Kernel.target_free (hk : Kernel ps r t res)
    (hfix : r.fixed = true → ∀ x, r.New ps r.newAddr x → ¬ Tracked ps t x) (x : Nat) (hx : r.New ps res x)
    (hold : ¬ r.Old ps x) : ¬ Tracked ps t x := by
  cases hfixed : r.fixed with
  | false => exact hk.free hfixed x hx hold
  | true =>
    rw [hk.fixed hfixed] at hx
    exact hfix hfixed x hx

end

/-- `mremap` keeps the table faithful exactly if nothing is tracked at the target of
`MREMAP_FIXED` and the saved offset is the offset of the first page that is moved; a call that has
nothing to do changes nothing. -/
theorem faithful_iff_sound {ps gran rlimit res res' : Nat} (hps : 0 < ps) (h64 : ps ∣ 2 ^ 64)
    (hgran : ps ∣ gran) {r : Remap} {t t' : Maps} (ht : t.Valid ps) (hk : Kernel ps r t res)
    (h : mremap ps gran rlimit r res t = some (t', res')) :
    Faithful ps r t t' res' ↔ r.Noop ps ∨ r.Sound ps t := by
  obtain ⟨hcheck, ⟨hnoop, rfl, rfl⟩ | ⟨hnoop, rfl, old, hmem, hheld, hend, rfl⟩⟩ :=
    mremap_some hps h
  · have hsame : roundUp ps r.newSize = roundUp ps r.oldSize := hnoop
    refine iff_of_true ⟨ht.ordered.sorted.imp Or.inl, fun x hx hno => absurd ?_ hno,
      fun d a _ _ ha => ha, fun m _ _ d h₁ h₂ => ?_⟩ (Or.inl hnoop)
    · unfold Remap.Old at hx
      unfold Remap.New
      omega
    · omega
  rw [or_iff_right hnoop]
  have hpos := roundUp_pos hps hcheck.oldSize
  have hnewpos := roundUp_pos hps hcheck.newSize
  have hdvd : ps ∣ r.oldAddr := Nat.dvd_trans hgran (Nat.dvd_of_mod_eq_zero hcheck.oldAddr)
  set moved := movedMap old r.newSize res'
  have hm : moved.Ok ps :=
    ⟨Nat.pos_of_ne_zero hcheck.newSize, hk.aligned, hk.below⟩
  have hin := remapped hps h64 hdvd ht hmem hend hm
  have honly : ∀ m ∈ t.maps, m.Holds ps r.oldAddr → m = old :=
    fun m hmm hmh => ht.ordered.eq_of_holds hmm hmem hmh hheld
  constructor
  · intro hf
    -- a target that is tracked is covered twice
    have hfree : ∀ x, r.New ps res' x → ¬ r.Old ps x → ¬ Tracked ps t x := by
      rintro x hx hold htr
      have htr₀ : Tracked ps (r.rest ps t) x := by
        obtain ⟨a, ha⟩ := tracked_iff_denotes.mp htr
        exact tracked_iff_denotes.mpr
          ⟨a, (denotes_without_old hps h64 hdvd ht hmem hend).mpr ⟨ha, hold⟩⟩
      obtain ⟨k, hkm, hkx⟩ := htr₀
      have htwo := covers_mapsInsert hps moved (r.rest ps t) x
      have hnew : moved.Holds ps x := hx
      rw [if_pos hnew] at htwo
      have hone := covers_le_one hf.disjoint (x := x)
      have hmin := one_le_covers hkm hkx
      unfold Remap.rest at htwo hmin
      omega
    refine ⟨fun hfixed x hx htr => ?_, fun m hmm hmh => ?_⟩
    · -- the target is disjoint from the old range
      have hres := hk.fixed hfixed
      refine hfree x (by rwa [hres]) (fun hold => ?_) htr
      have hdis := hcheck.disjoint hfixed
      unfold Remap.Old at hold
      unfold Remap.New at hx
      omega
    rw [honly m hmm hmh]
    have hfirst := hf.moved 0 (old.attr r.oldAddr) hpos hnewpos ⟨old, hmem, hheld, rfl⟩
    rcases ((hin hfree).2 _ _).mp hfirst with ⟨hother, hold⟩ | ⟨-, hattr⟩
    · exact absurd (tracked_iff_denotes.mpr ⟨_, hother⟩)
        (hfree (res' + 0) ⟨Nat.le_refl _, by omega⟩ hold)
    · exact (attr_movedMap (d := 0) hheld.1).mp hattr
  · intro hs
    obtain ⟨hvalid, hdenotes⟩ := hin (hk.target_free hs.target)
    have hattr : ∀ d, moved.attr (res' + d) = old.attr (r.oldAddr + d) :=
      fun d => (attr_movedMap hheld.1).mpr (hs.offset old hmem hheld)
    have hnew : ∀ d, d < roundUp ps r.newSize → 
        Denotes ps (mapsInsert ps moved (r.rest ps t)).maps (res' + d) (old.attr (r.oldAddr + d)) := by
      intro d hd
      refine (hdenotes _ _).mpr (Or.inr ⟨?_, hattr d⟩)
      exact ⟨Nat.le_add_right _ _, Nat.add_lt_add_left hd res'⟩
    refine ⟨hvalid.ordered.sorted.imp Or.inl, ?_, ?_, ?_⟩
    · intro x hold hno htr
      obtain ⟨a, ha⟩ := tracked_iff_denotes.mp htr
      rcases (hdenotes x a).mp ha with hother | ⟨hx, -⟩
      · exact hother.2 hold
      · exact hno hx
    · rintro d a hd hd' ⟨m, hmm, hmx, rfl⟩
      have hoold : old.Holds ps (r.oldAddr + d) := by
        have := hheld.1
        unfold Map.Holds
        omega
      rw [ht.ordered.eq_of_holds hmm hmem hmx hoold]
      exact hnew d hd'
    · intro m hmm hmh d _ hd
      rw [honly m hmm hmh]
      exact hnew d hd

def fileFlags : Flags where
  type := 1
  anonymous := false
  fixed := false
  noreplace := false
  others := 0

def fileMap (addr size : Nat) (off : Int) : Map where
  addr := addr
  size := size
  off := off
  flags := fileFlags
  prot := 1

def fileTable : Maps where
  maps := [fileMap 65536 16384 0]
  count := 1
  pages := 4

theorem valid_fileTable : fileTable.Valid 4096 := by
  refine ⟨⟨fun m hm => ?_, pairwise_singleton _ _⟩, rfl, by decide⟩
  rw [List.mem_singleton.mp hm]
  exact ⟨by decide, by decide, by decide⟩

def growTail : Remap where
  oldAddr := 73728
  oldSize := 8192
  newSize := 12288
  mayMove := true
  fixed := false
  others := false
  newAddr := 0

def growTailTable : Maps where
  maps := [fileMap 65536 8192 0, fileMap 131072 12288 0]
  count := 2
  pages := 5

/-- The moved pages are the third and fourth of the file, but the entry says the first ones. -/
theorem growTail_loses_offset :
    mremap 4096 4096 (2 ^ 64 - 1) growTail 131072 fileTable = some (growTailTable, 131072) ∧
      ¬ Faithful 4096 growTail fileTable growTailTable 131072 := by
  refine ⟨by decide, fun hf => ?_⟩
  have hbefore : Denotes 4096 fileTable.maps (growTail.oldAddr + 0)
      ⟨1, fileFlags, some 8192⟩ :=
    ⟨fileMap 65536 16384 0, List.mem_singleton.mpr rfl, by decide, by decide⟩
  obtain ⟨m, hm, hmx, hattr⟩ := hf.moved 0 _ (by decide) (by decide) hbefore
  rcases List.mem_cons.mp hm with rfl | hm
  · exact absurd hmx.2 (by decide)
  · rw [List.mem_singleton.mp hm] at hattr
    exact absurd hattr (by decide)

def growAll : Remap := { growTail with oldAddr := 65536, oldSize := 16384, newSize := 20480 }

theorem kernel_growAll : Kernel 4096 growAll fileTable 131072 := by
  refine ⟨by decide, by decide, fun h => ?_, fun h => ?_, fun _ x hx _ htr => ?_⟩
  · cases h
  · exact absurd h (by decide)
  · obtain ⟨m, hm, hmx⟩ := htr
    rw [List.mem_singleton.mp hm] at hmx
    have hlast : (fileMap 65536 16384 0).stop 4096 = 81920 := by decide
    have hstop := hmx.2
    have hstart : 131072 ≤ x := hx.1
    omega

theorem faithful_growAll : Faithful 4096 growAll fileTable ⟨[fileMap 131072 20480 0], 1, 5⟩ 131072 :=
  (faithful_iff_sound (by decide) (by decide) (Nat.dvd_refl 4096) valid_fileTable kernel_growAll
    (by decide : mremap 4096 4096 (2 ^ 64 - 1) growAll 131072 fileTable = _)).mpr
    (.inr ⟨nofun, List.forall_mem_singleton.mpr fun _ => .inr rfl⟩)

end CosmoRuby.Mmap
