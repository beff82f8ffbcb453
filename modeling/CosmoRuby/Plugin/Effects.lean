import CosmoRuby.Plugin.Relocate

/-!
# What a relocation changes

A relocation patches the bytes of one field and appends to the tables, so that slots and stubs
which earlier relocations point to stay what they are. From the single relocation this carries
over to all relocations of a section, of an object and of the plugin.
-/

namespace CosmoRuby.Plugin

open Lib List Function

def slotsOf : RelType → Nat
  | .gotpcrel | .gotpcrelx | .rexGotpcrelx | .gottpoff | .gotpc32Tlsdesc => 1
  | .tlsgd | .tlsld => 2
  | _ => 0

def patchedBytes : RelType → Nat
  | .none | .tlsdescCall | .unsupported _ => 0
  | .r8 | .pc8 => 1
  | .r16 | .pc16 => 2
  | .r32 | .r32s | .pc32 | .plt32 | .gotpcrel | .gotpcrelx | .rexGotpcrelx | .size32 | .tpoff32
  | .dtpoff32 | .tlsgd | .tlsld | .gottpoff | .gotpc32Tlsdesc => 4
  | .r64 | .pc64 | .relative | .globDat | .jumpSlot | .size64 | .tpoff64 | .dtpoff64
  | .dtpmod64 => 8
  | .tlsdesc => 16

def span (a : BitVec 64) (n : Nat) : Set (BitVec 64) := {b | (b - a).toNat < n}

/-- Every call of `AllocateGotSlot` so far got its slot, and the stubs are in a mapping. -/
structure PluginState.Valid (p : PluginState) : Prop where
  gotcalls : p.gotcalls = p.gotcount
  pltcount : p.pltcount ≤ p.pltcap
  plt : 0 < p.pltcap → p.plt ≠ 0

theorem startPlugin_valid (m : Memory) : (startPlugin m).Valid :=
  ⟨rfl, Nat.le_refl 0, fun h => absurd h (Nat.lt_irrefl 0)⟩

/-- From `p` to `q` only bytes of `W` changed, `n` slots were taken, and the tables kept what they
held. -/
structure Moves (W : Set (BitVec 64)) (n : Nat) (p q : PluginState) : Prop where
  valid : q.Valid
  mem : ∀ a, a ∉ W → q.mem a = p.mem a
  gotcount : q.gotcount = p.gotcount + n
  gotcap : p.gotcap ≤ q.gotcap
  got : 0 < p.gotcount → q.got = p.got
  gotSlots : ∀ i < p.gotcount, q.gotSlots i = p.gotSlots i
  pltcount : p.pltcount ≤ q.pltcount
  plt : 0 < p.pltcount → q.plt = p.plt
  stubs : ∀ i < p.pltcount, q.stubs i = p.stubs i

/-- From `p`, an error came up at `q` after at most `n` calls of `AllocateGotSlot`. The table
refuses to grow only for a call beyond its capacity. -/
structure Stops (n : Nat) (p : PluginState) (e : RelocError) (q : PluginState) : Prop where
  gotcalls : q.gotcalls ≤ p.gotcalls + n
  gotcap : p.gotcap ≤ q.gotcap
  refused : e = .gotRefused → q.gotcap < q.gotcalls

variable {W W' : Set (BitVec 64)} {n k : Nat} {p q r : PluginState} {e : RelocError}

theorem Moves.refl (hp : p.Valid) : Moves W 0 p p :=
  ⟨hp, fun _ _ => rfl, rfl, Nat.le_refl _, fun _ => rfl, fun _ _ => rfl, Nat.le_refl _, fun _ => rfl,
    fun _ _ => rfl⟩

theorem Moves.trans (hpq : Moves W n p q) (hqr : Moves W k q r) : Moves W (n + k) p r := by
  have hgot : p.gotcount ≤ q.gotcount := by rw [hpq.gotcount]; omega
  have hplt := hpq.pltcount
  exact {
    valid := hqr.valid
    mem := fun a ha => (hqr.mem a ha).trans (hpq.mem a ha)
    gotcount := by rw [hqr.gotcount, hpq.gotcount, Nat.add_assoc]
    gotcap := Nat.le_trans hpq.gotcap hqr.gotcap
    got := fun h => (hqr.got (by omega)).trans (hpq.got h)
    gotSlots := fun i hi => (hqr.gotSlots i (by omega)).trans (hpq.gotSlots i hi)
    pltcount := Nat.le_trans hplt hqr.pltcount
    plt := fun h => (hqr.plt (by omega)).trans (hpq.plt h)
    stubs := fun i hi => (hqr.stubs i (by omega)).trans (hpq.stubs i hi) }

theorem Moves.gotcalls (h : Moves W n p q) (hp : p.Valid) : q.gotcalls = p.gotcalls + n := by
  rw [h.valid.gotcalls, hp.gotcalls, h.gotcount]

theorem Stops.of_moves (hp : p.Valid) (hpq : Moves W n p q) (hqr : Stops k q e r) :
    Stops (n + k) p e r := by
  have hcalls := hpq.gotcalls hp
  have hmore := hqr.gotcalls
  exact ⟨by omega, Nat.le_trans hpq.gotcap hqr.gotcap, hqr.refused⟩

theorem Stops.mono (h : Stops n p e q) (hn : n ≤ k) : Stops k p e q :=
  ⟨Nat.le_trans h.gotcalls (Nat.add_le_add_left hn _), h.gotcap, h.refused⟩

theorem ends_stops_le {α : Type} {P : α → Prop} {x : Loads α} (hx : Ends P (Stops n p) x) (hn : n ≤ k) :
    Ends P (Stops k p) x :=
  hx.mono (fun _ ha => ha) fun _ _ hq => hq.mono hn

theorem Stops.here (he : e ≠ .gotRefused) : Stops n p e p :=
  ⟨Nat.le_add_right _ _, Nat.le_refl _, fun h => absurd h he⟩

abbrev Runs (W : Set (BitVec 64)) (n : Nat) (p : PluginState) (x : Loads PluginState) : Prop :=
  Ends (Moves W n p) (Stops n p) x

variable {α : Type}

theorem Runs.bind {x : Loads α} {f : α → Loads PluginState} {Q : α → Prop}
    {π : α → PluginState} (hp : p.Valid)
    (hx : Ends (fun a => Q a ∧ Moves W n p (π a)) (Stops n p) x)
    (hf : ∀ a, Q a → (π a).Valid → Runs W k (π a) (f a)) : Runs W (n + k) p (x >>= f) := by
  refine (ends_stops_le hx (Nat.le_add_right n k)).bind fun a ha => ?_
  exact (hf a ha.1 ha.2.valid).mono (fun q hq => ha.2.trans hq) fun e q hq => hq.of_moves hp ha.2

/-! ## The tables -/

theorem allocateGotSlot_ends (W : Set (BitVec 64)) (h : Host) (hp : p.Valid) :
    Ends (fun x => x.1 = p.gotcount ∧ Moves W 1 p x.2) (Stops 1 p) (allocateGotSlot h p) := by
  have hcalls : p.gotcalls + 1 = p.gotcount + 1 := by rw [hp.gotcalls]
  have hsame := Moves.refl (W := W) hp
  unfold allocateGotSlot ensureGotCap
  dsimp only
  split <;> rename_i hroom
  · exact ⟨rfl, { hsame with valid := { hp with gotcalls := hcalls }, gotcount := rfl }⟩
  split <;> rename_i hused
  · exact ⟨Nat.le_refl _, Nat.le_refl _, fun _ => by dsimp only; omega⟩
  cases h.mapGot (max (p.gotcount + 1) (if p.gotcap ≠ 0 then p.gotcap * 2 else 16)) with
  | none => exact ⟨Nat.le_refl _, Nat.le_refl _, fun he => nomatch he⟩
  | some a =>
    refine ⟨rfl, { hsame with
      valid := { hp with gotcalls := hcalls }, gotcount := rfl, gotcap := ?_,
      got := fun hpos => absurd hpos hused }⟩
    exact Nat.le_trans (by omega) (Nat.le_max_left _ _)

theorem allocatePltStub_ends (W : Set (BitVec 64)) (h : Host) (target : BitVec 64) (hp : p.Valid) :
    Ends (fun x => (x.1 = p.pltcount ∧ x.2.pltcount = p.pltcount + 1 ∧
        x.2.stubs x.1 = pltStub target) ∧ Moves W 0 p x.2)
      (Stops 0 p) (allocatePltStub h p target) := by
  have hstubs : ∀ i < p.pltcount,
      Function.update p.stubs p.pltcount (pltStub target) i = p.stubs i :=
    fun i hi => update_of_ne (Nat.ne_of_lt hi) _ _
  have hsame := Moves.refl (W := W) hp
  unfold allocatePltStub ensurePltCap
  dsimp only
  split <;> rename_i hroom
  · exact ⟨⟨rfl, rfl, update_self ..⟩, { hsame with
      valid := { hp with pltcount := hroom }, pltcount := Nat.le_succ _, stubs := hstubs }⟩
  split <;> rename_i hplt
  · exact Stops.here (by decide)
  -- without a mapping there is no stub yet
  have hcap : p.pltcap = 0 := by
    by_contra hne
    exact hplt (hp.plt (Nat.pos_of_ne_zero hne))
  have hcount : p.pltcount = 0 := by
    have hle := hp.pltcount
    omega
  cases hmap : h.mapPlt (max (p.pltcount + 1) pltInitialStubs) with
  | none => exact Stops.here (by decide)
  | some a =>
    have ha : a ≠ 0 := fun ha => h.mapPlt_ne_null _ (hmap.trans (congrArg some ha))
    exact ⟨⟨rfl, rfl, update_self ..⟩, { hsame with
      valid := { hp with pltcount := Nat.le_max_left _ _, plt := fun _ => ha }
      pltcount := Nat.le_succ _
      plt := fun hpos => absurd hcount (Nat.ne_of_gt hpos)
      stubs := hstubs }⟩

theorem allocateTlsDesc_ends (W : Set (BitVec 64)) (h : Host) (off : BitVec 64) (hp : p.Valid) :
    Ends (fun x => True ∧ Moves W 0 p x.2) (Stops 0 p) (allocateTlsDesc h p off) := by
  have hsame := Moves.refl (W := W) hp
  unfold allocateTlsDesc ensureTlsDescCap
  split <;> rename_i hroom
  · exact ⟨trivial, { hsame with valid := { hp with } }⟩
  split <;> rename_i hfull
  · exact Stops.here (by decide)
  cases h.mallocTlsDescs 256 with
  | none => exact Stops.here (by decide)
  | some a => exact ⟨trivial, { hsame with valid := { hp with } }⟩

variable {v a S A P offv : BitVec 64}

theorem Moves.setGot {i : Nat} (h : Moves W n p q) (hi : p.gotcount ≤ i) :
    Moves W n p (q.setGot i v) :=
  { h with
    valid := { h.valid with }
    gotSlots := fun j hj =>
      (update_of_ne (Nat.ne_of_lt (Nat.lt_of_lt_of_le hj hi)) _ _).trans
        (h.gotSlots j hj) }

variable {b : Nat}

theorem Moves.store (h : Moves W n p q) (hW : span a b ⊆ W) : Moves W n p (q.store a b v) :=
  { h with
    valid := { h.valid with }
    mem := fun c hc => (storeLe_of_le (Nat.not_lt.mp fun hlt => hc (hW hlt))).trans (h.mem c hc) }

/-! ## One relocation -/

theorem store_runs (hp : p.Valid) (hW : span a b ⊆ W) : Runs W 0 p (.ok (p.store a b v)) :=
  (Moves.refl hp).store hW

theorem applyPc32_runs (hp : p.Valid) (hW : span P 4 ⊆ W) : Runs W 0 p (applyPc32 p S A P) := by
  unfold applyPc32
  dsimp only
  split_ifs
  · exact Stops.here (by decide)
  · exact store_runs hp hW

variable {h : Host}

theorem storeDisp_runs {disp : BitVec 64} (hq : Moves W n p q) (hp : p.Valid)
    (hW : span P 4 ⊆ W) (he : e ≠ .gotRefused) : Runs W n p (storeDisp q P disp e) := by
  unfold storeDisp
  split_ifs
  · exact Stops.of_moves (k := 0) hp hq (Stops.here he)
  · exact hq.store hW

theorem allocateGotSlot_after (h : Host) (hp : p.Valid) (hq : Moves W n p q) :
    Ends (fun x => p.gotcount ≤ x.1 ∧ Moves W (n + 1) p x.2) (Stops (n + 1) p)
      (allocateGotSlot h q) := by
  refine (allocateGotSlot_ends W h hq.valid).mono (fun x hx => ⟨?_, hq.trans hx.2⟩)
    fun e r hr => hr.of_moves hp hq
  rw [hx.1, hq.gotcount]
  exact Nat.le_add_right _ _

section

variable (hp : p.Valid) (hW : span P 4 ⊆ W)
include hp hW

theorem applyPlt32_runs : Runs W 0 p (applyPlt32 h p S A P) := by
  unfold applyPlt32
  dsimp only
  split_ifs
  · refine Runs.bind (k := 0) hp (allocatePltStub_ends W h S hp) fun x _ hx => ?_
    split_ifs
    · exact Stops.here (by decide)
    · exact store_runs hx hW
  · exact store_runs hp hW

theorem applyGotpcrel_runs : Runs W 1 p (applyGotpcrel h p S A P) := by
  unfold applyGotpcrel
  refine (allocateGotSlot_ends W h hp).bind fun x hx => ?_
  exact storeDisp_runs (hx.2.setGot (Nat.le_of_eq hx.1.symm)) hp hW (by decide)

theorem applyGottpoff_runs : Runs W 1 p (applyGottpoff h p offv P) := by
  unfold applyGottpoff
  refine (allocateGotSlot_ends W h hp).bind fun x hx => ?_
  exact storeDisp_runs (hx.2.setGot (Nat.le_of_eq hx.1.symm)) hp hW (by decide)

theorem applyTlsgd_runs : Runs W 2 p (applyTlsgd h p offv A P) := by
  have hfirst := ends_stops_le (k := 2) (allocateGotSlot_ends W h hp) (by decide)
  unfold applyTlsgd
  refine hfirst.bind fun x hx => (allocateGotSlot_after h hp hx.2).bind fun y hy => ?_
  exact storeDisp_runs ((hy.2.setGot (Nat.le_of_eq hx.1.symm)).setGot hy.1) hp hW (by decide)

theorem applyGotpc32Tlsdesc_runs : Runs W 1 p (applyGotpc32Tlsdesc h p offv P) := by
  have hfirst := ends_stops_le (k := 0 + 1) (allocateTlsDesc_ends W h offv hp) (by decide)
  unfold applyGotpc32Tlsdesc
  refine hfirst.bind fun x hx => (allocateGotSlot_after h hp hx.2).bind fun y hy => ?_
  exact storeDisp_runs (hy.2.setGot hy.1) hp hW (by decide)

end

theorem applyTlsdesc_runs (hp : p.Valid) (hW : span P 16 ⊆ W) :
    Runs W 0 p (applyTlsdesc h p offv P) := by
  have hlow : span P 8 ⊆ W := fun a ha => hW (Nat.lt_trans ha (by decide))
  have hhigh : span (P + 8) 8 ⊆ W := by
    intro a ha
    apply hW
    change (a - (P + 8)).toNat < 8 at ha
    change (a - P).toNat < 16
    bv_omega
  unfold applyTlsdesc
  exact (allocateTlsDesc_ends W h offv hp).bind fun x hx => (hx.2.store hlow).store hhigh

variable {o : PluginObject}

theorem applyType_runs {s : Option Elf64Sym}
    (hp : p.Valid) (t : RelType) (hW : span P (patchedBytes t) ⊆ W) :
    Runs W (slotsOf t) p (applyType h o p s S A P t) := by
  cases t
  case none | tlsdescCall => exact Moves.refl hp
  case unsupported => exact Stops.here (fun he => nomatch he)
  case pc32 => exact applyPc32_runs hp hW
  case plt32 => exact applyPlt32_runs hp hW
  case gotpcrel | gotpcrelx | rexGotpcrelx => exact applyGotpcrel_runs hp hW
  case tlsgd | tlsld => exact applyTlsgd_runs hp hW
  case gottpoff => exact applyGottpoff_runs hp hW
  case gotpc32Tlsdesc => exact applyGotpc32Tlsdesc_runs hp hW
  case tlsdesc => exact applyTlsdesc_runs hp hW
  all_goals exact store_runs hp hW

def patches (o : PluginObject) (sh : Elf64Shdr) (r : Elf64Rela) : Set (BitVec 64) :=
  span (sectionAddr o sh.shInfo r.rOffset)
    (if isAllocated o sh then patchedBytes (relType r.type) else 0)

def relocSlots (o : PluginObject) (sh : Elf64Shdr) (r : Elf64Rela) : Nat :=
  if isAllocated o sh then slotsOf (relType r.type) else 0

variable {syms : List PluginSym} {sh : Elf64Shdr}

theorem symbolValue_ne_gotRefused {r : Elf64Rela} (hs : symbolValue h syms o sh r = .error e) :
    e ≠ .gotRefused := by
  unfold symbolValue at hs
  cases hsym : relocSym o sh r with
  | none => rw [hsym] at hs; nomatch hs
  | some s =>
    rw [hsym] at hs
    dsimp only at hs
    split_ifs at hs <;> cases hs <;> exact fun he => nomatch he

theorem applyRelocation_runs {r : Elf64Rela} (hp : p.Valid) (hW : patches o sh r ⊆ W) :
    Runs W (relocSlots o sh r) p (applyRelocation h syms o sh p r) := by
  unfold applyRelocation relocSlots
  unfold patches at hW
  cases halloc : isAllocated o sh with
  | false => exact Moves.refl hp
  | true =>
    rw [halloc] at hW
    rw [if_pos rfl, if_neg (show ¬(!true) = true by decide)]
    dsimp only
    split_ifs
    · exact Stops.here (by decide)
    · cases hs : symbolValue h syms o sh r with
      | error e => exact Stops.here (symbolValue_ne_gotRefused hs)
      | ok S => exact applyType_runs hp _ hW

/-! ## All relocations -/

theorem foldlM_runs {f : PluginState → α → Loads PluginState} {w : α → Nat} {l : List α}
    (hp : p.Valid) (step : ∀ a ∈ l, ∀ q : PluginState, q.Valid → Runs W (w a) q (f q a)) :
    Runs W (l.map w).sum p (l.foldlM f p) := by
  -- so far `n` slots were taken, and the items to come take the rest
  let I : List α → PluginState → Prop := fun l' q =>
    l' ⊆ l ∧ ∃ n, Moves W n p q ∧ n + (l'.map w).sum = (l.map w).sum
  have hloop : Ends (I []) (Stops (l.map w).sum p) (l.foldlM f p) := by
    refine ends_foldlM (I := I) ?_ ⟨List.Subset.refl l, 0, Moves.refl hp, Nat.zero_add _⟩
    rintro a l' q ⟨hsub, n, hq, hsum⟩
    rw [map_cons, sum_cons] at hsum
    refine (step a (hsub mem_cons_self) q hq.valid).mono (fun r hr => ?_) fun e r hr => ?_
    · exact ⟨fun b hb => hsub (mem_cons_of_mem a hb), n + w a, hq.trans hr, by omega⟩
    · exact (hr.of_moves hp hq).mono (by omega)
  refine hloop.mono ?_ fun e r hr => hr
  rintro q ⟨-, n, hq, hsum⟩
  rw [map_nil, sum_nil, Nat.add_zero] at hsum
  rwa [← hsum]

def sectionSlots (o : PluginObject) (sh : Elf64Shdr) : Nat :=
  if sh.shType ≠ shtRela then 0 else (sh.relas.map (relocSlots o sh)).sum

theorem applySection_runs
    (hp : p.Valid) (hW : sh.shType = shtRela → ∀ r ∈ sh.relas, patches o sh r ⊆ W) :
    Runs W (sectionSlots o sh) p (applySection h syms o p sh) := by
  unfold applySection sectionSlots
  by_cases hrela : sh.shType ≠ shtRela
  · rw [if_pos hrela, if_pos hrela]
    exact Moves.refl hp
  rw [if_neg hrela, if_neg hrela]
  split_ifs
  · exact Stops.here (by decide)
  · exact foldlM_runs hp fun r hr q hq => applyRelocation_runs hq (hW (not_not.mp hrela) r hr)

def objectSlots (o : PluginObject) : Nat := (o.shdrs.map (sectionSlots o)).sum

theorem applyRelocations_runs (h : Host) (syms : List PluginSym) (o : PluginObject)
    (hp : p.Valid) :
    Runs Set.univ (objectSlots o) p (applyRelocations h syms p o) :=
  foldlM_runs hp fun _ _ _ hq => applySection_runs hq fun _ _ _ => Set.subset_univ _

theorem relocateObjects_runs (h : Host) (objs : List PluginObject) (hp : p.Valid) :
    Runs Set.univ (objs.map objectSlots).sum p (relocateObjects h p objs) :=
  foldlM_runs hp fun o _ _ hq => applyRelocations_runs h _ o hq

end CosmoRuby.Plugin
