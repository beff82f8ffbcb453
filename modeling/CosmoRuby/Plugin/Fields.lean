import CosmoRuby.Plugin.Got

/-!
# Relocated fields

The value that the x86-64 psABI gives each relocation, and which relocations leave that value in
the field they patch. `ApplyRelocations` checks the range of the 32-bit displacements; the other
fields that are narrower than a word are cut without a check.
-/

namespace CosmoRuby.Plugin

open Lib

/-! ## The psABI -/

/-- The quantities that the psABI defines relocations with, under its letters: the symbol's value,
the addend, the place, the base that the relocated section is loaded at, and the symbol's size. -/
structure Operands where
  S : BitVec 64
  A : BitVec 64
  P : BitVec 64
  B : BitVec 64
  Z : BitVec 64
  deriving DecidableEq, Repr

def abiField : RelType → Field
  | .r8 => ⟨1, .zero⟩
  | .pc8 => ⟨1, .sign⟩
  | .r16 => ⟨2, .zero⟩
  | .pc16 => ⟨2, .sign⟩
  | .r32 | .size32 => ⟨4, .zero⟩
  | .r32s | .pc32 | .plt32 | .gotpcrel | .gotpcrelx | .rexGotpcrelx => ⟨4, .sign⟩
  | _ => ⟨8, .zero⟩

def isNonTls : RelType → Bool
  | .none | .r64 | .pc32 | .plt32 | .globDat | .jumpSlot | .relative | .gotpcrel | .r32 | .r32s
  | .r16 | .pc16 | .r8 | .pc8 | .pc64 | .size32 | .size64 | .gotpcrelx | .rexGotpcrelx => true
  | _ => false

def jumpTarget (stub : Bytes) : Option (BitVec 64) :=
  if stub.take 6 = [0xFF, 0x25, 0x00, 0x00, 0x00, 0x00] then
    some (BitVec.ofNat 64 (leNat ((stub.drop 6).take 8)))
  else none

def Relocated (t : RelType) (x : Operands) (q : PluginState) : Prop :=
  let field := (abiField t).read q.mem x.P
  match t with
  | .none => True
  | .r64 | .r32 | .r32s | .r16 | .r8 => field = x.S + x.A
  | .pc64 | .pc32 | .pc16 | .pc8 => field = x.S + x.A - x.P
  | .plt32 => field = x.S + x.A - x.P ∨
      -- out of range, the field leads to a stub
      (¬(abiField .plt32).Fits (x.S + x.A - x.P) ∧
        ∃ i < q.pltcount, jumpTarget (q.stubs i) = some x.S ∧ field = q.stubAddr i + x.A - x.P)
  | .gotpcrel | .gotpcrelx | .rexGotpcrelx =>
      ∃ i < q.gotcount, q.gotSlots i = x.S ∧ field = q.gotAddr i + x.A - x.P
  | .relative => field = x.B + x.A
  | .globDat | .jumpSlot => field = x.S
  | .size32 | .size64 => field = x.Z + x.A
  | _ => False

/-- The relocations that `ApplyRelocations` gets right when it does not refuse them. -/
def KeepsValue (t : RelType) (x : Operands) : Prop :=
  match t with
  | .r32 | .r32s | .r16 | .r8 => (abiField t).Fits (x.S + x.A)
  | .pc16 | .pc8 => (abiField t).Fits (x.S + x.A - x.P)
  | .size32 => (abiField t).Fits (x.Z + x.A)
  | .relative => x.P = x.B
  | _ => True

/-! ## The checks of the code -/

variable {v : BitVec 64}

theorem outsideInt32_eq_false : outsideInt32 v = false ↔ Field.Fits ⟨4, .sign⟩ v := by
  unfold outsideInt32
  change _ ↔ -2 ^ 31 ≤ v.toInt ∧ v.toInt < 2 ^ 31
  rw [Bool.or_eq_false_iff, decide_eq_false_iff_not, decide_eq_false_iff_not]
  omega

theorem changedByInt32_eq_false : changedByInt32 v = false ↔ Field.Fits ⟨4, .sign⟩ v := by
  rw [← Field.extend_mod_iff ⟨4, .sign⟩ (by decide) (by decide), changedByInt32, bne_eq_false_iff_eq]
  change (v.setWidth 32).signExtend 64 = v ↔ (BitVec.ofNat 32 (v.toNat % 2 ^ 32)).signExtend 64 = v
  rw [show BitVec.ofNat 32 (v.toNat % 2 ^ 32) = v.setWidth 32 by
    apply BitVec.eq_of_toNat_eq
    rw [BitVec.toNat_ofNat, BitVec.toNat_setWidth, Nat.mod_mod]]

theorem jumpTarget_pltStub (target : BitVec 64) : jumpTarget (pltStub target) = some target := by
  have htake : (pltStub target).take 6 = [0xFF, 0x25, 0x00, 0x00, 0x00, 0x00] := rfl
  have hdrop : (pltStub target).drop 6 = leBytes 8 target.toNat := rfl
  have hlen : (leBytes 8 target.toNat).length ≤ 8 := Nat.le_refl 8
  unfold jumpTarget
  rw [if_pos htake, hdrop, List.take_of_length_le hlen, leNat_leBytes]
  refine congrArg some (BitVec.eq_of_toNat_eq ?_)
  rw [BitVec.toNat_ofNat, show 256 ^ 8 = 2 ^ 64 from rfl, Nat.mod_mod]
  exact Nat.mod_eq_of_lt target.isLt

/-! ## One relocation -/

variable {h : Host} {o : PluginObject} {p q : PluginState} {S A P : BitVec 64}

theorem read_store {f : Field} (hf : f.Fits v) (hbytes : 0 < f.bytes ∧ f.bytes ≤ 8) :
    f.read (p.store P f.bytes v).mem P = v :=
  (Field.read_storeLe hbytes).mpr hf

theorem read_disp (hrange : ¬outsideInt32 v = true) :
    Field.read ⟨4, .sign⟩ (p.store P 4 v).mem P = v :=
  read_store (f := ⟨4, .sign⟩) (outsideInt32_eq_false.mp (eq_false_of_ne_true hrange)) (by decide)

theorem applyPc32_ok (hrun : applyPc32 p S A P = .ok q) :
    Field.read ⟨4, .sign⟩ q.mem P = S + A - P := by
  unfold applyPc32 at hrun
  dsimp only at hrun
  split_ifs at hrun with hrange
  cases hrun
  exact read_disp hrange

theorem applyPlt32_ok (hp : p.Valid) (hrun : applyPlt32 h p S A P = .ok q) :
    Field.read ⟨4, .sign⟩ q.mem P = S + A - P ∨
      (¬Field.Fits ⟨4, .sign⟩ (S + A - P) ∧ ∃ i < q.pltcount, jumpTarget (q.stubs i) = some S ∧
        Field.read ⟨4, .sign⟩ q.mem P = q.stubAddr i + A - P) := by
  unfold applyPlt32 at hrun
  dsimp only at hrun
  split_ifs at hrun with hrange
  · right
    have hends := allocatePltStub_ends Set.univ h S hp
    refine ⟨fun hf => ?_, ?_⟩
    · rw [outsideInt32_eq_false.mpr hf] at hrange
      exact Bool.false_ne_true hrange
    cases hstub : allocatePltStub h p S with
    | error e => rw [hstub] at hrun; nomatch hrun
    | ok x =>
      obtain ⟨i, p'⟩ := x
      obtain ⟨⟨hi, hcount, hbytes⟩, -⟩ := hends.of_ok hstub
      rw [hstub] at hrun
      change (if outsideInt32 (p'.stubAddr i + A - P) = true then
        Except.error (RelocError.plt32StubOverflow, p') else Except.ok _) = _ at hrun
      split_ifs at hrun with hstubRange
      cases hrun
      refine ⟨i, ?_, (congrArg jumpTarget hbytes).trans (jumpTarget_pltStub S), ?_⟩
      · change i < p'.pltcount
        dsimp only at hi hcount
        omega
      · exact read_disp hstubRange
  · left
    cases hrun
    exact read_disp hrange

theorem applyGotpcrel_ok (hp : p.Valid) (hrun : applyGotpcrel h p S A P = .ok q) :
    ∃ i < q.gotcount, q.gotSlots i = S ∧
      Field.read ⟨4, .sign⟩ q.mem P = q.gotAddr i + A - P := by
  have hends := allocateGotSlot_ends Set.univ h hp
  unfold applyGotpcrel at hrun
  cases hslot : allocateGotSlot h p with
  | error e => rw [hslot] at hrun; nomatch hrun
  | ok x =>
    obtain ⟨i, p'⟩ := x
    obtain ⟨hi, hmoves⟩ := hends.of_ok hslot
    rw [hslot] at hrun
    change storeDisp (p'.setGot i S) P ((p'.setGot i S).gotAddr i + A - P) .gotpcrelOverflow =
      .ok q at hrun
    unfold storeDisp at hrun
    split_ifs at hrun with hrange
    cases hrun
    refine ⟨i, ?_, Function.update_self .., ?_⟩
    · change i < p'.gotcount
      have hcount := hmoves.gotcount
      dsimp only at hi hcount
      omega
    · exact read_store (f := ⟨4, .sign⟩) (changedByInt32_eq_false.mp (eq_false_of_ne_true hrange))
        (by decide)

def symSize (s : Option Elf64Sym) : BitVec 64 := (s.map Elf64Sym.stSize).getD 0

theorem sizeValue_eq (s : Option Elf64Sym) : sizeValue s A = symSize s + A := by
  cases s with
  | none => exact (BitVec.zero_add A).symm
  | some s => rfl

theorem applyType_relocated {s : Option Elf64Sym} {t : RelType} (B : BitVec 64) (hp : p.Valid)
    (ht : isNonTls t = true) (hrun : applyType h o p s S A P t = .ok q) :
    Relocated t ⟨S, A, P, B, symSize s⟩ q ↔ KeepsValue t ⟨S, A, P, B, symSize s⟩ := by
  cases t
  case none => exact Iff.rfl
  case pc32 => exact iff_of_true (applyPc32_ok hrun) trivial
  case plt32 => exact iff_of_true (applyPlt32_ok hp hrun) trivial
  case gotpcrel | gotpcrelx | rexGotpcrelx => exact iff_of_true (applyGotpcrel_ok hp hrun) trivial
  case r64 | pc64 | globDat | jumpSlot =>
    cases hrun
    exact iff_of_true (read_store (fits_eight _ .zero) (by decide)) trivial
  case size64 =>
    cases hrun
    have hread := read_store (p := p) (P := P) (fits_eight (sizeValue s A) .zero) (by decide)
    exact iff_of_true (hread.trans (sizeValue_eq s)) trivial
  case size32 =>
    cases hrun
    unfold Relocated KeepsValue
    dsimp only
    rw [← sizeValue_eq]
    exact Field.read_storeLe (by decide)
  case relative =>
    cases hrun
    have hread : Field.read ⟨8, .zero⟩ (p.store P 8 (P + A)).mem P = P + A :=
      read_store (f := ⟨8, .zero⟩) (fits_eight (P + A) .zero) (by decide)
    unfold Relocated KeepsValue
    dsimp only [abiField]
    rw [hread]
    exact BitVec.add_left_inj A
  case r32 | r32s | r16 | pc16 | r8 | pc8 =>
    cases hrun
    exact Field.read_storeLe (by decide)
  all_goals exact absurd ht Bool.false_ne_true

/-! ## Later relocations -/

section Later

variable {W : Set (BitVec 64)} {n i : Nat} {t : RelType} {x : Operands} {u : BitVec 64}

theorem isNonTls_bytes (ht : isNonTls t = true) (hnone : t ≠ .none) :
    (abiField t).bytes = patchedBytes t := by
  cases t <;> first | rfl | exact absurd rfl hnone | exact absurd ht Bool.false_ne_true

variable (hm : Moves W n p q)
include hm

theorem gotAddr_of_moves (hi : i < p.gotcount) : q.gotAddr i = p.gotAddr i := by
  unfold PluginState.gotAddr
  rw [hm.got (Nat.zero_lt_of_lt hi)]

theorem stubAddr_of_moves (hi : i < p.pltcount) : q.stubAddr i = p.stubAddr i := by
  unfold PluginState.stubAddr
  rw [hm.plt (Nat.zero_lt_of_lt hi)]

theorem read_of_moves (hW : Disjoint (span P (patchedBytes t)) W)
    (hbytes : (abiField t).bytes = patchedBytes t) :
    (abiField t).read q.mem P = (abiField t).read p.mem P := by
  have hle : (abiField t).bytes ≤ 8 := by
    cases t <;> first | decide | exact Nat.le_refl 8
  refine Field.read_congr _ hle fun a ha => hm.mem a ?_
  rw [hbytes] at ha
  exact Set.disjoint_left.mp hW ha

theorem slot_of_moves (huv : v = u)
    (hslot : ∃ i < p.gotcount, p.gotSlots i = x.S ∧ u = p.gotAddr i + x.A - x.P) :
    ∃ i < q.gotcount, q.gotSlots i = x.S ∧ v = q.gotAddr i + x.A - x.P := by
  obtain ⟨i, hi, hslot, hfield⟩ := hslot
  refine ⟨i, ?_, (hm.gotSlots i hi).trans hslot, ?_⟩
  · rw [hm.gotcount]
    exact Nat.lt_add_right n hi
  · rw [huv, hfield, gotAddr_of_moves hm hi]

theorem stub_of_moves (huv : v = u)
    (hstub : ∃ i < p.pltcount, jumpTarget (p.stubs i) = some x.S ∧ u = p.stubAddr i + x.A - x.P) :
    ∃ i < q.pltcount, jumpTarget (q.stubs i) = some x.S ∧ v = q.stubAddr i + x.A - x.P := by
  obtain ⟨i, hi, hstub, hfield⟩ := hstub
  refine ⟨i, Nat.lt_of_lt_of_le hi hm.pltcount, ?_, ?_⟩
  · rw [hm.stubs i hi, hstub]
  · rw [huv, hfield, stubAddr_of_moves hm hi]

theorem relocated_of_moves (ht : isNonTls t = true)
    (hW : Disjoint (span x.P (patchedBytes t)) W) (hkeeps : Relocated t x p ↔ KeepsValue t x) :
    Relocated t x q ↔ KeepsValue t x := by
  by_cases hnone : t = .none
  · subst hnone
    exact Iff.rfl
  have hread := read_of_moves hm hW (isNonTls_bytes ht hnone)
  have hsame : ∀ v, (abiField t).read q.mem x.P = v ↔ (abiField t).read p.mem x.P = v :=
    fun v => by rw [hread]
  unfold Relocated at hkeeps ⊢
  cases t
  case none => exact absurd rfl hnone
  case plt32 =>
    refine iff_of_true ?_ trivial
    rcases hkeeps.mpr trivial with hfield | ⟨hfar, hstub⟩
    · exact Or.inl (hread.trans hfield)
    · exact Or.inr ⟨hfar, stub_of_moves hm hread hstub⟩
  case gotpcrel | gotpcrelx | rexGotpcrelx =>
    exact iff_of_true (slot_of_moves hm hread (hkeeps.mpr trivial)) trivial
  all_goals first
    | exact absurd ht Bool.false_ne_true
    | exact (hsame _).trans hkeeps

end Later

/-! ## The relocations of an object -/

structure Occurrence (o : PluginObject) where
  before : List Elf64Shdr
  sh : Elf64Shdr
  after : List Elf64Shdr
  shdrs_eq : o.shdrs = before ++ sh :: after
  isRela : sh.shType = shtRela
  allocated : isAllocated o sh = true
  earlier : List Elf64Rela
  rela : Elf64Rela
  later : List Elf64Rela
  relas_eq : sh.relas = earlier ++ rela :: later

namespace Occurrence

variable (x : Occurrence o)

def type : RelType := relType x.rela.type

def operands (S : BitVec 64) : Operands where
  S := S
  A := x.rela.rAddend
  P := sectionAddr o x.sh.shInfo x.rela.rOffset
  B := (o.sections.getD x.sh.shInfo default).mem
  Z := symSize (relocSym o x.sh x.rela)

def runTo (h : Host) (syms : List PluginSym) (p : PluginState) : Loads PluginState := do
  let p ← x.before.foldlM (applySection h syms o) p
  x.earlier.foldlM (applyRelocation h syms o x.sh) p

def laterPatches : Set (BitVec 64) :=
  {a | (∃ r ∈ x.later, a ∈ patches o x.sh r) ∨
    ∃ sh ∈ x.after, sh.shType = shtRela ∧ ∃ r ∈ sh.relas, a ∈ patches o sh r}

def Untouched : Prop := Disjoint (patches o x.sh x.rela) x.laterPatches

variable {syms : List PluginSym}

theorem split (hrun : applyRelocations h syms p o = .ok q) :
    ∃ p₁ p₂ p₃, x.runTo h syms p = .ok p₁ ∧ applyRelocation h syms o x.sh p₁ x.rela = .ok p₂ ∧
      x.later.foldlM (applyRelocation h syms o x.sh) p₂ = .ok p₃ ∧
      x.after.foldlM (applySection h syms o) p₃ = .ok q := by
  unfold applyRelocations at hrun
  rw [x.shdrs_eq] at hrun
  obtain ⟨p₀, p₃, hbefore, hsection, hafter⟩ := foldlM_append_cons hrun
  unfold applySection at hsection
  rw [if_neg (not_not.mpr x.isRela)] at hsection
  split_ifs at hsection
  rw [x.relas_eq] at hsection
  obtain ⟨p₁, p₂, hearlier, hrela, hlater⟩ := foldlM_append_cons hsection
  refine ⟨p₁, p₂, p₃, ?_, hrela, hlater, hafter⟩
  unfold runTo
  rw [hbefore]
  exact hearlier

theorem runTo_valid {p₁ : PluginState} (hp : p.Valid)
    (hrun : x.runTo h syms p = .ok p₁) : p₁.Valid := by
  have hsteps : Ends (fun q => q.Valid) (fun _ _ => True) (x.runTo h syms p) := by
    refine Ends.bind (Q := fun q : PluginState => q.Valid) ?_ fun q hq => ?_
    · exact (foldlM_runs (W := Set.univ) hp fun sh _ q hq => applySection_runs hq
        fun _ _ _ => Set.subset_univ _).mono (fun q hq => hq.valid) fun _ _ _ => trivial
    · exact (foldlM_runs (W := Set.univ) hq fun r _ q hq => applyRelocation_runs hq
        (Set.subset_univ _)).mono (fun q hq => hq.valid) fun _ _ _ => trivial
  exact hsteps.of_ok hrun

theorem moves_later {p₂ p₃ : PluginState} (hp : p₂.Valid)
    (hlater : x.later.foldlM (applyRelocation h syms o x.sh) p₂ = .ok p₃)
    (hafter : x.after.foldlM (applySection h syms o) p₃ = .ok q) :
    ∃ n, Moves x.laterPatches n p₂ q := by
  have hsame : Moves x.laterPatches _ p₂ p₃ := Ends.of_ok
    (foldlM_runs hp fun r hr q hq => applyRelocation_runs hq fun a ha => Or.inl ⟨r, hr, ha⟩) hlater
  have hrest : Moves x.laterPatches _ p₃ q := Ends.of_ok
    (foldlM_runs hsame.valid fun sh hsh q hq => applySection_runs hq
      fun hrela r hr a ha => Or.inr ⟨sh, hsh, hrela, r, hr, ha⟩) hafter
  exact ⟨_, hsame.trans hrest⟩

end Occurrence

theorem applyRelocation_ok {syms : List PluginSym} {x : Occurrence o} {p₁ p₂ : PluginState}
    (hrun : applyRelocation h syms o x.sh p₁ x.rela = .ok p₂) :
    ∃ S, symbolValue h syms o x.sh x.rela = .ok S ∧
      applyType h o p₁ (relocSym o x.sh x.rela) S x.rela.rAddend
        (sectionAddr o x.sh.shInfo x.rela.rOffset) x.type = .ok p₂ := by
  unfold applyRelocation at hrun
  rw [x.allocated, if_neg (show ¬(!true) = true by decide)] at hrun
  dsimp only at hrun
  split_ifs at hrun
  cases hs : symbolValue h syms o x.sh x.rela with
  | error e => rw [hs] at hrun; nomatch hrun
  | ok S => exact ⟨S, rfl, by rwa [hs] at hrun⟩

/-- In a run that ends well, a relocation leaves its psABI value in the field exactly when that is
not one that the code cuts. The field keeps what it has if no later relocation patches it. -/
theorem relocated_iff_keepsValue (h : Host) (syms : List PluginSym) (o : PluginObject)
    (p q : PluginState) (hp : p.Valid) (hrun : applyRelocations h syms p o = .ok q)
    (x : Occurrence o) (ht : isNonTls x.type = true) :
    ∃ S p₁ p₂, symbolValue h syms o x.sh x.rela = .ok S ∧ x.runTo h syms p = .ok p₁ ∧
      applyRelocation h syms o x.sh p₁ x.rela = .ok p₂ ∧
      (Relocated x.type (x.operands S) p₂ ↔ KeepsValue x.type (x.operands S)) ∧
      (x.Untouched → (Relocated x.type (x.operands S) q ↔ KeepsValue x.type (x.operands S))) := by
  obtain ⟨p₁, p₂, p₃, hto, hrela, hlater, hafter⟩ := x.split hrun
  have hp₁ := x.runTo_valid hp hto
  obtain ⟨S, hS, htype⟩ := applyRelocation_ok hrela
  have hkeeps := applyType_relocated (x.operands S).B hp₁ ht htype
  have hstep : Moves Set.univ _ p₁ p₂ :=
    Ends.of_ok (applyRelocation_runs hp₁ (Set.subset_univ _)) hrela
  refine ⟨S, p₁, p₂, hS, hto, hrela, hkeeps, fun hsafe => ?_⟩
  obtain ⟨n, hmoves⟩ := x.moves_later hstep.valid hlater hafter
  refine relocated_of_moves hmoves ht ?_ hkeeps
  have hpatch := hsafe
  unfold Occurrence.Untouched patches at hpatch
  rwa [x.allocated, if_pos rfl] at hpatch

/-! ## The plugin of one section -/

def farReloc (type : BitVec 64) : Elf64Rela := { relocAt type with rAddend := 0x100000000 }

def onlyReloc (r : Elf64Rela) : Occurrence (smallObject [r]) where
  before := [default, ⟨1, shfAlloc, 0, 0, [], [], fun _ => []⟩]
  sh := ⟨shtRela, 0, 3, 1, [r], [], fun _ => []⟩
  after := [⟨shtSymtab, 0, 0, 0, [], [⟨0, 0, 0, 0, 0⟩, ⟨1, 0x10, 1, 0, 0⟩], fun _ => []⟩]
  shdrs_eq := rfl
  isRela := rfl
  allocated := by simp [isAllocated, smallObject, PluginObject.shdr, shfAlloc]
  earlier := []
  rela := r
  later := []
  relas_eq := rfl

theorem relocated_gotpcrel :
    ∃ q, applyRelocations smallHost [] (startPlugin fun _ => 0) (smallObject [relocAt 9]) = .ok q ∧
      Relocated .gotpcrel ((onlyReloc (relocAt 9)).operands 0x10000) q := by
  obtain ⟨S, _, _, hS, -, -, -, hlast⟩ := relocated_iff_keepsValue smallHost []
    (smallObject [relocAt 9]) (startPlugin fun _ => 0) _ (startPlugin_valid _) rfl
    (onlyReloc (relocAt 9)) (by decide)
  cases hS
  refine ⟨_, rfl, (hlast ?_).mpr trivial⟩
  rw [Occurrence.Untouched, Set.disjoint_left]
  rintro a - (⟨r, hr, -⟩ | ⟨sh, hsh, hrela, -⟩)
  · cases hr
  · rw [List.mem_singleton.mp hsh] at hrela
    nomatch hrela

/-- `R_X86_64_32` of a value above 4 GiB: the load ends well, and the field has the lower half. -/
theorem not_relocated_r32 :
    ∃ q, applyRelocations smallHost [] (startPlugin fun _ => 0) (smallObject [farReloc 10]) = .ok q ∧
      symbolValue smallHost [] (smallObject [farReloc 10]) (onlyReloc (farReloc 10)).sh
        (onlyReloc (farReloc 10)).rela = .ok 0x10000 ∧
      ¬Relocated (onlyReloc (farReloc 10)).type ((onlyReloc (farReloc 10)).operands 0x10000) q := by
  refine ⟨_, rfl, rfl, ?_⟩
  change ¬Field.read ⟨4, .zero⟩ (storeLe (fun _ => 0) 0x10000 4 0x100010000) 0x10000 =
    0x10000 + 0x100000000
  decide

end CosmoRuby.Plugin
