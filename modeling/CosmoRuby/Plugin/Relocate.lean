import CosmoRuby.Lib.Outcome
import CosmoRuby.Plugin.Object

/-!
# Relocation

`ApplyRelocations` of `cosmo_plugin.c` with the tables it fills (the global offset table, the
procedure linkage table and the TLS descriptors), and the part of `cosmo_load_plugin` that sizes
the global offset table and relocates the objects.

The sections of the objects are ranges of one memory. The three tables are mapped on their own,
and a pointer into one of them is its base and an index.
-/

namespace CosmoRuby.Plugin

open Lib

/-! ## The types of relocations -/

/-- `R_X86_64_*`, those that `ApplyRelocations` has a case for and the rest. -/
inductive RelType where
  | none | r64 | pc32 | plt32 | globDat | jumpSlot | relative | gotpcrel | r32 | r32s | r16 | pc16
  | r8 | pc8 | dtpmod64 | dtpoff64 | tpoff64 | tlsgd | tlsld | dtpoff32 | gottpoff | tpoff32 | pc64
  | size32 | size64 | gotpc32Tlsdesc | tlsdescCall | tlsdesc | gotpcrelx | rexGotpcrelx
  | unsupported (type : Nat)
  deriving DecidableEq, Repr

def relType : Nat → RelType
  | 0 => .none
  | 1 => .r64
  | 2 => .pc32
  | 4 => .plt32
  | 6 => .globDat
  | 7 => .jumpSlot
  | 8 => .relative
  | 9 => .gotpcrel
  | 10 => .r32
  | 11 => .r32s
  | 12 => .r16
  | 13 => .pc16
  | 14 => .r8
  | 15 => .pc8
  | 16 => .dtpmod64
  | 17 => .dtpoff64
  | 18 => .tpoff64
  | 19 => .tlsgd
  | 20 => .tlsld
  | 21 => .dtpoff32
  | 22 => .gottpoff
  | 23 => .tpoff32
  | 24 => .pc64
  | 32 => .size32
  | 33 => .size64
  | 34 => .gotpc32Tlsdesc
  | 35 => .tlsdescCall
  | 36 => .tlsdesc
  | 41 => .gotpcrelx
  | 42 => .rexGotpcrelx
  | n => .unsupported n

/-! ## The tables -/

inductive RelocError where
  | badSectionLinks
  | targetMissing
  | symbolSectionMissing
  | undefinedSymbol (name : Bytes)
  | pc32Overflow
  | plt32StubOverflow
  | gotpcrelOverflow
  | tlsOverflow
  | gottpoffOverflow
  | gotpc32TlsdescOverflow
  | unsupportedType (type : Nat)
  /-- "Cannot resize GOT after slots allocated". -/
  | gotRefused
  /-- "PLT exhausted". -/
  | pltExhausted
  /-- "tlsdescs array full". -/
  | tlsdescsFull
  /-- `mmap` or `malloc` failed. -/
  | noMemory
  deriving DecidableEq, Repr

structure PluginState where
  mem : Memory
  got : BitVec 64
  gotSlots : Nat → BitVec 64
  gotcount : Nat
  gotcap : Nat
  /-- The calls of `AllocateGotSlot` so far, which the code does not count. -/
  gotcalls : Nat
  plt : BitVec 64
  /-- The bytes of each stub up to its padding. -/
  stubs : Nat → Bytes
  pltcount : Nat
  pltcap : Nat
  tlsdescs : BitVec 64
  tlsdescOffs : Nat → BitVec 64
  tlsdesccount : Nat
  tlsdesccap : Nat

def startPlugin (m : Memory) : PluginState :=
  ⟨m, 0, fun _ => 0, 0, 0, 0, 0, fun _ => [], 0, 0, 0, fun _ => 0, 0, 0⟩

abbrev Loads (α : Type) := Except (RelocError × PluginState) α

section

variable (h : Host) (p : PluginState)

def ensureGotCap (need : Nat) : Loads PluginState :=
  if need ≤ p.gotcap then .ok p
  else if 0 < p.gotcount then .error (.gotRefused, p)
  else
    let nc := max need (if p.gotcap ≠ 0 then p.gotcap * 2 else 16)
    match h.mapGot nc with
    | none => .error (.noMemory, p)
    | some n => .ok { p with got := n, gotcap := nc }

def allocateGotSlot : Loads (Nat × PluginState) := do
  let p ← ensureGotCap h { p with gotcalls := p.gotcalls + 1 } (p.gotcount + 1)
  .ok (p.gotcount, { p with gotcount := p.gotcount + 1 })

def PluginState.gotAddr (slot : Nat) : BitVec 64 :=
  p.got + BitVec.ofNat 64 (8 * slot)

def PluginState.setGot (slot : Nat) (v : BitVec 64) : PluginState :=
  { p with gotSlots := Function.update p.gotSlots slot v }

def pltInitialStubs : Nat := 65536

def ensurePltCap (need : Nat) : Loads PluginState :=
  if need ≤ p.pltcap then .ok p
  else if p.plt ≠ 0 then .error (.pltExhausted, p)
  else
    let newCap := max need pltInitialStubs
    match h.mapPlt newCap with
    | none => .error (.noMemory, p)
    | some plt => .ok { p with plt := plt, pltcap := newCap }

def PluginState.stubAddr (i : Nat) : BitVec 64 :=
  p.plt + BitVec.ofNat 64 (16 * i)

def pltStub (target : BitVec 64) : Bytes :=
  [0xFF, 0x25, 0x00, 0x00, 0x00, 0x00] ++ leBytes 8 target.toNat

def allocatePltStub (target : BitVec 64) :
    Loads (Nat × PluginState) := do
  let p ← ensurePltCap h p (p.pltcount + 1)
  .ok (p.pltcount,
    { p with pltcount := p.pltcount + 1, stubs := Function.update p.stubs p.pltcount (pltStub target) })

def ensureTlsDescCap : Loads PluginState :=
  if p.tlsdesccount ≠ p.tlsdesccap then .ok p
  else if p.tlsdesccap ≠ 0 then .error (.tlsdescsFull, p)
  else
    match h.mallocTlsDescs 256 with
    | none => .error (.noMemory, p)
    | some n => .ok { p with tlsdescs := n, tlsdesccap := 256 }

def allocateTlsDesc (off : BitVec 64) :
    Loads (Nat × PluginState) := do
  let p ← ensureTlsDescCap h p
  .ok (p.tlsdesccount,
    { p with
      tlsdesccount := p.tlsdesccount + 1
      tlsdescOffs := Function.update p.tlsdescOffs p.tlsdesccount off })

def PluginState.tlsdescAddr (desc : Nat) : BitVec 64 :=
  p.tlsdescs + BitVec.ofNat 64 (16 * desc)

/-! ## One relocation -/

def PluginState.store (a : BitVec 64) (n : Nat) (v : BitVec 64) : PluginState :=
  { p with mem := storeLe p.mem a n v.toNat }

def outsideInt32 (v : BitVec 64) : Bool := v.toInt < -2 ^ 31 || 2 ^ 31 - 1 < v.toInt

def changedByInt32 (disp : BitVec 64) : Bool := (disp.setWidth 32).signExtend 64 != disp

def applyPc32 (S A P : BitVec 64) : Loads PluginState :=
  let v := S + A - P
  if outsideInt32 v then .error (.pc32Overflow, p) else .ok (p.store P 4 v)

def applyPlt32 (S A P : BitVec 64) : Loads PluginState :=
  let v := S + A - P
  if outsideInt32 v then do
    let (stub, p) ← allocatePltStub h p S
    let stubDisp := p.stubAddr stub + A - P
    if outsideInt32 stubDisp then .error (.plt32StubOverflow, p) else .ok (p.store P 4 stubDisp)
  else .ok (p.store P 4 v)

def storeDisp (P disp : BitVec 64) (e : RelocError) : Loads PluginState :=
  if changedByInt32 disp then .error (e, p) else .ok (p.store P 4 disp)

def applyGotpcrel (S A P : BitVec 64) : Loads PluginState := do
  let (slot, p) ← allocateGotSlot h p
  let p := p.setGot slot S
  storeDisp p P (p.gotAddr slot + A - P) .gotpcrelOverflow

def tlsOffset (o : PluginObject) (s : Option Elf64Sym) (A : BitVec 64) : BitVec 64 :=
  match s with
  | some s => if (o.shdr s.stShndx).shFlags &&& shfTls ≠ 0 then s.stValue + A else A
  | none => A

def applyTlsgd (offv A P : BitVec 64) : Loads PluginState := do
  let (slot, p) ← allocateGotSlot h p
  let (slot2, p) ← allocateGotSlot h p
  let p := (p.setGot slot h.plugin).setGot slot2 offv
  storeDisp p P (p.gotAddr slot + A - P) .tlsOverflow

def applyGottpoff (offv P : BitVec 64) : Loads PluginState := do
  let (slot, p) ← allocateGotSlot h p
  let p := p.setGot slot offv
  storeDisp p P (p.gotAddr slot - P) .gottpoffOverflow

def applyGotpc32Tlsdesc (offv P : BitVec 64) : Loads PluginState := do
  let (desc, p) ← allocateTlsDesc h p offv
  let (slot, p) ← allocateGotSlot h p
  let p := p.setGot slot (p.tlsdescAddr desc)
  storeDisp p P (p.gotAddr slot - P) .gotpc32TlsdescOverflow

def applyTlsdesc (offv P : BitVec 64) : Loads PluginState := do
  let (desc, p) ← allocateTlsDesc h p offv
  .ok ((p.store P 8 h.tlsdescResolve).store (P + 8) 8 (p.tlsdescAddr desc))

end

def sizeValue (s : Option Elf64Sym) (A : BitVec 64) : BitVec 64 :=
  match s with
  | some s => s.stSize + A
  | none => A

def applyType (h : Host) (o : PluginObject) (p : PluginState) (s : Option Elf64Sym)
    (S A P : BitVec 64) : RelType → Loads PluginState
  | .none => .ok p
  | .r64 => .ok (p.store P 8 (S + A))
  | .r32 => .ok (p.store P 4 (S + A))
  | .r32s => .ok (p.store P 4 (S + A))
  | .pc32 => applyPc32 p S A P
  | .plt32 => applyPlt32 h p S A P
  | .pc64 => .ok (p.store P 8 (S + A - P))
  | .gotpcrel | .gotpcrelx | .rexGotpcrelx => applyGotpcrel h p S A P
  | .relative => .ok (p.store P 8 (P + A))
  | .globDat | .jumpSlot => .ok (p.store P 8 S)
  | .r16 => .ok (p.store P 2 (S + A))
  | .pc16 => .ok (p.store P 2 (S + A - P))
  | .r8 => .ok (p.store P 1 (S + A))
  | .pc8 => .ok (p.store P 1 (S + A - P))
  | .size32 => .ok (p.store P 4 (sizeValue s A))
  | .size64 => .ok (p.store P 8 (sizeValue s A))
  | .tpoff32 | .dtpoff32 => .ok (p.store P 4 (tlsOffset o s A))
  | .tpoff64 | .dtpoff64 => .ok (p.store P 8 (tlsOffset o s A))
  | .dtpmod64 => .ok (p.store P 8 1)
  | .tlsgd | .tlsld => applyTlsgd h p (tlsOffset o s A) A P
  | .gottpoff => applyGottpoff h p (tlsOffset o s A) P
  | .gotpc32Tlsdesc => applyGotpc32Tlsdesc h p (tlsOffset o s A) P
  | .tlsdesc => applyTlsdesc h p (tlsOffset o s A) P
  | .tlsdescCall => .ok p
  | .unsupported type => .error (.unsupportedType type, p)

def relocSym (o : PluginObject) (sh : Elf64Shdr) (r : Elf64Rela) : Option Elf64Sym :=
  (o.shdr sh.shLink).syms[r.symidx]?

def relocName (o : PluginObject) (sh : Elf64Shdr) (s : Elf64Sym) : Bytes :=
  (o.shdr (o.shdr sh.shLink).shLink).strs s.stName

def symbolValue (h : Host) (syms : List PluginSym) (o : PluginObject) (sh : Elf64Shdr)
    (r : Elf64Rela) : Except RelocError (BitVec 64) :=
  match relocSym o sh r with
  | none => .ok 0
  | some s =>
    if s.stShndx ≠ shnUndef then
      let base := sectionAddr o s.stShndx 0
      if base = 0 then .error .symbolSectionMissing else .ok (base + s.stValue)
    else
      let addr := resolveSymbol h syms (relocName o sh s)
      if addr = 0 ∧ s.bind ≠ stbWeak then .error (.undefinedSymbol (relocName o sh s)) else .ok addr

def isAllocated (o : PluginObject) (sh : Elf64Shdr) : Bool :=
  sh.shInfo < o.shdrs.length && (o.shdr sh.shInfo).shFlags &&& shfAlloc != 0

def applyRelocation (h : Host) (syms : List PluginSym) (o : PluginObject) (sh : Elf64Shdr)
    (p : PluginState) (r : Elf64Rela) : Loads PluginState :=
  if !isAllocated o sh then .ok p
  else
    let P := sectionAddr o sh.shInfo r.rOffset
    if P = 0 then .error (.targetMissing, p)
    else
      match symbolValue h syms o sh r with
      | .error e => .error (e, p)
      | .ok S => applyType h o p (relocSym o sh r) S r.rAddend P (relType r.type)

/-! ## All relocations -/

def applySection (h : Host) (syms : List PluginSym) (o : PluginObject) (p : PluginState)
    (sh : Elf64Shdr) : Loads PluginState :=
  if sh.shType ≠ shtRela then .ok p
  else if o.shdrs.length ≤ sh.shLink ∨ o.shdrs.length ≤ sh.shInfo then .error (.badSectionLinks, p)
  else sh.relas.foldlM (applyRelocation h syms o sh) p

def applyRelocations (h : Host) (syms : List PluginSym) (p : PluginState) (o : PluginObject) :
    Loads PluginState :=
  o.shdrs.foldlM (applySection h syms o) p

def isGotpcrel : RelType → Bool
  | .gotpcrel | .gotpcrelx | .rexGotpcrelx => true
  | _ => false

def countGotRelocations (o : PluginObject) : Nat :=
  (o.shdrs.map fun sh =>
    if sh.shType ≠ shtRela then 0
    else if !isAllocated o sh then 0
    else sh.relas.countP fun r => isGotpcrel (relType r.type)).sum

def preSizeGot (h : Host) (p : PluginState) (objs : List PluginObject) : Loads PluginState :=
  let total := (objs.map countGotRelocations).sum
  if 0 < total then ensureGotCap h p total else .ok p

def relocateObjects (h : Host) (p : PluginState) (objs : List PluginObject) : Loads PluginState :=
  objs.foldlM (applyRelocations h (pluginSymbols objs)) p

end CosmoRuby.Plugin
