import CosmoRuby.Ape.Loader
import CosmoRuby.Lib.Region

/-!
# apelink: moving the inputs

`ValidateElfImage`, the second and the third pass of `tool/build/apelink.c`, and what `FixupPeImage`
does to an input that becomes a PE. The prologue of the output is taken as it is; it has the program
headers of the inputs, whose offsets the third pass corrects.
-/

namespace CosmoRuby.Ape

open Lib

/-! ## Options -/

inductive Strategy where
  | elf
  | ape
  | macho
  | pe
  deriving DecidableEq, Repr

structure Support where
  metal : Bool
  windows : Bool
  xnu : Bool
  openbsd : Bool
  deriving DecidableEq, Repr

structure Options where
  strategy : Strategy
  support : Support
  asserts : Bool
  deriving DecidableEq, Repr

def emNexgen32e : Nat := 62

def emAarch64 : Nat := 183

def machinePagesz (machine : Nat) : BitVec 64 := if machine = emAarch64 then 16384 else 4096

/-! ## ValidateElfImage -/

def ascending : List ElfPhdr → Bool
  | p :: q :: rest => p.pVaddr < q.pVaddr && ascending (q :: rest)
  | _ => true

/-- The checks of one program header, against those after it; `none` if it passes. -/
def validatePhdr (v : Support) (e : ElfEhdr) (esize : Nat) (isloader : Bool) (p : ElfPhdr)
    (later : List ElfPhdr) : Option String :=
  let pagesz := machinePagesz e.eMachine
  if !isloader && p.pType == ptInterp then some "ELF has PT_INTERP which isn't supported"
  else if !isloader && p.pType == ptDynamic then some "ELF has PT_DYNAMIC which isn't supported"
  else if p.pType ≠ ptLoad then none
  else if p.pMemsz = 0 then some "ELF PT_LOAD p_memsz was zero"
  else if esize < p.pOffset.toNat then some "ELF PT_LOAD p_offset points past EOF"
  else if p.pMemsz < p.pFilesz then some "ELF PT_LOAD p_filesz exceeds p_memsz"
  else if 1 < p.pAlign ∧ p.pAlign &&& (p.pAlign - 1) ≠ 0 then
    some "ELF PT_LOAD p_align must be two power"
  else if p.pVaddr + p.pMemsz < p.pVaddr ∨ p.pVaddr + p.pMemsz + (pagesz - 1) < p.pVaddr then
    some "ELF PT_LOAD p_vaddr + p_memsz overflow"
  else if p.pOffset + p.pFilesz < p.pOffset ∨ p.pOffset + p.pFilesz + (pagesz - 1) < p.pOffset then
    some "ELF PT_LOAD p_offset + p_filesz overflow"
  else if 1 < p.pAlign ∧ p.pVaddr &&& (p.pAlign - 1) ≠ p.pOffset &&& (p.pAlign - 1) then
    some "ELF p_vaddr incongruent w/ p_offset modulo p_align"
  else if p.pVaddr &&& (pagesz - 1) ≠ p.pOffset &&& (pagesz - 1) then
    some "ELF p_vaddr incongruent w/ p_offset modulo AT_PAGESZ"
  else if esize < (p.pOffset + p.pFilesz).toNat then
    some "ELF PT_LOAD p_offset and p_filesz overlaps image EOF"
  else if later.any fun q => q.pType == ptLoad &&
      overlap (pageStart pagesz p) (pageStop pagesz p) (pageStart pagesz q) (pageStop pagesz q) then
    some "ELF PT_LOAD phdrs %d and %d overlap each others virtual memory"
  else if e.eMachine = emAarch64 ∧ 0x0001000000000000 < p.pVaddr + p.pMemsz then
    some ("this is an ARM ELF program but it loads to virtual" ++
      " memory addresses outside the legal range [0,2^48)")
  else if e.eMachine = emNexgen32e ∧
      ¬(-140737488355328 ≤ p.pVaddr.toInt ∧ (p.pVaddr + p.pMemsz).toInt ≤ 140737488355328) then
    some ("this is an x86-64 ELF program, but it loads to virtual" ++
      " memory addresses outside the legal range [-2^47,2^47)")
  else if e.eType = etExec ∧ v.metal = true ∧ p.pVaddr.toInt < 0x200000 then
    some ("ELF program header loads to address less than 2mb even" ++
      " though you have userspace OSes in your support vector")
  else if isloader = false ∧ e.eType = etExec ∧ p.pVaddr >>> 32 = 0 ∧ e.eMachine = emAarch64 ∧
      v.xnu = true then
    some ("ELF program header loads to address less than 4gb even" ++
      " though you have XNU on AARCH64 in your support vector" ++
      " which forbids 32-bit pointers without any compromises")
  else if p.pFlags &&& (pfW ||| pfX) = pfW ||| pfX ∧ v.openbsd = true then
    some ("found RWX ELF program segment, but you have OpenBSD in" ++
      " your support vector, which totally forbids RWX memory")
  else if p.pFlags &&& (pfW ||| pfX) = pfW ||| pfX ∧ e.eMachine = emAarch64 ∧ v.xnu = true then
    some ("found RWX ELF program segment on an AARCH64 executable" ++
      " with XNU support, which completely forbids RWX memory")
  else none

def validatePhdrs (v : Support) (e : ElfEhdr) (esize : Nat) (isloader : Bool) :
    List ElfPhdr → Except String Unit
  | [] => .ok ()
  | p :: rest =>
    match validatePhdr v e esize isloader p rest with
    | some why => .error why
    | none => validatePhdrs v e esize isloader rest

def holdsEntry (e : ElfEhdr) (p : ElfPhdr) : Bool :=
  p.pType == ptLoad && p.pFlags &&& pfX != 0 && p.pVaddr ≤ e.eEntry &&
    e.eEntry < p.pVaddr + p.pMemsz

/-- A field of `w` bytes at `p` is given a new value. -/
def store (map : Bytes) (w p v : Nat) : Bytes := map.take p ++ leBytes w v ++ map.drop (p + w)

def phdrAt (p : Nat) (map : Bytes) (i : Nat) : ElfPhdr := readPhdr (map.drop (p + sizeofPhdr * i))

def phdrTable (p : Nat) (map : Bytes) : List ElfPhdr :=
  (List.range (readEhdr map).ePhnum).map (phdrAt p map)

/-- The headers behind `p[i]` are moved over it, and `e_phnum` goes down. -/
def removePhdr (p i : Nat) (map : Bytes) : Bytes :=
  let n := (readEhdr map).ePhnum
  let map :=
    if i + 1 < n then
      memmove map (p + sizeofPhdr * i) (p + sizeofPhdr * (i + 1)) ((n - (i + 1)) * sizeofPhdr)
    else map
  store map 2 56 ((readEhdr map).ePhnum + 65535)

def mergePhdrs (p i : Nat) (map : Bytes) : Bytes :=
  let h := mergeTwo (phdrAt p map i) (phdrAt p map (i + 1))
  let map := store map 8 (p + sizeofPhdr * i + 40) h.pMemsz.toNat
  let map := store map 8 (p + sizeofPhdr * i + 32) h.pFilesz.toNat
  removePhdr p (i + 1) map

/-- A loop over the table: a header is passed over unless it is rewritten. `e_phnum` is read anew each
time, and there are no more passes than it counts unless the table is laid over it. -/
def phdrLoop (next : Nat) (rewrite : Nat → Bytes → Option Bytes) :
    Nat → Nat → Bytes → Except String Bytes
  | 0, _, _ => .error "no end"
  | fuel + 1, i, map =>
    if (readEhdr map).ePhnum ≤ i + next then .ok map
    else
      match rewrite i map with
      | some map => phdrLoop next rewrite fuel i map
      | none => phdrLoop next rewrite fuel (i + 1) map

def removeEmptyLoads (p : Nat) : Bytes → Except String Bytes :=
  phdrLoop 0 (fun i map =>
    if (phdrAt p map i).pType = ptLoad ∧ (phdrAt p map i).pMemsz = 0 then some (removePhdr p i map)
    else none) 65536 0

def mergeAdjacentLoads (pagesz : BitVec 64) (p : Nat) : Bytes → Except String Bytes :=
  phdrLoop 1 (fun i map =>
    if mergeable pagesz (phdrAt p map i) (phdrAt p map (i + 1)) then some (mergePhdrs p i map)
    else none) 65536 0

/-- `ValidateElfImage`: the image as it leaves it, with the table rewritten in place. -/
def validateElfImage (v : Support) (file : Bytes) (isloader : Bool) : Except String Bytes := do
  let e := readEhdr file
  let esize := file.length
  if e.eType ≠ etExec ∧ e.eType ≠ etDyn then .error "elf binary isn't an executable"
  if e.ePhnum = 0 then .error "elf executable needs at least one program header"
  if 65534 < e.ePhnum then .error "elf with more than 65534 phdrs not supported"
  if e.ePhentsize ≠ sizeofPhdr then .error "elf e_phentsize isn't sizeof(Elf64_Phdr)"
  if esize < e.ePhoff.toNat then .error "elf program header offset points past image eof"
  if e.ePhoff &&& 7 ≠ 0 then .error "elf e_phoff must be aligned on an 8-byte boundary"
  if esize < (e.ePhoff + e.ePhoff + BitVec.ofNat 64 (e.ePhnum * sizeofPhdr)).toNat then
    .error "elf program header array overlaps image eof"
  let p := e.ePhoff.toNat
  let map ← removeEmptyLoads p file
  if !ascending (loads (phdrTable p map)) then
    .error "ELF PT_LOAD segments must be ordered by p_vaddr"
  if loads (phdrTable p map) = [] then .error "ELF must have at least one PT_LOAD segment"
  let map ← mergeAdjacentLoads (machinePagesz e.eMachine) p map
  validatePhdrs v (readEhdr map) esize isloader (phdrTable p map)
  if !(phdrTable p map).any (holdsEntry (readEhdr map)) then
    .error "ELF entrypoint not found in PT_LOAD with PF_X"
  return map

/-! ## FixupPeImage -/

/-- The bytes of an input, and where they were written to so far: places with a length. -/
structure PeImage where
  map : Bytes
  written : List (Nat × Nat)
  deriving DecidableEq, Repr

def PeImage.read (m : PeImage) (w p : Nat) : Nat := field m.map p w

/-- A field of `w` bytes at `p` is given a new value. There is nothing to write to outside of the
input. -/
def PeImage.write (m : PeImage) (w p v : Nat) : Except String PeImage :=
  if m.map.length < p + w then .error "SIGSEGV"
  else .ok ⟨store m.map w p v, (p, w) :: m.written⟩

def PeImage.skew (delta : Nat) (w p : Nat) (why : String) (m : PeImage) : Except String PeImage :=
  if 256 ^ w ≤ m.read w p + delta then .error why else m.write w p (m.read w p + delta)

def PeImage.unskew (delta : Nat) (w p : Nat) (why : String) (m : PeImage) : Except String PeImage :=
  if m.read w p < delta then .error why else m.write w p (m.read w p - delta)

def peOptional (pe : Nat) : Nat := pe + 24

def PeImage.sections (m : PeImage) (pe : Nat) : Nat := peOptional pe + m.read 2 (pe + 20)

def PeImage.numberOfSections (m : PeImage) (pe : Nat) : Nat := m.read 2 (pe + 6)

def PeImage.rva (m : PeImage) (base pe addr : Nat) : Option Nat :=
  (List.range (m.numberOfSections pe)).findSome? fun i =>
    let s := m.sections pe + 40 * i
    if m.read 4 (s + 12) ≤ addr ∧ addr < (m.read 4 (s + 12) + m.read 4 (s + 8)) % 2 ^ 32 then
      some (base + m.read 4 (s + 20) + (addr - m.read 4 (s + 12)))
    else none

def skewTable (delta : Nat) : Nat → Nat → PeImage → Except String PeImage
  | 0, _, m => .ok m
  | fuel + 1, p, m =>
    if m.read 8 p = 0 then .ok m
    else do
      let m ← m.skew delta 8 p "skewing PE Import Lookup Table RVA overflowed"
      skewTable delta fuel (p + 8) m

def skewImport (delta base pe idt : Nat) (m : PeImage) : Except String PeImage :=
  match m.rva base pe (m.read 4 idt) with
  | none => .error "PE ImportLookupTable RVA didn't resolve to a section"
  | some ilt => do
    let m ← skewTable delta m.map.length ilt m
    match m.rva base pe (m.read 4 (idt + 16)) with
    | none => .error "PE ImportAddressTable RVA didn't resolve to a section"
    | some iat =>
      let m ← skewTable delta m.map.length iat m
      let m ← m.skew delta 4 (idt + 12) "skewing PE IDT DllNameRva RVA overflowed"
      let m ← m.skew delta 4 idt "skewing PE IDT ImportLookupTable RVA overflowed"
      m.skew delta 4 (idt + 16) "skewing PE IDT ImportAddressTable RVA overflowed"

def skewImports (delta base pe : Nat) : Nat → Nat → PeImage → Except String PeImage
  | 0, _, m => .ok m
  | fuel + 1, idt, m =>
    if m.read 4 idt = 0 then .ok m
    else do
      let m ← skewImport delta base pe idt m
      skewImports delta base pe fuel (idt + 20) m

def skewImportDirectory (delta base pe : Nat) (m : PeImage) : Except String PeImage :=
  let dd := peOptional pe + 112 + 8
  if 2 ≤ m.read 4 (peOptional pe + 108) ∧ m.read 4 (dd + 4) ≠ 0 then
    match m.rva base pe (m.read 4 dd) with
    | none =>
      .error ("couldn't resolve VirtualAddress/Size RVA of PE Import " ++
        "Directory Table to within a defined PE section")
    | some idt => do
      let m ← skewImports delta base pe m.map.length idt m
      m.skew delta 4 dd "skewing PE IMAGE_DIRECTORY_ENTRY_IMPORT RVA overflowed"
  else .ok m

def skewSections (rva off : Nat) : Nat → Nat → PeImage → Except String PeImage
  | 0, _, m => .ok m
  | n + 1, s, m => do
    let m ← m.skew rva 4 (s + 12) "skewing PE section VirtualAddress overflowed"
    let m ← m.skew off 4 (s + 20) "skewing PE section PointerToRawData overflowed"
    skewSections rva off n (s + 40) m

def fixupPeImage (asserts : Bool) (base pe rva off : Nat) (m : PeImage) : Except String PeImage := do
  if asserts ∧ rva % 65536 ≠ 0 then .error "assert(!(rva_skew & 65535))"
  let m ← m.unskew rva 8 (peOptional pe + 24) "skewing PE ImageBase VA overflowed"
  let m ← m.skew rva 4 (peOptional pe + 16) "skewing PE AddressOfEntryPoint RVA overflowed"
  let m ← m.skew rva 4 (peOptional pe + 56) "skewing PE SizeOfImage VSZ overflowed"
  let m ← m.skew off 4 (peOptional pe + 60) "skewing PE SizeOfHeaders FSZ overflowed"
  let m ← skewImportDirectory rva base pe m
  skewSections rva off (m.numberOfSections pe) (m.sections pe) m

/-! ## The passes -/

/-- An input: its bytes in the file, and in memory as `ValidateElfImage` left them; and the place of
the symbol `ape_pe` if the input has one. -/
structure Input where
  file : Bytes
  map : Bytes
  pe : Option Nat
  deriving DecidableEq, Repr

def Input.machine (i : Input) : Nat := (readEhdr i.map).eMachine

def Input.phdrs (i : Input) : List ElfPhdr := phdrTable (readEhdr i.map).ePhoff.toNat i.map

def Input.stored (i : Input) : List ElfPhdr := i.phdrs.filter fun h => h.pFilesz != 0

def Input.minload (i : Input) : BitVec 64 :=
  i.stored.foldl (fun m h => wordMin m h.pOffset) (-1)

def Input.maxload (i : Input) : BitVec 64 :=
  i.stored.foldl (fun m h => wordMax m (h.pOffset + h.pFilesz)) 0

/-- How many offsets the third pass has to correct: those in the ELF headers, and in the load
commands of the Mach-O. -/
def Input.offsetRelocs (o : Options) (i : Input) : Nat :=
  i.stored.length +
    if o.strategy = .ape ∧ o.support.xnu ∧ i.machine = emNexgen32e then (loads i.phdrs).length else 0

def Input.generatesPe (o : Options) (i : Input) : Bool :=
  (o.strategy = .ape || o.strategy = .pe) && i.machine == emNexgen32e &&
    (o.support.windows || o.support.metal)

/-- `SecondPass` and `SecondPass2`: there is room for so many corrections, and a PE for Windows has
its header. -/
def secondPass (o : Options) (i : Input) : Except String Unit :=
  if 64 < i.offsetRelocs o then .error "ran out of offset relocations"
  else if i.generatesPe o ∧ i.pe = none ∧ o.support.windows then
    .error "elf image needs to define `ape_pe` when windows is in the support vector"
  else .ok ()

def Input.imageAlign (o : Options) (i : Input) : Nat :=
  if i.generatesPe o then max 65535 (machinePagesz i.machine).toNat
  else (machinePagesz i.machine).toNat

def searchOffset (mask : Nat) : Nat → Nat → Nat
  | 0, offset => offset
  | fuel + 1, offset => if offset &&& mask ≠ 0 then searchOffset mask fuel (offset + 1) else offset

def relocate (delta : BitVec 64) (h : ElfPhdr) : ElfPhdr :=
  if h.pFilesz ≠ 0 then { h with pOffset := h.pOffset + delta } else h

structure Placed where
  input : Input
  /-- the offset that the third pass was given -/
  start : Nat
  offset : Nat
  /-- its program headers in the prologue, but for the one of the notes -/
  phdrs : List ElfPhdr
  image : Bytes
  /-- the fields of the input that were changed for the PE -/
  fixups : List (Nat × Nat)
  deriving DecidableEq, Repr

def Placed.stop (x : Placed) : Nat := x.offset + x.image.length

def linkPe (o : Options) (i : Input) (offset : Nat) : Except String PeImage :=
  match i.pe with
  | none => .ok ⟨i.map, []⟩
  | some pe =>
    if i.generatesPe o then
      fixupPeImage o.asserts i.minload.toNat pe offset offset ⟨i.map, []⟩
    else .ok ⟨i.map, []⟩

/-- `Pwrite` of a part of an input: the system refuses what is not mapped, or too far in the file. -/
def copyImage (map : Bytes) (start size offset : Nat) : Except String Bytes :=
  if size = 0 then .ok []
  else if map.length < start + size then .error "EFAULT"
  else if 2 ^ 63 ≤ offset + size then .error "EFBIG"
  else .ok ((map.drop start).take size)

def thirdPass (o : Options) (start : Nat) (i : Input) : Except String Placed := do
  let offset := searchOffset (i.imageAlign o - 1) 65536 start
  let m ← linkPe o i offset
  let image ← copyImage m.map i.minload.toNat (i.maxload - i.minload).toNat offset
  return ⟨i, start, offset, i.phdrs.map (relocate (BitVec.ofNat 64 offset - i.minload)), image,
    m.written⟩

def placeAll (o : Options) : Nat → List Input → Except String (List Placed)
  | _, [] => .ok []
  | start, i :: rest => do
    let x ← thirdPass o start i
    let xs ← placeAll o x.stop rest
    return x :: xs

def linkInputs (o : Options) (prologueBytes : Nat) (inputs : List Input) :
    Except String (List Placed) := do
  inputs.forM (secondPass o)
  placeAll o prologueBytes inputs

/-! ## The output file -/

abbrev File : Type := Nat → Option UInt8

def pwriteFile (f : File) (w : Nat × Bytes) : File :=
  onRegion w.1 (w.1 + w.2.length) (fun a _ => w.2[a - w.1]?) f

def outputWrites (prologue behind : Bytes) (placed : List Placed) : List (Nat × Bytes) :=
  placed.map (fun x => (x.offset, x.image)) ++
    [((placed.getLast?.map Placed.stop).getD prologue.length, behind), (0, prologue)]

def outputFile (prologue behind : Bytes) (placed : List Placed) : File :=
  (outputWrites prologue behind placed).foldl pwriteFile fun _ => none

end CosmoRuby.Ape
