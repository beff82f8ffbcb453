import CosmoRuby.Http.Tables
import CosmoRuby.Lib.LittleEndian
import CosmoRuby.Lib.Page

/-!
# The APE loader

`TryElf` and `Spawn` of `ape/loader.c`: the program headers of an executable are read, empty ones
are dropped and neighbours merged, the rest is checked, and each segment is mapped. The machine is
64-bit, so `unsigned long` is a word.
-/

namespace CosmoRuby.Ape

open Lib Http

/-! ## Headers -/

structure ElfEhdr where
  magic : Bytes
  eiClass : Nat
  eType : Nat
  eMachine : Nat
  eEntry : BitVec 64
  ePhoff : BitVec 64
  ePhentsize : Nat
  ePhnum : Nat
  deriving DecidableEq, Repr

structure ElfPhdr where
  pType : Nat
  pFlags : BitVec 32
  pOffset : BitVec 64
  pVaddr : BitVec 64
  pFilesz : BitVec 64
  pMemsz : BitVec 64
  pAlign : BitVec 64
  deriving DecidableEq, Repr

def etExec : Nat := 2

def etDyn : Nat := 3

def ptLoad : Nat := 1

def ptDynamic : Nat := 2

def ptInterp : Nat := 3

def pfX : BitVec 32 := 1

def pfW : BitVec 32 := 2

def pfR : BitVec 32 := 4

def field (b : Bytes) (off n : Nat) : Nat := leNat ((b.drop off).take n)

def readEhdr (b : Bytes) : ElfEhdr where
  magic := b.take 4
  eiClass := field b 4 1
  eType := field b 16 2
  eMachine := field b 18 2
  eEntry := BitVec.ofNat 64 (field b 24 8)
  ePhoff := BitVec.ofNat 64 (field b 32 8)
  ePhentsize := field b 54 2
  ePhnum := field b 56 2

def readPhdr (b : Bytes) : ElfPhdr where
  pType := field b 0 4
  pFlags := BitVec.ofNat 32 (field b 4 4)
  pOffset := BitVec.ofNat 64 (field b 8 8)
  pVaddr := BitVec.ofNat 64 (field b 16 8)
  pFilesz := BitVec.ofNat 64 (field b 32 8)
  pMemsz := BitVec.ofNat 64 (field b 40 8)
  pAlign := BitVec.ofNat 64 (field b 48 8)

def sizeofPhdr : Nat := 56

/-! ## TryElf -/

inductive Arch where
  | x86_64
  | aarch64
  deriving DecidableEq, Repr

def Arch.machine : Arch → Nat
  | .x86_64 => 62
  | .aarch64 => 183

def Arch.mismatch : Arch → String
  | .x86_64 => "couldn't find ELF header with x86-64 machine type"
  | .aarch64 => "couldn't find ELF header with AARCH64 machine type"

/-- `TryElf` returns a reason and another header may be tried, or leaves by `Pexit`, or goes on to
`Spawn` with the program headers it made. -/
inductive Tried where
  | returns (why : String)
  | exits (why : String)
  | spawns (p : List ElfPhdr)
  deriving DecidableEq, Repr

def dropEmpty (p : List ElfPhdr) : List ElfPhdr :=
  p.filter fun h => !(h.pType == ptLoad && h.pMemsz == 0)

def pfRwx : BitVec 32 := pfR ||| pfW ||| pfX

def mergeable (pagesz : BitVec 64) (p q : ElfPhdr) : Bool :=
  p.pType == ptLoad && q.pType == ptLoad &&
    (p.pFlags &&& pfRwx) == (q.pFlags &&& pfRwx) &&
    ((p.pOffset + p.pFilesz + (pagesz - 1)) &&& -pagesz) - (q.pOffset &&& -pagesz) ≤ pagesz &&
    ((p.pVaddr + p.pMemsz + (pagesz - 1)) &&& -pagesz) - (q.pVaddr &&& -pagesz) ≤ pagesz

def mergeTwo (p q : ElfPhdr) : ElfPhdr :=
  { p with
    pMemsz := (q.pVaddr + q.pMemsz) - p.pVaddr
    pFilesz := (q.pOffset + q.pFilesz) - p.pOffset }

def mergeFrom (pagesz : BitVec 64) (p : ElfPhdr) : List ElfPhdr → List ElfPhdr
  | [] => [p]
  | q :: rest =>
    if mergeable pagesz p q then mergeFrom pagesz (mergeTwo p q) rest
    else p :: mergeFrom pagesz q rest

def mergeLoads (pagesz : BitVec 64) : List ElfPhdr → List ElfPhdr
  | [] => []
  | p :: rest => mergeFrom pagesz p rest

def pageSize (pagesz : BitVec 64) : BitVec 64 := if pagesz = 0 then 4096 else pagesz

def preparePhdrs (pagesz : BitVec 64) (p : List ElfPhdr) : Tried :=
  match p.find? fun h => h.pType == ptInterp || h.pType == ptDynamic with
  | some h =>
    if h.pType = ptInterp then .returns "ELF has PT_INTERP which isn't supported"
    else .returns "ELF has PT_DYNAMIC which isn't supported"
  | none => .spawns (mergeLoads pagesz (dropEmpty p))

/-- `Pread`: the bytes from an offset on, at most `size` of them; a negative offset is an error. -/
def pread (file : Bytes) (size : Nat) (off : BitVec 64) : Option Bytes :=
  if off.toInt < 0 then none else some ((file.drop off.toNat).take size)

def tryElf (arch : Arch) (ebuf file : Bytes) (pagesz : BitVec 64) : Tried :=
  let pagesz := pageSize pagesz
  if pagesz &&& (pagesz - 1) ≠ 0 then .exits "AT_PAGESZ isn't two power"
  else
    let e := readEhdr ebuf
    if e.magic ≠ [0x7f, 0x45, 0x4c, 0x46] then .returns "didn't embed ELF magic"
    else if e.eiClass = 1 then .returns "32-bit ELF isn't supported"
    else if e.eType ≠ etExec ∧ e.eType ≠ etDyn then .returns "ELF not ET_EXEC or ET_DYN"
    else if e.eMachine ≠ arch.machine then .returns arch.mismatch
    else if e.ePhentsize ≠ sizeofPhdr then .exits "e_phentsize is wrong"
    else
      let size := e.ePhnum * sizeofPhdr
      if 1024 < size then .exits "too many ELF program headers"
      else
        match pread file size e.ePhoff with
        | none => .returns "failed to read ELF program headers"
        | some buf =>
          if buf.length ≠ size then .returns "truncated read of ELF program headers"
          else
            preparePhdrs pagesz
              ((List.range e.ePhnum).map fun i => readPhdr (buf.drop (sizeofPhdr * i)))

/-! ## Spawn: the checks -/

structure LoaderImage where
  executableStart : BitVec 64
  stop : BitVec 64
  deriving DecidableEq, Repr

def wordMin (x y : BitVec 64) : BitVec 64 := if x < y then x else y

def wordMax (x y : BitVec 64) : BitVec 64 := if y < x then x else y

def pageStart (pagesz : BitVec 64) (p : ElfPhdr) : BitVec 64 := p.pVaddr &&& -pagesz

def pageStop (pagesz : BitVec 64) (p : ElfPhdr) : BitVec 64 :=
  (p.pVaddr + p.pMemsz + (pagesz - 1)) &&& -pagesz

def overlap (a b c d : BitVec 64) : Bool := wordMax a c < wordMin b d

/-- The checks of one segment, against the loader and the headers after it; `none` if it passes. -/
def checkSegment (loader : LoaderImage) (pagesz : BitVec 64) (p : ElfPhdr) (later : List ElfPhdr) :
    Option String :=
  if p.pMemsz < p.pFilesz then some "ELF p_filesz exceeds p_memsz"
  else if p.pVaddr &&& (pagesz - 1) ≠ p.pOffset &&& (pagesz - 1) then
    some "ELF p_vaddr incongruent w/ p_offset modulo AT_PAGESZ"
  else if p.pVaddr + p.pMemsz < p.pVaddr ∨ p.pVaddr + p.pMemsz + (pagesz - 1) < p.pVaddr then
    some "ELF p_vaddr + p_memsz overflow"
  else if p.pOffset + p.pFilesz < p.pOffset ∨ p.pOffset + p.pFilesz + (pagesz - 1) < p.pOffset then
    some "ELF p_offset + p_filesz overflow"
  else
    let a := pageStart pagesz p
    let b := pageStop pagesz p
    if overlap a b loader.executableStart loader.stop then
      some "ELF segments overlap your APE loader"
    else if later.any fun q =>
        q.pType == ptLoad && overlap a b (pageStart pagesz q) (pageStop pagesz q) then
      some "ELF segments overlap each others virtual memory"
    else none

/-- What the checks find out on the way: whether an executable segment has the entry point, and
the bounds of the addresses. -/
structure Found where
  entry : Bool
  virtmin : BitVec 64
  virtmax : BitVec 64
  deriving DecidableEq, Repr

def lookAt (entry : BitVec 64) (p : ElfPhdr) (f : Found) : Found where
  entry := f.entry || (p.pFlags &&& pfX != 0 && p.pVaddr ≤ entry && entry < p.pVaddr + p.pMemsz)
  virtmin := if p.pVaddr < f.virtmin then p.pVaddr else f.virtmin
  virtmax := if f.virtmax < p.pVaddr + p.pMemsz then p.pVaddr + p.pMemsz else f.virtmax

def validate (loader : LoaderImage) (pagesz entry : BitVec 64) :
    List ElfPhdr → Found → Except String Found
  | [], f => .ok f
  | p :: rest, f =>
    if p.pType ≠ ptLoad then validate loader pagesz entry rest f
    else
      match checkSegment loader pagesz p rest with
      | some why => .error why
      | none => validate loader pagesz entry rest (lookAt entry p f)

/-! ## Spawn: the mappings -/

structure Prot where
  read : Bool
  write : Bool
  exec : Bool
  deriving DecidableEq, Repr

def Prot.ofFlags (flags : BitVec 32) : Prot where
  read := flags &&& pfR != 0
  write := flags &&& pfW != 0
  exec := flags &&& pfX != 0

/-- What `Spawn` does to the memory. The mappings are all `MAP_FIXED | MAP_PRIVATE`. -/
inductive Call where
  | progMmap (addr size : BitVec 64) (prot : Prot) (off : BitVec 64)
  | bzero (addr size : BitVec 64)
  | progMprotect (addr size : BitVec 64) (prot : Prot)
  | extraBss (addr size : BitVec 64) (prot : Prot)
  | bssMmap (addr size : BitVec 64) (prot : Prot)
  deriving DecidableEq, Repr

def Call.failure : Call → String
  | .progMmap .. => "prog mmap"
  | .bzero .. => ""
  | .progMprotect .. => "prog mprotect"
  | .extraBss .. => "extra bss mmap"
  | .bssMmap .. => "bss mmap"

def Call.addr : Call → BitVec 64
  | .progMmap a _ _ _ | .bzero a _ | .progMprotect a _ _ | .extraBss a _ _ | .bssMmap a _ _ => a

def Call.size : Call → BitVec 64
  | .progMmap _ n _ _ | .bzero _ n | .progMprotect _ n _ | .extraBss _ n _ | .bssMmap _ n _ => n

def fileStop (p : ElfPhdr) : BitVec 64 := p.pVaddr + p.pFilesz

def bssStart (pagesz : BitVec 64) (p : ElfPhdr) : BitVec 64 :=
  (fileStop p + (pagesz - 1)) &&& -pagesz

def dataStop (p : ElfPhdr) : BitVec 64 := p.pVaddr + p.pMemsz

def wipe (pagesz : BitVec 64) (p : ElfPhdr) : BitVec 64 :=
  wordMin (bssStart pagesz p - fileStop p) (dataStop p - fileStop p)

def firstProt (pagesz : BitVec 64) (p : ElfPhdr) : Prot :=
  if wipe pagesz p ≠ 0 ∧ (Prot.ofFlags p.pFlags).write = false then ⟨true, true, false⟩
  else Prot.ofFlags p.pFlags

def fileCalls (dynbase pagesz : BitVec 64) (p : ElfPhdr) : List Call :=
  let prot := Prot.ofFlags p.pFlags
  let addr := dynbase + pageStart pagesz p
  let size := (p.pVaddr &&& (pagesz - 1)) + p.pFilesz
  Call.progMmap addr size (firstProt pagesz p) (p.pOffset &&& -pagesz) ::
    (if wipe pagesz p ≠ 0 then [Call.bzero (dynbase + fileStop p) (wipe pagesz p)] else []) ++
    (if prot ≠ firstProt pagesz p then [Call.progMprotect addr size prot] else []) ++
    (if bssStart pagesz p < dataStop p then
      [Call.extraBss (dynbase + bssStart pagesz p) (dataStop p - bssStart pagesz p) prot] else [])

def segmentCalls (dynbase pagesz : BitVec 64) (p : ElfPhdr) : List Call :=
  if p.pFilesz ≠ 0 then fileCalls dynbase pagesz p
  else
    [.bssMmap (dynbase + pageStart pagesz p) ((p.pVaddr &&& (pagesz - 1)) + p.pMemsz)
      (Prot.ofFlags p.pFlags)]

/-- The system: where it puts the first mapping, and which calls it lets through. A mapping has a
length, and it lies in the lower half of the address space, as a result below zero is an error. -/
structure Kernel where
  reserve : BitVec 64 → Option (BitVec 64)
  accepts : List Call → Call → Bool
  reserve_fits : ∀ {len base}, reserve len = some base →
    len ≠ 0 ∧ base.toNat + len.toNat ≤ 2 ^ 63
  accepts_fits : ∀ {done call}, accepts done call = true →
    call.size ≠ 0 ∧ call.addr.toNat + call.size.toNat ≤ 2 ^ 63

def runCalls (k : Kernel) : List Call → List Call → Except (String × List Call) (List Call)
  | done, [] => .ok done
  | done, .bzero a n :: rest => runCalls k (done ++ [.bzero a n]) rest
  | done, c :: rest =>
    if k.accepts done c then runCalls k (done ++ [c]) rest else .error (c.failure, done)

/-- How `Spawn` ends: before it maps anything, at a call that fails, or in the program. -/
inductive Spawned where
  | exits (why : String)
  | stopped (why : String) (dynbase : BitVec 64) (done : List Call)
  | launched (dynbase : BitVec 64) (done : List Call) (entry : BitVec 64)
  deriving DecidableEq, Repr

def loads (p : List ElfPhdr) : List ElfPhdr := p.filter fun h => h.pType == ptLoad

def chooseBase (k : Kernel) (pagesz : BitVec 64) (eType : Nat) (f : Found) :
    Except String (BitVec 64) :=
  if eType = etDyn then
    match k.reserve (f.virtmax - f.virtmin) with
    | none => .error "pie mmap"
    | some dynbase =>
      if dynbase &&& (pagesz - 1) ≠ 0 then .error "OS mmap incongruent w/ AT_PAGESZ"
      else if dynbase + f.virtmin < dynbase then .error "ELF dynamic base overflow"
      else .ok dynbase
  else .ok 0

def loadElf (k : Kernel) (pagesz dynbase entry : BitVec 64) (p : List ElfPhdr) : Spawned :=
  match runCalls k [] ((loads p).flatMap (segmentCalls dynbase pagesz)) with
  | .error (why, done) => .stopped why dynbase done
  | .ok done => .launched dynbase done (dynbase + entry)

def spawn (k : Kernel) (loader : LoaderImage) (pagesz : BitVec 64) (eType : Nat)
    (entry : BitVec 64) (p : List ElfPhdr) : Spawned :=
  if pagesz &&& (pagesz - 1) ≠ 0 then .exits "AT_PAGESZ isn't two power"
  else
    match validate loader pagesz entry p ⟨false, 0, 0⟩ with
    | .error why => .exits why
    | .ok f =>
      if !f.entry then .exits "ELF entrypoint not found in PT_LOAD with PF_X"
      else
        match chooseBase k pagesz eType f with
        | .error why => .exits why
        | .ok dynbase => loadElf k pagesz dynbase entry p

end CosmoRuby.Ape
