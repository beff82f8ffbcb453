import CosmoRuby.Http.Tables
import CosmoRuby.Lib.LittleEndian

/-!
# Objects and symbols of a plugin

The relocatable objects that `LoadObject` makes of the members of a plugin archive, and the
symbols that they define. Pointers are 64-bit words, `NULL` is zero.
-/

namespace CosmoRuby.Plugin

open Lib Http

/-! ## The object file -/

structure Elf64Rela where
  rOffset : BitVec 64
  rInfo : BitVec 64
  rAddend : BitVec 64
  deriving DecidableEq, Repr

def Elf64Rela.symidx (r : Elf64Rela) : Nat := (r.rInfo >>> 32).toNat

def Elf64Rela.type (r : Elf64Rela) : Nat := (r.rInfo &&& 0xffffffff).toNat

structure Elf64Sym where
  stName : Nat
  stInfo : BitVec 8
  stShndx : Nat
  stValue : BitVec 64
  stSize : BitVec 64
  deriving DecidableEq, Repr

def Elf64Sym.bind (s : Elf64Sym) : Nat := (s.stInfo >>> 4).toNat

def Elf64Sym.type (s : Elf64Sym) : Nat := (s.stInfo &&& 0xf).toNat

def stbLocal : Nat := 0

def stbGlobal : Nat := 1

def stbWeak : Nat := 2

def sttFile : Nat := 4

def shnUndef : Nat := 0

def shtSymtab : Nat := 2

def shtRela : Nat := 4

def shfAlloc : BitVec 64 := 2

def shfTls : BitVec 64 := 0x400

/-- A section header, with what the file has at `sh_offset`: the code reads that as relocations,
as symbols or as the text of a string table. -/
structure Elf64Shdr where
  shType : Nat
  shFlags : BitVec 64
  shLink : Nat
  shInfo : Nat
  /-- The `sh_size / sizeof(Elf64_Rela)` relocations. -/
  relas : List Elf64Rela
  /-- The `sh_size / sizeof(Elf64_Sym)` symbols. -/
  syms : List Elf64Sym
  /-- The string at each offset. -/
  strs : Nat → Bytes

instance : Inhabited Elf64Shdr := ⟨⟨0, 0, 0, 0, [], [], fun _ => []⟩⟩

structure PluginSection where
  mem : BitVec 64
  size : BitVec 64
  deriving DecidableEq, Repr, Inhabited

structure PluginObject where
  shdrs : List Elf64Shdr
  sections : List PluginSection

def PluginObject.shdr (o : PluginObject) (i : Nat) : Elf64Shdr := o.shdrs.getD i default

def scanSymbolTables (o : PluginObject) : Option (List Elf64Sym × (Nat → Bytes)) :=
  (o.shdrs.find? fun sh => sh.shType == shtSymtab).map fun sh =>
    (sh.syms, (o.shdr sh.shLink).strs)

def sectionAddr (o : PluginObject) (shndx : Nat) (off : BitVec 64) : BitVec 64 :=
  if o.shdrs.length ≤ shndx then 0
  else
    let ps := o.sections.getD shndx default
    if ps.mem = 0 then 0
    else if ps.size < off then 0
    else ps.mem + off

/-! ## The symbols of the plugin -/

structure PluginSym where
  name : Bytes
  addr : BitVec 64
  bind : Nat
  deriving DecidableEq, Repr

def addPluginSymbol (syms : List PluginSym) (name : Bytes) (addr : BitVec 64) (bind : Nat) :
    List PluginSym :=
  if name = [] then syms else syms ++ [⟨name, addr, bind⟩]

def addDefinedSymbol (o : PluginObject) (strtab : Nat → Bytes) (syms : List PluginSym)
    (s : Elf64Sym) : List PluginSym :=
  if s.stShndx = shnUndef ∨ s.stName = 0 then syms
  else if s.type = sttFile then syms
  else
    let base := sectionAddr o s.stShndx 0
    if base = 0 then syms
    else addPluginSymbol syms (strtab s.stName) (base + s.stValue) s.bind

def addDefinedSymbols (syms : List PluginSym) (o : PluginObject) : List PluginSym :=
  match scanSymbolTables o with
  | none => syms
  | some (symtab, strtab) => symtab.foldl (addDefinedSymbol o strtab) syms

/-- The table that `cosmo_load_plugin` builds before it relocates the objects. -/
def pluginSymbols (objs : List PluginObject) : List PluginSym := objs.foldl addDefinedSymbols []

def lookupPluginSymbol (syms : List PluginSym) (name : Bytes) : BitVec 64 :=
  if name = [] then 0
  else ((syms.find? fun e => e.name == name).map PluginSym.addr).getD 0

def lookupTable (table : List (Bytes × BitVec 64)) (name : Bytes) : BitVec 64 :=
  ((table.find? fun e => e.1 == name).map Prod.snd).getD 0

/-- What the host gives to the loader: its own symbols and where it maps memory (`none` is
`MAP_FAILED`, or `NULL` of `malloc`). -/
structure Host where
  exports : List (Bytes × BitVec 64)
  /-- The addresses of the functions in `libcNames`. -/
  libc : String → BitVec 64
  /-- `&cosmo_tls_get_addr`. -/
  tlsGetAddr : BitVec 64
  /-- `&cosmo_tlsdesc_resolve`. -/
  tlsdescResolve : BitVec 64
  /-- The address of the `struct cosmo_plugin`. -/
  plugin : BitVec 64
  mapGot : Nat → Option (BitVec 64)
  mapPlt : Nat → Option (BitVec 64)
  mallocTlsDescs : Nat → Option (BitVec 64)
  mapPlt_ne_null : ∀ n, mapPlt n ≠ some 0

def lookupExports (h : Host) (name : Bytes) : BitVec 64 := lookupTable h.exports name

def libcNames : List String :=
  ["malloc", "free", "memcpy", "memset", "memcmp", "strlen", "strcmp"]

def lookupLibc (h : Host) (name : Bytes) : BitVec 64 :=
  lookupTable (libcNames.map fun f => (ascii f, h.libc f)) name

def resolveSymbol (h : Host) (syms : List PluginSym) (name : Bytes) : BitVec 64 :=
  if name = ascii "__tls_get_addr" then h.tlsGetAddr
  else
    let addr := lookupPluginSymbol syms name
    if addr ≠ 0 then addr
    else
      let addr := lookupExports h name
      if addr ≠ 0 then addr else lookupLibc h name

def smallHost : Host where
  exports := []
  libc := fun _ => 0
  tlsGetAddr := 0x50000
  tlsdescResolve := 0x50010
  plugin := 0x60000
  mapGot := fun _ => some 0x20000
  mapPlt := fun _ => some 0x30000
  mallocTlsDescs := fun _ => some 0x40000
  mapPlt_ne_null := fun _ h => absurd (Option.some.inj h) (by decide)

end CosmoRuby.Plugin
