import CosmoRuby.Plugin.Object

/-!
# Symbols across objects

What a reference to a symbol of another object is resolved to. The defined symbols of all objects
go into one table, local ones among them, and the first entry of a name is taken.
-/

namespace CosmoRuby.Plugin

open Lib Http List

/-! ## Definitions -/

def Defines (o : PluginObject) (s : Elf64Sym) (name : Bytes) : Prop :=
  name ≠ [] ∧ s.stShndx ≠ shnUndef ∧ s.stName ≠ 0 ∧ s.type ≠ sttFile ∧
    ∃ symtab strtab, scanSymbolTables o = some (symtab, strtab) ∧ s ∈ symtab ∧
      strtab s.stName = name

def LocatedAt (o : PluginObject) (s : Elf64Sym) (addr : BitVec 64) : Prop :=
  sectionAddr o s.stShndx 0 ≠ 0 ∧ sectionAddr o s.stShndx 0 + s.stValue = addr

def Exported (s : Elf64Sym) : Prop := s.bind = stbGlobal ∨ s.bind = stbWeak

section

variable (objs : List PluginObject)

/-- Global, or weak where no definition of the name is global. -/
def Best (name : Bytes) (bind : Nat) : Prop :=
  bind = stbGlobal ∨
    bind = stbWeak ∧ ∀ o ∈ objs, ∀ s, Defines o s name → s.bind ≠ stbGlobal

/-- At the address is a global definition of the name, or a weak one where there is no global. -/
def Preferred (name : Bytes) (addr : BitVec 64) : Prop :=
  ∃ o ∈ objs, ∃ s, Defines o s name ∧ LocatedAt o s addr ∧ Best objs name s.bind

/-- Another object than the `i`th has a global or weak definition of the name. -/
def ExportedElsewhere (i : Nat) (name : Bytes) : Prop :=
  ∃ j o s, j ≠ i ∧ objs[j]? = some o ∧ Defines o s name ∧ Exported s

/-- At the address is a local symbol of another object than the `i`th, and nothing exported. -/
def LocalElsewhere (i : Nat) (name : Bytes) (addr : BitVec 64) : Prop :=
  (∃ j o s, j ≠ i ∧ objs[j]? = some o ∧ Defines o s name ∧ LocatedAt o s addr ∧
      s.bind = stbLocal) ∧
    ¬∃ o ∈ objs, ∃ s, Defines o s name ∧ LocatedAt o s addr ∧ Exported s

/-- A reference from the `i`th object that was resolved to the address was resolved to a global or
weak definition, the global one preferred, and to no local symbol of another object. -/
structure ResolvedRightly (i : Nat) (name : Bytes) (addr : BitVec 64) : Prop where
  preferred : ExportedElsewhere objs i name → Preferred objs name addr
  notLocal : ¬LocalElsewhere objs i name addr

end

/-! ## The table -/

def definition? (o : PluginObject) (strtab : Nat → Bytes) (s : Elf64Sym) : Option PluginSym :=
  if s.stShndx = shnUndef ∨ s.stName = 0 then none
  else if s.type = sttFile then none
  else if sectionAddr o s.stShndx 0 = 0 then none
  else if strtab s.stName = [] then none
  else some ⟨strtab s.stName, sectionAddr o s.stShndx 0 + s.stValue, s.bind⟩

def definitions (o : PluginObject) : List PluginSym :=
  match scanSymbolTables o with
  | none => []
  | some (symtab, strtab) => symtab.filterMap (definition? o strtab)

theorem addDefinedSymbol_eq (o : PluginObject) (strtab : Nat → Bytes) (syms : List PluginSym)
    (s : Elf64Sym) :
    addDefinedSymbol o strtab syms s = syms ++ (definition? o strtab s).toList := by
  unfold addDefinedSymbol definition? addPluginSymbol
  dsimp only
  split_ifs <;> simp

theorem addDefinedSymbols_eq (syms : List PluginSym) (o : PluginObject) :
    addDefinedSymbols syms o = syms ++ definitions o := by
  unfold addDefinedSymbols definitions
  cases scanSymbolTables o with
  | none => exact (append_nil syms).symm
  | some t =>
    obtain ⟨symtab, strtab⟩ := t
    change symtab.foldl (addDefinedSymbol o strtab) syms =
      syms ++ symtab.filterMap (definition? o strtab)
    induction symtab generalizing syms with
    | nil => exact (append_nil syms).symm
    | cons s symtab ih =>
      rw [foldl_cons, ih, addDefinedSymbol_eq, append_assoc, filterMap_cons]
      cases definition? o strtab s <;> rfl

theorem pluginSymbols_eq (objs : List PluginObject) :
    pluginSymbols objs = objs.flatMap definitions := by
  have hall : ∀ syms, objs.foldl addDefinedSymbols syms = syms ++ objs.flatMap definitions := by
    induction objs with
    | nil => exact fun syms => (append_nil syms).symm
    | cons o objs ih =>
      intro syms
      rw [foldl_cons, ih, addDefinedSymbols_eq, append_assoc, flatMap_cons]
  exact hall []

variable {o : PluginObject} {e : PluginSym}

theorem mem_definitions_iff :
    e ∈ definitions o ↔ ∃ s, Defines o s e.name ∧ LocatedAt o s e.addr ∧ s.bind = e.bind := by
  unfold definitions Defines LocatedAt
  cases scanSymbolTables o with
  | none => simp
  | some t =>
    obtain ⟨symtab, strtab⟩ := t
    rw [mem_filterMap]
    refine exists_congr fun s => ⟨?_, ?_⟩
    · rintro ⟨hmem, hdef⟩
      unfold definition? at hdef
      split_ifs at hdef with hundef hfile hbase hname
      cases hdef
      rw [not_or] at hundef
      exact ⟨⟨hname, hundef.1, hundef.2, hfile, symtab, strtab, rfl, hmem, rfl⟩, ⟨hbase, rfl⟩, rfl⟩
    · rintro ⟨⟨hname, hsec, hzero, hfile, symtab', strtab', htab, hmem, hstr⟩, ⟨hbase, haddr⟩, hbind⟩
      cases htab
      refine ⟨hmem, ?_⟩
      unfold definition?
      rw [if_neg (not_or.mpr ⟨hsec, hzero⟩), if_neg hfile, if_neg hbase, if_neg (hstr ▸ hname)]
      obtain ⟨name, addr, bind⟩ := e
      dsimp only at hstr haddr hbind
      rw [hstr, haddr, hbind]

/-! ## Resolution -/

/-- The definitions of the name, in the order of the archive. -/
def named (objs : List PluginObject) (name : Bytes) : List PluginSym :=
  (objs.flatMap definitions).filter fun e => e.name == name

/-- No definition at another address comes before those at the address. -/
def FirstAt (objs : List PluginObject) (name : Bytes) (addr : BitVec 64) : Prop :=
  ∀ before q after, named objs name = before ++ q :: after → q.addr ≠ addr → ∃ r ∈ before, r.addr = addr

/-- If another object exports the name, a global definition, or a weak one where there is no global,
comes first; a local one of another object does so only with an exported one at its address. -/
structure OrderRight (objs : List PluginObject) (i : Nat) (name : Bytes) : Prop where
  exported : ExportedElsewhere objs i name →
    ∃ p ∈ named objs name, FirstAt objs name p.addr ∧ Best objs name p.bind
  locals : ∀ j o, j ≠ i → objs[j]? = some o → ∀ q ∈ definitions o, q.name = name →
    q.bind = stbLocal → FirstAt objs name q.addr →
      ∃ p ∈ named objs name, p.addr = q.addr ∧ (p.bind = stbGlobal ∨ p.bind = stbWeak)

variable {objs : List PluginObject} {name : Bytes} {s : Elf64Sym} {addr : BitVec 64}

theorem mem_named_iff : e ∈ named objs name ↔ (∃ o ∈ objs, e ∈ definitions o) ∧ e.name = name := by
  rw [named, List.mem_filter, List.mem_flatMap, beq_iff_eq]

theorem located_iff {P : Nat → Prop} :
    (∃ o ∈ objs, ∃ s, Defines o s name ∧ LocatedAt o s addr ∧ P s.bind) ↔
      ∃ p ∈ named objs name, p.addr = addr ∧ P p.bind := by
  constructor
  · rintro ⟨o, ho, s, hs, haddr, hP⟩
    exact ⟨⟨name, addr, s.bind⟩, mem_named_iff.mpr
      ⟨⟨o, ho, mem_definitions_iff.mpr ⟨s, hs, haddr, rfl⟩⟩, rfl⟩, rfl, hP⟩
  · rintro ⟨p, hp, rfl, hP⟩
    obtain ⟨⟨o, ho, hdef⟩, rfl⟩ := mem_named_iff.mp hp
    obtain ⟨s, hs, haddr, hbind⟩ := mem_definitions_iff.mp hdef
    exact ⟨o, ho, s, hs, haddr, hbind ▸ hP⟩

theorem localElsewhere_iff {i : Nat} : LocalElsewhere objs i name addr ↔
    (∃ j o, j ≠ i ∧ objs[j]? = some o ∧ ∃ q ∈ definitions o, q.name = name ∧ q.bind = stbLocal ∧
      q.addr = addr) ∧
    ¬∃ p ∈ named objs name, p.addr = addr ∧ (p.bind = stbGlobal ∨ p.bind = stbWeak) := by
  unfold LocalElsewhere Exported
  rw [located_iff (P := fun b => b = stbGlobal ∨ b = stbWeak)]
  refine and_congr_left fun _ => exists_congr fun j => exists_congr fun o => ?_
  constructor
  · rintro ⟨s, hj, ho, hs, haddr, hbind⟩
    exact ⟨hj, ho, ⟨name, addr, s.bind⟩, mem_definitions_iff.mpr ⟨s, hs, haddr, rfl⟩, rfl, hbind, rfl⟩
  · rintro ⟨hj, ho, q, hq, rfl, hbind, rfl⟩
    obtain ⟨s, hs, haddr, hsame⟩ := mem_definitions_iff.mp hq
    exact ⟨s, hj, ho, hs, haddr, hsame.trans hbind⟩

variable {l : List PluginSym}

theorem firstAt_iff (h : named objs name = e :: l) : FirstAt objs name addr ↔ e.addr = addr := by
  unfold FirstAt
  rw [h]
  constructor
  · intro hfirst
    by_contra hne
    obtain ⟨r, hr, -⟩ := hfirst [] e l rfl hne
    exact not_mem_nil hr
  · intro haddr before q after heq hne
    cases before with
    | nil =>
      cases heq
      exact absurd haddr hne
    | cons r before =>
      cases heq
      exact ⟨e, mem_cons_self, haddr⟩

theorem resolveSymbol_eq {h : Host} (htls : name ≠ ascii "__tls_get_addr")
    (he : named objs name = e :: l) (hnull : e.addr ≠ 0) :
    resolveSymbol h (pluginSymbols objs) name = e.addr := by
  have hname : name ≠ [] := by
    obtain ⟨⟨o, -, hdef⟩, rfl⟩ := mem_named_iff.mp (he ▸ mem_cons_self)
    obtain ⟨s, hs, -⟩ := mem_definitions_iff.mp hdef
    exact hs.1
  have hlookup : lookupPluginSymbol (pluginSymbols objs) name = e.addr := by
    unfold lookupPluginSymbol
    rw [if_neg hname, pluginSymbols_eq, ← head?_filter, show List.filter _ _ = _ from he]
    rfl
  unfold resolveSymbol
  rw [if_neg htls]
  dsimp only
  rw [hlookup, if_pos hnull]

/-- A reference is resolved rightly exactly when the definitions of its name are in a right order. -/
theorem resolvedRightly_iff (h : Host) (objs : List PluginObject) (i : Nat) (name : Bytes)
    (htls : name ≠ ascii "__tls_get_addr")
    (hnull : ∀ o ∈ objs, ∀ s addr, Defines o s name → LocatedAt o s addr → addr ≠ 0) :
    ResolvedRightly objs i name (resolveSymbol h (pluginSymbols objs) name) ↔
      OrderRight objs i name := by
  have hresolved (a : BitVec 64) (hfirst : ∀ addr, (∃ p ∈ named objs name, p.addr = addr) →
      (FirstAt objs name addr ↔ a = addr)) :
      ResolvedRightly objs i name a ↔ OrderRight objs i name := by
    constructor
    · rintro ⟨hpref, hlocal⟩
      refine ⟨fun hexp => ?_, fun j o hj ho q hq hname hbind hat => ?_⟩
      · obtain ⟨p, hp, haddr, hbest⟩ := (located_iff (P := Best objs name)).mp (hpref hexp)
        exact ⟨p, hp, (hfirst p.addr ⟨p, hp, rfl⟩).mpr haddr.symm, hbest⟩
      · have hq' := mem_named_iff.mpr ⟨⟨o, List.mem_of_getElem? ho, hq⟩, hname⟩
        have haddr := (hfirst q.addr ⟨q, hq', rfl⟩).mp hat
        by_contra hno
        exact hlocal (localElsewhere_iff.mpr
          ⟨⟨j, o, hj, ho, q, hq, hname, hbind, haddr.symm⟩, haddr ▸ hno⟩)
    · rintro ⟨hexp, hlocals⟩
      refine ⟨fun helse => ?_, fun hlocal => ?_⟩
      · obtain ⟨p, hp, hat, hbest⟩ := hexp helse
        exact (located_iff (P := Best objs name)).mpr
          ⟨p, hp, ((hfirst p.addr ⟨p, hp, rfl⟩).mp hat).symm, hbest⟩
      · obtain ⟨⟨j, o, hj, ho, q, hq, hname, hbind, rfl⟩, hno⟩ := localElsewhere_iff.mp hlocal
        have hq' := mem_named_iff.mpr ⟨⟨o, List.mem_of_getElem? ho, hq⟩, hname⟩
        exact hno (hlocals j o hj ho q hq hname hbind ((hfirst q.addr ⟨q, hq', rfl⟩).mpr rfl))
  cases hnamed : named objs name with
  | nil =>
    refine hresolved _ fun addr hp => ?_
    rw [hnamed] at hp
    obtain ⟨p, hp, -⟩ := hp
    exact absurd hp not_mem_nil
  | cons e rest =>
    obtain ⟨o, ho, s, hs, haddr, -⟩ :=
      (located_iff (P := fun _ => True)).mpr ⟨e, hnamed ▸ mem_cons_self, rfl, trivial⟩
    rw [resolveSymbol_eq htls hnamed (hnull o ho s _ hs haddr)]
    exact hresolved _ fun addr _ => firstAt_iff hnamed

theorem orderRight_of_global {i : Nat} (he : named objs name = e :: l)
    (hglobal : e.bind = stbGlobal) : OrderRight objs i name := by
  have hmem : e ∈ named objs name := he ▸ mem_cons_self
  refine ⟨fun _ => ⟨e, hmem, (firstAt_iff he).mpr rfl, Or.inl hglobal⟩, ?_⟩
  intro j o _ _ q _ _ _ hat
  exact ⟨e, hmem, (firstAt_iff he).mp hat, Or.inl hglobal⟩

/-! ## An archive of three members -/

/-- A member with a section at an address, and a symbol `f` of its section `shndx`. -/
def memberWith (mem : BitVec 64) (info : BitVec 8) (shndx : Nat) : PluginObject where
  shdrs :=
    [default,
      ⟨1, shfAlloc, 0, 0, [], [], fun _ => []⟩,
      ⟨shtSymtab, 0, 3, 0, [], [⟨0, 0, 0, 0, 0⟩, ⟨1, info, shndx, 0, 0⟩], fun _ => []⟩,
      ⟨3, 0, 0, 0, [], [], fun off => if off = 1 then ascii "f" else []⟩]
  sections := [default, ⟨mem, 0x1000⟩, default, default]

def globalFirst : List PluginObject :=
  [memberWith 0x10000 0x12 1, memberWith 0x20000 0x02 1, memberWith 0x30000 0x10 0]

/-- A global `f`, a local `f`, and a reference to `f`. -/
theorem resolvedRightly_global_first : ResolvedRightly globalFirst 2 (ascii "f")
    (resolveSymbol smallHost (pluginSymbols globalFirst) (ascii "f")) := by
  refine (resolvedRightly_iff smallHost globalFirst 2 (ascii "f") (by decide) ?_).mpr
    (orderRight_of_global (e := ⟨ascii "f", 0x10000, stbGlobal⟩)
      (l := [⟨ascii "f", 0x20000, stbLocal⟩]) (by decide) rfl)
  intro o ho s addr hs haddr
  have hall : ∀ p ∈ named globalFirst (ascii "f"), p.addr ≠ 0 := by decide
  obtain ⟨p, hp, rfl, -⟩ := (located_iff (P := fun _ => True)).mp ⟨o, ho, s, hs, haddr, trivial⟩
  exact hall p hp

def localFirst : List PluginObject :=
  [memberWith 0x10000 0x02 1, memberWith 0x20000 0x12 1, memberWith 0x30000 0x10 0]

/-- A local `f`, a global `f`, and a reference to `f`: it is resolved to the local one. -/
theorem not_resolvedRightly_local_first : ¬ResolvedRightly localFirst 2 (ascii "f")
    (resolveSymbol smallHost (pluginSymbols localFirst) (ascii "f")) := by
  have haddr : resolveSymbol smallHost (pluginSymbols localFirst) (ascii "f") = 0x10000 := by decide
  have hlocal : ∀ p ∈ named localFirst (ascii "f"), p.addr = 0x10000 →
      p.bind ≠ stbGlobal ∧ p.bind ≠ stbWeak := by decide
  have hglobal : (⟨ascii "f", 0x20000, stbGlobal⟩ : PluginSym) ∈
      definitions (memberWith 0x20000 0x12 1) := by decide
  rw [haddr]
  intro hright
  obtain ⟨s, hs, -, hbind⟩ := mem_definitions_iff.mp hglobal
  obtain ⟨p, hp, hat, hbest⟩ := (located_iff (P := Best localFirst (ascii "f"))).mp
    (hright.preferred ⟨1, _, s, by decide, rfl, hs, Or.inl hbind⟩)
  have hno := hlocal p hp hat
  rcases hbest with hg | hw
  · exact hno.1 hg
  · exact hno.2 hw.1

end CosmoRuby.Plugin
