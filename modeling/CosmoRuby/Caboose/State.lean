import Mathlib

/-!
# The lifecycle of a caboose

The states and the actions of `caboose/inc/state.inc` with the table of transitions, and the state
file of `caboose/inc/state_file.inc`. The file is modelled as the keys and values of its TOML text.
A path is the list of its components, absolute or not; an empty path is none.
-/

namespace CosmoRuby.Caboose

inductive ToasterState where
  | kCold
  | kWarm
  | kThawed
  | kFrozen
  | kPersisted
  deriving DecidableEq, Repr

inductive ToasterAction where
  | kActionWarm
  | kActionThaw
  | kActionFreeze
  | kActionPersist
  | kActionDiscard
  deriving DecidableEq, Repr

open ToasterState ToasterAction

def kTransitionTable : ToasterState → ToasterAction → Option ToasterState
  | kCold, kActionWarm => some kWarm
  | kCold, kActionThaw => some kThawed
  | kWarm, kActionThaw => some kThawed
  | kWarm, kActionDiscard => some kCold
  | kThawed, kActionFreeze => some kFrozen
  | kThawed, kActionPersist => some kPersisted
  | kThawed, kActionDiscard => some kCold
  | kFrozen, kActionThaw => some kThawed
  | kFrozen, kActionPersist => some kPersisted
  | kFrozen, kActionDiscard => some kCold
  | kPersisted, kActionWarm => some kWarm
  | kPersisted, kActionThaw => some kThawed
  | _, _ => none

def toasterTransition (sf : ToasterState) (action : ToasterAction) : Option ToasterState :=
  kTransitionTable sf action

def toasterStateName : ToasterState → String
  | kCold => "cold"
  | kWarm => "warm"
  | kThawed => "thawed"
  | kFrozen => "frozen"
  | kPersisted => "persisted"

def parseStateName (name : String) : Option ToasterState :=
  if name = "cold" then some kCold
  else if name = "warm" then some kWarm
  else if name = "thawed" then some kThawed
  else if name = "frozen" then some kFrozen
  else if name = "persisted" then some kPersisted
  else none

theorem parseStateName_toasterStateName (s : ToasterState) :
    parseStateName (toasterStateName s) = some s := by
  cases s <;> decide

/-! ## Backends -/

inductive OverlayBackend where
  | kOverlayAuto
  | kOverlayKernel
  | kOverlayFuse
  | kOverlayUserland
  deriving DecidableEq, Repr

open OverlayBackend

def overlayBackendKey : OverlayBackend → String
  | kOverlayKernel => "kernel"
  | kOverlayFuse => "fuse"
  | kOverlayUserland => "userland"
  | kOverlayAuto => "auto"

def sameCase (a b : String) : Bool := a.toList.map Char.toLower == b.toList.map Char.toLower

def parseOverlayBackend : Option String → OverlayBackend
  | none => kOverlayAuto
  | some s =>
    if sameCase s "kernel" || sameCase s "overlayfs" then kOverlayKernel
    else if sameCase s "fuse" then kOverlayFuse
    else if sameCase s "userland" || sameCase s "portable" then kOverlayUserland
    else kOverlayAuto

theorem parseOverlayBackend_key (b : OverlayBackend) :
    parseOverlayBackend (some (overlayBackendKey b)) = b := by
  cases b <;> decide

/-! ## Paths -/

abbrev Name := String

structure PathName where
  absolute : Bool
  comps : List Name
  deriving DecidableEq, Repr

def PathName.empty : PathName := ⟨false, []⟩

def walk (p : List Name) (c : Name) : List Name :=
  if c = "" ∨ c = "." then p else if c = ".." then p.dropLast else p ++ [c]

def resolve (cwd : List Name) (p : PathName) : List Name :=
  p.comps.foldl walk (if p.absolute then [] else cwd)

/-! ## The state file -/

structure ToasterStateFile where
  state : ToasterState
  backend : OverlayBackend
  binaryPath : PathName
  upperPath : PathName
  lowerPath : PathName
  workPath : PathName
  mountPath : PathName
  deriving DecidableEq, Repr

structure StateDoc where
  state : Option String
  binaryPath : Option PathName
  backend : Option String
  upper : Option PathName
  lower : Option PathName
  work : Option PathName
  mount : Option PathName
  deriving DecidableEq, Repr

def PathName.key (p : PathName) : Option PathName := if p = .empty then none else some p

def ToasterStateFile.doc (sf : ToasterStateFile) : StateDoc where
  state := some (toasterStateName sf.state)
  binaryPath := some sf.binaryPath
  backend := if sf.backend = kOverlayAuto then none else some (overlayBackendKey sf.backend)
  upper := sf.upperPath.key
  lower := sf.lowerPath.key
  work := sf.workPath.key
  mount := sf.mountPath.key

def StateDoc.read (binaryPath : PathName) (d : StateDoc) : Option ToasterStateFile := do
  let state ← match d.state with
    | none => some kCold
    | some name => parseStateName name
  return {
    state
    backend := parseOverlayBackend d.backend
    binaryPath := d.binaryPath.getD binaryPath
    upperPath := d.upper.getD .empty
    lowerPath := d.lower.getD .empty
    workPath := d.work.getD .empty
    mountPath := d.mount.getD .empty }

def coldState (binaryPath : PathName) : ToasterStateFile :=
  ⟨kCold, kOverlayAuto, binaryPath, .empty, .empty, .empty, .empty⟩

theorem getD_key (p : PathName) : p.key.getD .empty = p := by
  unfold PathName.key
  split_ifs with h
  · exact h.symm
  · rfl

theorem read_doc (binaryPath : PathName) (sf : ToasterStateFile) :
    sf.doc.read binaryPath = some sf := by
  have hbackend : parseOverlayBackend sf.doc.backend = sf.backend := by
    dsimp only [ToasterStateFile.doc]
    split_ifs with h
    · exact h.symm
    · exact parseOverlayBackend_key sf.backend
  unfold StateDoc.read
  rw [hbackend]
  dsimp only [ToasterStateFile.doc]
  rw [parseStateName_toasterStateName, getD_key, getD_key, getD_key, getD_key]
  rfl

/-- How reading and writing the state file go: whether its path can be derived, whether it can be
opened, parsed and replaced. -/
structure FileSteps where
  derive : Bool
  openFile : Bool
  parse : Bool
  save : Bool
  deriving DecidableEq, Repr

def loadStateFile (s : FileSteps) (prog : PathName) (doc : Option StateDoc) :
    Option ToasterStateFile :=
  if s.openFile then
    match doc with
    | none => some (coldState prog)
    | some d => if s.parse then d.read prog else none
  else none

/-- `SaveStateFile` replaces the file at once or leaves it; the second value is that it did. -/
def saveStateFile (s : FileSteps) (sf : ToasterStateFile) (doc : Option StateDoc) :
    Option StateDoc × Bool :=
  if s.save then (some sf.doc, true) else (doc, false)

def recorded : Option StateDoc → Option ToasterState
  | none => some kCold
  | some d => (d.read .empty).map ToasterStateFile.state

end CosmoRuby.Caboose
