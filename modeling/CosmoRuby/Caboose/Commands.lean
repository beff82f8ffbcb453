import CosmoRuby.Caboose.Overlay
import CosmoRuby.Libc.Strtoul

/-!
# The commands

`warm`, `thaw`, `freeze`, `persist` and `discard` of a caboose (`warm.inc`, `thaw.inc`,
`thaw_userland.inc`, `freeze.inc`, `persist.inc`, `discard.inc`). Each runs in a process of its own,
on the disk and the state file that the last one left. Which of its steps fail, where the disk alone
does not say it, is up to the record of steps it is given.

The state file is kept apart from the disk: its path is absolute and made from a hash of the path of
the binary. So are the mount points of the kernel backend, and the copy of the zip tool that
`persist` makes.
-/

namespace CosmoRuby.Caboose

open Lib ToasterState ToasterAction OverlayBackend

inductive ExitCode where
  | EX_OK
  | EX_USAGE
  | EX_NOINPUT
  | EX_UNAVAILABLE
  | EX_SOFTWARE
  | EX_OSERR
  | EX_CANTCREAT
  | EX_IOERR
  deriving DecidableEq, Repr

open ExitCode

/-- What a process is started with, and the tree of its `/zip`. -/
structure Proc where
  prog : PathName
  cwd : List Name
  pid : Nat
  zip : Option Node

structure World where
  disk : Node
  stateFile : Option StateDoc

def attempt {α : Type} (works : Bool) (r : Except Errno α) : Except Errno α :=
  if works then r else .error .io

def tried (f : Change Name Bytes) (p : List Name) (disk : Node) : Node :=
  match sys f p disk with
  | .ok disk' => disk'
  | .error _ => disk

/-- The head of the commands: the state file is found and read, and the transition looked up. -/
def loadFor (s : FileSteps) (proc : Proc) (action : ToasterAction) (w : World) :
    Except ExitCode (ToasterStateFile × ToasterState) :=
  if s.derive then
    match loadStateFile s proc.prog w.stateFile with
    | none => .error EX_IOERR
    | some sf =>
      match toasterTransition sf.state action with
      | none => .error EX_USAGE
      | some next => .ok (sf, next)
  else .error EX_SOFTWARE

/-! ## Warm -/

/-- The steps of `Warm` that can fail, with what it returns then: the directories, the file systems
for the upper and the lower layer, the copy, the namespaces and the overlay. -/
def warmFailures : List ExitCode :=
  [EX_CANTCREAT, EX_CANTCREAT, EX_CANTCREAT, EX_CANTCREAT, EX_OSERR, EX_CANTCREAT, EX_OSERR, EX_OSERR,
    EX_OSERR, EX_OSERR, EX_OSERR]

structure WarmSteps where
  file : FileSteps
  /-- The first step that fails. -/
  fails : Option (Fin warmFailures.length)

def warm (s : WarmSteps) : ExitCode :=
  match s.fails with
  | none => EX_OK
  | some i => warmFailures.get i

def tmpPath (comps : List Name) : PathName := ⟨true, "tmp" :: comps⟩

def warmState (pid : Nat) (sf : ToasterStateFile) : ToasterStateFile :=
  { sf with
    state := kWarm
    backend := kOverlayKernel
    mountPath := tmpPath ["toast-mount-" ++ toString pid]
    upperPath := tmpPath ["toast-overlay-" ++ toString pid, "upper"]
    workPath := tmpPath ["toast-overlay-" ++ toString pid, "work"]
    lowerPath := tmpPath ["toast-lower-" ++ toString pid] }

def warmCmd (s : WarmSteps) (proc : Proc) (w : World) : ExitCode × World :=
  match warm s with
  | EX_OK =>
    match if s.file.derive then loadStateFile s.file proc.prog w.stateFile else none with
    | none => (EX_OK, w)
    | some sf =>
      (EX_OK, { w with
        stateFile := (saveStateFile s.file (warmState proc.pid sf) w.stateFile).1 })
  | code => (code, w)

/-! ## Thaw -/

structure ThawSteps where
  file : FileSteps
  /-- `TOASTER_BACKEND` -/
  backendEnv : Option String
  isLinux : Bool
  /-- User namespaces and overlay file systems were found to work. -/
  probe : Bool
  userNamespace : Bool
  setupPiz : Bool
  /-- `PIZ_MOUNT` -/
  pizMount : Option PathName
  /-- The directory for temporary files, and what `mkdtemp` puts for the six X. -/
  tmpdir : List Name
  suffix : Name
  mkdtemp : Bool
  copy : Bool

def selectBackend (s : ThawSteps) : OverlayBackend :=
  match parseOverlayBackend s.backendEnv with
  | kOverlayUserland => kOverlayUserland
  | kOverlayKernel => if s.isLinux then kOverlayKernel else kOverlayUserland
  | _ => if s.isLinux && s.probe then kOverlayKernel else kOverlayUserland

def copyTo (src : Option Node) : Change Name Bytes :=
  fun old => (copyDirectoryRecursive src old).map some

def ThawSteps.upper (s : ThawSteps) : PathName :=
  ⟨true, s.tmpdir ++ ["toaster-upper-" ++ s.suffix]⟩

/-- `ThawUserland`: a new directory gets a copy of `/zip`. On failure the disk is what is left. -/
def thawUserland (s : ThawSteps) (proc : Proc) (sf : ToasterStateFile) (disk : Node) :
    Except Node (ToasterStateFile × Node) :=
  let upper := resolve proc.cwd s.upper
  match attempt s.mkdtemp (sys mkdir upper disk) with
  | .error _ => .error disk
  | .ok disk =>
    match attempt s.copy (sys (copyTo proc.zip) upper disk) with
    | .error _ => .error (tried removeTree upper disk)
    | .ok disk =>
      .ok ({ sf with
        upperPath := s.upper, lowerPath := .empty, workPath := .empty, mountPath := .empty }, disk)

def checkZip (zip : Option Node) : ExitCode :=
  if (sub zip ["bin", "mtsh"]).isSome then EX_OK else EX_NOINPUT

def pizState (pid : Nat) (piz : PathName) (next : ToasterState) (sf : ToasterStateFile) :
    ToasterStateFile :=
  { sf with
    state := next
    backend := kOverlayKernel
    mountPath := piz
    lowerPath := tmpPath ["piz-lower-" ++ toString pid]
    upperPath := tmpPath ["piz-overlay-" ++ toString pid, "upper"]
    workPath := tmpPath ["piz-overlay-" ++ toString pid, "work"] }

def thaw (s : ThawSteps) (proc : Proc) (w : World) : ExitCode × World :=
  match loadFor s.file proc kActionThaw w with
  | .error code => (code, w)
  | .ok (sf, next) =>
    if checkZip proc.zip = EX_OK then
      if selectBackend s = kOverlayKernel then
        if s.userNamespace && s.setupPiz then
          match s.pizMount with
          | none => (EX_SOFTWARE, w)
          | some piz =>
            (EX_OK, { w with
              stateFile := (saveStateFile s.file (pizState proc.pid piz next sf) w.stateFile).1 })
        else (EX_OSERR, w)
      else
        match thawUserland s proc sf w.disk with
        | .error disk => (EX_OSERR, { w with disk })
        | .ok (sf, disk) =>
          let sf := { sf with state := next, backend := kOverlayUserland }
          -- a failure to save is only warned about
          (EX_OK, ⟨disk, (saveStateFile s.file sf w.stateFile).1⟩)
    else (EX_NOINPUT, w)

/-! ## Freeze and discard -/

def freeze (s : FileSteps) (proc : Proc) (w : World) : ExitCode × World :=
  match loadFor s proc kActionFreeze w with
  | .error code => (code, w)
  | .ok (sf, next) =>
    match saveStateFile s { sf with state := next } w.stateFile with
    | (_, false) => (EX_IOERR, w)
    | (doc, true) => (EX_OK, { w with stateFile := doc })

structure DiscardSteps where
  file : FileSteps
  /-- The state file can be removed. -/
  remove : Bool

def discardDirs (cwd : List Name) (sf : ToasterStateFile) (disk : Node) : Node :=
  [sf.upperPath, sf.workPath, sf.mountPath, sf.lowerPath,
    { sf.upperPath with comps := sf.upperPath.comps.dropLast }].foldl
    (fun disk path => if path.comps = [] then disk else tried rmdir (resolve cwd path) disk) disk

def discard (s : DiscardSteps) (proc : Proc) (w : World) : ExitCode × World :=
  match loadFor s.file proc kActionDiscard w with
  | .error code => (code, w)
  | .ok (sf, _) =>
    let disk :=
      if sf.backend = kOverlayUserland then
        if sf.upperPath = .empty then w.disk
        else tried removeTree (resolve proc.cwd sf.upperPath) w.disk
      else discardDirs proc.cwd sf w.disk
    (EX_OK, ⟨disk, if s.remove then none else w.stateFile⟩)

/-! ## Persist -/

/-- How the steps of `Persist` go. Where a file is written, a step that fails may leave some content
in it. -/
structure PersistSteps where
  file : FileSteps
  stat : Bool
  /-- The path of the temporary file is not too long. -/
  snprintf : Bool
  /-- `CopyFile` fails, and what it leaves. -/
  copyFails : Option (Option Bytes)
  truncate : Bool
  /-- What `mkdtemp` puts for the six X. -/
  suffix : Name
  mkdtemp : Bool
  merge : Bool
  chdir : Bool
  /-- The zip tool fails, and what it leaves. -/
  zipFails : Option (Option Bytes)
  rename : Bool

def readBareSize (zip : Option Node) : Int :=
  match sub zip [".bare_size"] with
  | some (.file b) =>
    if b = [] then -1
    else Libc.strtoll ((b.take 31).rdropWhile fun c => c == 0x0A || c == 0x0D || c == 0x20)
  | _ => -1

def PathName.tmp (p : PathName) : PathName :=
  { p with comps := p.comps.dropLast ++ [p.comps.getLastD "" ++ ".tmp"] }

def PersistSteps.staging (s : PersistSteps) : List Name := ["tmp", "toaster-merge-" ++ s.suffix]

def leave (left : Option Bytes) (p : List Name) (disk : Node) : Node :=
  match left with
  | none => disk
  | some b => tried (creat b) p disk

abbrev Stage := Except (ExitCode × Node) Node

section

-- the archive of a tree
variable (archive : Node → Bytes) (s : PersistSteps)

def copyBinary (bin tmp : List Name) (disk : Node) : Stage :=
  match s.copyFails, sub (some disk) bin with
  | some left, _ => .error (EX_IOERR, leave left tmp disk)
  | none, some (.file b) =>
    match sys (creat b) tmp disk with
    | .error _ => .error (EX_IOERR, disk)
    | .ok disk => .ok disk
  | none, some (.dir _ _) => .error (EX_IOERR, tried (creat []) tmp disk)
  | none, _ => .error (EX_IOERR, disk)

def stripZip (size : Nat) (tmp : List Name) (disk : Node) : Stage :=
  match attempt s.truncate (sys (truncate size) tmp disk) with
  | .error _ => .error (EX_IOERR, tried unlink tmp disk)
  | .ok disk => .ok disk

def makeStaging (tmp : List Name) (disk : Node) : Stage :=
  match attempt s.mkdtemp (sys mkdir s.staging disk) with
  | .error _ => .error (EX_CANTCREAT, tried unlink tmp disk)
  | .ok disk => .ok disk

def mergeContent (backend : OverlayBackend) (zip : Option Node) (upper tmp : List Name) (disk : Node) : Stage :=
  match attempt s.merge (stage backend zip (sub (some disk) upper)) with
  | .error _ => .error (EX_IOERR, tried unlink tmp (tried removeTree s.staging disk))
  | .ok merged =>
    match sys (fun _ => .ok (some merged)) s.staging disk with
    | .error _ => .error (EX_IOERR, tried unlink tmp (tried removeTree s.staging disk))
    | .ok disk => .ok disk

def enterStaging (tmp : List Name) (disk : Node) : Stage :=
  if s.chdir then .ok disk
  else .error (EX_IOERR, tried unlink tmp (tried removeTree s.staging disk))

/-- The zip tool opens its file with `O_CREAT` and adds the archive at its end. -/
def append (a : Bytes) : Change Name Bytes
  | none => .ok (some (.file a))
  | some (.file b) => .ok (some (.file (b ++ a)))
  | some (.dir _ _) => .error .isdir
  | some .special => .error .loop

def embed (tmp : List Name) (disk : Node) : Stage :=
  match s.zipFails, sub (some disk) s.staging with
  | some left, _ =>
    .error (EX_UNAVAILABLE, tried unlink tmp (tried removeTree s.staging (leave left tmp disk)))
  | none, none => .error (EX_UNAVAILABLE, tried unlink tmp (tried removeTree s.staging disk))
  | none, some merged =>
    match sys (append (archive merged)) tmp disk with
    | .error _ => .error (EX_UNAVAILABLE, tried unlink tmp (tried removeTree s.staging disk))
    | .ok disk => .ok (tried removeTree s.staging disk)

def swap (tmp bin : List Name) (disk : Node) : Stage :=
  match attempt s.rename (rename tmp bin disk) with
  | .error _ => .error (EX_IOERR, tried unlink tmp disk)
  | .ok disk => .ok disk

def prepare (proc : Proc) (sf : ToasterStateFile) (disk : Node) : Stage := do
  let upper := resolve proc.cwd sf.upperPath
  let bin := resolve proc.cwd sf.binaryPath
  let tmp := resolve proc.cwd sf.binaryPath.tmp
  if sf.upperPath = .empty then .error (EX_NOINPUT, disk)
  if !s.stat || (sub (some disk) upper).isNone then .error (EX_NOINPUT, disk)
  if readBareSize proc.zip ≤ 0 then .error (EX_NOINPUT, disk)
  if !s.snprintf then .error (EX_SOFTWARE, disk)
  let disk ← copyBinary s bin tmp disk
  let disk ← stripZip s (readBareSize proc.zip).toNat tmp disk
  let disk ← makeStaging s tmp disk
  let disk ← mergeContent s sf.backend proc.zip upper tmp disk
  enterStaging s tmp disk

/-- The steps after `chdir`: the same paths, as they are read in the staging directory. -/
def finish (sf : ToasterStateFile) (disk : Node) : Stage := do
  let bin := resolve s.staging sf.binaryPath
  let tmp := resolve s.staging sf.binaryPath.tmp
  let disk ← embed archive s tmp disk
  swap s tmp bin disk

def persist (proc : Proc) (w : World) : ExitCode × World :=
  match loadFor s.file proc kActionPersist w with
  | .error code => (code, w)
  | .ok (sf, next) =>
    match prepare s proc sf w.disk >>= finish archive s sf with
    | .error (code, disk) => (code, { w with disk })
    | .ok disk =>
      -- a failure to save is only warned about
      (EX_OK, ⟨disk, (saveStateFile s.file { sf with state := next } w.stateFile).1⟩)

end

end CosmoRuby.Caboose
