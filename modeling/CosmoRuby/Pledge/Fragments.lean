import Mathlib
import CosmoRuby.Lib.Bpf
import CosmoRuby.Pledge.Tables

/-!
# Fragments of the pledge filter

The hand-written pieces of BPF code behind the special entries of the tables, and what the
comment above each of them says it allows.
-/

open CosmoRuby.Lib.Bpf

namespace CosmoRuby.Pledge

/-! ## 1. The record of a call -/

-- A call has six arguments; the numerals of `Fin 6` all use this instance.
instance neZeroSix : NeZero (6 : Nat) := ⟨by decide⟩

structure SeccompData where
  nr : BitVec 32
  arch : BitVec 32
  instructionPointer : BitVec 64
  args : Fin 6 → BitVec 64

def loWord (x : BitVec 64) : BitVec 32 :=
  x.setWidth 32

def hiWord (x : BitVec 64) : BitVec 32 :=
  (x >>> 32).setWidth 32

def SeccompData.words (d : SeccompData) : List (BitVec 32) :=
  [d.nr, d.arch, loWord d.instructionPointer, hiWord d.instructionPointer,
    loWord (d.args 0), hiWord (d.args 0), loWord (d.args 1), hiWord (d.args 1),
    loWord (d.args 2), hiWord (d.args 2), loWord (d.args 3), hiWord (d.args 3),
    loWord (d.args 4), hiWord (d.args 4), loWord (d.args 5), hiWord (d.args 5)]

def SeccompData.load (d : SeccompData) (off : Nat) : BitVec 32 :=
  d.words.getD (off / 4) 0

def offNr : Nat := 0

def offArch : Nat := 4

def offArgs (i : Nat) : Nat := 16 + 8 * i

def SeccompData.int (d : SeccompData) (i : Fin 6) : BitVec 32 :=
  loWord (d.args i)

theorem word_eq_zero_iff (x : BitVec 64) : x = 0 ↔ loWord x = 0 ∧ hiWord x = 0 := by
  constructor
  · rintro rfl
    exact ⟨rfl, rfl⟩
  · rintro ⟨hlo, hhi⟩
    have hl := congrArg BitVec.toNat hlo
    have hh := congrArg BitVec.toNat hhi
    have hx := x.isLt
    simp only [loWord, hiWord, BitVec.toNat_setWidth, BitVec.toNat_ushiftRight,
      Nat.shiftRight_eq_div_pow] at hl hh
    apply BitVec.eq_of_toNat_eq
    change x.toNat = 0
    change x.toNat % 2 ^ 32 = 0 at hl
    change x.toNat / 2 ^ 32 % 2 ^ 32 = 0 at hh
    omega

/-! ## 2. Answers -/

def retAllow : BitVec 32 := 0x7fff0000

def retKillProcess : BitVec 32 := 0x80000000

def retKillThread : BitVec 32 := 0

def retTrap : BitVec 32 := 0x00030000

def retErrno : BitVec 32 := 0x00050000

def retData : BitVec 32 := 0xffff

def eperm : BitVec 32 := 1

def enosys : BitVec 32 := 38

def sigabrt : BitVec 32 := 6

def sigsys : BitVec 32 := 31

/-! ## 3. Fragments with literal displacements -/

section Code

variable (a : Arch) (pid tid : BitVec 32)

def allowSelf (s : Syscall) : List Insn :=
  [.jeq (a.nr s) 0 4, .ld (offArgs 0), .jeq pid 0 1, .ret retAllow, .ld offNr]

def allowKillSelf : List Insn := allowSelf a pid .kill

def allowTgkillSelf : List Insn := allowSelf a pid .tgkill

def allowMonitor : List Insn :=
  [.jeq (a.nr .write) 0 4,
    .ld (offArgs 0),
    .jeq 2 0 1,
    .ret retAllow, .ld offNr,
    .jeq (a.nr .kill) 0 6,
    .ld (offArgs 0),
    .jeq pid 0 3,
    .ld (offArgs 1),
    .jeq sigabrt 0 1,
    .ret retAllow, .ld offNr,
    .jeq (a.nr .tkill) 0 6,
    .ld (offArgs 0),
    .jeq tid 0 3,
    .ld (offArgs 1),
    .jeq sigabrt 0 1,
    .ret retAllow, .ld offNr,
    .jeq (a.nr .sigaction) 0 4,
    .ld (offArgs 0),
    .jeq sigabrt 0 1,
    .ret retAllow, .ld offNr,
    .jeq (a.nr .sigreturn) 1 0,
    .jeq (a.nr .sigprocmask) 0 1,
    .ret retAllow]

def allowCloneRestrict : List Insn :=
  [.jeq (a.nr .clone) 0 5,
    .ld (offArgs 0), .and 0x00822000,
    .jeq 0 0 1,
    .ret retAllow, .ld offNr]

def allowCloneThread : List Insn :=
  [.jeq (a.nr .clone) 0 8,
    .ld (offArgs 0), .and 0x00010f00,
    .jeq 0x00010f00 0 4,
    .ld (offArgs 0), .and 0x00822000,
    .jeq 0 0 1,
    .ret retAllow, .ld offNr]

def allowIoctlStdio : List Insn :=
  [.jeq (a.nr .ioctl) 0 7,
    .ld (offArgs 1),
    .jeq 0x541b 3 0, .jeq 0x5421 2 0, .jeq 0x5451 1 0, .jeq 0x5450 0 1,
    .ret retAllow, .ld offNr]

def allowIoctlInet : List Insn :=
  [.jeq (a.nr .ioctl) 0 4,
    .ld (offArgs 1),
    .jeq 0x8905 0 1,
    .ret retAllow, .ld offNr]

def allowIoctlTty : List Insn :=
  [.jeq (a.nr .ioctl) 0 15,
    .ld (offArgs 1),
    .jeq 0x5401 11 0, .jeq 0x5402 10 0, .jeq 0x5403 9 0, .jeq 0x5404 8 0, .jeq 0x5413 7 0,
    .jeq 0x5410 6 0, .jeq 0x540f 5 0, .jeq 0x5414 4 0, .jeq 0x540b 3 0, .jeq 0x540a 2 0,
    .jeq 0x5409 1 0, .jeq 0x5427 0 1,
    .ret retAllow, .ld offNr]

def allowSetsockoptRestrict : List Insn :=
  [.jeq (a.nr .setsockopt) 0 25,
    .ld (offArgs 1),
    .jeq 41 3 0, .jeq 0 2 0, .jeq 1 1 0, .jeq 6 0 19,
    .ld (offArgs 2),
    .jeq 0x0c 16 0, .jeq 0x1a 15 0, .jeq 0x06 14 0, .jeq 0x0f 13 0, .jeq 0x03 12 0, .jeq 0x0c 11 0,
    .jeq 0x13 10 0, .jeq 0x02 9 0, .jeq 0x09 8 0, .jeq 0x14 7 0, .jeq 0x01 6 0, .jeq 0x0b 5 0,
    .jeq 0x04 4 0, .jeq 0x05 3 0, .jeq 0x17 2 0, .jeq 0x1e 1 0, .jeq 0x15 0 1,
    .ret retAllow, .ld offNr]

def allowGetsockoptRestrict : List Insn :=
  [.jeq (a.nr .getsockopt) 0 13,
    .ld (offArgs 1),
    .jeq 1 1 0,
    .jeq 6 0 9,
    .ld (offArgs 2),
    .jeq 0x03 6 0, .jeq 0x04 5 0, .jeq 0x0f 4 0, .jeq 0x02 3 0, .jeq 0x09 2 0, .jeq 0x14 1 0,
    .jeq 0x15 0 1,
    .ret retAllow, .ld offNr]

def allowMmapExec : List Insn :=
  [.jeq (a.nr .mmap) 0 5,
    .ld (offArgs 3), .and 0x52000,
    .jeq 0 0 1,
    .ret retAllow, .ld offNr]

def protRead : BitVec 32 := 1

def protWrite : BitVec 32 := 2

def allowMmapNoexec : List Insn :=
  [.jeq (a.nr .mmap) 0 8,
    .ld (offArgs 2), .and (~~~(protRead ||| protWrite)),
    .jeq 0 0 4,
    .ld (offArgs 3), .and 0x12000,
    .jeq 0 0 1,
    .ret retAllow, .ld offNr]

def allowMprotectNoexec : List Insn :=
  [.jeq (a.nr .mprotect) 0 5,
    .ld (offArgs 2), .and (~~~(protRead ||| protWrite)),
    .jeq 0 0 1,
    .ret retAllow, .ld offNr]

def oAccmode : BitVec 32 := 3

def oRdonly : BitVec 32 := 0

def oWronly : BitVec 32 := 1

def oRdwr : BitVec 32 := 2

/-- `AllowOpenReadonly` and `AllowOpenatReadonly`, which find the flags in different arguments. -/
def allowReadonly (s : Syscall) (flags : Nat) : List Insn :=
  [.jeq (a.nr s) 0 8,
    .ld (offArgs flags), .and oAccmode,
    .jeq oRdonly 0 4,
    .ld (offArgs flags), .and 0o20001100,
    .jeq 0 0 1,
    .ret retAllow, .ld offNr]

def allowOpenReadonly : List Insn := allowReadonly a .open_ 1

def allowOpenatReadonly : List Insn := allowReadonly a .openat 2

def allowWriteonly (s : Syscall) (flags : Nat) : List Insn :=
  [.jeq (a.nr s) 0 9,
    .ld (offArgs flags), .and oAccmode,
    .jeq oWronly 1 0,
    .jeq oRdwr 0 4,
    .ld (offArgs flags), .and 0o20000100,
    .jeq 0 0 1,
    .ret retAllow, .ld offNr]

def allowOpenWriteonly : List Insn := allowWriteonly a .open_ 1

def allowOpenatWriteonly : List Insn := allowWriteonly a .openat 2

def allowCreatonly (s : Syscall) (flags mode : Nat) : List Insn :=
  [.jeq (a.nr s) 0 11,
    .ld (offArgs flags), .and 0o100,
    .jeq 0o100 3 0,
    .ld (offArgs flags), .and 0o20200000,
    .jeq 0o20200000 0 3,
    .ld (offArgs mode), .and 0o7000,
    .jeq 0 0 1,
    .ret retAllow, .ld offNr]

def allowOpenCreatonly : List Insn := allowCreatonly a .open_ 1 2

def allowOpenatCreatonly : List Insn := allowCreatonly a .openat 2 3

def allowNobits (s : Syscall) (mode : Nat) : List Insn :=
  [.jeq (a.nr s) 0 5,
    .ld (offArgs mode), .and 0o7000,
    .jeq 0 0 1,
    .ret retAllow, .ld offNr]

def allowCreatRestrict : List Insn := allowNobits a .creat 1

def allowChmodNobits : List Insn := allowNobits a .chmod 1

def allowFchmodNobits : List Insn := allowNobits a .fchmod 1

def allowFchmodatNobits : List Insn := allowNobits a .fchmodat 2

def allowFcntlStdio : List Insn :=
  [.jeq (a.nr .fcntl) 0 5,
    .ld (offArgs 1),
    .jeq 1030 1 0,
    .jge 5 1 0,
    .ret retAllow, .ld offNr]

def allowFcntlLock : List Insn :=
  [.jeq (a.nr .fcntl) 0 9,
    .ld (offArgs 1),
    .jeq 0x05 5 0, .jeq 0x06 4 0, .jeq 0x07 3 0, .jeq 0x24 2 0, .jeq 0x25 1 0, .jeq 0x26 0 1,
    .ret retAllow, .ld offNr]

/-- `AllowSendtoAddrless` and `AllowPrlimitStdio`: both halves of a pointer are zero. -/
def allowNull (s : Syscall) (i : Nat) : List Insn :=
  [.jeq (a.nr s) 0 6,
    .ld (offArgs i + 0),
    .jeq 0 0 3,
    .ld (offArgs i + 4),
    .jeq 0 0 1,
    .ret retAllow, .ld offNr]

def allowSendtoAddrless : List Insn := allowNull a .sendto 4

def allowPrlimitStdio : List Insn := allowNull a .prlimit 2

def allowSocketInet : List Insn :=
  [.jeq (a.nr .socket) 0 14,
    .ld (offArgs 0),
    .jeq 0x02 1 0,
    .jeq 0x0a 0 10,
    .ld (offArgs 1), .and (~~~0x80800),
    .jeq 0x01 1 0,
    .jeq 0x02 0 6,
    .ld (offArgs 2),
    .jeq 0x00 3 0, .jeq 0x01 2 0, .jeq 0x06 1 0, .jeq 0x11 0 1,
    .ret retAllow, .ld offNr]

def allowSocketAnet : List Insn :=
  [.jeq (a.nr .socket) 0 12,
    .ld (offArgs 0),
    .jeq 0x02 1 0,
    .jeq 0x0a 0 8,
    .ld (offArgs 1), .and (~~~0x80800),
    .jeq 0x01 0 5,
    .ld (offArgs 2),
    .jeq 0x00 2 0, .jeq 0x01 1 0, .jeq 0x06 0 1,
    .ret retAllow, .ld offNr]

def allowSocketUnix : List Insn :=
  [.jeq (a.nr .socket) 0 10,
    .ld (offArgs 0),
    .jeq 1 0 7,
    .ld (offArgs 1), .and (~~~0x80800),
    .jeq 1 1 0,
    .jeq 2 0 3,
    .ld (offArgs 2),
    .jeq 0 0 1,
    .ret retAllow, .ld offNr]

def allowPrctlStdio : List Insn :=
  [.jeq (a.nr .prctl) 0 10,
    .ld (offArgs 0),
    .jeq 15 6 0, .jeq 16 5 0, .jeq 21 4 0, .jeq 22 3 0, .jeq 23 2 0, .jeq 24 1 0, .jeq 38 0 1,
    .ret retAllow, .ld offNr]

end Code

/-! ## 4. Special entries -/

/-- The special entries that `AppendPledge` knows, by their `case` labels. -/
inductive Special where
  | mmapExec | mmapNoexec | mprotectNoexec | chmodNobits | fchmodNobits | fchmodatNobits
  | prctlStdio | openCreatonly | openatCreatonly | openReadonly | openatReadonly | openWriteonly
  | openatWriteonly | setsockoptRestrict | getsockoptRestrict | creatRestrict | fcntlStdio
  | fcntlLock | ioctlRestrict | ioctlTty | ioctlInet | socketInet | socketAnet | socketUnix
  | sendtoAddrless | cloneRestrict | cloneThread | prlimitStdio | killSelf | tgkillSelf
deriving DecidableEq

def Special.all : List Special :=
  [.mmapExec, .mmapNoexec, .mprotectNoexec, .chmodNobits, .fchmodNobits, .fchmodatNobits,
    .prctlStdio, .openCreatonly, .openatCreatonly, .openReadonly, .openatReadonly, .openWriteonly,
    .openatWriteonly, .setsockoptRestrict, .getsockoptRestrict, .creatRestrict, .fcntlStdio,
    .fcntlLock, .ioctlRestrict, .ioctlTty, .ioctlInet, .socketInet, .socketAnet, .socketUnix,
    .sendtoAddrless, .cloneRestrict, .cloneThread, .prlimitStdio, .killSelf, .tgkillSelf]

def Special.label : Special → Entry
  | .mmapExec => ⟨.mmap, .exec⟩
  | .mmapNoexec => ⟨.mmap, .noexec⟩
  | .mprotectNoexec => ⟨.mprotect, .noexec⟩
  | .chmodNobits => ⟨.chmod, .nobits⟩
  | .fchmodNobits => ⟨.fchmod, .nobits⟩
  | .fchmodatNobits => ⟨.fchmodat, .nobits⟩
  | .prctlStdio => ⟨.prctl, .stdio⟩
  | .openCreatonly => ⟨.open_, .creatonly⟩
  | .openatCreatonly => ⟨.openat, .creatonly⟩
  | .openReadonly => ⟨.open_, .readonly⟩
  | .openatReadonly => ⟨.openat, .readonly⟩
  | .openWriteonly => ⟨.open_, .writeonly⟩
  | .openatWriteonly => ⟨.openat, .writeonly⟩
  | .setsockoptRestrict => ⟨.setsockopt, .restrict⟩
  | .getsockoptRestrict => ⟨.getsockopt, .restrict⟩
  | .creatRestrict => ⟨.creat, .restrict⟩
  | .fcntlStdio => ⟨.fcntl, .stdio⟩
  | .fcntlLock => ⟨.fcntl, .lock⟩
  | .ioctlRestrict => ⟨.ioctl, .restrict⟩
  | .ioctlTty => ⟨.ioctl, .tty⟩
  | .ioctlInet => ⟨.ioctl, .inet⟩
  | .socketInet => ⟨.socket, .inet⟩
  | .socketAnet => ⟨.socket, .anet⟩
  | .socketUnix => ⟨.socket, .unix⟩
  | .sendtoAddrless => ⟨.sendto, .addrless⟩
  | .cloneRestrict => ⟨.clone, .restrict⟩
  | .cloneThread => ⟨.clone, .thread⟩
  | .prlimitStdio => ⟨.prlimit, .stdio⟩
  | .killSelf => ⟨.kill, .self⟩
  | .tgkillSelf => ⟨.tgkill, .self⟩

def Special.fragment (a : Arch) (pid : BitVec 32) : Special → List Insn
  | .mmapExec => allowMmapExec a
  | .mmapNoexec => allowMmapNoexec a
  | .mprotectNoexec => allowMprotectNoexec a
  | .chmodNobits => allowChmodNobits a
  | .fchmodNobits => allowFchmodNobits a
  | .fchmodatNobits => allowFchmodatNobits a
  | .prctlStdio => allowPrctlStdio a
  | .openCreatonly => allowOpenCreatonly a
  | .openatCreatonly => allowOpenatCreatonly a
  | .openReadonly => allowOpenReadonly a
  | .openatReadonly => allowOpenatReadonly a
  | .openWriteonly => allowOpenWriteonly a
  | .openatWriteonly => allowOpenatWriteonly a
  | .setsockoptRestrict => allowSetsockoptRestrict a
  | .getsockoptRestrict => allowGetsockoptRestrict a
  | .creatRestrict => allowCreatRestrict a
  | .fcntlStdio => allowFcntlStdio a
  | .fcntlLock => allowFcntlLock a
  | .ioctlRestrict => allowIoctlStdio a
  | .ioctlTty => allowIoctlTty a
  | .ioctlInet => allowIoctlInet a
  | .socketInet => allowSocketInet a
  | .socketAnet => allowSocketAnet a
  | .socketUnix => allowSocketUnix a
  | .sendtoAddrless => allowSendtoAddrless a
  | .cloneRestrict => allowCloneRestrict a
  | .cloneThread => allowCloneThread a
  | .prlimitStdio => allowPrlimitStdio a
  | .killSelf => allowKillSelf a pid
  | .tgkillSelf => allowTgkillSelf a pid

def Special.ofWord (a : Arch) (w : BitVec 16) : Option Special :=
  Special.all.find? fun s => s.label.word a = some w

end CosmoRuby.Pledge
