import CosmoRuby.Pledge.Syscalls

/-!
# The pledge tables

Which system calls each promise allows. An entry with special bits allows its call only for some
arguments.
-/

namespace CosmoRuby.Pledge

/-! ## 1. Entries -/

def special : BitVec 16 := 0xf000

/-- The special bits that an entry may have. Different calls use one bit in different senses. -/
inductive Bits where
  | none
  | self | addrless | inet | anet | lock | noexec | exec | readonly | writeonly | creatonly | stdio
  | thread | tty | unix | nobits | restrict
deriving DecidableEq

def Bits.word : Bits → BitVec 16
  | .none => 0
  | .self => 0x8000
  | .addrless => 0x2000
  | .inet => 0x2000
  | .anet => 0x8000
  | .lock => 0x4000
  | .noexec => 0x8000
  | .exec => 0x4000
  | .readonly => 0x8000
  | .writeonly => 0x4000
  | .creatonly => 0x2000
  | .stdio => 0x8000
  | .thread => 0x8000
  | .tty => 0x8000
  | .unix => 0x4000
  | .nobits => 0x8000
  | .restrict => 0x1000

structure Entry where
  sys : Syscall
  bits : Bits

def Entry.word (a : Arch) (e : Entry) : Option (BitVec 16) :=
  (a.number e.sys).map (· ||| e.bits.word)

def plain (s : Syscall) : Entry :=
  ⟨s, .none⟩

/-! ## 2. Tables -/

def kPledgeDefault : List Entry :=
  [plain .exit, plain .archPrctl]

def kPledgeStdio : List Entry :=
  [plain .sigreturn, plain .restartSyscall, plain .exitGroup, plain .schedYield,
    plain .schedGetaffinity, plain .clockGetres, plain .clockGettime, plain .clockNanosleep,
    plain .closeRange, plain .close, plain .write, plain .writev, plain .pwrite, plain .pwritev,
    plain .pwritev2, plain .read, plain .readv, plain .pread, plain .preadv, plain .preadv2,
    plain .dup, plain .dup2, plain .dup3, plain .fchdir, ⟨.fcntl, .stdio⟩, plain .fstat,
    plain .fsync, plain .sysinfo, plain .fdatasync, plain .ftruncate, plain .getrandom,
    plain .getgroups, plain .getpgid, plain .getpgrp, plain .getpid, plain .gettid, plain .getuid,
    plain .getgid, plain .getsid, plain .getppid, plain .geteuid, plain .getegid, plain .getrlimit,
    plain .getresgid, plain .getresuid, plain .getitimer, plain .setitimer, plain .timerfdCreate,
    plain .timerfdSettime, plain .timerfdGettime, plain .copyFileRange, plain .gettimeofday,
    plain .sendfile, plain .vmsplice, plain .splice, plain .lseek, plain .tee, plain .brk,
    plain .msync, ⟨.mmap, .noexec⟩, plain .mlock, plain .mlock2, plain .munlock, plain .mremap,
    plain .munmap, plain .mincore, plain .madvise, plain .fadvise, ⟨.mprotect, .noexec⟩,
    plain .archPrctl, plain .migratePages, plain .syncFileRange, plain .setTidAddress,
    plain .membarrier, plain .nanosleep, plain .pipe, plain .pipe2, plain .poll, plain .ppoll,
    plain .select, plain .pselect6, plain .epollCreate, plain .epollCreate1, plain .epollCtl,
    plain .epollWait, plain .epollPwait, plain .epollPwait2, plain .recvfrom, ⟨.sendto, .addrless⟩,
    ⟨.ioctl, .restrict⟩, plain .alarm, plain .pause, plain .shutdown, plain .eventfd,
    plain .eventfd2, plain .signalfd, plain .signalfd4, plain .sigaction, plain .sigaltstack,
    plain .sigprocmask, plain .sigsuspend, plain .sigpending, ⟨.kill, .self⟩, plain .tkill,
    ⟨.tgkill, .self⟩, plain .socketpair, plain .getrusage, plain .times, plain .umask,
    plain .wait4, plain .uname, ⟨.prctl, .stdio⟩, ⟨.clone, .thread⟩, plain .futex,
    plain .setRobustList, plain .getRobustList, ⟨.prlimit, .stdio⟩, plain .schedGetaffinity,
    plain .schedSetaffinity, plain .sigtimedwait, plain .getcpu, plain .rseq]

def kPledgeFlock : List Entry :=
  [plain .flock, ⟨.fcntl, .lock⟩]

def kPledgeRpath : List Entry :=
  [plain .chdir, plain .getcwd, ⟨.open_, .readonly⟩, ⟨.openat, .readonly⟩, plain .stat,
    plain .lstat, plain .fstat, plain .fstatat, plain .statx, plain .access, plain .faccessat,
    plain .faccessat2, plain .readlink, plain .readlinkat, plain .statfs, plain .fstatfs,
    plain .getdents, plain .oldgetdents]

def kPledgeWpath : List Entry :=
  [plain .getcwd, ⟨.open_, .writeonly⟩, ⟨.openat, .writeonly⟩, plain .stat, plain .fstat,
    plain .lstat, plain .fstatat, plain .statx, plain .access, plain .truncate, plain .faccessat,
    plain .faccessat2, plain .readlinkat, ⟨.chmod, .nobits⟩, ⟨.fchmod, .nobits⟩,
    ⟨.fchmodat, .nobits⟩]

def kPledgeCpath : List Entry :=
  [⟨.open_, .creatonly⟩, ⟨.openat, .creatonly⟩, ⟨.creat, .restrict⟩, plain .rename,
    plain .renameat, plain .renameat2, plain .link, plain .linkat, plain .symlink,
    plain .symlinkat, plain .rmdir, plain .unlink, plain .unlinkat, plain .mkdir, plain .mkdirat]

def kPledgeDpath : List Entry :=
  [plain .mknod, plain .mknodat]

def kPledgeFattr : List Entry :=
  [⟨.chmod, .nobits⟩, ⟨.fchmod, .nobits⟩, ⟨.fchmodat, .nobits⟩, plain .utime, plain .utimes,
    plain .futimesat, plain .utimensat]

def kPledgeInet : List Entry :=
  [⟨.socket, .inet⟩, plain .listen, plain .bind, plain .sendto, plain .connect, plain .accept,
    plain .accept4, ⟨.ioctl, .inet⟩, ⟨.getsockopt, .restrict⟩, ⟨.setsockopt, .restrict⟩,
    plain .getpeername, plain .getsockname]

def kPledgeAnet : List Entry :=
  [⟨.socket, .anet⟩, plain .listen, plain .bind, plain .sendto, plain .accept, plain .accept4,
    ⟨.ioctl, .inet⟩, ⟨.getsockopt, .restrict⟩, ⟨.setsockopt, .restrict⟩, plain .getpeername,
    plain .getsockname]

def kPledgeUnix : List Entry :=
  [⟨.socket, .unix⟩, plain .listen, plain .bind, plain .connect, plain .sendto, plain .accept,
    plain .accept4, ⟨.getsockopt, .restrict⟩, ⟨.setsockopt, .restrict⟩, plain .getpeername,
    plain .getsockname]

def kPledgeDns : List Entry :=
  [⟨.socket, .inet⟩, plain .bind, plain .sendto, plain .connect, plain .recvfrom,
    ⟨.setsockopt, .restrict⟩, plain .fstatat, ⟨.openat, .readonly⟩, plain .read, plain .close,
    plain .recvmsg, plain .sendmsg]

def kPledgeTty : List Entry :=
  [⟨.ioctl, .tty⟩]

def kPledgeRecvfd : List Entry :=
  [plain .recvmsg, plain .recvmmsg]

def kPledgeSendfd : List Entry :=
  [plain .sendmsg, plain .sendmmsg]

def kPledgeProc : List Entry :=
  [plain .fork, plain .vfork, ⟨.clone, .restrict⟩, plain .kill, plain .tgkill, plain .setsid,
    plain .setpgid, plain .prlimit, plain .setrlimit, plain .getpriority, plain .setpriority,
    plain .ioprioGet, plain .ioprioSet, plain .schedGetscheduler, plain .schedSetscheduler,
    plain .schedGetPriorityMin, plain .schedGetPriorityMax, plain .schedGetparam,
    plain .schedSetparam]

def kPledgeId : List Entry :=
  [plain .setuid, plain .setreuid, plain .setresuid, plain .setgid, plain .setregid,
    plain .setresgid, plain .setgroups, plain .prlimit, plain .setrlimit, plain .getpriority,
    plain .setpriority, plain .setfsuid, plain .setfsgid]

def kPledgeChown : List Entry :=
  [plain .chown, plain .fchown, plain .lchown, plain .fchownat]

def kPledgeSettime : List Entry :=
  [plain .settimeofday, plain .clockAdjtime]

def kPledgeProtExec : List Entry :=
  [⟨.mmap, .exec⟩, plain .mprotect]

def kPledgeExec : List Entry :=
  [plain .execve, plain .execveat]

def kPledgeUnveil : List Entry :=
  [plain .landlockCreateRuleset, plain .landlockAddRule, plain .landlockRestrictSelf]

def kPledgeVminfo : List Entry :=
  [plain .schedYield]

def kPledgeTmppath : List Entry :=
  [plain .lstat, plain .unlink, plain .unlinkat]

/-! ## 3. Promises -/

inductive Promise where
  | stdio | rpath | wpath | cpath | dpath | flock | fattr | inet | unix | dns | tty | recvfd | proc
  | exec | id | unveil | sendfd | settime | protExec | vminfo | tmppath | chown | anet
deriving DecidableEq

def Promise.all : List Promise :=
  [.stdio, .rpath, .wpath, .cpath, .dpath, .flock, .fattr, .inet, .unix, .dns, .tty, .recvfd, .proc,
    .exec, .id, .unveil, .sendfd, .settime, .protExec, .vminfo, .tmppath, .chown, .anet]

def Promise.index : Promise → Nat
  | .stdio => 0
  | .rpath => 1
  | .wpath => 2
  | .cpath => 3
  | .dpath => 4
  | .flock => 5
  | .fattr => 6
  | .inet => 7
  | .unix => 8
  | .dns => 9
  | .tty => 10
  | .recvfd => 11
  | .proc => 12
  | .exec => 13
  | .id => 14
  | .unveil => 15
  | .sendfd => 16
  | .settime => 17
  | .protExec => 18
  | .vminfo => 19
  | .tmppath => 20
  | .chown => 21
  | .anet => 22

def kPledge : Promise → List Entry
  | .stdio => kPledgeStdio
  | .rpath => kPledgeRpath
  | .wpath => kPledgeWpath
  | .cpath => kPledgeCpath
  | .dpath => kPledgeDpath
  | .flock => kPledgeFlock
  | .fattr => kPledgeFattr
  | .inet => kPledgeInet
  | .anet => kPledgeAnet
  | .unix => kPledgeUnix
  | .dns => kPledgeDns
  | .tty => kPledgeTty
  | .recvfd => kPledgeRecvfd
  | .sendfd => kPledgeSendfd
  | .proc => kPledgeProc
  | .exec => kPledgeExec
  | .id => kPledgeId
  | .unveil => kPledgeUnveil
  | .settime => kPledgeSettime
  | .protExec => kPledgeProtExec
  | .vminfo => kPledgeVminfo
  | .tmppath => kPledgeTmppath
  | .chown => kPledgeChown

def words (a : Arch) (table : List Entry) : List (BitVec 16) :=
  table.filterMap (Entry.word a)

/-- Whether a mask, which has the bits of the promises that are *not* made, makes a promise. -/
def Promised (ipromises : BitVec 64) (p : Promise) : Prop :=
  ~~~ipromises &&& (1 <<< p.index) ≠ 0

instance (ipromises : BitVec 64) (p : Promise) : Decidable (Promised ipromises p) :=
  inferInstanceAs (Decidable (_ ≠ _))

theorem Promise.mem_all (p : Promise) : p ∈ Promise.all := by
  cases p <;> decide

end CosmoRuby.Pledge
