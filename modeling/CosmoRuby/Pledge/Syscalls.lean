import Mathlib.Data.BitVec

/-!
# System call numbers

The Linux system calls that the pledge tables name, with their numbers on the two architectures
that the library is built for. A call that an architecture lacks has no number there.
-/

namespace CosmoRuby.Pledge

inductive Arch where
  | x86_64
  | aarch64
deriving DecidableEq

inductive Syscall where
  | exit | archPrctl | sigreturn | restartSyscall | exitGroup | schedYield | schedGetaffinity
  | clockGetres | clockGettime | clockNanosleep | closeRange | close | write | writev | pwrite
  | pwritev | pwritev2 | read | readv | pread | preadv | preadv2 | dup | dup2 | dup3 | fchdir
  | fcntl | fstat | fsync | sysinfo | fdatasync | ftruncate | getrandom | getgroups | getpgid
  | getpgrp | getpid | gettid | getuid | getgid | getsid | getppid | geteuid | getegid | getrlimit
  | getresgid | getresuid | getitimer | setitimer | timerfdCreate | timerfdSettime | timerfdGettime
  | copyFileRange | gettimeofday | sendfile | vmsplice | splice | lseek | tee | brk | msync | mmap
  | mlock | mlock2 | munlock | mremap | munmap | mincore | madvise | fadvise | mprotect
  | migratePages | syncFileRange | setTidAddress | membarrier | nanosleep | pipe | pipe2 | poll
  | ppoll | select | pselect6 | epollCreate | epollCreate1 | epollCtl | epollWait | epollPwait
  | epollPwait2 | recvfrom | sendto | ioctl | alarm | pause | shutdown | eventfd | eventfd2
  | signalfd | signalfd4 | sigaction | sigaltstack | sigprocmask | sigsuspend | sigpending | kill
  | tkill | tgkill | socketpair | getrusage | times | umask | wait4 | uname | prctl | clone | futex
  | setRobustList | getRobustList | prlimit | schedSetaffinity | sigtimedwait | getcpu | rseq
  | flock | chdir | getcwd | open_ | openat | stat | lstat | fstatat | statx | access | faccessat
  | faccessat2 | readlink | readlinkat | statfs | fstatfs | getdents | oldgetdents | truncate
  | chmod | fchmod | fchmodat | creat | rename | renameat | renameat2 | link | linkat | symlink
  | symlinkat | rmdir | unlink | unlinkat | mkdir | mkdirat | mknod | mknodat | utime | utimes
  | futimesat | utimensat | socket | listen | bind | connect | accept | accept4 | getsockopt
  | setsockopt | getpeername | getsockname | recvmsg | sendmsg | recvmmsg | sendmmsg | fork | vfork
  | setsid | setpgid | setrlimit | getpriority | setpriority | ioprioGet | ioprioSet
  | schedGetscheduler | schedSetscheduler | schedGetPriorityMin | schedGetPriorityMax
  | schedGetparam | schedSetparam | setuid | setreuid | setresuid | setgid | setregid | setresgid
  | setgroups | setfsuid | setfsgid | chown | fchown | lchown | fchownat | settimeofday
  | clockAdjtime | execve | execveat | landlockCreateRuleset | landlockAddRule
  | landlockRestrictSelf | memfdSecret | memfdCreate | openat2 | clone3

/-- The numbers on x86-64 and on aarch64. -/
def on (x86 aarch64 : BitVec 16) : BitVec 16 × Option (BitVec 16) := (x86, some aarch64)

def Syscall.numbers : Syscall → BitVec 16 × Option (BitVec 16)
  | .exit => on 0x3c 0x5d
  | .archPrctl => (0x9e, none)
  | .sigreturn => on 0xf 0x8b
  | .restartSyscall => on 0xdb 0x80
  | .exitGroup => on 0xe7 0x5e
  | .schedYield => on 0x18 0x7c
  | .schedGetaffinity => on 0xcc 0x7b
  | .clockGetres => on 0xe5 0x72
  | .clockGettime => on 0xe4 0x71
  | .clockNanosleep => on 0xe6 0x73
  | .closeRange => on 0x1b4 0x1b4
  | .close => on 0x3 0x39
  | .write => on 0x1 0x40
  | .writev => on 0x14 0x42
  | .pwrite => on 0x12 0x44
  | .pwritev => on 0x128 0x46
  | .pwritev2 => on 0x148 0x11f
  | .read => on 0x0 0x3f
  | .readv => on 0x13 0x41
  | .pread => on 0x11 0x43
  | .preadv => on 0x127 0x45
  | .preadv2 => on 0x147 0x11e
  | .dup => on 0x20 0x17
  | .dup2 => (0x21, none)
  | .dup3 => on 0x124 0x18
  | .fchdir => on 0x51 0x32
  | .fcntl => on 0x48 0x19
  | .fstat => on 0x5 0x50
  | .fsync => on 0x4a 0x52
  | .sysinfo => on 0x63 0xb3
  | .fdatasync => on 0x4b 0x53
  | .ftruncate => on 0x4d 0x2e
  | .getrandom => on 0x13e 0x116
  | .getgroups => on 0x73 0x9e
  | .getpgid => on 0x79 0x9b
  | .getpgrp => (0x6f, none)
  | .getpid => on 0x27 0xac
  | .gettid => on 0xba 0xb2
  | .getuid => on 0x66 0xae
  | .getgid => on 0x68 0xb0
  | .getsid => on 0x7c 0x9c
  | .getppid => on 0x6e 0xad
  | .geteuid => on 0x6b 0xaf
  | .getegid => on 0x6c 0xb1
  | .getrlimit => on 0x61 0xa3
  | .getresgid => on 0x78 0x96
  | .getresuid => on 0x76 0x94
  | .getitimer => on 0x24 0x66
  | .setitimer => on 0x26 0x67
  | .timerfdCreate => on 0x11b 0x55
  | .timerfdSettime => on 0x11e 0x56
  | .timerfdGettime => on 0x11f 0x57
  | .copyFileRange => on 0x146 0x11d
  | .gettimeofday => on 0x60 0xa9
  | .sendfile => on 0x28 0x47
  | .vmsplice => on 0x116 0x4b
  | .splice => on 0x113 0x4c
  | .lseek => on 0x8 0x3e
  | .tee => on 0x114 0x4d
  | .brk => on 0xc 0xd6
  | .msync => on 0x1a 0xe3
  | .mmap => on 0x9 0xde
  | .mlock => on 0x95 0xe4
  | .mlock2 => on 0x145 0x11c
  | .munlock => on 0x96 0xe5
  | .mremap => on 0x19 0xd8
  | .munmap => on 0xb 0xd7
  | .mincore => on 0x1b 0xe8
  | .madvise => on 0x1c 0xe9
  | .fadvise => on 0xdd 0xdf
  | .mprotect => on 0xa 0xe2
  | .migratePages => on 0x100 0xee
  | .syncFileRange => on 0x115 0x54
  | .setTidAddress => on 0xda 0x60
  | .membarrier => on 0x144 0x11b
  | .nanosleep => on 0x23 0x65
  | .pipe => (0x16, none)
  | .pipe2 => on 0x125 0x3b
  | .poll => (0x7, none)
  | .ppoll => on 0x10f 0x49
  | .select => (0x17, none)
  | .pselect6 => on 0x10e 0x48
  | .epollCreate => (0xd5, none)
  | .epollCreate1 => on 0x123 0x14
  | .epollCtl => on 0xe9 0x15
  | .epollWait => (0xe8, none)
  | .epollPwait => on 0x119 0x16
  | .epollPwait2 => on 0x1b9 0x1b9
  | .recvfrom => on 0x2d 0xcf
  | .sendto => on 0x2c 0xce
  | .ioctl => on 0x10 0x1d
  | .alarm => (0x25, none)
  | .pause => (0x22, none)
  | .shutdown => on 0x30 0xd2
  | .eventfd => (0x11c, none)
  | .eventfd2 => on 0x122 0x13
  | .signalfd => (0x11a, none)
  | .signalfd4 => on 0x121 0x4a
  | .sigaction => on 0xd 0x86
  | .sigaltstack => on 0x83 0x84
  | .sigprocmask => on 0xe 0x87
  | .sigsuspend => on 0x82 0x85
  | .sigpending => on 0x7f 0x88
  | .kill => on 0x3e 0x81
  | .tkill => on 0xc8 0x82
  | .tgkill => on 0xea 0x83
  | .socketpair => on 0x35 0xc7
  | .getrusage => on 0x62 0xa5
  | .times => on 0x64 0x99
  | .umask => on 0x5f 0xa6
  | .wait4 => on 0x3d 0x104
  | .uname => on 0x3f 0xa0
  | .prctl => on 0x9d 0xa7
  | .clone => on 0x38 0xdc
  | .futex => on 0xca 0x62
  | .setRobustList => on 0x111 0x63
  | .getRobustList => on 0x112 0x64
  | .prlimit => on 0x12e 0x105
  | .schedSetaffinity => on 0xcb 0x7a
  | .sigtimedwait => on 0x80 0x89
  | .getcpu => on 0x135 0xa8
  | .rseq => on 0x14e 0x125
  | .flock => on 0x49 0x20
  | .chdir => on 0x50 0x31
  | .getcwd => on 0x4f 0x11
  | .open_ => on 0x2 0xb4
  | .openat => on 0x101 0x38
  | .stat => on 0x4 0x4f
  | .lstat => (0x6, none)
  | .fstatat => on 0x106 0x4f
  | .statx => on 0x14c 0x123
  | .access => (0x15, none)
  | .faccessat => on 0x10d 0x30
  | .faccessat2 => on 0x1b7 0x1b7
  | .readlink => (0x59, none)
  | .readlinkat => on 0x10b 0x4e
  | .statfs => on 0x89 0x2b
  | .fstatfs => on 0x8a 0x2c
  | .getdents => on 0xd9 0x3d
  | .oldgetdents => (0x4e, none)
  | .truncate => on 0x4c 0x2d
  | .chmod => (0x5a, none)
  | .fchmod => on 0x5b 0x34
  | .fchmodat => on 0x10c 0x35
  | .creat => (0x55, none)
  | .rename => (0x52, none)
  | .renameat => on 0x108 0x26
  | .renameat2 => on 0x13c 0x114
  | .link => (0x56, none)
  | .linkat => on 0x109 0x25
  | .symlink => (0x58, none)
  | .symlinkat => on 0x10a 0x24
  | .rmdir => (0x54, none)
  | .unlink => on 0x57 0xb5
  | .unlinkat => on 0x107 0x23
  | .mkdir => (0x53, none)
  | .mkdirat => on 0x102 0x22
  | .mknod => (0x85, none)
  | .mknodat => on 0x103 0x21
  | .utime => on 0x84 0x62
  | .utimes => on 0xeb 0x58
  | .futimesat => (0x105, none)
  | .utimensat => on 0x118 0x58
  | .socket => on 0x29 0xc6
  | .listen => on 0x32 0xc9
  | .bind => on 0x31 0xc8
  | .connect => on 0x2a 0xcb
  | .accept => on 0x2b 0xca
  | .accept4 => on 0x120 0xf2
  | .getsockopt => on 0x37 0xd1
  | .setsockopt => on 0x36 0xd0
  | .getpeername => on 0x34 0xcd
  | .getsockname => on 0x33 0xcc
  | .recvmsg => on 0x2f 0xd4
  | .sendmsg => on 0x2e 0xd3
  | .recvmmsg => on 0x12b 0xf3
  | .sendmmsg => on 0x133 0x10d
  | .fork => (0x39, none)
  | .vfork => (0x3a, none)
  | .setsid => on 0x70 0x9d
  | .setpgid => on 0x6d 0x9a
  | .setrlimit => on 0xa0 0xa4
  | .getpriority => on 0x8c 0x8d
  | .setpriority => on 0x8d 0x8c
  | .ioprioGet => on 0xfc 0x1f
  | .ioprioSet => on 0xfb 0x1e
  | .schedGetscheduler => on 0x91 0x78
  | .schedSetscheduler => on 0x90 0x77
  | .schedGetPriorityMin => on 0x93 0x7e
  | .schedGetPriorityMax => on 0x92 0x7d
  | .schedGetparam => on 0x8f 0x79
  | .schedSetparam => on 0x8e 0x76
  | .setuid => on 0x69 0x92
  | .setreuid => on 0x71 0x91
  | .setresuid => on 0x75 0x93
  | .setgid => on 0x6a 0x90
  | .setregid => on 0x72 0x8f
  | .setresgid => on 0x77 0x95
  | .setgroups => on 0x74 0x9f
  | .setfsuid => on 0x7a 0x97
  | .setfsgid => on 0x7b 0x98
  | .chown => (0x5c, none)
  | .fchown => on 0x5d 0x37
  | .lchown => (0x5e, none)
  | .fchownat => on 0x104 0x36
  | .settimeofday => on 0xa4 0xaa
  | .clockAdjtime => on 0x131 0x10a
  | .execve => on 0x3b 0xdd
  | .execveat => on 0x142 0x119
  | .landlockCreateRuleset => on 0x1bc 0x1bc
  | .landlockAddRule => on 0x1bd 0x1bd
  | .landlockRestrictSelf => on 0x1be 0x1be
  | .memfdSecret => (0x1bf, none)
  | .memfdCreate => on 0x13f 0x117
  | .openat2 => on 0x1b5 0x1b5
  | .clone3 => on 0x1b3 0x1b3

def Arch.number : Arch → Syscall → Option (BitVec 16)
  | .x86_64, s => some s.numbers.1
  | .aarch64, s => s.numbers.2

/-- `__NR_linux_…` as an operand. It is only read where the number is defined. -/
def Arch.nr (a : Arch) (s : Syscall) : BitVec 32 :=
  ((a.number s).getD 0xffff).setWidth 32

end CosmoRuby.Pledge
