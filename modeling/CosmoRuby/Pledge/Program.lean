import Mathlib
import CosmoRuby.Pledge.Filter

/-!
# What the program answers

The run of an assembled filter, for every call: the code in front sorts out calls of another
architecture and calls that are too new, each table decides by its own entries, and the code at the
end is reached with the number of the call in the accumulator.
-/

open CosmoRuby.Lib.Bpf

namespace CosmoRuby.Pledge

open List

def Filter.run (f : Filter) (d : SeccompData) : Outcome :=
  exec d.load f.p 0 0

/-! ## 1. The code in front -/

def Nosys (a : Arch) (nr : BitVec 32) : Prop :=
  firstUnknown a ≤ nr ∨ nr = a.nr .memfdCreate ∨ nr = a.nr .openat2 ∨ nr = a.nr .clone3

instance (a : Arch) (nr : BitVec 32) : Decidable (Nosys a nr) :=
  inferInstanceAs (Decidable (_ ∨ _))

theorem exec_kPledgeStart (a : Arch) (d : SeccompData) (acc : BitVec 32) :
    exec d.load (kPledgeStart a) 0 acc =
      if d.arch = architecture a then
        if Nosys a d.nr then .ret (retErrno ||| (enosys &&& retData)) else .through 0 d.nr
      else .ret retKillProcess := by
  set nosys := Outcome.ret (retErrno ||| (enosys &&& retData))
  have hexec : exec d.load (kPledgeStart a) 0 acc =
      if d.arch = architecture a then
        if firstUnknown a ≤ d.nr then nosys
        else if d.nr = a.nr .memfdCreate then nosys
        else if d.nr = a.nr .openat2 then nosys
        else if d.nr = a.nr .clone3 then nosys
        else .through 0 d.nr
      else .ret retKillProcess := rfl
  have hnosys : (if Nosys a d.nr then nosys else .through 0 d.nr) = _ := ite_or _ _ _ _
  rw [hexec, hnosys, ite_or, ite_or]

theorem decides_kFilterIgnoreExitGroup (a : Arch) (d : SeccompData) :
    Decides d.load d.nr (retErrno ||| (eperm &&& retData)) (kFilterIgnoreExitGroup a)
      (d.nr = a.nr .exitGroup) :=
  Decides.of_eq_ite rfl

structure Reaches (a : Arch) (ipromises : BitVec 64) (d : SeccompData) : Prop where
  arch : d.arch = architecture a
  known : ¬ Nosys a d.nr
  notExit : ¬ (ipromises = -1 ∧ d.nr = a.nr .exitGroup)

/-! ## 2. Tables -/

section Tables

variable (a : Arch) (pid : BitVec 32) (d : SeccompData)

def GrantsWord (w : BitVec 16) : Prop :=
  if IsSpecial w then ∃ s ∈ Special.ofWord a w, s.Granted a pid d else d.nr = w.setWidth 32

def listed (ipromises : BitVec 64) : List (BitVec 16) :=
  words a kPledgeDefault ++
    (Promise.all.filter fun p => Promised ipromises p).flatMap fun p => words a (kPledge p)

variable {a pid d} {p : List (BitVec 16)}

theorem mem_unspecials {k : BitVec 32} :
    k ∈ unspecials p ↔ ∃ w ∈ p, ¬ IsSpecial w ∧ k = w.setWidth 32 := by
  simp only [unspecials, mem_map, mem_filter, decide_eq_true_eq, and_assoc]
  exact exists_congr fun w => and_congr_right' (and_congr_right' eq_comm)

theorem mem_specials {s : Special} :
    s ∈ specials a p ↔ ∃ w ∈ p, IsSpecial w ∧ Special.ofWord a w = some s := by
  simp only [specials, mem_filterMap, mem_filter, decide_eq_true_eq, and_assoc]

theorem exists_grantsWord_iff (p : List (BitVec 16)) :
    (∃ w ∈ p, GrantsWord a pid d w) ↔
      d.nr ∈ unspecials p ∨ ∃ s ∈ specials a p, s.Granted a pid d := by
  rw [mem_unspecials]
  constructor
  · rintro ⟨w, hw, hgrants⟩
    by_cases hspecial : IsSpecial w
    · rw [GrantsWord, if_pos hspecial] at hgrants
      obtain ⟨s, hs, hgranted⟩ := hgrants
      exact .inr ⟨s, mem_specials.2 ⟨w, hw, hspecial, hs⟩, hgranted⟩
    · rw [GrantsWord, if_neg hspecial] at hgrants
      exact .inl ⟨w, hw, hspecial, hgrants⟩
  · rintro (⟨w, hw, hspecial, hnr⟩ | ⟨s, hs, hgranted⟩)
    · exact ⟨w, hw, by rw [GrantsWord, if_neg hspecial]; exact hnr⟩
    · obtain ⟨w, hw, hspecial, hof⟩ := mem_specials.1 hs
      exact ⟨w, hw, by rw [GrantsWord, if_pos hspecial]; exact ⟨s, hof, hgranted⟩⟩

theorem decides_pledgeCode (hp : Wf a p) :
    Decides d.load d.nr retAllow (pledgeCode a pid p) (∃ w ∈ p, GrantsWord a pid d w) := by
  have hplain : Decides d.load d.nr retAllow
      (if unspecials p = [] then [] else oneOf 1 (unspecials p) ++ [.ret retAllow])
      (d.nr ∈ unspecials p) := by
    by_cases hnil : unspecials p = []
    · rw [if_pos hnil, hnil]
      exact Decides.nil.congr (by simp)
    · have hlen : (unspecials p).length ≤ 256 := by
        rw [length_unspecials]
        exact hp.small.le
      rw [if_neg hnil]
      exact Decides.oneOf (unspecials p) hnil hlen
  have hspecial : Decides d.load d.nr retAllow
      ((specials a p).flatMap (Special.fragment a pid)) (∃ s ∈ specials a p, s.Granted a pid d) :=
    Decides.flatMap fun s _ => s.decides
  exact (hplain.append hspecial).congr (exists_grantsWord_iff p).symm

theorem decides_tables (ipromises : BitVec 64) :
    Decides d.load d.nr retAllow
      (pledgeCode a pid (words a kPledgeDefault) ++ promisesCode a pid ipromises Promise.all)
      (∃ w ∈ listed a ipromises, GrantsWord a pid d w) := by
  have hpromises : Decides d.load d.nr retAllow (promisesCode a pid ipromises Promise.all)
      (∃ p ∈ Promise.all.filter fun p => Promised ipromises p,
        ∃ w ∈ words a (kPledge p), GrantsWord a pid d w) :=
    Decides.flatMap fun p _ => decides_pledgeCode (wf_kPledge a p)
  refine ((decides_pledgeCode (wf_default a)).append hpromises).congr ?_
  simp only [listed, mem_append, mem_flatMap, or_and_right, exists_or]
  apply or_congr Iff.rfl
  constructor
  · rintro ⟨p, hp, w, hw, hgrants⟩
    exact ⟨w, ⟨p, hp, hw⟩, hgrants⟩
  · rintro ⟨w, ⟨p, hp, hw⟩, hgrants⟩
    exact ⟨p, hp, w, hw, hgrants⟩

end Tables

/-! ## 3. Whole programs -/

section Body

variable {a : Arch} {pid : BitVec 32} {d : SeccompData} {ipromises : BitVec 64}

theorem exec_body (h : Reaches a ipromises d) (t : List Insn) (acc : BitVec 32) :
    exec d.load (body a pid ipromises ++ t) 0 acc =
      (exec d.load (pledgeCode a pid (words a kPledgeDefault) ++
        promisesCode a pid ipromises Promise.all) 0 d.nr).andThen (exec d.load t) := by
  have hexit : exec d.load (if ipromises = -1 then kFilterIgnoreExitGroup a else []) 0 d.nr =
      .through 0 d.nr := by
    split_ifs with hempty
    · exact (decides_kFilterIgnoreExitGroup a d).falls fun hnr => h.notExit ⟨hempty, hnr⟩
    · rfl
  rw [body, exec_append, exec_append, exec_kPledgeStart, if_pos h.arch, if_neg h.known]
  simp only [Outcome.andThen]
  rw [exec_append, hexit]
  simp only [Outcome.andThen]

theorem exec_body_of_grants (h : Reaches a ipromises d)
    (hgrants : ∃ w ∈ listed a ipromises, GrantsWord a pid d w) (t : List Insn) (acc : BitVec 32) :
    exec d.load (body a pid ipromises ++ t) 0 acc = .ret retAllow := by
  rw [exec_body h, (decides_tables ipromises).answers hgrants]
  rfl

theorem exec_body_of_not_grants (h : Reaches a ipromises d)
    (hgrants : ¬ ∃ w ∈ listed a ipromises, GrantsWord a pid d w) (t : List Insn)
    (acc : BitVec 32) :
    exec d.load (body a pid ipromises ++ t) 0 acc = exec d.load t 0 d.nr := by
  rw [exec_body h, (decides_tables ipromises).falls hgrants]
  rfl

theorem reaches_of_allowed {t : List Insn} {acc : BitVec 32}
    (h : exec d.load (body a pid ipromises ++ t) 0 acc = .ret retAllow) :
    Reaches a ipromises d := by
  rw [body, exec_append, exec_append, exec_kPledgeStart] at h
  by_cases harch : d.arch = architecture a
  · by_cases hknown : Nosys a d.nr
    · rw [if_pos harch, if_pos hknown] at h
      exact absurd (Outcome.ret.inj h) (by decide)
    · refine ⟨harch, hknown, ?_⟩
      rintro ⟨hempty, hexit⟩
      rw [if_pos harch, if_neg hknown, if_pos hempty] at h
      simp only [Outcome.andThen] at h
      rw [exec_append, (decides_kFilterIgnoreExitGroup a d).answers hexit] at h
      exact absurd (Outcome.ret.inj h) (by decide)
  · rw [if_neg harch] at h
    exact absurd (Outcome.ret.inj h) (by decide)

end Body

/-! ## 4. The monitor -/

section Monitor

variable {a : Arch} {c : Caller} {d : SeccompData} {mode : BitVec 32}

def MonitorGrants (a : Arch) (c : Caller) (d : SeccompData) : Prop :=
  d.nr = a.nr .write ∧ d.int 0 = 2 ∨
    d.nr = a.nr .kill ∧ d.int 0 = c.pid ∧ d.int 1 = sigabrt ∨
    d.nr = a.nr .tkill ∧ d.int 0 = c.tid ∧ d.int 1 = sigabrt ∨
    d.nr = a.nr .sigaction ∧ d.int 0 = sigabrt ∨
    d.nr ∈ [a.nr .sigreturn, a.nr .sigprocmask]

theorem decides_argEq (s : Syscall) (i : Fin 6) (k : BitVec 32) :
    Decides d.load d.nr retAllow (guarded (a.nr s) retAllow offNr [argIn i [k]])
      (d.nr = a.nr s ∧ d.int i = k) :=
  decides_checks (passes_one (passes_argIn.trans mem_singleton)) rfl
    ⟨by simp [Check.Wf, argIn], Nat.lt_of_sub_eq_succ rfl⟩

theorem decides_argsEq (s : Syscall) (i j : Fin 6) (k l : BitVec 32) :
    Decides d.load d.nr retAllow (guarded (a.nr s) retAllow offNr [argIn i [k], argIn j [l]])
      (d.nr = a.nr s ∧ d.int i = k ∧ d.int j = l) :=
  decides_checks (passes_cons (passes_argIn.trans mem_singleton)
      (passes_one (passes_argIn.trans mem_singleton))) rfl
    ⟨by simp [Check.Wf, argIn], Nat.lt_of_sub_eq_succ rfl⟩

theorem decides_allowMonitor :
    Decides d.load d.nr retAllow (allowMonitor a c.pid c.tid) (MonitorGrants a c d) :=
  (decides_argEq .write 0 2).append <|
    (decides_argsEq .kill 0 1 c.pid sigabrt).append <|
      (decides_argsEq .tkill 0 1 c.tid sigabrt).append <|
        (decides_argEq .sigaction 0 sigabrt).append <|
          Decides.oneOf [a.nr .sigreturn, a.nr .sigprocmask] (by simp) (by simp)

theorem trap_ne_allow (mode : BitVec 32) : retTrap ||| (mode &&& retData) ≠ retAllow := by
  intro h
  have hbit := congrArg (BitVec.getLsbD · 30) h
  simp [retTrap, retData, retAllow] at hbit

theorem penalty_ne_allow {k : BitVec 32} (h : penalty mode = some k) : k ≠ retAllow := by
  unfold penalty at h
  split_ifs at h <;> cases h <;> decide

theorem monitorGrants_of_ending {t : List Insn} (ht : ending a c mode = .ok t)
    (h : exec d.load t 0 d.nr = .ret retAllow) : MonitorGrants a c d := by
  unfold ending at ht
  split at ht <;> rename_i hlogging
  · split at ht <;> rename_i hmonitors
    · cases ht
      by_contra hgrants
      rw [exec_append, decides_allowMonitor.falls hgrants] at h
      exact trap_ne_allow mode (Outcome.ret.inj h)
    · cases ht
  · cases hk : penalty mode with
    | none => rw [hk] at ht; cases ht
    | some k =>
      rw [hk] at ht
      cases ht
      exact absurd (Outcome.ret.inj h) (penalty_ne_allow hk)

end Monitor

section

variable {a : Arch} {c : Caller} {ipromises : BitVec 64} {mode : BitVec 32} {f : Filter} {d : SeccompData}
  (hf : sysPledgeLinux a c ipromises mode = .ok f)
include hf

theorem grants_of_run (h : f.run d = .ret retAllow) :
    (∃ w ∈ listed a ipromises, GrantsWord a c.pid d w) ∨ MonitorGrants a c d := by
  obtain ⟨t, ht, hp⟩ := eq_program hf
  rw [Filter.run, hp] at h
  by_cases hgrants : ∃ w ∈ listed a ipromises, GrantsWord a c.pid d w
  · exact .inl hgrants
  · rw [exec_body_of_not_grants (reaches_of_allowed h) hgrants] at h
    exact .inr (monitorGrants_of_ending ht h)

theorem run_of_grants (hreaches : Reaches a ipromises d)
    (hgrants : ∃ w ∈ listed a ipromises, GrantsWord a c.pid d w) : f.run d = .ret retAllow := by
  obtain ⟨t, -, hp⟩ := eq_program hf
  rw [Filter.run, hp]
  exact exec_body_of_grants hreaches hgrants t 0

end

/-! ## 5. Sizes -/

def Special.size (s : Special) : Nat :=
  (s.fragment .x86_64 0).length

theorem Special.length_fragment (a : Arch) (pid : BitVec 32) (s : Special) :
    (s.fragment a pid).length = s.size := by
  cases s <;> rfl

def codeSize (a : Arch) (p : List (BitVec 16)) : Nat :=
  (if countUnspecial p = 0 then 0 else countUnspecial p + 1) +
    ((specials a p).map Special.size).sum

theorem length_pledgeCode (a : Arch) (pid : BitVec 32) (p : List (BitVec 16)) :
    (pledgeCode a pid p).length = codeSize a p := by
  have hlen := length_unspecials p
  have hspecial : ((specials a p).flatMap (Special.fragment a pid)).length =
      ((specials a p).map Special.size).sum := by
    rw [length_flatMap]
    exact congrArg List.sum (map_congr_left fun s _ => s.length_fragment a pid)
  rw [pledgeCode, codeSize, length_append, hspecial]
  by_cases hnil : unspecials p = []
  · rw [if_pos hnil, if_pos (by rw [← hlen, hnil]; rfl)]
    rfl
  · rw [if_neg hnil, if_neg (by rw [← hlen]; exact fun h => hnil (List.length_eq_zero_iff.1 h)),
      length_append, length_oneOf, hlen]
    rfl

def weight : Arch → Promise → Nat
  | .x86_64, .stdio => 186
  | .x86_64, .rpath => 35
  | .x86_64, .wpath => 50
  | .x86_64, .cpath => 43
  | .x86_64, .dpath => 3
  | .x86_64, .fattr => 23
  | .x86_64, .proc => 25
  | .x86_64, .tmppath => 4
  | .x86_64, .chown => 5
  | .aarch64, .stdio => 174
  | .aarch64, .rpath => 31
  | .aarch64, .wpath => 42
  | .aarch64, .cpath => 32
  | .aarch64, .dpath => 2
  | .aarch64, .fattr => 16
  | .aarch64, .proc => 23
  | .aarch64, .tmppath => 3
  | .aarch64, .chown => 3
  | _, .flock => 12
  | _, .inet => 69
  | _, .unix => 60
  | _, .dns => 60
  | _, .tty => 16
  | _, .recvfd => 3
  | _, .exec => 3
  | _, .id => 14
  | _, .unveil => 4
  | _, .sendfd => 3
  | _, .settime => 3
  | _, .protExec => 8
  | _, .vminfo => 2
  | _, .anet => 66

theorem codeSize_tables : ∀ a p, codeSize a (words a (kPledge p)) = weight a p := by
  decide +kernel

theorem length_promisesCode (a : Arch) (pid : BitVec 32) (ipromises : BitVec 64) :
    (promisesCode a pid ipromises Promise.all).length =
      ((Promise.all.filter fun p => Promised ipromises p).map (weight a)).sum := by
  rw [promisesCode, length_flatMap]
  refine congrArg List.sum (map_congr_left fun p _ => ?_)
  rw [length_pledgeCode]
  exact codeSize_tables a p

end CosmoRuby.Pledge