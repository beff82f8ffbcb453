import Mathlib
import CosmoRuby.Pledge.Program

/-!
# What the tables say and what the filter does

The tables with the comments of the fragments are a list of the calls that are to be allowed. The
filter allows these, but also calls that slip through three fragments, and it cannot be assembled
for promises whose code is larger than the buffer. For two promises it allows more than the manual
of `pledge()` says.
-/

open CosmoRuby.Lib.Bpf

namespace CosmoRuby.Pledge

open List

/-! ## 1. Words and the calls that they list -/

section Words

variable (a : Arch) (pid : BitVec 32) (ipromises : BitVec 64) (d : SeccompData)

/-- A word of a table lists the call: its number, and where there are special bits also arguments
as the comment above the fragment for them has it. -/
def ListsWord (w : BitVec 16) : Prop :=
  if IsSpecial w then
    d.nr = (w &&& ~~~special).setWidth 32 ∧ ∃ s ∈ Special.ofWord a w, s.Documented pid d
  else d.nr = w.setWidth 32

def Listed : Prop :=
  ∃ w ∈ listed a ipromises, ListsWord a pid d w

def SlipsThrough : Prop :=
  (Promised ipromises .inet ∨ Promised ipromises .anet ∨ Promised ipromises .unix ∨
      Promised ipromises .dns) ∧
      d.nr = a.nr .setsockopt ∧ SockoptSlip (d.int 1) (d.int 2) ∨
    Promised ipromises .cpath ∧
      (d.nr = a.nr .open_ ∧ TmpfileSlip (d.int 1) (d.int 2) ∨
        d.nr = a.nr .openat ∧ TmpfileSlip (d.int 2) (d.int 3))

instance : Decidable (SlipsThrough a ipromises d) :=
  inferInstanceAs (Decidable (_ ∨ _))

def Fits : Prop :=
  ((Promise.all.filter fun p => Promised ipromises p).map (weight a)).sum ≤ 687

instance : Decidable (Fits a ipromises) :=
  inferInstanceAs (Decidable (_ ≤ _))

variable {a pid ipromises d} {w : BitVec 16}

theorem nr_of_label {s : Special} (h : s.label.word a = some w) :
    (w &&& ~~~special).setWidth 32 = a.nr s.label.sys := by
  cases a <;> cases s <;> first | (cases h; rfl) | cases h

theorem label_of_ofWord {s : Special} (h : Special.ofWord a w = some s) : s.label.word a = some w := by
  have hfound := List.find?_some h
  exact of_decide_eq_true hfound

theorem grantsWord_iff (w : BitVec 16) :
    GrantsWord a pid d w ↔ ListsWord a pid d w ∨
      IsSpecial w ∧ ∃ s ∈ Special.ofWord a w, d.nr = a.nr s.label.sys ∧ s.Slips d := by
  by_cases hspecial : IsSpecial w
  · simp only [GrantsWord, ListsWord, hspecial, if_true, true_and, Special.Granted]
    cases hof : Special.ofWord a w with
    | none => simp
    | some s =>
      have hnr := nr_of_label (label_of_ofWord hof)
      simp only [Option.mem_some_iff, exists_eq_left', hnr]
      exact and_or_left
  · simp only [GrantsWord, ListsWord, hspecial, if_false, false_and, or_false]

theorem mem_listed :
    w ∈ listed a ipromises ↔
      w ∈ words a kPledgeDefault ∨ ∃ p, Promised ipromises p ∧ w ∈ words a (kPledge p) := by
  simp only [listed, mem_append, mem_flatMap, mem_filter, Promise.mem_all, true_and,
    decide_eq_true_eq]

theorem exists_table_of_mem_listed (h : w ∈ listed a ipromises) :
    ∃ t ∈ kPledgeDefault :: Promise.all.map kPledge, w ∈ words a t := by
  rcases mem_listed.1 h with hdefault | ⟨p, -, hp⟩
  · exact ⟨kPledgeDefault, mem_cons_self, hdefault⟩
  · exact ⟨kPledge p, mem_cons_of_mem _ (mem_map_of_mem p.mem_all), hp⟩

end Words

/-! ## 2. Facts about the tables -/

theorem not_mem_unspecials : ∀ a : Arch, ∀ t ∈ kPledgeDefault :: Promise.all.map kPledge,
    ∀ s ∈ [Syscall.setsockopt, .open_, .openat], a.nr s ∉ unspecials (words a t) := by
  decide +kernel

instance : Fintype Special := .ofList Special.all fun s => by cases s <;> decide

theorem specials_of_nr : ∀ (a : Arch) (s : Special),
    (a.nr s.label.sys = a.nr .setsockopt → s = .setsockoptRestrict) ∧
      (a.nr s.label.sys = a.nr .open_ → s = .openCreatonly ∨ s = .openReadonly ∨ s = .openWriteonly) ∧
      (a.nr s.label.sys = a.nr .openat →
        s = .openatCreatonly ∨ s = .openatReadonly ∨ s = .openatWriteonly) ∧
      a.nr s.label.sys ≠ a.nr .sigaction := by
  decide +kernel

theorem mem_specials_kPledge : ∀ a p,
    (.setsockoptRestrict ∈ specials a (words a (kPledge p)) ↔
        p ∈ [.inet, .anet, .unix, .dns]) ∧
      (.openCreatonly ∈ specials a (words a (kPledge p)) ↔ p = .cpath) ∧
      (.openatCreatonly ∈ specials a (words a (kPledge p)) ↔ p = .cpath) ∧
      (a.nr .sigaction ∈ unspecials (words a (kPledge p)) ↔ p = .stdio) := by
  decide +kernel

theorem default_specials (a : Arch) : specials a (words a kPledgeDefault) = [] := by
  cases a <;> rfl

section Facts

variable {a : Arch} {pid : BitVec 32} {ipromises : BitVec 64} {d : SeccompData}

theorem exists_ofWord_iff (s : Special) :
    (∃ w ∈ listed a ipromises, IsSpecial w ∧ Special.ofWord a w = some s) ↔
      ∃ p, Promised ipromises p ∧ s ∈ specials a (words a (kPledge p)) := by
  constructor
  · rintro ⟨w, hw, hspecial, hof⟩
    rcases mem_listed.1 hw with hdefault | ⟨p, hp, hw⟩
    · have hmem : s ∈ specials a (words a kPledgeDefault) :=
        mem_specials.2 ⟨w, hdefault, hspecial, hof⟩
      rw [default_specials] at hmem
      cases hmem
    · exact ⟨p, hp, mem_specials.2 ⟨w, hw, hspecial, hof⟩⟩
  · rintro ⟨p, hp, hs⟩
    obtain ⟨w, hw, hspecial, hof⟩ := mem_specials.1 hs
    exact ⟨w, mem_listed.2 (.inr ⟨p, hp, hw⟩), hspecial, hof⟩

theorem sockopt_promised_iff :
    (∃ p, Promised ipromises p ∧ .setsockoptRestrict ∈ specials a (words a (kPledge p))) ↔
      Promised ipromises .inet ∨ Promised ipromises .anet ∨ Promised ipromises .unix ∨
        Promised ipromises .dns := by
  simp only [(mem_specials_kPledge a _).1, mem_cons,
    not_mem_nil, or_false, and_or_left, exists_or, exists_eq_right]

theorem openCreatonly_promised_iff :
    (∃ p, Promised ipromises p ∧ .openCreatonly ∈ specials a (words a (kPledge p))) ↔
      Promised ipromises .cpath := by
  simp only [(mem_specials_kPledge a _).2.1, exists_eq_right]

theorem openatCreatonly_promised_iff :
    (∃ p, Promised ipromises p ∧ .openatCreatonly ∈ specials a (words a (kPledge p))) ↔
      Promised ipromises .cpath := by
  simp only [(mem_specials_kPledge a _).2.2.1, exists_eq_right]

theorem exists_slip_iff :
    (∃ w ∈ listed a ipromises,
        IsSpecial w ∧ ∃ s ∈ Special.ofWord a w, d.nr = a.nr s.label.sys ∧ s.Slips d) ↔
      SlipsThrough a ipromises d := by
  have hswap : (∃ w ∈ listed a ipromises,
        IsSpecial w ∧ ∃ s ∈ Special.ofWord a w, d.nr = a.nr s.label.sys ∧ s.Slips d) ↔
      ∃ s : Special, (∃ p, Promised ipromises p ∧ s ∈ specials a (words a (kPledge p))) ∧
        d.nr = a.nr s.label.sys ∧ s.Slips d := by
    simp only [← exists_ofWord_iff]
    constructor
    · rintro ⟨w, hw, hspecial, s, hof, hslip⟩
      exact ⟨s, ⟨w, hw, hspecial, hof⟩, hslip⟩
    · rintro ⟨s, ⟨w, hw, hspecial, hof⟩, hslip⟩
      exact ⟨w, hw, hspecial, s, hof, hslip⟩
  rw [hswap]
  constructor
  · rintro ⟨s, hp, hnr, hslip⟩
    cases s with
    | setsockoptRestrict => exact .inl ⟨sockopt_promised_iff.1 hp, hnr, hslip⟩
    | openCreatonly => exact .inr ⟨openCreatonly_promised_iff.1 hp, .inl ⟨hnr, hslip⟩⟩
    | openatCreatonly => exact .inr ⟨openatCreatonly_promised_iff.1 hp, .inr ⟨hnr, hslip⟩⟩
    | _ => exact hslip.elim
  · rintro (⟨hp, hnr, hslip⟩ | ⟨hp, ⟨hnr, hslip⟩ | ⟨hnr, hslip⟩⟩)
    · exact ⟨.setsockoptRestrict, sockopt_promised_iff.2 hp, hnr, hslip⟩
    · exact ⟨.openCreatonly, openCreatonly_promised_iff.2 hp, hnr, hslip⟩
    · exact ⟨.openatCreatonly, openatCreatonly_promised_iff.2 hp, hnr, hslip⟩

theorem special_of_listsWord {s : Syscall} (hs : s ∈ [Syscall.setsockopt, .open_, .openat])
    (hnr : d.nr = a.nr s) {w : BitVec 16} (hw : w ∈ listed a ipromises)
    (h : ListsWord a pid d w) :
    ∃ e : Special, a.nr e.label.sys = a.nr s ∧ e.Documented pid d := by
  obtain ⟨t, ht, hwt⟩ := exists_table_of_mem_listed hw
  by_cases hspecial : IsSpecial w
  · rw [ListsWord, if_pos hspecial] at h
    obtain ⟨hw', e, hof, hdoc⟩ := h
    exact ⟨e, by rw [← nr_of_label (label_of_ofWord hof), ← hw', hnr], hdoc⟩
  · rw [ListsWord, if_neg hspecial, hnr] at h
    exact absurd (mem_unspecials.2 ⟨w, hwt, hspecial, h⟩)
      (not_mem_unspecials a t ht s hs)

theorem not_hasNone_of_tmpfile {flags mode : BitVec 32} (h : TmpfileSlip flags mode)
    (ms : List (BitVec 32)) (hm : oTmpfile ∈ ms) : ¬ HasNone flags ms :=
  fun hnone => h.2.1 (hnone oTmpfile hm)

theorem not_listed_of_slips (h : SlipsThrough a ipromises d) : ¬ Listed a pid ipromises d := by
  rintro ⟨w, hw, hlists⟩
  rcases h with ⟨-, hnr, hslip⟩ | ⟨-, ⟨hnr, hslip⟩ | ⟨hnr, hslip⟩⟩
  all_goals obtain ⟨e, he, hdoc⟩ := special_of_listsWord (by simp) hnr hw hlists
  · obtain rfl := (specials_of_nr a e).1 he
    have hoption : (0x13 : BitVec 32) ∈ solOptions := by
      rw [← hslip.2]
      exact hdoc.2
    exact absurd hoption (by decide)
  · rcases (specials_of_nr a e).2.1 he with rfl | rfl | rfl
    · exact hslip.2.2.2 (hdoc (not_hasNone_of_tmpfile hslip _ (by simp)))
    all_goals exact not_hasNone_of_tmpfile hslip _ (by simp) hdoc.2
  · rcases (specials_of_nr a e).2.2.1 he with rfl | rfl | rfl
    · exact hslip.2.2.2 (hdoc (not_hasNone_of_tmpfile hslip _ (by simp)))
    all_goals exact not_hasNone_of_tmpfile hslip _ (by simp) hdoc.2

theorem exists_grantsWord_iff_listed :
    (∃ w ∈ listed a ipromises, GrantsWord a pid d w) ↔
      Listed a pid ipromises d ∨ SlipsThrough a ipromises d := by
  rw [← exists_slip_iff, Listed, ← exists_or]
  simp only [grantsWord_iff, and_or_left]

end Facts

/-! ## 3. The filter against the tables -/

/-- The program for the promises is assembled and fits, and it allows the listed calls and no
others. -/
def MeansTables (a : Arch) (c : Caller) (ipromises : BitVec 64) (mode k : BitVec 32)
    (d : SeccompData) : Prop :=
  ∃ f, sysPledgeLinux a c ipromises mode = .ok f ∧ f.p.length ≤ capacity ∧
    (f.run d = .ret retAllow ↔ Listed a c.pid ipromises d) ∧
    (f.run d ≠ .ret retAllow → f.run d = .ret k)

section Length

variable (a : Arch) (pid : BitVec 32) {ipromises : BitVec 64} (hempty : ipromises ≠ -1) (k : BitVec 32)
include hempty

theorem length_program :
    (body a pid ipromises ++ [Insn.ret k]).length =
      9 + (codeSize a (words a kPledgeDefault) +
        ((Promise.all.filter fun p => Promised ipromises p).map (weight a)).sum) + 1 := by
  simp only [body, if_neg hempty, length_append, length_nil, length_pledgeCode,
    length_promisesCode, Nat.zero_add]
  rfl

theorem length_program_le_iff :
    (body a pid ipromises ++ [Insn.ret k]).length ≤ capacity ↔ Fits a ipromises := by
  rw [length_program a pid hempty, Fits, capacity]
  cases a with
  | x86_64 =>
    have hdefault : codeSize .x86_64 (words .x86_64 kPledgeDefault) = 3 := by decide
    omega
  | aarch64 =>
    -- all promises together leave room here
    have hdefault : codeSize .aarch64 (words .aarch64 kPledgeDefault) = 2 := by decide
    have hall : ((Promise.all.filter fun p => Promised ipromises p).map (weight .aarch64)).sum ≤
        (Promise.all.map (weight .aarch64)).sum :=
      (List.filter_sublist.map _).sum_le_sum fun _ _ => Nat.zero_le _
    have htotal : (Promise.all.map (weight .aarch64)).sum = 649 := by decide
    omega

end Length

section Means

variable {a : Arch} {c : Caller} {ipromises : BitVec 64} {mode k : BitVec 32} {d : SeccompData}

theorem not_meansTables_of_slips (hreaches : Reaches a ipromises d)
    (hslip : SlipsThrough a ipromises d) : ¬ MeansTables a c ipromises mode k d := by
  rintro ⟨f, hf, -, hallow, -⟩
  have hgrants : ∃ w ∈ listed a ipromises, GrantsWord a c.pid d w :=
    exists_grantsWord_iff_listed.2 (.inr hslip)
  exact not_listed_of_slips hslip (hallow.1 (run_of_grants hf hreaches hgrants))

variable (hempty : ipromises ≠ -1) (hmode : mode &&& stderrLogging = 0) (hk : penalty mode = some k)
include hmode hk

theorem ending_of_penalty : ending a c mode = .ok [.ret k] := by
  rw [ending, if_neg (not_not.2 hmode), hk]

include hempty

/-- Outside the trapping mode a filter is assembled exactly if it fits, and it answers with the
penalty what the tables do not grant. -/
theorem run_penalty :
    (Fits a ipromises → ∃ f, sysPledgeLinux a c ipromises mode = .ok f ∧
        f.p = body a c.pid ipromises ++ [.ret k]) ∧
      (¬ Fits a ipromises → sysPledgeLinux a c ipromises mode = .error .notpossible) := by
  have hlen := length_program_le_iff a c.pid hempty k
  rw [sysPledgeLinux_eq a c ipromises mode (ending_of_penalty hmode hk), appendFilter]
  constructor
  · intro hfits
    rw [dif_pos (by rw [← hlen] at hfits; simpa [Filter.empty] using hfits)]
    exact ⟨_, rfl, rfl⟩
  · intro hfits
    rw [dif_neg (by rw [← hlen] at hfits; simpa [Filter.empty] using hfits)]

theorem not_meansTables_of_not_fits (hfits : ¬ Fits a ipromises) :
    ¬ MeansTables a c ipromises mode k d := by
  rintro ⟨f, hf, -⟩
  rw [(run_penalty hempty hmode hk).2 hfits] at hf
  cases hf

theorem meansTables_of_fits (hreaches : Reaches a ipromises d) (hfits : Fits a ipromises)
    (hslip : ¬ SlipsThrough a ipromises d) : MeansTables a c ipromises mode k d := by
  obtain ⟨f, hf, hp⟩ := (run_penalty (c := c) hempty hmode hk).1 hfits
  have hallowed (hlisted : Listed a c.pid ipromises d) : f.run d = .ret retAllow :=
    run_of_grants hf hreaches (exists_grantsWord_iff_listed.2 (.inl hlisted))
  have hrefused (hnot : ¬ Listed a c.pid ipromises d) : f.run d = .ret k := by
    rw [Filter.run, hp, exec_body_of_not_grants hreaches fun hgrants =>
      (exists_grantsWord_iff_listed.1 hgrants).elim hnot hslip]
    rfl
  refine ⟨f, hf, f.fits, ⟨fun hrun => ?_, hallowed⟩, fun hrun => hrefused fun hlisted =>
    hrun (hallowed hlisted)⟩
  by_contra hnot
  rw [hrefused hnot] at hrun
  exact penalty_ne_allow hk (Outcome.ret.inj hrun)

end Means

theorem exists_filter (a : Arch) (c : Caller) (ipromises : BitVec 64) (mode : BitVec 32)
    (hempty : ipromises ≠ -1) (hmode : mode &&& stderrLogging = 0)
    (hpenalty : (penalty mode).isSome) (hfits : Fits a ipromises) :
    ∃ f, sysPledgeLinux a c ipromises mode = .ok f := by
  obtain ⟨k, hk⟩ := Option.isSome_iff_exists.1 hpenalty
  obtain ⟨f, hf, -⟩ := (run_penalty hempty hmode hk).1 hfits
  exact ⟨f, hf⟩

/-- The filter of a caller on x86-64. -/
abbrev pledgeX86 (promises : BitVec 64) := sysPledgeLinux .x86_64 ⟨7, 7, true⟩ (~~~promises) 2

theorem exists_pledgeX86 (promises : BitVec 64)
    (h : ~~~promises ≠ -1 ∧ Fits .x86_64 (~~~promises)) : ∃ f, pledgeX86 promises = .ok f :=
  exists_filter _ _ _ _ h.1 (by decide) (by decide) h.2

/-- The filter means what its tables say if and only if it fits and the call does not slip through
one of three fragments. -/
theorem meansTables_iff_fits (a : Arch) (c : Caller) (ipromises : BitVec 64)
    (mode k : BitVec 32) (d : SeccompData) (hempty : ipromises ≠ -1)
    (hmode : mode &&& stderrLogging = 0) (hk : penalty mode = some k)
    (harch : d.arch = architecture a) (hknown : ¬ Nosys a d.nr) :
    MeansTables a c ipromises mode k d ↔ Fits a ipromises ∧ ¬ SlipsThrough a ipromises d := by
  have hreaches : Reaches a ipromises d := ⟨harch, hknown, fun h => hempty h.1⟩
  constructor
  · intro h
    refine ⟨?_, fun hslip => not_meansTables_of_slips hreaches hslip h⟩
    by_contra hfits
    exact not_meansTables_of_not_fits hempty hmode hk hfits h
  · rintro ⟨hfits, hslip⟩
    exact meansTables_of_fits hempty hmode hk hreaches hfits hslip

def call (a : Arch) (s : Syscall) (args : Fin 6 → BitVec 64) : SeccompData :=
  ⟨a.nr s, architecture a, 0, args⟩

/-- `pledge("stdio inet cpath")`: the filter means what its tables say for `setsockopt` with
`TCP_NODELAY`. -/
theorem meansTables_nodelay :
    MeansTables .x86_64 ⟨7, 7, true⟩ (~~~0b10001001) 2 (retErrno ||| eperm)
      (call .x86_64 .setsockopt ![3, 6, 1, 0, 4, 0]) :=
  (meansTables_iff_fits .x86_64 ⟨7, 7, true⟩ (~~~0b10001001) 2 (retErrno ||| eperm)
    (call .x86_64 .setsockopt ![3, 6, 1, 0, 4, 0]) (by decide) (by decide) (by decide) rfl
    (by decide)).2 ⟨by decide, by decide⟩

/-- With all promises the program is larger than the buffer. With `inet` an option of `setsockopt`
that is not in the list is allowed, and with `cpath` a temporary file with the setuid bit. -/
theorem not_meansTables_slips :
    ¬ MeansTables .x86_64 ⟨7, 7, true⟩ 0 2 (retErrno ||| eperm)
        (call .x86_64 .read ![0, 0, 0, 0, 0, 0]) ∧
      ¬ MeansTables .x86_64 ⟨7, 7, true⟩ (~~~0b10000000) 2 (retErrno ||| eperm)
        (call .x86_64 .setsockopt ![3, 6, 0x13, 0, 4, 0]) ∧
      ¬ MeansTables .x86_64 ⟨7, 7, true⟩ (~~~0b1000) 2 (retErrno ||| eperm)
        (call .x86_64 .open_ ![0x1000, 0o20000002, 0o4755, 0, 0, 0]) :=
  ⟨not_meansTables_of_not_fits (by decide) (by decide) (by decide) (by decide),
    not_meansTables_of_slips ⟨rfl, by decide, by decide⟩ (by decide),
    not_meansTables_of_slips ⟨rfl, by decide, by decide⟩ (by decide)⟩

/-! ## 4. Where an allowed call comes from -/

section Sources

variable {a : Arch} {c : Caller} {ipromises : BitVec 64} {mode : BitVec 32} {f : Filter}
  {d : SeccompData}

def InTable (a : Arch) (t : List Entry) (nr : BitVec 32) : Prop :=
  nr ∈ unspecials (words a t) ∨ ∃ s ∈ specials a (words a t), nr = a.nr s.label.sys

theorem inTable_of_grantsWord {pid : BitVec 32} {w : BitVec 16} {t : List Entry}
    (hw : w ∈ words a t) (h : GrantsWord a pid d w) : InTable a t d.nr := by
  rcases (exists_grantsWord_iff (words a t)).1 ⟨w, hw, h⟩ with hplain | ⟨s, hs, hgranted⟩
  · exact .inl hplain
  · exact .inr ⟨s, hs, hgranted.1⟩

theorem monitorGrants_cases (h : MonitorGrants a c d) :
    (∃ s ∈ [Syscall.write, .kill, .tkill, .sigreturn, .sigprocmask], d.nr = a.nr s) ∨
      d.nr = a.nr .sigaction ∧ d.int 0 = sigabrt := by
  rcases h with ⟨h, -⟩ | ⟨h, -⟩ | ⟨h, -⟩ | h | h
  · exact .inl ⟨.write, by simp, h⟩
  · exact .inl ⟨.kill, by simp, h⟩
  · exact .inl ⟨.tkill, by simp, h⟩
  · exact .inr h
  · simp only [mem_cons, not_mem_nil, or_false] at h
    rcases h with h | h
    · exact .inl ⟨.sigreturn, by simp, h⟩
    · exact .inl ⟨.sigprocmask, by simp, h⟩

section

variable (hf : sysPledgeLinux a c ipromises mode = .ok f)
include hf

theorem inTable_of_run (h : f.run d = .ret retAllow) :
    InTable a kPledgeDefault d.nr ∨ (∃ p, Promised ipromises p ∧ InTable a (kPledge p) d.nr) ∨
      MonitorGrants a c d := by
  rcases grants_of_run hf h with ⟨w, hw, hgrants⟩ | hmonitor
  · rcases mem_listed.1 hw with hdefault | ⟨p, hp, hw⟩
    · exact .inl (inTable_of_grantsWord hdefault hgrants)
    · exact .inr (.inl ⟨p, hp, inTable_of_grantsWord hw hgrants⟩)
  · exact .inr (.inr hmonitor)

theorem run_of_mem_unspecials (hreaches : Reaches a ipromises d) {p : Promise} (hp : Promised ipromises p)
    (h : d.nr ∈ unspecials (words a (kPledge p))) : f.run d = .ret retAllow := by
  have hword : ∃ w ∈ words a (kPledge p), GrantsWord a c.pid d w :=
    (exists_grantsWord_iff _).2 (.inl h)
  obtain ⟨w, hw, hgrants⟩ := hword
  exact run_of_grants hf hreaches ⟨w, mem_listed.2 (.inr ⟨p, hp, hw⟩), hgrants⟩

theorem run_of_mem_specials (hreaches : Reaches a ipromises d) {p : Promise} (hp : Promised ipromises p) {s : Special}
    (hs : s ∈ specials a (words a (kPledge p))) (h : s.Granted a c.pid d) :
    f.run d = .ret retAllow := by
  obtain ⟨w, hw, hgrants⟩ := (exists_grantsWord_iff _).2 (.inr ⟨s, hs, h⟩)
  exact run_of_grants hf hreaches ⟨w, mem_listed.2 (.inr ⟨p, hp, hw⟩), hgrants⟩

end

end Sources

theorem inTable_facts : ∀ a p,
    (∀ e ∈ specials a (words a (kPledge p)), ∀ s ∈ [Syscall.open_, .openat],
      a.nr s = a.nr e.label.sys → p ∈ [.rpath, .wpath, .cpath, .dns]) ∧
      ∀ s ∈ [Syscall.sigaction, .open_, .openat], a.nr s ∉ unspecials (words a kPledgeDefault) := by
  decide +kernel

theorem monitor_numbers : ∀ a : Arch,
    (∀ m ∈ [Syscall.write, .kill, .tkill, .sigreturn, .sigprocmask],
      ∀ s ∈ [Syscall.sigaction, .open_, .openat], a.nr m ≠ a.nr s) ∧
      ∀ s ∈ [Syscall.open_, .openat], a.nr .sigaction ≠ a.nr s := by
  decide +kernel

theorem reaches_call (a : Arch) (ipromises : BitVec 64) {s : Syscall} (args : Fin 6 → BitVec 64)
    (hs : s ∈ [Syscall.open_, .sigaction]) : Reaches a ipromises (call a s args) := by
  have hnumbers : ∀ a : Arch, ∀ s ∈ [Syscall.open_, .sigaction],
      ¬ Nosys a (a.nr s) ∧ a.nr s ≠ a.nr .exitGroup := by decide
  obtain ⟨hknown, hexit⟩ := hnumbers a s hs
  exact ⟨rfl, hknown, fun h => hexit h.2⟩

/-! ## 5. What `cpath` opens -/

def OpensExisting (a : Arch) (d : SeccompData) : Prop :=
  d.nr = a.nr .open_ ∧ HasNone (d.int 1) [oCreat, oTmpfile] ∨
    d.nr = a.nr .openat ∧ HasNone (d.int 2) [oCreat, oTmpfile]

theorem OpensExisting.nr {a : Arch} {d : SeccompData} (h : OpensExisting a d) :
    ∃ s ∈ [Syscall.open_, .openat], d.nr = a.nr s := by
  rcases h with ⟨hnr, -⟩ | ⟨hnr, -⟩
  · exact ⟨.open_, by simp, hnr⟩
  · exact ⟨.openat, by simp, hnr⟩

theorem mem_of_inTable_open {a : Arch} {p : Promise} {s : Syscall}
    (hs : s ∈ [Syscall.open_, .openat]) (h : InTable a (kPledge p) (a.nr s)) :
    p ∈ [.rpath, .wpath, .cpath, .dns] := by
  rcases h with hplain | ⟨e, he, hnr⟩
  · have htable : kPledge p ∈ kPledgeDefault :: Promise.all.map kPledge :=
      mem_cons_of_mem _ (mem_map_of_mem p.mem_all)
    exact absurd hplain (not_mem_unspecials a _ htable s (mem_cons_of_mem _ hs))
  · exact (inTable_facts a p).1 e he s hs hnr

theorem not_inTable_default {a : Arch} {s : Syscall}
    (hs : s ∈ [Syscall.sigaction, .open_, .openat]) : ¬ InTable a kPledgeDefault (a.nr s) := by
  rintro (hplain | ⟨e, he, -⟩)
  · exact (inTable_facts a .stdio).2 s hs hplain
  · rw [default_specials] at he
    cases he

/-- Without the promises for reading and writing files, a filter opens no existing file if and only
if `cpath` is not promised. -/
theorem opens_nothing_iff_not_cpath (a : Arch) (c : Caller) (ipromises : BitVec 64)
    (mode : BitVec 32) (f : Filter) (hf : sysPledgeLinux a c ipromises mode = .ok f)
    (hr : ¬ Promised ipromises .rpath) (hw : ¬ Promised ipromises .wpath)
    (hd : ¬ Promised ipromises .dns) :
    (∀ d, OpensExisting a d → f.run d ≠ .ret retAllow) ↔ ¬ Promised ipromises .cpath := by
  constructor
  · intro h hc
    have hmem := ((mem_specials_kPledge a .cpath).2.1).2 rfl
    have hflags : HasNone (loWord 0) [oCreat, oTmpfile] := by decide
    have hopens : OpensExisting a (call a .open_ 0) := .inl ⟨rfl, hflags⟩
    refine h _ hopens (run_of_mem_specials hf (reaches_call a ipromises 0 (by simp)) hc hmem ?_)
    exact ⟨rfl, .inl fun hnot => absurd hflags hnot⟩
  · intro hc d hopens hrun
    obtain ⟨s, hs, hnr⟩ := hopens.nr
    rcases inTable_of_run hf hrun with hdefault | ⟨p, hp, htable⟩ | hmonitor
    · exact not_inTable_default (mem_cons_of_mem _ hs) (hnr ▸ hdefault)
    · have hmem := mem_of_inTable_open hs (hnr ▸ htable)
      simp only [mem_cons, not_mem_nil, or_false] at hmem
      rcases hmem with rfl | rfl | rfl | rfl
      · exact hr hp
      · exact hw hp
      · exact hc hp
      · exact hd hp
    · rcases monitorGrants_cases hmonitor with ⟨m, hm, hnr'⟩ | ⟨hnr', -⟩
      · exact (monitor_numbers a).1 m hm s (mem_cons_of_mem _ hs) (hnr' ▸ hnr)
      · exact (monitor_numbers a).2 s hs (hnr' ▸ hnr)

/-- `pledge("stdio")` opens nothing. -/
theorem opens_nothing_stdio :
    ∃ f, pledgeX86 1 = .ok f ∧
      f.run (call .x86_64 .open_ ![0x1000, 2, 0, 0, 0, 0]) ≠ .ret retAllow := by
  obtain ⟨f, hf⟩ := exists_pledgeX86 1 (by decide)
  exact ⟨f, hf, (opens_nothing_iff_not_cpath _ _ _ _ f hf (by decide) (by decide) (by decide)).2
    (by decide) _ (.inl ⟨rfl, by decide⟩)⟩

/-- `pledge("cpath")` allows `open(path, O_RDWR)`. -/
theorem cpath_opens_existing :
    ∃ f, pledgeX86 0b1000 = .ok f ∧
      OpensExisting .x86_64 (call .x86_64 .open_ ![0x1000, 2, 0, 0, 0, 0]) ∧
      f.run (call .x86_64 .open_ ![0x1000, 2, 0, 0, 0, 0]) = .ret retAllow := by
  obtain ⟨f, hf⟩ := exists_pledgeX86 0b1000 (by decide)
  have hflags : HasNone (loWord 2) [oCreat, oTmpfile] := by decide
  have hmem := ((mem_specials_kPledge .x86_64 .cpath).2.1).2 rfl
  refine ⟨f, hf, .inl ⟨rfl, hflags⟩, ?_⟩
  exact run_of_mem_specials hf (reaches_call _ _ _ (by simp)) (by decide) hmem
    ⟨rfl, .inl fun hnot => absurd hflags hnot⟩

/-! ## 6. The handler of `SIGSYS` -/

def ChangesSigsys (a : Arch) (d : SeccompData) : Prop :=
  d.nr = a.nr .sigaction ∧ d.int 0 = sigsys

/-- A filter keeps the handler of `SIGSYS` if and only if `stdio` is not promised. -/
theorem keeps_sigsys_iff_not_stdio (a : Arch) (c : Caller) (ipromises : BitVec 64)
    (mode : BitVec 32) (f : Filter) (hf : sysPledgeLinux a c ipromises mode = .ok f) :
    (∀ d, ChangesSigsys a d → f.run d ≠ .ret retAllow) ↔ ¬ Promised ipromises .stdio := by
  constructor
  · intro h hs
    have hmem := ((mem_specials_kPledge a .stdio).2.2.2).2 rfl
    have hchanges : ChangesSigsys a (call a .sigaction ![31, 0, 0, 0, 0, 0]) := ⟨rfl, rfl⟩
    exact h _ hchanges (run_of_mem_unspecials hf (reaches_call a ipromises _ (by simp)) hs hmem)
  · rintro hstdio d ⟨hnr, hsignal⟩ hrun
    rcases inTable_of_run hf hrun with hdefault | ⟨p, hp, htable⟩ | hmonitor
    · exact not_inTable_default (by simp) (hnr ▸ hdefault)
    · rcases htable with hplain | ⟨s, -, hs⟩
      · rw [hnr] at hplain
        obtain rfl := ((mem_specials_kPledge a p).2.2.2).1 hplain
        exact hstdio hp
      · exact (specials_of_nr a s).2.2.2 (hs ▸ hnr)
    · rcases monitorGrants_cases hmonitor with ⟨s, hs, hs'⟩ | ⟨-, habrt⟩
      · exact (monitor_numbers a).1 s hs .sigaction mem_cons_self (hs' ▸ hnr)
      · rw [hsignal] at habrt
        exact absurd habrt (by decide)

/-- `pledge("rpath")` keeps the handler. -/
theorem keeps_sigsys_rpath :
    ∃ f, pledgeX86 0b10 = .ok f ∧
      f.run (call .x86_64 .sigaction ![31, 0, 0, 0, 0, 0]) ≠ .ret retAllow := by
  obtain ⟨f, hf⟩ := exists_pledgeX86 0b10 (by decide)
  exact ⟨f, hf, (keeps_sigsys_iff_not_stdio _ _ _ _ f hf).2 (by decide) _
    ⟨rfl, rfl⟩⟩

/-- `pledge("stdio")` allows `sigaction(SIGSYS, …)`. -/
theorem stdio_changes_sigsys :
    ∃ f, pledgeX86 1 = .ok f ∧
      ChangesSigsys .x86_64 (call .x86_64 .sigaction ![31, 0, 0, 0, 0, 0]) ∧
      f.run (call .x86_64 .sigaction ![31, 0, 0, 0, 0, 0]) = .ret retAllow := by
  obtain ⟨f, hf⟩ := exists_pledgeX86 1 (by decide)
  have hmem := ((mem_specials_kPledge .x86_64 .stdio).2.2.2).2 rfl
  exact ⟨f, hf, ⟨rfl, rfl⟩,
    run_of_mem_unspecials hf (reaches_call _ _ _ (by simp)) (by decide) hmem⟩

/-- Promises that are added take no call away: whatever call one filter lets through, with whatever arguments, a filter
that withholds no more promises lets through. -/
theorem run_of_more_promises (a : Arch) (c : Caller) (ipromises ipromises' : BitVec 64) (mode : BitVec 32)
    (f f' : Filter) (hf : sysPledgeLinux a c ipromises mode = .ok f) (hf' : sysPledgeLinux a c ipromises' mode = .ok f')
    (hmore : ipromises' ||| ipromises = ipromises) (d : SeccompData) (h : f.run d = .ret retAllow) :
    f'.run d = .ret retAllow := by
  have hpromised (p : Promise) (hp : Promised ipromises p) : Promised ipromises' p := by
    intro hno
    apply hp
    rw [← hmore, BitVec.not_or, BitVec.and_comm (~~~ipromises'), BitVec.and_assoc, hno]
    exact BitVec.and_zero
  obtain ⟨t, ht, hp⟩ := eq_program hf
  obtain ⟨t', ht', hp'⟩ := eq_program hf'
  cases ht.symm.trans ht'
  rw [Filter.run, hp] at h
  have hreaches := reaches_of_allowed h
  have hreaches' : Reaches a ipromises' d := by
    refine ⟨hreaches.arch, hreaches.known, fun hexit => hreaches.notExit ⟨?_, hexit.2⟩⟩
    rw [← hmore, hexit.1]
    exact BitVec.allOnes_or
  by_cases hgrants : ∃ w ∈ listed a ipromises', GrantsWord a c.pid d w
  · exact run_of_grants hf' hreaches' hgrants
  · -- neither filter grants it, so the same ending decides
    rw [Filter.run, hp', exec_body_of_not_grants hreaches' hgrants]
    rwa [exec_body_of_not_grants hreaches] at h
    rintro ⟨w, hw, hword⟩
    refine hgrants ⟨w, mem_listed.mpr ((mem_listed.mp hw).imp_right ?_), hword⟩
    rintro ⟨p, hpr, hwp⟩
    exact ⟨p, hpromised p hpr, hwp⟩

/-- What `pledge("stdio")` allows, `pledge("stdio rpath")` allows. -/
theorem run_of_more_promises_rpath :
    ∃ f f', pledgeX86 1 = .ok f ∧
      pledgeX86 0b11 = .ok f' ∧
      f'.run (call .x86_64 .sigaction ![31, 0, 0, 0, 0, 0]) = .ret retAllow := by
  obtain ⟨f, hf⟩ := exists_pledgeX86 1 (by decide)
  obtain ⟨f', hf'⟩ := exists_pledgeX86 0b11 (by decide)
  have hmem := ((mem_specials_kPledge .x86_64 .stdio).2.2.2).2 rfl
  exact ⟨f, f', hf, hf', run_of_more_promises _ _ _ _ 2 f f' hf hf' (by decide) _
    (run_of_mem_unspecials hf (reaches_call _ _ _ (by simp)) (by decide) hmem)⟩

end CosmoRuby.Pledge