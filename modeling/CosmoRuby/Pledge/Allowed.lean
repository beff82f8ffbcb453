import Mathlib
import CosmoRuby.Pledge.Fragments

/-!
# What the fragments allow

Each fragment answers `ALLOW` for its own call when the arguments meet the conditions of the
comment above it, and otherwise passes the number of the call on to the code behind it. Three
fragments also answer `ALLOW` where their comment does not say so.
-/

open CosmoRuby.Lib.Bpf

namespace CosmoRuby.Pledge

open List

/-! ## 1. Flags -/

def join (ms : List (BitVec 32)) : BitVec 32 :=
  ms.foldr (· ||| ·) 0

section

variable (w : BitVec 32) (ms : List (BitVec 32))

def HasAll : Prop :=
  ∀ m ∈ ms, w &&& m = m

def HasNone : Prop :=
  ∀ m ∈ ms, w &&& m = 0

def HasOnly : Prop :=
  w &&& ~~~(join ms) = 0

-- The instances go through the list of flags; the ones for `∀ m` would try all words.
instance : Decidable (HasAll w ms) :=
  List.decidableBAll _ ms

instance : Decidable (HasNone w ms) :=
  List.decidableBAll _ ms

instance : Decidable (HasOnly w ms) :=
  inferInstanceAs (Decidable (_ = _))

theorem hasNone_iff : HasNone w ms ↔ w &&& join ms = 0 := by
  induction ms with
  | nil => simp [HasNone, join]
  | cons m ms ih =>
    have hjoin : w &&& join (m :: ms) = (w &&& m) ||| (w &&& join ms) :=
      BitVec.and_or_distrib_left
    rw [hjoin]
    exact List.forall_mem_cons.trans ((and_congr_right' ih).trans BitVec.or_eq_zero_iff.symm)

theorem and_eq_right_iff (w m : BitVec 32) :
    w &&& m = m ↔ ∀ i, m.getLsbD i → w.getLsbD i := by
  constructor
  · intro h i hi
    rw [← h, BitVec.getLsbD_and, Bool.and_eq_true] at hi
    exact hi.1
  · intro h
    apply BitVec.eq_of_getLsbD_eq
    intro i _
    rw [BitVec.getLsbD_and]
    cases hm : m.getLsbD i with
    | false => rw [Bool.and_false]
    | true => rw [h i hm, Bool.true_and]

theorem hasAll_iff : HasAll w ms ↔ w &&& join ms = join ms := by
  induction ms with
  | nil => simp [HasAll, join]
  | cons m ms ih =>
    have hjoin : join (m :: ms) = m ||| join ms := rfl
    have hcons : HasAll w (m :: ms) ↔ w &&& m = m ∧ HasAll w ms := forall_mem_cons
    rw [hcons, ih, hjoin, and_eq_right_iff, and_eq_right_iff, and_eq_right_iff]
    simp only [BitVec.getLsbD_or, Bool.or_eq_true]
    exact ⟨fun h i hi => hi.elim (h.1 i) (h.2 i),
      fun h => ⟨fun i hi => h i (.inl hi), fun i hi => h i (.inr hi)⟩⟩

end

theorem and_twoPow_eq_iff (w : BitVec 32) (k : Nat) (hk : k < 32) :
    w &&& BitVec.twoPow 32 k = BitVec.twoPow 32 k ↔ w &&& BitVec.twoPow 32 k ≠ 0 := by
  have hne : BitVec.twoPow 32 k ≠ 0 := by
    intro h
    have hbit := congrArg (BitVec.getLsbD · k) h
    simp [hk] at hbit
  rw [BitVec.and_twoPow]
  cases w.getLsbD k with
  | false => simpa using hne.symm
  | true => simpa using hne

/-! ## 2. The comments -/

def oCreat : BitVec 32 := 0o100

def oTrunc : BitVec 32 := 0o1000

def oTmpfile : BitVec 32 := 0o20000000

def modeBits : List (BitVec 32) :=
  [0o1000, 0o2000, 0o4000]

def sockFlags : List (BitVec 32) :=
  [0x80000, 0x00800]

def cloneForbidden : List (BitVec 32) :=
  [0x00020000, 0x00002000, 0x00800000]

def solLevels : List (BitVec 32) :=
  [0, 1, 6, 41]

def solOptions : List (BitVec 32) :=
  [0x01, 0x03, 0x04, 0x05, 0x03, 0x04, 0x05, 0x06, 0x0f, 0x02, 0x09, 0x14, 0x15, 0x0c, 0x0b, 0x17,
    0x1e, 0x1a, 0x0c]

def Special.Documented (pid : BitVec 32) (d : SeccompData) : Special → Prop
  | .mmapExec => HasNone (d.int 3) [0x02000, 0x10000, 0x40000]
  | .mmapNoexec => HasOnly (d.int 2) [protRead, protWrite] ∧ HasNone (d.int 3) [0x02000, 0x10000]
  | .mprotectNoexec => HasOnly (d.int 2) [protRead, protWrite]
  | .chmodNobits => HasNone (d.int 1) modeBits
  | .fchmodNobits => HasNone (d.int 1) modeBits
  | .fchmodatNobits => HasNone (d.int 2) modeBits
  | .prctlStdio => d.int 0 ∈ [15, 16, 21, 22, 38, 23, 24]
  | .openCreatonly => ¬ HasNone (d.int 1) [oCreat, oTmpfile] → HasNone (d.int 2) modeBits
  | .openatCreatonly => ¬ HasNone (d.int 2) [oCreat, oTmpfile] → HasNone (d.int 3) modeBits
  | .openReadonly => d.int 1 &&& oAccmode = oRdonly ∧ HasNone (d.int 1) [oCreat, oTrunc, oTmpfile]
  | .openatReadonly =>
    d.int 2 &&& oAccmode = oRdonly ∧ HasNone (d.int 2) [oCreat, oTrunc, oTmpfile]
  | .openWriteonly =>
    d.int 1 &&& oAccmode ∈ [oWronly, oRdwr] ∧ HasNone (d.int 1) [oCreat, oTmpfile]
  | .openatWriteonly =>
    d.int 2 &&& oAccmode ∈ [oWronly, oRdwr] ∧ HasNone (d.int 2) [oCreat, oTmpfile]
  | .setsockoptRestrict => d.int 1 ∈ solLevels ∧ d.int 2 ∈ solOptions
  | .getsockoptRestrict =>
    d.int 1 ∈ [1, 6] ∧ d.int 2 ∈ [0x03, 0x04, 0x0f, 0x02, 0x09, 0x14, 0x15]
  | .creatRestrict => HasNone (d.int 1) modeBits
  | .fcntlStdio => d.int 1 ∈ [0, 1030, 1, 2, 3, 4]
  | .fcntlLock => d.int 1 ∈ [0x05, 0x06, 0x07, 0x24, 0x25, 0x26]
  | .ioctlRestrict => d.int 1 ∈ [0x541b, 0x5421, 0x5451, 0x5450]
  | .ioctlTty =>
    d.int 1 ∈ [0x5401, 0x5402, 0x5403, 0x5404, 0x5413, 0x5410, 0x540f, 0x5414, 0x540b, 0x540a,
      0x5409, 0x5427]
  | .ioctlInet => d.int 1 ∈ [0x8905]
  | .socketInet =>
    d.int 0 ∈ [0x02, 0x0a] ∧ d.int 1 &&& ~~~(join sockFlags) ∈ [0x01, 0x02] ∧
      d.int 2 ∈ [0, 0x01, 0x06, 0x11]
  | .socketAnet =>
    d.int 0 ∈ [0x02, 0x0a] ∧ d.int 1 &&& ~~~(join sockFlags) ∈ [0x01] ∧
      d.int 2 ∈ [0, 0x01, 0x06]
  | .socketUnix =>
    d.int 0 ∈ [1] ∧ d.int 1 &&& ~~~(join sockFlags) ∈ [1, 2] ∧ d.int 2 ∈ [0]
  | .sendtoAddrless => d.args 4 = 0
  | .cloneRestrict => HasNone (d.int 0) cloneForbidden
  | .cloneThread =>
    HasAll (d.int 0) [0x00000100, 0x00000200, 0x00000400, 0x00010000, 0x00000800] ∧
      HasNone (d.int 0) cloneForbidden
  | .prlimitStdio => d.args 2 = 0
  | .killSelf => d.int 0 = pid
  | .tgkillSelf => d.int 0 = pid

/-- Flags with `__O_TMPFILE` that the fragments for `cpath` do not recognise, since they test the
directory bit with it, and a mode that they would have to refuse. -/
def TmpfileSlip (flags mode : BitVec 32) : Prop :=
  flags &&& oCreat = 0 ∧ flags &&& oTmpfile ≠ 0 ∧ flags &&& 0o200000 = 0 ∧
    ¬ HasNone mode modeBits

/-- A level and an option of `setsockopt` where the option is allowed but not listed. -/
def SockoptSlip (level optname : BitVec 32) : Prop :=
  level ∈ solLevels ∧ optname = 0x13

instance (flags mode : BitVec 32) : Decidable (TmpfileSlip flags mode) :=
  inferInstanceAs (Decidable (_ ∧ _))

instance (level optname : BitVec 32) : Decidable (SockoptSlip level optname) :=
  inferInstanceAs (Decidable (_ ∧ _))

def Special.Slips (d : SeccompData) : Special → Prop
  | .openCreatonly => TmpfileSlip (d.int 1) (d.int 2)
  | .openatCreatonly => TmpfileSlip (d.int 2) (d.int 3)
  | .setsockoptRestrict => SockoptSlip (d.int 1) (d.int 2)
  | _ => False

/-! ## 3. Checks of the record -/

theorem load_offArgs (d : SeccompData) (i : Fin 6) : d.load (offArgs i) = d.int i := by
  fin_cases i <;> rfl

theorem mem_iff_of_subset {l l' : List (BitVec 32)} (h : ∀ k ∈ l, k ∈ l')
    (h' : ∀ k ∈ l', k ∈ l) (w : BitVec 32) : w ∈ l ↔ w ∈ l' :=
  ⟨h w, h' w⟩

def argIn (i : Fin 6) (ks : List (BitVec 32)) : Check :=
  ⟨offArgs i, none, ks⟩

def argMasked (i : Fin 6) (m : BitVec 32) (ks : List (BitVec 32)) : Check :=
  ⟨offArgs i, some m, ks⟩

section Passes

variable {d : SeccompData} {i : Fin 6} {m : BitVec 32} {ks : List (BitVec 32)}

theorem passes_argIn : (argIn i ks).Passes d.load ↔ d.int i ∈ ks := by
  rw [← load_offArgs]
  rfl

theorem passes_argMasked : (argMasked i m ks).Passes d.load ↔ d.int i &&& m ∈ ks := by
  rw [← load_offArgs]
  rfl

variable {ms : List (BitVec 32)}

theorem passes_hasNone : (argMasked i (join ms) [0]).Passes d.load ↔ HasNone (d.int i) ms := by
  rw [passes_argMasked, mem_singleton, hasNone_iff]

theorem passes_hasAll : (argMasked i (join ms) [join ms]).Passes d.load ↔ HasAll (d.int i) ms := by
  rw [passes_argMasked, mem_singleton, hasAll_iff]

theorem passes_hasOnly : (argMasked i (~~~(join ms)) [0]).Passes d.load ↔ HasOnly (d.int i) ms := by
  rw [passes_argMasked, mem_singleton, HasOnly]

end Passes

/-! ## 4. What each fragment answers -/

section Answers

variable {a : Arch} {pid : BitVec 32} {d : SeccompData}

variable {c : Check} {P Q : Prop}

theorem passes_one (h : c.Passes d.load ↔ P) : (∀ x ∈ [c], x.Passes d.load) ↔ P :=
  List.forall_mem_singleton.trans h

theorem passes_cons {cs : List Check} (h : c.Passes d.load ↔ P)
    (hs : (∀ x ∈ cs, x.Passes d.load) ↔ Q) : (∀ x ∈ c :: cs, x.Passes d.load) ↔ P ∧ Q :=
  List.forall_mem_cons.trans (and_congr h hs)

/-- The checks are read off the property, and the code has to be theirs. -/
theorem decides_checks {p : List Insn} {s : Syscall} {cs : List Check}
    (hpass : (∀ c ∈ cs, c.Passes d.load) ↔ P) (hcode : p = guarded (a.nr s) retAllow offNr cs)
    (hcs : (∀ c ∈ cs, c.Wf) ∧ (checks cs).length < 254) : Decides d.load d.nr retAllow p (d.nr = a.nr s ∧ P) := by
  rw [hcode]
  exact (Decides.guarded (a.nr s) offNr hcs.1 hcs.2).congr (and_congr_right' hpass)

/-! ### Families -/

theorem hiWord_load (d : SeccompData) (i : Fin 6) :
    d.load (offArgs i + 4) = hiWord (d.args i) := by
  fin_cases i <;> rfl

theorem ite_around {B N : Prop} [Decidable P] [Decidable B] [Decidable N] [Decidable Q]
    {x y : Outcome} (h : Q ↔ (P → N) ∧ (¬ P → B → N)) :
    (if P then if N then x else y else if B then if N then x else y else x) =
      if Q then x else y := by
  by_cases hP : P <;> by_cases hB : B <;> by_cases hN : N <;> simp [h, hP, hB, hN]

/-- With `O_CREAT`, `__O_TMPFILE` and the directory bit missing in `C`, `T` and `D`: the mode is
tested but where the directory bit misleads the fragment. -/
theorem creatonly_ways (C T D N : Prop) :
    ((¬ (C ∧ T) → N) ∨ C ∧ ¬ T ∧ D ∧ ¬ N) ↔ (¬ C → N) ∧ (¬ ¬ C → ¬ T ∧ ¬ D → N) := by
  tauto

section

variable (s : Syscall)

theorem decides_allowSelf :
    Decides d.load d.nr retAllow (allowSelf a pid s) (d.nr = a.nr s ∧ d.int 0 = pid) :=
  decides_checks (passes_one (passes_argIn.trans mem_singleton)) rfl
    ⟨by simp [Check.Wf, argIn], Nat.lt_of_sub_eq_succ rfl⟩

theorem decides_allowNobits (i : Fin 6) :
    Decides d.load d.nr retAllow (allowNobits a s i)
      (d.nr = a.nr s ∧ HasNone (d.int i) modeBits) :=
  decides_checks (passes_one passes_hasNone) rfl
    ⟨by simp [Check.Wf, argMasked], Nat.lt_of_sub_eq_succ rfl⟩

theorem decides_allowReadonly (i : Fin 6) :
    Decides d.load d.nr retAllow (allowReadonly a s i)
      (d.nr = a.nr s ∧ d.int i &&& oAccmode = oRdonly ∧
        HasNone (d.int i) [oCreat, oTrunc, oTmpfile]) :=
  decides_checks (passes_cons (passes_argMasked.trans mem_singleton) (passes_one passes_hasNone)) rfl
    ⟨by simp [Check.Wf, argMasked], Nat.lt_of_sub_eq_succ rfl⟩

theorem decides_allowWriteonly (i : Fin 6) :
    Decides d.load d.nr retAllow (allowWriteonly a s i)
      (d.nr = a.nr s ∧ d.int i &&& oAccmode ∈ [oWronly, oRdwr] ∧
        HasNone (d.int i) [oCreat, oTmpfile]) :=
  decides_checks (passes_cons passes_argMasked (passes_one passes_hasNone)) rfl
    ⟨by simp [Check.Wf, argMasked], Nat.lt_of_sub_eq_succ rfl⟩

theorem decides_allowNull (i : Fin 6) :
    Decides d.load d.nr retAllow (allowNull a s i) (d.nr = a.nr s ∧ d.args i = 0) := by
  have hhi : Check.Passes d.load ⟨offArgs i + 4, none, [0]⟩ ↔ hiWord (d.args i) = 0 := by
    rw [← hiWord_load]
    exact mem_singleton
  rw [word_eq_zero_iff]
  exact decides_checks (passes_cons (passes_argIn.trans mem_singleton) (passes_one hhi)) rfl
    ⟨by simp [Check.Wf, argIn], Nat.lt_of_sub_eq_succ rfl⟩

theorem exec_allowCreatonly (i j : Fin 6) :
    exec d.load (allowCreatonly a s i j) 0 d.nr =
      if d.nr = a.nr s then
        if d.load (offArgs i) &&& 0o100 = 0o100 then
          if d.load (offArgs j) &&& 0o7000 = 0 then .ret retAllow else .through 0 d.nr
        else if d.load (offArgs i) &&& 0o20200000 = 0o20200000 then
          if d.load (offArgs j) &&& 0o7000 = 0 then .ret retAllow else .through 0 d.nr
        else .ret retAllow
      else .through 0 d.nr :=
  rfl

theorem decides_allowCreatonly (i j : Fin 6) :
    Decides d.load d.nr retAllow (allowCreatonly a s i j)
      (d.nr = a.nr s ∧
        ((¬ HasNone (d.int i) [oCreat, oTmpfile] → HasNone (d.int j) modeBits) ∨
          TmpfileSlip (d.int i) (d.int j))) := by
  have hmode : d.int j &&& 0o7000 = 0 ↔ HasNone (d.int j) modeBits :=
    (hasNone_iff (d.int j) modeBits).symm
  have hcreat : d.int i &&& 0o100 = 0o100 ↔ d.int i &&& oCreat ≠ 0 :=
    and_twoPow_eq_iff (d.int i) 6 (by decide)
  have htmpfile : d.int i &&& oTmpfile = oTmpfile ↔ d.int i &&& oTmpfile ≠ 0 :=
    and_twoPow_eq_iff (d.int i) 22 (by decide)
  have hdirectory : d.int i &&& 0o200000 = 0o200000 ↔ d.int i &&& 0o200000 ≠ 0 :=
    and_twoPow_eq_iff (d.int i) 16 (by decide)
  have hboth : d.int i &&& 0o20200000 = 0o20200000 ↔
      d.int i &&& oTmpfile ≠ 0 ∧ d.int i &&& 0o200000 ≠ 0 := by
    rw [← htmpfile, ← hdirectory]
    exact (hasAll_iff (d.int i) [oTmpfile, 0o200000]).symm.trans
      (List.forall_mem_cons.trans (and_congr_right' forall_mem_singleton))
  have hflags : HasNone (d.int i) [oCreat, oTmpfile] ↔
      d.int i &&& oCreat = 0 ∧ d.int i &&& oTmpfile = 0 :=
    List.forall_mem_cons.trans (and_congr_right' forall_mem_singleton)
  have hways : (¬ HasNone (d.int i) [oCreat, oTmpfile] → HasNone (d.int j) modeBits) ∨
      TmpfileSlip (d.int i) (d.int j) ↔
      (d.int i &&& oCreat ≠ 0 → HasNone (d.int j) modeBits) ∧
        (¬ d.int i &&& oCreat ≠ 0 →
          d.int i &&& oTmpfile ≠ 0 ∧ d.int i &&& 0o200000 ≠ 0 → HasNone (d.int j) modeBits) := by
    simp only [TmpfileSlip, hflags, ne_eq]
    exact creatonly_ways _ _ _ _
  apply Decides.of_eq_ite
  rw [exec_allowCreatonly, load_offArgs, load_offArgs, ite_and]
  simp only [hmode, hcreat, hboth]
  rw [ite_around hways]

end

theorem exec_allowFcntlStdio :
    exec d.load (allowFcntlStdio a) 0 d.nr =
      if d.nr = a.nr .fcntl then
        if d.int 1 = 1030 then .ret retAllow
        else if 5 ≤ d.int 1 then .through 0 d.nr else .ret retAllow
      else .through 0 d.nr :=
  rfl

theorem decides_allowFcntlStdio :
    Decides d.load d.nr retAllow (allowFcntlStdio a)
      (d.nr = a.nr .fcntl ∧ d.int 1 ∈ [0, 1030, 1, 2, 3, 4]) := by
  have hsmall : d.int 1 ∈ [0, 1030, 1, 2, 3, 4] ↔ d.int 1 = 1030 ∨ ¬ 5 ≤ d.int 1 := by
    generalize d.int 1 = w
    simp only [mem_cons, not_mem_nil, or_false, BitVec.le_def, ← BitVec.toNat_inj]
    change w.toNat = 0 ∨ w.toNat = 1030 ∨ w.toNat = 1 ∨ w.toNat = 2 ∨ w.toNat = 3 ∨
      w.toNat = 4 ↔ w.toNat = 1030 ∨ ¬ 5 ≤ w.toNat
    omega
  apply Decides.of_eq_ite
  rw [exec_allowFcntlStdio, ite_and]
  simp only [hsmall]
  by_cases hdup : d.int 1 = 1030
  · simp only [hdup, true_or, if_true]
  · by_cases hle : 5 ≤ d.int 1
    · simp only [hdup, hle, not_true, false_or, if_true, if_false]
    · simp only [hdup, hle, not_false_eq_true, or_true, if_true, if_false]

/-! ### All special entries -/

def Special.Granted (a : Arch) (pid : BitVec 32) (d : SeccompData) (s : Special) : Prop :=
  d.nr = a.nr s.label.sys ∧ (s.Documented pid d ∨ s.Slips d)

theorem Special.decides_of_documented {s : Special}
    (h : Decides d.load d.nr retAllow (s.fragment a pid)
      (d.nr = a.nr s.label.sys ∧ s.Documented pid d))
    (hslip : ¬ s.Slips d) :
    Decides d.load d.nr retAllow (s.fragment a pid) (s.Granted a pid d) :=
  h.congr (and_congr_right' (or_iff_left hslip).symm)

theorem sockopt_iff (level optname : BitVec 32) :
    level ∈ [41, 0, 1, 6] ∧
        optname ∈ [0x0c, 0x1a, 0x06, 0x0f, 0x03, 0x0c, 0x13, 0x02, 0x09, 0x14, 0x01, 0x0b, 0x04,
          0x05, 0x17, 0x1e, 0x15] ↔
      level ∈ solLevels ∧ optname ∈ solOptions ∨ SockoptSlip level optname := by
  have hlevel : level ∈ [41, 0, 1, 6] ↔ level ∈ solLevels :=
    mem_iff_of_subset (by simp [solLevels]) (by simp [solLevels]) level
  have hoption : optname ∈ [0x0c, 0x1a, 0x06, 0x0f, 0x03, 0x0c, 0x13, 0x02, 0x09, 0x14, 0x01, 0x0b,
      0x04, 0x05, 0x17, 0x1e, 0x15] ↔ optname ∈ 0x13 :: solOptions :=
    mem_iff_of_subset (by simp [solOptions]) (by simp [solOptions]) optname
  rw [hlevel, hoption, mem_cons, or_comm, and_or_left]
  rfl

theorem Special.decides (s : Special) :
    Decides d.load d.nr retAllow (s.fragment a pid) (s.Granted a pid d) := by
  cases s
  case openCreatonly => exact decides_allowCreatonly .open_ 1 2
  case openatCreatonly => exact decides_allowCreatonly .openat 2 3
  case setsockoptRestrict =>
    exact decides_checks ((passes_cons passes_argIn (passes_one passes_argIn)).trans (sockopt_iff _ _))
      rfl (by decide)
  all_goals refine decides_of_documented ?_ not_false
  case mmapExec | cloneRestrict => exact decides_checks (passes_one passes_hasNone) rfl (by decide)
  case mmapNoexec =>
    exact decides_checks (passes_cons passes_hasOnly (passes_one passes_hasNone)) rfl (by decide)
  case mprotectNoexec => exact decides_checks (passes_one passes_hasOnly) rfl (by decide)
  case chmodNobits => exact decides_allowNobits .chmod 1
  case fchmodNobits => exact decides_allowNobits .fchmod 1
  case fchmodatNobits => exact decides_allowNobits .fchmodat 2
  case prctlStdio =>
    -- the code has them in another order
    refine decides_checks (passes_one (c := argIn 0 [15, 16, 21, 22, 23, 24, 38]) ?_) rfl (by decide)
    exact passes_argIn.trans (mem_iff_of_subset (by simp) (by simp) _)
  case openReadonly => exact decides_allowReadonly .open_ 1
  case openatReadonly => exact decides_allowReadonly .openat 2
  case openWriteonly => exact decides_allowWriteonly .open_ 1
  case openatWriteonly => exact decides_allowWriteonly .openat 2
  case getsockoptRestrict =>
    exact decides_checks (passes_cons passes_argIn (passes_one passes_argIn)) rfl (by decide)
  case creatRestrict => exact decides_allowNobits .creat 1
  case fcntlStdio => exact decides_allowFcntlStdio
  case fcntlLock | ioctlRestrict | ioctlTty | ioctlInet =>
    exact decides_checks (passes_one passes_argIn) rfl (by decide)
  case socketInet | socketAnet | socketUnix =>
    exact decides_checks (passes_cons passes_argIn (passes_cons passes_argMasked (passes_one passes_argIn)))
      rfl (by decide)
  case sendtoAddrless => exact decides_allowNull .sendto 4
  case cloneThread =>
    exact decides_checks (passes_cons passes_hasAll (passes_one passes_hasNone)) rfl (by decide)
  case prlimitStdio => exact decides_allowNull .prlimit 2
  case killSelf => exact decides_allowSelf .kill
  case tgkillSelf => exact decides_allowSelf .tgkill

end Answers

end CosmoRuby.Pledge
