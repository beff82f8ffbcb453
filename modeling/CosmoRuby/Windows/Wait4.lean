import Mathlib

/-!
# `wait4` on Windows

`__proc_wait` is cut at the blocking call: `beginWait` is what it does with the lock held before it, and
`finishWait` what it does when it has the lock again. In between, and before every turn of the loop, the other
threads may do anything to the children but give a slot to another process that somebody waits for.

Signals and cancelation are left out, apart from the wake-up they cause.
-/

namespace CosmoRuby.Windows.Wait4

/-! ## 1. The state -/

inductive Status where
  | alive
  | stopped
  | zombie
  | undead
  deriving DecidableEq, Repr

/-- `struct Proc`, with the numbers of `struct rusage` in `R`. -/
structure Proc (R : Type) where
  pid : Int
  status : Status
  waiters : Int
  stopwaiters : Int
  dwExitCode : Nat
  isvfork : Bool
  /-- Whether `hProcess2` is set. -/
  hProcess2 : Bool
  ru : R

/-- `struct Procs`. Children are known by their slot; the alive and the stopped ones are on `list`. -/
structure Procs (R : Type) where
  proc : Nat → Proc R
  list : List Nat
  stopped : List Nat
  zombies : List Nat
  undead : List Nat
  waiters : Int
  stopwaiters : Int
  /-- SIGCHLD is ignored or has `SA_NOCLDWAIT`. -/
  noCldWait : Bool

structure Options where
  wnohang : Bool
  wuntraced : Bool
  deriving DecidableEq, Repr

inductive Result (R : Type) where
  /-- The child in a slot, as it is reported. -/
  | child (slot : Nat) (pid : Int) (wstatus : Nat) (rusage : R)
  | zero
  | echild
  | einval
  /-- The call never returns, and keeps the lock. -/
  | hangs
  deriving DecidableEq, Repr

/-- What the Win32 calls of `__proc_harvest` say about a process. -/
structure Answer (R : Type) where
  exitCode : Nat
  stats : R
  /-- The signal that stopped it, from `hStopEvent` and its pending set. -/
  stopsig : Option Nat

variable {R : Type} (procWstatus : Nat → Nat)

section Code

variable [Zero R] [Add R]

/-- One more thread waits for a child, or one less. -/
def Proc.addWaiters (pr : Proc R) (options : Options) (n : Int) : Proc R :=
  { pr with
    waiters := pr.waiters + n
    stopwaiters := if options.wuntraced then pr.stopwaiters + n else pr.stopwaiters }

namespace Procs

def set (w : Procs R) (s : Nat) (pr : Proc R) : Procs R := { w with proc := Function.update w.proc s pr }

end Procs

/-! ## 2. The code -/

variable (w : Procs R) (pid : Int) (s : Nat) (options : Options) (a : Answer R)

def kNtStillActive : Nat := 259

/-- `__proc_unstop` -/
def procUnstop : Result R × Procs R :=
  let pr := w.proc s
  (.child s pr.pid (procWstatus pr.dwExitCode) 0,
    { w.set s { pr with status := .alive } with stopped := w.stopped.erase s })

/-- `__proc_reap_zombie` -/
def procReapZombie : Result R × Procs R :=
  let pr := w.proc s
  (.child s pr.pid (procWstatus pr.dwExitCode) pr.ru,
    { w.set s { pr with status := .undead } with zombies := w.zombies.erase s, undead := s :: w.undead })

def matchesPid : Bool := pid = -1 || pid = (w.proc s).pid

/-- The first loop of `__proc_check`. -/
def stoppedChild : Option Nat :=
  if options.wuntraced then w.stopped.find? (matchesPid w pid) else none

/-- `__proc_check`. Where zombies are reaped on their own, the walk goes on from the element that was moved
to the ring of the undead ones. That ring does not hold the end of the list of zombies. -/
def procCheck : Option (Result R) × Procs R :=
  match stoppedChild w pid options with
  | some s => (some (procUnstop procWstatus w s).1, (procUnstop procWstatus w s).2)
  | none =>
    match w.zombies.find? (matchesPid w pid) with
    | some s =>
      (some (if w.noCldWait then .hangs else (procReapZombie procWstatus w s).1),
        (procReapZombie procWstatus w s).2)
    | none => (none, w)

/-- The search for a child. The cursor is where the loop left it. -/
def searchChild (w : Procs R) (pid : Int) : Option Nat → List Nat → Option Nat
  | pr, [] => pr
  | _, s :: list => if pid = (w.proc s).pid then some s else searchChild w pid (some s) list

inductive Begin (R : Type) where
  | ret (r : Result R)
  /-- It waits for a child, or for any. -/
  | block (pr : Option Nat)

/-- `__proc_wait` up to the blocking call. -/
def beginWait : Begin R × Procs R :=
  match procCheck procWstatus w pid options with
  | (some r, w) => (.ret r, w)
  | (none, w) =>
    if w.list = [] then (.ret .echild, w)
    else if options.wnohang then (.ret .zero, w)
    else if pid = -1 then
      let stopwaiters := if options.wuntraced then w.stopwaiters + 1 else w.stopwaiters
      (.block none, { w with waiters := w.waiters + 1, stopwaiters := stopwaiters })
    else
      match searchChild w pid none w.list with
      | some s => (.block (some s), w.set s ((w.proc s).addWaiters options 1))
      | none => (.ret .echild, w)

/-- `__proc_checkstop` -/
def procCheckstop : Procs R :=
  match a.stopsig with
  | some sig =>
    if (w.proc s).status = .alive then
      { w.set s { w.proc s with status := .stopped, dwExitCode := sig * 256 + 0x7f } with
        stopped := s :: w.stopped }
    else w
  | none => w

/-- The end of `__proc_harvest`, for a process that has exited. -/
def procExit (code : Nat) : Procs R :=
  let pr := w.proc s
  let code := if code = 0xc9af3d51 then kNtStillActive else code
  let stopped := if pr.status = .stopped then w.stopped.erase s else w.stopped
  if w.noCldWait then
    { w.set s { pr with dwExitCode := code, status := .undead } with
      stopped := stopped, list := w.list.erase s, undead := s :: w.undead }
  else
    { w.set s { pr with dwExitCode := code, status := .zombie } with
      stopped := stopped, list := w.list.erase s, zombies := s :: w.zombies }

/-- `__proc_harvest` with an exit code: what has not ended may have stopped, what ends with one that names
a handle lives on under that handle. -/
def procHarvestCode (code : Nat) : Procs R :=
  if code = kNtStillActive then procCheckstop w s a
  else
    let pr := w.proc s
    let w := if pr.isvfork then w else w.set s { pr with ru := pr.ru + a.stats }
    if code / 2 ^ 24 = 0x23 then w else procExit w s code

def procHarvest : Procs R :=
  let pr := w.proc s
  if pr.isvfork then
    if pr.hProcess2 then w.set s { pr with isvfork := false, hProcess2 := false }
    else procHarvestCode w s a pr.dwExitCode
  else procHarvestCode w s a a.exitCode

/-- The child of a waiter that has signed off, once it is settled what became of it. -/
def settle : Procs R :=
  if (w.proc s).status = .alive ∨ (w.proc s).status = .stopped then procHarvest w s a else w

/-- Which handle the wait reports. -/
inductive Woken where
  | exited
  | signal
  | stopEvent
  | failed
  deriving DecidableEq, Repr

inductive Finish (R : Type) where
  | ret (r : Result R)
  | again

/-- The `switch` over the state of the child. -/
def finishStatus : Finish R × Procs R :=
  match (w.proc s).status with
  | .alive => (.again, w)
  | .zombie => (.ret (procReapZombie procWstatus w s).1, (procReapZombie procWstatus w s).2)
  | .undead => (.ret .echild, w)
  | .stopped =>
    (if options.wuntraced then .ret (procUnstop procWstatus w s).1 else .again,
      (procUnstop procWstatus w s).2)

/-- `__proc_wait` behind the blocking call, for the child it waited for. -/
def finishWait (woken : Woken) (a : Answer R) : Finish R × Procs R :=
  let w := w.set s ((w.proc s).addWaiters options (-1))
  if woken = .exited ∧ (w.proc s).status = .undead then (.ret .echild, w)
  else
    match woken with
    | .signal => (.again, w)
    -- a failure is not `-1u` any more without the bit of an abandoned handle
    | .exited | .stopEvent | .failed => finishStatus procWstatus (settle w s a) s options

/-! ## 3. What a wait for one child should do -/

/-- There is a direct child with the pid that is alive, stopped or a zombie. -/
def Child : Prop := ∃ s, (s ∈ w.list ∨ s ∈ w.zombies) ∧ (w.proc s).pid = pid

/-- A result that names a child names the one that was asked for, with its status and its usage. -/
def Reports (pid : Int) (r : Result R) (w : Procs R) : Prop :=
  ∀ s pid' wstatus rusage, r = .child s pid' wstatus rusage →
    pid' = pid ∧ (w.proc s).pid = pid ∧ wstatus = procWstatus (w.proc s).dwExitCode ∧
      rusage = (w.proc s).ru

/-- The part before the wait is right: it reports the child, or waits for it, and without one it fails at
once and changes nothing. -/
def BeginIsRight : Prop :=
  (∀ r w', beginWait procWstatus w pid options = (.ret r, w') →
    Reports procWstatus pid r w' ∧ (¬ Child w pid → r = .echild ∧ w' = w)) ∧
  ∀ pr w', beginWait procWstatus w pid options = (.block pr, w') →
    Child w pid ∧ ∃ s, pr = some s ∧ (w.proc s).pid = pid

/-- The child is there, or there is none at all; and one that is reported as stopped has used nothing yet. -/
def CanWait : Prop :=
  (Child w pid ∨ w.list = []) ∧ ∀ s, stoppedChild w pid options = some s → (w.proc s).ru = 0

/-- The stopped children are among the children. -/
def Wf : Prop := ∀ s ∈ w.stopped, s ∈ w.list

end Code

variable {procWstatus}

/-! ## 4. Before the wait -/

@[simp] theorem set_proc_self (w : Procs R) (s : Nat) (pr : Proc R) : (w.set s pr).proc s = pr := by
  simp [Procs.set]

variable {w : Procs R} {pid : Int} {s : Nat}

theorem pid_of_matchesPid (hpid : 0 < pid)
    (h : matchesPid w pid s = true) : (w.proc s).pid = pid := by
  simp only [matchesPid, Bool.or_eq_true, decide_eq_true_eq] at h
  omega

variable {options : Options}

theorem stoppedChild_spec (hpid : 0 < pid)
    (hwf : Wf w) (h : stoppedChild w pid options = some s) : s ∈ w.list ∧ (w.proc s).pid = pid := by
  rw [stoppedChild] at h
  split at h
  · exact ⟨hwf s (List.mem_of_find?_eq_some h), pid_of_matchesPid hpid (List.find?_some h)⟩
  · cases h

/-- The cursor is at a child with the pid if there is one. -/
theorem searchChild_of_mem {list : List Nat} (pr : Option Nat)
    (h : ∃ s ∈ list, (w.proc s).pid = pid) :
    ∃ s, searchChild w pid pr list = some s ∧ (w.proc s).pid = pid := by
  induction list generalizing pr with
  | nil =>
    obtain ⟨s, hs, -⟩ := h
    cases hs
  | cons a list ih =>
    rw [searchChild]
    split_ifs with ha
    · exact ⟨a, rfl, ha.symm⟩
    · refine ih (some a) ?_
      obtain ⟨s, hs, hpid⟩ := h
      rcases List.mem_cons.1 hs with rfl | hs
      · exact absurd hpid.symm ha
      · exact ⟨s, hs, hpid⟩

/-- On a list that is not empty it is always at some child. -/
theorem searchChild_isSome (w : Procs R) (pid : Int) (list : List Nat) (pr : Option Nat)
    (h : list ≠ [] ∨ pr ≠ none) : ∃ s, searchChild w pid pr list = some s := by
  induction list generalizing pr with
  | nil =>
    obtain ⟨s, hs⟩ := Option.ne_none_iff_exists'.1 (h.resolve_left fun hne => hne rfl)
    exact ⟨s, hs⟩
  | cons a list ih =>
    rw [searchChild]
    split
    · exact ⟨a, rfl⟩
    · exact ih (some a) (.inr nofun)

theorem child_iff (hzombies : w.zombies.find? (matchesPid w pid) = none) :
    Child w pid ↔ ∃ s ∈ w.list, (w.proc s).pid = pid := by
  constructor
  · rintro ⟨s, hs | hs, h⟩
    · exact ⟨s, hs, h⟩
    · have := List.find?_eq_none.1 hzombies s hs
      simp [matchesPid, h] at this
  · rintro ⟨s, hs, h⟩
    exact ⟨s, .inl hs, h⟩

section Begin

variable [Zero R]

/-- A stopped child is reported with no usage. -/
theorem reports_procUnstop (h : (w.proc s).pid = pid) :
    Reports procWstatus pid (procUnstop procWstatus w s).1 (procUnstop procWstatus w s).2 ↔
      (w.proc s).ru = 0 := by
  constructor
  · intro hreports
    have hru := (hreports _ _ _ _ rfl).2.2.2
    simp only [procUnstop, set_proc_self] at hru
    exact hru.symm
  · intro hru s' pid' wstatus rusage hr
    simp only [procUnstop, Result.child.injEq] at hr
    obtain ⟨rfl, rfl, rfl, rfl⟩ := hr
    dsimp only [procUnstop]
    rw [set_proc_self]
    exact ⟨h, h, rfl, hru.symm⟩

omit [Zero R] in
theorem reports_procReapZombie (h : (w.proc s).pid = pid) :
    Reports procWstatus pid (procReapZombie procWstatus w s).1 (procReapZombie procWstatus w s).2 := by
  intro s' pid' wstatus rusage hr
  simp only [procReapZombie, Result.child.injEq] at hr
  obtain ⟨rfl, rfl, rfl, rfl⟩ := hr
  dsimp only [procReapZombie]
  rw [set_proc_self]
  exact ⟨h, h, rfl, rfl⟩

variable {w' : Procs R} {r : Result R}

/-- What is asked of one outcome. -/
def Begin.Right (procWstatus : Nat → Nat) (w : Procs R) (pid : Int) : Begin R × Procs R → Prop
  | (.ret r, w') => Reports procWstatus pid r w' ∧ (¬ Child w pid → r = .echild ∧ w' = w)
  | (.block pr, _) => Child w pid ∧ ∃ s, pr = some s ∧ (w.proc s).pid = pid

theorem beginIsRight_iff_right : BeginIsRight procWstatus w pid options ↔
    Begin.Right procWstatus w pid (beginWait procWstatus w pid options) := by
  unfold BeginIsRight
  generalize beginWait procWstatus w pid options = b
  obtain ⟨r | pr, w'⟩ := b
  · refine ⟨fun h => h.1 r w' rfl, fun h => ⟨fun r₁ w₁ h₁ => ?_, nofun⟩⟩
    cases h₁
    exact h
  · refine ⟨fun h => h.2 pr w' rfl, fun h => ⟨nofun, fun pr₁ w₁ h₁ => ?_⟩⟩
    cases h₁
    exact h

omit [Zero R] in
theorem reports_of_ne
    (h : ∀ s pid' wstatus rusage, r ≠ .child s pid' wstatus rusage) : Reports procWstatus pid r w :=
  fun s pid' wstatus rusage hr => absurd hr (h s pid' wstatus rusage)

theorem beginIsRight_iff (w : Procs R) (pid : Int) (options : Options) (hpid : 0 < pid) (hwf : Wf w) :
    BeginIsRight procWstatus w pid options ↔ CanWait w pid options := by
  rw [CanWait, beginIsRight_iff_right, beginWait, procCheck]
  cases hstopped : stoppedChild w pid options with
  | some s =>
    obtain ⟨hs, hspid⟩ := stoppedChild_spec hpid hwf hstopped
    have hchild : Child w pid := ⟨s, .inl hs, hspid⟩
    show Reports procWstatus pid (procUnstop procWstatus w s).1 _ ∧ _ ↔ _
    rw [reports_procUnstop hspid]
    constructor
    · rintro ⟨hru, -⟩
      refine ⟨.inl hchild, fun s' hs' => ?_⟩
      cases hs'
      exact hru
    · rintro ⟨-, hru⟩
      exact ⟨hru s rfl, fun h => absurd hchild h⟩
  | none =>
    have hnostop : ∀ s, (none : Option Nat) = some s → (w.proc s).ru = 0 := nofun
    rw [and_iff_left hnostop]
    cases hzombies : w.zombies.find? (matchesPid w pid) with
    | some s =>
      have hspid := pid_of_matchesPid hpid (List.find?_some hzombies)
      have hchild : Child w pid := ⟨s, .inr (List.mem_of_find?_eq_some hzombies), hspid⟩
      refine iff_of_true ⟨?_, fun h => absurd hchild h⟩ (.inl hchild)
      split
      · exact reports_of_ne nofun
      · exact reports_procReapZombie hspid
    | none =>
      dsimp only
      by_cases hempty : w.list = []
      · rw [if_pos hempty]
        exact iff_of_true ⟨reports_of_ne nofun, fun _ => ⟨rfl, rfl⟩⟩ (.inr hempty)
      · rw [if_neg hempty, or_iff_left hempty]
        by_cases hnohang : options.wnohang = true
        · rw [if_pos hnohang]
          constructor
          · rintro ⟨-, h⟩
            by_contra hchild
            exact absurd (h hchild).1 nofun
          · exact fun hchild => ⟨reports_of_ne nofun, fun h => absurd hchild h⟩
        · obtain ⟨s, hs⟩ := searchChild_isSome w pid w.list none (.inl hempty)
          rw [if_neg hnohang, if_neg (show pid ≠ -1 by omega), hs]
          constructor
          · exact And.left
          · intro hchild
            obtain ⟨s', hs', hspid⟩ := searchChild_of_mem none ((child_iff hzombies).1 hchild)
            exact ⟨hchild, s', hs.symm.trans hs', hspid⟩

end Begin

/-! ## 5. After the wait -/

theorem procHarvestCode_pid [Add R] (w : Procs R) (s : Nat) (a : Answer R) (code : Nat) :
    ((procHarvestCode w s a code).proc s).pid = (w.proc s).pid := by
  have hexit (w : Procs R) : ((procExit w s code).proc s).pid = (w.proc s).pid := by
    simp only [procExit]
    split <;> simp
  rw [procHarvestCode]
  split
  · rw [procCheckstop]
    split
    · split
      · simp
      · rfl
    · rfl
  · dsimp only
    split
    · split
      · rfl
      · simp
    · rw [hexit]
      split
      · rfl
      · simp

/-- A process keeps its pid when it is harvested. -/
theorem settle_pid [Add R] (w : Procs R) (s : Nat) (a : Answer R) :
    ((settle w s a).proc s).pid = (w.proc s).pid := by
  rw [settle]
  split
  · simp only [procHarvest]
    split
    · split
      · simp
      · exact procHarvestCode_pid w s a _
    · exact procHarvestCode_pid w s a _
  · rfl

/-- A child that is reported as stopped has used nothing yet: nothing is recorded before the harvest, and
while it is stopped it does not end in an `execve`. -/
def StopIsFresh [Zero R] (w : Procs R) (s : Nat) (options : Options) (a : Answer R) : Prop :=
  options.wuntraced = true →
    (a.exitCode = kNtStillActive ∨ (w.proc s).isvfork = true → (w.proc s).ru = 0) ∧
      ((w.proc s).status = .stopped → a.exitCode / 2 ^ 24 ≠ 0x23)

theorem settle_ru [Zero R] [Add R] {a : Answer R} (hstop : StopIsFresh w s options a)
    (huntraced : options.wuntraced = true) (hstatus : ((settle w s a).proc s).status = .stopped) :
    ((settle w s a).proc s).ru = 0 := by
  obtain ⟨hru, hexec⟩ := hstop huntraced
  -- only a code that names a handle adds usage
  grind [settle, procHarvest, procHarvestCode, procCheckstop, procExit, set_proc_self]

theorem finishStatus_reports [Zero R] {w' : Procs R} {r : Result R} (hs : (w.proc s).pid = pid)
    (hstop : options.wuntraced = true → (w.proc s).status = .stopped → (w.proc s).ru = 0)
    (h : finishStatus procWstatus w s options = (.ret r, w')) : Reports procWstatus pid r w' := by
  rw [finishStatus] at h
  cases hstatus : (w.proc s).status with
  | alive =>
    rw [hstatus] at h
    cases h
  | zombie =>
    rw [hstatus] at h
    cases h
    exact reports_procReapZombie hs
  | undead =>
    rw [hstatus] at h
    cases h
    exact reports_of_ne nofun
  | stopped =>
    rw [hstatus] at h
    dsimp only at h
    split_ifs at h with huntraced
    · cases h
      exact (reports_procUnstop hs).2 (hstop huntraced hstatus)
    · cases h

theorem finishWait_reports [Zero R] [Add R] {w' : Procs R} {woken : Woken}
    {a : Answer R} {r : Result R} (hs : (w.proc s).pid = pid) (hstop : StopIsFresh w s options a)
    (h : finishWait procWstatus w s options woken a = (.ret r, w')) : Reports procWstatus pid r w' := by
  have hpid : ((settle (w.set s ((w.proc s).addWaiters options (-1))) s a).proc s).pid = pid := by
    rw [settle_pid, set_proc_self]
    exact hs
  have hfresh : StopIsFresh (w.set s ((w.proc s).addWaiters options (-1))) s options a := by
    rw [StopIsFresh, set_proc_self]
    exact hstop
  simp only [finishWait] at h
  split at h
  · cases h
    exact reports_of_ne nofun
  · cases woken with
    | signal => cases h
    | exited | stopEvent | failed => exact finishStatus_reports hpid (settle_ru hfresh) h

/-! ## 6. Whole calls -/

variable (procWstatus) in
/-- A call that starts from `w` returns `r` and leaves `w'`. The other threads turn `w₁` into `w₂` while it
waits, and `w₃` into `w₄` before it goes on; the slot it waits for stays with its process. -/
inductive WaitRun [Zero R] [Add R] (pid : Int) (options : Options) :
    Procs R → Result R → Procs R → Prop
  | ret {w w' : Procs R} {r : Result R} (hwf : Wf w) (hcan : CanWait w pid options)
      (hbegin : beginWait procWstatus w pid options = (.ret r, w')) : WaitRun pid options w r w'
  | done {w w₁ w₂ w' : Procs R} {s : Nat} {e : Woken} {a : Answer R} {r : Result R} (hwf : Wf w)
      (hcan : CanWait w pid options)
      (hbegin : beginWait procWstatus w pid options = (.block (some s), w₁))
      (hslot : (w₂.proc s).pid = (w₁.proc s).pid) (hstop : StopIsFresh w₂ s options a)
      (hfinish : finishWait procWstatus w₂ s options e a = (.ret r, w')) : WaitRun pid options w r w'
  | again {w w₁ w₂ w₃ w₄ w' : Procs R} {s : Nat} {woken : Woken} {a : Answer R} {r : Result R}
      (hwf : Wf w) (hcan : CanWait w pid options)
      (hbegin : beginWait procWstatus w pid options = (.block (some s), w₁))
      (hslot : (w₂.proc s).pid = (w₁.proc s).pid)
      (hfinish : finishWait procWstatus w₂ s options woken a = (.again, w₃))
      (hrun : WaitRun pid options w₄ r w') : WaitRun pid options w r w'

/-- What it waits for has the pid. -/
theorem beginWait_block_pid [Zero R] {w₁ : Procs R} (hpid : 0 < pid)
    (hwf : Wf w) (hcan : CanWait w pid options)
    (hbegin : beginWait procWstatus w pid options = (.block (some s), w₁)) : (w₁.proc s).pid = pid := by
  have hright : BeginIsRight procWstatus w pid options :=
    (beginIsRight_iff w pid options hpid hwf).2 hcan
  obtain ⟨-, s', hs', hs⟩ := hright.2 _ _ hbegin
  cases hs'
  have hkeep : (w₁.proc s).pid = (w.proc s).pid := by
    simp only [beginWait] at hbegin
    split at hbegin
    · cases hbegin
    · next w' hcheck =>
      have hsame : w' = w := by
        simp only [procCheck] at hcheck
        split at hcheck
        · cases hcheck
        · split at hcheck
          · cases hcheck
          · cases hcheck
            rfl
      subst hsame
      split at hbegin
      · cases hbegin
      · split at hbegin
        · cases hbegin
        · split at hbegin
          · cases hbegin
          · split at hbegin
            · cases hbegin
              rw [set_proc_self]
              rfl
            · cases hbegin
  rw [hkeep, hs]

theorem WaitRun.reports [Zero R] [Add R] {w' : Procs R} {r : Result R} (hpid : 0 < pid)
    (h : WaitRun procWstatus pid options w r w') : Reports procWstatus pid r w' := by
  induction h with
  | ret hwf hcan hbegin =>
    exact (((beginIsRight_iff _ pid options hpid hwf).2 hcan).1 _ _ hbegin).1
  | done hwf hcan hbegin hslot hstop hfinish =>
    have hs := beginWait_block_pid hpid hwf hcan hbegin
    exact finishWait_reports (hslot.trans hs) hstop hfinish
  | again _ _ _ _ _ _ ih => exact ih

variable (procWstatus) in
/-- `wait4` is right exactly where the child is there or the list is empty, and a call that meets this at
every turn reports the child it was asked for. -/
theorem wait4_right [Zero R] [Add R] (w : Procs R) (pid : Int) (options : Options) (hpid : 0 < pid) (hwf : Wf w) :
    (BeginIsRight procWstatus w pid options ↔ CanWait w pid options) ∧
      ∀ r w', WaitRun procWstatus pid options w r w' → Reports procWstatus pid r w' :=
  ⟨beginIsRight_iff w pid options hpid hwf, fun _ _ => WaitRun.reports hpid⟩

/-- A child with pid 100 that is alive. -/
def oneChild : Procs Nat where
  proc _ := ⟨100, .alive, 0, 0, 0, false, false, 0⟩
  list := [0]
  stopped := []
  zombies := []
  undead := []
  waiters := 0
  stopwaiters := 0
  noCldWait := false

/-- What was asked for, the slot it waits for, and what it returns when that child exits with 7. -/
def waitForOther (pid : Int) : Option (Nat × Finish Nat) :=
  match beginWait id oneChild pid ⟨false, false⟩ with
  | (.block (some s), w) => some (s, (finishWait id w s ⟨false, false⟩ .exited ⟨7, 5, none⟩).1)
  | _ => none

/-- Waiting for 200, which is no child, waits for the child 100 and reaps it; with `WNOHANG` it
returns 0. -/
theorem waitForOther_reaps :
    ¬ Child oneChild 200 ∧ waitForOther 200 = some (0, .ret (.child 0 100 7 5)) ∧
      ¬ BeginIsRight id oneChild 200 ⟨false, false⟩ ∧ ¬ BeginIsRight id oneChild 200 ⟨true, false⟩ := by
  have hchild : ¬ Child oneChild 200 := by
    rintro ⟨s, -, hs⟩
    exact absurd hs (show (100 : Int) ≠ 200 by decide)
  refine ⟨hchild, rfl, fun h => ?_, fun h => ?_⟩
  · exact hchild (h.2 _ _ rfl).1
  · exact absurd ((h.1 _ _ rfl).2 hchild).1 nofun

/-- Waiting for the child itself. -/
theorem wait4_right_own : BeginIsRight id oneChild 100 ⟨false, false⟩ ∧
    ∃ w', WaitRun id 100 ⟨false, false⟩ oneChild (.child 0 100 7 5) w' ∧
      Reports id 100 (.child 0 100 7 5) w' := by
  have hcan : CanWait oneChild 100 ⟨false, false⟩ :=
    ⟨.inl ⟨0, .inl List.mem_cons_self, rfl⟩, nofun⟩
  have hright := wait4_right id oneChild 100 ⟨false, false⟩ (by decide) nofun
  have hrun : WaitRun id 100 ⟨false, false⟩ oneChild (.child 0 100 7 5) _ :=
    .done (s := 0) (e := .exited) (a := ⟨7, 5, none⟩) nofun hcan rfl rfl nofun rfl
  exact ⟨hright.1.2 hcan, _, hrun, hright.2 _ _ hrun⟩

end CosmoRuby.Windows.Wait4