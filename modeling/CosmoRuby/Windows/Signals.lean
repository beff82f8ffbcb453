import Mathlib

/-!
# Stop signals on Windows

The routines of `sig.c` that deliver a signal: `__sig_start` under `__sig_raise`, `__sig_killer` and
`__sig_generate_impl`. What they do with a signal is kept as a trace of events.

A stop is one event; the SIGCONT that ends it is taken to come. A handler is one event too. What it does is
not followed, and the mask it ran under is put back when it returns. `__sig_raise` then goes on with what is
pending, which is a delivery of its own here.
-/

namespace CosmoRuby.Windows.Signals

open List

/-! ## 1. The state -/

def SIGKILL : Nat := 9
def SIGCHLD : Nat := 17
def SIGCONT : Nat := 18
def SIGSTOP : Nat := 19
def SIGTSTP : Nat := 20
def SIGTTIN : Nat := 21
def SIGTTOU : Nat := 22
def SIGURG : Nat := 23
def SIGWINCH : Nat := 28

/-- `sigset_t`, by the number of the signal. -/
abbrev Sigset := Nat → Bool

/-- `sighandrvas[sig - 1]` -/
inductive Disposition where
  | dfl
  | ign
  | caught (rva : Nat)
  deriving DecidableEq, Repr

/-- A thread, with what the Win32 calls answer that take control of it. -/
structure SigThread where
  sigmask : Sigset
  sigpending : Sigset
  /-- `pt_blocker` and the mask that holds while it waits. -/
  blocker : Bool
  blkmask : Sigset
  intoff : Bool
  terminated : Bool
  vforked : Bool
  /-- The instruction pointer is in the program and not in Win32 code. -/
  inText : Bool
  suspendThread : Bool
  getThreadContext : Bool
  setThreadContext : Bool

inductive Event where
  | terminated (sig : Nat)
  /-- `__sig_stop` suspends the process and returns when it is continued. -/
  | stopped (sig : Nat)
  /-- `__sig_stop` finds another thread at it and waits until that is over. -/
  | joined (sig : Nat)
  | ignored (sig : Nat)
  /-- The signal goes to the pending set of a thread, or to that of the process. -/
  | enqueued (thread : Option Nat) (sig : Nat)
  /-- The handler runs on the thread, called or by way of the trampoline. -/
  | handler (thread : Nat) (sig : Nat)
  /-- `ESRCH` -/
  | failed (thread : Nat) (sig : Nat)
  deriving DecidableEq, Repr

structure SigWorld where
  sighand : Nat → Disposition
  resethand : Nat → Bool
  sigpending : Sigset
  /-- `__vforked` -/
  vforked : Bool
  /-- `__sig.stopped` -/
  stopped : Bool
  threads : Nat → SigThread
  /-- `_pthread_list` -/
  list : List Nat
  trace : List Event

namespace SigWorld

def log (w : SigWorld) (e : Event) : SigWorld := { w with trace := w.trace ++ [e] }

def setThread (w : SigWorld) (t : Nat) (th : SigThread) : SigWorld :=
  { w with threads := Function.update w.threads t th }

/-- Sets a bit of `tib_sigpending`. -/
def enqueue (w : SigWorld) (t sig : Nat) : SigWorld :=
  let th := w.threads t
  (w.setThread t { th with sigpending := Function.update th.sigpending sig true }).log
    (.enqueued (some t) sig)

/-- Sets a bit of the pending set of the process. -/
def enqueueProcess (w : SigWorld) (sig : Nat) : SigWorld :=
  { w with sigpending := Function.update w.sigpending sig true }.log (.enqueued none sig)

def resetHandler (w : SigWorld) (sig : Nat) : SigWorld :=
  if w.resethand sig then { w with sighand := Function.update w.sighand sig .dfl } else w

end SigWorld

section

variable (w : SigWorld) (sig : Nat)

/-! ## 2. The code -/

def sigIgnoredByDefault (sig : Nat) : Bool :=
  sig = SIGURG || sig = SIGCONT || sig = SIGCHLD || sig = SIGWINCH

def sigIsStopSignal (sig : Nat) : Bool :=
  sig = SIGSTOP || sig = SIGTSTP || sig = SIGTTIN || sig = SIGTTOU

def sigIgnored : Bool :=
  w.sighand sig = .ign || (w.sighand sig = .dfl && sigIgnoredByDefault sig)

/-- `__sig_stop`: 0, or the SIGCONT that ended the stop. -/
def sigStop : SigWorld × Nat :=
  if w.vforked then (w.enqueueProcess sig, 0)
  else if w.stopped then (w.log (.joined sig), 0)
  else
    ({ w with sigpending :=
        Function.update (Function.update w.sigpending SIGCONT false) sig false }.log (.stopped sig), SIGCONT)

/-- The part of `__sig_start` behind the first stop. Only the loop can come back with another signal. -/
def sigStartRest (again : SigWorld → Nat → SigWorld × Nat) (self : Nat) (w : SigWorld) (sig : Nat) :
    SigWorld × Nat :=
  if sigIgnored w sig then (w.log (.ignored sig), 0)
  else if (w.threads self).sigmask sig then (w.enqueue self sig, 0)
  else if w.sighand sig = .dfl then
    if sigIsStopSignal sig then again (sigStop w sig).1 (sigStop w sig).2 else (w.log (.terminated sig), 0)
  else (w, sig)

/-- `__sig_start`: 0, or the signal whose handler is to be called. -/
def sigStart (self : Nat) : Nat → SigWorld → Nat → SigWorld × Nat
  | 0, w, _ => (w, 0)
  | fuel + 1, w, sig =>
    if sig = SIGKILL then (w.log (.terminated sig), 0)
    else if sigIsStopSignal sig then
      if (sigStop w sig).2 = 0 then ((sigStop w sig).1, 0)
      else sigStartRest (sigStart self fuel) self (sigStop w sig).1 (sigStop w sig).2
    else sigStartRest (sigStart self fuel) self w sig

/-- What `__sig_raise` does with one signal. Two passes of `__sig_start` are more than it makes. -/
def sigRaise (self : Nat) (w : SigWorld) (sig : Nat) : SigWorld :=
  let r := sigStart self 2 w sig
  if r.2 = 0 then r.1 else (r.1.resetHandler r.2).log (.handler self r.2)

/-- `__sig_getter`: the lowest signal that is pending and not masked. -/
def sigGetter (pending masked : Sigset) : Nat :=
  (((List.range 64).map (· + 1)).find? fun sig => pending sig && !masked sig).getD 0

/-- `__sig_get` with the mask of the thread itself. -/
def sigGet (self : Nat) (w : SigWorld) : SigWorld × Nat :=
  let th := w.threads self
  let sig := sigGetter th.sigpending th.sigmask
  if sig ≠ 0 then
    (w.setThread self { th with sigpending := Function.update th.sigpending sig false }, sig)
  else
    let sig := sigGetter w.sigpending th.sigmask
    ({ w with sigpending := Function.update w.sigpending sig false }, sig)

/-- A stop on behalf of another thread, and the SIGCONT behind it. -/
def sigStopThenRaise (self : Option Nat) (w : SigWorld) (sig : Nat) : SigWorld :=
  match self with
  | some self => if (sigStop w sig).2 = 0 then (sigStop w sig).1 else sigRaise self (sigStop w sig).1 SIGCONT
  | none => (sigStop w sig).1

/-- `__sig_killer`. A worker that is no thread of the program has no `self`. -/
def sigKiller (self : Option Nat) (pt : Nat) (w : SigWorld) (sig : Nat) : SigWorld :=
  let th := w.threads pt
  if sig = SIGKILL then w.log (.terminated sig)
  else if sig = SIGSTOP then sigStopThenRaise self w sig
  else if sigIgnored w sig then w.log (.ignored sig)
  else if th.sigmask sig then w.enqueue pt sig
  else if w.sighand sig = .dfl then
    if sigIsStopSignal sig then sigStopThenRaise self w sig else w.log (.terminated sig)
  else if th.intoff then w.enqueue pt sig
  else if !th.suspendThread || !th.getThreadContext then w.log (.failed pt sig)
  else if !th.inText then w.enqueue pt sig
  else if !th.setThreadContext then (w.resetHandler sig).log (.failed pt sig)
  else (w.resetHandler sig).log (.handler pt sig)

/-- The scan of `__sig_generate_impl` for a thread. -/
def sigMark : Option Nat :=
  w.list.find? fun t =>
    let th := w.threads t
    !th.terminated && !th.vforked && (!th.sigmask sig || (th.blocker && !th.blkmask sig))

/-- `__sig_generate_impl` from the test of the pending set on. -/
def sigGenerateSend : SigWorld :=
  if w.sigpending sig then w
  else
    match sigMark w sig with
    | some pt => sigKiller none pt w sig
    | none => w.enqueueProcess sig

/-- `__sig_generate_impl` behind the first stop. -/
def sigGenerateRest : SigWorld :=
  if sigIgnored w sig then w.log (.ignored sig)
  else if w.sighand sig = .dfl then
    if !sigIsStopSignal sig then w.log (.terminated sig)
    else if (sigStop w sig).2 = 0 then (sigStop w sig).1
    else if sigIgnored (sigStop w sig).1 SIGCONT then (sigStop w sig).1
    else sigGenerateSend (sigStop w sig).1 SIGCONT
  else sigGenerateSend w sig

def sigGenerate : SigWorld :=
  if sig = SIGKILL then w.log (.terminated sig)
  else if sigIsStopSignal sig then
    if (sigStop w sig).2 = 0 then (sigStop w sig).1
    else sigGenerateRest (sigStop w sig).1 (sigStop w sig).2
  else sigGenerateRest w sig

/-! ## 3. Deliveries -/

inductive Path where
  | raise (self : Nat)
  /-- `__sig_raise(0)`, which takes a signal out of a pending set. -/
  | pending (self : Nat)
  | kill (self pt : Nat)
  | generate
  deriving DecidableEq, Repr

/-- `__sig_kill`, which blocks the signals of the caller around the call. -/
def sigKill (self pt : Nat) (w : SigWorld) (sig : Nat) : SigWorld :=
  let th := w.threads self
  let w := sigKiller (some self) pt (w.setThread self { th with sigmask := fun _ => true }) sig
  w.setThread self { w.threads self with sigmask := th.sigmask }

/-- A delivery, with a trace of its own. -/
def deliver : Path → SigWorld
  | .raise self => sigRaise self { w with trace := [] } sig
  | .pending self => sigRaise self { (sigGet self w).1 with trace := [] } sig
  | .kill self pt => sigKill self pt { w with trace := [] } sig
  | .generate => sigGenerate { w with trace := [] } sig

/-- The thread that gets the signal. -/
def receiver : Path → Option Nat
  | .raise self => some self
  | .pending self => some self
  | .kill _ pt => some pt
  | .generate => sigMark w sig

/-- The thread that gets the signal blocks it, or there is none that does not. -/
def blocked (path : Path) : Bool :=
  (receiver w sig path).all fun t => (w.threads t).sigmask sig

/-- A signal comes along a path: out of the pending set only as what `__sig_get` returned, and from a
thread only to another one. -/
def Arrives : Path → Prop
  | .raise _ => True
  | .pending self => (sigGet self w).2 = sig
  | .kill self pt => pt ≠ self
  | .generate => True

/-- The disposition of a stop signal that can be caught is obeyed. -/
structure Obeys (path : Path) (trace : List Event) : Prop where
  stops : .stopped sig ∈ trace → w.sighand sig = .dfl ∧ blocked w sig path = false
  drops : w.sighand sig = .ign → ∀ e ∈ trace, e = .ignored sig ∨ e = .joined sig
  runs : ∀ rva, w.sighand sig = .caught rva → blocked w sig path = false →
    ∃ t, receiver w sig path = some t ∧ (.handler t sig ∈ trace ∨ .enqueued (some t) sig ∈ trace)
  pends : w.sighand sig ≠ .ign → blocked w sig path = true → ∃ t, .enqueued t sig ∈ trace

/-- SIGSTOP stops the process, or finds it being stopped. The others obey their disposition. -/
def Delivered (path : Path) : Prop :=
  if sig = SIGSTOP then .stopped sig ∈ (deliver w sig path).trace ∨ .joined sig ∈ (deliver w sig path).trace
  else Obeys w sig path (deliver w sig path).trace

end

/-! ## 4. Traces grow -/

/-- What happened stays in the trace. -/
def Extends (w w' : SigWorld) : Prop := w.trace ⊆ w'.trace

theorem Extends.refl (w : SigWorld) : Extends w w := List.Subset.refl _

theorem Extends.trans {w₁ w₂ w₃ : SigWorld} (h : Extends w₁ w₂) (h' : Extends w₂ w₃) : Extends w₁ w₃ :=
  List.Subset.trans h h'

section

variable (w : SigWorld)

theorem extends_log (e : Event) : Extends w (w.log e) := subset_append_left _ _

theorem trace_resetHandler (sig : Nat) : (w.resetHandler sig).trace = w.trace := by
  rw [SigWorld.resetHandler]
  split <;> rfl

theorem extends_resetHandler_log (sig : Nat) (e : Event) : Extends w ((w.resetHandler sig).log e) := by
  have h := extends_log (w.resetHandler sig) e
  rw [Extends, trace_resetHandler] at h
  exact h

theorem extends_enqueue (t sig : Nat) : Extends w (w.enqueue t sig) :=
  extends_log (w.setThread t _) _

theorem extends_enqueueProcess (sig : Nat) : Extends w (w.enqueueProcess sig) :=
  subset_append_left _ _

theorem extends_sigStop (sig : Nat) : Extends w (sigStop w sig).1 := by
  rw [sigStop]
  split
  · exact extends_enqueueProcess w sig
  · split
    · exact extends_log w _
    · exact subset_append_left _ _

end

theorem extends_sigStartRest {again : SigWorld → Nat → SigWorld × Nat}
    (hagain : ∀ w sig, Extends w (again w sig).1) (self : Nat) (w : SigWorld) (sig : Nat) :
    Extends w (sigStartRest again self w sig).1 := by
  rw [sigStartRest]
  split
  · exact extends_log w _
  · split
    · exact extends_enqueue w self sig
    · split
      · split
        · exact (extends_sigStop w sig).trans (hagain _ _)
        · exact extends_log w _
      · exact Extends.refl w

theorem extends_sigStart (self fuel : Nat) (w : SigWorld) (sig : Nat) :
    Extends w (sigStart self fuel w sig).1 := by
  induction fuel generalizing w sig with
  | zero => exact Extends.refl w
  | succ fuel ih =>
    rw [sigStart]
    split
    · exact extends_log w _
    · split
      · split
        · exact extends_sigStop w sig
        · exact (extends_sigStop w sig).trans (extends_sigStartRest ih self _ _)
      · exact extends_sigStartRest ih self w sig

theorem extends_sigRaise (self : Nat) (w : SigWorld) (sig : Nat) : Extends w (sigRaise self w sig) := by
  have h := extends_sigStart self 2 w sig
  simp only [sigRaise]
  split
  · exact h
  · exact h.trans (extends_resetHandler_log _ _ _)

theorem extends_sigStopThenRaise (self : Option Nat) (w : SigWorld) (sig : Nat) :
    Extends w (sigStopThenRaise self w sig) := by
  cases self with
  | none => exact extends_sigStop w sig
  | some self =>
    rw [sigStopThenRaise]
    split
    · exact extends_sigStop w sig
    · exact (extends_sigStop w sig).trans (extends_sigRaise self _ _)

theorem extends_sigKiller (self : Option Nat) (pt : Nat) (w : SigWorld) (sig : Nat) :
    Extends w (sigKiller self pt w sig) := by
  simp only [sigKiller]
  repeat' split
  all_goals first
    | exact extends_log w _
    | exact extends_enqueue w pt sig
    | exact extends_sigStopThenRaise self w sig
    | exact extends_resetHandler_log w sig _

theorem extends_sigGenerateSend (w : SigWorld) (sig : Nat) : Extends w (sigGenerateSend w sig) := by
  rw [sigGenerateSend]
  split
  · exact Extends.refl w
  · split
    · exact extends_sigKiller none _ w sig
    · exact extends_enqueueProcess w sig

theorem extends_sigGenerateRest (w : SigWorld) (sig : Nat) : Extends w (sigGenerateRest w sig) := by
  have hstop := extends_sigStop w sig
  rw [sigGenerateRest]
  split
  · exact extends_log w _
  · split
    · split
      · exact extends_log w _
      · split
        · exact hstop
        · split
          · exact hstop
          · exact hstop.trans (extends_sigGenerateSend _ _)
    · exact extends_sigGenerateSend w sig

/-! ## 5. Routines that stop first -/

/-- How a delivery of a stop signal begins that asks for nothing else before. -/
inductive StopsFirst (w : SigWorld) (sig : Nat) (trace : List Event) : Prop
  | punted (hvforked : w.vforked = true) (htrace : trace = [.enqueued none sig])
  | joined (hvforked : w.vforked = false) (hstopped : w.stopped = true) (htrace : trace = [.joined sig])
  | stopped (hvforked : w.vforked = false) (hstopped : w.stopped = false) (htrace : .stopped sig ∈ trace)

variable {w w' : SigWorld} {sig : Nat}

/-- A routine that returns where `__sig_stop` returns 0, and goes on with the SIGCONT otherwise. -/
theorem stopsFirst_of_stop (hw : w.trace = [])
    (hzero : (sigStop w sig).2 = 0 → w'.trace = (sigStop w sig).1.trace)
    (hcont : (sigStop w sig).2 ≠ 0 → Extends (sigStop w sig).1 w') : StopsFirst w sig w'.trace := by
  unfold sigStop at hzero hcont
  cases hvforked : w.vforked with
  | true =>
    rw [if_pos hvforked] at hzero
    refine .punted hvforked ((hzero rfl).trans ?_)
    simp only [SigWorld.enqueueProcess, SigWorld.log, hw, nil_append]
  | false =>
    rw [if_neg (by rw [hvforked]; decide)] at hzero hcont
    cases hstopped : w.stopped with
    | true =>
      rw [if_pos hstopped] at hzero
      refine .joined hvforked hstopped ((hzero rfl).trans ?_)
      simp only [SigWorld.log, hw, nil_append]
    | false =>
      rw [if_neg (by rw [hstopped]; decide)] at hcont
      refine .stopped hvforked hstopped (hcont (show SIGCONT ≠ 0 by decide) ?_)
      exact mem_append_right _ mem_cons_self

theorem sigRaise_stopsFirst (self : Nat) (hsig : sigIsStopSignal sig = true)
    (hkill : sig ≠ SIGKILL) (hw : w.trace = []) : StopsFirst w sig (sigRaise self w sig).trace := by
  refine stopsFirst_of_stop hw ?_ ?_
  · intro hzero
    have hstart : sigStart self 2 w sig = ((sigStop w sig).1, 0) := by
      rw [sigStart, if_neg hkill, if_pos hsig, if_pos hzero]
    simp only [sigRaise, hstart, if_true]
  · intro hne
    have hstart : Extends (sigStop w sig).1 (sigStart self 2 w sig).1 := by
      rw [sigStart, if_neg hkill, if_pos hsig, if_neg hne]
      exact extends_sigStartRest (extends_sigStart self 1) self _ _
    simp only [sigRaise]
    split
    · exact hstart
    · exact hstart.trans (extends_resetHandler_log _ _ _)

theorem sigGenerate_stopsFirst (hsig : sigIsStopSignal sig = true)
    (hkill : sig ≠ SIGKILL) (hw : w.trace = []) : StopsFirst w sig (sigGenerate w sig).trace := by
  refine stopsFirst_of_stop hw ?_ ?_
  · intro hzero
    rw [sigGenerate, if_neg hkill, if_pos hsig, if_pos hzero]
  · intro hne
    rw [sigGenerate, if_neg hkill, if_pos hsig, if_neg hne]
    exact extends_sigGenerateRest _ _

/-- When stopping first is right: the signal stops the process anyway. Where `__sig_stop` gives up, it may
also do by accident what the disposition asks for. -/
def StopIsRight (w : SigWorld) (sig : Nat) (path : Path) : Prop :=
  (w.sighand sig = .dfl ∧ blocked w sig path = false) ∨
    (w.vforked = true ∧ w.sighand sig ≠ .ign ∧ blocked w sig path = true) ∨
    (w.vforked = false ∧ w.stopped = true ∧ w.sighand sig = .ign)

variable {path : Path} {trace : List Event}

theorem obeys_of_dfl
    (hdfl : w.sighand sig = .dfl) (hopen : blocked w sig path = false) : Obeys w sig path trace where
  stops _ := ⟨hdfl, hopen⟩
  drops h := absurd (hdfl.symm.trans h) nofun
  runs _ h := absurd (hdfl.symm.trans h) nofun
  pends _ h := absurd (hopen.symm.trans h) nofun

/-- What is asked of the trace, where stopping is not. -/
theorem obeys_iff_of (hright : ¬ (w.sighand sig = .dfl ∧ blocked w sig path = false)) : Obeys w sig path trace ↔
    .stopped sig ∉ trace ∧
      if w.sighand sig = .ign then ∀ e ∈ trace, e = .ignored sig ∨ e = .joined sig
      else if blocked w sig path then ∃ t, .enqueued t sig ∈ trace
      else ∃ t, receiver w sig path = some t ∧ (.handler t sig ∈ trace ∨ .enqueued (some t) sig ∈ trace) := by
  constructor
  · intro h
    refine ⟨fun hstop => hright (h.stops hstop), ?_⟩
    split_ifs with hign hblocked
    · exact h.drops hign
    · exact h.pends hign hblocked
    · rw [Bool.not_eq_true] at hblocked
      cases hdisp : w.sighand sig with
      | dfl => exact absurd ⟨hdisp, hblocked⟩ hright
      | ign => exact absurd hdisp hign
      | caught rva => exact h.runs rva hdisp hblocked
  · rintro ⟨hstop, h⟩
    split_ifs at h with hign hblocked
    · exact ⟨(absurd · hstop), fun _ => h, fun _ hc => absurd (hign.symm.trans hc) nofun, (absurd hign ·)⟩
    · exact ⟨(absurd · hstop), (absurd · hign), fun _ _ ho => absurd (hblocked.symm.trans ho) nofun, fun _ _ => h⟩
    · exact ⟨(absurd · hstop), (absurd · hign), fun _ _ _ => h, fun _ hb => absurd hb hblocked⟩

theorem StopsFirst.obeys_iff
    (h : StopsFirst w sig trace) : Obeys w sig path trace ↔ StopIsRight w sig path := by
  by_cases hright : w.sighand sig = .dfl ∧ blocked w sig path = false
  · exact iff_of_true (obeys_of_dfl hright.1 hright.2) (.inl hright)
  rw [StopIsRight, or_iff_right hright, obeys_iff_of hright]
  cases h with
  | punted hvforked htrace =>
    subst htrace
    simp [hvforked]
  | joined hvforked hstopped htrace =>
    subst htrace
    simp [hvforked, hstopped]
  | stopped hvforked hstopped htrace => simp [hvforked, hstopped, htrace]

theorem StopsFirst.stops_iff (h : StopsFirst w sig trace) :
    (.stopped sig ∈ trace ∨ .joined sig ∈ trace) ↔ w.vforked = false := by
  cases h with
  | punted hvforked htrace | joined hvforked hstopped htrace =>
    subst htrace
    simp [hvforked]
  | stopped hvforked hstopped htrace => exact iff_of_true (.inl htrace) hvforked

/-! ## 6. `__sig_kill` -/

/-- The thread can be made to run the handler, now or when it leaves Win32 code. -/
def Preemptible (th : SigThread) : Prop :=
  th.intoff = true ∨ (th.suspendThread = true ∧ th.getThreadContext = true ∧
    (th.inText = true → th.setThreadContext = true))

theorem sigKiller_obeys_iff (self : Option Nat) (pt : Nat)
    (hsig : sigIsStopSignal sig = true) (hstop : sig ≠ SIGSTOP) (hkill : sig ≠ SIGKILL)
    (hw : w.trace = []) (hreceiver : receiver w sig path = some pt) :
    Obeys w sig path (sigKiller self pt w sig).trace ↔
      ((∃ rva, w.sighand sig = .caught rva) → blocked w sig path = false → Preemptible (w.threads pt)) := by
  have hblocked : blocked w sig path = (w.threads pt).sigmask sig := by
    rw [blocked, hreceiver, Option.all_some]
  have hdefault : sigIgnoredByDefault sig = false := by
    simp only [sigIsStopSignal, Bool.or_eq_true, decide_eq_true_eq] at hsig
    obtain ((h | h) | h) | h := hsig <;> subst h <;> decide
  have hlog (e : Event) : (w.log e).trace = [e] := by simp [SigWorld.log, hw]
  have henqueue : (w.enqueue pt sig).trace = [.enqueued (some pt) sig] := by
    simp [SigWorld.enqueue, SigWorld.setThread, SigWorld.log, hw]
  have hreset (e : Event) : ((w.resetHandler sig).log e).trace = [e] := by
    rw [SigWorld.log, trace_resetHandler, hw]
    rfl
  by_cases hright : w.sighand sig = .dfl ∧ blocked w sig path = false
  · exact iff_of_true (obeys_of_dfl hright.1 hright.2) fun ⟨_, h⟩ => absurd (hright.1.symm.trans h) nofun
  rw [obeys_iff_of hright, sigKiller, if_neg hkill, if_neg hstop]
  by_cases hign : w.sighand sig = .ign
  · have hignored : sigIgnored w sig = true := by simp [sigIgnored, hign]
    simp [hignored, hign, hlog]
  have hignored : ¬ sigIgnored w sig = true := by simp [sigIgnored, hign, hdefault]
  cases hmask : (w.threads pt).sigmask sig with
  | true => simp [hignored, hmask, hign, hblocked, henqueue]
  | false =>
    have hopen : blocked w sig path = false := hblocked.trans hmask
    obtain ⟨rva, hdisp⟩ : ∃ rva, w.sighand sig = .caught rva := by
      cases hdisp : w.sighand sig with
      | dfl => exact absurd ⟨hdisp, hopen⟩ hright
      | ign => exact absurd hdisp hign
      | caught rva => exact ⟨rva, rfl⟩
    simp only [if_neg hignored, hopen, hdisp, hreceiver]
    cases hintoff : (w.threads pt).intoff <;> cases hsuspend : (w.threads pt).suspendThread <;>
      cases hget : (w.threads pt).getThreadContext <;> cases htext : (w.threads pt).inText <;>
      cases hset : (w.threads pt).setThreadContext <;>
      simp_all [Preemptible]

/-! ## 7. Every delivery -/

/-- Sending the signal to a thread is right if the thread can be made to run a handler. -/
def PathIsRight (w : SigWorld) (sig : Nat) : Path → Prop
  | .raise self => StopIsRight w sig (.raise self)
  | .pending self => StopIsRight w sig (.pending self)
  | .generate => StopIsRight w sig .generate
  | .kill self pt => (∃ rva, w.sighand sig = .caught rva) → blocked w sig (.kill self pt) = false →
      Preemptible (w.threads pt)

/-- When a stop signal is delivered as it should be. SIGSTOP may not come to a child of `vfork`. -/
def RightPath (w : SigWorld) (sig : Nat) (path : Path) : Prop :=
  if sig = SIGSTOP then w.vforked = false else PathIsRight w sig path

theorem StopsFirst.congr
    (h : StopsFirst w sig trace) (hvforked : w'.vforked = w.vforked) (hstopped : w'.stopped = w.stopped) :
    StopsFirst w' sig trace := by
  cases h with
  | punted hv ht => exact .punted (hvforked.trans hv) ht
  | joined hv hs ht => exact .joined (hvforked.trans hv) (hstopped.trans hs) ht
  | stopped hv hs ht => exact .stopped (hvforked.trans hv) (hstopped.trans hs) ht

theorem Obeys.congr (h : Obeys w sig path trace) (hsighand : w'.sighand = w.sighand)
    (hblocked : blocked w' sig path = blocked w sig path)
    (hreceiver : receiver w' sig path = receiver w sig path) : Obeys w' sig path trace where
  stops := by rw [hsighand, hblocked]; exact h.stops
  drops := by rw [hsighand]; exact h.drops
  runs := by rw [hsighand, hblocked, hreceiver]; exact h.runs
  pends := by rw [hsighand, hblocked]; exact h.pends

theorem sigGet_fields (self : Nat) (w : SigWorld) :
    (sigGet self w).1.vforked = w.vforked ∧ (sigGet self w).1.stopped = w.stopped := by
  simp only [sigGet]
  split <;> exact ⟨rfl, rfl⟩

/-- All paths but `__sig_kill` stop first, and that one does for SIGSTOP. -/
theorem deliver_stopsFirst (hsig : sigIsStopSignal sig = true)
    (hkill : sig ≠ SIGKILL) (hpath : sig = SIGSTOP ∨ ∀ self pt, path ≠ .kill self pt) :
    StopsFirst w sig (deliver w sig path).trace := by
  cases path with
  | raise self =>
    have h := sigRaise_stopsFirst self (w := { w with trace := [] }) hsig hkill rfl
    exact h.congr rfl rfl
  | pending self =>
    have h := sigRaise_stopsFirst self (w := { (sigGet self w).1 with trace := [] }) hsig hkill rfl
    exact h.congr (sigGet_fields self w).1.symm (sigGet_fields self w).2.symm
  | generate =>
    have h := sigGenerate_stopsFirst (w := { w with trace := [] }) hsig hkill rfl
    exact h.congr rfl rfl
  | kill self pt =>
    have hstop : sig = SIGSTOP := hpath.resolve_right fun h => h self pt rfl
    let th : SigThread := { w.threads self with sigmask := fun _ => true }
    let start : SigWorld := { w with trace := [] }.setThread self th
    have h : StopsFirst start sig (sigKiller (some self) pt start sig).trace := by
      simp only [sigKiller, if_neg hkill, if_pos hstop, sigStopThenRaise]
      refine stopsFirst_of_stop rfl ?_ ?_
      · intro hzero
        rw [if_pos hzero]
      · intro hne
        rw [if_neg hne]
        exact extends_sigRaise self _ _
    exact h.congr rfl rfl

/-- Along which paths a stop signal obeys its disposition. -/
theorem delivered_iff (w : SigWorld) (sig : Nat) (path : Path) (hsig : sigIsStopSignal sig = true)
    (harrives : Arrives w sig path) : Delivered w sig path ↔ RightPath w sig path := by
  have hkill : sig ≠ SIGKILL := fun h => by
    rw [h] at hsig
    cases hsig
  rw [Delivered, RightPath]
  by_cases hstop : sig = SIGSTOP
  · rw [if_pos hstop, if_pos hstop]
    exact (deliver_stopsFirst hsig hkill (.inl hstop)).stops_iff
  · rw [if_neg hstop, if_neg hstop]
    cases path with
    | raise self | pending self | generate =>
      exact (deliver_stopsFirst hsig hkill (.inr fun _ _ h => by cases h)).obeys_iff
    | kill self pt =>
      let th : SigThread := { w.threads self with sigmask := fun _ => true }
      let start : SigWorld := { w with trace := [] }.setThread self th
      have hthread : start.threads pt = w.threads pt := by
        exact Function.update_of_ne (show pt ≠ self from harrives) th w.threads
      have hblocked : blocked start sig (.kill self pt) = blocked w sig (.kill self pt) := by
        simp only [blocked, receiver, Option.all_some, hthread]
      have h := @sigKiller_obeys_iff start sig (.kill self pt) (some self) pt hsig hstop hkill rfl rfl
      rw [hthread, hblocked] at h
      refine Iff.trans ⟨fun hobeys => ?_, fun hobeys => ?_⟩ h
      · exact hobeys.congr rfl hblocked rfl
      · exact hobeys.congr rfl hblocked.symm rfl

/-- A process with one thread that ignores SIGTSTP. -/
def ignoring : SigWorld where
  sighand sig := if sig = SIGTSTP then .ign else .dfl
  resethand _ := false
  sigpending _ := false
  vforked := false
  stopped := false
  threads _ := ⟨fun _ => false, fun _ => false, false, fun _ => false, false, false, false, true, true, true, true⟩
  list := [0, 1]
  trace := []

/-- An ignored SIGTSTP stops the process when it is raised or generated, and is dropped when it is sent
to a thread. -/
theorem ignored_stops :
    (deliver ignoring SIGTSTP (.raise 0)).trace = [.stopped SIGTSTP, .ignored SIGCONT] ∧
      ¬ Delivered ignoring SIGTSTP (.raise 0) ∧
      (deliver ignoring SIGTSTP .generate).trace = [.stopped SIGTSTP, .ignored SIGCONT] ∧
      ¬ Delivered ignoring SIGTSTP .generate ∧
      (deliver ignoring SIGTSTP (.kill 0 1)).trace = [.ignored SIGTSTP] := by
  have hraise : (deliver ignoring SIGTSTP (.raise 0)).trace = [.stopped SIGTSTP, .ignored SIGCONT] := by
    decide
  have hgenerate : (deliver ignoring SIGTSTP .generate).trace = [.stopped SIGTSTP, .ignored SIGCONT] := by
    decide
  have hdisp : ignoring.sighand SIGTSTP ≠ .dfl := by decide
  refine ⟨hraise, fun h => ?_, hgenerate, fun h => ?_, by decide⟩
  · rw [Delivered, if_neg (by decide), hraise] at h
    exact hdisp (h.stops mem_cons_self).1
  · rw [Delivered, if_neg (by decide), hgenerate] at h
    exact hdisp (h.stops mem_cons_self).1

/-- The same signal sent to a thread meets the condition. -/
theorem delivered_iff_kill :
    RightPath ignoring SIGTSTP (.kill 0 1) ∧ Delivered ignoring SIGTSTP (.kill 0 1) := by
  have hright : RightPath ignoring SIGTSTP (.kill 0 1) := by
    rw [RightPath, if_neg (by decide)]
    rintro ⟨rva, hrva⟩
    exact absurd hrva (by simp [ignoring])
  exact ⟨hright, (delivered_iff ignoring SIGTSTP (.kill 0 1) (by decide)
    (show (1 : Nat) ≠ 0 by decide)).2 hright⟩

end CosmoRuby.Windows.Signals