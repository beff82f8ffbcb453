import CosmoRuby.Windows.Signals

/-!
# Stopping until SIGCONT

`__sig_stop` of `sig.c`, one step for each access to what is shared. Between two steps other processes send
SIGCONT, and other threads take it from the pending word for a handler.
-/

namespace CosmoRuby.Windows.Signals

inductive StopPhase where
  | enter | spin | test | clear | suspend | poll | resume | store
  | returned (value : Nat)

/-- What happens to SIGCONT in the pending word. -/
inductive ContEvent where
  | sent
  | taken
  deriving DecidableEq

/-- What others do in front of a step, and the value of `__sig.stopped` that other callers leave. -/
structure Between where
  events : List ContEvent
  stopped : Bool

structure StopState (T : Type) where
  vforked : Bool
  /-- The threads of the process that are neither this one nor in a `vfork`. -/
  others : T → Bool
  phase : StopPhase
  /-- SIGCONT is pending. -/
  cont : Bool
  /-- The signal that stops the process is pending. -/
  stop : Bool
  /-- This call has set `__sig.stopped`. -/
  owns : Bool
  suspends : T → Nat
  resumes : T → Nat

variable {T : Type} {env : Nat → Between} {s : StopState T} {vforked cont stop : Bool} {others : T → Bool}

def pendingAfter (cont : Bool) (events : List ContEvent) : Bool := events.foldl (fun _ e => e == .sent) cont

/-- A thread that is suspended takes nothing. -/
def StopState.meets (s : StopState T) (b : Between) : StopState T :=
  { s with
    cont :=
      match s.phase with
      | .poll | .resume => s.cont || b.events.contains .sent
      | _ => pendingAfter s.cont b.events }

def sigStopStep (b : Between) (s : StopState T) : StopState T :=
  match s.phase with
  | .enter =>
    if s.vforked then { s with stop := true, phase := .returned 0 }
    else if b.stopped then { s with phase := .spin }
    else { s with owns := true, phase := .test }
  | .spin => if b.stopped then s else { s with phase := .returned 0 }
  | .test => { s with stop := true, phase := if s.cont then .clear else .suspend }
  -- the process goes on to suspend its threads all the same
  | .clear => { s with cont := false, stop := false, phase := .suspend }
  | .suspend => { s with suspends := fun t => s.suspends t + (s.others t).toNat, phase := .poll }
  | .poll => { s with cont := false, phase := if s.cont then .resume else .poll }
  | .resume => { s with resumes := fun t => s.resumes t + (s.others t).toNat, phase := .store }
  | .store => { s with stop := false, owns := false, phase := .returned SIGCONT }
  | .returned _ => s

def sigStopRun (env : Nat → Between) (s : StopState T) : Nat → StopState T
  | 0 => s
  | n + 1 => sigStopRun (fun k => env (k + 1)) (sigStopStep (env 0) (s.meets (env 0))) n

def StopState.start (vforked : Bool) (others : T → Bool) (cont stop : Bool) : StopState T :=
  ⟨vforked, others, .enter, cont, stop, false, fun _ => 0, fun _ => 0⟩

structure Returned (s : StopState T) : Prop where
  phase : ∃ value, s.phase = .returned value
  owns : s.owns = false
  balanced : ∀ t, s.resumes t = s.suspends t

def Returns (env : Nat → Between) (s : StopState T) : Prop := ∃ n, Returned (sigStopRun env s n)

/-- A SIGCONT that is pending at the start or comes later makes the call return. -/
def ContWins (vforked : Bool) (others : T → Bool) (cont stop : Bool) (env : Nat → Between) : Prop :=
  (cont = true ∨ ∃ n, .sent ∈ (env n).events) → Returns env (.start vforked others cont stop)

/-! ## When the call returns -/

theorem returns_step : Returns env s ↔
    Returns (fun k => env (k + 1)) (sigStopStep (env 0) (s.meets (env 0))) := by
  constructor
  · rintro ⟨n, hn⟩
    cases n with
    | zero =>
      obtain ⟨⟨value, hvalue⟩, howns, hbalanced⟩ := hn
      refine ⟨0, ?_⟩
      rw [sigStopRun, sigStopStep, show (s.meets (env 0)).phase = .returned value from hvalue]
      exact ⟨⟨value, hvalue⟩, howns, hbalanced⟩
    | succ n => exact ⟨n, hn⟩
  · rintro ⟨n, hn⟩
    exact ⟨n + 1, hn⟩

theorem Returned.not_loop (h : Returned s) : ¬ (s.phase = .spin ∨ s.phase = .poll) := by
  obtain ⟨value, hvalue⟩ := h.phase
  rw [hvalue]
  rintro (hspin | hpoll)
  · cases hspin
  · cases hpoll

/-- A loop returns if it is left once. -/
theorem returns_loop {P : StopState T → Prop} {L : Between → Prop}
    (hleave : ∀ env s, P s → L (env 0) → Returns env s)
    (hstay : ∀ b s, P s → ¬ L b → P (sigStopStep b (s.meets b)))
    (hphase : ∀ s, P s → s.phase = .spin ∨ s.phase = .poll) (hs : P s) :
    Returns env s ↔ ∃ n, L (env n) := by
  constructor
  · rintro ⟨n, hn⟩
    induction n generalizing env s with
    | zero => exact absurd (hphase s hs) hn.not_loop
    | succ n ih =>
      by_cases hnow : L (env 0)
      · exact ⟨0, hnow⟩
      · obtain ⟨m, hm⟩ := ih (hstay _ s hs hnow) hn
        exact ⟨m + 1, hm⟩
  · rintro ⟨n, hn⟩
    induction n generalizing env s with
    | zero => exact hleave env s hs hn
    | succ n ih =>
      by_cases hnow : L (env 0)
      · exact hleave env s hs hnow
      · exact returns_step.mpr (ih (hstay _ s hs hnow) hn)

theorem step_spin (h : s.phase = .spin) (b : Between) : sigStopStep b (s.meets b) =
    if b.stopped then s.meets b else { s.meets b with phase := .returned 0 } := by
  rw [sigStopStep, show (s.meets b).phase = .spin from h]

theorem returns_spin (hphase : s.phase = .spin) (hs : s.owns = false ∧ s.resumes = s.suspends) :
    Returns env s ↔ ∃ n, (env n).stopped = false := by
  refine returns_loop (P := fun s => s.phase = .spin ∧ s.owns = false ∧ s.resumes = s.suspends)
    (L := fun b => b.stopped = false) ?_ ?_ (fun s h => .inl h.1) ⟨hphase, hs⟩
  · rintro env s ⟨hphase, howns, hsame⟩ hfree
    rw [returns_step, step_spin hphase, if_neg (by rw [hfree]; exact Bool.false_ne_true)]
    exact ⟨0, ⟨0, rfl⟩, howns, congrFun hsame⟩
  · rintro b s h hbusy
    rw [step_spin h.1, if_pos (Bool.eq_true_of_not_eq_false hbusy)]
    exact h

/-- The threads that were suspended are still to be resumed. -/
def StopState.Suspended (s : StopState T) : Prop :=
  ∀ t, s.resumes t + (s.others t).toNat = s.suspends t

theorem step_poll (h : s.phase = .poll) (b : Between) : sigStopStep b (s.meets b) =
    { s with cont := false, phase := if s.cont || b.events.contains .sent then .resume else .poll } := by
  obtain ⟨vforked, others, phase, cont, stop, owns, suspends, resumes⟩ := s
  cases h
  rfl

theorem returns_poll (hphase : s.phase = .poll) (hs : s.Suspended) :
    Returns env s ↔ s.cont = true ∨ ∃ n, .sent ∈ (env n).events := by
  have hleave (env : Nat → Between) (s : StopState T) (hphase : s.phase = .poll) (hs : s.Suspended)
      (hnow : (s.cont || (env 0).events.contains .sent) = true) : Returns env s := by
    rw [returns_step, step_poll hphase, if_pos hnow]
    exact ⟨2, ⟨_, rfl⟩, rfl, hs⟩
  cases hcont : s.cont with
  | true => exact iff_of_true (hleave env s hphase hs (by rw [hcont]; rfl)) (.inl rfl)
  | false =>
    rw [or_iff_right Bool.false_ne_true]
    refine returns_loop (P := fun s => s.phase = .poll ∧ s.cont = false ∧ s.Suspended)
      (L := fun b => .sent ∈ b.events) ?_ ?_ (fun s h => .inr h.1) ⟨hphase, hcont, hs⟩
    · rintro env s ⟨hphase, -, hs⟩ hsent
      exact hleave env s hphase hs (by simp [hsent])
    · rintro b s ⟨hphase, hcont, hs⟩ hno
      rw [step_poll hphase, if_neg (by simp [hcont, hno])]
      exact ⟨rfl, rfl, hs⟩

/-- SIGCONT comes before the suspension, in the step `n`, and is not taken again, or it comes later. -/
def Kept (env : Nat → Between) (n : Nat) : Prop :=
  pendingAfter false (env n).events = true ∨ ∃ k, .sent ∈ (env (k + (n + 1))).events

/-- What the test finds. -/
def found (cont : Bool) (env : Nat → Between) : Bool :=
  pendingAfter (pendingAfter cont (env 0).events) (env 1).events

/-- The step that suspends the threads is one later where SIGCONT is found, which is then cleared. -/
def suspendStep (cont : Bool) (env : Nat → Between) : Nat := if found cont env then 3 else 2

/-- The call returns at once, or when the caller returns that has set `__sig.stopped`, or for a SIGCONT that
comes after the test. -/
theorem returns_start : Returns env (.start vforked others cont stop) ↔
    vforked = true ∨ if (env 0).stopped then ∃ n, (env (n + 1)).stopped = false
      else Kept env (suspendStep cont env) := by
  have hsuspend (env : Nat → Between) (cont stop : Bool) :
      Returns env ⟨vforked, others, .suspend, cont, stop, true, fun _ => 0, fun _ => 0⟩ ↔
        pendingAfter cont (env 0).events = true ∨ ∃ k, .sent ∈ (env (k + 1)).events := by
    rw [returns_step]
    exact returns_poll rfl fun t => rfl
  rw [returns_step]
  dsimp only [StopState.start, StopState.meets]
  rw [sigStopStep]
  dsimp only
  by_cases hvforked : vforked = true
  · rw [if_pos hvforked]
    exact iff_of_true ⟨0, ⟨0, rfl⟩, rfl, fun _ => rfl⟩ (.inl hvforked)
  rw [if_neg hvforked, or_iff_right hvforked]
  by_cases hbusy : (env 0).stopped = true
  · rw [if_pos hbusy, if_pos hbusy, returns_spin rfl ⟨rfl, rfl⟩]
  rw [if_neg hbusy, if_neg hbusy, returns_step, suspendStep]
  change Returns _ ⟨vforked, others, if found cont env then .clear else .suspend, found cont env, true, true,
    fun _ => 0, fun _ => 0⟩ ↔ _
  cases found cont env with
  | true =>
    rw [if_pos rfl, returns_step]
    exact hsuspend _ false false
  | false => exact hsuspend _ false true

/-- SIGCONT wins unless it comes only before the test, or before the clearing that follows it, or is taken by
another thread before that is suspended. -/
theorem contWins_iff (vforked : Bool) (others : T → Bool) (cont stop : Bool) (env : Nat → Between) :
    ContWins vforked others cont stop env ↔ (cont = false ∧ ∀ n, .sent ∉ (env n).events) ∨ vforked = true ∨
      if (env 0).stopped then ∃ n, (env (n + 1)).stopped = false else Kept env (suspendStep cont env) := by
  rw [ContWins, returns_start, imp_iff_not_or, not_or, not_exists, Bool.not_eq_true]

/-- Nothing but a SIGCONT that is pending at the start: the call waits for another one. -/
theorem not_contWins : ¬ ContWins false (fun _ : Unit => true) true false fun _ => ⟨[], false⟩ := by
  intro h
  rcases returns_start.mp (h (.inl rfl)) with hvforked | hkept
  · cases hvforked
  · rw [if_neg Bool.false_ne_true] at hkept
    rcases hkept with hlast | ⟨k, hk⟩
    · cases hlast
    · cases hk

end CosmoRuby.Windows.Signals
