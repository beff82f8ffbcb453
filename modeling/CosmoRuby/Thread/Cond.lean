import Mathlib
import CosmoRuby.Lib.Reach

/-!
# Condition variables on a futex

`pthread_cond_timedwait_impl` without a deadline and `pthread_cond_signal`, with one step for each access to
the condition variable. The mutex is whoever holds it.

A signal advances the sequence number and wakes one thread in two steps. A thread that starts to wait in
between sleeps on the new number and may be the one that is woken. `signal_steals` is a run in which it is,
and `cond_signal` says that otherwise a thread returns that was waiting when the number was advanced.
-/

namespace CosmoRuby.Thread

open Lib

/-! ## 1. The code -/

inductive CondPc where
  /-- Outside, without the mutex. -/
  | out
  /-- Outside, with the mutex. -/
  | held
  /-- In wait with the sequence number, before `_waiters` is increased. -/
  | counting (seq1 : Nat)
  /-- Before the mutex is unlocked. -/
  | unlocking (seq1 : Nat)
  /-- Before `cosmo_futex_wait`. -/
  | waiting (seq1 : Nat)
  /-- Asleep in `cosmo_futex_wait`. -/
  | blocked (seq1 : Nat)
  /-- Behind `EAGAIN` or `EINTR`, before the sequence number is loaded. -/
  | reload (seq1 : Nat)
  /-- Out of the loop, before the mutex is locked again. -/
  | leaving
  /-- Before `_waiters` is decreased. -/
  | uncounting
  /-- In signal behind the increment, with the mutex or without, before `_waiters` is loaded. -/
  | checking (held : Bool)
  /-- Before `cosmo_futex_wake`. -/
  | waking (held : Bool)
  deriving DecidableEq, Repr

/-- The thread has released its mutex inside wait and is in the loop. -/
def CondPc.inLoop : CondPc → Option Nat
  | .waiting x | .blocked x | .reload x => some x
  | _ => none

/-- It is in the loop and not asleep. -/
def CondPc.awake : CondPc → Option Nat
  | .waiting x | .reload x => some x
  | _ => none

def CondPc.isBlocked : CondPc → Bool
  | .blocked _ => true
  | _ => false

/-- It goes on by itself, once it has the mutex it asks for. -/
def CondPc.runs : CondPc → Bool
  | .waiting _ | .reload _ | .leaving | .uncounting | .checking _ | .waking _ => true
  | _ => false

def CondPc.signaling : CondPc → Bool
  | .checking _ | .waking _ => true
  | _ => false

/-- It counts as a waiter. -/
def CondPc.counted : CondPc → Bool
  | .unlocking _ | .waiting _ | .blocked _ | .reload _ | .leaving | .uncounting => true
  | _ => false

/-- One more and one less, as a `uint32_t`. -/
@[irreducible] def u32Succ (n : Nat) : Nat := if n + 1 = 2 ^ 32 then 0 else n + 1

@[irreducible] def u32Pred (n : Nat) : Nat := if n = 0 then 2 ^ 32 - 1 else n - 1

structure Cond (T : Type) where
  sequence : Nat
  waiters : Nat
  owner : Option T
  pc : T → CondPc

namespace Cond

variable {T : Type} [DecidableEq T]

def move (s : Cond T) (t : T) (p : CondPc) : Cond T := { s with pc := Function.update s.pc t p }

def init : Cond T := ⟨0, 0, none, fun _ => .out⟩

inductive Act (T : Type) where
  | lock (t : T)
  | unlock (t : T)
  | wait (t : T)
  | count (t : T)
  | release (t : T)
  | futexWait (t : T)
  /-- `EINTR` -/
  | interrupt (t : T)
  | load (t : T)
  | relock (t : T)
  | uncount (t : T)
  | signal (t : T)
  | check (t : T)
  | wake (t : T) (waiter : Option T)
  /-- Nothing happens here. -/
  | skip

/-- The thread that moves. -/
def Act.thread : Act T → Option T
  | .lock t | .unlock t | .wait t | .count t | .release t | .futexWait t | .interrupt t | .load t
  | .relock t | .uncount t | .signal t | .check t | .wake t _ => some t
  | .skip => none

/-- Where a signal came from. -/
def outside (held : Bool) : CondPc := if held then .held else .out

def step [Fintype T] (s : Cond T) : Act T → Option (Cond T)
  | .lock t =>
    if s.pc t = .out ∧ s.owner = none then some ({ s with owner := some t }.move t .held) else none
  | .unlock t => if s.pc t = .held then some ({ s with owner := none }.move t .out) else none
  | .wait t => if s.pc t = .held then some (s.move t (.counting s.sequence)) else none
  | .count t =>
    match s.pc t with
    | .counting x => some ({ s with waiters := u32Succ s.waiters }.move t (.unlocking x))
    | _ => none
  | .release t =>
    match s.pc t with
    | .unlocking x => some ({ s with owner := none }.move t (.waiting x))
    | _ => none
  | .futexWait t =>
    match s.pc t with
    | .waiting x => some (s.move t (if s.sequence = x then .blocked x else .reload x))
    | _ => none
  | .interrupt t =>
    match s.pc t with
    | .waiting x => some (s.move t (.reload x))
    | .blocked x => some (s.move t (.reload x))
    | _ => none
  | .load t =>
    match s.pc t with
    | .reload x => some (s.move t (if s.sequence = x then .waiting x else .leaving))
    | _ => none
  | .relock t =>
    if s.pc t = .leaving ∧ s.owner = none then some ({ s with owner := some t }.move t .uncounting)
    else none
  | .uncount t =>
    if s.pc t = .uncounting then some ({ s with waiters := u32Pred s.waiters }.move t .held)
    else none
  | .signal t =>
    if s.pc t = .out ∨ s.pc t = .held then
      some ({ s with sequence := u32Succ s.sequence }.move t (.checking (decide (s.pc t = CondPc.held))))
    else none
  | .check t =>
    match s.pc t with
    | .checking b => some (s.move t (if s.waiters ≠ 0 then .waking b else outside b))
    | _ => none
  | .wake t (some w) =>
    match s.pc t, s.pc w with
    | .waking b, .blocked _ => some ((s.move w .leaving).move t (outside b))
    | _, _ => none
  | .wake t none =>
    match s.pc t with
    | .waking b => if ∀ u, (s.pc u).isBlocked = false then some (s.move t (outside b)) else none
    | _ => none
  | .skip => some s

/-! ## 2. What a step does -/

/-- The steps as a relation, one constructor for each outcome. -/
inductive StepOf (s : Cond T) : Act T → Cond T → Prop
  | lock {t : T} (hpc : s.pc t = .out) : StepOf s (.lock t) ({ s with owner := some t }.move t .held)
  | unlock {t : T} (hpc : s.pc t = .held) : StepOf s (.unlock t) ({ s with owner := none }.move t .out)
  | wait {t : T} (hpc : s.pc t = .held) : StepOf s (.wait t) (s.move t (.counting s.sequence))
  | count {t : T} {x : Nat} (hpc : s.pc t = .counting x) :
      StepOf s (.count t) ({ s with waiters := u32Succ s.waiters }.move t (.unlocking x))
  | release {t : T} {x : Nat} (hpc : s.pc t = .unlocking x) :
      StepOf s (.release t) ({ s with owner := none }.move t (.waiting x))
  | sleep {t : T} {x : Nat} (hpc : s.pc t = .waiting x) (hseq : s.sequence = x) :
      StepOf s (.futexWait t) (s.move t (.blocked x))
  | eagain {t : T} {x : Nat} (hpc : s.pc t = .waiting x) (hseq : s.sequence ≠ x) :
      StepOf s (.futexWait t) (s.move t (.reload x))
  | interrupt {t : T} {x : Nat} (hpc : s.pc t = .waiting x ∨ s.pc t = .blocked x) :
      StepOf s (.interrupt t) (s.move t (.reload x))
  | again {t : T} {x : Nat} (hpc : s.pc t = .reload x) (hseq : s.sequence = x) :
      StepOf s (.load t) (s.move t (.waiting x))
  | leave {t : T} {x : Nat} (hpc : s.pc t = .reload x) (hseq : s.sequence ≠ x) :
      StepOf s (.load t) (s.move t .leaving)
  | relock {t : T} (hpc : s.pc t = .leaving) :
      StepOf s (.relock t) ({ s with owner := some t }.move t .uncounting)
  | uncount {t : T} (hpc : s.pc t = .uncounting) :
      StepOf s (.uncount t) ({ s with waiters := u32Pred s.waiters }.move t .held)
  | signal {t : T} (b : Bool) (hpc : s.pc t = outside b) :
      StepOf s (.signal t) ({ s with sequence := u32Succ s.sequence }.move t (.checking b))
  | check {t : T} {b : Bool} (hpc : s.pc t = .checking b) (hwaiters : s.waiters ≠ 0) :
      StepOf s (.check t) (s.move t (.waking b))
  | nobody {t : T} {b : Bool} (hpc : s.pc t = .checking b) (hwaiters : s.waiters = 0) :
      StepOf s (.check t) (s.move t (outside b))
  | wake {t w : T} {b : Bool} {x : Nat} (hpc : s.pc t = .waking b) (hw : s.pc w = .blocked x) :
      StepOf s (.wake t (some w)) ((s.move w .leaving).move t (outside b))
  | wakeNone {t : T} {b : Bool} (hpc : s.pc t = .waking b) (hnone : ∀ u, (s.pc u).isBlocked = false) :
      StepOf s (.wake t none) (s.move t (outside b))
  | skip : StepOf s .skip s

variable {s s' : Cond T} {a : Act T}

theorem stepOf [Fintype T] (h : step s a = some s') : StepOf s a s' := by
  cases a with
  | lock t =>
    obtain ⟨⟨hpc, -⟩, rfl⟩ := of_guard h
    exact .lock hpc
  | unlock t =>
    obtain ⟨hpc, rfl⟩ := of_guard h
    exact .unlock hpc
  | wait t =>
    obtain ⟨hpc, rfl⟩ := of_guard h
    exact .wait hpc
  | count t =>
    simp only [step] at h
    split at h
    · next x hpc =>
      cases h
      exact .count hpc
    · cases h
  | release t =>
    simp only [step] at h
    split at h
    · next x hpc =>
      cases h
      exact .release hpc
    · cases h
  | futexWait t =>
    simp only [step] at h
    split at h
    · next x hpc =>
      cases h
      split_ifs with hseq
      · exact .sleep hpc hseq
      · exact .eagain hpc hseq
    · cases h
  | interrupt t =>
    simp only [step] at h
    split at h
    · next x hpc =>
      cases h
      exact .interrupt (.inl hpc)
    · next x hpc =>
      cases h
      exact .interrupt (.inr hpc)
    · cases h
  | load t =>
    simp only [step] at h
    split at h
    · next x hpc =>
      cases h
      split_ifs with hseq
      · exact .again hpc hseq
      · exact .leave hpc hseq
    · cases h
  | relock t =>
    obtain ⟨⟨hpc, -⟩, rfl⟩ := of_guard h
    exact .relock hpc
  | uncount t =>
    obtain ⟨hpc, rfl⟩ := of_guard h
    exact .uncount hpc
  | signal t =>
    obtain ⟨hpc | hpc, rfl⟩ := of_guard h
    · rw [show decide (s.pc t = .held) = false by rw [hpc]; rfl]
      exact .signal false hpc
    · rw [show decide (s.pc t = .held) = true by rw [hpc]; rfl]
      exact .signal true hpc
  | check t =>
    simp only [step] at h
    split at h
    · next b hpc =>
      cases h
      by_cases hwaiters : s.waiters = 0
      · rw [if_neg (not_not_intro hwaiters)]
        exact .nobody hpc hwaiters
      · rw [if_pos hwaiters]
        exact .check hpc hwaiters
    · cases h
  | wake t waiter =>
    cases waiter with
    | some w =>
      simp only [step] at h
      split at h
      · next b x hpc hw =>
        cases h
        exact .wake hpc hw
      · cases h
    | none =>
      simp only [step] at h
      split at h
      · next b hpc =>
        obtain ⟨hnone, rfl⟩ := of_guard h
        exact .wakeNone hpc hnone
      · cases h
  | skip =>
    cases h
    exact .skip

@[simp] theorem move_self (s : Cond T) (t : T) (p : CondPc) : (s.move t p).pc t = p := by
  simp [move]

@[simp] theorem move_of_ne (s : Cond T) {t u : T} (p : CondPc) (h : u ≠ t) :
    (s.move t p).pc u = s.pc u := by
  simp [move, h]

/-- The others do nothing to a thread but wake it. -/
theorem StepOf.pc_other (h : StepOf s a s') (u : T) (hu : a.thread ≠ some u) :
    s'.pc u = s.pc u ∨ ∃ x, s.pc u = .blocked x ∧ s'.pc u = .leaving := by
  cases h with
  | @wake t w b x hpc hw =>
    have hut : u ≠ t := fun heq => hu (by rw [heq]; rfl)
    by_cases huw : u = w
    · subst huw
      exact .inr ⟨x, hw, by rw [move_of_ne _ _ hut, move_self]⟩
    · exact .inl (by rw [move_of_ne _ _ hut, move_of_ne _ _ huw])
  | skip => exact .inl rfl
  | _ => exact .inl (move_of_ne _ _ fun heq => hu (by rw [heq]; rfl))

/-- Only a signal changes the sequence number. -/
theorem StepOf.sequence (h : StepOf s a s') :
    s'.sequence = s.sequence ∨ (∃ t, a = .signal t) ∧ s'.sequence = u32Succ s.sequence := by
  cases h with
  | @signal t b hpc => exact .inr ⟨⟨t, rfl⟩, rfl⟩
  | _ => exact .inl rfl

/-- What a thread can do at its program point. -/
inductive Goes (s : Cond T) : CondPc → CondPc → Prop
  | lock : Goes s .out .held
  | unlock : Goes s .held .out
  | wait : Goes s .held (.counting s.sequence)
  | count {x : Nat} : Goes s (.counting x) (.unlocking x)
  | release {x : Nat} : Goes s (.unlocking x) (.waiting x)
  | sleep {x : Nat} (hseq : s.sequence = x) : Goes s (.waiting x) (.blocked x)
  | retry {x : Nat} : Goes s (.waiting x) (.reload x)
  | interrupt {x : Nat} : Goes s (.blocked x) (.reload x)
  | again {x : Nat} (hseq : s.sequence = x) : Goes s (.reload x) (.waiting x)
  | leave {x : Nat} (hseq : s.sequence ≠ x) : Goes s (.reload x) .leaving
  | relock : Goes s .leaving .uncounting
  | uncount : Goes s .uncounting .held
  | signalOut : Goes s .out (.checking false)
  | signalHeld : Goes s .held (.checking true)
  | check {b : Bool} (hwaiters : s.waiters ≠ 0) : Goes s (.checking b) (.waking b)
  | nobody {b : Bool} (hwaiters : s.waiters = 0) : Goes s (.checking b) (outside b)
  | wake {b : Bool} : Goes s (.waking b) (outside b)

variable {t u : T}

theorem StepOf.own (h : StepOf s a s') (hown : a.thread = some t) : Goes s (s.pc t) (s'.pc t) := by
  -- a step of the thread moves it
  cases h <;> cases hown <;> rw [move_self]
  case lock hpc => rw [hpc]; exact .lock
  case unlock hpc => rw [hpc]; exact .unlock
  case wait hpc => rw [hpc]; exact .wait
  case count hpc => rw [hpc]; exact .count
  case release hpc => rw [hpc]; exact .release
  case sleep hseq hpc => rw [hpc]; exact .sleep hseq
  case eagain hseq hpc => rw [hpc]; exact .retry
  case interrupt hpc =>
    rcases hpc with hpc | hpc
    · rw [hpc]; exact .retry
    · rw [hpc]; exact .interrupt
  case again hseq hpc => rw [hpc]; exact .again hseq
  case leave hseq hpc => rw [hpc]; exact .leave hseq
  case relock hpc => rw [hpc]; exact .relock
  case uncount hpc => rw [hpc]; exact .uncount
  case signal b hpc =>
    rw [hpc]
    cases b with
    | false => exact .signalOut
    | true => exact .signalHeld
  case check hwaiters hpc => rw [hpc]; exact .check hwaiters
  case nobody hwaiters hpc => rw [hpc]; exact .nobody hwaiters
  case wake hw hpc | wakeNone hnone hpc => rw [hpc]; exact .wake

variable {b : Bool} {x : Nat}

/-- A wake-up finds a sleeper if there is one. -/
theorem StepOf.own_waking (h : StepOf s a s') (hpc : s.pc t = .waking b)
    (hu : s.pc u = .blocked x) (hown : a.thread = some t) :
    ∃ w, (s.pc w).isBlocked = true ∧ s'.pc w = .leaving := by
  cases h with
  | @wake t' w b' y hpc' hw =>
    have hne : w ≠ t' := fun heq => by
      rw [heq, hpc'] at hw
      cases hw
    exact ⟨w, by rw [hw]; rfl, by rw [move_of_ne _ _ hne, move_self]⟩
  | wakeNone hpc' hnone =>
    have hblocked := hnone u
    rw [hu] at hblocked
    cases hblocked
  | interrupt hpc' =>
    cases hown
    rcases hpc' with hpc' | hpc' <;> cases hpc.symm.trans hpc'
  | signal b' hpc' =>
    cases hown
    cases b' <;> cases hpc.symm.trans hpc'
  | skip => cases hown
  | _ hpc' =>
    cases hown
    cases hpc.symm.trans hpc'

/-- A thread that falls asleep had the current number. -/
theorem StepOf.falls_asleep (h : StepOf s a s') (hu : s'.pc u = .blocked x) :
    s.pc u = .blocked x ∨ a = .futexWait u ∧ s.pc u = .waiting s.sequence := by
  have hout (b : Bool) : outside b ≠ .blocked x := by cases b <;> exact nofun
  by_cases hown : a.thread = some u
  · cases h with
    | sleep hpc hseq =>
      cases hown
      exact .inr ⟨rfl, by rw [hpc, hseq]⟩
    | @nobody t b hpc _ | @wake t w b y hpc hw | @wakeNone t b hpc _ =>
      cases hown
      exact absurd ((move_self _ _ _).symm.trans hu) (hout b)
    | skip => cases hown
    | _ =>
      cases hown
      rw [move_self] at hu
      cases hu
  · rcases h.pc_other u hown with h | ⟨y, -, h⟩
    · exact .inl (h ▸ hu)
    · rw [h] at hu
      cases hu

/-- The first step of a signal. -/
theorem StepOf.signal_eq (h : StepOf s (.signal u) s') :
    ∃ b, s.pc u = outside b ∧ s'.pc u = .checking b ∧ s'.sequence = u32Succ s.sequence ∧
      ∀ t, t ≠ u → s'.pc t = s.pc t := by
  cases h with
  | signal b hpc => exact ⟨b, hpc, move_self _ _ _, rfl, fun t ht => move_of_ne _ _ ht⟩

/-! ## 3. The number of waiters -/

section Counter

variable [Fintype T]

def counters (s : Cond T) : Finset T := Finset.univ.filter fun t => (s.pc t).counted = true

omit [DecidableEq T] in
theorem mem_counters (s : Cond T) (t : T) : t ∈ s.counters ↔ (s.pc t).counted = true := by
  simp [counters]

omit [DecidableEq T] in
theorem counters_congr (h : ∀ t, (s'.pc t).counted = (s.pc t).counted) : s'.counters = s.counters := by
  ext t
  rw [mem_counters, mem_counters, h]

variable {p : CondPc}

omit [Fintype T] in
theorem counted_move (hp : p.counted = (s.pc t).counted) (u : T) :
    ((s.move t p).pc u).counted = (s.pc u).counted := by
  by_cases hu : u = t
  · subst hu
    rw [move_self, hp]
  · rw [move_of_ne _ _ hu]

theorem counters_move : (s.move t p).counters = if p.counted then insert t s.counters else s.counters.erase t := by
  ext u
  rw [mem_counters]
  by_cases hu : u = t
  · subst hu
    rw [move_self]
    split_ifs with hp <;> simp [hp]
  · rw [move_of_ne _ _ hu]
    split_ifs <;> simp [hu, mem_counters]

theorem counted_outside (b : Bool) : (outside b).counted = false := by
  cases b <;> rfl

variable {n : Nat}

theorem u32Succ_eq (h : n + 1 < 2 ^ 32) : u32Succ n = n + 1 := by
  rw [u32Succ, if_neg (by omega)]

theorem u32Pred_eq (h : 0 < n) : u32Pred n = n - 1 := by
  rw [u32Pred, if_neg (by omega)]

/-- `_waiters` is the number of threads that count as waiters. -/
def Counts (s : Cond T) : Prop := s.waiters = s.counters.card

omit [DecidableEq T] in
theorem counts_init : (init : Cond T).Counts := by
  rw [Counts, show (init : Cond T).counters = ∅ from Finset.filter_eq_empty_iff.2 fun _ _ => nofun]
  rfl

theorem Counts.move_keep (h : s.Counts) (hp : p.counted = (s.pc t).counted) :
    (s.move t p).Counts := by
  rw [Counts, counters_congr (counted_move hp)]
  exact h

theorem Counts.step (hcard : Fintype.card T < 2 ^ 32) (h : s.Counts) (hstep : StepOf s a s') : s'.Counts := by
  cases hstep with
  | lock hpc | unlock hpc | release hpc | relock hpc =>
    exact Counts.move_keep (s := { s with owner := _ }) h (by rw [hpc]; rfl)
  | wait hpc | sleep hpc hseq | eagain hpc hseq | again hpc hseq | leave hpc hseq
  | check hpc hwaiters => exact h.move_keep (by rw [hpc]; rfl)
  | @count t x hpc =>
    have hnot : t ∉ s.counters := by
      rw [mem_counters, hpc]
      exact nofun
    have hle : (insert t s.counters).card ≤ Fintype.card T := Finset.card_le_univ _
    rw [Finset.card_insert_of_notMem hnot] at hle
    have hcounters : ({ s with waiters := u32Succ s.waiters }.move t (.unlocking x)).counters =
        insert t s.counters := counters_move
    rw [Counts, hcounters, Finset.card_insert_of_notMem hnot, ← h]
    rw [← h] at hle
    exact u32Succ_eq (by omega)
  | interrupt hpc =>
    rcases hpc with hpc | hpc
    · exact h.move_keep (by rw [hpc]; rfl)
    · exact h.move_keep (by rw [hpc]; rfl)
  | @uncount t hpc =>
    have hmem : t ∈ s.counters := by
      rw [mem_counters, hpc]
      rfl
    have hcounters : ({ s with waiters := u32Pred s.waiters }.move t .held).counters =
        s.counters.erase t := counters_move
    rw [Counts, hcounters, Finset.card_erase_of_mem hmem, ← h]
    refine u32Pred_eq ?_
    rw [h]
    exact Finset.card_pos.2 ⟨t, hmem⟩
  | signal b hpc =>
    exact Counts.move_keep (s := { s with sequence := _ }) h (by rw [hpc, counted_outside]; rfl)
  | nobody hpc hwaiters | wakeNone hpc hnone => exact h.move_keep (by rw [hpc, counted_outside]; rfl)
  | @wake t w b x hpc hw =>
    have hne : t ≠ w := fun heq => by
      rw [heq, hw] at hpc
      cases hpc
    have hwoken : (s.move w .leaving).Counts := h.move_keep (by rw [hw]; rfl)
    refine hwoken.move_keep ?_
    rw [move_of_ne _ _ hne, hpc, counted_outside]
    rfl
  | skip => exact h

omit [DecidableEq T] in
theorem Counts.ne_zero (h : s.Counts) (ht : (s.pc t).counted = true) : s.waiters ≠ 0 := by
  rw [h]
  exact (Finset.card_pos.2 ⟨t, (mem_counters s t).2 ht⟩).ne'

end Counter

/-! ## 4. Fair runs -/

/-- No thread falls asleep while a signal is between its increment and its wake-up, and the sequence number
does not come round to that of a thread that waits. -/
def Careful (s : Cond T) : Act T → Prop
  | .signal _ => ∀ t x, (s.pc t).inLoop = some x → u32Succ s.sequence ≠ x
  | .futexWait t => s.pc t = .waiting s.sequence → ∀ u, (s.pc u).signaling = false
  | _ => True

variable [Fintype T] {run : InfRun (step (T := T))} {n : Nat}

omit [DecidableEq T] [Fintype T] in
theorem careful_signal (s : Cond T) (u : T) :
    (∀ t, (s.pc t).inLoop ≠ some (u32Succ s.sequence)) ↔ Careful s (.signal u) :=
  ⟨fun h t _ hx hseq => h t (hseq ▸ hx), fun h t ht => h t _ ht rfl⟩

instance (s : Cond T) (a : Act T) : Decidable (Careful s a) :=
  match a with
  | .signal u => decidable_of_iff _ (careful_signal s u)
  | .futexWait t => inferInstanceAs (Decidable (s.pc t = .waiting s.sequence → ∀ u, (s.pc u).signaling = false))
  | .lock _ | .unlock _ | .wait _ | .count _ | .release _ | .interrupt _ | .load _ | .relock _ | .uncount _
  | .check _ | .wake _ _ | .skip => isTrue trivial

/-- A thread that can go on does, and one that asks for the mutex gets it. -/
def Fair (run : InfRun (step (T := T))) : Prop :=
  ∀ n t, ((run.state n).pc t).runs = true → ∃ m, n ≤ m ∧ (run.act m).thread = some t

/-- A point that the others cannot change. -/
theorem pc_stays {p : CondPc} (hpc : (run.state n).pc t = p) (hp : p.isBlocked = false)
    (hown : (run.act n).thread ≠ some t) : (run.state (n + 1)).pc t = p := by
  rcases (stepOf (run.next n)).pc_other t hown with h | ⟨x, hx, -⟩
  · rw [h, hpc]
  · rw [hpc] at hx
    rw [hx] at hp
    cases hp

/-- A thread at a point that the others cannot change takes a step from there in the end, and what is
kept until then still holds. -/
theorem eventually_goes (hfair : Fair run) {p q : CondPc} {K : Cond T → Prop} (hruns : p.runs = true)
    (hp : p.isBlocked = false)
    (hkeep : ∀ m, (run.state m).pc t = p → K (run.state m) → K (run.state (m + 1)))
    (hgoes : ∀ (s : Cond T) r, K s → Goes s p r → r = q) (hpc : (run.state n).pc t = p)
    (hn : K (run.state n)) : ∃ m, n ≤ m ∧ (run.state m).pc t = q ∧ K (run.state m) := by
  refine eventually_of_fair (P := fun m => (run.state m).pc t = p ∧ K (run.state m))
    (O := fun m => (run.act m).thread = some t) ⟨hpc, hn⟩ ?_ (hfair n t (by rw [hpc]; exact hruns))
  rintro m - ⟨hpc, hm⟩
  have hnext := hkeep m hpc hm
  by_cases hown : (run.act m).thread = some t
  · have h := (stepOf (run.next m)).own hown
    rw [hpc] at h
    exact .inl ⟨hgoes _ _ hm h, hnext⟩
  · exact .inr ⟨⟨pc_stays hpc hp hown, hnext⟩, hown⟩

theorem counts_run (hcard : Fintype.card T < 2 ^ 32) (hinit : run.state 0 = init) (n : Nat) : (run.state n).Counts := by
  induction n with
  | zero =>
    rw [hinit]
    exact counts_init
  | succ m ih => exact ih.step hcard (stepOf (run.next m))

section

variable (hcareful : ∀ n, Careful (run.state n) (run.act n))
include hcareful

/-- While a thread waits with another number, the sequence number stays another one. -/
theorem sequence_ne (hloop : ((run.state n).pc t).inLoop = some x) (hseq : (run.state n).sequence ≠ x) :
    (run.state (n + 1)).sequence ≠ x := by
  rcases (stepOf (run.next n)).sequence with h | ⟨⟨u, hact⟩, h⟩
  · rw [h]
    exact hseq
  · have hc := hcareful n
    rw [hact] at hc
    rw [h]
    exact hc t x hloop

variable (hfair : Fair run)
include hfair

theorem reload_leaves (hpc : (run.state n).pc t = .reload x) (hseq : (run.state n).sequence ≠ x) :
    ∃ m, n ≤ m ∧ (run.state m).pc t = .leaving := by
  have hgoes (s : Cond T) r (hseq : s.sequence ≠ x) (h : Goes s (.reload x) r) : r = .leaving := by
    cases h with
    | again h => exact absurd h hseq
    | leave _ => rfl
  obtain ⟨m, hm, hleaving, -⟩ := eventually_goes hfair rfl rfl
    (fun m hpc => sequence_ne hcareful (by rw [hpc]; rfl)) hgoes hpc hseq
  exact ⟨m, hm, hleaving⟩

/-- A thread that is awake with an old number leaves the loop. -/
theorem awake_leaves (hpc : ((run.state n).pc t).awake = some x) (hseq : (run.state n).sequence ≠ x) :
    ∃ m, n ≤ m ∧ (run.state m).pc t = .leaving := by
  cases hp : (run.state n).pc t <;> rw [hp] at hpc <;> cases hpc
  case waiting =>
    have hgoes (s : Cond T) r (hseq : s.sequence ≠ x) (h : Goes s (.waiting x) r) : r = .reload x := by
      cases h with
      | sleep h => exact absurd h hseq
      | retry => rfl
    obtain ⟨m, hm, hpc', hseq'⟩ := eventually_goes hfair rfl rfl
      (fun m hpc => sequence_ne hcareful (by rw [hpc]; rfl)) hgoes hp hseq
    obtain ⟨k, hk, hleaving⟩ := reload_leaves hcareful hfair hpc' hseq'
    exact ⟨k, hm.trans hk, hleaving⟩
  case reload => exact reload_leaves hcareful hfair hp hseq

omit hcareful in
/-- Outside the loop it gets the mutex and returns. -/
theorem leaving_returns (hpc : (run.state n).pc t = .leaving) :
    ∃ m, n ≤ m ∧ (run.state m).pc t = .held := by
  obtain ⟨m, hm, hpc', -⟩ := eventually_goes (q := .uncounting) (K := fun _ => True) hfair rfl rfl
    (fun _ _ h => h) (fun _ _ _ h => by cases h; rfl) hpc trivial
  obtain ⟨k, hk, hpc'', -⟩ := eventually_goes (q := .held) (K := fun _ => True) hfair rfl rfl
    (fun _ _ h => h) (fun _ _ _ h => by cases h; rfl) hpc' trivial
  exact ⟨k, hm.trans hk, hpc''⟩

/-! ## 5. Signals -/

/-- The thread `t` of those that were waiting at `n` is on its way out at `m`. -/
def Escapes (run : InfRun (step (T := T))) (n m : Nat) : Prop :=
  ∃ t, ((run.state n).pc t).inLoop.isSome = true ∧ ((run.state m).pc t = .leaving ∨
    ∃ x, ((run.state m).pc t).awake = some x ∧ (run.state m).sequence ≠ x)

/-- At `m` the signal is at `p`, nobody sleeps who did not at `n`, and `t` does. -/
structure Sleeping (run : InfRun (step (T := T))) (n : Nat) (u t : T) (x : Nat) (p : CondPc) (m : Nat) :
    Prop where
  signal : (run.state m).pc u = p
  noNew : ∀ v, ((run.state m).pc v).isBlocked = true → ((run.state n).pc v).isBlocked = true
  asleep : (run.state m).pc t = .blocked x
  sequence : (run.state m).sequence ≠ x

omit hcareful hfair in
theorem isBlocked_iff {p : CondPc} : p.isBlocked = true ↔ ∃ x, p = .blocked x := by
  cases p with
  | blocked x => exact iff_of_true rfl ⟨x, rfl⟩
  | _ => exact iff_of_false nofun fun ⟨_, h⟩ => by cases h

omit hfair in
/-- While a signal is in progress, a sleeper escapes or sleeps on, and nobody falls asleep. -/
theorem Sleeping.next {n m : Nat} {p : CondPc}
    (ht : ((run.state n).pc t).inLoop.isSome = true) (hp : p.signaling = true)
    (h : Sleeping run n u t x p m) :
    Escapes run n (m + 1) ∨ ∀ q, (run.state (m + 1)).pc u = q → Sleeping run n u t x q (m + 1) := by
  have hstep := stepOf (run.next m)
  have hseq := sequence_ne hcareful (t := t) (by rw [h.asleep]; rfl) h.sequence
  have hkeep : (run.state (m + 1)).pc t = .blocked x → ∀ q, (run.state (m + 1)).pc u = q →
      Sleeping run n u t x q (m + 1) := by
    intro hasleep q hq
    refine ⟨hq, fun v hv => ?_, hasleep, hseq⟩
    obtain ⟨y, hy⟩ := isBlocked_iff.1 hv
    rcases hstep.falls_asleep hy with hsame | ⟨hact, hpc⟩
    · exact h.noNew v (isBlocked_iff.2 ⟨y, hsame⟩)
    · have hc := hcareful m
      rw [hact] at hc
      have hnot := hc hpc u
      rw [h.signal, hp] at hnot
      cases hnot
  by_cases hown : (run.act m).thread = some t
  · have hgoes := hstep.own hown
    rw [h.asleep] at hgoes
    generalize hp' : (run.state (m + 1)).pc t = p' at hgoes
    cases hgoes with
    | interrupt => exact .inl ⟨t, ht, .inr ⟨x, by rw [hp']; rfl, hseq⟩⟩
  · rcases hstep.pc_other t hown with hsame | ⟨y, -, hleaving⟩
    · exact .inr (hkeep (by rw [hsame, h.asleep]))
    · exact .inl ⟨t, ht, .inl hleaving⟩

/-- A signal in progress lets somebody escape who was asleep when it started. -/
theorem Sleeping.escapes (hcard : Fintype.card T < 2 ^ 32) (hinit : run.state 0 = init) {n k : Nat}
    (ht : ((run.state n).pc t).inLoop.isSome = true)
    (h : Sleeping run n u t x (.checking b) k) : ∃ m, k ≤ m ∧ Escapes run n m := by
  have hcounts := counts_run hcard hinit
  -- the load of `_waiters` sees the sleeper
  obtain ⟨m, hm, hescapes | hwaking⟩ := eventually_of_fair
    (Q := fun m => Escapes run n m ∨ Sleeping run n u t x (.waking b) m)
    (O := fun m => (run.act m).thread = some u) h (by
      intro m _ h
      rcases h.next hcareful ht rfl with hescapes | hnext
      · exact .inl (.inl hescapes)
      · by_cases hown : (run.act m).thread = some u
        · have hgoes := (stepOf (run.next m)).own hown
          rw [h.signal] at hgoes
          generalize hp : (run.state (m + 1)).pc u = p at hgoes
          cases hgoes with
          | check _ => exact .inl (.inr (hnext _ hp))
          | nobody hzero => exact absurd hzero ((hcounts m).ne_zero (t := t) (by rw [h.asleep]; rfl))
        · exact .inr ⟨hnext _ (pc_stays h.signal rfl hown), hown⟩)
    (hfair k u (by rw [h.signal]; rfl))
  · exact ⟨m, hm, hescapes⟩
  -- the wake-up finds a sleeper, and all of them slept when the signal started
  · obtain ⟨m', hm', hescapes⟩ := eventually_of_fair (Q := Escapes run n)
      (O := fun m => (run.act m).thread = some u) hwaking (by
        intro m _ h
        rcases h.next hcareful ht rfl with hescapes | hnext
        · exact .inl hescapes
        · by_cases hown : (run.act m).thread = some u
          · obtain ⟨w, hw, hleaving⟩ := (stepOf (run.next m)).own_waking h.signal h.asleep hown
            obtain ⟨y, hy⟩ := isBlocked_iff.1 (h.noNew w hw)
            exact .inl ⟨w, by rw [hy]; rfl, .inl hleaving⟩
          · exact .inr ⟨hnext _ (pc_stays h.signal rfl hown), hown⟩)
      (hfair m u (by rw [hwaking.signal]; rfl))
    exact ⟨m', hm.trans hm', hescapes⟩

/-- Behind the increment every thread in the loop has an old number. -/
theorem signal_escapes (hcard : Fintype.card T < 2 ^ 32) (hinit : run.state 0 = init)
    (hsignal : run.act n = .signal u) (ht : ((run.state n).pc t).inLoop.isSome = true) :
    ∃ m, n ≤ m ∧ Escapes run n m := by
  obtain ⟨x, hx⟩ := Option.isSome_iff_exists.1 ht
  have hstep := stepOf (run.next n)
  have hc := hcareful n
  rw [hsignal] at hc hstep
  obtain ⟨b, hout, hb, hnext, hothers⟩ := hstep.signal_eq
  have hne : t ≠ u := fun heq => by
    rw [heq, hout] at hx
    cases b <;> cases hx
  have hseq : (run.state (n + 1)).sequence ≠ x := hnext ▸ hc t x hx
  have hpc := hothers t hne
  by_cases hblocked : ((run.state n).pc t).isBlocked = true
  · obtain ⟨y, hy⟩ := isBlocked_iff.1 hblocked
    rw [hy] at hx
    cases hx
    have hsleeping : Sleeping run n u t x (.checking b) (n + 1) := by
      refine ⟨hb, fun v hv => ?_, by rw [hpc, hy], hseq⟩
      obtain ⟨z, hz⟩ := isBlocked_iff.1 hv
      rcases hstep.falls_asleep hz with hsame | ⟨hact, -⟩
      · exact isBlocked_iff.2 ⟨z, hsame⟩
      · cases hact
    obtain ⟨m, hm, hescapes⟩ := hsleeping.escapes hcareful hfair hcard hinit ht
    exact ⟨m, by omega, hescapes⟩
  · refine ⟨n + 1, by omega, t, ht, .inr ⟨x, ?_, hseq⟩⟩
    rw [hpc]
    cases hp : (run.state n).pc t with
    | blocked y => exact absurd (isBlocked_iff.2 ⟨y, hp⟩) hblocked
    | waiting y | reload y => rw [hp] at hx; exact hx
    | _ => rw [hp] at hx; cases hx

end

/-- A signal lets a thread return that was waiting when it started. -/
theorem cond_signal (T : Type) [Fintype T] [DecidableEq T] (hcard : Fintype.card T < 2 ^ 32)
    (run : InfRun (step (T := T))) (hinit : run.state 0 = init) (hfair : Fair run)
    (hcareful : ∀ n, Careful (run.state n) (run.act n)) (n : Nat) (u : T)
    (hsignal : run.act n = .signal u) (hwaiting : ∃ t, ((run.state n).pc t).inLoop.isSome = true) :
    ∃ t, ((run.state n).pc t).inLoop.isSome = true ∧ ∃ m, n ≤ m ∧ (run.state m).pc t = .held := by
  obtain ⟨t₀, ht₀⟩ := hwaiting
  obtain ⟨m, hm, t, ht, hout⟩ := signal_escapes hcareful hfair hcard hinit hsignal ht₀
  have hleaves : ∃ k, m ≤ k ∧ (run.state k).pc t = .leaving := by
    rcases hout with hleaving | ⟨x, hawake, hseq⟩
    · exact ⟨m, Nat.le_refl m, hleaving⟩
    · exact awake_leaves hcareful hfair hawake hseq
  obtain ⟨k, hk, hleaving⟩ := hleaves
  obtain ⟨j, hj, hheld⟩ := leaving_returns hfair hleaving
  exact ⟨t, ht, j, by omega, hheld⟩

/-! ## 6. A signal that is stolen -/

/-- The states that a list of steps leads through; behind them nothing happens. -/
def replay (acts : List (Act T)) : Nat → Cond T
  | 0 => init
  | n + 1 => (step (replay acts n) (acts.getD n .skip)).getD (replay acts n)

theorem replay_end (acts : List (Act T)) (n : Nat) (hn : acts.length ≤ n) :
    replay acts n = replay acts acts.length := by
  induction n, hn using Nat.le_induction with
  | base => rfl
  | succ n hn ih => rw [replay, List.getD_eq_default _ _ hn, step, Option.getD_some, ih]

section

variable (acts : List (Act T))
  (hacts : ∀ n < acts.length, (step (replay acts n) (acts.getD n .skip)).isSome = true)
include hacts

theorem replay_next (n : Nat) : step (replay acts n) (acts.getD n .skip) = some (replay acts (n + 1)) := by
  have hsome : (step (replay acts n) (acts.getD n .skip)).isSome = true := by
    by_cases hn : n < acts.length
    · exact hacts n hn
    · rw [List.getD_eq_default _ _ (Nat.le_of_not_lt hn)]
      rfl
  obtain ⟨s, hs⟩ := Option.isSome_iff_exists.1 hsome
  rw [replay, hs, Option.getD_some]

def replayRun : InfRun (step (T := T)) :=
  ⟨replay acts, fun n => acts.getD n .skip, replay_next acts hacts⟩

/-- It is fair if the steps are and nobody can go on at the end. -/
theorem replayRun_fair
    (hsteps : ∀ n < acts.length, ∀ t, ((replay acts n).pc t).runs = true →
      ∃ m < acts.length, n ≤ m ∧ (acts.getD m .skip).thread = some t)
    (hend : ∀ t, ((replay acts acts.length).pc t).runs = false) : Fair (replayRun acts hacts) := by
  intro n t hruns
  by_cases hn : n < acts.length
  · obtain ⟨m, -, hm, hthread⟩ := hsteps n hn t hruns
    exact ⟨m, hm, hthread⟩
  · change ((replay acts n).pc t).runs = true at hruns
    rw [replay_end acts n (Nat.le_of_not_lt hn), hend t] at hruns
    cases hruns

end

/-- Thread 0 waits; thread 2 signals without the mutex; thread 1 starts to wait between the increment and
the wake-up and is the one that is woken. -/
def stolenActs : List (Act (Fin 5)) :=
  [.lock 0, .wait 0, .count 0, .release 0, .futexWait 0, .signal 2, .lock 1, .wait 1, .count 1, .release 1,
    .futexWait 1, .check 2, .wake 2 (some 1), .relock 1, .uncount 1]

def stolenRun : InfRun (step (T := Fin 5)) := replayRun stolenActs (by decide +kernel)

/-- In this fair run the signal starts while thread 0 waits, and no thread that waited then returns. -/
theorem signal_steals : stolenRun.state 0 = init ∧ Fair stolenRun ∧ stolenRun.act 5 = .signal 2 ∧
    (stolenRun.state 5).pc 0 = .blocked 0 ∧
      ¬ ∃ t, ((stolenRun.state 5).pc t).inLoop.isSome = true ∧
        ∃ m, 5 ≤ m ∧ (stolenRun.state m).pc t = .held := by
  refine ⟨rfl, replayRun_fair _ _ (by decide +kernel) (by decide +kernel), rfl, by decide +kernel, ?_⟩
  rintro ⟨t, ht, m, hm, hheld⟩
  have hzero : ∀ t, ((replay stolenActs 5).pc t).inLoop.isSome = true → t = 0 := by decide +kernel
  have hasleep : ∀ m < 16, 5 ≤ m → (replay stolenActs m).pc 0 = .blocked 0 := by decide +kernel
  obtain rfl := hzero t ht
  change (replay stolenActs m).pc 0 = .held at hheld
  by_cases hm' : m < 16
  · rw [hasleep m hm' hm] at hheld
    cases hheld
  · have hend := replay_end stolenActs m (show stolenActs.length ≤ m from Nat.le_of_lt (Nat.le_of_not_lt hm'))
    rw [hend, hasleep stolenActs.length (by decide) (by decide)] at hheld
    cases hheld

/-- The same without the newcomer. -/
def servedActs : List (Act (Fin 5)) :=
  [.lock 0, .wait 0, .count 0, .release 0, .futexWait 0, .signal 2, .check 2, .wake 2 (some 0), .relock 0,
    .uncount 0]

def servedRun : InfRun (step (T := Fin 5)) := replayRun servedActs (by decide +kernel)

/-- It meets the conditions, and thread 0 returns. -/
theorem cond_signal_served :
    ∃ t, ((servedRun.state 5).pc t).inLoop.isSome = true ∧ ∃ m, 5 ≤ m ∧ (servedRun.state m).pc t = .held := by
  refine cond_signal (Fin 5) (by decide) servedRun rfl
    (replayRun_fair _ _ (by decide +kernel) (by decide +kernel)) (fun n => ?_) 5 2 rfl ⟨0, by decide +kernel⟩
  have hsteps : ∀ n < 10, Careful (replay servedActs n) (servedActs.getD n .skip) := by decide +kernel
  by_cases hn : n < 10
  · exact hsteps n hn
  · change Careful (replay servedActs n) (servedActs.getD n .skip)
    rw [List.getD_eq_default _ _ (Nat.le_of_not_lt hn)]
    trivial

/-- In every run `_waiters` is the number of threads that are between their two updates of it, so a signal that reads 0
and wakes nobody leaves nobody behind in the loop. -/
theorem waiters_eq_card (T : Type) [Fintype T] [DecidableEq T] (hcard : Fintype.card T < 2 ^ 32)
    (run : InfRun (step (T := T))) (hinit : run.state 0 = init) (n : Nat) :
    (run.state n).waiters = Fintype.card { t // ((run.state n).pc t).counted = true } ∧
      ((run.state n).waiters = 0 → ∀ t, ((run.state n).pc t).inLoop = none) := by
  have hcounts := counts_run hcard hinit n
  refine ⟨?_, fun hzero t => ?_⟩
  · rw [hcounts, counters, Fintype.card_subtype]
  · have hout : ((run.state n).pc t).counted ≠ true := fun ht => hcounts.ne_zero ht hzero
    cases hpc : (run.state n).pc t with
    | waiting x | blocked x | reload x => exact absurd (by rw [hpc]; rfl) hout
    | _ => rfl

theorem waiters_eq_card_served : (servedRun.state 5).waiters = 1 ∧
    (servedRun.state 5).waiters = Fintype.card { t // ((servedRun.state 5).pc t).counted = true } :=
  ⟨by decide +kernel, (waiters_eq_card (Fin 5) (by decide) servedRun rfl 5).1⟩

end Cond
end CosmoRuby.Thread