import Mathlib
import CosmoRuby.Lib.Reach

/-!
# The futex mutex

`pthread_mutex_lock_drepper` and `pthread_mutex_unlock_drepper`, with one step for each access to the futex
word. A thread is at a program point, and the threads move in any order.

Two invariants carry the results. `Exclusive` says whose mutex it is: the word is 0 exactly if no thread is
between taking the mutex and giving it back. `Pending` says that a sleeping thread is not forgotten: either
the word tells the holder to wake somebody, or some thread is on its way to do so or to write that into the
word.
-/

namespace CosmoRuby.Thread

open Lib

variable {T : Type} [DecidableEq T]

/-! ## 1. The code -/

inductive MutexPc where
  /-- Not in a call, and not holding the mutex. -/
  | idle
  /-- Before the compare-and-swap. -/
  | cas (isTrylock : Bool)
  /-- Before an exchange with 2. -/
  | xchg
  /-- Before `cosmo_futex_wait`. -/
  | wait
  /-- Asleep in `cosmo_futex_wait`. -/
  | blocked
  /-- The call returned 0, and the thread has not called unlock. -/
  | holding
  /-- In unlock, the word was 2, before the store of 0. -/
  | store
  /-- In unlock, before `cosmo_futex_wake`. -/
  | wake
  deriving DecidableEq, Repr

/-- The thread has taken the mutex and not yet given it back. -/
def MutexPc.owns : MutexPc → Bool
  | .holding | .store => true
  | _ => false

/-- The thread will write 2 into the word or wake somebody, without being woken itself. -/
def MutexPc.alert : MutexPc → Bool
  | .xchg | .wait | .store | .wake => true
  | _ => false

def MutexPc.inLock : MutexPc → Bool
  | .cas false | .xchg | .wait | .blocked => true
  | _ => false

def MutexPc.inUnlock : MutexPc → Bool
  | .store | .wake => true
  | _ => false

/-- Who is alert and does not unlock is inside lock. -/
theorem MutexPc.inLock_of_alert {p : MutexPc} (h : p.alert = true) (h' : p.inUnlock = false) :
    p.inLock = true ∧ p ≠ .blocked := by
  cases p with
  | xchg | wait => exact ⟨rfl, nofun⟩
  | store => cases h'
  | wake => cases h'
  | _ => cases h

theorem MutexPc.owns_eq_false {p : MutexPc} (h : p ≠ .holding) (h' : p.inUnlock = false) :
    p.owns = false := by
  cases p with
  | holding => exact absurd rfl h
  | store => cases h'
  | _ => rfl

structure Mutex (T : Type) where
  futex : Int
  pc : T → MutexPc

namespace Mutex

def move (s : Mutex T) (t : T) (p : MutexPc) : Mutex T := { s with pc := Function.update s.pc t p }

def init : Mutex T := ⟨0, fun _ => .idle⟩

/-- Where a call goes with the value of the word, at the head of the loop. -/
def whileVal (val : Int) : MutexPc := if 0 < val then .wait else .holding

inductive Act (T : Type) where
  | call (t : T) (isTrylock : Bool)
  | cas (t : T)
  | xchg (t : T)
  | wait (t : T)
  /-- `cosmo_futex_wait` returns for no reason. -/
  | spurious (t : T)
  | unlock (t : T)
  | store (t : T)
  /-- `cosmo_futex_wake` releases the given thread. -/
  | wake (t : T) (waiter : Option T)

def stepCas (s : Mutex T) (t : T) (isTrylock : Bool) : Mutex T :=
  if s.futex = 0 then { s with futex := 1 }.move t .holding
  else if isTrylock then s.move t .idle
  else if s.futex = 1 then s.move t .xchg
  else s.move t (whileVal s.futex)

def step [Fintype T] (s : Mutex T) : Act T → Option (Mutex T)
  | .call t isTrylock => if s.pc t = .idle then some (s.move t (.cas isTrylock)) else none
  | .cas t =>
    if s.pc t = .cas false then some (s.stepCas t false)
    else if s.pc t = .cas true then some (s.stepCas t true)
    else none
  | .xchg t => if s.pc t = .xchg then some ({ s with futex := 2 }.move t (whileVal s.futex)) else none
  | .wait t => if s.pc t = .wait then some (s.move t (if s.futex = 2 then .blocked else .xchg)) else none
  | .spurious t => if s.pc t = .wait ∨ s.pc t = .blocked then some (s.move t .xchg) else none
  | .unlock t =>
    if s.pc t = .holding then
      some ({ s with futex := s.futex - 1 }.move t (if s.futex = 2 then .store else .idle))
    else none
  | .store t => if s.pc t = .store then some ({ s with futex := 0 }.move t .wake) else none
  | .wake t (some w) =>
    if s.pc t = .wake ∧ s.pc w = .blocked then some ((s.move w .xchg).move t .idle) else none
  | .wake t none => if s.pc t = .wake ∧ ∀ u, s.pc u ≠ .blocked then some (s.move t .idle) else none

/-- A state that some interleaving of calls leads to. -/
def Reachable [Fintype T] (s : Mutex T) : Prop := Reaches step (fun _ => True) init s

/-! ## 2. Moves -/

@[simp] theorem move_futex (s : Mutex T) (t : T) (p : MutexPc) : (s.move t p).futex = s.futex := rfl

@[simp] theorem move_self (s : Mutex T) (t : T) (p : MutexPc) : (s.move t p).pc t = p := by
  simp [move]

@[simp] theorem move_of_ne (s : Mutex T) {t u : T} (p : MutexPc) (h : u ≠ t) :
    (s.move t p).pc u = s.pc u := by
  simp [move, h]

/-! ## 3. The mutex has one owner -/

/-- The word is 0 exactly if nobody owns the mutex, and nobody shares it. -/
structure Exclusive (s : Mutex T) : Prop where
  range : 0 ≤ s.futex ∧ s.futex ≤ 2
  unique : ∀ t u, (s.pc t).owns = true → (s.pc u).owns = true → t = u
  free : s.futex = 0 ↔ ∀ t, (s.pc t).owns = false

variable {s s' : Mutex T} {t : T} {p : MutexPc} {f : Int}

/-- A thread moves on without taking the mutex or giving it back. -/
theorem Exclusive.keep (h : s.Exclusive) (hp : p.owns = (s.pc t).owns) (hf : 0 ≤ f ∧ f ≤ 2)
    (hzero : f = 0 ↔ s.futex = 0) : ({ s with futex := f }.move t p).Exclusive := by
  have howns : ∀ u, (({ s with futex := f }.move t p).pc u).owns = (s.pc u).owns := by
    intro u
    by_cases hu : u = t
    · subst hu
      rw [move_self, hp]
    · rw [move_of_ne _ _ hu]
  refine ⟨hf, ?_, ?_⟩
  · intro u v hu hv
    rw [howns] at hu hv
    exact h.unique u v hu hv
  · rw [move_futex, hzero, h.free]
    exact forall_congr' fun u => by rw [howns]

/-- A thread takes the free mutex. -/
theorem Exclusive.acquire (h : s.Exclusive) (hfree : s.futex = 0) (hp : p.owns = true)
    (hf : 0 < f ∧ f ≤ 2) : ({ s with futex := f }.move t p).Exclusive := by
  have hnone := h.free.1 hfree
  have honly : ∀ u, (({ s with futex := f }.move t p).pc u).owns = true → u = t := by
    intro u hu
    by_contra hne
    rw [move_of_ne _ _ hne] at hu
    exact Bool.false_ne_true ((hnone u).symm.trans hu)
  refine ⟨⟨hf.1.le, hf.2⟩, fun u v hu hv => (honly u hu).trans (honly v hv).symm, ?_⟩
  constructor
  · intro hzero
    exact absurd hzero hf.1.ne'
  · intro hall
    have hself := hall t
    rw [move_self, hp] at hself
    cases hself

/-- Its owner gives it back. -/
theorem Exclusive.release (h : s.Exclusive) (hown : (s.pc t).owns = true) (hp : p.owns = false) :
    ({ s with futex := 0 }.move t p).Exclusive := by
  have hnone : ∀ u, (({ s with futex := 0 }.move t p).pc u).owns = false := by
    intro u
    by_cases hu : u = t
    · subst hu
      rw [move_self, hp]
    · rw [move_of_ne _ _ hu, ← Bool.not_eq_true]
      exact fun huown => hu (h.unique u t huown hown)
  refine ⟨⟨Int.le_refl 0, show (0 : Int) ≤ 2 by decide⟩, ?_, iff_of_true rfl hnone⟩
  intro u v hu
  rw [hnone u] at hu
  cases hu

omit [DecidableEq T] in
theorem Exclusive.futex_pos (h : s.Exclusive) (hown : (s.pc t).owns = true) : 0 < s.futex := by
  have hne : s.futex ≠ 0 := fun hzero => by
    rw [h.free.1 hzero t] at hown
    cases hown
  have := h.range
  omega

/-- The call that finds 0 holds the mutex, and one that does not sleeps or goes on. -/
theorem Exclusive.loop (h : s.Exclusive) (hp : (s.pc t).owns = false) (hf : 0 < f ∧ f ≤ 2) :
    ({ s with futex := f }.move t (whileVal s.futex)).Exclusive := by
  rw [whileVal]
  split
  · next hpos =>
    refine h.keep ?_ ⟨hf.1.le, hf.2⟩ ?_
    · rw [hp]
      rfl
    · omega
  · next hpos =>
    refine h.acquire ?_ rfl hf
    have := h.range
    omega

omit [DecidableEq T] in
theorem exclusive_init : (init : Mutex T).Exclusive :=
  ⟨⟨Int.le_refl 0, show (0 : Int) ≤ 2 by decide⟩, nofun, iff_of_true rfl fun _ => rfl⟩

/-! ## 4. No sleeper is forgotten -/

/-- While a thread sleeps, the word is 2 or a thread is alert. -/
def Pending (s : Mutex T) : Prop :=
  (∃ t, s.pc t = .blocked) → s.futex = 2 ∨ ∃ t, (s.pc t).alert = true

omit [DecidableEq T] in
theorem pending_of_two (h : s.futex = 2) : s.Pending := fun _ => .inl h

omit [DecidableEq T] in
theorem pending_of_alert (h : (s.pc t).alert = true) : s.Pending := fun _ => .inr ⟨t, h⟩

omit [DecidableEq T] in
theorem pending_init : (init : Mutex T).Pending := by
  rintro ⟨t, ht⟩
  cases ht

/-- A thread that was not alert goes on without falling asleep. -/
theorem Pending.keep (h : s.Pending) (hpc : (s.pc t).alert = false) (hp : p ≠ .blocked)
    (hf : f = s.futex ∨ s.futex ≠ 2) : ({ s with futex := f }.move t p).Pending := by
  rintro ⟨u, hu⟩
  have hut : u ≠ t := fun heq => by
    rw [heq, move_self] at hu
    exact hp hu
  rw [move_of_ne _ _ hut] at hu
  rcases h ⟨u, hu⟩ with htwo | ⟨v, hv⟩
  · refine .inl ?_
    rw [move_futex]
    exact (hf.resolve_right (not_not_intro htwo)).trans htwo
  · refine .inr ⟨v, ?_⟩
    have hvt : v ≠ t := fun heq => by
      rw [heq, hpc] at hv
      cases hv
    rw [move_of_ne _ _ hvt]
    exact hv

/-! ## 5. Every interleaving -/

/-- Both, as every step keeps them. -/
structure Inv (s : Mutex T) : Prop where
  exclusive : s.Exclusive
  pending : s.Pending

/-- A thread that neither owns the mutex nor is alert goes on in the same way, without falling asleep. -/
theorem Inv.keep (h : s.Inv) (hpc : (s.pc t).owns = false ∧ (s.pc t).alert = false)
    (hp : p.owns = false ∧ p ≠ .blocked) : (s.move t p).Inv :=
  ⟨h.exclusive.keep (hp.1.trans hpc.1.symm) h.exclusive.range Iff.rfl,
    h.pending.keep (f := s.futex) hpc.2 hp.2 (.inl rfl)⟩

/-- A thread is alert where it goes, and takes or gives nothing. -/
theorem Inv.alert (h : s.Inv) (hpc : p.owns = (s.pc t).owns) (hp : p.alert = true) : (s.move t p).Inv :=
  ⟨h.exclusive.keep hpc h.exclusive.range Iff.rfl, pending_of_alert (t := t) (by rwa [move_self])⟩

theorem Inv.stepCas (h : s.Inv) (b : Bool) (hpc : s.pc t = .cas b) : (s.stepCas t b).Inv := by
  have hidle : (s.pc t).owns = false ∧ (s.pc t).alert = false := by rw [hpc]; exact ⟨rfl, rfl⟩
  rw [Mutex.stepCas]
  split_ifs with hzero htry hone
  · exact ⟨h.exclusive.acquire hzero rfl (by decide), h.pending.keep hidle.2 nofun (.inr (by omega))⟩
  · exact h.keep hidle ⟨rfl, nofun⟩
  · exact h.keep hidle ⟨rfl, nofun⟩
  · have hrange := h.exclusive.range
    rw [whileVal, if_pos (by omega)]
    exact h.keep hidle ⟨rfl, nofun⟩

theorem Inv.step [Fintype T] (h : s.Inv) (a : Act T) (hstep : s.step a = some s') : s'.Inv := by
  have hexcl := h.exclusive
  cases a with
  | call t isTrylock =>
    obtain ⟨hpc, rfl⟩ := of_guard hstep
    exact h.keep (hpc ▸ ⟨rfl, rfl⟩) ⟨rfl, nofun⟩
  | cas t =>
    simp only [Mutex.step] at hstep
    split at hstep
    · next hpc =>
      cases hstep
      exact h.stepCas false hpc
    · obtain ⟨hpc, rfl⟩ := of_guard hstep
      exact h.stepCas true hpc
  | xchg t =>
    obtain ⟨hpc, rfl⟩ := of_guard hstep
    exact ⟨hexcl.loop (hpc ▸ rfl) (by decide), pending_of_two rfl⟩
  | wait t =>
    obtain ⟨hpc, rfl⟩ := of_guard hstep
    split_ifs with htwo
    · exact ⟨hexcl.keep (hpc ▸ rfl) hexcl.range Iff.rfl, pending_of_two htwo⟩
    · exact h.alert (hpc ▸ rfl) rfl
  | spurious t =>
    obtain ⟨hpc | hpc, rfl⟩ := of_guard hstep
    · exact h.alert (hpc ▸ rfl) rfl
    · exact h.alert (hpc ▸ rfl) rfl
  | unlock t =>
    obtain ⟨hpc, rfl⟩ := of_guard hstep
    have hown : (s.pc t).owns = true := hpc ▸ rfl
    have hpos := hexcl.futex_pos hown
    have hrange := hexcl.range
    split_ifs with htwo
    · exact ⟨hexcl.keep (hown ▸ rfl) (by omega) (by omega), pending_of_alert (t := t) (by rw [move_self]; rfl)⟩
    · rw [show s.futex - 1 = 0 by omega]
      exact ⟨hexcl.release hown rfl, h.pending.keep (hpc ▸ rfl) nofun (.inr htwo)⟩
  | store t =>
    obtain ⟨hpc, rfl⟩ := of_guard hstep
    exact ⟨hexcl.release (hpc ▸ rfl) rfl, pending_of_alert (t := t) (by rw [move_self]; rfl)⟩
  | wake t waiter =>
    cases waiter with
    | some w =>
      -- the thread that was woken is alert from here on
      obtain ⟨⟨hpc, hw⟩, rfl⟩ := of_guard hstep
      have hne : t ≠ w := fun heq => by
        rw [heq, hw] at hpc
        cases hpc
      have hwoken := (h.alert (t := w) (p := .xchg) (hw ▸ rfl) rfl).exclusive
      refine ⟨hwoken.keep ?_ hwoken.range Iff.rfl, pending_of_alert (t := w) ?_⟩
      · rw [move_of_ne _ _ hne, hpc]
        rfl
      · rw [move_of_ne _ _ hne.symm, move_self]
        rfl
    | none =>
      obtain ⟨⟨hpc, hnone⟩, rfl⟩ := of_guard hstep
      refine ⟨hexcl.keep (hpc ▸ rfl) hexcl.range Iff.rfl, ?_⟩
      rintro ⟨u, hu⟩
      by_cases hut : u = t
      · rw [hut, move_self] at hu
        cases hu
      · rw [move_of_ne _ _ hut] at hu
        exact absurd hu (hnone u)

theorem Reachable.inv [Fintype T] (h : s.Reachable) : s.Inv :=
  Reaches.invariant Inv ⟨exclusive_init, pending_init⟩ (fun _ a _ _ _ hu hstep => hu.step a hstep) h

/-- At most one thread holds the mutex, and while it is free and no unlock is in progress, the threads
inside lock do not all sleep. -/
theorem mutex_correct (T : Type) [Fintype T] [DecidableEq T] (s : Mutex T) (h : s.Reachable) :
    (∀ t u, s.pc t = .holding → s.pc u = .holding → t = u) ∧
      ((∀ t, s.pc t ≠ .holding) → (∀ t, (s.pc t).inUnlock = false) → (∃ t, (s.pc t).inLock = true) →
        ∃ t, (s.pc t).inLock = true ∧ s.pc t ≠ .blocked) := by
  obtain ⟨hexcl, hpend⟩ := h.inv
  refine ⟨fun t u ht hu => hexcl.unique t u (ht ▸ rfl) (hu ▸ rfl), ?_⟩
  rintro hhold hunlock ⟨t, ht⟩
  by_cases hblocked : s.pc t = .blocked
  · have hfree : s.futex = 0 :=
      hexcl.free.2 fun u => MutexPc.owns_eq_false (hhold u) (hunlock u)
    obtain htwo | ⟨u, hu⟩ := hpend ⟨t, hblocked⟩
    · omega
    · exact ⟨u, MutexPc.inLock_of_alert hu (hunlock u)⟩
  · exact ⟨t, ht, hblocked⟩

/-- Two threads fall asleep, and the one that holds the mutex unlocks it and wakes the first. -/
def contended : Option (Mutex (Fin 4)) :=
  [.call 0 false, .cas 0, .call 1 false, .cas 1, .xchg 1, .wait 1, .call 2 false,
    .cas 2, .wait 2, .unlock 0, .store 0, .wake 0 (some 1)].foldlM step init

/-- The mutex is free and one thread sleeps, but another is on its way. -/
theorem mutex_correct_contended : ∃ s : Mutex (Fin 4), contended = some s ∧ s.pc 2 = .blocked ∧
    ∃ t, (s.pc t).inLock = true ∧ s.pc t ≠ .blocked := by
  obtain ⟨s, hs, hpc⟩ : ∃ s, contended = some s ∧ s.pc = ![.idle, .xchg, .blocked, .idle] :=
    Option.map_eq_some_iff.mp (by decide)
  refine ⟨s, hs, by rw [hpc]; rfl, ?_⟩
  have hfree := (mutex_correct (Fin 4) s (Reaches.run _ (.refl trivial) hs)).2
  rw [hpc] at hfree ⊢
  exact hfree (by decide) (by decide) (by decide)

end Mutex
end CosmoRuby.Thread