import Mathlib

/-!
# Runs of a step function

What is reached by steps that may be refused, through states of a given kind, and how runs of one
step function follow those of another.
-/

namespace CosmoRuby.Lib

variable {S T A B : Type*} {step : S → A → Option S} {P Q : S → Prop} {s u v : S}

/-- `v` is reached from `s`, and every state on the way satisfies `P`. -/
inductive Reaches (step : S → A → Option S) (P : S → Prop) (s : S) : S → Prop
  | refl (h : P s) : Reaches step P s s
  | tail {u v : S} (hu : Reaches step P s u) (a : A) (hstep : step u a = some v) (hv : P v) :
      Reaches step P s v

theorem Reaches.holds (h : Reaches step P s u) : P u := by
  cases h with
  | refl h => exact h
  | tail _ _ _ hv => exact hv

theorem Reaches.trans (h : Reaches step P s u) (h' : Reaches step P u v) : Reaches step P s v := by
  induction h' with
  | refl _ => exact h
  | tail _ a hstep hv ih => exact .tail ih a hstep hv

theorem Reaches.mono (hPQ : ∀ u, P u → Q u) (h : Reaches step P s u) : Reaches step Q s u := by
  induction h with
  | refl h => exact .refl (hPQ _ h)
  | tail _ a hstep hv ih => exact .tail ih a hstep (hPQ _ hv)

/-- The invariant rule. A step may use that both of its states satisfy `P`. -/
theorem Reaches.invariant (Inv : S → Prop) (h0 : Inv s)
    (hinv : ∀ u a v, P u → P v → Inv u → step u a = some v → Inv v) (h : Reaches step P s u) :
    Inv u := by
  induction h with
  | refl _ => exact h0
  | tail hu a hstep hv ih => exact hinv _ a _ hu.holds hv ih hstep

theorem of_guard {c : Prop} [Decidable c] (h : (if c then some s else none) = some u) : c ∧ s = u := by
  by_cases hc : c
  · rw [if_pos hc, Option.some.injEq] at h
    exact ⟨hc, h⟩
  · rw [if_neg hc] at h
    cases h

theorem Reaches.run (as : List A) (h : Reaches step (fun _ => True) s u)
    (hrun : as.foldlM step u = some v) : Reaches step (fun _ => True) s v := by
  induction as generalizing u with
  | nil =>
    cases hrun
    exact h
  | cons a as ih =>
    rw [List.foldlM_cons, Option.bind_eq_bind, Option.bind_eq_some_iff] at hrun
    obtain ⟨w, hw, hrun⟩ := hrun
    exact ih (h.tail a hw trivial) hrun

/-! ## Infinite runs -/

structure InfRun (step : S → A → Option S) where
  state : Nat → S
  act : Nat → A
  next : ∀ n, step (state n) (act n) = some (state (n + 1))

section Eventually

variable {P Q O : Nat → Prop} {n : Nat}

theorem eventually_or_always (h0 : P n) (hstep : ∀ m, n ≤ m → P m → Q (m + 1) ∨ P (m + 1)) :
    (∃ m, n ≤ m ∧ Q m) ∨ ∀ m, n ≤ m → P m := by
  by_cases h : ∃ m, n ≤ m ∧ Q m
  · exact .inl h
  · refine .inr fun m hm => ?_
    induction m, hm using Nat.le_induction with
    | base => exact h0
    | succ m hm ih =>
      rcases hstep m hm ih with hq | hp
      · exact absurd ⟨m + 1, by omega, hq⟩ h
      · exact hp

theorem eventually_of_fair (h0 : P n)
    (hstep : ∀ m, n ≤ m → P m → Q (m + 1) ∨ (P (m + 1) ∧ ¬ O m)) (hfair : ∃ m, n ≤ m ∧ O m) :
    ∃ m, n ≤ m ∧ Q m := by
  rcases eventually_or_always (Q := Q) h0 (fun m hm hp => (hstep m hm hp).imp id And.left) with h | h
  · exact h
  · obtain ⟨m, hm, hown⟩ := hfair
    rcases hstep m hm (h m hm) with hq | ⟨-, hnot⟩
    · exact ⟨m + 1, by omega, hq⟩
    · exact absurd hown hnot

end Eventually

section Simulation

variable {step' : T → B → Option T} {R : T → Prop} (π : S → T)

theorem Reaches.project
    (hsim : ∀ u a v, step u a = some v → π v = π u ∨ ∃ b, step' (π u) b = some (π v))
    (h : Reaches step (fun s => R (π s)) s u) : Reaches step' R (π s) (π u) := by
  induction h with
  | refl h => exact .refl h
  | tail _ a hstep hv ih =>
    rcases hsim _ a _ hstep with heq | ⟨b, hb⟩
    · rw [heq]
      exact ih
    · exact .tail ih b hb hv

theorem Reaches.lift
    (hlift : ∀ u b y, step' (π u) b = some y → ∃ a v, step u a = some v ∧ π v = y) {y : T}
    (h : Reaches step' R (π s) y) : ∃ u, Reaches step (fun s => R (π s)) s u ∧ π u = y := by
  generalize hx : π s = x at h
  induction h with
  | refl h =>
    subst hx
    exact ⟨s, .refl h, rfl⟩
  | tail _ b hstep hv ih =>
    obtain ⟨u, hu, rfl⟩ := ih
    obtain ⟨a, v, hv', rfl⟩ := hlift u b _ hstep
    exact ⟨v, .tail hu a hv' hv, rfl⟩

end Simulation

end CosmoRuby.Lib
