import Mathlib

/-!
# Resumable machines

A machine reads one symbol per step and either goes on or finishes with a result.  `feed` runs it
over a word.  Cutting the word anywhere gives the same outcome (`feed_append`), and an invariant
indexed by the symbols read so far carries over to every state the machine reaches.
-/

namespace CosmoRuby.Lib

open List

variable {σ α ρ : Type}

inductive Fed (σ ρ : Type) where
  | more (s : σ)
  | done (r : ρ) (s : σ)
  deriving DecidableEq, Repr

def Fed.state : Fed σ ρ → σ
  | .more s | .done _ s => s

def feed (step : σ → α → Fed σ ρ) : σ → List α → Fed σ ρ
  | s, [] => .more s
  | s, x :: xs =>
    match step s x with
    | .more s' => feed step s' xs
    | .done r s' => .done r s'

@[simp] theorem feed_nil (step : σ → α → Fed σ ρ) (s : σ) : feed step s [] = .more s := rfl

variable {step : σ → α → Fed σ ρ} {s s' : σ} {x : α}

theorem feed_cons_more (h : step s x = .more s')
    (xs : List α) : feed step s (x :: xs) = feed step s' xs := by
  simp only [feed, h]

variable {r : ρ}

theorem feed_cons_done
    (h : step s x = .done r s') (xs : List α) : feed step s (x :: xs) = .done r s' := by
  simp only [feed, h]

variable {xs w : List α}

theorem feed_append (s : σ) (xs ys : List α) : feed step s (xs ++ ys) =
    match feed step s xs with
    | .more s' => feed step s' ys
    | .done r s' => .done r s' := by
  induction xs generalizing s with
  | nil => rfl
  | cons x xs ih =>
    cases hs : step s x with
    | more s1 => rw [cons_append, feed_cons_more hs, feed_cons_more hs, ih]
    | done r s1 => rw [cons_append, feed_cons_done hs, feed_cons_done hs]

theorem feed_append_more (h : feed step s xs = .more s') (ys : List α) :
    feed step s (xs ++ ys) = feed step s' ys := by
  rw [feed_append, h]

theorem feed_append_done (h : feed step s xs = .done r s') (ys : List α) :
    feed step s (xs ++ ys) = .done r s' := by
  rw [feed_append, h]

section

variable (Inv : List α → σ → Prop) (h0 : Inv w s)
  (hstep : ∀ w s x s', Inv w s → step s x = .more s' → Inv (w ++ [x]) s')
include h0 hstep

/-- The invariant rule: what holds of the start and is kept by every step that goes on holds of the
state reached, together with the word read. -/
theorem feed_more_invariant (h : feed step s xs = .more s') : Inv (w ++ xs) s' := by
  induction xs generalizing w s with
  | nil =>
    rw [feed_nil, Fed.more.injEq] at h
    rw [append_nil, ← h]
    exact h0
  | cons x xs ih =>
    cases hs : step s x with
    | more s1 =>
      rw [feed_cons_more hs] at h
      rw [append_cons]
      exact ih (hstep _ _ _ _ h0 hs) h
    | done r s1 =>
      rw [feed_cons_done hs] at h
      cases h

theorem feed_done_invariant (h : feed step s xs = .done r s') :
    ∃ ys x zs s1, xs = ys ++ x :: zs ∧ Inv (w ++ ys) s1 ∧ step s1 x = .done r s' := by
  induction xs generalizing w s with
  | nil => cases h
  | cons x xs ih =>
    cases hs : step s x with
    | more s1 =>
      rw [feed_cons_more hs] at h
      obtain ⟨ys, y, zs, s2, hxs, hinv, hlast⟩ := ih (hstep _ _ _ _ h0 hs) h
      refine ⟨x :: ys, y, zs, s2, by rw [hxs, cons_append], ?_, hlast⟩
      rwa [append_cons]
    | done r1 s1 =>
      rw [feed_cons_done hs] at h
      cases h
      exact ⟨[], x, xs, s, rfl, by rwa [append_nil], hs⟩

end

end CosmoRuby.Lib
