import Mathlib

/-!
# Writing into a buffer that may be too small

A writer that keeps the last cell of its buffer for a terminator and drops what does not fit.  Whatever is
written piece by piece, the buffer holds the beginning of all of it (`Writer.puts_filled`).
-/

namespace CosmoRuby.Lib

open List Function

variable {α : Type} [Zero α]

/-- The next position, and the memory from the start of the buffer on. -/
structure Writer (α : Type) where
  ax : Nat
  dst : Nat → α

namespace Writer

def store (w : Writer α) (u : α) : Writer α := ⟨w.ax + 1, Function.update w.dst w.ax u⟩

def put (size : Nat) (w : Writer α) (u : α) : Writer α := if w.ax + 1 < size then w.store u else w

def puts (size : Nat) (w : Writer α) (us : List α) : Writer α := us.foldl (put size) w

def stores (w : Writer α) (us : List α) : Writer α := us.foldl store w

def finish (size : Nat) (w : Writer α) : Writer α :=
  if w.ax < size then { w with dst := Function.update w.dst w.ax 0 } else w

def filled (size : Nat) (mem : Nat → α) (out : List α) : Writer α where
  ax := min out.length (size - 1)
  dst i := if i < min out.length (size - 1) then out.getD i 0 else mem i

variable {size : Nat} {mem : Nat → α} {out : List α}

theorem store_filled (u : α) (h : out.length + 1 < size) :
    (filled size mem out).store u = filled size mem (out ++ [u]) := by
  have hax : min out.length (size - 1) = out.length := by omega
  have hax' : min (out ++ [u]).length (size - 1) = out.length + 1 := by
    rw [length_append, length_singleton]
    omega
  simp only [store, filled, hax, hax', mk.injEq, true_and]
  funext i
  rcases Nat.lt_trichotomy i out.length with hi | hi | hi
  · rw [update_of_ne hi.ne, if_pos hi, if_pos (by omega), getD_append _ _ _ _ hi]
  · subst hi
    rw [update_self, if_pos (by omega), getD_append_right _ _ _ _ (Nat.le_refl _),
      Nat.sub_self, getD_cons_zero]
  · rw [update_of_ne hi.ne', if_neg (by omega), if_neg (by omega)]

theorem put_filled (u : α) : (filled size mem out).put size u = filled size mem (out ++ [u]) := by
  rw [put]
  by_cases h : out.length + 1 < size
  · have hax : (filled size mem out).ax + 1 < size := by
      simp only [filled]
      omega
    rw [if_pos hax, store_filled u h]
  · have hax : ¬ (filled size mem out).ax + 1 < size := by
      simp only [filled]
      omega
    have hmin : min (out ++ [u]).length (size - 1) = min out.length (size - 1) := by
      rw [length_append, length_singleton]
      omega
    rw [if_neg hax]
    simp only [filled, hmin, mk.injEq, true_and]
    funext i
    split
    · rw [getD_append _ _ _ _ (by omega)]
    · rfl

theorem puts_filled (us : List α) : (filled size mem out).puts size us = filled size mem (out ++ us) := by
  induction us generalizing out with
  | nil =>
    rw [append_nil]
    rfl
  | cons u us ih =>
    rw [puts, foldl_cons, put_filled, ← puts, ih, append_assoc, singleton_append]

theorem stores_filled (us : List α) (h : (filled size mem out).ax + us.length < size) :
    (filled size mem out).stores us = filled size mem (out ++ us) := by
  induction us generalizing out with
  | nil =>
    rw [append_nil]
    rfl
  | cons u us ih =>
    simp only [filled, length_cons] at h
    rw [stores, foldl_cons, store_filled u (by omega), ← stores, ih, append_assoc,
      singleton_append]
    simp only [filled, length_append, length_singleton]
    omega

/-- At the end the buffer holds as much of the output as fits and a terminator, and the memory behind it
is as it was. -/
theorem finish_filled (hsize : 0 < size) :
    ((filled size mem out).finish size).ax = min out.length (size - 1) ∧
      (∀ i < min out.length (size - 1), ((filled size mem out).finish size).dst i = out.getD i 0) ∧
      ((filled size mem out).finish size).dst (min out.length (size - 1)) = 0 ∧
      ∀ i, size ≤ i → ((filled size mem out).finish size).dst i = mem i := by
  have hax : (filled size mem out).ax < size := by
    simp only [filled]
    omega
  rw [finish, if_pos hax]
  simp only [filled]
  refine ⟨trivial, fun i hi => ?_, update_self _ _ _, fun i hi => ?_⟩
  · rw [update_of_ne hi.ne, if_pos hi]
  · rw [update_of_ne (by omega), if_neg (by omega)]

end Writer

end CosmoRuby.Lib
