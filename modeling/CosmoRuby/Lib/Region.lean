import Mathlib

/-!
# Regions of a memory

A memory is a function of addresses. An operation on a region changes the cells of an interval and
no others; operations on disjoint regions, one after the other, leave each region as its own
operation left it.
-/

namespace CosmoRuby.Lib

open List

variable {α ι : Type*}

def onRegion (lo hi : Nat) (f : Nat → α → α) (m : Nat → α) : Nat → α :=
  fun a => if lo ≤ a ∧ a < hi then f a (m a) else m a

theorem onRegion_inside {lo hi a : Nat} (f : Nat → α → α) (m : Nat → α) (hlo : lo ≤ a)
    (hhi : a < hi) : onRegion lo hi f m a = f a (m a) :=
  if_pos ⟨hlo, hhi⟩

theorem onRegion_outside {lo hi a : Nat} (f : Nat → α → α) (m : Nat → α)
    (h : a < lo ∨ hi ≤ a) : onRegion lo hi f m a = m a :=
  if_neg (by omega)

structure Writes (l : List ι) (region : ι → Set Nat) (value : ι → Nat → α)
    (step : (Nat → α) → ι → Nat → α) : Prop where
  inside : ∀ i ∈ l, ∀ m, ∀ a ∈ region i, step m i a = value i a
  outside : ∀ i ∈ l, ∀ m, ∀ a ∉ region i, step m i a = m a
  disjoint : l.Pairwise fun i j => Disjoint (region i) (region j)

variable {l : List ι} {region : ι → Set Nat} {value : ι → Nat → α}
  {step : (Nat → α) → ι → Nat → α} {i : ι} {a : Nat}

theorem Writes.tail (h : Writes (i :: l) region value step) : Writes l region value step where
  inside := fun j hj => h.inside j (mem_cons_of_mem i hj)
  outside := fun j hj => h.outside j (mem_cons_of_mem i hj)
  disjoint := h.disjoint.of_cons

theorem Writes.foldl_outside (h : Writes l region value step) (m : Nat → α)
    (ha : ∀ i ∈ l, a ∉ region i) : l.foldl step m a = m a := by
  induction l generalizing m with
  | nil => rfl
  | cons i l ih =>
    rw [foldl_cons, ih h.tail (step m i) fun j hj => ha j (mem_cons_of_mem i hj)]
    exact h.outside i mem_cons_self m a (ha i mem_cons_self)

theorem Writes.foldl_inside (h : Writes l region value step) (m : Nat → α) (hi : i ∈ l)
    (ha : a ∈ region i) : l.foldl step m a = value i a := by
  induction l generalizing m with
  | nil => nomatch hi
  | cons j l ih =>
    rw [foldl_cons]
    cases List.mem_cons.mp hi with
    | inl heq =>
      subst heq
      -- the later steps are elsewhere
      have hlater : ∀ j ∈ l, a ∉ region j := fun j hj hmem =>
        Set.disjoint_left.mp ((List.pairwise_cons.mp h.disjoint).1 j hj) ha hmem
      rw [h.tail.foldl_outside (step m i) hlater]
      exact h.inside i mem_cons_self m a ha
    | inr hmem => exact ih h.tail (step m j) hmem

end CosmoRuby.Lib
