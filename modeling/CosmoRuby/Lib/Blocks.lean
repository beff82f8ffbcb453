import Mathlib

/-!
# Whole blocks

Splitting a list into whole blocks of `n` elements and a rest shorter than that.
-/

namespace CosmoRuby.Lib

open List

variable {α : Type} {n : Nat}

section

variable (n : Nat) (x : List α)

def whole : List α := x.take (x.length / n * n)

def part : List α := x.drop (x.length / n * n)

theorem whole_append_part : whole n x ++ part n x = x :=
  take_append_drop _ _

theorem length_whole : (whole n x).length = x.length / n * n := by
  rw [whole, length_take]
  exact Nat.min_eq_left (Nat.div_mul_le_self _ _)

theorem dvd_length_whole : n ∣ (whole n x).length := by
  rw [length_whole]
  exact Nat.dvd_mul_left _ _

end

theorem length_part_lt (hn : 0 < n) (x : List α) : (part n x).length < n := by
  have hdiv := Nat.div_add_mod' x.length n
  have hmod := Nat.mod_lt x.length hn
  rw [part, length_drop]
  omega

theorem whole_append {x y : List α} (h : x.length ≤ (x ++ y).length / n * n) :
    whole n (x ++ y) = x ++ y.take ((x ++ y).length / n * n - x.length) := by
  rw [whole, take_append, take_of_length_le h]

theorem part_append {x y : List α} (h : x.length ≤ (x ++ y).length / n * n) :
    part n (x ++ y) = y.drop ((x ++ y).length / n * n - x.length) := by
  rw [part, drop_append, drop_of_length_le h, nil_append]

end CosmoRuby.Lib
