import Mathlib
import CosmoRuby.Lib.Bytes

/-!
# Strings of bytes in order

The lexicographic order of byte strings, and where the strings with a common beginning lie in it.
-/

namespace CosmoRuby.Lib

def Before : Bytes → Bytes → Prop
  | _, [] => False
  | [], _ :: _ => True
  | a :: x, b :: y => a.toNat < b.toNat ∨ a = b ∧ Before x y

theorem not_before_nil (x : Bytes) : ¬ Before x [] := by
  cases x with
  | nil => exact id
  | cons a x => exact id

theorem before_irrefl (x : Bytes) : ¬ Before x x := by
  induction x with
  | nil => exact id
  | cons a x ih =>
    rintro (h | ⟨-, h⟩)
    · exact Nat.lt_irrefl _ h
    · exact ih h

theorem Before.trans {x y z : Bytes} (h : Before x y) (h' : Before y z) : Before x z := by
  induction x generalizing y z with
  | nil =>
    cases z with
    | nil => exact absurd h' (not_before_nil y)
    | cons c z => trivial
  | cons a x ih =>
    cases y with
    | nil => exact absurd h (not_before_nil _)
    | cons b y =>
      cases z with
      | nil => exact absurd h' (not_before_nil _)
      | cons c z =>
        rcases h with h | ⟨rfl, h⟩
        · rcases h' with h' | ⟨rfl, h'⟩
          · exact .inl (h.trans h')
          · exact .inl h
        · rcases h' with h' | ⟨rfl, h'⟩
          · exact .inl h'
          · exact .inr ⟨rfl, ih h h'⟩

theorem before_total {x y : Bytes} (h : ¬ Before x y) (h' : ¬ Before y x) : x = y := by
  induction x generalizing y with
  | nil =>
    cases y with
    | nil => rfl
    | cons b y => exact absurd trivial h
  | cons a x ih =>
    cases y with
    | nil => exact absurd trivial h'
    | cons b y =>
      have hab : a.toNat = b.toNat := by
        have h₁ : ¬ a.toNat < b.toNat := fun hlt => h (.inl hlt)
        have h₂ : ¬ b.toNat < a.toNat := fun hlt => h' (.inl hlt)
        omega
      have heq : a = b := UInt8.toNat_inj.1 hab
      subst heq
      rw [ih (fun hb => h (.inr ⟨rfl, hb⟩)) fun hb => h' (.inr ⟨rfl, hb⟩)]

theorem Before.of_not {x y z : Bytes} (h : Before x y) (h' : ¬ Before z y) : Before x z := by
  by_cases hyz : Before y z
  · exact h.trans hyz
  · rw [before_total h' hyz]
    exact h

theorem before_append_left (y u v : Bytes) : Before (y ++ u) (y ++ v) ↔ Before u v := by
  induction y with
  | nil => exact Iff.rfl
  | cons a y ih =>
    refine ⟨?_, fun h => .inr ⟨rfl, ih.2 h⟩⟩
    rintro (h | ⟨-, h⟩)
    · exact absurd h (Nat.lt_irrefl _)
    · exact ih.1 h

theorem not_append_before (y w : Bytes) : ¬ Before (y ++ w) y := by
  intro h
  have hnil : Before (y ++ w) (y ++ []) := by rw [List.append_nil]; exact h
  exact not_before_nil w ((before_append_left y w []).1 hnil)

theorem begins_or_after {y z : Bytes} (h : ¬ Before z y) :
    (∃ w, z = y ++ w) ∨ ∀ w, Before (y ++ w) z := by
  induction y generalizing z with
  | nil => exact .inl ⟨z, rfl⟩
  | cons a y ih =>
    cases z with
    | nil => exact absurd trivial h
    | cons b z =>
      by_cases hab : a.toNat < b.toNat
      · exact .inr fun w => .inl hab
      · have heq : a = b := by
          have hba : ¬ b.toNat < a.toNat := fun hlt => h (.inl hlt)
          exact UInt8.toNat_inj.1 (by omega)
        subst heq
        rcases ih fun hz => h (.inr ⟨rfl, hz⟩) with ⟨w, rfl⟩ | hafter
        · exact .inl ⟨w, rfl⟩
        · exact .inr fun w => .inr ⟨rfl, hafter w⟩

end CosmoRuby.Lib
