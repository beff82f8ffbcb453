import Mathlib

/-!
# Loops with a measure

A `while` loop whose body goes on or leaves, run with fuel.  A measure that every pass lowers makes the
fuel irrelevant (`loop_next`, `loop_stop`, `loop_done`), and what every pass keeps holds at the end
(`loop_invariant`).
-/

namespace CosmoRuby.Lib

variable {σ : Type}

/-- How a pass ends: the loop goes on, or is left by `break` or `return`. -/
inductive Turn (σ : Type) where
  | next (s : σ)
  | stop (s : σ)

def loop (cond : σ → Bool) (body : σ → Turn σ) : Nat → σ → σ
  | 0, s => s
  | fuel + 1, s =>
    if cond s then
      match body s with
      | .next s' => loop cond body fuel s'
      | .stop s' => s'
    else s

/-- Every pass lowers `μ`, which is positive as long as there is a pass to make. -/
structure Lowers (cond : σ → Bool) (body : σ → Turn σ) (μ : σ → Nat) : Prop where
  pos : ∀ s, cond s = true → 0 < μ s
  lt : ∀ s s', cond s = true → body s = .next s' → μ s' < μ s

variable {cond : σ → Bool} {body : σ → Turn σ} {μ : σ → Nat} {s s' : σ}

theorem loop_done (fuel : Nat) (h : cond s = false) : loop cond body fuel s = s := by
  cases fuel with
  | zero => rfl
  | succ fuel => rw [loop, if_neg (by rw [h]; decide)]

section

variable (hμ : Lowers cond body μ)
include hμ

theorem loop_fuel (fuel : Nat) (s : σ) (h : μ s ≤ fuel) :
    loop cond body fuel s = loop cond body (μ s) s := by
  induction fuel using Nat.strong_induction_on generalizing s with
  | h fuel ih =>
    by_cases hc : cond s = true
    · have hpos := hμ.pos s hc
      obtain ⟨k, rfl⟩ : ∃ k, fuel = k + 1 := ⟨fuel - 1, by omega⟩
      obtain ⟨j, hj⟩ : ∃ j, μ s = j + 1 := ⟨μ s - 1, by omega⟩
      rw [hj, loop, loop, if_pos hc, if_pos hc]
      cases hb : body s with
      | stop s' => rfl
      | next s' =>
        have hlt := hμ.lt s s' hc hb
        dsimp only
        rw [ih k (by omega) s' (by omega), ih j (by omega) s' (by omega)]
    · rw [Bool.not_eq_true] at hc
      rw [loop_done _ hc, loop_done _ hc]

theorem loop_next (hc : cond s = true) (hb : body s = .next s') :
    loop cond body (μ s) s = loop cond body (μ s') s' := by
  have hlt := hμ.lt s s' hc hb
  obtain ⟨j, hj⟩ : ∃ j, μ s = j + 1 := ⟨μ s - 1, by omega⟩
  rw [hj, loop, if_pos hc, hb]
  exact loop_fuel hμ j s' (by omega)

theorem loop_stop (hc : cond s = true) (hb : body s = .stop s') : loop cond body (μ s) s = s' := by
  have hpos := hμ.pos s hc
  obtain ⟨j, hj⟩ : ∃ j, μ s = j + 1 := ⟨μ s - 1, by omega⟩
  rw [hj, loop, if_pos hc, hb]

theorem loop_invariant (Inv Post : σ → Prop)
    (hnext : ∀ s s', Inv s → cond s = true → body s = .next s' → Inv s')
    (hstop : ∀ s s', Inv s → cond s = true → body s = .stop s' → Post s')
    (hdone : ∀ s, Inv s → cond s = false → Post s) (s : σ) (h : Inv s) :
    Post (loop cond body (μ s) s) := by
  induction hk : μ s using Nat.strong_induction_on generalizing s with
  | h k ih =>
    by_cases hc : cond s = true
    · cases hb : body s with
      | stop s' =>
        rw [← hk, loop_stop hμ hc hb]
        exact hstop s s' h hc hb
      | next s' =>
        rw [← hk, loop_next hμ hc hb]
        exact ih (μ s') (hk ▸ hμ.lt s s' hc hb) s' (hnext s s' h hc hb) rfl
    · rw [Bool.not_eq_true] at hc
      rw [loop_done _ hc]
      exact hdone s h hc

end

end CosmoRuby.Lib
