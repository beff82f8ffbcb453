import Mathlib

/-!
# Computations that may stop

Rules of pre- and postconditions for computations that end in a result, or stop early with an
error and the state in which it arose.
-/

namespace CosmoRuby.Lib

variable {ε σ α β : Type}

/-- The computation ends in a result with `Q`, or stops with an error and a state with `E`. -/
def Ends (Q : α → Prop) (E : ε → σ → Prop) : Except (ε × σ) α → Prop
  | .ok a => Q a
  | .error (e, s) => E e s

variable {Q Q' : α → Prop} {R : β → Prop} {E E' : ε → σ → Prop}

variable {x : Except (ε × σ) α}

theorem Ends.bind {f : α → Except (ε × σ) β} (hx : Ends Q E x)
    (hf : ∀ a, Q a → Ends R E (f a)) : Ends R E (x >>= f) := by
  match x, hx with
  | .ok a, ha => exact hf a ha
  | .error (_, _), he => exact he

theorem Ends.mono (hx : Ends Q E x) (hQ : ∀ a, Q a → Q' a)
    (hE : ∀ e s, E e s → E' e s) : Ends Q' E' x := by
  match x, hx with
  | .ok a, ha => exact hQ a ha
  | .error (e, s), he => exact hE e s he

variable {a : α}

theorem Ends.of_ok (hx : Ends Q E x) (h : x = .ok a) : Q a := by
  subst h
  exact hx

theorem bind_eq_ok_iff {x : Except ε α} {f : α → Except ε β} {b : β} :
    (x >>= f) = .ok b ↔ ∃ a, x = .ok a ∧ f a = .ok b := by
  cases x with
  | error e => exact ⟨nofun, fun ⟨_, h, _⟩ => nomatch h⟩
  | ok a => exact ⟨fun h => ⟨a, rfl, h⟩, fun ⟨_, h, hf⟩ => Except.ok.inj h ▸ hf⟩

theorem bind_eq_ok {x : Except ε α} {f : α → Except ε β} {b : β} (h : (x >>= f) = .ok b) :
    ∃ a, x = .ok a ∧ f a = .ok b := bind_eq_ok_iff.mp h

section Checks

variable {c : Prop} [Decidable c]

variable {why : ε} {k : Unit → Except ε α}

theorem check_eq_ok_iff :
    (if c then Except.error why >>= k else k ()) = .ok a ↔ ¬c ∧ k () = .ok a := by
  split_ifs with hc
  · exact iff_of_false nofun fun h => h.1 hc
  · exact (and_iff_right hc).symm

theorem checked_ok (h : (if c then Except.error why >>= k else k ()) = .ok a) : k () = .ok a :=
  (check_eq_ok_iff.mp h).2

theorem ends_check {e : ε} {s : σ} {k : Unit → Except (ε × σ) α} (he : E e s)
    (hk : Ends Q E (k ())) : Ends Q E (if c then Except.error (e, s) >>= k else k ()) := by
  split_ifs
  · exact he
  · exact hk

end Checks

variable {f : σ → α → Except (ε × σ) σ}

theorem ends_foldlM {I : List α → σ → Prop} (step : ∀ a l s, I (a :: l) s → Ends (I l) E (f s a)) :
    ∀ {l s}, I l s → Ends (I []) E (l.foldlM f s)
  | [], _, h => h
  | a :: l, s, h => by
    rw [List.foldlM_cons]
    exact (step a l s h).bind fun s' hs' => ends_foldlM step hs'

theorem foldlM_append_cons {l₁ l₂ : List α} {s s' : σ} (h : (l₁ ++ a :: l₂).foldlM f s = .ok s') :
    ∃ t t', l₁.foldlM f s = .ok t ∧ f t a = .ok t' ∧ l₂.foldlM f t' = .ok s' := by
  rw [List.foldlM_append] at h
  obtain ⟨t, ht, h⟩ := bind_eq_ok h
  rw [List.foldlM_cons] at h
  obtain ⟨t', ht', h⟩ := bind_eq_ok h
  exact ⟨t, t', ht, ht', h⟩

end CosmoRuby.Lib