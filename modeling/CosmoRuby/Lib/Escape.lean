import CosmoRuby.Lib.Bytes

/-!
# Text with octal escapes

A text in which a backslash and up to three octal digits stand for a byte, and any other character
for itself. Where no character that stands for itself is a digit, an escape ends before the next
character, whatever its number of digits.
-/

namespace CosmoRuby.Lib

open List

def isOctal (c : UInt8) : Bool := 0x30 ≤ c && c ≤ 0x37

def octalValue (ds : Bytes) : Nat := ds.foldl (fun v d => v * 8 + (d.toNat - 0x30)) 0

def octalDigits (t : Bytes) : Bytes := (t.takeWhile isOctal).take 3

def escapes : Bytes → List Nat
  | [] => []
  | c :: t =>
    if c = 0x5c ∧ octalDigits t ≠ [] then octalValue (octalDigits t) :: escapes t else escapes t

inductive Token where
  | raw (c : UInt8)
  | esc (ds : Bytes)
  deriving DecidableEq, Repr

def Token.text : Token → Bytes
  | .raw c => [c]
  | .esc ds => 0x5c :: ds

def Token.value : Token → Nat
  | .raw c => c.toNat
  | .esc ds => octalValue ds

def Token.escape? : Token → Option Nat
  | .raw _ => none
  | .esc ds => some (octalValue ds)

def render (ts : List Token) : Bytes := ts.flatMap Token.text

def Token.valid : Token → Bool
  | .raw c => c != 0x5c && !isOctal c
  | .esc ds => !ds.isEmpty && ds.length ≤ 3 && ds.all isOctal

theorem valid_raw {c : UInt8} (h : (Token.raw c).valid = true) : c ≠ 0x5c ∧ isOctal c = false := by
  simpa [Token.valid] using h

theorem valid_esc {ds : Bytes} (h : (Token.esc ds).valid = true) :
    ds ≠ [] ∧ ds.length ≤ 3 ∧ ∀ d ∈ ds, isOctal d = true := by
  simpa [Token.valid, and_assoc] using h

variable {t rest ds : Bytes} {ts : List Token}

def NoDigit (t : Bytes) : Prop := ∀ c ∈ t.head?, isOctal c = false

theorem noDigit_nil : NoDigit [] := fun _ hc => nomatch hc

theorem isOctal_backslash : isOctal 0x5c = false := by decide

theorem render_cons (x : Token) (ts : List Token) : render (x :: ts) = x.text ++ render ts :=
  flatMap_cons

theorem render_append (l₁ l₂ : List Token) : render (l₁ ++ l₂) = render l₁ ++ render l₂ :=
  flatMap_append

theorem length_le_render (ts : List Token) : ts.length ≤ (render ts).length := by
  induction ts with
  | nil => exact Nat.le_refl 0
  | cons x ts ih =>
    have hpos : 0 < x.text.length := by cases x <;> exact Nat.succ_pos _
    rw [render_cons, length_append, length_cons]
    omega

theorem octalDigits_append (hds : ∀ d ∈ ds, isOctal d = true) (hlen : ds.length ≤ 3)
    (hrest : NoDigit rest) : octalDigits (ds ++ rest) = ds := by
  have hnone : rest.takeWhile isOctal = [] := by
    cases rest with
    | nil => rfl
    | cons c rest => exact takeWhile_cons_of_neg (by rw [hrest c rfl]; decide)
  unfold octalDigits
  rw [takeWhile_append_of_pos hds, hnone, append_nil]
  exact take_of_length_le hlen

theorem escapes_digits (hds : ∀ d ∈ ds, isOctal d = true) :
    escapes (ds ++ rest) = escapes rest := by
  induction ds with
  | nil => rfl
  | cons d ds ih =>
    have hd : d ≠ 0x5c := by
      rintro rfl
      exact absurd (hds _ mem_cons_self) (by decide)
    rw [cons_append, escapes, if_neg fun h => hd h.1]
    exact ih fun x hx => hds x (mem_cons_of_mem d hx)

section

variable (h : ∀ x ∈ ts, x.valid = true)
include h

theorem noDigit_render (hrest : NoDigit rest) : NoDigit (render ts ++ rest) := by
  cases ts with
  | nil => exact hrest
  | cons x ts =>
    intro c hc
    have hx := h x mem_cons_self
    rw [render_cons] at hc
    cases x with
    | raw d =>
      obtain rfl := Option.some.inj hc
      exact (valid_raw hx).2
    | esc ds =>
      obtain rfl := Option.some.inj hc
      exact isOctal_backslash

theorem escapes_render : escapes (render ts) = ts.filterMap Token.escape? := by
  induction ts with
  | nil => rfl
  | cons x ts ih =>
    have hts : ∀ x ∈ ts, x.valid = true := fun y hy => h y (mem_cons_of_mem x hy)
    have hx := h x mem_cons_self
    rw [render_cons]
    cases x with
    | raw c =>
      rw [filterMap_cons_none rfl, ← ih hts]
      exact if_neg fun hc => (valid_raw hx).1 hc.1
    | esc ds =>
      obtain ⟨hne, hlen, hdigits⟩ := valid_esc hx
      have hnext : NoDigit (render ts) := by
        have hend := noDigit_render hts noDigit_nil
        rwa [append_nil] at hend
      have hds := octalDigits_append hdigits hlen hnext
      rw [filterMap_cons_some (show (Token.esc ds).escape? = _ from rfl), ← ih hts,
        Token.text, cons_append, escapes, if_pos ⟨rfl, by rw [hds]; exact hne⟩, hds, escapes_digits hdigits]

theorem escapes_le_iff : (∀ v ∈ escapes (render ts), v ≤ 255) ↔ ∀ x ∈ ts, x.value ≤ 255 := by
  rw [escapes_render h]
  constructor
  · intro hesc x hx
    cases x with
    | raw c => exact Nat.le_of_lt_succ c.toNat_lt
    | esc ds => exact hesc _ (List.mem_filterMap.mpr ⟨_, hx, rfl⟩)
  · intro hall v hv
    obtain ⟨x, hx, hval⟩ := List.mem_filterMap.mp hv
    cases x with
    | raw c => nomatch hval
    | esc ds =>
      obtain rfl := Option.some.inj hval
      exact hall _ hx

theorem mem_render_iff {c : UInt8} (hc : c ≠ 0x5c)
    (hdigit : isOctal c = false) : c ∈ render ts ↔ Token.raw c ∈ ts := by
  unfold render
  rw [mem_flatMap]
  constructor
  · rintro ⟨x, hx, hmem⟩
    cases x with
    | raw d => rwa [List.mem_singleton.mp hmem]
    | esc ds =>
      cases List.mem_cons.mp hmem with
      | inl heq => exact absurd heq hc
      | inr hd =>
        rw [(valid_esc (h _ hx)).2.2 c hd] at hdigit
        nomatch hdigit
  · intro hx
    exact ⟨_, hx, List.mem_singleton.mpr rfl⟩

end

end CosmoRuby.Lib
