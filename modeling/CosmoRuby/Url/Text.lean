import CosmoRuby.Url.Encode

/-!
# Decoding text

`decode` is what the parser makes of bytes that mean nothing to the loop that reads them.  Delimiters
are not hexadecimal digits, so an escape never reaches across one, and every loop decodes the text
between two of them as if it stood alone.
-/

namespace CosmoRuby.UrlCodec

open Lib Http List

/-! ## Decoding -/

def isHex (c : UInt8) : Bool := kHexToInt c != -1

def plainOut (l1 : Bool) (c : UInt8) : Bytes := if 0x80 ≤ c ∧ l1 then latin1 c else [c]

def decode (l1 : Bool) : Bytes → Bytes
  | [] => []
  | [c] => plainOut l1 c
  | [c, d] => plainOut l1 c ++ plainOut l1 d
  | c :: a :: b :: rest =>
    if c = chPercent ∧ isHex a ∧ isHex b then hexByte a b :: decode l1 rest
    else plainOut l1 c ++ decode l1 (a :: b :: rest)

def unescape (s : Bytes) : Bytes := decode false s

/-- The last character a loop reads of a text, where it had read `c` before. -/
def lastRead (c : UInt8) : Bytes → UInt8
  | [] => c
  | [d] => d
  | [_, d] => d
  | c :: a :: b :: rest =>
    if c = chPercent ∧ isHex a ∧ isHex b then lastRead c rest else lastRead c (a :: b :: rest)

def NotEscape (c : UInt8) (rest : Bytes) : Prop :=
  ∀ a b s, c = chPercent → rest = a :: b :: s → ¬(isHex a = true ∧ isHex b = true)

variable {l1 : Bool} {c a b : UInt8} {s t rest : Bytes}

theorem decode_plain (h : NotEscape c rest) :
    decode l1 (c :: rest) = plainOut l1 c ++ decode l1 rest := by
  match rest with
  | [] => simp [decode]
  | [d] => simp [decode]
  | a :: b :: s =>
    rw [decode, if_neg]
    rintro ⟨hc, hab⟩
    exact h a b s hc rfl hab

theorem decode_escape (ha : isHex a = true) (hb : isHex b = true) :
    decode l1 (chPercent :: a :: b :: rest) = hexByte a b :: decode l1 rest := by
  rw [decode, if_pos ⟨rfl, ha, hb⟩]

variable {c0 : UInt8}

theorem lastRead_plain (h : NotEscape c rest) : lastRead c0 (c :: rest) = lastRead c rest := by
  match rest with
  | [] => rfl
  | [d] => rfl
  | a :: b :: s =>
    rw [lastRead, if_neg]
    rintro ⟨hc, hab⟩
    exact h a b s hc rfl hab

theorem lastRead_escape (ha : isHex a = true) (hb : isHex b = true) :
    lastRead c0 (chPercent :: a :: b :: rest) = lastRead chPercent rest := by
  rw [lastRead, if_pos ⟨rfl, ha, hb⟩]

theorem text_induction {P : Bytes → Prop} (nil : P [])
    (plain : ∀ c rest, NotEscape c rest → P rest → P (c :: rest))
    (escape : ∀ a b rest, isHex a = true → isHex b = true → P rest →
      P (chPercent :: a :: b :: rest)) (s : Bytes) : P s := by
  induction hk : s.length using Nat.strong_induction_on generalizing s with
  | h k ih =>
    match s with
    | [] => exact nil
    | c :: rest =>
      rw [length_cons] at hk
      by_cases hesc : ∃ a b t, c = chPercent ∧ rest = a :: b :: t ∧ isHex a = true ∧ isHex b = true
      · obtain ⟨a, b, t, rfl, rfl, ha, hb⟩ := hesc
        rw [length_cons, length_cons] at hk
        exact escape a b t ha hb (ih t.length (by omega) t rfl)
      · refine plain c rest (fun a b t hc hr hab => hesc ⟨a, b, t, hc, hr, hab⟩) ?_
        exact ih rest.length (by omega) rest rfl

def Closed (t : Bytes) : Prop := ∀ c, t.head? = some c → isHex c = false

theorem closed_nil : Closed [] := fun _ h => nomatch h

theorem closed_cons (h : isHex c = false) : Closed (c :: t) := by
  rintro _ ⟨⟩
  exact h

theorem NotEscape.append (ht : Closed t) (h : NotEscape c rest) : NotEscape c (rest ++ t) := by
  intro a b s hc hr hab
  match rest with
  | [] =>
    have hhex := ht a (by rw [show t = a :: b :: s from hr]; rfl)
    rw [hab.1] at hhex
    cases hhex
  | [d] =>
    obtain ⟨rfl, hb⟩ := List.cons.inj hr
    have hhex := ht b (by rw [show t = b :: s from hb]; rfl)
    rw [hab.2] at hhex
    cases hhex
  | d :: e :: r =>
    obtain ⟨rfl, hr'⟩ := List.cons.inj hr
    obtain ⟨rfl, -⟩ := List.cons.inj hr'
    exact h _ _ r hc rfl hab

theorem lastRead_mem (hs : s ≠ []) : lastRead c0 s ∈ s := by
  induction s using text_induction generalizing c0 with
  | nil => exact absurd rfl hs
  | plain c rest h ih =>
    rw [lastRead_plain h]
    cases rest with
    | nil => exact mem_cons_self
    | cons d rest => exact mem_cons_of_mem c (ih (cons_ne_nil d rest))
  | escape a b rest ha hb ih =>
    rw [lastRead_escape ha hb]
    cases rest with
    | nil => exact mem_cons_self
    | cons d rest =>
      have hmem : lastRead chPercent (d :: rest) ∈ d :: rest := ih (cons_ne_nil d rest)
      exact mem_cons_of_mem _ (mem_cons_of_mem _ (mem_cons_of_mem _ hmem))

/-! ## What the encoder escapes -/

theorem hexByte_hexDigit : ∀ c : UInt8,
    isHex (hexDigit ((c &&& 0xF0) >>> 4)) = true ∧ isHex (hexDigit (c &&& 0x0F)) = true ∧
      hexByte (hexDigit ((c &&& 0xF0) >>> 4)) (hexDigit (c &&& 0x0F)) = c := by
  decide +kernel

theorem escapeUrlView_cons (T : UInt8 → Bool) (c : UInt8) (v : Bytes) :
    escapeUrlView T (c :: v) = escapeByte T c ++ escapeUrlView T v := rfl

variable {T : UInt8 → Bool} {v : Bytes}

theorem escapeUrlView_ne_nil (hv : v ≠ []) : escapeUrlView T v ≠ [] := by
  obtain ⟨c, v, rfl⟩ := exists_cons_of_ne_nil hv
  rw [escapeUrlView_cons, escapeByte]
  split <;> simp

theorem decode_escapeUrlView (hT : T chPercent = true) (v t : Bytes) :
    decode false (escapeUrlView T v ++ t) = v ++ decode false t := by
  induction v with
  | nil => rfl
  | cons c v ih =>
    rw [escapeUrlView_cons, append_assoc]
    cases hc : T c with
    | false =>
      have hne : c ≠ chPercent := by
        rintro rfl
        rw [hT] at hc
        cases hc
      have hbyte : escapeByte T c = [c] := by simp [escapeByte, hc]
      rw [hbyte, singleton_append, decode_plain fun _ _ _ h => absurd h hne, ih]
      simp [plainOut]
    | true =>
      obtain ⟨ha, hb, hval⟩ := hexByte_hexDigit c
      have hbyte : escapeByte T c =
          [chPercent, hexDigit ((c &&& 0xF0) >>> 4), hexDigit (c &&& 0x0F)] := by
        simp [escapeByte, hc]
      rw [hbyte]
      change decode false (chPercent :: _ :: _ :: (escapeUrlView T v ++ t)) = _
      rw [decode_escape ha hb, hval, ih, cons_append]

theorem mem_escapeUrlView (h : c ∈ escapeUrlView T v) :
    (T c = false ∧ c ∈ v) ∨ c = chPercent ∨ isHex c = true := by
  obtain ⟨d, hd, hc⟩ := List.mem_flatMap.mp h
  cases hT : T d with
  | false =>
    simp only [escapeByte, hT, Bool.not_false, if_true, mem_singleton] at hc
    subst hc
    exact .inl ⟨hT, hd⟩
  | true =>
    obtain ⟨ha, hb, -⟩ := hexByte_hexDigit d
    simp only [escapeByte, hT, Bool.not_true, Bool.false_eq_true, if_false, mem_cons,
      not_mem_nil, or_false] at hc
    rcases hc with rfl | rfl | rfl
    · exact .inr (.inl rfl)
    · exact .inr (.inr ha)
    · exact .inr (.inr hb)

end CosmoRuby.UrlCodec
