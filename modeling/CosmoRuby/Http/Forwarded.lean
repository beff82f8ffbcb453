import CosmoRuby.Http.Range

/-!
# The forwarded address

`ParseForwarded` of `parseforwarded.c`: the last element of an `X-Forwarded-For` header. What stands
before a dot or a colon may be missing, and the number of dots is not counted.
-/

namespace CosmoRuby.Http

open Lib List

/-- The statements `x <<= 8` and `x |= t`, where `t` is below 256. -/
def pushByte (x : Nat) (t : Int) : Nat := (x * 256 + t.toNat) % 2 ^ 32

def forwardedPort (t : Int) : Bytes → Option Int
  | [] => some t
  | c :: p =>
    if isdigit c then
      if 65535 < t * 10 + digit c then none else forwardedPort (t * 10 + digit c) p
    else none

/-- The loop over the address, where there is a byte to read at its start. -/
def forwardedFrom (x : Nat) (t : Int) : Bytes → Option (Nat × Int)
  | [] => some (pushByte x t, 0)
  | c :: p =>
    if isdigit c then
      if 255 < t * 10 + digit c then none else forwardedFrom x (t * 10 + digit c) p
    else if c = 0x2E then forwardedFrom (pushByte x t) 0 p
    else if c = 0x3A then (forwardedPort 0 p).map (pushByte x t, ·)
    else none

/-- What is behind the last comma, and behind a space there. -/
def lastElement (s : Bytes) : Bytes :=
  let p := s.rtakeWhile (· ≠ 0x2C)
  if 0x2C ∈ s ∧ p.head? = some 0x20 then p.tail else p

/-- `ParseForwarded`; it is `none` where the byte behind the text is read. -/
def parseForwarded (s : Bytes) : Option (Option (Nat × Int)) :=
  if s = [] then some none
  else if lastElement s = [] then none
  else some (forwardedFrom 0 0 (lastElement s))

/-! ## Addresses -/

structure Forwarded where
  first : Bytes
  more : List Bytes
  port : Option Bytes

namespace Forwarded

def numbers (f : Forwarded) : List Bytes := f.first :: f.more

def bytes (f : Forwarded) : Bytes :=
  f.first ++ (f.more.flatMap (0x2E :: ·) ++ f.port.elim [] (0x3A :: ·))

def ip (f : Forwarded) : Int := f.numbers.foldl (fun x g => x * 256 + decimal 0 g) 0

def portValue (f : Forwarded) : Int := decimal 0 (f.port.getD [])

/-- The numbers are decimal and small; `t` stands before the first one. -/
structure Wf (t : Int) (f : Forwarded) : Prop where
  first : (∀ c ∈ f.first, isdigit c = true) ∧ decimal t f.first ≤ 255
  more : ∀ g ∈ f.more, (∀ c ∈ g, isdigit c = true) ∧ decimal 0 g ≤ 255
  port : ∀ e ∈ f.port, (∀ c ∈ e, isdigit c = true) ∧ decimal 0 e ≤ 65535

/-- There are four numbers, and no number is missing. -/
def Full (f : Forwarded) : Prop := f.more.length = 3 ∧ [] ∉ f.numbers ∧ f.port ≠ some []

end Forwarded

/-- Only the text is read, and what is reported is the dotted quad and the port at its end. -/
def ReadsLast (s : Bytes) : Prop :=
  parseForwarded s ≠ none ∧ ∀ ip port, parseForwarded s = some (some (ip, port)) →
    ∃ f : Forwarded, f.Wf 0 ∧ f.Full ∧ lastElement s = f.bytes ∧ ip = f.ip ∧ port = f.portValue

variable {x : Nat} {t : Int} {p g s : Bytes} {f : Forwarded}

theorem forwardedPort_eq_some {v : Int} (h0 : 0 ≤ t) (ht : t ≤ 65535) : forwardedPort t p = some v ↔
    ((∀ c ∈ p, isdigit c = true) ∧ decimal t p ≤ 65535) ∧ v = decimal t p := by
  induction p generalizing t with
  | nil => simpa [forwardedPort, decimal, ht] using eq_comm
  | cons c p ih =>
    rw [forwardedPort, forall_mem_cons]
    split_ifs with hc hbig
    · refine iff_of_false id ?_
      rintro ⟨⟨⟨-, hp⟩, hle⟩, -⟩
      have hc := digit_range c hc
      have hmore : t * 10 + digit c ≤ decimal t (c :: p) := le_decimal (by omega) hp
      omega
    · rw [and_iff_right hc]
      exact ih (by have hc := digit_range c hc; omega) (by omega)
    · exact iff_of_false id fun h => hc h.1.1.1

theorem forwardedFrom_digits (h0 : 0 ≤ t) (hg : ∀ c ∈ g, isdigit c = true) (hle : decimal t g ≤ 255) :
    forwardedFrom x t (g ++ p) = forwardedFrom x (decimal t g) p := by
  induction g generalizing t with
  | nil => rfl
  | cons c g ih =>
    obtain ⟨hc, hg⟩ := forall_mem_cons.mp hg
    have hrange := digit_range c hc
    have hmore : t * 10 + digit c ≤ decimal t (c :: g) := le_decimal (by omega) hg
    rw [cons_append, forwardedFrom, if_pos hc, if_neg (by omega)]
    exact ih (by omega) hg hle

/-- What is well formed is accepted, -/
theorem forwardedFrom_bytes (h0 : 0 ≤ t) (hf : f.Wf t) : forwardedFrom x t f.bytes =
    some (f.more.foldl (fun x g => pushByte x (decimal 0 g)) (pushByte x (decimal t f.first)),
      f.portValue) := by
  obtain ⟨first, more, port⟩ := f
  induction more generalizing x t first with
  | nil =>
    refine (forwardedFrom_digits h0 hf.first.1 hf.first.2).trans ?_
    cases port with
    | none => rfl
    | some e =>
      have hport := (forwardedPort_eq_some le_rfl (by decide)).mpr ⟨hf.port e rfl, rfl⟩
      exact congrArg (Option.map (pushByte x (decimal t first), ·)) hport
  | cons g more ih =>
    refine (forwardedFrom_digits h0 hf.first.1 hf.first.2).trans ?_
    have hrest := ih (x := pushByte x (decimal t first)) le_rfl g
      ⟨hf.more g mem_cons_self, fun g' hg' => hf.more g' (mem_cons_of_mem g hg'), hf.port⟩
    simpa [forwardedFrom, Forwarded.bytes, Forwarded.portValue, isdigit] using hrest

/-- and nothing else. -/
theorem exists_of_forwardedFrom {r : Nat × Int} (h0 : 0 ≤ t) (ht : t ≤ 255)
    (h : forwardedFrom x t p = some r) : ∃ f : Forwarded, f.Wf t ∧ p = f.bytes := by
  induction p generalizing x t with
  | nil => exact ⟨⟨[], [], none⟩, ⟨⟨nofun, ht⟩, nofun, nofun⟩, rfl⟩
  | cons c p ih =>
    rw [forwardedFrom] at h
    split_ifs at h with hc hbig hdot hcolon
    · obtain ⟨f, hf, rfl⟩ := ih (by have hc := digit_range c hc; omega) (by omega) h
      exact ⟨⟨c :: f.first, f.more, f.port⟩,
        ⟨⟨forall_mem_cons.mpr ⟨hc, hf.first.1⟩, hf.first.2⟩, hf.more, hf.port⟩, rfl⟩
    · obtain ⟨f, hf, rfl⟩ := ih le_rfl (by decide) h
      exact ⟨⟨[], f.first :: f.more, f.port⟩,
        ⟨⟨nofun, ht⟩, forall_mem_cons.mpr ⟨hf.first, hf.more⟩, hf.port⟩, by simp [Forwarded.bytes, hdot]⟩
    · obtain ⟨v, hv, -⟩ := Option.map_eq_some_iff.mp h
      have hp := ((forwardedPort_eq_some le_rfl (by decide)).mp hv).1
      exact ⟨⟨[], [], some p⟩, ⟨⟨nofun, ht⟩, nofun, fun e he => Option.some.inj he ▸ hp⟩,
        by rw [hcolon]; rfl⟩

theorem foldl_pushByte (hf : f.Wf 0) (hfull : f.Full) :
    (f.more.foldl (fun x g => pushByte x (decimal 0 g)) (pushByte 0 (decimal 0 f.first)) : Nat) =
      f.ip := by
  obtain ⟨a, more, port⟩ := f
  obtain ⟨b, c, d, rfl⟩ := length_eq_three.mp hfull.1
  have hnum : ∀ g ∈ [a, b, c, d], 0 ≤ decimal 0 g ∧ decimal 0 g ≤ 255 := by
    intro g hg
    have hg : (∀ c ∈ g, isdigit c = true) ∧ decimal 0 g ≤ 255 := by
      rcases mem_cons.mp hg with rfl | hg
      · exact hf.first
      · exact hf.more g hg
    exact ⟨le_decimal le_rfl hg.1, hg.2⟩
  simp only [forall_mem_cons] at hnum
  simp only [foldl_cons, foldl_nil, Forwarded.ip, Forwarded.numbers, pushByte]
  omega

/-- The last element has to have a byte; and if it is numbers with dots between them and perhaps a port,
all four numbers and the port have to be there. -/
theorem readsLast_iff (hs : s ≠ []) : ReadsLast s ↔ lastElement s ≠ [] ∧
    ((∃ f : Forwarded, f.Wf 0 ∧ lastElement s = f.bytes) →
      ∃ f : Forwarded, f.Wf 0 ∧ f.Full ∧ lastElement s = f.bytes) := by
  unfold ReadsLast parseForwarded
  rw [if_neg hs]
  by_cases hnone : lastElement s = []
  · rw [if_pos hnone]
    exact iff_of_false (fun h => h.1 rfl) fun h => h.1 hnone
  rw [if_neg hnone]
  refine and_congr (iff_of_true nofun hnone) ⟨?_, ?_⟩
  · rintro h ⟨f, hf, hbytes⟩
    obtain ⟨f', hf', hfull, hbytes', -⟩ := h _ _ (congrArg some (hbytes ▸ forwardedFrom_bytes le_rfl hf))
    exact ⟨f', hf', hfull, hbytes'⟩
  · intro h ip port hparse
    have hparse := Option.some.inj hparse
    obtain ⟨f, hf, hfull, hbytes⟩ := h (exists_of_forwardedFrom le_rfl (by decide) hparse)
    rw [hbytes, forwardedFrom_bytes le_rfl hf] at hparse
    cases hparse
    exact ⟨f, hf, hfull, hbytes, foldl_pushByte hf hfull, rfl⟩

/-- The elements `1` and `1.2.3.4:5`. -/
theorem readsLast_two :
    ReadsLast [0x31, 0x2C, 0x31, 0x2E, 0x32, 0x2E, 0x33, 0x2E, 0x34, 0x3A, 0x35] := by
  refine (readsLast_iff (cons_ne_nil _ _)).mpr ⟨by decide, fun _ => ?_⟩
  refine ⟨⟨[0x31], [[0x32], [0x33], [0x34]], some [0x35]⟩,
    ⟨by decide +kernel, by decide +kernel, ?_⟩, ?_, by decide⟩
  · intro e he
    cases he
    decide +kernel
  · unfold Forwarded.Full
    decide

/-- The byte behind a last comma is read; and the text `1` is accepted. -/
theorem readsLast_comma : ¬ReadsLast [0x31, 0x2C] ∧ parseForwarded [0x31] = some (some (1, 0)) :=
  ⟨fun h => h.1 (by decide), by decide⟩

end CosmoRuby.Http
