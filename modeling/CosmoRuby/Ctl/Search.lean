import CosmoRuby.Lib.Bytes

/-!
# Searching a `ctl::string`

The searches of `string.cc` that take a start position. No index is `npos`.
-/

namespace CosmoRuby.Ctl

open Lib List

/-- `memchr`, `memmem` and the loop of `find_first_of`: the first index from which the rest is as asked. -/
def scan (q : Bytes → Bool) : Bytes → Nat → Option Nat
  | [], i => if q [] then some i else none
  | b :: s, i => if q (b :: s) then some i else scan q s (i + 1)

/-- `memrchr` and the loop of `find_last_of`, over the first `n` bytes. -/
def scanBack (p : UInt8 → Bool) (s : Bytes) : Nat → Option Nat
  | 0 => none
  | n + 1 => if s[n]?.any p then some n else scanBack p s n

def startsWith (p : UInt8 → Bool) (s : Bytes) : Bool := s.head?.any p

/-- `find` of a character does not look at the position. -/
def findChar (s : Bytes) (c : UInt8) (_pos : Nat) : Option Nat := scan (startsWith (· == c)) s 0

/-- `find` of a view traps behind the end. -/
def findView (s v : Bytes) (pos : Nat) : Option (Option Nat) :=
  if s.length < pos then none else some (scan v.isPrefixOf (s.drop pos) pos)

def findLastOfChar (s : Bytes) (c : UInt8) (pos : Nat) : Option Nat := scanBack (· == c) s (min pos s.length)

def findLastOfSet (s set : Bytes) (pos : Nat) : Option Nat :=
  if s = [] ∨ set = [] then none else scanBack set.contains s (min pos (s.length - 1) + 1)

def findFirstOfChar (s : Bytes) (c : UInt8) (pos : Nat) : Option Nat :=
  if s.length ≤ pos then none else scan (startsWith (· == c)) (s.drop pos) pos

def findFirstOfSet (s set : Bytes) (pos : Nat) : Option Nat :=
  if set = [] then none else scan (startsWith set.contains) (s.drop pos) pos

/-! ## What the STL asks for -/

/-- The first index with `Q` in an order, if there is one. -/
def Best (le : Nat → Nat → Prop) (Q : Nat → Prop) : Option Nat → Prop
  | none => ∀ i, ¬ Q i
  | some i => Q i ∧ ∀ j, Q j → le i j

abbrev Least (pos : Nat) (Q : Nat → Prop) : Option Nat → Prop := Best (· ≤ ·) fun i => pos ≤ i ∧ Q i

abbrev Greatest (pos : Nat) (Q : Nat → Prop) : Option Nat → Prop := Best (· ≥ ·) fun i => i ≤ pos ∧ Q i

def Has (p : UInt8 → Bool) (s : Bytes) (i : Nat) : Prop := s[i]?.any p = true

structure Honours (s v set : Bytes) (c : UInt8) (pos : Nat) : Prop where
  findChar : Least pos (Has (· == c) s) (findChar s c pos)
  findView : ∃ r, Ctl.findView s v pos = some r ∧ Least pos (fun i => v <+: s.drop i) r
  findFirstOfChar : Least pos (Has (· == c) s) (findFirstOfChar s c pos)
  findFirstOfSet : Least pos (Has set.contains s) (findFirstOfSet s set pos)
  findLastOfChar : Greatest pos (Has (· == c) s) (findLastOfChar s c pos)
  findLastOfSet : Greatest pos (Has set.contains s) (findLastOfSet s set pos)
  first : Ctl.findFirstOfChar s c pos = Ctl.findFirstOfSet s [c] pos
  last : Ctl.findLastOfChar s c pos = Ctl.findLastOfSet s [c] pos

/-! ## The loops -/

variable {le : Nat → Nat → Prop} {Q Q' : Nat → Prop} {r : Option Nat} {p : UInt8 → Bool} {q : Bytes → Bool}
  {s set : Bytes} {c : UInt8} {pos i : Nat}

theorem Best.congr (h : Best le Q r) (hQ : ∀ i, Q i ↔ Q' i) : Best le Q' r := by
  rwa [← show Q = Q' from funext fun i => propext (hQ i)]

theorem Best.common (h : Best le Q r) (h' : Best le Q' r) (hi : Q i ∨ Q' i) : ∃ k, Q k ∧ Q' k ∧ le k i := by
  cases r with
  | none => exact absurd hi (not_or.mpr ⟨h i, h' i⟩)
  | some k => exact ⟨k, h.1, h'.1, hi.elim (h.2 i) (h'.2 i)⟩

theorem Best.eq_none (h : Best le Q r) (hno : ∀ i, ¬ Q i) : r = none := by
  cases r with
  | none => rfl
  | some i => exact absurd h.1 (hno i)

theorem least_self (hq : Q pos) : Least pos Q (some pos) := ⟨⟨Nat.le_refl pos, hq⟩, fun _ hj => hj.1⟩

theorem least_scan (s : Bytes) (pos : Nat) : Least pos (fun i => q (s.drop i) = true) (scan q (s.drop pos) pos) := by
  generalize hl : s.drop pos = l
  induction l generalizing pos with
  | nil =>
    rw [scan]
    split_ifs with hq
    · exact least_self (by simpa only [hl])
    · rintro i ⟨hi, hqi⟩
      rw [drop_eq_nil_iff.mpr ((drop_eq_nil_iff.mp hl).trans hi)] at hqi
      exact hq hqi
  | cons b l ih =>
    rw [scan]
    split_ifs with hq
    · exact least_self (by simpa only [hl])
    · have htail : s.drop (pos + 1) = l := by rw [← tail_drop, hl, tail_cons]
      refine (ih (pos + 1) htail).congr fun i => ?_
      refine and_congr_left fun hqi => ⟨Nat.le_of_succ_le, fun hi => ?_⟩
      exact Nat.lt_of_le_of_ne hi fun heq => hq (by rwa [← hl, heq])

theorem least_has (s : Bytes) (pos : Nat) : Least pos (Has p s) (scan (startsWith p) (s.drop pos) pos) := by
  have hscan := least_scan (q := startsWith p) s pos
  simp only [startsWith, head?_drop] at hscan
  exact hscan

theorem best_scanBack (s : Bytes) (n : Nat) : Best (· ≥ ·) (fun i => i < n ∧ Has p s i) (scanBack p s n) := by
  induction n with
  | zero => exact fun i hi => absurd hi.1 (Nat.not_lt_zero i)
  | succ n ih =>
    rw [scanBack]
    split_ifs with hn
    · exact ⟨⟨Nat.lt_succ_self n, hn⟩, fun j hj => Nat.le_of_lt_succ hj.1⟩
    · refine ih.congr fun i => and_congr_left fun hi => ⟨Nat.lt_succ_of_lt, fun hlt => ?_⟩
      exact Nat.lt_of_le_of_ne (Nat.le_of_lt_succ hlt) fun heq => hn (heq ▸ hi)

theorem Has.lt (h : Has p s i) : i < s.length := by
  by_contra hge
  rw [Has, getElem?_eq_none (Nat.not_lt.mp hge)] at h
  cases h

theorem not_has_nil : ¬ Has [].contains s i := by
  unfold Has
  cases s[i]? <;> exact Bool.false_ne_true

theorem least_findFirstOfSet (s set : Bytes) (pos : Nat) : Least pos (Has set.contains s) (findFirstOfSet s set pos) := by
  rw [findFirstOfSet]
  split_ifs with hempty
  · exact fun i hi => not_has_nil (hempty ▸ hi.2)
  · exact least_has s pos

theorem greatest_findLastOfSet (s set : Bytes) (pos : Nat) :
    Greatest pos (Has set.contains s) (findLastOfSet s set pos) := by
  rw [findLastOfSet]
  split_ifs with hempty
  · rintro i ⟨-, hi⟩
    rcases hempty with rfl | rfl
    · exact absurd hi.lt (Nat.not_lt_zero i)
    · exact not_has_nil hi
  · refine (best_scanBack s _).congr fun i => and_congr_left fun hi => ?_
    have hlt := hi.lt
    omega

theorem contains_singleton (c : UInt8) : [c].contains = (· == c) := by
  funext b
  rw [contains_cons, contains_nil, Bool.or_false]

theorem findFirstOfChar_eq (s : Bytes) (c : UInt8) (pos : Nat) :
    findFirstOfChar s c pos = findFirstOfSet s [c] pos := by
  rw [findFirstOfChar, findFirstOfSet, if_neg (cons_ne_nil c []), contains_singleton]
  split_ifs with hend
  · rw [drop_eq_nil_iff.mpr hend]
    rfl
  · rfl

/-- `find` of a character finds it before the position, and `find_last_of` misses it at the position. -/
theorem honours_iff (s v set : Bytes) (c : UInt8) (pos : Nat) (hpos : pos ≤ s.length) :
    Honours s v set c pos ↔ c ∉ s.take (pos + 1) := by
  have hwhole := least_has (p := (· == c)) s 0
  have hback := best_scanBack (p := (· == c)) s (min pos s.length)
  rw [drop_zero] at hwhole
  have hmem : c ∈ s.take (pos + 1) ↔ ∃ i ≤ pos, Has (· == c) s i := by
    simp [mem_iff_getElem?, getElem?_take, Has, Option.any_eq_true]
  rw [hmem]
  constructor
  · rintro h ⟨i, hi, hc⟩
    rcases Nat.lt_or_eq_of_le hi with hlt | rfl
    · obtain ⟨k, -, hk, hle⟩ := hwhole.common h.findChar (.inl ⟨Nat.zero_le i, hc⟩)
      omega
    · obtain ⟨k, hk, -, hle⟩ := hback.common h.findLastOfChar (.inr ⟨hi, hc⟩)
      omega
  · intro hno
    have hlater (i : Nat) (hi : Has (· == c) s i) : pos < i := Nat.lt_of_not_le fun hle => hno ⟨i, hle, hi⟩
    have hnone (i : Nat) : ¬ (i ≤ pos ∧ Has (· == c) s i) := fun hi => Nat.not_le.mpr (hlater i hi.2) hi.1
    have hview := least_scan (q := v.isPrefixOf) s pos
    have hfirst := least_findFirstOfSet s [c] pos
    have hlast := greatest_findLastOfSet s [c] pos
    simp only [ isPrefixOf_iff_prefix] at hview
    rw [contains_singleton] at hfirst hlast
    have hmiss : Greatest pos (Has (· == c) s) (findLastOfChar s c pos) :=
      hback.congr fun i => and_congr_left fun hi => by have := hlater i hi; omega
    refine ⟨?_, ⟨_, if_neg hpos.not_gt, hview⟩, findFirstOfChar_eq s c pos ▸ hfirst, least_findFirstOfSet s set pos,
      hmiss, greatest_findLastOfSet s set pos, findFirstOfChar_eq s c pos, ?_⟩
    · exact hwhole.congr fun i => and_congr_left fun hi => iff_of_true (Nat.zero_le i) (hlater i hi).le
    · rw [hmiss.eq_none hnone, hlast.eq_none hnone]

/-- `b` in `ab`, from the start. -/
theorem honours_ab : Honours [0x61, 0x62] [0x62] [0x62] 0x62 0 :=
  (honours_iff _ _ _ _ 0 (by decide)).mpr (by decide)

/-- `a` in `aa`, from the second one. -/
theorem not_honours_aa : findChar [0x61, 0x61] 0x61 1 = some 0 ∧ findLastOfChar [0x61, 0x61] 0x61 1 = some 0 ∧
    findLastOfSet [0x61, 0x61] [0x61] 1 = some 1 ∧ ∀ v set, ¬ Honours [0x61, 0x61] v set 0x61 1 :=
  ⟨rfl, rfl, rfl, fun _ _ h => absurd h.last (by decide)⟩

end CosmoRuby.Ctl
