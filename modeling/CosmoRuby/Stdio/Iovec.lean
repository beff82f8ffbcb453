import Mathlib
import CosmoRuby.Lib.Bytes

/-!
# Gathered writes and scattered reads

The loops `writevall` and `readvall`, which go on until all elements of an array of buffers are
written or read. An element of the array is the list of its bytes, for reading its length. A loop
that looks at the element behind the last one is marked as having overrun the array; what it does
then is modelled as if the memory there had a nonzero length, which ends the loop.
-/

open CosmoRuby.Lib

namespace CosmoRuby.Stdio

open List

inductive Errno where
  | ebadf
  | einval
  | enomem
  | enospc
  | eoverflow
  | espipe
  | ecanceled
  | other (n : Nat)
deriving DecidableEq

/-! ## 1. Writing -/

structure Rolled where
  rest : List Bytes
  wrote : Nat
  overran : Bool

def rollForward : List Bytes → Nat → Rolled
  | [], wrote => ⟨[], wrote, true⟩
  | e :: iov, wrote =>
    if e.length = 0 then rollForward iov wrote
    else if e.length ≤ wrote then rollForward iov (wrote - e.length)
    else ⟨e.drop wrote :: iov, wrote, false⟩

structure Written (σ : Type) where
  result : Except Errno Nat
  sys : σ
  overran : Bool

section Writevall

variable {σ : Type} (writev : σ → List Bytes → Except Errno Nat × σ)

def writevallFrom : Nat → List Bytes → Nat → σ → Written σ
  | 0, _, toto, s => ⟨.ok toto, s, false⟩
  | fuel + 1, iov, toto, s =>
    let r := writev s iov
    match r.1 with
    | .error e =>
      ⟨if toto ≠ 0 ∧ e ≠ .ecanceled then .ok toto else .error e, r.2, false⟩
    | .ok wrote =>
      let q := rollForward iov wrote
      if q.wrote ≠ 0 ∧ q.rest ≠ [] then
        let w := writevallFrom fuel q.rest (toto + wrote) r.2
        ⟨w.result, w.sys, q.overran || w.overran⟩
      else ⟨.ok (toto + wrote), r.2, q.overran⟩

def writevall (iov : List Bytes) (s : σ) : Written σ :=
  writevallFrom writev (iov.flatten.length + 1) iov 0 s

end Writevall

/-! ## 2. Reading -/

/-- How rolling forward ends in `readvall`: at the end of the array, or before it. -/
structure RolledRead where
  rest : List Nat
  overran : Bool

def rollForwardRead : List Nat → Nat → RolledRead
  | [], _ => ⟨[], true⟩
  | len :: iov, got =>
    if len = 0 then if iov = [] then ⟨[], false⟩ else rollForwardRead iov got
    else if len ≤ got then if iov = [] then ⟨[], false⟩ else rollForwardRead iov (got - len)
    else ⟨(len - got) :: iov, false⟩

/-- What `readvall` leaves behind: the bytes read, or an error before the first of them, and
whether it met the end of the file or an error. -/
structure Read (σ : Type) where
  result : Except Errno Bytes
  eof : Bool
  failed : Option Errno
  sys : σ
  overran : Bool

section Readvall

variable {σ : Type} (readv : σ → List Nat → Except Errno Bytes × σ) (need : Nat)

def readvallFrom : Nat → List Nat → Bytes → σ → Read σ
  | 0, _, toto, s => ⟨.ok toto, false, none, s, false⟩
  | fuel + 1, iov, toto, s =>
    let r := readv s iov
    match r.1 with
    | .error e =>
      ⟨if toto ≠ [] then .ok toto else .error e, false, some e, r.2, false⟩
    | .ok got =>
      if got = [] then ⟨.ok toto, true, none, r.2, false⟩
      else
        let q := rollForwardRead iov got.length
        if q.rest = [] then ⟨.ok (toto ++ got), false, none, r.2, q.overran⟩
        else if need ≤ (toto ++ got).length then ⟨.ok (toto ++ got), false, none, r.2, q.overran⟩
        else
          let w := readvallFrom fuel q.rest (toto ++ got) r.2
          ⟨w.result, w.eof, w.failed, w.sys, q.overran || w.overran⟩

def readvall (iov : List Nat) (s : σ) : Read σ :=
  readvallFrom readv need (iov.sum + 1) iov [] s

end Readvall

/-! ## 3. Rolling forward -/

def IsEnd : List Bytes → Nat → Prop
  | [], k => k = 0
  | e :: iov, k => k = 0 ∨ e.length ≤ k ∧ IsEnd iov (k - e.length)

theorem isEnd_zero (iov : List Bytes) : IsEnd iov 0 := by
  cases iov with
  | nil => exact rfl
  | cons e iov => exact .inl rfl

variable {e : Bytes} {iov : List Bytes} {k : Nat}

theorem isEnd_cons_of_pos (hk : k ≠ 0) :
    IsEnd (e :: iov) k ↔ e.length ≤ k ∧ IsEnd iov (k - e.length) :=
  or_iff_right hk

theorem isEnd_cons_of_le (h : e.length ≤ k) : IsEnd (e :: iov) k ↔ IsEnd iov (k - e.length) := by
  by_cases hk : k = 0
  · rw [hk, Nat.zero_sub]
    exact iff_of_true (isEnd_zero _) (isEnd_zero _)
  · rw [isEnd_cons_of_pos hk]
    exact and_iff_right h

theorem rollForward_skip (h : e.length ≤ k) : rollForward (e :: iov) k = rollForward iov (k - e.length) := by
  rw [rollForward]
  split_ifs with he
  · rw [he, Nat.sub_zero]
  · rfl

theorem rollForward_all (iov : List Bytes) :
    rollForward iov iov.flatten.length = ⟨[], 0, true⟩ := by
  induction iov with
  | nil => rfl
  | cons e iov ih =>
    rw [flatten_cons, length_append, rollForward_skip (Nat.le_add_right _ _), Nat.add_sub_cancel_left, ih]

theorem rollForward_part (iov : List Bytes) (w : Nat) (hw : w < iov.flatten.length) :
    (rollForward iov w).overran = false ∧ (rollForward iov w).rest ≠ [] ∧
      (rollForward iov w).rest.flatten = iov.flatten.drop w ∧
      ((rollForward iov w).wrote = 0 ↔ IsEnd iov w) ∧
      ((rollForward iov w).wrote ≠ 0 →
        ∀ v, v ≠ 0 → (IsEnd (rollForward iov w).rest v ↔ IsEnd iov (w + v))) := by
  induction iov generalizing w with
  | nil => exact absurd hw (Nat.not_lt_zero w)
  | cons e iov ih =>
    rw [flatten_cons, length_append] at hw
    by_cases hle : e.length ≤ w
    · obtain ⟨h₁, h₂, h₃, h₄, h₅⟩ := ih (w - e.length) (by omega)
      rw [rollForward_skip hle]
      refine ⟨h₁, h₂, ?_, ?_, ?_⟩
      · rw [h₃, flatten_cons, drop_append, drop_eq_nil_of_le hle,
          nil_append]
      · rw [h₄, isEnd_cons_of_le hle]
      · intro hwrote v hv
        have hsub : w + v - e.length = w - e.length + v := by omega
        rw [h₅ hwrote v hv, isEnd_cons_of_le (by omega), hsub]
    · rw [rollForward, if_neg (by omega), if_neg hle]
      refine ⟨rfl, cons_ne_nil _ _, ?_, ?_, ?_⟩
      · rw [flatten_cons, flatten_cons, drop_append_of_le_length (by omega)]
      · exact ⟨fun h => .inl h, fun h => h.elim id fun h => absurd h.1 hle⟩
      · intro _ v hv
        have hsub : w + v - e.length = v - (e.length - w) := by omega
        rw [isEnd_cons_of_pos hv, isEnd_cons_of_pos (by omega), length_drop, hsub]
        exact and_congr_left' (by omega)

theorem isEnd_length_flatten (iov : List Bytes) : IsEnd iov iov.flatten.length := by
  induction iov with
  | nil => exact rfl
  | cons e iov ih =>
    rw [flatten_cons, length_append]
    refine .inr ⟨Nat.le_add_right _ _, ?_⟩
    rw [Nat.add_sub_cancel_left]
    exact ih

/-! ## 4. Calls that take part of the bytes -/

/-- A descriptor for output: what was delivered to it, and how many calls were made. -/
structure Sink where
  delivered : Bytes
  calls : Nat

section Sink

variable (lo : Nat) (ω : Nat → Except Errno Nat)

/-- The answer to one call: an error, or a count that is at least `lo` and at most the length. -/
def Sink.respond (s : Sink) (bytes : Bytes) : Except Errno Nat × Sink :=
  match ω s.calls with
  | .error e => (.error e, ⟨s.delivered, s.calls + 1⟩)
  | .ok c =>
    (.ok (min (max c lo) bytes.length),
      ⟨s.delivered ++ bytes.take (min (max c lo) bytes.length), s.calls + 1⟩)

def Sink.writev (s : Sink) (iov : List Bytes) : Except Errno Nat × Sink :=
  s.respond lo ω iov.flatten

def counted (left : Nat) : Except Errno Nat → Nat
  | .error _ => 0
  | .ok c => min (max c lo) left

/-- The bytes that the answers from call `start` on take, of `total` bytes, in `j` calls. -/
def sent (total start : Nat) : Nat → Nat
  | 0 => 0
  | j + 1 => sent total start j + counted lo (total - sent total start j) (ω (start + j))

/-- The answers from call `start` on take all bytes of the array, and none of the calls before the
last one fails, takes nothing or ends with an element. -/
def Transfers (iov : List Bytes) (start : Nat) : Prop :=
  ∃ k, (∀ j < k, (ω (start + j)).isOk ∧
      sent lo ω iov.flatten.length start j < sent lo ω iov.flatten.length start (j + 1) ∧
      ¬ IsEnd iov (sent lo ω iov.flatten.length start (j + 1))) ∧
    (ω (start + k)).isOk ∧ sent lo ω iov.flatten.length start (k + 1) = iov.flatten.length

theorem counted_le (left : Nat) (r : Except Errno Nat) : counted lo left r ≤ left := by
  cases r with
  | error e => exact Nat.zero_le left
  | ok c => exact Nat.min_le_right _ _

theorem sent_le (total start j : Nat) : sent lo ω total start j ≤ total := by
  induction j with
  | zero => exact Nat.zero_le total
  | succ j ih =>
    have hcount := counted_le lo (total - sent lo ω total start j) (ω (start + j))
    rw [sent]
    omega

theorem sent_mono_succ (total start j : Nat) :
    sent lo ω total start j ≤ sent lo ω total start (j + 1) :=
  Nat.le_add_right _ _

variable {lo ω}

theorem sent_one (total start : Nat) : sent lo ω total start 1 = counted lo total (ω start) := by
  rw [sent, sent, Nat.zero_add, Nat.sub_zero, Nat.add_zero]

theorem sent_succ_shift (total start j : Nat) :
    sent lo ω total start (j + 1) = counted lo total (ω start) +
      sent lo ω (total - counted lo total (ω start)) (start + 1) j := by
  induction j with
  | zero => rw [sent_one, sent, Nat.add_zero]
  | succ j ih =>
    have hstart : start + (j + 1) = start + 1 + j := by omega
    rw [sent, ih, sent, hstart, Nat.add_assoc, Nat.sub_sub]

/-- A run of `writevall` against the sink: it goes on for `k` calls and ends with the next one. -/
structure Ended (lo : Nat) (ω : Nat → Except Errno Nat) (iov : List Bytes) (toto : Nat) (s : Sink)
    (w : Written Sink) (k : Nat) : Prop where
  goesOn : ∀ j < k, (ω (s.calls + j)).isOk ∧
    sent lo ω iov.flatten.length s.calls j < sent lo ω iov.flatten.length s.calls (j + 1) ∧
    ¬ IsEnd iov (sent lo ω iov.flatten.length s.calls (j + 1))
  ends : (∃ e, ω (s.calls + k) = .error e ∧ w.overran = false ∧
      w.result = if toto + sent lo ω iov.flatten.length s.calls k ≠ 0 ∧ e ≠ .ecanceled then
        .ok (toto + sent lo ω iov.flatten.length s.calls k) else .error e) ∨
    ((ω (s.calls + k)).isOk ∧
      (sent lo ω iov.flatten.length s.calls (k + 1) = sent lo ω iov.flatten.length s.calls k ∨
        IsEnd iov (sent lo ω iov.flatten.length s.calls (k + 1))) ∧
      w.result = .ok (toto + sent lo ω iov.flatten.length s.calls (k + 1)) ∧
      (w.overran = true ↔
        sent lo ω iov.flatten.length s.calls (k + 1) = iov.flatten.length))
  calls : w.sys.calls = s.calls + k + 1
  delivered : w.sys.delivered =
    s.delivered ++ iov.flatten.take (sent lo ω iov.flatten.length s.calls (k + 1))

theorem writevallFrom_error (fuel : Nat) (iov : List Bytes) (toto : Nat) (s : Sink) {e : Errno}
    (h : ω s.calls = .error e) :
    writevallFrom (Sink.writev lo ω) (fuel + 1) iov toto s =
      ⟨if toto ≠ 0 ∧ e ≠ .ecanceled then .ok toto else .error e,
        ⟨s.delivered, s.calls + 1⟩, false⟩ := by
  simp only [writevallFrom, Sink.writev, Sink.respond, h]

variable {r toto j : Nat}

theorem writevallFrom_ok (fuel : Nat) (iov : List Bytes) (toto : Nat) (s : Sink) {c : Nat}
    (h : ω s.calls = .ok c) (hr : min (max c lo) iov.flatten.length = r) :
    writevallFrom (Sink.writev lo ω) (fuel + 1) iov toto s =
      if (rollForward iov r).wrote ≠ 0 ∧ (rollForward iov r).rest ≠ [] then
        let w := writevallFrom (Sink.writev lo ω) fuel (rollForward iov r).rest (toto + r)
          ⟨s.delivered ++ iov.flatten.take r, s.calls + 1⟩
        ⟨w.result, w.sys, (rollForward iov r).overran || w.overran⟩
      else ⟨.ok (toto + r), ⟨s.delivered ++ iov.flatten.take r, s.calls + 1⟩,
        (rollForward iov r).overran⟩ := by
  simp only [writevallFrom, Sink.writev, Sink.respond, h, hr]

variable {s : Sink} {w : Written Sink}

theorem Ended.cons {rest : List Bytes}
    (hok : (ω (s.calls + 0)).isOk) (hcounted : counted lo iov.flatten.length (ω s.calls) = r)
    (hnotEnd : ¬ IsEnd iov r) (hflat : rest.flatten = iov.flatten.drop r)
    (hends : ∀ v, v ≠ 0 → (IsEnd rest v ↔ IsEnd iov (r + v)))
    (h : Ended lo ω rest (toto + r) ⟨s.delivered ++ iov.flatten.take r, s.calls + 1⟩ w k) :
    Ended lo ω iov toto s w (k + 1) := by
  obtain ⟨hgo, hend, hcalls, hdelivered⟩ := h
  have hpos : 0 < r := Nat.pos_of_ne_zero fun h => hnotEnd (h ▸ isEnd_zero iov)
  have hle : r ≤ iov.flatten.length := hcounted ▸ counted_le lo _ _
  have hsent : sent lo ω iov.flatten.length s.calls 1 = r := by rw [sent_one, hcounted]
  have hlen : rest.flatten.length = iov.flatten.length - r := by rw [hflat, length_drop]
  have hshift (j : Nat) : sent lo ω iov.flatten.length s.calls (j + 1) =
      r + sent lo ω (iov.flatten.length - r) (s.calls + 1) j := by
    rw [sent_succ_shift, hcounted]
  have hnext (j : Nat) : s.calls + (j + 1) = s.calls + 1 + j := by omega
  simp only [hlen] at hgo hend hdelivered
  refine ⟨fun j hj => ?_, ?_, ?_, ?_⟩
  · cases j with
    | zero => exact ⟨hok, by rw [hsent]; exact hpos, by rw [hsent]; exact hnotEnd⟩
    | succ j =>
      obtain ⟨hokj, hltj, hendj⟩ := hgo j (by omega)
      rw [hends _ (by omega)] at hendj
      rw [hshift, hshift, hnext]
      exact ⟨hokj, by omega, hendj⟩
  · rw [hshift, hshift, hnext, ← Nat.add_assoc toto, ← Nat.add_assoc toto]
    rcases hend with hfailed | ⟨hokk, hwhy, hres, hiff⟩
    · exact .inl hfailed
    · refine .inr ⟨hokk, ?_, hres, hiff.trans (by omega)⟩
      by_cases hzero : sent lo ω (iov.flatten.length - r) (s.calls + 1) (k + 1) = 0
      · have hmono := sent_mono_succ lo ω (iov.flatten.length - r) (s.calls + 1) k
        exact .inl (by omega)
      · exact hwhy.imp (fun h => by rw [h]) fun h => (hends _ hzero).1 h
  · rw [hcalls]
    show s.calls + 1 + k + 1 = s.calls + (k + 1) + 1
    omega
  · rw [hdelivered, hshift, hflat, append_assoc, ← take_add]

/-- The first call takes bytes up to the end of an element. -/
theorem Ended.stop {overran : Bool} (hok : (ω (s.calls + 0)).isOk)
    (hcounted : counted lo iov.flatten.length (ω s.calls) = r) (hend : IsEnd iov r)
    (hover : overran = true ↔ r = iov.flatten.length) :
    Ended lo ω iov toto s ⟨.ok (toto + r), ⟨s.delivered ++ iov.flatten.take r, s.calls + 1⟩, overran⟩ 0 := by
  have hsent : sent lo ω iov.flatten.length s.calls 1 = r := by rw [sent_one, hcounted]
  refine ⟨fun j hj => absurd hj (Nat.not_lt_zero j), .inr ⟨hok, .inr ?_, ?_, ?_⟩, rfl, ?_⟩
  all_goals rw [hsent]
  · exact hend
  · exact hover

theorem ended_writevallFrom (fuel : Nat) (iov : List Bytes) (toto : Nat) (s : Sink)
    (hfuel : iov.flatten.length < fuel) :
    ∃ k, Ended lo ω iov toto s (writevallFrom (Sink.writev lo ω) fuel iov toto s) k := by
  induction fuel generalizing iov toto s with
  | zero => exact absurd hfuel (Nat.not_lt_zero _)
  | succ fuel ih =>
    cases hω : ω s.calls with
    | error e =>
      have hsent : sent lo ω iov.flatten.length s.calls 1 = 0 := by rw [sent_one, hω]; rfl
      rw [writevallFrom_error fuel iov toto s hω]
      refine ⟨0, fun j hj => absurd hj (Nat.not_lt_zero j), .inl ⟨e, hω, rfl, rfl⟩, rfl, ?_⟩
      rw [hsent, take_zero, append_nil]
    | ok c =>
      obtain ⟨r, hr⟩ : ∃ r, min (max c lo) iov.flatten.length = r := ⟨_, rfl⟩
      have hle : r ≤ iov.flatten.length := hr ▸ Nat.min_le_right _ _
      have hok : (ω (s.calls + 0)).isOk := by rw [Nat.add_zero, hω]; rfl
      have hcounted : counted lo iov.flatten.length (ω s.calls) = r := by rw [hω]; exact hr
      rw [writevallFrom_ok fuel iov toto s hω hr]
      by_cases hall : r = iov.flatten.length
      · -- the last byte is taken, and the loop runs off the array
        have hroll : rollForward iov r = ⟨[], 0, true⟩ := by rw [hall]; exact rollForward_all iov
        rw [hroll, if_neg (by simp)]
        exact ⟨0, .stop hok hcounted (hall ▸ isEnd_length_flatten iov) (iff_of_true rfl hall)⟩
      · obtain ⟨hover, hrest, hflat, hwrote, hends⟩ := rollForward_part iov r (by omega)
        by_cases hstop : (rollForward iov r).wrote = 0
        · rw [if_neg (by rw [hstop]; simp), hover]
          exact ⟨0, .stop hok hcounted (hwrote.1 hstop) (iff_of_false Bool.false_ne_true hall)⟩
        · -- the rest of the run is one with the bytes that are left
          have hnotEnd : ¬ IsEnd iov r := fun h => hstop (hwrote.2 h)
          have hpos : 0 < r := Nat.pos_of_ne_zero fun h => hnotEnd (h ▸ isEnd_zero iov)
          rw [if_pos ⟨hstop, hrest⟩, hover]
          obtain ⟨k, hk⟩ := ih (rollForward iov r).rest (toto + r)
            ⟨s.delivered ++ iov.flatten.take r, s.calls + 1⟩
            (by rw [hflat, length_drop]; omega)
          exact ⟨k + 1, hk.cons hok hcounted hnotEnd hflat (hends hstop)⟩

section

variable (h : Ended lo ω iov toto s w k)
include h

theorem Ended.sent_ne (hj : j < k) :
    sent lo ω iov.flatten.length s.calls (j + 1) ≠ iov.flatten.length := by
  intro hall
  have hnotEnd := (h.goesOn j hj).2.2
  rw [hall] at hnotEnd
  exact hnotEnd (isEnd_length_flatten iov)

theorem Ended.overran_iff : w.overran = true ↔ Transfers lo ω iov s.calls := by
  rcases h.ends with ⟨e, he, hno, -⟩ | ⟨hok, hwhy, -, hover⟩
  · rw [hno]
    refine iff_of_false Bool.false_ne_true ?_
    rintro ⟨k', hgo, hok', hall⟩
    rcases Nat.lt_trichotomy k k' with hlt | heq | hgt
    · have hokk := (hgo k hlt).1
      rw [he] at hokk
      exact Bool.false_ne_true hokk
    · rw [← heq, he] at hok'
      exact Bool.false_ne_true hok'
    · exact h.sent_ne hgt hall
  · rw [hover]
    refine ⟨fun hall => ⟨k, h.goesOn, hok, hall⟩, ?_⟩
    rintro ⟨k', hgo, hok', hall⟩
    rcases Nat.lt_trichotomy k k' with hlt | heq | hgt
    · obtain ⟨-, hlt', hnotEnd⟩ := hgo k hlt
      exact hwhy.elim (fun h => by omega) fun h => absurd h hnotEnd
    · exact heq ▸ hall
    · exact absurd hall (h.sent_ne hgt)

theorem Ended.calls_le (hall : sent lo ω iov.flatten.length s.calls (j + 1) = iov.flatten.length) :
    w.sys.calls ≤ s.calls + j + 1 := by
  have hle : k ≤ j := by
    by_contra hlt
    exact h.sent_ne (by omega) hall
  rw [h.calls]
  omega

end

end Sink

theorem ended_writevall (lo : Nat) (ω : Nat → Except Errno Nat) (iov : List Bytes) (s : Sink) :
    ∃ k, Ended lo ω iov 0 s (writevall (Sink.writev lo ω) iov s) k :=
  ended_writevallFrom _ iov 0 s (Nat.lt_succ_self _)

/-! ## 5. Calls that bring part of the bytes -/

structure Source where
  calls : Nat

/-- The answer to one call: an error, or bytes of which no more are kept than were requested. -/
def Source.readv (ρ : Nat → Except Errno Bytes) (s : Source) (iov : List Nat) :
    Except Errno Bytes × Source :=
  ((ρ s.calls).map (List.take iov.sum), ⟨s.calls + 1⟩)

def lengths (ρ : Nat → Except Errno Bytes) (i : Nat) : Except Errno Nat :=
  (ρ i).map List.length

theorem rollForwardRead_skip {len got : Nat} {iov : List Nat} (h : len ≤ got) (hne : iov ≠ []) :
    rollForwardRead (len :: iov) got = rollForwardRead iov (got - len) := by
  rw [rollForwardRead, if_neg hne, if_neg hne, if_pos h]
  split_ifs with hzero
  · rw [hzero, Nat.sub_zero]
  · rfl

theorem rollForwardRead_all (iov : List Nat) (hne : iov ≠ []) :
    rollForwardRead iov iov.sum = ⟨[], false⟩ := by
  induction iov with
  | nil => exact absurd rfl hne
  | cons len iov ih =>
    have hle : len ≤ (len :: iov).sum := by
      rw [sum_cons]
      exact Nat.le_add_right _ _
    by_cases hnil : iov = []
    · rw [rollForwardRead, if_pos hnil, if_pos hle, if_pos hnil, ite_self]
    · rw [rollForwardRead_skip hle hnil, sum_cons, Nat.add_sub_cancel_left, ih hnil]

theorem rollForwardRead_part (iov : List Nat) (got : Nat) (hgot : got < iov.sum) :
    (rollForwardRead iov got).overran = false ∧ (rollForwardRead iov got).rest ≠ [] ∧
      (rollForwardRead iov got).rest.sum = iov.sum - got := by
  induction iov generalizing got with
  | nil => exact absurd hgot (Nat.not_lt_zero got)
  | cons len iov ih =>
    rw [sum_cons] at hgot ⊢
    by_cases hle : len ≤ got
    · have hne : iov ≠ [] := by
        rintro rfl
        rw [sum_nil] at hgot
        omega
      obtain ⟨h₁, h₂, h₃⟩ := ih (got - len) (by omega)
      rw [rollForwardRead_skip hle hne]
      exact ⟨h₁, h₂, by omega⟩
    · rw [rollForwardRead, if_neg (by omega), if_neg hle]
      refine ⟨rfl, cons_ne_nil _ _, ?_⟩
      rw [sum_cons]
      omega

theorem readvallFrom_inside (ρ : Nat → Except Errno Bytes) (need fuel : Nat) (iov : List Nat)
    (toto : Bytes) (s : Source) (hne : iov ≠ []) :
    (readvallFrom (Source.readv ρ) need fuel iov toto s).overran = false ∧
      ∀ k, sent 0 (lengths ρ) iov.sum s.calls (k + 1) = iov.sum →
        (readvallFrom (Source.readv ρ) need fuel iov toto s).sys.calls ≤ s.calls + k + 1 := by
  induction fuel generalizing iov toto s with
  | zero => exact ⟨rfl, fun k _ => by show s.calls ≤ _; omega⟩
  | succ fuel ih =>
    have hone (k : Nat) : s.calls + 1 ≤ s.calls + k + 1 := by omega
    cases hρ : ρ s.calls with
    | error e =>
      rw [readvallFrom, Source.readv, hρ]
      exact ⟨rfl, fun k _ => hone k⟩
    | ok bytes =>
      have hcounted : counted 0 iov.sum (lengths ρ s.calls) = (bytes.take iov.sum).length := by
        rw [lengths, hρ, length_take, Nat.min_comm]
        show min (max bytes.length 0) iov.sum = _
        rw [Nat.max_zero]
      have hle : (bytes.take iov.sum).length ≤ iov.sum := length_take_le _ _
      simp only [readvallFrom, Source.readv, hρ, Except.map]
      split <;> rename_i hnil
      · exact ⟨rfl, fun k _ => hone k⟩
      · by_cases hall : (bytes.take iov.sum).length = iov.sum
        · rw [hall, rollForwardRead_all iov hne, if_pos rfl]
          exact ⟨rfl, fun k _ => hone k⟩
        · obtain ⟨hover, hrest, hsum⟩ := rollForwardRead_part iov _ (lt_of_le_of_ne hle hall)
          rw [if_neg hrest]
          split
          · exact ⟨hover, fun k _ => hone k⟩
          · obtain ⟨hinside, hcalls⟩ := ih (rollForwardRead iov (bytes.take iov.sum).length).rest
              (toto ++ bytes.take iov.sum) ⟨s.calls + 1⟩ hrest
            refine ⟨?_, fun k hk => ?_⟩
            · rw [hover, hinside]
              rfl
            · -- the last byte comes with a later call, since this one brought less
              rw [sent_succ_shift, hcounted, ← hsum] at hk
              cases k with
              | zero =>
                rw [sent] at hk
                omega
              | succ k =>
                have hlast := hcalls k (by show sent _ _ _ (s.calls + 1) _ = _; omega)
                refine hlast.trans ?_
                show s.calls + 1 + k + 1 ≤ s.calls + (k + 1) + 1
                omega

/-! ## 6. Staying inside the array -/

/-- `writevall` looks only at elements of the array and ends once all its bytes are taken. -/
def WritesInside (ω : Nat → Except Errno Nat) (iov : List Bytes) : Prop :=
  (writevall (Sink.writev 0 ω) iov ⟨[], 0⟩).overran = false ∧
    ∀ k, sent 0 ω iov.flatten.length 0 (k + 1) = iov.flatten.length →
      (writevall (Sink.writev 0 ω) iov ⟨[], 0⟩).sys.calls ≤ k + 1

/-- `readvall` looks only at elements of the array and ends once all its bytes are there. -/
def ReadsInside (ρ : Nat → Except Errno Bytes) (need : Nat) (iov : List Nat) : Prop :=
  (readvall (Source.readv ρ) need iov ⟨0⟩).overran = false ∧
    ∀ k, sent 0 (lengths ρ) iov.sum 0 (k + 1) = iov.sum →
      (readvall (Source.readv ρ) need iov ⟨0⟩).sys.calls ≤ k + 1

/-- The loop of `readvall` stays inside every array. That of `writevall` has no test for the end of
the array, so it stays inside only while the calls leave some byte behind. -/
theorem insideArray_iff_not_transfers (ω : Nat → Except Errno Nat) (ρ : Nat → Except Errno Bytes)
    (need : Nat) (iov : List Bytes) (lens : List Nat) (hlens : lens ≠ []) :
    WritesInside ω iov ∧ ReadsInside ρ need lens ↔ ¬ Transfers 0 ω iov 0 := by
  obtain ⟨k, hk⟩ := ended_writevall 0 ω iov ⟨[], 0⟩
  have hreads : ReadsInside ρ need lens := by
    obtain ⟨hinside, hcalls⟩ := readvallFrom_inside ρ need (lens.sum + 1) lens [] ⟨0⟩ hlens
    exact ⟨hinside, fun k hall => (hcalls k hall).trans_eq (by rw [Nat.zero_add])⟩
  have hends (j : Nat) (hall : sent 0 ω iov.flatten.length 0 (j + 1) = iov.flatten.length) :
      (writevall (Sink.writev 0 ω) iov ⟨[], 0⟩).sys.calls ≤ j + 1 :=
    (hk.calls_le hall).trans_eq (by rw [Nat.zero_add])
  rw [and_iff_left hreads, WritesInside, and_iff_left hends, ← Bool.not_eq_true, hk.overran_iff]

/-- One byte is written, and then the disk is full. -/
def oneByte : Nat → Except Errno Nat
  | 0 => .ok 1
  | _ + 1 => .error .enospc

theorem insideArray_failing_write :
    WritesInside oneByte [[1, 2], [3]] ∧ ReadsInside (fun _ => .ok [7]) 1 [1, 1] := by
  refine (insideArray_iff_not_transfers _ _ 1 [[1, 2], [3]] [1, 1] (by decide)).2 ?_
  rintro ⟨k, -, hok, hall⟩
  cases k with
  | zero => exact absurd hall (by decide)
  | succ k => exact Bool.false_ne_true hok

/-- One `writev` that takes both elements is enough to read the one behind them. -/
theorem writevall_overruns :
    (writevall (Sink.writev 0 fun _ => .ok 3) [[1, 2], [3]] ⟨[], 0⟩).overran = true ∧
      ¬ WritesInside (fun _ => .ok 3) [[1, 2], [3]] :=
  ⟨by decide, fun h => absurd h.1 (by decide)⟩

end CosmoRuby.Stdio