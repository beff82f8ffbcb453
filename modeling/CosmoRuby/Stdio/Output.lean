import Mathlib
import CosmoRuby.Stdio.Memstream

/-!
# Output streams

`fwrite_unlocked` and `fflush_unlocked` on a stream with a descriptor that is written to only. The
index `end` is 0 then, since only input moves it, and the branches for unread input are not taken.
Every answer of `write` and `writev` is an error or a count from 1 on; what is delivered and what is
buffered is compared with what was accepted.
-/

open CosmoRuby.Lib

namespace CosmoRuby.Stdio

open List

inductive BufMode where
  | full
  | line
  | none
deriving DecidableEq

/-- A stream for output; `buf` has the first `beg` bytes of the buffer. -/
structure Output where
  buf : Bytes
  size : Nat
  bufmode : BufMode
  state : Option Errno

def newline : UInt8 := 10

def lines (b : Bytes) : Option Nat :=
  if newline ∈ b then some (b.length - (b.reverse.takeWhile (· ≠ newline)).length) else none

section Calls

variable (ω : Nat → Except Errno Nat)

/-- The loop of `fflush_unlocked` from index `i` on. Every pass writes a byte. -/
def flushFrom (buf : Bytes) : Nat → Nat → Sink → Option Errno × Sink
  | 0, _, s => (none, s)
  | fuel + 1, i, s =>
    if i < buf.length then
      match s.respond 1 ω (buf.drop i) with
      | (.error e, s) => (some e, s)
      | (.ok rc, s) => flushFrom buf fuel (i + rc) s
    else (none, s)

def fflushUnlocked (f : Output) (s : Sink) : Nat × Output × Sink :=
  match flushFrom ω f.buf (f.buf.length + 1) 0 s with
  | (some e, s) => (1, { f with state := some e }, s)
  | (none, s) => (0, { f with buf := [] }, s)

def putBuffered (f : Output) (data : Bytes) (count : Nat) (s : Sink) : Nat × Output × Sink :=
  match if f.bufmode = .line then lines (f.buf ++ data) else none with
  | none => (count, { f with buf := f.buf ++ data }, s)
  | some n =>
    match s.respond 1 ω ((f.buf ++ data).take n) with
    | (.error e, s) =>
      (0, { f with buf := (f.buf ++ data).take ((f.buf ++ data).length - n), state := some e }, s)
    | (.ok rc, s) => (count, { f with buf := (f.buf ++ data).drop rc }, s)

def putGathered (f : Output) (data : Bytes) (count : Nat) (s : Sink) : Nat × Output × Sink :=
  let w := writevall (Sink.writev 1 ω) [f.buf, data] s
  match w.result with
  | .error e => (0, { f with state := some e }, w.sys)
  | .ok _ => (count, { f with buf := [] }, w.sys)

def fwriteOutput (f : Output) (data : Memory) (stride count : Nat) (s : Sink) :
    Nat × Output × Sink :=
  let n := stride * count
  if 2 ^ 64 ≤ n then (0, { f with state := some .eoverflow }, s)
  else if n = 0 then (0, f, s)
  else
    let m := (f.size + 2 ^ 64 - f.buf.length) % 2 ^ 64
    if n ≤ m ∧ f.bufmode ≠ .none then putBuffered ω f (data.bytes n) count s
    else putGathered ω f (data.bytes n) count s

inductive OutCall where
  | fwrite (data : Memory) (stride count : Nat)
  | fflush

def OutCall.exec (f : Output) (s : Sink) : OutCall → Nat × Output × Sink
  | .fwrite data stride count => fwriteOutput ω f data stride count s
  | .fflush => fflushUnlocked ω f s

def OutCall.accepts (r : Nat) : OutCall → Bytes
  | .fwrite data stride count => if r = count then data.bytes (stride * count) else []
  | .fflush => []

/-- What is delivered, and then what is buffered, is what was accepted: at the start and after every
call. -/
def AllKept : Output → Sink → Bytes → List OutCall → Prop
  | f, s, accepted, [] => s.delivered ++ f.buf = accepted
  | f, s, accepted, c :: cs =>
    s.delivered ++ f.buf = accepted ∧
      AllKept (c.exec ω f s).2.1 (c.exec ω f s).2.2 (accepted ++ c.accepts (c.exec ω f s).1) cs

def FlushFine (total start : Nat) : Prop :=
  ∀ j, 0 < j → (∀ i < j, (ω (start + i)).isOk) → sent 1 ω total start j < total →
    (ω (start + j)).isOk

/-- A write of lines that fails has exactly the new bytes in it; a gathered write fails at its first
call, or goes on to the end and never stops with the buffer. -/
def Well (f : Output) (s : Sink) : OutCall → Prop
  | .fwrite data stride count =>
    stride * count < 2 ^ 64 → stride * count ≠ 0 →
      if stride * count ≤ f.size - f.buf.length ∧ f.bufmode ≠ .none then
        f.bufmode = .line → ∀ n, lines (f.buf ++ data.bytes (stride * count)) = some n →
          (ω s.calls).isOk ∨ n = stride * count
      else ¬ (ω s.calls).isOk ∨ Transfers 1 ω [f.buf, data.bytes (stride * count)] s.calls
  | .fflush => FlushFine ω f.buf.length s.calls

def AllWell : Output → Sink → List OutCall → Prop
  | _, _, [] => True
  | f, s, c :: cs => Well ω f s c ∧ AllWell (c.exec ω f s).2.1 (c.exec ω f s).2.2 cs

end Calls

variable {ω : Nat → Except Errno Nat} {f : Output} {s : Sink}

/-! ## 1. One answer -/

variable {e : Errno}

theorem respond_error (h : ω s.calls = .error e) (b : Bytes) :
    s.respond 1 ω b = (.error e, ⟨s.delivered, s.calls + 1⟩) := by
  unfold Sink.respond
  rw [h]

theorem respond_ok {c : Nat} (h : ω s.calls = .ok c) (b : Bytes) :
    s.respond 1 ω b = (.ok (counted 1 b.length (ω s.calls)),
      ⟨s.delivered ++ b.take (counted 1 b.length (ω s.calls)), s.calls + 1⟩) := by
  unfold Sink.respond
  rw [h]
  rfl

theorem counted_pos {left : Nat} {r : Except Errno Nat} (hr : r.isOk) (hleft : 0 < left) :
    0 < counted 1 left r := by
  cases r with
  | error e => cases hr
  | ok c =>
    show 0 < min (max c 1) left
    omega

variable {total start k count : Nat}

theorem sent_mono {lo j : Nat} (h : j ≤ k) : sent lo ω total start j ≤ sent lo ω total start k := by
  induction h with
  | refl => exact Nat.le_refl _
  | step _ ih => exact Nat.le_trans ih (sent_mono_succ lo ω total start _)

theorem sent_pos (hok : (ω start).isOk) (htotal : 0 < total) (hk : 0 < k) :
    0 < sent 1 ω total start k := by
  have hone : 0 < sent 1 ω total start 1 := by
    rw [sent_one]
    exact counted_pos hok htotal
  exact Nat.lt_of_lt_of_le hone (sent_mono hk)

/-! ## 2. Flushing -/

/-- A run of the loop: it goes on for `k` calls, and then the bytes are written or a call fails. -/
structure Flushed (ω : Nat → Except Errno Nat) (buf : Bytes) (s : Sink)
    (r : Option Errno × Sink) (k : Nat) : Prop where
  goesOn : ∀ j < k, (ω (s.calls + j)).isOk
  delivered : r.2.delivered = s.delivered ++ buf.take (sent 1 ω buf.length s.calls k)
  ends : (∃ e, ω (s.calls + k) = .error e ∧ r.1 = some e ∧
      sent 1 ω buf.length s.calls k < buf.length) ∨
    (r.1 = none ∧ sent 1 ω buf.length s.calls k = buf.length)

theorem flushed_flushFrom (buf : Bytes) (fuel j : Nat) (s' : Sink)
    (hfuel : buf.length < sent 1 ω buf.length s.calls j + fuel)
    (hcalls : s'.calls = s.calls + j)
    (hdelivered : s'.delivered = s.delivered ++ buf.take (sent 1 ω buf.length s.calls j))
    (hok : ∀ i < j, (ω (s.calls + i)).isOk) :
    ∃ k, Flushed ω buf s
      (flushFrom ω buf fuel (sent 1 ω buf.length s.calls j) s') k := by
  induction fuel generalizing j s' with
  | zero =>
    have hle := sent_le 1 ω buf.length s.calls j
    omega
  | succ fuel ih =>
    unfold flushFrom
    split_ifs with hmore
    · cases hω : ω s'.calls with
      | error e =>
        rw [respond_error hω]
        exact ⟨j, hok, hdelivered, Or.inl ⟨e, by rw [← hcalls, hω], rfl, hmore⟩⟩
      | ok c =>
        have hisOk : (ω (s.calls + j)).isOk := by
          rw [← hcalls, hω]
          rfl
        set done := sent 1 ω buf.length s.calls j
        have hleft : 0 < buf.length - done := by omega
        have hpos := counted_pos hisOk hleft
        have hnext : sent 1 ω buf.length s.calls (j + 1) =
            done + counted 1 (buf.length - done) (ω (s.calls + j)) := rfl
        rw [respond_ok hω, length_drop, hcalls]
        show ∃ k, Flushed ω buf s
          (flushFrom ω buf fuel (done + counted 1 (buf.length - done) (ω (s.calls + j))) _) k
        rw [← hnext]
        refine ih (j + 1) _ (by omega) rfl ?_ fun i hi => ?_
        · show s'.delivered ++ _ = _
          rw [hdelivered, append_assoc, ← take_add, hnext]
        · rcases Nat.lt_succ_iff_lt_or_eq.mp hi with hlt | rfl
          · exact hok i hlt
          · exact hisOk
    · have hle := sent_le 1 ω buf.length s.calls j
      exact ⟨j, hok, hdelivered, Or.inr ⟨rfl, by omega⟩⟩

theorem flushed_fflush (ω : Nat → Except Errno Nat) (buf : Bytes) (s : Sink) :
    ∃ k, Flushed ω buf s (flushFrom ω buf (buf.length + 1) 0 s) k :=
  flushed_flushFrom buf (buf.length + 1) 0 s (by show buf.length < 0 + _; omega) rfl
    (by show _ = _ ++ buf.take 0; rw [take_zero, append_nil])
    fun i hi => absurd hi (Nat.not_lt_zero i)

theorem kept_fflush (ω : Nat → Except Errno Nat) (f : Output) (s : Sink) :
    (fflushUnlocked ω f s).2.2.delivered ++ (fflushUnlocked ω f s).2.1.buf =
        s.delivered ++ f.buf ↔ FlushFine ω f.buf.length s.calls := by
  obtain ⟨k, hk⟩ := flushed_fflush ω f.buf s
  have hdelivered := hk.delivered
  unfold fflushUnlocked
  rcases hk.ends with ⟨e, herror, hresult, hless⟩ | ⟨hresult, hall⟩
  · obtain ⟨r, hr⟩ : ∃ r, flushFrom ω f.buf (f.buf.length + 1) 0 s = (some e, r) :=
      ⟨_, Prod.ext hresult rfl⟩
    rw [hr] at hdelivered ⊢
    have hsent : r.delivered = s.delivered ++ f.buf.take (sent 1 ω f.buf.length s.calls k) :=
      hdelivered
    show r.delivered ++ f.buf = _ ↔ _
    rw [hsent]
    by_cases hzero : k = 0
    · -- the first call fails, and nothing has happened
      subst hzero
      refine iff_of_true ?_ fun j hj hbefore _ => ?_
      · show s.delivered ++ f.buf.take 0 ++ f.buf = _
        rw [take_zero, append_nil]
      · have hfirst := hbefore 0 hj
        rw [herror] at hfirst
        cases hfirst
    · have hfirst : (ω s.calls).isOk := hk.goesOn 0 (Nat.pos_of_ne_zero hzero)
      have hpos := @sent_pos ω f.buf.length s.calls k hfirst (by omega) (Nat.pos_of_ne_zero hzero)
      refine iff_of_false (fun heq => ?_) fun hfine => ?_
      · have hlen := congrArg List.length heq
        simp only [length_append, length_take] at hlen
        omega
      · have hno := hfine k (Nat.pos_of_ne_zero hzero) hk.goesOn hless
        rw [herror] at hno
        cases hno
  · obtain ⟨r, hr⟩ : ∃ r, flushFrom ω f.buf (f.buf.length + 1) 0 s = (none, r) :=
      ⟨_, Prod.ext hresult rfl⟩
    rw [hr] at hdelivered ⊢
    refine iff_of_true ?_ fun j _ _ hless => ?_
    · show r.delivered ++ [] = _
      rw [append_nil, show r.delivered = _ from hdelivered, hall, take_length]
    · refine hk.goesOn j (Nat.lt_of_not_le fun hle => ?_)
      have hmono := @sent_mono ω f.buf.length s.calls j 1 k hle
      omega

/-! ## 3. Writing -/

theorem lines_le {b : Bytes} {n : Nat} (h : lines b = some n) : 0 < n ∧ n ≤ b.length := by
  unfold lines at h
  split at h <;> rename_i hmem
  · have hn := Option.some.inj h
    have hlt : (b.reverse.takeWhile (· ≠ newline)).length < b.reverse.length := by
      have hsub := @List.takeWhile_sublist _ b.reverse fun c => decide (c ≠ newline)
      refine Nat.lt_of_le_of_ne hsub.length_le fun heq => ?_
      -- otherwise there is no newline at all
      have hall := List.takeWhile_eq_self_iff.mp (hsub.eq_of_length heq) newline
        (List.mem_reverse.mpr hmem)
      simp at hall
    rw [length_reverse] at hlt
    omega
  · cases h

variable {data : Bytes}

/-- What was accepted is delivered or in the buffer. -/
abbrev Kept (f : Output) (s : Sink) (data : Bytes) (count : Nat) (r : Nat × Output × Sink) : Prop :=
  r.2.2.delivered ++ r.2.1.buf = s.delivered ++ f.buf ++ (if r.1 = count then data else [])

theorem kept_putBuffered (ω : Nat → Except Errno Nat) (f : Output) (s : Sink) (hcount : count ≠ 0) :
    let r := putBuffered ω f data count s
    Kept f s data count r ↔ (f.bufmode = .line → ∀ n, lines (f.buf ++ data) = some n →
        (ω s.calls).isOk ∨ n = data.length) := by
  intro r
  show Kept f s data count (putBuffered ω f data count s) ↔ _
  have hstored : Kept f s data count (count, { f with buf := f.buf ++ data }, s) := by
    rw [Kept, if_pos rfl, append_assoc]
  unfold putBuffered
  set all := f.buf ++ data with hall
  by_cases hline : f.bufmode = .line
  · rw [if_pos hline]
    cases hlines : lines all with
    | none => exact iff_of_true hstored fun _ n hn => by cases hn
    | some n =>
      obtain ⟨hpos, hle⟩ := lines_le hlines
      dsimp only
      cases hω : ω s.calls with
      | error e =>
        rw [respond_error hω]
        show s.delivered ++ all.take (all.length - n) = _ ++ (if 0 = count then data else []) ↔ _
        rw [if_neg (Ne.symm hcount), append_nil]
        constructor
        · intro heq _ n' hn'
          have hn : n = n' := Option.some.inj hn'
          have hlen := congrArg List.length (append_cancel_left heq)
          rw [hall, length_append] at hle
          simp only [hall, length_append, length_take] at hlen
          exact Or.inr (by omega)
        · intro hfine
          rcases hfine hline n rfl with hno | hn
          · cases hno
          · rw [hn, hall, length_append, Nat.add_sub_cancel, take_left]
      | ok c =>
        rw [respond_ok hω]
        refine iff_of_true ?_ fun _ _ _ => Or.inl rfl
        have hmin := Nat.le_trans (counted_le 1 _ (ω s.calls)) (length_take_le n all)
        show s.delivered ++ (all.take n).take _ ++ all.drop _ = _ ++ if count = count then data else []
        rw [if_pos rfl, take_take, Nat.min_eq_left hmin, append_assoc, take_append_drop, append_assoc]
  · rw [if_neg hline]
    exact iff_of_true hstored fun hno => absurd hno hline

theorem putGathered_of_ok {t : Nat}
    (h : (writevall (Sink.writev 1 ω) [f.buf, data] s).result = .ok t) :
    putGathered ω f data count s =
      (count, { f with buf := [] }, (writevall (Sink.writev 1 ω) [f.buf, data] s).sys) := by
  unfold putGathered
  dsimp only
  rw [h]

theorem putGathered_of_error (h : (writevall (Sink.writev 1 ω) [f.buf, data] s).result = .error e) :
    putGathered ω f data count s =
      (0, { f with state := some e }, (writevall (Sink.writev 1 ω) [f.buf, data] s).sys) := by
  unfold putGathered
  dsimp only
  rw [h]

theorem flatten_pair (x y : Bytes) : [x, y].flatten = x ++ y := by
  rw [flatten_cons, flatten_cons, flatten_nil, append_nil]

variable {w : Written Sink}

theorem Ended.delivered_all_iff {x y : Bytes} (h : Ended 1 ω [x, y] 0 s w k) :
    w.sys.delivered ++ [] = s.delivered ++ x ++ y ↔
      sent 1 ω [x, y].flatten.length s.calls (k + 1) = [x, y].flatten.length := by
  have hle := sent_le 1 ω [x, y].flatten.length s.calls (k + 1)
  rw [append_nil, h.delivered, append_assoc, ← flatten_pair x y]
  constructor
  · intro heq
    have hlength := congrArg List.length (append_cancel_left heq)
    rw [length_take] at hlength
    omega
  · intro heq
    rw [heq, take_length]

theorem Ended.sent_part {iov : List Bytes}
    (h : Ended 1 ω iov 0 s w k) (hk : k ≠ 0) (hiov : 0 < iov.flatten.length) :
    0 < sent 1 ω iov.flatten.length s.calls k ∧
      sent 1 ω iov.flatten.length s.calls k ≠ iov.flatten.length := by
  have hpos := Nat.pos_of_ne_zero hk
  have hfirst : (ω s.calls).isOk := (h.goesOn 0 hpos).1
  have hne := h.sent_ne (Nat.sub_lt hpos Nat.one_pos)
  rw [Nat.sub_add_cancel hpos] at hne
  exact ⟨sent_pos hfirst hiov hpos, hne⟩

/-- A gathered write that is neither refused nor complete loses bytes or leaves them to be written
again. -/
theorem kept_putGathered (ω : Nat → Except Errno Nat) (f : Output) (s : Sink)
    (hcount : count ≠ 0) (hdata : data ≠ []) :
    Kept f s data count (putGathered ω f data count s) ↔
      (¬ (ω s.calls).isOk ∨ Transfers 1 ω [f.buf, data] s.calls) := by
  obtain ⟨k, hk⟩ := ended_writevall 1 ω [f.buf, data] s
  have htotal : 0 < [f.buf, data].flatten.length := by
    rw [flatten_pair, length_append]
    have hpos : 0 < data.length := List.length_pos_iff.mpr hdata
    omega
  have hover := hk.overran_iff
  have hdelivered := hk.delivered
  have hends := hk.ends
  have hallIff := hk.delivered_all_iff
  set taken := sent 1 ω [f.buf, data].flatten.length s.calls
  set run := writevall (Sink.writev 1 ω) [f.buf, data] s
  have hsuccess : ∀ t, run.result = .ok t →
      (Kept f s data count (putGathered ω f data count s) ↔
        taken (k + 1) = [f.buf, data].flatten.length) := by
    intro t ht
    rw [Kept, putGathered_of_ok ht, ← hallIff]
    dsimp only
    rw [if_pos rfl]
  have hfailure : ∀ e, run.result = .error e →
      (Kept f s data count (putGathered ω f data count s) ↔
        run.sys.delivered ++ f.buf = s.delivered ++ f.buf) := by
    intro e he
    rw [Kept, putGathered_of_error he]
    dsimp only
    rw [if_neg (Ne.symm hcount), append_nil]
  rcases hends with ⟨e, herror, hno, hresult⟩ | ⟨hok, -, hresult, hall⟩
  · have hnot : ¬ Transfers 1 ω [f.buf, data] s.calls := fun h => by
      rw [hno] at hover
      exact Bool.false_ne_true (hover.mpr h)
    have hlast : taken (k + 1) = taken k := by
      show sent _ _ _ _ (k + 1) = _
      rw [sent, herror]
      rfl
    rw [or_iff_left hnot]
    by_cases hzero : k = 0
    · -- the first call fails
      subst hzero
      have hnone : taken 0 = 0 := rfl
      rw [hnone, Nat.add_zero, if_neg fun h => h.1 rfl] at hresult
      rw [hlast, hnone, take_zero, append_nil] at hdelivered
      rw [hfailure e hresult, hdelivered]
      refine iff_of_true rfl fun hisOk => ?_
      rw [Nat.add_zero] at herror
      rw [herror] at hisOk
      cases hisOk
    · have hfirst : (ω s.calls).isOk := (hk.goesOn 0 (Nat.pos_of_ne_zero hzero)).1
      obtain ⟨hsome, hless⟩ : 0 < taken k ∧ taken k ≠ _ := hk.sent_part hzero htotal
      refine iff_of_false (fun heq => ?_) fun hbad => hbad hfirst
      by_cases hcancel : e = .ecanceled
      · -- cancelled after some bytes: they will be written again
        rw [if_neg fun h => h.2 hcancel] at hresult
        rw [hfailure e hresult, hdelivered, hlast] at heq
        have hlength := congrArg List.length heq
        simp only [length_append, length_take] at hlength
        omega
      · rw [if_pos ⟨by omega, hcancel⟩] at hresult
        exact hless (hlast.symm.trans ((hsuccess _ hresult).mp heq))
  · have hfirst : (ω s.calls).isOk := by
      cases k with
      | zero => exact hok
      | succ k => exact (hk.goesOn 0 (Nat.succ_pos k)).1
    rw [hsuccess _ hresult, ← hall, hover, or_iff_right (not_not_intro hfirst)]

/-! ## 4. Every call -/

structure Fits (f : Output) : Prop where
  room : f.buf.length ≤ f.size
  bound : f.size < 2 ^ 64

theorem fits_fflush (h : Fits f) : Fits (fflushUnlocked ω f s).2.1 := by
  unfold fflushUnlocked
  split
  · exact ⟨h.room, h.bound⟩
  · exact ⟨Nat.zero_le _, h.bound⟩

theorem fits_putBuffered (h : Fits f)
    (hdata : data.length ≤ f.size - f.buf.length) : Fits (putBuffered ω f data count s).2.1 := by
  have hroom := h.room
  have hlen : (f.buf ++ data).length ≤ f.size := by
    rw [length_append]
    omega
  unfold putBuffered
  split
  · exact ⟨hlen, h.bound⟩
  · split
    · exact ⟨Nat.le_trans (length_take_le' _ _) hlen, h.bound⟩
    · refine ⟨Nat.le_trans ?_ hlen, h.bound⟩
      show (List.drop _ _).length ≤ _
      rw [length_drop]
      exact Nat.sub_le _ _

theorem fits_putGathered (h : Fits f) : Fits (putGathered ω f data count s).2.1 := by
  unfold putGathered
  dsimp only
  split
  · exact ⟨h.room, h.bound⟩
  · exact ⟨Nat.zero_le _, h.bound⟩

theorem fwriteOutput_eq (h : Fits f) {data : Memory} {stride : Nat}
    (hover : stride * count < 2 ^ 64) (hpos : stride * count ≠ 0) :
    fwriteOutput ω f data stride count s =
      if stride * count ≤ f.size - f.buf.length ∧ f.bufmode ≠ .none then
        putBuffered ω f (data.bytes (stride * count)) count s
      else putGathered ω f (data.bytes (stride * count)) count s := by
  have hroom := h.room
  have hbound := h.bound
  have hm : (f.size + 2 ^ 64 - f.buf.length) % 2 ^ 64 = f.size - f.buf.length := by omega
  unfold fwriteOutput
  rw [if_neg (Nat.not_le.mpr hover), if_neg hpos, hm]

theorem step_outCall (ω : Nat → Except Errno Nat) (s : Sink) (h : Fits f) (c : OutCall) :
    Fits (c.exec ω f s).2.1 ∧
      ((c.exec ω f s).2.2.delivered ++ (c.exec ω f s).2.1.buf =
        s.delivered ++ f.buf ++ c.accepts (c.exec ω f s).1 ↔ Well ω f s c) := by
  cases c with
  | fflush =>
    refine ⟨fits_fflush h, ?_⟩
    show _ = s.delivered ++ f.buf ++ [] ↔ _
    rw [append_nil]
    exact kept_fflush ω f s
  | fwrite data stride count =>
    show Fits (fwriteOutput ω f data stride count s).2.1 ∧
      (Kept f s (data.bytes (stride * count)) count (fwriteOutput ω f data stride count s) ↔
        Well ω f s (.fwrite data stride count))
    by_cases hover : 2 ^ 64 ≤ stride * count
    · have hne : (0 : Nat) ≠ count := by
        rintro rfl
        exact absurd hover (by rw [Nat.mul_zero]; decide)
      unfold fwriteOutput
      rw [if_pos hover]
      refine ⟨⟨h.room, h.bound⟩, iff_of_true ?_ fun hno => absurd hno (Nat.not_lt.mpr hover)⟩
      show s.delivered ++ f.buf = _ ++ if 0 = count then data.bytes (stride * count) else []
      rw [if_neg hne, append_nil]
    have hlt := Nat.lt_of_not_le hover
    by_cases hzero : stride * count = 0
    · unfold fwriteOutput
      rw [if_neg hover, if_pos hzero]
      refine ⟨h, iff_of_true ?_ fun _ hno => absurd hzero hno⟩
      show s.delivered ++ f.buf = _ ++ if 0 = count then data.bytes (stride * count) else []
      rw [hzero]
      show _ = _ ++ if 0 = count then [] else []
      rw [ite_self, append_nil]
    have hcount : count ≠ 0 := right_ne_zero_of_mul hzero
    have hlen : (data.bytes (stride * count)).length = stride * count := Memory.length_bytes _ _
    have hwell : Well ω f s (.fwrite data stride count) ↔ _ :=
      ⟨fun hw => hw hlt hzero, fun hw _ _ => hw⟩
    rw [hwell, fwriteOutput_eq h hlt hzero]
    by_cases hpath : stride * count ≤ f.size - f.buf.length ∧ f.bufmode ≠ .none
    · rw [if_pos hpath, if_pos hpath]
      refine ⟨fits_putBuffered h (by rw [hlen]; exact hpath.1), ?_⟩
      have hkept := @kept_putBuffered count (data.bytes (stride * count)) ω f s hcount
      rw [hlen] at hkept
      exact hkept
    · rw [if_neg hpath, if_neg hpath]
      refine ⟨fits_putGathered h, kept_putGathered ω f s hcount fun hno => hzero ?_⟩
      rw [← hlen, hno, length_nil]

theorem AllKept.head {accepted : Bytes} : ∀ {cs : List OutCall}, AllKept ω f s accepted cs →
    s.delivered ++ f.buf = accepted
  | [], h => h
  | _ :: _, h => h.1

/-- No byte that was accepted is lost, repeated or out of order exactly if the answers to every call
are well. -/
theorem allKept_iff_allWell (ω : Nat → Except Errno Nat) (h : Fits f) (s : Sink)
    (cs : List OutCall) : AllKept ω f s (s.delivered ++ f.buf) cs ↔ AllWell ω f s cs := by
  induction cs generalizing f s with
  | nil => exact iff_of_true rfl trivial
  | cons c cs ih =>
    obtain ⟨hfits, hiff⟩ := step_outCall ω s h c
    constructor
    · rintro ⟨-, hrest⟩
      have hkept := hrest.head
      rw [← hkept] at hrest
      exact ⟨hiff.mp hkept, (ih hfits _).mp hrest⟩
    · rintro ⟨hwell, hrest⟩
      have hkept := hiff.mpr hwell
      refine ⟨rfl, ?_⟩
      rw [← hkept]
      exact (ih hfits _).mpr hrest

/-- A short count, and a line that is written in two parts. -/
theorem allKept_lines :
    AllKept (fun _ => .ok 1) ⟨[], 4, .line, none⟩ ⟨[], 0⟩ []
      [.fwrite (fun _ => newline) 1 2, .fflush] :=
  (allKept_iff_allWell (fun _ => .ok 1) ⟨Nat.zero_le _, by decide⟩ ⟨[], 0⟩ _).mpr
    ⟨fun _ _ _ _ _ => Or.inl rfl, fun _ _ _ _ => rfl, trivial⟩

/-- The disk is full after the first of three bytes: an unbuffered write reports all three. -/
theorem full_disk_reports_success :
    let ω : Nat → Except Errno Nat := fun i => if i = 0 then .ok 1 else .error .enospc
    let f : Output := ⟨[], 0, .none, none⟩
    (fwriteOutput ω f (fun _ => 97) 1 3 ⟨[], 0⟩).1 = 3 ∧
      (fwriteOutput ω f (fun _ => 97) 1 3 ⟨[], 0⟩).2.2.delivered = [97] ∧
      (fwriteOutput ω f (fun _ => 97) 1 3 ⟨[], 0⟩).2.1.buf = [] ∧
      ¬ AllKept ω f ⟨[], 0⟩ [] [.fwrite (fun _ => 97) 1 3] := by
  refine ⟨by decide, by decide, by decide, fun hall => ?_⟩
  have hkept := hall.2.head
  exact absurd hkept (by decide)

end CosmoRuby.Stdio