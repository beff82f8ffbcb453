import CosmoRuby.Http.Tables
import CosmoRuby.Lib.Feed

/-!
# `Unchunk`

The decoder of `unchunk.c`.  It writes the payload to the front of the buffer it reads from, one byte
and one `memmove` a time.  `decodeByte` is the same decoder one byte a step, with the payload kept
aside; `unchunkLoop_eq` says that the two agree.
-/

namespace CosmoRuby.Http

open Lib List

/-! ## The code -/

inductive ChunkState where
  | chunkStart
  | chunkSize
  | chunkExt
  | chunkLf1
  | chunk
  | chunkCr2
  | chunkLf2
  | trailerStart
  | trailer
  | trailerLf1
  | trailerLf2
  deriving DecidableEq, Repr

structure HttpUnchunker where
  t : ChunkState
  i : Nat
  j : Nat
  m : Int
  deriving DecidableEq, Repr

def initUnchunker : HttpUnchunker := ⟨.chunkStart, 0, 0, 0⟩

/-- How an arm of the `switch` ends: `break`, `return ebadmsg()` or `goto Finished`. -/
inductive Arm where
  | brk (u : HttpUnchunker)
  | bad (u : HttpUnchunker)
  | finished (u : HttpUnchunker)
  deriving DecidableEq, Repr

section

variable (u : HttpUnchunker) (c : UInt8)

def chunkLf1Arm : Arm :=
  if c ≠ chLf then .bad u
  else .brk { u with t := if u.m ≠ 0 then .chunk else .trailerStart }

def chunkExtArm : Arm :=
  if c = chCr then .brk { u with t := .chunkLf1 }
  else if c ≠ chLf then .brk u
  else chunkLf1Arm u c

def chunkSizeArm : Arm :=
  let h := kHexToInt c
  if h ≠ -1 then
    let u := { u with m := u.m * 16 + h }
    if 0x10000000000 ≤ u.m then .bad u else .brk u
  else chunkExtArm { u with t := .chunkExt } c

def chunkLf2Arm : Arm :=
  if c ≠ chLf then .bad u else .brk { u with t := .chunkStart }

def trailerLf1Arm : Arm :=
  if c ≠ chLf then .bad u else .brk { u with t := .trailerStart }

def trailerArm : Arm :=
  if c = chCr then .brk { u with t := .trailerLf1 }
  else if c ≠ chLf then .brk u
  else trailerLf1Arm u c

/-- Every arm but that of `kHttpStateChunk`: these leave the buffer and `u->j` alone. -/
def lineArm : Arm :=
  match u.t with
  | .chunkStart =>
    let u := { u with m := kHexToInt c }
    if u.m = -1 then .bad u else .brk { u with t := .chunkSize }
  | .chunkSize => chunkSizeArm u c
  | .chunkExt => chunkExtArm u c
  | .chunkLf1 => chunkLf1Arm u c
  | .chunk => .brk u
  | .chunkCr2 => if c = chCr then .brk { u with t := .chunkLf2 } else chunkLf2Arm u c
  | .chunkLf2 => chunkLf2Arm u c
  | .trailerStart =>
    if c = chCr then .brk { u with t := .trailerLf2 }
    else if c = chLf then .finished u
    else trailerArm { u with t := .trailer } c
  | .trailer => trailerArm u c
  | .trailerLf1 => trailerLf1Arm u c
  | .trailerLf2 => if c ≠ chLf then .bad u else .finished u

end

def chunkArm (u : HttpUnchunker) (p : Bytes) (n : Nat) (c : UInt8) : HttpUnchunker × Bytes :=
  let p := p.set u.j c
  let u := { u with j := u.j + 1, m := u.m - 1 }
  let s := min (u.m % 2 ^ 64).toNat (n - u.i)
  let p := memmove p u.j u.i s
  let u := { u with i := u.i + s, j := u.j + s, m := u.m - s }
  (if u.m = 0 then { u with t := .chunkCr2 } else u, p)

/-- What a call leaves: its result, the content length it reports, the decoder and the buffer. -/
structure Unchunked where
  rc : Int
  l : Option Nat
  u : HttpUnchunker
  p : Bytes
  deriving DecidableEq, Repr

def unchunkLoop (n : Nat) : Nat → HttpUnchunker → Bytes → Unchunked
  | 0, u, p => ⟨0, none, u, p⟩
  | fuel + 1, u, p =>
    if u.i < n then
      let c := byteAt p u.i
      let u := { u with i := u.i + 1 }
      if u.t = .chunk then
        unchunkLoop n fuel (chunkArm u p n c).1 (chunkArm u p n c).2
      else
        match lineArm u c with
        | .brk u => unchunkLoop n fuel u p
        | .bad u => ⟨-1, none, u, p⟩
        | .finished u => ⟨u.i, some u.j, u, if u.j < n then p.set u.j 0 else p⟩
    else ⟨0, none, u, p⟩

def unchunk (u : HttpUnchunker) (p : Bytes) (n : Nat) : Unchunked := unchunkLoop n (n - u.i) u p

/-! ## One byte a step -/

abbrev Decoding := HttpUnchunker × Bytes

def decodeByte : Decoding → UInt8 → Fed Decoding Bool
  | (u, out), c =>
    let u := { u with i := u.i + 1 }
    if u.t = .chunk then
      .more ({ u with j := u.j + 1, m := u.m - 1, t := if u.m - 1 = 0 then .chunkCr2 else .chunk },
        out ++ [c])
    else
      match lineArm u c with
      | .brk u => .more (u, out)
      | .bad u => .done false (u, out)
      | .finished u => .done true (u, out)

/-- Sizes stay below the limit, and a chunk under way has bytes to come. -/
structure HttpUnchunker.Wf (u : HttpUnchunker) : Prop where
  nonneg : 0 ≤ u.m
  lt : u.m < 0x10000000000
  pos : u.t = .chunk → 0 < u.m

theorem wf_init : initUnchunker.Wf := ⟨le_rfl, by decide, by decide⟩

variable {u u' : HttpUnchunker} {c : UInt8} {p out : Bytes} {n : Nat}

inductive LineStep (u : HttpUnchunker) (c : UInt8) : Arm → Prop
  | bad (t : ChunkState) (m : Int) : LineStep u c (.bad { u with t := t, m := m })
  | firstDigit (ht : u.t = .chunkStart) (hc : kHexToInt c ≠ -1) :
      LineStep u c (.brk { u with m := kHexToInt c, t := .chunkSize })
  | digit (ht : u.t = .chunkSize) (hc : kHexToInt c ≠ -1)
      (hlt : u.m * 16 + kHexToInt c < 0x10000000000) :
      LineStep u c (.brk { u with m := u.m * 16 + kHexToInt c })
  | ext (ht : u.t = .chunkSize ∨ u.t = .chunkExt) : LineStep u c (.brk { u with t := .chunkExt })
  | sizeCr (ht : u.t = .chunkSize ∨ u.t = .chunkExt) :
      LineStep u c (.brk { u with t := .chunkLf1 })
  | sizeLf (ht : u.t = .chunkSize ∨ u.t = .chunkExt ∨ u.t = .chunkLf1) :
      LineStep u c (.brk { u with t := if u.m ≠ 0 then .chunk else .trailerStart })
  | chunk (ht : u.t = .chunk) : LineStep u c (.brk u)
  | chunkCr (ht : u.t = .chunkCr2) : LineStep u c (.brk { u with t := .chunkLf2 })
  | chunkLf (ht : u.t = .chunkCr2 ∨ u.t = .chunkLf2) :
      LineStep u c (.brk { u with t := .chunkStart })
  | trailer (ht : u.t = .trailerStart ∨ u.t = .trailer) :
      LineStep u c (.brk { u with t := .trailer })
  | trailerCr (ht : u.t = .trailer) : LineStep u c (.brk { u with t := .trailerLf1 })
  | trailerLf (ht : u.t = .trailer ∨ u.t = .trailerLf1) :
      LineStep u c (.brk { u with t := .trailerStart })
  | lastCr (ht : u.t = .trailerStart) : LineStep u c (.brk { u with t := .trailerLf2 })
  | finished (ht : u.t = .trailerStart ∨ u.t = .trailerLf2) : LineStep u c (.finished u)

theorem chunkLf1Arm_step (t : ChunkState)
    (ht : u.t = .chunkSize ∨ u.t = .chunkExt ∨ u.t = .chunkLf1) :
    LineStep u c (chunkLf1Arm { u with t := t } c) := by
  unfold chunkLf1Arm
  split <;> rename_i hc
  · exact .bad t u.m
  · exact .sizeLf ht

theorem chunkExtArm_step (ht : u.t = .chunkSize ∨ u.t = .chunkExt) :
    LineStep u c (chunkExtArm { u with t := .chunkExt } c) := by
  unfold chunkExtArm
  split_ifs
  · exact .sizeCr ht
  · exact .ext ht
  · exact chunkLf1Arm_step _ (ht.imp_right .inl)

theorem chunkLf2Arm_step (ht : u.t = .chunkCr2 ∨ u.t = .chunkLf2) :
    LineStep u c (chunkLf2Arm u c) := by
  unfold chunkLf2Arm
  split_ifs
  · exact .bad u.t u.m
  · exact .chunkLf ht

theorem trailerLf1Arm_step (ht : u.t = .trailer ∨ u.t = .trailerLf1) :
    LineStep u c (trailerLf1Arm u c) := by
  unfold trailerLf1Arm
  split_ifs
  · exact .bad u.t u.m
  · exact .trailerLf ht

theorem lineArm_step (u : HttpUnchunker) (c : UInt8) : LineStep u c (lineArm u c) := by
  have hself : ∀ t, u.t = t → { u with t := t } = u := fun t ht => by rw [← ht]
  unfold lineArm
  split <;> rename_i ht
  · dsimp only
    split_ifs with hc
    · exact .bad u.t (kHexToInt c)
    · exact .firstDigit ht hc
  · unfold chunkSizeArm
    dsimp only
    split_ifs with hc hbig
    · exact .bad u.t _
    · exact .digit ht hc (by omega)
    · exact chunkExtArm_step (.inl ht)
  · have hstep := chunkExtArm_step (c := c) (.inr ht)
    rwa [hself _ ht] at hstep
  · exact chunkLf1Arm_step u.t (.inr (.inr ht))
  · exact .chunk ht
  · split_ifs
    · exact .chunkCr ht
    · exact chunkLf2Arm_step (.inl ht)
  · exact chunkLf2Arm_step (.inr ht)
  · split_ifs with hcr hlf
    · exact .lastCr ht
    · exact .finished (.inl ht)
    · unfold trailerArm
      rw [if_neg hcr, if_pos hlf]
      exact .trailer (.inl ht)
  · unfold trailerArm
    split_ifs with hcr hlf
    · exact .trailerCr ht
    · nth_rewrite 2 [← hself _ ht]
      exact .trailer (.inr ht)
    · exact trailerLf1Arm_step (.inl ht)
  · exact trailerLf1Arm_step (.inr ht)
  · split_ifs
    · exact .bad u.t u.m
    · exact .finished (.inr ht)

def Arm.state : Arm → HttpUnchunker
  | .brk u | .bad u | .finished u => u

theorem lineArm_offsets (u : HttpUnchunker) (c : UInt8) :
    (lineArm u c).state.i = u.i ∧ (lineArm u c).state.j = u.j := by
  have hstep := lineArm_step u c
  generalize lineArm u c = arm at hstep
  cases hstep <;> exact ⟨rfl, rfl⟩

theorem lineArm_wf (hwf : u.Wf) (ht : u.t ≠ .chunk) (h : lineArm u c = .brk u') : u'.Wf := by
  obtain ⟨hnonneg, hlt, -⟩ := hwf
  have hhex := kHexToInt_bounds c
  have hstep := lineArm_step u c
  rw [h] at hstep
  cases hstep with
  | firstDigit _ hc =>
    exact ⟨by dsimp only; omega, by dsimp only; omega, fun hchunk => nomatch hchunk⟩
  | digit _ hc hlt' =>
    exact ⟨by dsimp only; omega, hlt', fun hchunk => absurd hchunk ht⟩
  | sizeLf =>
    refine ⟨hnonneg, hlt, fun hchunk => ?_⟩
    dsimp only at hchunk ⊢
    split_ifs at hchunk
    omega
  | chunk hchunk => exact absurd hchunk ht
  | _ => exact ⟨hnonneg, hlt, fun hchunk => nomatch hchunk⟩

theorem decodeByte_chunk (ht : u.t = .chunk) :
    decodeByte (u, out) c =
      .more ({ u with
        i := u.i + 1, j := u.j + 1, m := u.m - 1
        t := if u.m - 1 = 0 then .chunkCr2 else .chunk }, out ++ [c]) :=
  if_pos ht

theorem decodeByte_line (out : Bytes) (ht : u.t ≠ .chunk) :
    decodeByte (u, out) c =
      match lineArm { u with i := u.i + 1 } c with
      | .brk u => .more (u, out)
      | .bad u => .done false (u, out)
      | .finished u => .done true (u, out) :=
  if_neg ht

theorem decodeByte_wf {s s' : Decoding} (hwf : s.1.Wf) (h : decodeByte s c = .more s') : s'.1.Wf := by
  obtain ⟨u, out⟩ := s
  by_cases ht : u.t = .chunk
  · rw [decodeByte_chunk ht] at h
    cases h
    have hpos := hwf.pos ht
    have hlt := hwf.lt
    dsimp only at hpos hlt
    refine ⟨by dsimp only; omega, by dsimp only; omega, fun hchunk => ?_⟩
    dsimp only at hchunk ⊢
    by_cases hlast : u.m - 1 = 0
    · rw [if_pos hlast] at hchunk
      cases hchunk
    · omega
  · have hwf' : ({ u with i := u.i + 1 } : HttpUnchunker).Wf := { hwf with }
    rw [decodeByte_line _ ht] at h
    cases hl : lineArm { u with i := u.i + 1 } c with
    | brk u' =>
      rw [hl] at h
      cases h
      exact lineArm_wf hwf' ht hl
    | bad u' | finished u' => rw [hl] at h; cases h

/-! ## The loop -/

theorem feed_chunk {w : Bytes} (out : Bytes) (ht : u.t = .chunk) (hne : w ≠ []) (hm : (w.length : Int) ≤ u.m) :
    feed decodeByte (u, out) w =
      .more ({ u with
        i := u.i + w.length, j := u.j + w.length, m := u.m - w.length
        t := if u.m - w.length = 0 then .chunkCr2 else .chunk }, out ++ w) := by
  induction w generalizing u out with
  | nil => exact absurd rfl hne
  | cons c w ih =>
    rw [length_cons] at hm
    rw [feed_cons_more (decodeByte_chunk ht)]
    by_cases hw : w = []
    · subst hw
      rfl
    · have hlen : 0 < w.length := length_pos_of_ne_nil hw
      have hgo : ¬(u.m - 1 = 0) := by omega
      rw [if_neg hgo, ih _ rfl hw (by dsimp only; omega)]
      have hsum : u.m - 1 - (w.length : Int) = u.m - ((c :: w).length : Int) := by
        rw [length_cons]; omega
      have hlen' : ∀ x : Nat, x + 1 + w.length = x + (c :: w).length := by
        intro x; rw [length_cons]; omega
      simp only [hsum, hlen', append_assoc, singleton_append]

def Matches (n : Nat) (r : Unchunked) : Fed Decoding Bool → Prop
  | .more s => r.rc = 0 ∧ r.l = none ∧ r.u = s.1 ∧ r.p.length = n ∧ r.p.take s.1.j = s.2
  | .done true s =>
    r.rc = s.1.i ∧ r.l = some s.1.j ∧ r.u = s.1 ∧ r.p.length = n ∧ r.p.take s.1.j = s.2
  | .done false s => r.rc = -1 ∧ r.u = s.1

/-- The buffer after the arm of `kHttpStateChunk`: one byte stored at `j`, then `s` more moved down. -/
theorem set_memmove {i j s : Nat} (hji : j ≤ i) (hlen : i + 1 + s ≤ p.length) :
    let q := memmove (p.set j (byteAt p i)) (j + 1) (i + 1) s
    let w := byteAt p i :: slice p (i + 1) (i + 1 + s)
    w.length = 1 + s ∧ p.drop i = w ++ p.drop (i + (1 + s)) ∧ q.length = p.length ∧
      q.take (j + (1 + s)) = p.take j ++ w ∧ q.drop (i + (1 + s)) = p.drop (i + (1 + s)) := by
  intro q w
  have hset : (p.set j (byteAt p i)).length = p.length := length_set
  have hdrop : ∀ k, j < k → (p.set j (byteAt p i)).drop k = p.drop k := fun k hk => by
    rw [drop_set, if_pos hk]
  have htake : (p.set j (byteAt p i)).take (j + 1) = p.take j ++ [byteAt p i] := by
    rw [take_add_one, take_set_of_le (le_refl j)]
    simp [show j < p.length by omega]
  have hslice : slice (p.set j (byteAt p i)) (i + 1) (i + 1 + s) = slice p (i + 1) (i + 1 + s) := by
    rw [slice, slice, drop_take, drop_take, hdrop _ (by omega)]
  refine ⟨?_, ?_, ?_, ?_, ?_⟩
  · rw [length_cons, length_slice _ _ _ hlen, Nat.add_comm]
  · rw [drop_byteAt p i (by omega), drop_eq_slice_append p (i + 1) s, cons_append, ← Nat.add_assoc]
  · rw [memmove_length (by omega) (by omega), hset]
  · rw [← Nat.add_assoc, memmove_take (by omega) (by omega), htake, hslice, append_assoc,
      singleton_append]
  · rw [← Nat.add_assoc, memmove_drop (by omega) (by omega), hdrop _ (by omega)]

theorem chunkArm_eq (hn : p.length = n) (hji : u.j ≤ u.i) (hin : u.i < n) (hwf : u.Wf)
    (ht : u.t = .chunk) :
    ∃ w q, w ≠ [] ∧ (w.length : Int) ≤ u.m ∧ p.drop u.i = w ++ p.drop (u.i + w.length) ∧
      u.i + w.length ≤ n ∧
      chunkArm { u with i := u.i + 1 } p n (byteAt p u.i) =
        ({ u with
          i := u.i + w.length, j := u.j + w.length, m := u.m - w.length
          t := if u.m - w.length = 0 then .chunkCr2 else .chunk }, q) ∧
      q.length = n ∧ q.take (u.j + w.length) = p.take u.j ++ w ∧
      q.drop (u.i + w.length) = p.drop (u.i + w.length) := by
  have hpos := hwf.pos ht
  have hlt := hwf.lt
  -- the `memmove` takes the rest of the chunk, or what there is of it
  obtain ⟨s, hs⟩ : ∃ s, s = min ((u.m - 1) % 2 ^ 64).toNat (n - (u.i + 1)) := ⟨_, rfl⟩
  have hmod : (u.m - 1) % 2 ^ 64 = u.m - 1 := Int.emod_eq_of_lt (by omega) (by omega)
  rw [hmod] at hs
  obtain ⟨hw, hp, hlen, htake, hdrop⟩ := set_memmove (p := p) (s := s) hji (by omega)
  refine ⟨byteAt p u.i :: slice p (u.i + 1) (u.i + 1 + s), _, cons_ne_nil _ _, ?_, ?_, ?_, ?_,
    hlen.trans hn, ?_, ?_⟩
  all_goals rw [hw]
  · omega
  · exact hp
  · omega
  · have hm : u.m - 1 - (s : Int) = u.m - ((1 + s : Nat) : Int) := by omega
    unfold chunkArm
    dsimp only
    rw [hmod, ← hs, hm, ← Nat.add_assoc, ← Nat.add_assoc]
    by_cases hzero : u.m - ((1 + s : Nat) : Int) = 0
    · rw [if_pos hzero, if_pos hzero]
    · rw [if_neg hzero, if_neg hzero, ht]
  · exact htake
  · exact hdrop

theorem unchunkLoop_eq (fuel : Nat) (u : HttpUnchunker) (p : Bytes) (hn : p.length = n)
    (hji : u.j ≤ u.i) (hin : u.i ≤ n) (hwf : u.Wf) (hfuel : n - u.i ≤ fuel) :
    Matches n (unchunkLoop n fuel u p) (feed decodeByte (u, p.take u.j) (p.drop u.i)) := by
  induction fuel generalizing u p with
  | zero =>
    rw [drop_eq_nil_of_le (by omega)]
    exact ⟨rfl, rfl, rfl, hn, rfl⟩
  | succ fuel ih =>
    by_cases hlt : u.i < n
    · rw [unchunkLoop, if_pos hlt]
      dsimp only
      by_cases ht : u.t = .chunk
      · obtain ⟨w, q, hne, hm, hp, hwn, harm, hq, htake, hdrop⟩ := chunkArm_eq hn hji hlt hwf ht
        have hfeed := feed_chunk (p.take u.j) ht hne hm
        have hpos : 0 < w.length := length_pos_of_ne_nil hne
        have hlt' := hwf.lt
        rw [if_pos ht, harm, hp, feed_append_more hfeed, ← htake, ← hdrop]
        apply ih _ q hq (by dsimp only; omega) hwn _ (by dsimp only; omega)
        refine ⟨by dsimp only; omega, by dsimp only; omega, fun hchunk => ?_⟩
        dsimp only at hchunk ⊢
        split_ifs at hchunk with hzero
        omega
      · rw [if_neg ht, drop_byteAt p u.i (by omega)]
        have hstep := decodeByte_line (c := byteAt p u.i) (p.take u.j) ht
        have hoff := lineArm_offsets { u with i := u.i + 1 } (byteAt p u.i)
        cases harm : lineArm { u with i := u.i + 1 } (byteAt p u.i) with
        | brk u' =>
          rw [harm] at hstep hoff
          obtain ⟨hi, hj⟩ := hoff
          dsimp only [Arm.state] at hi hj
          have hwf' : ({ u with i := u.i + 1 } : HttpUnchunker).Wf := { hwf with }
          rw [feed_cons_more hstep]
          have hrec := ih u' p hn (by omega) (by omega) (lineArm_wf hwf' ht harm) (by omega)
          rwa [hi, hj] at hrec
        | bad u' =>
          rw [harm] at hstep
          rw [feed_cons_done hstep]
          exact ⟨rfl, rfl⟩
        | finished u' =>
          rw [harm] at hstep hoff
          obtain ⟨hi, hj⟩ := hoff
          dsimp only [Arm.state] at hj
          rw [feed_cons_done hstep]
          refine ⟨rfl, rfl, rfl, ?_, ?_⟩
          · dsimp only
            split <;> simp [hn]
          · dsimp only
            rw [hj]
            split
            · rw [take_set_of_le (le_refl _)]
            · rfl
    · rw [unchunkLoop, if_neg hlt, drop_eq_nil_of_le (by omega)]
      exact ⟨rfl, rfl, rfl, hn, rfl⟩

theorem unchunkLoop_bounds (fuel : Nat) (u : HttpUnchunker) (p : Bytes) (hji : u.j ≤ u.i)
    (hin : u.i ≤ n) :
    (unchunkLoop n fuel u p).u.j ≤ (unchunkLoop n fuel u p).u.i ∧
      (unchunkLoop n fuel u p).u.i ≤ n := by
  induction fuel generalizing u p with
  | zero => exact ⟨hji, hin⟩
  | succ fuel ih =>
    rw [unchunkLoop]
    split_ifs with hlt
    · dsimp only
      split_ifs with ht
      · apply ih
        · unfold chunkArm
          dsimp only
          split <;> dsimp only <;> omega
        · unfold chunkArm
          dsimp only
          split <;> dsimp only <;> omega
      · have hoff := lineArm_offsets { u with i := u.i + 1 } (byteAt p u.i)
        cases harm : lineArm { u with i := u.i + 1 } (byteAt p u.i) with
        | brk u' =>
          rw [harm] at hoff
          dsimp only [Arm.state] at hoff
          exact ih u' p (by omega) (by omega)
        | bad u' | finished u' =>
          rw [harm] at hoff
          dsimp only [Arm.state] at hoff ⊢
          omega
    · exact ⟨hji, hin⟩

end CosmoRuby.Http