import Mathlib
import CosmoRuby.Stdio.Memstream

/-!
# Streams over a fixed buffer

`fmemopen` makes a stream whose buffer is its content. `fread_unlocked`, `fwrite_unlocked` and
`fseek_unlocked` share the indices `beg` and `end` with file streams: here they are the position and
the length. The stream is compared with a byte array of bounded size and a position.
-/

open CosmoRuby.Lib

namespace CosmoRuby.Stdio.Fmem

open List

inductive State where
  | fine
  | eof
  | error (e : Errno)
deriving DecidableEq

inductive Mode where
  | r
  | rPlus
  | w
  | wPlus
deriving DecidableEq

def Mode.readable : Mode → Bool
  | .w => false
  | _ => true

def Mode.writable : Mode → Bool
  | .r => false
  | _ => true

def Mode.truncates : Mode → Bool
  | .w => true
  | .wPlus => true
  | _ => false

structure Stream where
  mode : Mode
  buf : Bytes
  size : Nat
  beg : Nat
  fin : Nat
  state : State
  freebuf : Bool

def fmemopen (buf : Option Bytes) (maxSize : Nat) (mode : Mode) (calloc : Bool) : Option Stream :=
  let opened (bytes : Bytes) (freebuf : Bool) : Stream :=
    { mode := mode
      buf := if mode.truncates ∧ 0 < maxSize then bytes.set 0 0 else bytes
      size := maxSize
      beg := 0
      fin := if mode.truncates then 0 else maxSize
      state := .fine
      freebuf := freebuf }
  match buf with
  | some bytes => some (opened bytes false)
  | none =>
    if ¬ (mode.readable ∧ mode.writable) then none
    else if 2 ^ 64 ≤ maxSize + 1 ∨ calloc = false then none
    else some (opened (replicate maxSize 0) true)

/-- What a call returns: items and bytes read, items written, success, or a position. -/
inductive Reply where
  | read (items : Nat) (bytes : Bytes)
  | wrote (items : Nat)
  | sought (ok : Bool)
  | told (pos : Int)
deriving DecidableEq

def fread (f : Stream) (stride count : Nat) : Reply × Stream :=
  let n := stride * count
  if f.state = .eof then (.read 0 [], f)
  else if f.mode.readable = false then (.read 0 [], { f with state := .error .ebadf })
  else if 2 ^ 64 ≤ n then (.read 0 [], { f with state := .error .eoverflow })
  else if n = 0 then (.read 0 [], f)
  else
    let m := (f.fin + 2 ^ 64 - f.beg) % 2 ^ 64
    if n ≤ m then
      -- the reset that is harmless for a file
      (.read count ((f.buf.drop f.beg).take n),
        if (f.beg + n) % 2 ^ 64 = f.fin then { f with beg := 0, fin := 0 }
        else { f with beg := (f.beg + n) % 2 ^ 64 })
    else
      let k := m / stride * stride
      (.read (k / stride) ((f.buf.drop f.beg).take k),
        { f with
          beg := (f.beg + k) % 2 ^ 64
          state := if (f.beg + k) % 2 ^ 64 = f.fin then .eof else f.state })

/-- The copy in `fwrite_unlocked`, with a terminator if the stream gets longer. -/
def Stream.put (f : Stream) (data : Bytes) : Stream :=
  if f.fin < f.beg + data.length then
    { f with
      beg := f.beg + data.length
      fin := f.beg + data.length
      buf := if f.freebuf = false ∧ f.beg + data.length < f.size then
          (overwrite f.buf f.beg data).set (f.beg + data.length) 0
        else overwrite f.buf f.beg data }
  else { f with beg := f.beg + data.length, buf := overwrite f.buf f.beg data }

def fwrite (f : Stream) (data : Memory) (stride count : Nat) : Reply × Stream :=
  let n := stride * count
  if f.mode.writable = false then (.wrote 0, { f with state := .error .ebadf })
  else if 2 ^ 64 ≤ n then (.wrote 0, { f with state := .error .eoverflow })
  else if n = 0 then (.wrote 0, f)
  else
    let m := (f.size + 2 ^ 64 - f.beg) % 2 ^ 64
    if n ≤ m then (.wrote count, f.put (data.bytes n))
    else
      let fits := m - m % stride
      (.wrote (m / stride), if fits = 0 then f else f.put (data.bytes fits))

def fseek (f : Stream) (offset : Int) (whence : Whence) : Reply × Stream :=
  let pos := seekPos f.beg f.fin offset whence
  if pos < 0 then (.sought false, { f with state := .error .einval })
  else if pos.toNat ≤ f.size then
    (.sought true, { f with fin := max f.beg f.fin, beg := pos.toNat, state := .fine })
  else (.sought false, { f with fin := max f.beg f.fin, state := .error .einval })

inductive Call where
  | fread (stride count : Nat)
  | fwrite (data : Memory) (stride count : Nat)
  | fseek (offset : Int) (whence : Whence)
  | ftell

def Call.exec (f : Stream) : Call → Reply × Stream
  | .fread stride count => Fmem.fread f stride count
  | .fwrite data stride count => Fmem.fwrite f data stride count
  | .fseek offset whence => Fmem.fseek f offset whence
  | .ftell => (.told (toInt64 f.beg), f)

/-! ## The file of bounded size -/

structure BoundedFile where
  mode : Mode
  size : Nat
  content : Bytes
  pos : Nat

def BoundedFile.opened (bytes : Bytes) (size : Nat) (mode : Mode) : BoundedFile :=
  ⟨mode, size, if mode.truncates then [] else bytes, 0⟩

def whole (stride n room : Nat) : Nat := if n ≤ room then n else room / stride * stride

def BoundedFile.read (a : BoundedFile) (stride count : Nat) : Reply × BoundedFile :=
  if a.mode.readable = false ∨ 2 ^ 64 ≤ stride * count then (.read 0 [], a)
  else
    let k := whole stride (stride * count) (a.content.length - a.pos)
    (.read (k / stride) ((a.content.drop a.pos).take k), { a with pos := a.pos + k })

def BoundedFile.write (a : BoundedFile) (data : Memory) (stride count : Nat) :
    Reply × BoundedFile :=
  if a.mode.writable = false ∨ 2 ^ 64 ≤ stride * count then (.wrote 0, a)
  else
    let k := whole stride (stride * count) (a.size - a.pos)
    if k = 0 then (.wrote 0, a)
    else
      (.wrote (k / stride),
        { a with
          content := overwrite (a.content ++ replicate (a.pos - a.content.length) 0) a.pos
            (data.bytes k)
          pos := a.pos + k })

def BoundedFile.seek (a : BoundedFile) (offset : Int) (whence : Whence) : Reply × BoundedFile :=
  let pos := seekPos a.pos a.content.length offset whence
  if 0 ≤ pos ∧ pos.toNat ≤ a.size then (.sought true, { a with pos := pos.toNat })
  else (.sought false, a)

def Call.spec (a : BoundedFile) : Call → Reply × BoundedFile
  | .fread stride count => a.read stride count
  | .fwrite data stride count => a.write data stride count
  | .fseek offset whence => a.seek offset whence
  | .ftell => (.told (toInt64 a.pos), a)

structure Agrees (f : Stream) (a : BoundedFile) : Prop where
  pos : f.beg = a.pos
  fin : f.fin = a.content.length
  content : f.buf.take f.fin = a.content

/-- The replies are those of the file, and so is the state at the start and after every call. -/
def AllAgree : Stream → BoundedFile → List Call → Prop
  | f, a, [] => Agrees f a
  | f, a, c :: cs =>
    Agrees f a ∧ (c.exec f).1 = (c.spec a).1 ∧ AllAgree (c.exec f).2 (c.spec a).2 cs

/-- A read does not end exactly at the end, and begins before it. A seek begins before the end. A
write that is past the end finds zeros in between. -/
def Safe (f : Stream) : Call → Prop
  | .fread stride count =>
    f.state ≠ .eof → f.mode.readable = true → stride * count < 2 ^ 64 → stride * count ≠ 0 →
      (f.beg ≤ f.fin ∧ stride * count ≠ f.fin - f.beg) ∨
        (f.fin < f.beg ∧ 2 ^ 64 - (f.beg - f.fin) < stride)
  | .fwrite _ stride count =>
    f.mode.writable = true → stride * count < 2 ^ 64 → stride * count ≠ 0 →
      stride ≤ f.size - f.beg →
      slice f.buf f.fin f.beg = replicate (f.beg - f.fin) 0
  | .fseek offset whence => 0 ≤ seekPos f.beg f.fin offset whence → f.beg ≤ f.fin
  | .ftell => True

def AllSafe : Stream → List Call → Prop
  | _, [] => True
  | f, c :: cs => Safe f c ∧ AllSafe (c.exec f).2 cs

/-! ## The invariant -/

structure Tracks (f : Stream) (a : BoundedFile) : Prop extends Agrees f a where
  mode : f.mode = a.mode
  size : f.size = a.size
  bound : f.size < 2 ^ 64
  length : f.buf.length = f.size
  begLe : f.beg ≤ f.size
  finLe : f.fin ≤ f.size
  atEnd : f.state = .eof → f.beg = f.fin

variable {f : Stream} {a : BoundedFile}

theorem Tracks.with_error (h : Tracks f a) (e : Errno) :
    Tracks { f with state := .error e } a :=
  { h with atEnd := fun hno => by cases hno }

theorem Tracks.bytes_eq (h : Tracks f a) {k : Nat} (hk : k ≤ f.fin - f.beg) :
    (f.buf.drop f.beg).take k = (a.content.drop a.pos).take k := by
  rw [← h.content, ← h.pos, drop_take, take_take, Nat.min_eq_left hk]

theorem whole_le_room (stride n room : Nat) : whole stride n room ≤ room := by
  unfold whole
  split
  · assumption
  · exact Nat.div_mul_le_self room stride

variable {stride count room : Nat}

theorem factors_pos (hpos : stride * count ≠ 0) : 0 < stride ∧ 0 < count ∧ stride ≤ stride * count := by
  have hcount : 0 < count := Nat.pos_of_ne_zero (right_ne_zero_of_mul hpos)
  exact ⟨Nat.pos_of_ne_zero (left_ne_zero_of_mul hpos), hcount, Nat.le_mul_of_pos_right stride hcount⟩

theorem whole_div (hpos : stride * count ≠ 0)
    (h : stride * count ≤ room) : whole stride (stride * count) room / stride = count := by
  have hstride := (factors_pos hpos).1
  rw [whole, if_pos h, Nat.mul_div_cancel_left count hstride]

theorem whole_zero (h : stride * count = 0) : whole stride (stride * count) room = 0 := by
  rw [whole, h, if_pos (Nat.zero_le _)]

theorem whole_ne_zero (hpos : stride * count ≠ 0) :
    whole stride (stride * count) room ≠ 0 ↔ stride ≤ room := by
  obtain ⟨hstride, hcount, hle⟩ := factors_pos hpos
  unfold whole
  split_ifs with hfits
  · exact iff_of_true hpos (Nat.le_trans hle hfits)
  · constructor
    · intro hne
      by_contra hlt
      exact hne (by rw [Nat.div_eq_of_lt (Nat.lt_of_not_le hlt), Nat.zero_mul])
    · intro hroom
      exact Nat.ne_of_gt (Nat.mul_pos (Nat.div_pos hroom hstride) hstride)

/-! ## Reading -/

abbrev Matches (r : Reply × Stream) (r' : Reply × BoundedFile) : Prop := r.1 = r'.1 ∧ Tracks r.2 r'.2

theorem read_nothing (h : whole stride (stride * count) (a.content.length - a.pos) = 0) :
    a.read stride count = (.read 0 [], a) := by
  unfold BoundedFile.read
  split
  · rfl
  · simp only [h, Nat.zero_div, take_zero, Nat.add_zero]

theorem read_atEnd (h : a.content.length ≤ a.pos) : a.read stride count = (.read 0 [], a) := by
  have hroom := whole_le_room stride (stride * count) (a.content.length - a.pos)
  exact read_nothing (by omega)

theorem fread_early (h : Tracks f a)
    (hearly : f.state = .eof ∨ f.mode.readable = false ∨ 2 ^ 64 ≤ stride * count ∨
      stride * count = 0) :
    Matches (fread f stride count) (a.read stride count) := by
  unfold fread
  by_cases heof : f.state = .eof
  · rw [if_pos heof]
    have hend := h.atEnd heof
    have hpos := h.pos
    have hfin := h.fin
    rw [read_atEnd (by omega)]
    exact ⟨rfl, h⟩
  rw [if_neg heof]
  by_cases hmode : f.mode.readable = false
  · rw [if_pos hmode]
    have hread : a.read stride count = (.read 0 [], a) := if_pos (Or.inl (h.mode ▸ hmode))
    rw [hread]
    exact ⟨rfl, h.with_error _⟩
  rw [if_neg hmode]
  by_cases hover : 2 ^ 64 ≤ stride * count
  · rw [if_pos hover]
    have hread : a.read stride count = (.read 0 [], a) := if_pos (Or.inr hover)
    rw [hread]
    exact ⟨rfl, h.with_error _⟩
  rw [if_neg hover]
  have hzero : stride * count = 0 := by tauto
  rw [if_pos hzero, read_nothing (whole_zero hzero)]
  exact ⟨rfl, h⟩

theorem fread_body {m : Nat} (heof : f.state ≠ .eof)
    (hmode : f.mode.readable = true) (hover : stride * count < 2 ^ 64)
    (hpos : stride * count ≠ 0) (hm : (f.fin + 2 ^ 64 - f.beg) % 2 ^ 64 = m) :
    fread f stride count =
      if stride * count ≤ m then
        (.read count ((f.buf.drop f.beg).take (stride * count)),
          if (f.beg + stride * count) % 2 ^ 64 = f.fin then { f with beg := 0, fin := 0 }
          else { f with beg := (f.beg + stride * count) % 2 ^ 64 })
      else
        (.read (m / stride * stride / stride) ((f.buf.drop f.beg).take (m / stride * stride)),
          { f with
            beg := (f.beg + m / stride * stride) % 2 ^ 64
            state := if (f.beg + m / stride * stride) % 2 ^ 64 = f.fin then .eof
              else f.state }) := by
  unfold fread
  rw [if_neg heof, if_neg (by rw [hmode]; decide), if_neg (Nat.not_le.mpr hover), if_neg hpos, hm]

section

variable (h : Tracks f a) (heof : f.state ≠ .eof) (hmode : f.mode.readable = true)
  (hover : stride * count < 2 ^ 64) (hpos : stride * count ≠ 0)
include h heof hmode hover hpos

theorem fread_inside (hle : f.beg ≤ f.fin) (hne : stride * count ≠ f.fin - f.beg) :
    Matches (fread f stride count) (a.read stride count) := by
  set n := whole stride (stride * count) (f.fin - f.beg) with hn
  have hbound := h.bound
  have hfinLe := h.finLe
  have hroom : a.content.length - a.pos = f.fin - f.beg := by rw [h.fin, h.pos]
  have hm : (f.fin + 2 ^ 64 - f.beg) % 2 ^ 64 = f.fin - f.beg := by omega
  have hread : a.read stride count =
      (.read (n / stride) ((a.content.drop a.pos).take n), { a with pos := a.pos + n }) := by
    unfold BoundedFile.read
    rw [if_neg, hroom]
    rintro (hno | hno)
    · rw [← h.mode, hmode] at hno
      cases hno
    · exact absurd hno (Nat.not_le.mpr hover)
  have hwhole : n ≤ f.fin - f.beg := whole_le_room stride (stride * count) (f.fin - f.beg)
  have hmod : (f.beg + n) % 2 ^ 64 = f.beg + n := Nat.mod_eq_of_lt (by omega)
  have hnext (state : State) (hstate : state = .eof → f.beg + n = f.fin) :
      Tracks { f with beg := f.beg + n, state } { a with pos := a.pos + n } := { h with
    pos := congrArg (· + n) h.pos
    begLe := by show f.beg + n ≤ f.size; omega
    atEnd := hstate }
  rw [hread, ← h.bytes_eq hwhole, fread_body heof hmode hover hpos hm]
  by_cases hfits : stride * count ≤ f.fin - f.beg
  · have heq : n = stride * count := if_pos hfits
    rw [if_pos hfits, whole_div hpos hfits, ← heq, hmod, if_neg (by omega)]
    exact ⟨rfl, hnext f.state (absurd · heof)⟩
  · have heq : n = (f.fin - f.beg) / stride * stride := if_neg hfits
    rw [if_neg hfits, ← heq, hmod]
    refine ⟨rfl, hnext _ fun hstate => ?_⟩
    by_contra hno
    exact heof ((if_neg hno).symm.trans hstate)

/-- Past the end nothing is read only if one item is larger than what the difference wraps to. -/
theorem fread_outside (hgt : f.fin < f.beg) : ((fread f stride count).1 = (a.read stride count).1 →
        2 ^ 64 - (f.beg - f.fin) < stride) ∧
      (2 ^ 64 - (f.beg - f.fin) < stride →
        Matches (fread f stride count) (a.read stride count)) := by
  have hbound := h.bound
  have hbegLe := h.begLe
  obtain ⟨hstride, hcount, hle⟩ := factors_pos hpos
  have hm : (f.fin + 2 ^ 64 - f.beg) % 2 ^ 64 = 2 ^ 64 - (f.beg - f.fin) := by omega
  have hp := h.pos
  have hfin := h.fin
  rw [read_atEnd (by omega), fread_body heof hmode hover hpos hm]
  split <;> rename_i hfits
  · constructor
    · intro hreply
      have hitems : count = 0 := (Reply.read.inj hreply).1
      omega
    · intro hlt
      exact absurd (Nat.lt_of_lt_of_le hlt hle) (Nat.not_lt.mpr hfits)
  · constructor
    · intro hreply
      have hitems := (Reply.read.inj hreply).1
      rw [Nat.mul_div_cancel _ hstride, Nat.div_eq_zero_iff] at hitems
      omega
    · intro hlt
      have hk : (2 ^ 64 - (f.beg - f.fin)) / stride = 0 := Nat.div_eq_of_lt hlt
      have hmod : f.beg % 2 ^ 64 = f.beg := Nat.mod_eq_of_lt (by omega)
      rw [hk, Nat.zero_mul, Nat.zero_div, take_zero, Nat.add_zero, hmod,
        if_neg (Nat.ne_of_gt hgt)]
      exact ⟨rfl, { h with }⟩

theorem fread_drained (hle : f.beg ≤ f.fin) (heq : stride * count = f.fin - f.beg) :
    ¬ Agrees (fread f stride count).2 (a.read stride count).2 := by
  have hbound := h.bound
  have hfinLe := h.finLe
  have hm : (f.fin + 2 ^ 64 - f.beg) % 2 ^ 64 = f.fin - f.beg := by omega
  have hend : (f.beg + stride * count) % 2 ^ 64 = f.fin := by omega
  have hreset : (fread f stride count).2 = { f with beg := 0, fin := 0 } := by
    rw [fread_body heof hmode hover hpos hm, if_pos (Nat.le_of_eq heq), if_pos hend]
  have hlength : (a.read stride count).2.content = a.content := by
    unfold BoundedFile.read
    split <;> rfl
  intro hagrees
  have hfin := hagrees.fin
  rw [hreset, hlength, ← h.fin] at hfin
  have hzero : 0 = f.fin := hfin
  omega

end

/-! ## Writing -/

theorem take_gap_iff {buf : Bytes} {fin beg : Nat} (hfin : fin ≤ buf.length)
    (hbeg : beg ≤ buf.length) :
    (buf.take fin ++ replicate (beg - fin) 0).take beg = buf.take beg ↔
      slice buf fin beg = replicate (beg - fin) 0 := by
  rcases Nat.le_total beg fin with hle | hle
  · refine iff_of_true ?_ ?_
    · rw [Nat.sub_eq_zero_of_le hle, replicate_zero, append_nil, take_take,
        Nat.min_eq_left hle]
    · rw [slice, Nat.sub_eq_zero_of_le hle, replicate_zero, drop_eq_nil_of_le]
      rw [length_take]
      omega
  · have hlen : (buf.take fin ++ replicate (beg - fin) (0 : UInt8)).length = beg := by
      rw [length_append, length_take, length_replicate]
      omega
    rw [take_of_length_le (Nat.le_of_eq hlen), take_eq_append_slice fin beg hle]
    exact ⟨fun heq => (append_cancel_left heq).symm, fun heq => by rw [heq]⟩

def BoundedFile.put (a : BoundedFile) (data : Bytes) : BoundedFile :=
  { a with
    content := overwrite (a.content ++ replicate (a.pos - a.content.length) 0) a.pos data
    pos := a.pos + data.length }

variable {data : Bytes}

section

variable (h : Tracks f a)
include h

theorem put_spec (hfits : f.beg + data.length ≤ f.size) : (f.put data).beg = f.beg + data.length ∧
      (f.put data).fin = max f.fin (f.beg + data.length) ∧
      (f.put data).buf.length = f.size ∧
      (f.put data).buf.take (max f.fin (f.beg + data.length)) =
        (overwrite f.buf f.beg data).take (max f.fin (f.beg + data.length)) := by
  have hlength := h.length
  have hbegLe := h.begLe
  have hover : (overwrite f.buf f.beg data).length = f.size := by
    rw [length_overwrite (by omega)]
    omega
  unfold Stream.put
  split <;> rename_i hlonger
  · rw [Nat.max_eq_right (Nat.le_of_lt hlonger)]
    dsimp only
    split
    · refine ⟨rfl, rfl, ?_, ?_⟩
      · rw [length_set, hover]
      · exact take_set_of_le (Nat.le_refl _)
    · exact ⟨rfl, rfl, hover, rfl⟩
  · rw [Nat.max_eq_left (Nat.le_of_not_lt hlonger)]
    exact ⟨rfl, rfl, hover, rfl⟩

theorem put_content_iff (data : Bytes) :
    (overwrite f.buf f.beg data).take (max f.fin (f.beg + data.length)) = (a.put data).content ↔
      slice f.buf f.fin f.beg = replicate (f.beg - f.fin) 0 := by
  have hlength := h.length
  have hbegLe := h.begLe
  have hfinLe := h.finLe
  rw [← take_gap_iff (by omega) (by omega)]
  have htake : (f.buf.take f.beg).length = f.beg := by
    rw [length_take]
    omega
  set padded := f.buf.take f.fin ++ replicate (f.beg - f.fin) 0 with hpadded
  have hleft : (overwrite f.buf f.beg data).take (max f.fin (f.beg + data.length)) =
      f.buf.take f.beg ++ (data ++ padded.drop (f.beg + data.length)) := by
    have hfirst : (f.buf.take f.beg).take (max f.fin (f.beg + data.length)) = f.buf.take f.beg :=
      take_of_length_le (by rw [htake]; omega)
    have hsecond : data.take (max f.fin (f.beg + data.length) - f.beg) = data :=
      take_of_length_le (by omega)
    unfold overwrite
    rw [append_assoc, take_append, htake, hfirst, take_append, hsecond]
    congr 2
    rw [hpadded, drop_append, drop_take, length_take, drop_replicate]
    have hnone : f.beg - f.fin - (f.beg + data.length - min f.fin f.buf.length) = 0 := by omega
    rw [hnone, replicate_zero, append_nil]
    congr 1
    omega
  have hright : (a.put data).content = padded.take f.beg ++ (data ++ padded.drop (f.beg + data.length)) := by
    unfold BoundedFile.put overwrite
    rw [hpadded, ← h.fin, ← h.pos, ← h.content, append_assoc]
  rw [hleft, hright]
  exact ⟨fun heq => (append_cancel_right heq).symm, fun heq => by rw [heq]⟩

theorem agrees_put_iff (hfits : f.beg + data.length ≤ f.size) :
    Agrees (f.put data) (a.put data) ↔
      slice f.buf f.fin f.beg = replicate (f.beg - f.fin) 0 := by
  obtain ⟨hbeg, hfin, -, htake⟩ := put_spec h hfits
  have hlength := h.length
  rw [← put_content_iff h data]
  constructor
  · intro hagrees
    rw [← htake, ← hfin]
    exact hagrees.content
  · intro hcontent
    refine ⟨?_, ?_, ?_⟩
    · rw [hbeg, h.pos]
      rfl
    · rw [hfin, ← hcontent, length_take, length_overwrite (by have := h.begLe; omega)]
      have hfinLe := h.finLe
      omega
    · rw [hfin, htake, hcontent]

theorem tracks_put (hdata : data ≠ []) (hfits : f.beg + data.length ≤ f.size)
    (hgap : slice f.buf f.fin f.beg = replicate (f.beg - f.fin) 0) :
    Tracks (f.put data) (a.put data) := by
  obtain ⟨hbeg, hfin, hlen, -⟩ := put_spec h hfits
  have hfinLe := h.finLe
  have hpos : 0 < data.length := List.length_pos_iff.mpr hdata
  obtain ⟨hmode, hsize, hstate⟩ : (f.put data).mode = f.mode ∧ (f.put data).size = f.size ∧
      (f.put data).state = f.state := by
    unfold Stream.put
    split <;> exact ⟨rfl, rfl, rfl⟩
  refine ⟨(agrees_put_iff h hfits).mpr hgap, ?_, ?_, ?_, ?_, ?_, ?_, ?_⟩
  · rw [hmode]
    exact h.mode
  · rw [hsize]
    exact h.size
  · rw [hsize]
    exact h.bound
  · rw [hsize]
    exact hlen
  · omega
  · omega
  · intro heof
    have hend := h.atEnd (hstate ▸ heof)
    omega

theorem fwrite_eq {data : Memory} (hmode : f.mode.writable = true) (hover : stride * count < 2 ^ 64)
    (hpos : stride * count ≠ 0) :
    let k := whole stride (stride * count) (f.size - f.beg)
    fwrite f data stride count =
        (.wrote (k / stride), if k = 0 then f else f.put (data.bytes k)) ∧
      a.write data stride count =
        (.wrote (k / stride), if k = 0 then a else a.put (data.bytes k)) := by
  intro k
  have hbound := h.bound
  have hbegLe := h.begLe
  have hm : (f.size + 2 ^ 64 - f.beg) % 2 ^ 64 = f.size - f.beg := by omega
  have hstride := (factors_pos hpos).1
  constructor
  · unfold fwrite
    rw [if_neg (by rw [hmode]; decide),
      if_neg (Nat.not_le.mpr hover), if_neg hpos, hm]
    by_cases hfits : stride * count ≤ f.size - f.beg
    · have hk : k = stride * count := if_pos hfits
      rw [if_pos hfits, hk, if_neg hpos, Nat.mul_div_cancel_left count hstride]
    · have hk : k = (f.size - f.beg) / stride * stride := if_neg hfits
      have hround : f.size - f.beg - (f.size - f.beg) % stride =
          (f.size - f.beg) / stride * stride := by
        have hdiv := Nat.div_add_mod' (f.size - f.beg) stride
        omega
      rw [if_neg hfits, hround, hk, Nat.mul_div_cancel _ hstride]
  · have hroom : a.size - a.pos = f.size - f.beg := by rw [h.size, h.pos]
    unfold BoundedFile.write
    rw [if_neg, hroom]
    · show (if k = 0 then _ else _) = _
      by_cases hk : k = 0
      · rw [if_pos hk, if_pos hk, hk, Nat.zero_div]
      · rw [if_neg hk, if_neg hk]
        unfold BoundedFile.put
        rw [Memory.length_bytes]
    · rintro (hno | hno)
      · rw [← h.mode, hmode] at hno
        cases hno
      · exact absurd hno (Nat.not_le.mpr hover)

theorem fwrite_early {data : Memory}
    (hearly : f.mode.writable = false ∨ 2 ^ 64 ≤ stride * count ∨ stride * count = 0) :
    Matches (fwrite f data stride count) (a.write data stride count) := by
  unfold fwrite
  by_cases hmode : f.mode.writable = false
  · have hwrite : a.write data stride count = (.wrote 0, a) := if_pos (Or.inl (h.mode ▸ hmode))
    rw [if_pos hmode, hwrite]
    exact ⟨rfl, h.with_error _⟩
  rw [if_neg hmode]
  by_cases hover : 2 ^ 64 ≤ stride * count
  · have hwrite : a.write data stride count = (.wrote 0, a) := if_pos (Or.inr hover)
    rw [if_pos hover, hwrite]
    exact ⟨rfl, h.with_error _⟩
  have hzero : stride * count = 0 := by tauto
  have hwrite : a.write data stride count = (.wrote 0, a) := by
    unfold BoundedFile.write
    split
    · rfl
    · exact if_pos (whole_zero hzero)
  rw [if_neg hover, if_pos hzero, hwrite]
  exact ⟨rfl, h⟩

end

/-! ## Every call -/

theorem step_fread (h : Tracks f a) (stride count : Nat) :
    (Safe f (.fread stride count) →
      Matches (fread f stride count) (a.read stride count)) ∧
    ((fread f stride count).1 = (a.read stride count).1 →
      Agrees (fread f stride count).2 (a.read stride count).2 → Safe f (.fread stride count)) := by
  by_cases hearly : f.state = .eof ∨ f.mode.readable = false ∨ 2 ^ 64 ≤ stride * count ∨
      stride * count = 0
  · refine ⟨fun _ => fread_early h hearly, fun _ _ heof hmode hover hpos => ?_⟩
    rcases hearly with hno | hno | hno | hno
    · exact absurd hno heof
    · rw [hmode] at hno
      cases hno
    · exact absurd hno (Nat.not_le.mpr hover)
    · exact absurd hno hpos
  · simp only [not_or] at hearly
    obtain ⟨heof, hmode, hover, hpos⟩ := hearly
    rw [Bool.not_eq_false] at hmode
    rw [Nat.not_le] at hover
    constructor
    · intro hsafe
      rcases hsafe heof hmode hover hpos with ⟨hle, hne⟩ | ⟨hgt, hlt⟩
      · exact fread_inside h heof hmode hover hpos hle hne
      · exact (fread_outside h heof hmode hover hpos hgt).2 hlt
    · intro hreply hagrees _ _ _ _
      rcases Nat.lt_or_ge f.fin f.beg with hgt | hle
      · exact Or.inr ⟨hgt, (fread_outside h heof hmode hover hpos hgt).1 hreply⟩
      · refine Or.inl ⟨hle, fun heq => ?_⟩
        exact fread_drained h heof hmode hover hpos hle heq hagrees

theorem step_fwrite (h : Tracks f a) (data : Memory) (stride count : Nat) :
    (Safe f (.fwrite data stride count) →
      Matches (fwrite f data stride count) (a.write data stride count)) ∧
    (Agrees (fwrite f data stride count).2 (a.write data stride count).2 →
      Safe f (.fwrite data stride count)) := by
  by_cases hearly : f.mode.writable = false ∨ 2 ^ 64 ≤ stride * count ∨ stride * count = 0
  · refine ⟨fun _ => fwrite_early h hearly, fun _ hmode hover hpos => ?_⟩
    rcases hearly with hno | hno | hno
    · rw [hmode] at hno
      cases hno
    · exact absurd hno (Nat.not_le.mpr hover)
    · exact absurd hno hpos
  · simp only [not_or] at hearly
    obtain ⟨hmode, hover, hpos⟩ := hearly
    rw [Bool.not_eq_false] at hmode
    rw [Nat.not_le] at hover
    obtain ⟨hcode, hfile⟩ := fwrite_eq h hmode hover hpos
    have hroom := whole_le_room stride (stride * count) (f.size - f.beg)
    have hbegLe := h.begLe
    have hsome := @whole_ne_zero stride count (f.size - f.beg) hpos
    rw [hcode, hfile]
    generalize whole stride (stride * count) (f.size - f.beg) = k at hroom hsome
    by_cases hk : k = 0
    · rw [if_pos hk, if_pos hk]
      exact ⟨fun _ => ⟨rfl, h⟩, fun _ _ _ _ hle => absurd hk (hsome.mpr hle)⟩
    · rw [if_neg hk, if_neg hk]
      have hfits : f.beg + (data.bytes k).length ≤ f.size := by
        rw [Memory.length_bytes]
        omega
      have hdata : data.bytes k ≠ [] := fun hno => hk (by
        rw [← Memory.length_bytes data k, hno, length_nil])
      constructor
      · exact fun hsafe => ⟨rfl, tracks_put h hdata hfits (hsafe hmode hover hpos (hsome.mp hk))⟩
      · exact fun hagrees _ _ _ _ => (agrees_put_iff h hfits).mp hagrees

theorem step_fseek (h : Tracks f a) (offset : Int) (whence : Whence) :
    (Safe f (.fseek offset whence) →
      Matches (fseek f offset whence) (a.seek offset whence)) ∧
    (Agrees (fseek f offset whence).2 (a.seek offset whence).2 → Safe f (.fseek offset whence)) := by
  have hpos : seekPos a.pos a.content.length offset whence = seekPos f.beg f.fin offset whence := by
    rw [h.pos, h.fin]
  unfold BoundedFile.seek fseek
  rw [hpos]
  by_cases hneg : seekPos f.beg f.fin offset whence < 0
  · rw [if_pos hneg, if_neg fun hno => absurd hno.1 (Int.not_le.mpr hneg)]
    refine ⟨fun _ => ⟨rfl, h.with_error _⟩, fun _ hle => absurd hle (Int.not_le.mpr hneg)⟩
  rw [if_neg hneg]
  -- the length is changed if the position is past it
  have hmax : max f.beg f.fin = f.fin ↔ f.beg ≤ f.fin := max_eq_right_iff
  have hnonneg := Int.not_lt.mp hneg
  by_cases hin : (seekPos f.beg f.fin offset whence).toNat ≤ f.size
  · rw [if_pos hin, if_pos ⟨hnonneg, h.size ▸ hin⟩]
    constructor
    · intro hsafe
      have hsame := hmax.mpr (hsafe hnonneg)
      rw [hsame]
      exact ⟨rfl, { h with pos := rfl, begLe := hin, atEnd := fun hno => by cases hno }⟩
    · intro hagrees _
      exact hmax.mp (hagrees.fin.trans h.fin.symm)
  · rw [if_neg hin, if_neg fun hno => hin (h.size ▸ hno.2)]
    constructor
    · intro hsafe
      have hsame := hmax.mpr (hsafe hnonneg)
      rw [hsame]
      exact ⟨rfl, h.with_error _⟩
    · intro hagrees _
      exact hmax.mp (hagrees.fin.trans h.fin.symm)

theorem step_call (h : Tracks f a) (c : Call) :
    (Safe f c → Matches (c.exec f) (c.spec a)) ∧
      ((c.exec f).1 = (c.spec a).1 → Agrees (c.exec f).2 (c.spec a).2 → Safe f c) := by
  cases c with
  | fread stride count => exact step_fread h stride count
  | fwrite data stride count =>
    exact ⟨(step_fwrite h data stride count).1, fun _ => (step_fwrite h data stride count).2⟩
  | fseek offset whence =>
    exact ⟨(step_fseek h offset whence).1, fun _ => (step_fseek h offset whence).2⟩
  | ftell =>
    refine ⟨fun _ => ⟨?_, h⟩, fun _ _ => trivial⟩
    show Reply.told (toInt64 f.beg) = Reply.told (toInt64 a.pos)
    rw [h.pos]

theorem AllAgree.head : ∀ {cs : List Call}, AllAgree f a cs → Agrees f a
  | [], h => h
  | _ :: _, h => h.1

theorem allAgree_iff (h : Tracks f a) (cs : List Call) : AllAgree f a cs ↔ AllSafe f cs := by
  induction cs generalizing f a with
  | nil => exact iff_of_true h.toAgrees trivial
  | cons c cs ih =>
    obtain ⟨hkeep, hneeds⟩ := step_call h c
    constructor
    · rintro ⟨-, hreply, hrest⟩
      have hsafe := hneeds hreply hrest.head
      exact ⟨hsafe, (ih (hkeep hsafe).2).mp hrest⟩
    · rintro ⟨hsafe, hrest⟩
      obtain ⟨hreply, hnext⟩ := hkeep hsafe
      exact ⟨h.toAgrees, hreply, (ih hnext).mpr hrest⟩

def initial (buf : Option Bytes) (maxSize : Nat) : Bytes := buf.getD (replicate maxSize 0)

theorem tracks_fmemopen {buf : Option Bytes} {maxSize : Nat} {mode : Mode} {calloc : Bool}
    (hbuf : (initial buf maxSize).length = maxSize) (hsize : maxSize < 2 ^ 64)
    (hopen : fmemopen buf maxSize mode calloc = some f) :
    Tracks f (.opened (initial buf maxSize) maxSize mode) := by
  obtain ⟨freebuf, rfl⟩ : ∃ freebuf, f =
      { mode := mode
        buf := if mode.truncates ∧ 0 < maxSize then (initial buf maxSize).set 0 0
          else initial buf maxSize
        size := maxSize
        beg := 0
        fin := if mode.truncates then 0 else maxSize
        state := .fine
        freebuf := freebuf } := by
    unfold fmemopen at hopen
    cases buf with
    | some bytes => exact ⟨false, (Option.some.inj hopen).symm⟩
    | none =>
      simp only at hopen
      split at hopen
      · cases hopen
      · split at hopen
        · cases hopen
        · exact ⟨true, (Option.some.inj hopen).symm⟩
  refine ⟨⟨rfl, ?_, ?_⟩, rfl, rfl, hsize, ?_, Nat.zero_le _, ?_, fun hno => by cases hno⟩
  · unfold BoundedFile.opened
    dsimp only
    split
    · rfl
    · exact hbuf.symm
  · unfold BoundedFile.opened
    dsimp only
    by_cases htrunc : mode.truncates
    · rw [if_pos htrunc, if_pos htrunc, take_zero]
    · rw [if_neg htrunc, if_neg htrunc, if_neg fun hno => htrunc hno.1]
      exact take_of_length_le (Nat.le_of_eq hbuf)
  · dsimp only
    split
    · rw [length_set, hbuf]
    · exact hbuf
  · dsimp only
    split
    · exact Nat.zero_le _
    · exact Nat.le_refl _

/-- A stream from `fmemopen` is a file of bounded size exactly as long as the calls are safe. -/
theorem fmemopen_allAgree_iff_allSafe {buf : Option Bytes} {maxSize : Nat} {mode : Mode}
    {calloc : Bool} (hbuf : (initial buf maxSize).length = maxSize) (hsize : maxSize < 2 ^ 64)
    (hopen : fmemopen buf maxSize mode calloc = some f) (cs : List Call) :
    AllAgree f (.opened (initial buf maxSize) maxSize mode) cs ↔ AllSafe f cs :=
  allAgree_iff (tracks_fmemopen hbuf hsize hopen) cs

/-- Two bytes of three, and again after a seek. -/
theorem fmemopen_reads_again :
    AllAgree ⟨.rPlus, [97, 98, 99], 3, 0, 3, .fine, false⟩
      (.opened (initial (some [97, 98, 99]) 3) 3 .rPlus)
      [.fread 1 2, .ftell, .fseek 0 .set, .fread 2 1] :=
  (@fmemopen_allAgree_iff_allSafe _ (some [97, 98, 99]) 3 .rPlus true rfl (by decide) rfl _).mpr
    ⟨fun _ _ _ _ => Or.inl ⟨by decide, by decide⟩, trivial, fun _ => by decide,
      fun _ _ _ _ => Or.inl ⟨by decide, by decide⟩, trivial⟩

/-- After a read of all bytes the position is 0, and so is the length. -/
theorem read_to_end_loses_length :
    let f : Stream := ⟨.r, [97, 98], 2, 0, 2, .fine, false⟩
    fmemopen (some [97, 98]) 2 .r true = some f ∧
      (fread f 1 2).1 = .read 2 [97, 98] ∧
      (Call.ftell.exec (fread f 1 2).2).1 = .told 0 ∧
      (fread (fseek (fread f 1 2).2 0 .set).2 1 2).1 = .read 0 [] ∧
      ¬ AllAgree f (.opened [97, 98] 2 .r) [.fread 1 2] := by
  refine ⟨rfl, by decide, by decide, by decide, fun hall => ?_⟩
  have hfin := hall.2.2.head.fin
  exact absurd hfin (by decide)

end CosmoRuby.Stdio.Fmem