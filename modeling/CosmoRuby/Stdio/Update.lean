import Mathlib
import CosmoRuby.Stdio.Fmemopen
import CosmoRuby.Stdio.Output

/-!
# Update streams

A stream for reading and writing a regular file has one buffer for both. Its indices tell unread
input, which stands between `beg` and `end`, from output not yet written, which stands before `beg`
while `end` is 0. A regular file takes all bytes of a write and gives all bytes it has to a read. The
stream is compared with the file itself, read and written without a buffer.
-/

open CosmoRuby.Lib

namespace CosmoRuby.Stdio.Update

open List

/-! ## 1. The file -/

/-- A regular file that is open: its bytes, and the offset of the descriptor. -/
structure File where
  content : Bytes
  offset : Nat

def File.write (d : File) (data : Bytes) : File :=
  if data = [] then d
  else ⟨overwrite (d.content ++ replicate (d.offset - d.content.length) 0) d.offset data,
    d.offset + data.length⟩

def File.read (d : File) (n : Nat) : Bytes × File :=
  ((d.content.drop d.offset).take n,
    { d with offset := d.offset + ((d.content.drop d.offset).take n).length })

def File.lseek (d : File) (offset : Int) (whence : Whence) : Except Errno File :=
  let pos : Int :=
    match whence with
    | .set => offset
    | .cur => d.offset + offset
    | .fin => d.content.length + offset
    | .other => -1
  if pos < 0 then .error .einval else .ok { d with offset := pos.toNat }

def File.writev (d : File) (iov : List Bytes) : Except Errno Nat × File :=
  (.ok iov.flatten.length, d.write iov.flatten)

def File.readv (d : File) (iov : List Nat) : Except Errno Bytes × File :=
  (.ok (d.read iov.sum).1, (d.read iov.sum).2)

/-! ## 2. The stream -/

structure Stream where
  buf : Bytes
  size : Nat
  beg : Nat
  fin : Nat
  bufmode : BufMode
  state : Fmem.State

section

variable (f : Stream) (d : File)

def flushOutput : Stream × File :=
  if f.beg ≠ 0 ∧ f.fin = 0 then ({ f with beg := 0 }, d.write (f.buf.take f.beg)) else (f, d)

def fflush : Bool × Stream × File :=
  let (f, d) := flushOutput f d
  if f.beg < f.fin then
    match d.lseek (-(((f.fin - f.beg : Nat) : Int).bmod (2 ^ 32))) .cur with
    | .ok d => (true, { f with fin := f.beg }, d)
    | .error e =>
      if e = .einval then (true, { f with fin := f.beg }, d)
      else (false, { f with state := .error e }, d)
  else (true, { f with fin := f.beg }, d)

inductive Reply where
  | read (items : Nat) (bytes : Bytes)
  | byte (b : Option UInt8)
  | wrote (items : Nat)
  | flushed (ok : Bool)
  | sought (ok : Bool)
deriving DecidableEq

def pushback : Nat := 12

def ahead (n : Nat) : Nat :=
  if f.bufmode ≠ .none ∧ n < f.size then
    if pushback < f.size then f.size - pushback else f.size
  else 0

/-- `fread_unlocked` after the checks: `n` bytes are requested, and no output is pending. -/
def freadFilled (stride count n : Nat) : Reply × Stream × File :=
  let m := (f.fin + 2 ^ 64 - f.beg) % 2 ^ 64
  if n ≤ m then
    (.read count ((f.buf.drop f.beg).take n),
      if f.beg + n = f.fin then { f with beg := 0, fin := 0 } else { f with beg := f.beg + n }, d)
  else
    let r := readvall File.readv (n - m) [n - m, ahead f n] d
    match r.result with
    | .error e => (.read 0 [], { f with state := .error e }, r.sys)
    | .ok got =>
      let state := if r.eof then .eof else match r.failed with
        | some e => .error e
        | none => f.state
      if got.length < n - m then
        (.read ((m + got.length) / stride) ((f.buf.drop f.beg).take m ++ got),
          { f with beg := 0, fin := 0, state := state }, r.sys)
      else
        (.read count ((f.buf.drop f.beg).take m ++ got.take (n - m)),
          { f with
            buf := overwrite f.buf 0 (got.drop (n - m))
            beg := 0
            fin := got.length - (n - m)
            state := state }, r.sys)

def fread (stride count : Nat) : Reply × Stream × File :=
  if f.state = .eof then (.read 0 [], f, d)
  else
    match if f.fin < f.beg then fflush f d else (true, f, d) with
    | (false, f, d) => (.read 0 [], f, d)
    | (true, f, d) =>
      if 2 ^ 64 ≤ stride * count then (.read 0 [], { f with state := .error .eoverflow }, d)
      else if stride * count = 0 then (.read 0 [], f, d)
      else freadFilled f d stride count (stride * count)

def fgetc : Reply × Stream × File :=
  if f.beg < f.fin then (.byte (some (byteAt f.buf f.beg)), { f with beg := f.beg + 1 }, d)
  else
    match fread f d 1 1 with
    | (.read (_ + 1) bytes, f, d) => (.byte bytes.head?, f, d)
    | (_, f, d) => (.byte none, f, d)

def fwriteFilled (data : Bytes) (count : Nat) : Reply × Stream × File :=
  let m := (f.size + 2 ^ 64 - f.beg) % 2 ^ 64
  if data.length ≤ m ∧ f.bufmode ≠ .none then
    let buf := overwrite f.buf f.beg data
    let beg := f.beg + data.length
    match if f.bufmode = .line then lines (buf.take beg) else none with
    | none => (.wrote count, { f with buf := buf, beg := beg }, d)
    | some n =>
      (.wrote count,
        { f with buf := overwrite buf 0 ((buf.take beg).drop n), beg := beg - n },
        d.write (buf.take n))
  else
    let w := writevall File.writev [f.buf.take f.beg, data] d
    match w.result with
    | .error e => (.wrote 0, { f with state := .error e }, w.sys)
    | .ok _ => (.wrote count, { f with beg := 0 }, w.sys)

def fwrite (data : Memory) (stride count : Nat) :
    Reply × Stream × File :=
  match if f.beg < f.fin then fflush f d else (true, f, d) with
  | (false, f, d) => (.wrote 0, f, d)
  | (true, f, d) =>
    if 2 ^ 64 ≤ stride * count then (.wrote 0, { f with state := .error .eoverflow }, d)
    else if stride * count = 0 then (.wrote 0, f, d)
    else fwriteFilled f d (data.bytes (stride * count)) count

def fseek (offset : Int) (whence : Whence) : Reply × Stream × File :=
  match fflush f d with
  | (false, f, d) => (.sought false, f, d)
  | (true, f, d) =>
    let offset := if whence = .cur ∧ f.beg < f.fin then offset - (f.fin - f.beg : Nat) else offset
    match d.lseek offset whence with
    | .ok d => (.sought true, { f with beg := 0, fin := 0, state := .fine }, d)
    | .error e => (.sought false, { f with state := .error e }, d)

inductive Call where
  | fread (stride count : Nat)
  | fgetc
  | fwrite (data : Memory) (stride count : Nat)
  | fflush
  | fseek (offset : Int) (whence : Whence)

def Call.exec : Call → Reply × Stream × File
  | .fread stride count => Update.fread f d stride count
  | .fgetc => Update.fgetc f d
  | .fwrite data stride count => Update.fwrite f d data stride count
  | .fflush => (.flushed (Update.fflush f d).1, (Update.fflush f d).2)
  | .fseek offset whence => Update.fseek f d offset whence

end

/-! ## 3. Without a buffer -/

def Call.spec (a : File) : Call → Reply × File
  | .fread stride count =>
    if 2 ^ 64 ≤ stride * count then (.read 0 [], a)
    else (.read ((a.read (stride * count)).1.length / stride) (a.read (stride * count)).1,
      (a.read (stride * count)).2)
  | .fgetc => (.byte (a.read 1).1.head?, (a.read 1).2)
  | .fwrite data stride count =>
    if 2 ^ 64 ≤ stride * count then (.wrote 0, a)
    else if stride * count = 0 then (.wrote 0, a)
    else (.wrote count, a.write (data.bytes (stride * count)))
  | .fflush => (.flushed true, a)
  | .fseek offset whence =>
    match a.lseek offset whence with
    | .ok a => (.sought true, a)
    | .error _ => (.sought false, a)

/-- Every reply is that of the file without a buffer, and so is the content after a last flush. -/
def AllSame : Stream → File → File → List Call → Prop
  | f, d, a, [] => (fflush f d).2.2.content = a.content
  | f, d, a, c :: cs =>
    (c.exec f d).1 = (c.spec a).1 ∧
      AllSame (c.exec f d).2.1 (c.exec f d).2.2 (c.spec a).2 cs

/-- Nothing is stored behind consumed input, and unread input that is given back can be counted by
an `int`. -/
def Safe (f : Stream) : Call → Prop
  | .fread _ _ => True
  | .fgetc => True
  | .fwrite _ stride count =>
    f.fin - f.beg < 2 ^ 31 ∧
      (stride * count < 2 ^ 64 → stride * count ≠ 0 → f.beg = 0 ∨ f.fin = 0)
  | .fflush => f.fin - f.beg < 2 ^ 31
  | .fseek _ _ => f.fin - f.beg < 2 ^ 31

instance (f : Stream) : ∀ c, Decidable (Safe f c)
  | .fread _ _ => inferInstanceAs (Decidable True)
  | .fgetc => inferInstanceAs (Decidable True)
  | .fwrite _ stride count => inferInstanceAs (Decidable (f.fin - f.beg < 2 ^ 31 ∧
      (stride * count < 2 ^ 64 → stride * count ≠ 0 → f.beg = 0 ∨ f.fin = 0)))
  | .fflush => inferInstanceAs (Decidable (f.fin - f.beg < 2 ^ 31))
  | .fseek _ _ => inferInstanceAs (Decidable (f.fin - f.beg < 2 ^ 31))

def AllSafe : Stream → File → List Call → Prop
  | _, _, [] => True
  | f, d, c :: cs => Safe f c ∧ AllSafe (c.exec f d).2.1 (c.exec f d).2.2 cs

/-! ## 4. Writes and reads of a file -/

variable {p data : Bytes} {off n stride count : Nat}

theorem overwrite_overwrite {x y : Bytes} (h : off ≤ p.length) :
    overwrite (overwrite p off x) (off + x.length) y = overwrite p off (x ++ y) := by
  have hlen : (p.take off ++ x).length = off + x.length := by
    rw [length_append, length_take, Nat.min_eq_left h]
  have hdrop : (p.take off ++ x ++ p.drop (off + x.length)).drop (off + x.length + y.length) =
      p.drop (off + (x ++ y).length) := by
    rw [drop_append, drop_eq_nil_of_le (by omega), nil_append, hlen, drop_drop,
      length_append]
    congr 1
    omega
  unfold overwrite
  rw [hdrop, ← hlen, take_left]
  simp only [append_assoc]

theorem write_nil (d : File) : d.write [] = d := if_pos rfl

theorem write_write (d : File) (x y : Bytes) : (d.write x).write y = d.write (x ++ y) := by
  by_cases hx : x = []
  · rw [hx, write_nil, nil_append]
  by_cases hy : y = []
  · rw [hy, write_nil, append_nil]
  have hxy : x ++ y ≠ [] := fun hno => hx (List.append_eq_nil_iff.mp hno).1
  have hpad : d.offset ≤ (d.content ++ replicate (d.offset - d.content.length) 0).length := by
    rw [length_append, length_replicate]
    omega
  -- after the first write there is nothing to pad
  have hfull : d.offset + x.length - (overwrite
      (d.content ++ replicate (d.offset - d.content.length) 0) d.offset x).length = 0 := by
    rw [length_overwrite hpad]
    omega
  unfold File.write
  rw [if_neg hx, if_neg hy, if_neg hxy]
  dsimp only
  rw [hfull, replicate_zero, append_nil, overwrite_overwrite hpad, length_append,
    Nat.add_assoc]

theorem write_atEnd {d : File} (h : d.content.length ≤ d.offset) (x : Bytes) :
    (d.write x).content.length ≤ (d.write x).offset := by
  unfold File.write
  split
  · exact h
  · dsimp only
    rw [length_overwrite (by rw [length_append, length_replicate]; omega),
      length_append, length_replicate]
    omega

theorem writevall_file (iov : List Bytes) (d : File) :
    (writevall File.writev iov d).result = .ok iov.flatten.length ∧
      (writevall File.writev iov d).sys = d.write iov.flatten := by
  have hroll := rollForward_all iov
  unfold writevall
  simp only [writevallFrom, File.writev, hroll, Nat.zero_add]
  exact ⟨rfl, rfl⟩

theorem read_short {d : File} (h : (d.read n).1.length < n) :
    (d.read n).2.content.length ≤ (d.read n).2.offset := by
  have hlen : ((d.content.drop d.offset).take n).length < n := h
  show d.content.length ≤ d.offset + ((d.content.drop d.offset).take n).length
  rw [length_take, length_drop] at hlen ⊢
  omega

theorem read_atEnd {d : File} (h : d.content.length ≤ d.offset) (n : Nat) :
    d.read n = ([], d) := by
  unfold File.read
  rw [drop_eq_nil_of_le h, take_nil]
  rfl

theorem readvall_file {need more : Nat} (hneed : 0 < need) (d : File) :
    let r := readvall File.readv need [need, more] d
    r.result = .ok (d.read (need + more)).1 ∧ r.sys = (d.read (need + more)).2 ∧
      r.failed = none ∧ r.eof = decide ((d.read (need + more)).1.length < need) := by
  intro r
  have hsum : [need, more].sum = need + more := rfl
  have hr : r = readvallFrom File.readv need ([need, more].sum + 1) [need, more] [] d := rfl
  rw [readvallFrom] at hr
  simp only [File.readv, hsum, nil_append] at hr
  have hle : (d.read (need + more)).1.length ≤ need + more := length_take_le _ _
  have hend := @read_short (need + more) d
  generalize d.read (need + more) = got at *
  split at hr <;> rename_i hnil
  · rw [hr, hnil]
    exact ⟨rfl, rfl, rfl, (decide_eq_true hneed).symm⟩
  by_cases hall : got.1.length = need + more
  · have hroll : rollForwardRead [need, more] got.1.length = ⟨[], false⟩ := by
      rw [hall, ← hsum]
      exact rollForwardRead_all _ (cons_ne_nil _ _)
    rw [hroll, if_pos rfl] at hr
    rw [hr]
    exact ⟨rfl, rfl, rfl, (decide_eq_false (by omega)).symm⟩
  obtain ⟨-, hrest, -⟩ := rollForwardRead_part [need, more] got.1.length (by rw [hsum]; omega)
  rw [if_neg hrest] at hr
  by_cases henough : need ≤ got.1.length
  · rw [if_pos henough] at hr
    rw [hr]
    exact ⟨rfl, rfl, rfl, (decide_eq_false (Nat.not_lt.mpr henough)).symm⟩
  -- a second call meets the end of the file
  rw [if_neg henough] at hr
  obtain ⟨fuel, hfuel⟩ : ∃ fuel, need + more = fuel + 1 := ⟨need + more - 1, by omega⟩
  have hlast : readvallFrom File.readv need (need + more) (rollForwardRead [need, more] got.1.length).rest
      got.1 got.2 = ⟨.ok got.1, true, none, got.2, false⟩ := by
    rw [hfuel, readvallFrom]
    simp only [File.readv, read_atEnd (hend (Nat.lt_of_le_of_ne hle hall)), if_pos]
  rw [hlast] at hr
  rw [hr]
  exact ⟨rfl, rfl, rfl, (decide_eq_true (Nat.lt_of_not_le henough)).symm⟩

/-! ## 5. The invariant -/

/-- Unread input is the next part of the file, and the descriptor is behind it. -/
structure Reading (f : Stream) (d a : File) : Prop where
  order : f.beg ≤ f.fin
  content : d.content = a.content
  offset : d.offset = a.offset + (f.fin - f.beg)
  unread : (f.buf.drop f.beg).take (f.fin - f.beg) =
    (a.content.drop a.offset).take (f.fin - f.beg)

structure Writing (f : Stream) (d a : File) : Prop where
  fin : f.fin = 0
  begLe : f.beg ≤ f.size
  pending : a = d.write (f.buf.take f.beg)

structure Sync (f : Stream) (d a : File) : Prop where
  length : f.buf.length = f.size
  bound : f.size < 2 ^ 64
  finLe : f.fin ≤ f.size
  mode : Reading f d a ∨ Writing f d a
  atEnd : f.state = .eof → a.content.length ≤ a.offset

variable {f : Stream} {d a : File}

theorem reading_idle (f : Stream) (a : File) (h : f.fin = f.beg) : Reading f a a := by
  refine ⟨Nat.le_of_eq h.symm, rfl, ?_, ?_⟩
  · rw [h, Nat.sub_self, Nat.add_zero]
  · rw [h, Nat.sub_self, take_zero, take_zero]

theorem Reading.eq_of_idle (h : Reading f d a) (hidle : f.fin = f.beg) : d = a := by
  have hoffset := h.offset
  rw [hidle, Nat.sub_self, Nat.add_zero] at hoffset
  cases d
  cases a
  exact (File.mk.injEq _ _ _ _).mpr ⟨h.content, hoffset⟩

theorem Writing.eq_of_empty (h : Writing f d a) (hempty : f.beg = 0) : a = d := by
  rw [h.pending, hempty, take_zero, write_nil]

theorem Sync.with_error (h : Sync f d a) (e : Errno) :
    Sync { f with state := .error e } d a := by
  refine ⟨h.length, h.bound, h.finLe, ?_, fun hno => by cases hno⟩
  rcases h.mode with hmode | hmode
  · exact Or.inl { hmode with }
  · exact Or.inr { hmode with }

theorem fflush_spec (h : Sync f d a) (hcount : f.fin - f.beg < 2 ^ 31) :
    ∃ b, fflush f d = (true, { f with beg := b, fin := b }, a) ∧ b ≤ f.size ∧
      (f.beg = 0 ∨ f.fin = 0 → b = 0) := by
  have hfinLe := h.finLe
  unfold fflush flushOutput
  rcases h.mode with hmode | hmode
  · have horder := hmode.order
    rw [if_neg fun hno => by omega]
    dsimp only
    by_cases hunread : f.beg < f.fin
    · have hint : ((f.fin - f.beg : Nat) : Int).bmod (2 ^ 32) = (f.fin - f.beg : Nat) :=
        Int.bmod_eq_of_le (by omega) (by omega)
      have hseek : d.lseek (-((f.fin - f.beg : Nat) : Int)) .cur = .ok a := by
        have hoffset := hmode.offset
        unfold File.lseek
        dsimp only
        rw [if_neg (by omega), hmode.content]
        have hpos : ((d.offset : Int) + -((f.fin - f.beg : Nat) : Int)).toNat = a.offset := by omega
        rw [hpos]
      rw [if_pos hunread, hint, hseek]
      exact ⟨f.beg, rfl, by omega, by omega⟩
    · have heq : f.fin = f.beg := by omega
      rw [if_neg hunread, hmode.eq_of_idle heq]
      exact ⟨f.beg, rfl, by omega, by omega⟩
  · have hfin := hmode.fin
    by_cases hbeg : f.beg = 0
    · rw [if_neg fun hno => hno.1 hbeg]
      dsimp only
      rw [if_neg (by omega), hmode.eq_of_empty hbeg]
      exact ⟨f.beg, rfl, hmode.begLe, fun _ => hbeg⟩
    · rw [if_pos ⟨hbeg, hfin⟩]
      dsimp only
      rw [if_neg (by omega), ← hmode.pending]
      exact ⟨0, rfl, Nat.zero_le _, fun _ => rfl⟩

theorem fflush_content (h : Sync f d a) : (fflush f d).2.2.content = a.content := by
  have hseek : ∀ (d : File) (offset : Int) (d' : File), d.lseek offset .cur = .ok d' →
      d'.content = d.content := by
    intro d offset d' hd
    unfold File.lseek at hd
    dsimp only at hd
    split at hd
    · cases hd
    · rw [← Except.ok.inj hd]
  rcases h.mode with hmode | hmode
  · have horder := hmode.order
    unfold fflush flushOutput
    rw [if_neg fun hno => by omega]
    dsimp only
    split
    · split
      · next hd => rw [← hmode.content]; exact hseek _ _ _ hd
      · split
        · exact hmode.content
        · exact hmode.content
    · exact hmode.content
  · have hfin := hmode.fin
    obtain ⟨b, hflush, -, -⟩ := fflush_spec h (by omega)
    rw [hflush]

theorem sync_idle (h : Sync f d a) {b : Nat} (hb : b ≤ f.size) :
    Sync { f with beg := b, fin := b } a a :=
  ⟨h.length, h.bound, hb, Or.inl (reading_idle _ a rfl), h.atEnd⟩

/-! ## 6. Reading -/

theorem Reading.length_unread (h : Reading f d a) (hlen : f.buf.length = f.size)
    (hfin : f.fin ≤ f.size) : f.fin - f.beg ≤ (a.content.drop a.offset).length := by
  have hunread := congrArg List.length h.unread
  have horder := h.order
  rw [length_take, length_take, length_drop, hlen] at hunread
  omega

theorem read_buffered (h : Sync f d a) (hread : Reading f d a) (hn : n ≤ f.fin - f.beg) :
    (f.buf.drop f.beg).take n = (a.read n).1 ∧ (a.read n).1.length = n ∧
      Reading { f with beg := f.beg + n } d (a.read n).2 := by
  have horder := hread.order
  have hlen := hread.length_unread h.length h.finLe
  have hbytes : (f.buf.drop f.beg).take n = (a.content.drop a.offset).take n := by
    have htake := congrArg (List.take n) hread.unread
    rwa [take_take, take_take, Nat.min_eq_left hn] at htake
  have hcount : (a.read n).1.length = n := by
    show (List.take _ _).length = n
    rw [length_take]
    omega
  have hrest : f.fin - (f.beg + n) = f.fin - f.beg - n := by omega
  refine ⟨hbytes, hcount, ⟨?_, hread.content, ?_, ?_⟩⟩
  · show f.beg + n ≤ f.fin
    omega
  · show d.offset = a.offset + (a.read n).1.length + (f.fin - (f.beg + n))
    rw [hcount, hread.offset]
    omega
  · show (f.buf.drop (f.beg + n)).take (f.fin - (f.beg + n)) =
      (a.content.drop (a.offset + (a.read n).1.length)).take (f.fin - (f.beg + n))
    have hdrop := congrArg (List.drop n) hread.unread
    rw [drop_take, drop_take, drop_drop, drop_drop] at hdrop
    rw [hcount, hrest]
    exact hdrop

theorem read_split (a : File) (m k : Nat) :
    (a.read (m + k)).1 = (a.content.drop a.offset).take m ++
      (a.content.drop (a.offset + m)).take k := by
  show (a.content.drop a.offset).take (m + k) = _
  rw [take_add, drop_drop]

theorem ahead_le (f : Stream) (n : Nat) : ahead f n ≤ f.size := by
  unfold ahead
  split
  · split
    · exact Nat.sub_le _ _
    · exact Nat.le_refl _
  · exact Nat.zero_le _

theorem take_length_take (c : Bytes) (k : Nat) : c.take (c.take k).length = c.take k := by
  rw [length_take, ← take_eq_take_min]

theorem Reading.read_behind (h : Reading f d a) (k : Nat) :
    (d.read k).1 = (a.content.drop (a.offset + (f.fin - f.beg))).take k ∧
      (d.read k).2 = ⟨a.content, a.offset + (f.fin - f.beg) + (d.read k).1.length⟩ := by
  have hgot : (d.read k).1 = (a.content.drop (a.offset + (f.fin - f.beg))).take k := by
    show (d.content.drop d.offset).take k = _
    rw [h.content, h.offset]
  refine ⟨hgot, ?_⟩
  show (⟨d.content, d.offset + _⟩ : File) = _
  rw [h.content, h.offset, hgot]

/-- A call on the stream and the same on the file: the reply, and what is left. -/
def Agrees (r : Reply × Stream × File) (r' : Reply × File) : Prop := r.1 = r'.1 ∧ Sync r.2.1 r.2.2 r'.2

def readReply (a : File) (stride n : Nat) : Reply × File :=
  (.read ((a.read n).1.length / stride) (a.read n).1, (a.read n).2)

section

variable (h : Sync f d a) (hread : Reading f d a) (hn : stride * count = n)
  (heof : f.state ≠ .eof) (hpos : n ≠ 0)
include h hread hn heof hpos

theorem sync_freadBuffered (hfits : n ≤ f.fin - f.beg) :
    Agrees (freadFilled f d stride count n) (readReply a stride n) := by
  have hbound := h.bound
  have hfinLe := h.finLe
  have horder := hread.order
  have hstride : 0 < stride := Nat.pos_of_ne_zero (left_ne_zero_of_mul (hn.trans_ne hpos))
  have hm : (f.fin + 2 ^ 64 - f.beg) % 2 ^ 64 = f.fin - f.beg := by omega
  obtain ⟨hbytes, hcount, hnext⟩ := read_buffered h hread hfits
  unfold Agrees readReply freadFilled
  rw [hm, if_pos hfits]
  refine ⟨?_, ?_⟩
  · show Reply.read count ((f.buf.drop f.beg).take (n)) = _
    rw [hbytes, hcount, Nat.div_eq_of_eq_mul_right hstride hn.symm]
  · dsimp only
    split_ifs with hdrained
    · rw [← hnext.eq_of_idle hdrained.symm]
      exact ⟨h.length, hbound, Nat.zero_le _, Or.inl (reading_idle _ d rfl),
        fun hno => absurd hno heof⟩
    · exact ⟨h.length, hbound, hfinLe, Or.inl hnext, fun hno => absurd hno heof⟩

theorem sync_freadAhead (hmore : f.fin - f.beg < n) :
    Agrees (freadFilled f d stride count n) (readReply a stride n) := by
  have hbound := h.bound
  have hfinLe := h.finLe
  have horder := hread.order
  have hlength := h.length
  have hstride : 0 < stride := Nat.pos_of_ne_zero (left_ne_zero_of_mul (hn.trans_ne hpos))
  have hm : (f.fin + 2 ^ 64 - f.beg) % 2 ^ 64 = f.fin - f.beg := by omega
  obtain ⟨need, hneed⟩ : ∃ need, n = f.fin - f.beg + need := Nat.exists_eq_add_of_le hmore.le
  have hsub : n - (f.fin - f.beg) = need := by omega
  obtain ⟨hresult, hsys, hfailed, heofs⟩ := @readvall_file need (ahead f n) (by omega) d
  obtain ⟨hgot, hnext⟩ := hread.read_behind (need + ahead f n)
  unfold Agrees readReply freadFilled
  rw [hm, if_neg (Nat.not_le.mpr hmore), hsub]
  dsimp only
  rw [hresult, hsys, hfailed, heofs, hnext]
  dsimp only
  have hsplit := read_split a (f.fin - f.beg) need
  rw [← hneed, ← hread.unread] at hsplit
  have hfirst : ((f.buf.drop f.beg).take (f.fin - f.beg)).length = f.fin - f.beg := by
    rw [length_take, length_drop]
    omega
  have hafter : (a.read n).2 = ⟨a.content, a.offset + (a.read n).1.length⟩ := rfl
  generalize (d.read (need + ahead f n)).1 = got at hgot ⊢
  split <;> rename_i hshort
  · -- what is left of the file is all read
    have hsame : (a.content.drop (a.offset + (f.fin - f.beg))).take need = got := by
      rw [hgot, length_take] at hshort
      rw [hgot, take_of_length_le (by omega), take_of_length_le (by omega)]
    rw [hsame] at hsplit
    have hlen : (a.read n).1.length = f.fin - f.beg + got.length := by
      rw [hsplit, length_append, hfirst]
    refine ⟨?_, ?_⟩
    · show Reply.read _ _ = _
      rw [hlen, hsplit]
    · have hshortRead : (a.read n).1.length < n := by omega
      have hend := read_short hshortRead
      rw [hafter, hlen, ← Nat.add_assoc] at hend ⊢
      exact ⟨hlength, hbound, Nat.zero_le _, .inl (reading_idle _ _ rfl), fun _ => hend⟩
  · have hsame : (a.content.drop (a.offset + (f.fin - f.beg))).take
        need = got.take need := by
      rw [hgot, take_take, Nat.min_eq_left (Nat.le_add_right _ _)]
    rw [hsame] at hsplit
    have hlen : (a.read n).1.length = n := by
      rw [hsplit, length_append, hfirst, length_take]
      omega
    -- the rest stays in the buffer, as the next part of the file
    have hextra : (got.drop need).length = got.length - need := length_drop
    have hrest : got.drop need = (a.content.drop (a.offset + n)).take (ahead f n) := by
      have hoff : a.offset + (f.fin - f.beg) + need = a.offset + n := by omega
      rw [hgot, drop_take, drop_drop, Nat.add_sub_cancel_left, hoff]
    have hrestLe : got.length - need ≤ f.size := by
      rw [← hextra, hrest]
      exact Nat.le_trans (length_take_le _ _) (ahead_le f n)
    have hstate : (if decide (got.length < need) = true then Fmem.State.eof else f.state) = f.state :=
      if_neg (by rw [decide_eq_true_iff]; exact hshort)
    refine ⟨?_, ?_⟩
    · show Reply.read _ _ = _
      rw [hlen, hsplit, Nat.div_eq_of_eq_mul_right hstride hn.symm]
    · rw [hafter, hlen]
      refine ⟨?_, hbound, hrestLe, .inl ⟨Nat.zero_le _, rfl, ?_, ?_⟩, ?_⟩
      · show (overwrite f.buf 0 _).length = f.size
        rw [length_overwrite (Nat.zero_le _), hextra]
        omega
      · show a.offset + (f.fin - f.beg) + got.length = a.offset + n + (got.length - need - 0)
        omega
      · show ((overwrite f.buf 0 (got.drop need)).drop 0).take (got.length - need - 0) =
          (a.content.drop (a.offset + n)).take (got.length - need - 0)
        unfold overwrite
        rw [Nat.sub_zero, drop_zero, take_zero, nil_append, ← hextra,
          take_left, hrest, take_length_take]
      · intro hno
        exact absurd (hstate.symm.trans hno) heof

theorem sync_freadFilled : Agrees (freadFilled f d stride count n) (readReply a stride n) := by
  rcases Nat.lt_or_ge (f.fin - f.beg) (n) with hmore | hfits
  · exact sync_freadAhead h hread hn heof hpos hmore
  · exact sync_freadBuffered h hread hn heof hpos hfits

end

theorem sync_fread (h : Sync f d a) (stride count : Nat) :
    Agrees (fread f d stride count) (Call.spec a (.fread stride count)) := by
  have hspec : Call.spec a (.fread stride count) =
      if 2 ^ 64 ≤ stride * count then (.read 0 [], a)
      else readReply a stride (stride * count) := rfl
  rw [hspec]
  unfold fread
  split <;> rename_i heof
  · rw [readReply, read_atEnd (h.atEnd heof), length_nil, Nat.zero_div, ite_self]
    exact ⟨rfl, h⟩
  -- pending output goes out first
  obtain ⟨f', d', hflush, hsync, hreading, hstate⟩ : ∃ f' d',
      (if f.fin < f.beg then fflush f d else (true, f, d)) = (true, f', d') ∧ Sync f' d' a ∧
        Reading f' d' a ∧ f'.state = f.state := by
    by_cases hout : f.fin < f.beg
    · obtain ⟨b, hb, hle, -⟩ := fflush_spec h (by omega)
      rw [if_pos hout, hb]
      exact ⟨_, _, rfl, sync_idle h hle, reading_idle _ a rfl, rfl⟩
    · rw [if_neg hout]
      rcases h.mode with hmode | hmode
      · exact ⟨_, _, rfl, h, hmode, rfl⟩
      · have hfin := hmode.fin
        have hbeg : f.beg = 0 := by omega
        refine ⟨_, _, rfl, h, ?_, rfl⟩
        rw [hmode.eq_of_empty hbeg]
        exact reading_idle f d (by omega)
  rw [hflush]
  dsimp only
  by_cases hover : 2 ^ 64 ≤ stride * count
  · rw [if_pos hover, if_pos hover]
    exact ⟨rfl, hsync.with_error _⟩
  rw [if_neg hover, if_neg hover]
  by_cases hzero : stride * count = 0
  · have hnone : a.read 0 = ([], a) := by
      unfold File.read
      rw [take_zero]
      rfl
    rw [if_pos hzero, hzero, readReply, hnone, length_nil, Nat.zero_div]
    exact ⟨rfl, hsync⟩
  · rw [if_neg hzero]
    exact sync_freadFilled hsync hreading rfl (by rw [hstate]; exact heof) hzero

theorem sync_fgetc (h : Sync f d a) : Agrees (fgetc f d) (Call.spec a .fgetc) := by
  rw [Call.spec]
  unfold fgetc
  split_ifs with hunread
  · have hreading : Reading f d a := by
      rcases h.mode with hmode | hmode
      · exact hmode
      · have hfin := hmode.fin
        omega
    obtain ⟨hbytes, -, hnext⟩ := @read_buffered 1 f d a h hreading (by omega)
    have hlength := h.length
    have hfinLe := h.finLe
    refine ⟨?_, h.length, h.bound, h.finLe, Or.inl hnext, fun hno => ?_⟩
    · show Reply.byte _ = Reply.byte _
      rw [← hbytes, drop_byteAt f.buf f.beg (by omega)]
      rfl
    · have hend := h.atEnd hno
      have hlen := hreading.length_unread h.length h.finLe
      rw [length_drop] at hlen
      omega
  · obtain ⟨hreply, hsync⟩ := sync_fread h 1 1
    have hone : Call.spec a (.fread 1 1) =
        (.read ((a.read 1).1.length / 1) (a.read 1).1, (a.read 1).2) := rfl
    rw [hone, Nat.div_one] at hreply
    rw [hone] at hsync
    generalize fread f d 1 1 = r at hreply hsync
    obtain ⟨reply, f', d'⟩ := r
    have hr : reply = .read (a.read 1).1.length (a.read 1).1 := hreply
    subst hr
    cases hbytes : (a.read 1).1 with
    | nil | cons x xs => exact ⟨rfl, hsync⟩

/-! ## 7. Writing -/

theorem take_overwrite (h : off ≤ p.length) :
    (overwrite p off data).take (off + data.length) = p.take off ++ data := by
  have hlen : (p.take off ++ data).length = off + data.length := by
    rw [length_append, length_take, Nat.min_eq_left h]
  unfold overwrite
  rw [← hlen, take_left]

section

variable (h : Sync f d a)
include h

theorem sync_fwriteFilled (hwriting : Writing f d a) (count : Nat) (hdata : data ≠ []) :
    Agrees (fwriteFilled f d data count) (.wrote count, a.write data) := by
  have hbound := h.bound
  have hlength := h.length
  have hbegLe := hwriting.begLe
  have hfin := hwriting.fin
  have hpos : 0 < data.length := List.length_pos_iff.mpr hdata
  have hm : (f.size + 2 ^ 64 - f.beg) % 2 ^ 64 = f.size - f.beg := by omega
  have hafter : a.write data = d.write (f.buf.take f.beg ++ data) := by
    rw [hwriting.pending, write_write]
  have hatEnd : f.state = .eof → (a.write data).content.length ≤ (a.write data).offset :=
    fun heof => write_atEnd (h.atEnd heof) data
  unfold fwriteFilled
  rw [hm]
  dsimp only
  split <;> rename_i hfits
  · have hroom := hfits.1
    set filled := overwrite f.buf f.beg data with hfilled
    set pending := filled.take (f.beg + data.length) with hpending
    have hover : filled.length = f.size := by
      rw [hfilled, length_overwrite (by omega)]
      omega
    have htake : pending = f.buf.take f.beg ++ data := take_overwrite (by omega)
    split
    · refine ⟨rfl, hover, hbound, h.finLe, .inr ⟨hfin, ?_, ?_⟩, hatEnd⟩
      · show f.beg + data.length ≤ f.size
        omega
      · show a.write data = d.write pending
        rw [htake, hafter]
    · next n hlines =>
      -- whole lines go out, the rest moves to the front
      have hn : n ≤ f.beg + data.length := by
        split at hlines
        · have hle := (lines_le hlines).2
          rw [hpending, length_take] at hle
          omega
        · cases hlines
      have hrestLen : (pending.drop n).length = f.beg + data.length - n := by
        rw [length_drop, hpending, length_take, hover]
        omega
      refine ⟨rfl, ?_, hbound, h.finLe, .inr ⟨hfin, ?_, ?_⟩, hatEnd⟩
      · show (overwrite filled 0 _).length = f.size
        rw [length_overwrite (Nat.zero_le _), hrestLen, hover]
        omega
      · show f.beg + data.length - n ≤ f.size
        omega
      · show a.write data = (d.write (filled.take n)).write
          ((overwrite filled 0 (pending.drop n)).take (f.beg + data.length - n))
        have hfront := @take_overwrite filled (pending.drop n) 0 (Nat.zero_le _)
        rw [hrestLen, Nat.zero_add, take_zero, nil_append] at hfront
        have hpart : filled.take n = pending.take n := by
          rw [hpending, take_take, Nat.min_eq_left hn]
        rw [hfront, write_write, hpart, take_append_drop, htake, hafter]
  · obtain ⟨hresult, hsys⟩ := writevall_file [f.buf.take f.beg, data] d
    rw [hresult, hsys, flatten_pair, ← hafter]
    exact ⟨rfl, hlength, hbound, h.finLe, .inl (reading_idle _ _ hfin), hatEnd⟩

theorem sync_fwrite {data : Memory} (hsafe : Safe f (.fwrite data stride count)) :
    Agrees (fwrite f d data stride count) (Call.spec a (.fwrite data stride count)) := by
  obtain ⟨hcount, hfree⟩ := hsafe
  rw [Call.spec]
  -- unread input is given back first
  obtain ⟨f', d', hflush, hsync, hwriting⟩ : ∃ f' d',
      (if f.beg < f.fin then fflush f d else (true, f, d)) = (true, f', d') ∧ Sync f' d' a ∧
        (f.beg = 0 ∨ f.fin = 0 → Writing f' d' a) := by
    by_cases hin : f.beg < f.fin
    · obtain ⟨b, hb, hle, hzero⟩ := fflush_spec h hcount
      rw [if_pos hin, hb]
      refine ⟨_, _, rfl, sync_idle h hle, fun hor => ?_⟩
      have hb0 := hzero hor
      subst hb0
      refine ⟨rfl, Nat.zero_le _, ?_⟩
      show a = a.write (f.buf.take 0)
      rw [take_zero, write_nil]
    · rw [if_neg hin]
      refine ⟨_, _, rfl, h, fun hor => ?_⟩
      rcases h.mode with hmode | hmode
      · have horder := hmode.order
        have hbeg : f.beg = 0 := by omega
        have hfin : f.fin = 0 := by omega
        refine ⟨hfin, by omega, ?_⟩
        rw [hbeg, take_zero, write_nil, hmode.eq_of_idle (hfin.trans hbeg.symm)]
      · exact hmode
  unfold fwrite
  rw [hflush]
  dsimp only
  by_cases hover : 2 ^ 64 ≤ stride * count
  · rw [if_pos hover, if_pos hover]
    exact ⟨rfl, hsync.with_error _⟩
  rw [if_neg hover, if_neg hover]
  by_cases hzero : stride * count = 0
  · rw [if_pos hzero, if_pos hzero]
    exact ⟨rfl, hsync⟩
  rw [if_neg hzero, if_neg hzero]
  refine sync_fwriteFilled hsync (hwriting (hfree (Nat.lt_of_not_le hover) hzero)) count ?_
  intro hno
  rw [← Memory.length_bytes data (stride * count), hno] at hzero
  exact hzero rfl

/-! ## 8. Every call -/

theorem sync_fseek (offset : Int) (whence : Whence) (hcount : f.fin - f.beg < 2 ^ 31) :
    Agrees (fseek f d offset whence) (Call.spec a (.fseek offset whence)) := by
  obtain ⟨b, hb, hle, -⟩ := fflush_spec h hcount
  rw [Call.spec]
  unfold fseek
  rw [hb]
  dsimp only
  rw [if_neg fun hno => Nat.lt_irrefl _ hno.2]
  cases a.lseek offset whence with
  | error e => exact ⟨rfl, (sync_idle h hle).with_error e⟩
  | ok a' =>
    exact ⟨rfl, h.length, h.bound, Nat.zero_le _, Or.inl (reading_idle _ a' rfl),
      fun hno => by cases hno⟩

theorem sync_call (c : Call) (hsafe : Safe f c) : Agrees (c.exec f d) (c.spec a) := by
  cases c with
  | fread stride count => exact sync_fread h stride count
  | fgetc => exact sync_fgetc h
  | fwrite data stride count => exact sync_fwrite h hsafe
  | fflush =>
    obtain ⟨b, hb, hle, -⟩ := fflush_spec h hsafe
    show Reply.flushed (fflush f d).1 = _ ∧ Sync (fflush f d).2.1 (fflush f d).2.2 a
    rw [hb]
    exact ⟨rfl, sync_idle h hle⟩
  | fseek offset whence => exact sync_fseek h offset whence hsafe

theorem allSame_of_sync (cs : List Call) (hsafe : AllSafe f d cs) : AllSame f d a cs := by
  induction cs generalizing f d a with
  | nil => exact fflush_content h
  | cons c cs ih =>
    obtain ⟨hreply, hnext⟩ := sync_call h c hsafe.1
    exact ⟨hreply, ih hnext hsafe.2⟩

end

def opened (buf : Bytes) (bufmode : BufMode) : Stream := ⟨buf, buf.length, 0, 0, bufmode, .fine⟩

/-- An update stream is the file, as long as nothing is stored behind consumed input. -/
theorem update_allSame_of_allSafe (buf : Bytes) (hbuf : buf.length < 2 ^ 64) (bufmode : BufMode)
    (d : File) (cs : List Call) (hsafe : AllSafe (opened buf bufmode) d cs) :
    AllSame (opened buf bufmode) d d cs :=
  allSame_of_sync
    ⟨rfl, hbuf, Nat.zero_le _, Or.inl (reading_idle _ d rfl), fun hno => by cases hno⟩ cs hsafe

/-- A seek between reading and writing. -/
theorem update_seek_between :
    AllSame (opened (replicate 16 0) .full) ⟨[97, 98, 99], 0⟩ ⟨[97, 98, 99], 0⟩
      [.fgetc, .fgetc, .fseek 0 .cur, .fwrite (fun _ => 88) 1 1, .fflush] :=
  update_allSame_of_allSafe (replicate 16 0) (by decide) .full ⟨[97, 98, 99], 0⟩ _
    ⟨trivial, trivial, by decide, by decide, by decide, trivial⟩

def run (f : Stream) (d : File) : List Call → Stream × File
  | [] => (f, d)
  | c :: cs => run (c.exec f d).2.1 (c.exec f d).2.2 cs

def runSpec (a : File) : List Call → File
  | [] => a
  | c :: cs => runSpec (c.spec a).2 cs

theorem AllSame.content {cs : List Call} (h : AllSame f d a cs) :
    (fflush (run f d cs).1 (run f d cs).2).2.2.content = (runSpec a cs).content := by
  induction cs generalizing f d a with
  | nil => exact h
  | cons c cs ih => exact ih h.2

/-- Two bytes of `abc` are read and one is written: the flush drops it. -/
theorem write_after_read_is_lost :
    let f := opened (replicate 16 0) .full
    let d : File := ⟨[97, 98, 99], 0⟩
    let cs : List Call := [.fgetc, .fgetc, .fwrite (fun _ => 88) 1 1]
    (fflush (run f d cs).1 (run f d cs).2).2.2.content = [97, 98, 99] ∧
      (runSpec d cs).content = [97, 98, 88] ∧ ¬ AllSame f d d cs := by
  intro f d cs
  have hkept : (fflush (run f d cs).1 (run f d cs).2).2.2.content = [97, 98, 99] := by decide
  have hfile : (runSpec d cs).content = [97, 98, 88] := by decide
  refine ⟨hkept, hfile, fun hall => ?_⟩
  have hsame := hall.content
  rw [hkept, hfile] at hsame
  exact absurd hsame (by decide)

end CosmoRuby.Stdio.Update