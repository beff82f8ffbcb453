import Mathlib
import CosmoRuby.Stdio.Iovec

/-!
# Streams over a growing block

`open_memstream` makes a stream whose buffer is a block of the heap. `fwrite_unlocked` and
`fseek_unlocked` grow the block with `realloc`, which may move it, and each of them has its own code
for this. A stream with such a buffer is compared with a byte array and a position.
-/

open CosmoRuby.Lib

namespace CosmoRuby.Stdio

open List

abbrev Memory := Nat → UInt8

def Memory.bytes (m : Memory) (n : Nat) : Bytes := (List.range n).map m

@[simp] theorem Memory.length_bytes (m : Memory) (n : Nat) : (m.bytes n).length = n := by
  rw [Memory.bytes, length_map, length_range]

def overwrite (p : Bytes) (off : Nat) (data : Bytes) : Bytes :=
  p.take off ++ data ++ p.drop (off + data.length)

variable {data : Bytes} {off : Nat}

theorem length_overwrite {p : Bytes} (h : off ≤ p.length) :
    (overwrite p off data).length = max p.length (off + data.length) := by
  simp only [overwrite, length_append, length_take, length_drop]
  omega

theorem overwrite_append_zeros {c : Bytes} {k : Nat} (h : off ≤ c.length) :
    overwrite (c ++ replicate k 0) off data =
      overwrite c off data ++ replicate (k - (off + data.length - c.length)) 0 := by
  unfold overwrite
  rw [take_append_of_le_length h, drop_append, drop_replicate]
  simp only [append_assoc]

theorem overwrite_at_end (c data junk : Bytes) (h : junk.length = data.length) :
    overwrite (c ++ junk) c.length data = c ++ data := by
  unfold overwrite
  rw [take_left, drop_eq_nil_of_le, append_nil]
  rw [length_append, h]

/-! ## 1. The block -/

/-- The heap as the stream sees it: the block that is live, and whether all stores so far went into
the block that was live then. -/
structure Heap where
  block : Nat
  bytes : Bytes
  sound : Bool

def Heap.store (h : Heap) (p off : Nat) (data : Bytes) : Heap :=
  if data = [] then h
  else if p = h.block ∧ off + data.length ≤ h.bytes.length then
    { h with bytes := overwrite h.bytes off data }
  else { h with sound := false }

/-- The answer of `realloc`: nothing, or the block and what the memory behind the old bytes holds. -/
abbrev Answer := Option (Nat × Memory)

def Heap.realloc (h : Heap) (p n : Nat) : Answer → Option Nat × Heap
  | none => (none, h)
  | some (q, junk) =>
    (some q, ⟨q, (h.bytes ++ junk.bytes (n - h.bytes.length)).take n,
      h.sound && decide (p = h.block)⟩)

def Heap.reallocInPlace (h : Heap) (n : Nat) : Option Memory → Heap
  | none => h
  | some junk => { h with bytes := (h.bytes ++ junk.bytes (n - h.bytes.length)).take n }

/-! ## 2. The stream -/

/-- The fields of a stream from `open_memstream`, with the caller's `*bufp` and `*sizep`. -/
structure Memstream where
  buf : Nat
  size : Nat
  beg : Nat
  fin : Nat
  state : Option Errno
  bufp : Nat
  sizep : Nat
  heap : Heap

def openMemstream (block : Nat) : Memstream where
  buf := block
  size := 16
  beg := 0
  fin := 0
  state := none
  bufp := block
  sizep := 0
  heap := ⟨block, replicate 16 0, true⟩

/-- The new size in `fwrite_unlocked`; nothing if it overflows. Every pass adds a byte at least. -/
def growSize : Nat → Nat → Nat → Option Nat
  | 0, size2, _ => some size2
  | fuel + 1, size2, need =>
    if 2 ^ 64 ≤ size2 + size2 / 2 then none
    else if size2 + size2 / 2 < need then growSize fuel (size2 + size2 / 2) need
    else some (size2 + size2 / 2)

def growSeek : Nat → Nat → Nat → Nat
  | 0, size2, _ => size2
  | fuel + 1, size2, need =>
    if (size2 + size2 / 2) % 2 ^ 64 < need then growSeek fuel ((size2 + size2 / 2) % 2 ^ 64) need
    else (size2 + size2 / 2) % 2 ^ 64

def extend (f : Memstream) (n : Nat) (answer : Answer) : Except Memstream Memstream :=
  if 2 ^ 64 ≤ f.beg + n + 1 then .error { f with state := some .eoverflow }
  else if f.beg + n + 1 ≤ f.size then .ok f
  else
    match growSize (f.beg + n + 1) f.size (f.beg + n + 1) with
    | none => .error { f with state := some .eoverflow }
    | some size2 =>
      match f.heap.realloc f.buf size2 answer with
      | (none, heap) => .error { f with state := some .enomem, heap := heap }
      | (some buf2, heap) =>
        .ok { f with
          buf := buf2
          bufp := buf2
          size := size2
          heap := heap.store buf2 f.size (replicate (size2 - f.size) 0) }

def Memstream.put (f : Memstream) (data : Bytes) : Memstream :=
  { f with
    beg := f.beg + data.length
    fin := if f.fin < f.beg + data.length then f.beg + data.length else f.fin
    heap := f.heap.store f.buf f.beg data }

def fwriteUnlocked (f : Memstream) (data : Memory) (stride count : Nat) (answer : Answer) :
    Nat × Memstream :=
  let n := stride * count
  if 2 ^ 64 ≤ n then (0, { f with state := some .eoverflow })
  else if n = 0 then (0, f)
  else
    match extend f n answer with
    | .error f => (0, f)
    | .ok f =>
      let m := (f.size + 2 ^ 64 - f.beg) % 2 ^ 64
      if n ≤ m then (count, f.put (data.bytes n))
      else
        -- an in-memory stream stores as many whole items as it can hold
        let fits := min n m - min n m % stride
        (min n m / stride, if fits = 0 then f else f.put (data.bytes fits))

inductive Whence where
  | set
  | cur
  | fin
  | other
deriving DecidableEq

def toInt64 (x : Int) : Int := x.bmod (2 ^ 64)

def seekPos (beg fin : Nat) (offset : Int) : Whence → Int
  | .set => toInt64 offset
  | .cur => toInt64 (beg + offset)
  | .fin => toInt64 (fin + offset)
  | .other => -1

def fseekUnlocked (f : Memstream) (offset : Int) (whence : Whence) (answer : Answer) :
    Int × Memstream :=
  let pos := seekPos f.beg f.fin offset whence
  if pos < 0 then (-1, { f with state := some .einval })
  else if pos.toNat + 1 ≤ f.size then
    (0, { f with fin := max pos.toNat f.fin, beg := pos.toNat, state := none })
  else
    let size2 := growSeek (pos.toNat + 1) f.size (pos.toNat + 1)
    match f.heap.realloc f.buf size2 answer with
    | (none, heap) => (-1, { f with heap := heap })
    | (some buf2, heap) =>
      -- the memory is cleared through the pointer from before
      (0, { f with
        heap := heap.store f.buf f.size (replicate (size2 - f.size) 0)
        buf := buf2
        bufp := buf2
        size := size2
        fin := max pos.toNat f.fin
        beg := pos.toNat
        state := none })

def fclose (f : Memstream) (answer : Option Memory) : Memstream :=
  { f with
    sizep := f.beg
    heap := (f.heap.reallocInPlace (f.beg + 1) answer).store f.buf f.beg [0] }

inductive Call where
  | fwrite (data : Memory) (stride count : Nat) (answer : Answer)
  | fseek (offset : Int) (whence : Whence) (answer : Answer)

def Call.exec (f : Memstream) : Call → Int × Memstream
  | .fwrite data stride count answer =>
    ((fwriteUnlocked f data stride count answer).1, (fwriteUnlocked f data stride count answer).2)
  | .fseek offset whence answer => fseekUnlocked f offset whence answer

/-! ## 3. The array it stands for -/

structure ByteFile where
  content : Bytes
  pos : Nat

def ByteFile.write (a : ByteFile) (data : Bytes) : ByteFile :=
  ⟨overwrite a.content a.pos data, a.pos + data.length⟩

def ByteFile.seek (a : ByteFile) (pos : Nat) : ByteFile :=
  ⟨a.content ++ replicate (pos - a.content.length) 0, pos⟩

def ByteFile.step (a : ByteFile) (r : Int) : Call → ByteFile
  | .fwrite data stride _ _ => a.write (data.bytes (r.toNat * stride))
  | .fseek offset whence _ =>
    if r = 0 then a.seek (seekPos a.pos a.content.length offset whence).toNat else a

/-- All stores went to the live block, `*bufp` is this block, it holds the array, and after `fclose`
there is a terminator at `*sizep`. -/
structure Right (f : Memstream) (a : ByteFile) : Prop where
  sound : f.heap.sound = true
  live : f.bufp = f.heap.block
  content : f.heap.bytes.take f.fin = a.content
  closed : ∀ answer, (fclose f answer).heap.sound = true ∧
    (fclose f answer).bufp = (fclose f answer).heap.block ∧
    (fclose f answer).sizep = a.pos ∧
    (fclose f answer).heap.bytes[(fclose f answer).sizep]? = some 0

def AllRight : Memstream → ByteFile → List Call → Prop
  | f, a, [] => Right f a
  | f, a, c :: cs => Right f a ∧ AllRight (c.exec f).2 (a.step (c.exec f).1 c) cs

def Grows (f : Memstream) (offset : Int) (whence : Whence) : Prop :=
  0 ≤ seekPos f.beg f.fin offset whence ∧
    f.size < (seekPos f.beg f.fin offset whence).toNat + 1

def Stays (f : Memstream) : Call → Prop
  | .fwrite _ _ _ _ => True
  | .fseek _ _ none => True
  | .fseek offset whence (some (q, _)) => Grows f offset whence → q = f.buf

def AllStay : Memstream → List Call → Prop
  | _, [] => True
  | f, c :: cs => Stays f c ∧ AllStay (c.exec f).2 cs

/-! ## 4. Growing -/

theorem growSize_spec : ∀ {fuel size2 need r : Nat}, growSize fuel size2 need = some r →
    2 ≤ size2 → need ≤ size2 + fuel → size2 < 2 ^ 64 → need ≤ r ∧ size2 ≤ r ∧ r < 2 ^ 64
  | 0, size2, need, r, h, _, hfuel, hlt => by
    obtain rfl : size2 = r := Option.some.inj h
    exact ⟨hfuel, Nat.le_refl _, hlt⟩
  | fuel + 1, size2, need, r, h, htwo, hfuel, hlt => by
    unfold growSize at h
    split at h <;> rename_i hover
    · cases h
    split at h <;> rename_i hmore
    · have hrec := growSize_spec h (by omega) (by omega) (by omega)
      omega
    · have hr := Option.some.inj h
      omega

theorem growSeek_spec : ∀ {fuel size2 need : Nat}, 2 ≤ size2 → need ≤ size2 + fuel →
    size2 < need → need ≤ 2 ^ 63 →
    need ≤ growSeek fuel size2 need ∧ size2 ≤ growSeek fuel size2 need ∧
      growSeek fuel size2 need < 2 ^ 64
  | 0, size2, need, _, hfuel, hlt, _ => by
    exact absurd hfuel (Nat.not_le.mpr hlt)
  | fuel + 1, size2, need, htwo, hfuel, hlt, hneed => by
    have hmod : (size2 + size2 / 2) % 2 ^ 64 = size2 + size2 / 2 := Nat.mod_eq_of_lt (by omega)
    unfold growSeek
    rw [hmod]
    split_ifs with hmore
    · have hrec := @growSeek_spec fuel (size2 + size2 / 2) need (by omega) (by omega) hmore hneed
      omega
    · omega

theorem seekPos_lt (beg fin : Nat) (offset : Int) (whence : Whence) :
    seekPos beg fin offset whence < 2 ^ 63 := by
  have hbound : ∀ x : Int, toInt64 x < 2 ^ 63 := fun x => by
    have h := @Int.bmod_lt x (2 ^ 64) (by decide)
    unfold toInt64
    omega
  cases whence with
  | set | cur | fin => exact hbound _
  | other =>
    show (-1 : Int) < 2 ^ 63
    decide

/-! ## 5. The invariant -/

/-- The block is the array followed by zeros, with room for the terminator. -/
structure Grown (f : Memstream) (a : ByteFile) : Prop where
  sound : f.heap.sound = true
  buf : f.buf = f.heap.block
  live : f.bufp = f.heap.block
  pos : f.beg = a.pos
  fin : f.fin = a.content.length
  inside : f.beg ≤ f.fin
  room : f.fin + 1 ≤ f.size
  least : 2 ≤ f.size
  bound : f.size < 2 ^ 64
  bytes : f.heap.bytes = a.content ++ replicate (f.size - f.fin) 0

variable {f : Memstream} {a : ByteFile}

theorem grown_open (block : Nat) : Grown (openMemstream block) ⟨[], 0⟩ :=
  have hsize : (16 : Nat) < 2 ^ 64 := by decide
  ⟨rfl, rfl, rfl, rfl, rfl, Nat.le_refl 0, Nat.le_add_left 1 15, Nat.le_add_left 2 14, hsize, rfl⟩

theorem store_live {h : Heap} {p : Nat} (hp : p = h.block)
    (hin : off + data.length ≤ h.bytes.length) :
    h.store p off data = { h with bytes := overwrite h.bytes off data } := by
  unfold Heap.store
  by_cases hdata : data = []
  · subst hdata
    rw [if_pos rfl, overwrite, append_nil, length_nil, Nat.add_zero,
      take_append_drop]
  · rw [if_neg hdata, if_pos ⟨hp, hin⟩]

theorem write_nil (a : ByteFile) : a.write [] = a := by
  unfold ByteFile.write overwrite
  rw [append_nil, length_nil, Nat.add_zero, take_append_drop]

section

variable (h : Grown f a)
include h

theorem Grown.length_bytes : f.heap.bytes.length = f.size := by
  have hroom := h.room
  rw [h.bytes, length_append, length_replicate, ← h.fin]
  omega

theorem store_zeros {size2 q : Nat} (hsize : f.size ≤ size2) (junk : Memory) :
    (⟨q, (f.heap.bytes ++ junk.bytes (size2 - f.heap.bytes.length)).take size2,
        f.heap.sound && decide (f.buf = f.heap.block)⟩ : Heap).store q f.size
      (replicate (size2 - f.size) 0) =
      ⟨q, a.content ++ replicate (size2 - f.fin) 0, true⟩ := by
  have hlen := h.length_bytes
  have hroom := h.room
  set grown := f.heap.bytes ++ junk.bytes (size2 - f.heap.bytes.length) with hgrown
  have hlong : grown.length = size2 := by
    rw [hgrown, length_append, Memory.length_bytes]
    omega
  have hfits : f.size + (replicate (size2 - f.size) (0 : UInt8)).length ≤ grown.length := by
    rw [hlong, length_replicate]
    omega
  have hbytes : overwrite grown f.size (replicate (size2 - f.size) 0) =
      a.content ++ replicate (size2 - f.fin) 0 := by
    rw [hgrown, ← hlen, overwrite_at_end _ _ _ (by rw [Memory.length_bytes, length_replicate]), hlen,
      h.bytes, append_assoc, replicate_append_replicate]
    congr 2
    omega
  rw [take_of_length_le hlong.le, store_live rfl hfits, hbytes, h.sound, decide_eq_true h.buf, Bool.true_and]

theorem extend_spec (n : Nat) (answer : Answer) : (∃ f', extend f n answer = .error f' ∧ Grown f' a) ∨
      ∃ f', extend f n answer = .ok f' ∧ Grown f' a ∧ f'.beg + n + 1 ≤ f'.size := by
  unfold extend
  split <;> rename_i hover
  · exact Or.inl ⟨_, rfl, { h with }⟩
  split <;> rename_i hfits
  · exact Or.inr ⟨_, rfl, h, hfits⟩
  cases hgrow : growSize (f.beg + n + 1) f.size (f.beg + n + 1) with
  | none => exact Or.inl ⟨_, rfl, { h with }⟩
  | some size2 =>
    obtain ⟨hneed, hsize, hlt⟩ := growSize_spec hgrow h.least (Nat.le_add_left _ _) h.bound
    cases answer with
    | none => exact Or.inl ⟨_, rfl, { h with }⟩
    | some at2 =>
      refine Or.inr ⟨_, rfl, ?_, hneed⟩
      rw [store_zeros h hsize at2.2]
      have hroom := h.room
      have hleast := h.least
      exact ⟨rfl, rfl, rfl, h.pos, h.fin, h.inside, Nat.le_trans hroom hsize,
        Nat.le_trans hleast hsize, hlt, rfl⟩

theorem grown_put (hfits : f.beg + data.length + 1 ≤ f.size) : Grown (f.put data) (a.write data) := by
  have hpos := h.pos
  have hfin := h.fin
  have hin := h.inside
  have hroom := h.room
  have hlen := h.length_bytes
  have hoff : a.pos ≤ a.content.length := by omega
  have hheap : (f.put data).heap = { f.heap with bytes := overwrite f.heap.bytes f.beg data } :=
    store_live h.buf (by omega)
  have hlength : (a.write data).content.length = max a.content.length (a.pos + data.length) :=
    length_overwrite hoff
  have hend : (f.put data).fin = (a.write data).content.length := by
    rw [hlength]
    show (if f.fin < f.beg + data.length then f.beg + data.length else f.fin) = _
    split <;> omega
  have hbytes : overwrite f.heap.bytes f.beg data =
      (a.write data).content ++ replicate (f.size - (f.put data).fin) 0 := by
    rw [h.bytes, hpos, overwrite_append_zeros hoff, hend, hlength]
    show overwrite a.content a.pos data ++ _ = overwrite a.content a.pos data ++ _
    congr 2
    omega
  refine ⟨?_, ?_, ?_, ?_, hend, ?_, ?_, h.least, h.bound, ?_⟩
  · rw [hheap]
    exact h.sound
  · rw [hheap]
    exact h.buf
  · rw [hheap]
    exact h.live
  · show f.beg + data.length = a.pos + data.length
    rw [hpos]
  · rw [hend, hlength]
    show f.beg + data.length ≤ _
    omega
  · rw [hend, hlength]
    show _ ≤ f.size
    omega
  · rw [hheap]
    exact hbytes

theorem grown_fwrite (data : Memory) (stride count : Nat) (answer : Answer) :
    Grown (fwriteUnlocked f data stride count answer).2
      (a.write (data.bytes ((fwriteUnlocked f data stride count answer).1 * stride))) := by
  have hnone : a.write (data.bytes (0 * stride)) = a := by
    rw [Nat.zero_mul]
    exact write_nil a
  unfold fwriteUnlocked
  by_cases hover : 2 ^ 64 ≤ stride * count
  · rw [if_pos hover, hnone]
    exact { h with }
  rw [if_neg hover]
  by_cases hzero : stride * count = 0
  · rw [if_pos hzero, hnone]
    exact h
  rw [if_neg hzero]
  rcases extend_spec h (stride * count) answer with ⟨f', hext, hgrown⟩ | ⟨f', hext, hgrown, hfits⟩
  · rw [hext]
    simp only [hnone]
    exact hgrown
  · have hbound := hgrown.bound
    have hm : (f'.size + 2 ^ 64 - f'.beg) % 2 ^ 64 = f'.size - f'.beg := by omega
    rw [hext]
    simp only
    rw [hm, if_pos (by omega), Nat.mul_comm count stride]
    exact grown_put hgrown (by rw [Memory.length_bytes]; exact hfits)

theorem grown_seek {f' : Memstream} {pos : Nat} (hbuf : f'.buf = f'.heap.block)
    (hlive : f'.bufp = f'.heap.block) (hsound : f'.heap.sound = true) (hbeg : f'.beg = pos)
    (hfin : f'.fin = max pos f.fin) (hsize : f.size ≤ f'.size) (hbound : f'.size < 2 ^ 64)
    (hroom : pos + 1 ≤ f'.size)
    (hbytes : f'.heap.bytes = a.content ++ replicate (f'.size - f.fin) 0) :
    Grown f' (a.seek pos) := by
  have hfin₀ := h.fin
  have hroom₀ := h.room
  have hlength : (a.seek pos).content.length = max pos a.content.length := by
    show (a.content ++ replicate (pos - a.content.length) 0).length = _
    rw [length_append, length_replicate]
    omega
  refine ⟨hsound, hbuf, hlive, hbeg, ?_, ?_, ?_, Nat.le_trans h.least hsize, hbound, ?_⟩
  · rw [hlength, hfin, hfin₀]
  · omega
  · omega
  · show _ = (a.content ++ replicate (pos - a.content.length) 0) ++ _
    rw [hbytes, append_assoc, replicate_append_replicate]
    congr 2
    omega

end

variable {offset : Int} {whence : Whence} {answer : Answer}

/-- `fseek_unlocked` clears through the old pointer, which is right if the block has not moved. -/
theorem grown_fseek (h : Grown f a) (hstays : Stays f (.fseek offset whence answer)) :
    Grown (fseekUnlocked f offset whence answer).2
      (a.step (fseekUnlocked f offset whence answer).1 (.fseek offset whence answer)) := by
  have hpos : seekPos a.pos a.content.length offset whence = seekPos f.beg f.fin offset whence := by
    rw [h.pos, h.fin]
  have hlt := seekPos_lt f.beg f.fin offset whence
  have hroom := h.room
  show Grown _ (if (fseekUnlocked f offset whence answer).1 = 0 then
    a.seek (seekPos a.pos a.content.length offset whence).toNat else a)
  rw [hpos]
  unfold fseekUnlocked
  set pos := seekPos f.beg f.fin offset whence
  by_cases hneg : pos < 0
  · rw [if_pos hneg]
    exact { h with }
  rw [if_neg hneg]
  by_cases hin : pos.toNat + 1 ≤ f.size
  · rw [if_pos hin]
    exact grown_seek h h.buf h.live h.sound rfl rfl (Nat.le_refl _) h.bound hin h.bytes
  rw [if_neg hin]
  cases answer with
  | none => exact { h with }
  | some at2 =>
    obtain ⟨q, junk⟩ := at2
    have hq : q = f.buf := hstays ⟨Int.not_lt.mp hneg, Nat.lt_of_not_le hin⟩
    obtain ⟨hneed, hsize, hbound⟩ := @growSeek_spec (pos.toNat + 1) f.size
      (pos.toNat + 1) h.least (Nat.le_add_left _ _)
      (Nat.lt_of_not_le hin) (by omega)
    subst hq
    simp only [Heap.realloc]
    rw [store_zeros h hsize junk, if_pos trivial]
    exact grown_seek h rfl rfl rfl rfl rfl hsize hbound hneed rfl

/-- The block keeps at least the bytes that are asked for. -/
theorem reallocInPlace_spec (heap : Heap) {n : Nat} (hn : n ≤ heap.bytes.length) (answer : Option Memory) :
    ∃ bytes, heap.reallocInPlace n answer = { heap with bytes } ∧ n ≤ bytes.length := by
  cases answer with
  | none => exact ⟨_, rfl, hn⟩
  | some junk =>
    refine ⟨_, rfl, ?_⟩
    rw [length_take, length_append]
    omega

theorem Grown.right (h : Grown f a) : Right f a := by
  have hlen := h.length_bytes
  have hin := h.inside
  have hroom := h.room
  refine ⟨h.sound, h.live, ?_, fun answer => ?_⟩
  · rw [h.bytes, h.fin, take_left]
  · obtain ⟨bytes, hheap, hlong⟩ := reallocInPlace_spec f.heap (n := f.beg + 1) (by omega) answer
    have hstore : (fclose f answer).heap = { f.heap with bytes := overwrite bytes f.beg [0] } := by
      show (f.heap.reallocInPlace (f.beg + 1) answer).store f.buf f.beg [0] = _
      rw [hheap]
      exact store_live (h := { f.heap with bytes }) h.buf hlong
    rw [hstore]
    refine ⟨h.sound, h.live, h.pos, ?_⟩
    show (overwrite bytes f.beg [0])[f.beg]? = some 0
    have htake : (bytes.take f.beg).length = f.beg := by
      rw [length_take]
      omega
    unfold overwrite
    rw [append_assoc, List.getElem?_append_right (Nat.le_of_eq htake), htake, Nat.sub_self]
    rfl

theorem not_sound_of_moved (h : Grown f a) (hmoved : ¬ Stays f (.fseek offset whence answer)) :
    (fseekUnlocked f offset whence answer).2.heap.sound = false := by
  cases answer with
  | none => exact absurd trivial hmoved
  | some at2 =>
    obtain ⟨q, junk⟩ := at2
    obtain ⟨⟨hpos, hgrow⟩, hq⟩ := Classical.not_imp.mp hmoved
    have hlt := seekPos_lt f.beg f.fin offset whence
    obtain ⟨hneed, -, -⟩ := @growSeek_spec
      ((seekPos f.beg f.fin offset whence).toNat + 1) f.size
      ((seekPos f.beg f.fin offset whence).toNat + 1) h.least (Nat.le_add_left _ _) hgrow
      (by omega)
    unfold fseekUnlocked
    rw [if_neg (Int.not_lt.mpr hpos), if_neg (Nat.not_le.mpr hgrow)]
    simp only [Heap.realloc]
    unfold Heap.store
    rw [if_neg, if_neg]
    · rintro ⟨hblock, -⟩
      exact hq hblock.symm
    · intro hnil
      have hlen := congrArg List.length hnil
      rw [length_replicate, length_nil] at hlen
      omega

theorem AllRight.head : ∀ {cs : List Call}, AllRight f a cs → Right f a
  | [], h => h
  | _ :: _, h => h.1

theorem allRight_iff (h : Grown f a) (cs : List Call) : AllRight f a cs ↔ AllStay f cs := by
  induction cs generalizing f a with
  | nil => exact iff_of_true h.right trivial
  | cons c cs ih =>
    cases c with
    | fwrite data stride count answer =>
      have hnext := grown_fwrite h data stride count answer
      show Right f a ∧ _ ↔ True ∧ _
      rw [true_and]
      exact (and_iff_right h.right).trans (ih hnext)
    | fseek offset whence answer =>
      by_cases hstays : Stays f (.fseek offset whence answer)
      · have hnext := grown_fseek h hstays
        exact and_congr (iff_of_true h.right hstays) (ih hnext)
      · refine iff_of_false (fun hall => ?_) fun hall => hstays hall.1
        have hsound := hall.2.head.sound
        rw [show ((Call.fseek offset whence answer).exec f).2.heap.sound = false from
          not_sound_of_moved h hstays] at hsound
        cases hsound

/-- A stream from `open_memstream` is right at every time exactly if no seek that grows the buffer
gets another block. -/
theorem openMemstream_allRight_iff_allStay (block : Nat) (cs : List Call) :
    AllRight (openMemstream block) ⟨[], 0⟩ cs ↔ AllStay (openMemstream block) cs :=
  allRight_iff (grown_open block) cs

/-- A seek to offset 20 whose block moves clears the memory that was given back. -/
theorem seek_clears_old_block :
    let f := (fseekUnlocked (openMemstream 1) 20 .set (some (2, fun _ => 170))).2
    f.bufp = 2 ∧ f.heap.block = 2 ∧ f.heap.sound = false ∧
      f.heap.bytes.take f.fin = replicate 16 0 ++ replicate 4 170 ∧
      ¬ AllRight (openMemstream 1) ⟨[], 0⟩ [.fseek 20 .set (some (2, fun _ => 170))] := by
  refine ⟨by decide, by decide, by decide, by decide, fun hall => ?_⟩
  have hsound := hall.2.head.sound
  exact absurd hsound (by decide)

end CosmoRuby.Stdio
