import Mathlib
import CosmoRuby.Lib.Truncate
import CosmoRuby.Lib.Word
import CosmoRuby.Windows.Transcode

/-!
# Transcoding between UTF-8 and UTF-16

`tprecode8to16` and `tprecode16to8` with their vector loops. A pointer into the source is the list of what
lies from there on in memory, zeros behind its end.

The NEON loops add up comparison masks in a byte or a short and compare the sum with a number that does not
fit there, so they leave before the first block (`neonSum_lt`).
-/

open CosmoRuby.Lib

namespace CosmoRuby.Windows.Tprecode

open List

/-! ## 1. The code -/

/-- Which of the vector loops is compiled in. -/
inductive Arch where
  | sse2
  | neon
  | none
  deriving DecidableEq, Repr

/-- `axdx_t` with the buffer and the source that are being worked on. -/
structure State (α β : Type) where
  src : List α
  dx : Nat
  out : Writer β

/-- What a vector load reads. -/
def lanes {α : Type} [Zero α] (n : Nat) (src : List α) : List α := (src ++ List.replicate n 0).take n

/-- The horizontal sum of a NEON comparison, in lanes of a given size. -/
def neonSum {α : Type} (mask : Nat) (cmp : α → Bool) (block : List α) : Nat :=
  (block.map fun x => if cmp x then mask else 0).sum % (mask + 1)

/-- A vector loop: whole blocks of `n` that pass the test are copied, as long as they fit. -/
def vectorLoop {α β : Type} [Zero α] [Zero β] (n size : Nat) (test : List α → Bool) (f : α → β) :
    Nat → State α β → State α β
  | 0, r => r
  | fuel + 1, r =>
    if r.out.ax + n < size then
      if test (lanes n r.src) then
        vectorLoop n size test f fuel
          ⟨r.src.drop n, r.dx + n, r.out.stores ((lanes n r.src).map f)⟩
      else r
    else r

/-- The test of a block of bytes. The comparison with zero has a sign on x86 and none on ARM. -/
def test8 : Arch → List UInt8 → Bool
  | .sse2, block => block.all fun b => 0 < b.toNat && b.toNat < 128
  | .neon, block => neonSum 0xFF (fun b : UInt8 => 0 < b.toNat) block = 16 * 0xFF
  | .none, _ => false

def test16 : Arch → List UInt16 → Bool
  | .sse2, block => block.all fun u => 0 < u.toNat && u.toNat ≤ 0x7F
  | .neon, block => neonSum 0xFFFF (fun u : UInt16 => 0 < u.toNat && !(0x7F < u.toNat)) block = 8 * 0xFFFF
  | .none, _ => false

/-- `ThomPikeCont` -/
def thomPikeCont (b : Nat) : Bool := b &&& 0o300 = 0o200

/-- The bytes behind the first one: the character, if they are all there. -/
def readConts : Nat → Nat → Bytes → Option Nat
  | 0, a, _ => some a
  | n + 1, a, src =>
    let b := (src.headD 0).toNat
    if b = 0 then none
    else if !thomPikeCont b then none
    else readConts n (thomPikeMerge a b) src.tail

/-- One character of UTF-8 and its length. A first byte without what should follow stands for itself. -/
def read8 (src : Bytes) : Nat × Nat :=
  let x := (src.headD 0).toNat
  if 0o300 ≤ x then
    match readConts (thomPikeLen x - 1) (thomPikeByte x) src.tail with
    | some a => (a, thomPikeLen x)
    | none => (x, 1)
  else (x, 1)

def loop8to16 (arch : Arch) (addr size : Nat) : Nat → State UInt8 UInt16 → State UInt8 UInt16
  | 0, r => r
  | fuel + 1, r =>
    let r := if (addr + r.dx) % 16 = 0 then
        vectorLoop 16 size (test8 arch) (fun b => UInt16.ofNat b.toNat) r.src.length r
      else r
    let x := read8 r.src
    if x.1 = 0 then ⟨r.src.drop x.2, r.dx + x.2, r.out⟩
    else loop8to16 arch addr size fuel ⟨r.src.drop x.2, r.dx + x.2, r.out.puts size (encodeUtf16 x.1)⟩

/-- `tprecode8to16(dst, dstsize, src)` for a source at the address `addr`. -/
def tprecode8to16 (arch : Arch) (addr : Nat) (dst : Nat → UInt16) (dstsize : Nat) (src : Bytes) :
    State UInt8 UInt16 :=
  let r := loop8to16 arch addr dstsize (src.length + 1) ⟨src, 0, ⟨0, dst⟩⟩
  { r with out := r.out.finish dstsize }

/-- `IsUtf16Cont` -/
def isUtf16Cont (x : Nat) : Bool := x &&& 0xfc00 = 0xdc00

def loop16to8 (arch : Arch) (addr size : Nat) : Nat → State UInt16 UInt8 → State UInt16 UInt8
  | 0, r => r
  | fuel + 1, r =>
    let r := if (addr + 2 * r.dx) % 16 = 0 then
        vectorLoop 8 size (test16 arch) (fun u => UInt8.ofNat u.toNat) r.src.length r
      else r
    let x := (r.src.headD 0).toNat
    let src := r.src.tail
    let dx := r.dx + 1
    if x = 0 then ⟨src, dx, r.out⟩
    else if isUtf16Cont x then loop16to8 arch addr size fuel ⟨src, dx, r.out⟩
    else if isUcs2 x then loop16to8 arch addr size fuel ⟨src, dx, r.out.puts size (tpenc x)⟩
    else
      let y := (src.headD 0).toNat
      if y = 0 then ⟨src.tail, dx + 1, r.out⟩
      else loop16to8 arch addr size fuel ⟨src.tail, dx + 1, r.out.puts size (tpenc (mergeUtf16 x y))⟩

def tprecode16to8 (arch : Arch) (addr : Nat) (dst : Nat → UInt8) (dstsize : Nat) (src : List UInt16) :
    State UInt16 UInt8 :=
  let r := loop16to8 arch addr dstsize (src.length + 1) ⟨src, 0, ⟨0, dst⟩⟩
  { r with out := r.out.finish dstsize }

/-! ## 2. Strings in memory -/

/-- Characters in an encoding, a NUL, and what lies behind it. -/
def cString {α : Type} [Zero α] (enc : Nat → List α) (cs : List Nat) (rest : List α) : List α :=
  cs.flatMap enc ++ 0 :: rest

/-- A code point that is encoded as itself, and no other encoding starts with such a unit. -/
structure AsciiCompatible {α : Type} [Zero α] (enc : Nat → List α) (val : α → Nat) (P : Nat → Prop) :
    Prop where
  zero : val 0 = 0
  ascii : ∀ v, P v → ∀ u us, enc v = u :: us → 0 < val u → val u < 128 → v = val u ∧ us = []
  ne_nil : ∀ v, enc v ≠ []

variable {α : Type} [Zero α] {enc : Nat → List α} {val : α → Nat} {P : Nat → Prop}

theorem AsciiCompatible.split (henc : AsciiCompatible enc val P) (n : Nat) (cs : List Nat) (rest : List α)
    (hcs : ∀ v ∈ cs, P v)
    (hrun : ∀ u ∈ lanes n (cString enc cs rest), 0 < val u ∧ val u < 128) :
    ∃ cs', cs = (lanes n (cString enc cs rest)).map val ++ cs' ∧
      (cString enc cs rest).drop n = cString enc cs' rest ∧
      n + (cString enc cs' rest).length = (cString enc cs rest).length := by
  induction n generalizing cs with
  | zero => exact ⟨cs, rfl, rfl, Nat.zero_add _⟩
  | succ n ih =>
    cases cs with
    | nil =>
      have hzero := (hrun 0 (by simp [lanes, cString])).1
      rw [henc.zero] at hzero
      exact absurd hzero (Nat.lt_irrefl 0)
    | cons v cs =>
      obtain ⟨hv, hcs₁⟩ := List.forall_mem_cons.1 hcs
      obtain ⟨u, us, hu⟩ := exists_cons_of_ne_nil (henc.ne_nil v)
      have hstring : cString enc (v :: cs) rest = u :: (us ++ cString enc cs rest) := by
        rw [cString, flatMap_cons, hu, cons_append, cons_append, append_assoc]
        rfl
      have hlanes (src : List α) : lanes (n + 1) (u :: src) = u :: lanes n src := by
        simp only [lanes, cons_append, take_succ_cons, List.cons.injEq, true_and]
        rw [take_append, take_append, take_replicate, take_replicate,
          Nat.min_eq_left (by omega), Nat.min_eq_left (by omega)]
      rw [hstring, hlanes] at hrun ⊢
      obtain ⟨hhead, htail⟩ := List.forall_mem_cons.1 hrun
      obtain ⟨rfl, rfl⟩ := henc.ascii v hv u us hu hhead.1 hhead.2
      rw [nil_append] at htail ⊢
      obtain ⟨cs', hcs', hdrop, hlen⟩ := ih cs hcs₁ htail
      refine ⟨cs', ?_, ?_, ?_⟩
      · rw [map_cons, cons_append, ← hcs']
      · rw [drop_succ_cons, hdrop]
      · rw [length_cons]
        omega

/-! ## 3. The vector loops -/

theorem neonSum_lt {α : Type} (mask : Nat) (cmp : α → Bool) (block : List α) :
    neonSum mask cmp block < mask + 1 :=
  Nat.mod_lt _ (Nat.succ_pos mask)

theorem test8_ascii (arch : Arch) (block : List UInt8) (h : test8 arch block = true) :
    ∀ b ∈ block, 0 < b.toNat ∧ b.toNat < 128 := by
  cases arch with
  | sse2 =>
    intro b hb
    have := List.all_eq_true.1 h b hb
    rw [Bool.and_eq_true, decide_eq_true_eq, decide_eq_true_eq] at this
    exact this
  | neon =>
    have hsum := neonSum_lt 0xFF (fun b : UInt8 => decide (0 < b.toNat)) block
    rw [of_decide_eq_true h] at hsum
    exact absurd hsum (by decide)
  | none => cases h

theorem test16_ascii (arch : Arch) (block : List UInt16) (h : test16 arch block = true) :
    ∀ u ∈ block, 0 < u.toNat ∧ u.toNat < 128 := by
  cases arch with
  | sse2 =>
    intro u hu
    have := List.all_eq_true.1 h u hu
    rw [Bool.and_eq_true, decide_eq_true_eq, decide_eq_true_eq] at this
    exact ⟨this.1, Nat.lt_succ_of_le this.2⟩
  | neon =>
    have hsum := neonSum_lt 0xFFFF (fun u : UInt16 => decide (0 < u.toNat) && !decide (0x7F < u.toNat)) block
    rw [of_decide_eq_true h] at hsum
    exact absurd hsum (by decide)
  | none => cases h

/-- The state behind the characters `done` of a string, with `cs` still to come. -/
structure At {β : Type} [Zero β] (enc : Nat → List α) (dec : Nat → List β) (size : Nat) (mem : Nat → β)
    (rest : List α) (total : Nat) (done cs : List Nat) (r : State α β) : Prop where
  src : r.src = cString enc cs rest
  dx : r.dx + (cString enc cs rest).length = total
  out : r.out = Writer.filled size mem (done.flatMap dec)

variable {β : Type} [Zero β] {dec : Nat → List β} {size : Nat} {mem : Nat → β} {rest : List α} {total : Nat}

variable {n v : Nat} {test : List α → Bool} {f : α → β} {done cs : List Nat} {r : State α β}

/-- Some of the characters that were to come are done. -/
def Ran (enc : Nat → List α) (dec : Nat → List β) (size : Nat) (mem : Nat → β) (rest : List α) (total : Nat)
    (done cs : List Nat) (r : State α β) : Prop :=
  ∃ run cs', cs = run ++ cs' ∧ At enc dec size mem rest total (done ++ run) cs' r

theorem At.ran (h : At enc dec size mem rest total done cs r) : Ran enc dec size mem rest total done cs r :=
  ⟨[], cs, rfl, by rw [append_nil]; exact h⟩

section

variable (henc : AsciiCompatible enc val P)
  (htest : ∀ block, test block = true → ∀ u ∈ block, 0 < val u ∧ val u < 128)
  (hdec : ∀ u, val u < 128 → dec (val u) = [f u]) (fuel : Nat)
include henc htest hdec

theorem vectorLoop_at (hcs : ∀ v ∈ cs, P v) (h : At enc dec size mem rest total done cs r) :
    Ran enc dec size mem rest total done cs (vectorLoop n size test f fuel r) := by
  induction fuel generalizing done cs r with
  | zero => exact h.ran
  | succ fuel ih =>
    rw [vectorLoop]
    split <;> rename_i hsize
    · split <;> rename_i hpass
      · have hascii := htest _ hpass
        rw [h.src] at hascii
        obtain ⟨cs', hcs', hdrop, hlen⟩ := henc.split n cs rest hcs hascii
        have hmap : ((lanes n (cString enc cs rest)).map val).flatMap dec =
            (lanes n (cString enc cs rest)).map f := by
          rw [flatMap_map, map_eq_flatMap]
          exact flatMap_congr fun u hu => hdec u (hascii u hu).2
        have hlanes : (lanes n (cString enc cs rest)).length = n := by
          rw [lanes, length_take, length_append, length_replicate]
          omega
        have hnext : At enc dec size mem rest total
            (done ++ (lanes n (cString enc cs rest)).map val) cs'
            ⟨r.src.drop n, r.dx + n, r.out.stores ((lanes n r.src).map f)⟩ := by
          refine ⟨?_, ?_, ?_⟩
          · rw [h.src]
            exact hdrop
          · have := h.dx
            dsimp only
            omega
          · have hax := hsize
            rw [h.out] at hax
            dsimp only
            rw [h.src, h.out, flatMap_append, hmap]
            exact Writer.stores_filled _ (by rw [length_map, hlanes]; exact hax)
        have hmem : ∀ v ∈ cs', P v := fun v hv => hcs v (by rw [hcs']; exact mem_append_right _ hv)
        obtain ⟨run, cs₂, heq, hat⟩ := ih hmem hnext
        refine ⟨(lanes n (cString enc cs rest)).map val ++ run, cs₂, ?_, ?_⟩
        · rw [append_assoc, ← heq, ← hcs']
        · rw [← append_assoc]
          exact hat
      · exact h.ran
    · exact h.ran

/-- The same with the test of the alignment before it. -/
theorem alignedLoop_at (aligned : Prop) [Decidable aligned] (hcs : ∀ v ∈ cs, P v)
    (h : At enc dec size mem rest total done cs r) :
    Ran enc dec size mem rest total done cs (if aligned then vectorLoop n size test f fuel r else r) := by
  split
  · exact vectorLoop_at henc htest hdec fuel hcs h
  · exact h.ran

end

omit [Zero β] in
theorem cString_cons (v : Nat) (cs : List Nat) :
    cString enc (v :: cs) rest = enc v ++ cString enc cs rest := by
  rw [cString, flatMap_cons, append_assoc]
  rfl

theorem At.next (h : At enc dec size mem rest total done (v :: cs) r) :
    At enc dec size mem rest total (done ++ [v]) cs
      ⟨r.src.drop (enc v).length, r.dx + (enc v).length, r.out.puts size (dec v)⟩ := by
  refine ⟨?_, ?_, ?_⟩
  · rw [h.src, cString_cons]
    exact drop_left
  · have hdx := h.dx
    rw [cString_cons, length_append] at hdx
    dsimp only
    omega
  · dsimp only
    rw [h.out, Writer.puts_filled, flatMap_append, flatMap_singleton]

theorem At.ended (h : At enc dec size mem rest total done [] r) :
    r.dx + 1 + rest.length = total ∧ r.out = Writer.filled size mem ((done ++ []).flatMap dec) := by
  have hdx := h.dx
  rw [cString, flatMap_nil, nil_append, length_cons] at hdx
  refine ⟨by omega, ?_⟩
  rw [append_nil]
  exact h.out

/-! ## 4. UTF-8 to UTF-16 -/

theorem thomPikeCont_of_lt : ∀ y < 64, thomPikeCont (y + 128) = true := by decide

theorem readConts_append {bs : Bytes} (a : Nat) (src : Bytes) (hbs : ∀ b ∈ bs, IsCont b) :
    readConts bs.length a (bs ++ src) = some (readCont bs.length a (bs ++ src)).1 := by
  induction bs generalizing a with
  | nil => rfl
  | cons b bs ih =>
    obtain ⟨⟨y, hy, rfl⟩, hbs₁⟩ := List.forall_mem_cons.1 hbs
    obtain ⟨hbyte, hne⟩ := toNat_contByte hy
    rw [length_cons, cons_append, readCont, if_neg hne, hbyte]
    simp only [readConts, headD_cons, tail_cons, hbyte, thomPikeCont_of_lt y hy]
    rw [if_neg (by omega)]
    exact ih (thomPikeMerge a (y + 128)) hbs₁

theorem tpenc_ascii (h : v ≤ 127) : tpenc v = [UInt8.ofNat v] := by rw [tpenc, if_pos h]

theorem asciiCompatible_tpenc : AsciiCompatible tpenc UInt8.toNat Scalar where
  zero := rfl
  ascii v hv u us hu hpos hlt := by
    by_cases h : v ≤ 127
    · rw [tpenc_ascii h, List.cons.injEq] at hu
      exact ⟨by rw [← hu.1, toNat_ofNat_byte (by omega)], hu.2.symm⟩
    · obtain ⟨n, bs, hshape, hn, hn', -⟩ := tpenc_shape (by omega) hv.lt
      rw [hshape, List.cons.injEq] at hu
      rw [← hu.1, toNat_ofNat_byte hn'] at hlt
      omega
  ne_nil := tpenc_ne_nil

theorem read8_tpenc (src : Bytes) (hv : v ≤ 0x10ffff) :
    read8 (tpenc v ++ src) = (v, (tpenc v).length) := by
  by_cases h : v ≤ 127
  · rw [tpenc_ascii h, read8, singleton_append, headD_cons, toNat_ofNat_byte (by omega), if_neg (by omega)]
    rfl
  · obtain ⟨n, bs, hshape, hn, hn', hlen, hbs, hread⟩ := tpenc_shape (v := v) (by omega) (by omega)
    have hconts := readConts_append (thomPikeByte n) src hbs
    rw [hread] at hconts
    simp only [read8, hshape, cons_append, headD_cons, tail_cons, toNat_ofNat_byte hn',
      if_pos hn, ← hlen, Nat.add_sub_cancel, hconts, length_cons]

theorem encodeUtf16_ascii {u : UInt8} (h : u.toNat < 128) :
    encodeUtf16 u.toNat = [UInt16.ofNat u.toNat] := by
  rw [encodeUtf16, if_pos (by omega)]

theorem loop8to16_at (arch : Arch) (addr fuel : Nat) {size total : Nat} {mem : Nat → UInt16} {rest : Bytes}
     {r : State UInt8 UInt16} (hcs : ∀ v ∈ cs, Scalar v) (hfuel : cs.length < fuel)
    (h : At tpenc encodeUtf16 size mem rest total done cs r) :
    (loop8to16 arch addr size fuel r).dx + rest.length = total ∧
      (loop8to16 arch addr size fuel r).out = Writer.filled size mem ((done ++ cs).flatMap encodeUtf16) := by
  induction fuel generalizing done cs r with
  | zero => omega
  | succ fuel ih =>
    rw [loop8to16]
    obtain ⟨run, cs₁, rfl, h₁⟩ := alignedLoop_at (n := 16) asciiCompatible_tpenc (test8_ascii arch)
      (fun u => encodeUtf16_ascii) r.src.length ((addr + r.dx) % 16 = 0) hcs h
    generalize (if (addr + r.dx) % 16 = 0 then _ else r) = r₁ at h₁
    rw [← append_assoc]
    cases cs₁ with
    | nil =>
      have hread : read8 r₁.src = (0, 1) := by
        rw [h₁.src]
        rfl
      simp only [hread, if_true]
      exact h₁.ended
    | cons v cs₁ =>
      obtain ⟨hne, hmax, -⟩ := hcs v (mem_append_right _ mem_cons_self)
      have hread : read8 r₁.src = (v, (tpenc v).length) := by rw [h₁.src, cString_cons, read8_tpenc _ hmax]
      simp only [hread, if_neg hne]
      have hih := ih (fun u hu => hcs u (mem_append_right _ (mem_cons_of_mem v hu)))
        (by rw [length_append, length_cons] at hfuel; omega) h₁.next
      rw [append_assoc _ [v], singleton_append] at hih
      exact hih

/-! ## 5. UTF-16 to UTF-8 -/

theorem encodeUtf16_small (h : v < 0x10000) : encodeUtf16 v = [UInt16.ofNat v] := by
  rw [encodeUtf16, if_pos h]

theorem encodeUtf16_large (h : 0x10000 ≤ v) (hv : v ≤ 0x10ffff) :
    encodeUtf16 v = [UInt16.ofNat ((v - 0x10000) / 1024 + 0xd800),
      UInt16.ofNat ((v - 0x10000) % 1024 + 0xdc00)] := by
  rw [encodeUtf16, if_neg (by omega), if_pos hv]

theorem asciiCompatible_encodeUtf16 : AsciiCompatible encodeUtf16 UInt16.toNat Scalar where
  zero := rfl
  ascii v hv u us hu hpos hlt := by
    by_cases h : v < 0x10000
    · rw [encodeUtf16_small h, List.cons.injEq] at hu
      exact ⟨by rw [← hu.1, toNat_ofNat_unit h], hu.2.symm⟩
    · rw [encodeUtf16_large (by omega) hv.2.1, List.cons.injEq] at hu
      have hmax := hv.2.1
      rw [← hu.1, toNat_ofNat_unit (by omega)] at hlt
      omega
  ne_nil v := by
    rw [encodeUtf16]
    split
    · exact cons_ne_nil _ _
    · split <;> exact cons_ne_nil _ _

theorem isUtf16Cont_eq {x : Nat} (hx : x < 0x10000) :
    isUtf16Cont x = true ↔ 0xdc00 ≤ x ∧ x < 0xe000 := by
  have hsplit : x &&& 0xfc00 = 1024 * (x / 1024) := by
    have hmask := and_digits (k := 10) (x / 2 ^ 10) 63 (Nat.mod_lt x (by decide)) (show 0 < 2 ^ 10 by decide)
    have hdiv : x / 2 ^ 10 &&& 63 = x / 2 ^ 10 :=
      Nat.and_two_pow_sub_one_of_lt_two_pow (show x / 1024 < 2 ^ 6 by omega)
    rw [Nat.div_add_mod, hdiv, Nat.and_zero] at hmask
    exact hmask
  rw [isUtf16Cont, decide_eq_true_eq, hsplit]
  omega

theorem loop16to8_at (arch : Arch) (addr fuel : Nat) {size total : Nat} {mem : Nat → UInt8}
    {rest : List UInt16} {r : State UInt16 UInt8} (hcs : ∀ v ∈ cs, Scalar v)
    (hfuel : cs.length < fuel) (h : At encodeUtf16 tpenc size mem rest total done cs r) :
    (loop16to8 arch addr size fuel r).dx + rest.length = total ∧
      (loop16to8 arch addr size fuel r).out = Writer.filled size mem ((done ++ cs).flatMap tpenc) := by
  induction fuel generalizing done cs r with
  | zero => omega
  | succ fuel ih =>
    rw [loop16to8]
    obtain ⟨run, cs₁, rfl, h₁⟩ := alignedLoop_at (n := 8) asciiCompatible_encodeUtf16 (test16_ascii arch)
      (fun u hu => tpenc_ascii (by omega)) r.src.length ((addr + 2 * r.dx) % 16 = 0) hcs h
    generalize (if (addr + 2 * r.dx) % 16 = 0 then _ else r) = r₁ at h₁
    rw [← append_assoc]
    cases cs₁ with
    | nil =>
      have hhead : (r₁.src.headD 0).toNat = 0 := by
        rw [h₁.src]
        rfl
      simp only [hhead, if_true]
      exact h₁.ended
    | cons v cs₁ =>
      obtain ⟨hne, hmax, hscalar⟩ := hcs v (mem_append_right _ mem_cons_self)
      have hih := ih (fun u hu => hcs u (mem_append_right _ (mem_cons_of_mem v hu)))
        (by rw [length_append, length_cons] at hfuel; omega) h₁.next
      rw [append_assoc _ [v], singleton_append] at hih
      by_cases hsmall : v < 0x10000
      · have hsrc : r₁.src = UInt16.ofNat v :: cString encodeUtf16 cs₁ rest := by
          rw [h₁.src, cString_cons, encodeUtf16_small hsmall, singleton_append]
        have hcont : ¬ isUtf16Cont v = true := by
          rw [isUtf16Cont_eq hsmall]
          omega
        have hucs : isUcs2 v = true := by
          rw [isUcs2, bne_iff_ne]
          omega
        have hhead : (r₁.src.headD 0).toNat = v := by rw [hsrc, headD_cons, toNat_ofNat_unit hsmall]
        simp only [hhead, if_neg hne, if_neg hcont, if_pos hucs, ← drop_one]
        rw [encodeUtf16_small hsmall] at hih
        exact hih
      · obtain ⟨hhi, hlo, hucs, hmerge⟩ := surrogates hsmall hmax
        set hi := (v - 0x10000) / 1024 + 0xd800
        set lo := (v - 0x10000) % 1024 + 0xdc00
        have hsrc : r₁.src = UInt16.ofNat hi :: UInt16.ofNat lo :: cString encodeUtf16 cs₁ rest := by
          rw [h₁.src, cString_cons, encodeUtf16_large (by omega) hmax]
          rfl
        have hcont : ¬ isUtf16Cont hi = true := by
          rw [isUtf16Cont_eq hhi]
          omega
        have hhead : (r₁.src.headD 0).toNat = hi := by
          rw [hsrc, headD_cons, toNat_ofNat_unit hhi]
        have hsecond : (r₁.src.tail.headD 0).toNat = lo := by
          rw [hsrc, tail_cons, headD_cons, toNat_ofNat_unit hlo]
        have hdrop : r₁.src.tail.tail = r₁.src.drop 2 := by
          rw [hsrc]
          rfl
        simp only [hhead, hsecond, if_neg hcont, if_neg hucs, hmerge, hdrop]
        rw [if_neg (by omega), if_neg (by omega)]
        rw [encodeUtf16_large (by omega) hmax] at hih
        exact hih

/-! ## 6. Round trips -/

/-- UTF-16, with surrogates for what does not fit into one unit. -/
def utf16EncodeChar (c : Char) : List UInt16 :=
  if c.toNat < 0x10000 then [UInt16.ofNat c.toNat]
  else [UInt16.ofNat (0xd800 + (c.toNat - 0x10000) / 2 ^ 10), UInt16.ofNat (0xdc00 + (c.toNat - 0x10000) % 2 ^ 10)]

theorem encodeUtf16_eq (c : Char) : encodeUtf16 c.toNat = utf16EncodeChar c := by
  rw [utf16EncodeChar]
  split
  · next h => exact encodeUtf16_small h
  · next h =>
    rw [encodeUtf16_large (by omega) (toNat_le_max c), Nat.add_comm, Nat.add_comm _ 0xdc00]
    rfl

/-- A transcoder has read `src` with its terminator, and the buffer holds the beginning of `out`. -/
structure Transcoded {α β : Type} [Zero β] (r : State α β) (src : List α) (out : List β) (mem : Nat → β)
    (size : Nat) : Prop where
  dx : r.dx = src.length + 1
  ax : r.out.ax = min out.length (size - 1)
  stored : ∀ i < min out.length (size - 1), r.out.dst i = out.getD i 0
  nul : r.out.dst (min out.length (size - 1)) = 0
  kept : ∀ i, size ≤ i → r.out.dst i = mem i

theorem filled_nil {β : Type} [Zero β] (size : Nat) (mem : Nat → β) : Writer.filled size mem [] = ⟨0, mem⟩ := by
  simp [Writer.filled]

theorem scalars {cs : List Char} (hcs : '\x00' ∉ cs) : ∀ v ∈ cs.map Char.toNat, Scalar v := by
  intro v hv
  obtain ⟨c, hc, rfl⟩ := List.mem_map.1 hv
  exact scalar_toNat fun h => hcs (h ▸ hc)

theorem flatMap_toNat {β : Type} {f : Nat → List β} {g : Char → List β} (h : ∀ c, f c.toNat = g c)
    (cs : List Char) : (cs.map Char.toNat).flatMap f = cs.flatMap g := by
  rw [flatMap_map]
  exact flatMap_congr fun c _ => h c

/-- What a loop of the two leaves, with the terminator behind it. -/
theorem transcoded_of_loop {α β : Type} [Zero α] [Zero β] {enc : Nat → List α} {dec : Nat → List β}
    {enc' : Char → List α} {dec' : Char → List β} (henc : ∀ c, enc c.toNat = enc' c)
    (hdec : ∀ c, dec c.toNat = dec' c) (hne : ∀ v, enc v ≠ []) {size : Nat} {mem : Nat → β} {rest : List α}
    {cs : List Char} (hsize : 1 ≤ size) (loop : Nat → State α β → State α β)
    (hloop : ∀ fuel r, (cs.map Char.toNat).length < fuel →
      At enc dec size mem rest (cString enc (cs.map Char.toNat) rest).length [] (cs.map Char.toNat) r →
      (loop fuel r).dx + rest.length = (cString enc (cs.map Char.toNat) rest).length ∧
        (loop fuel r).out = Writer.filled size mem (([] ++ cs.map Char.toNat).flatMap dec)) (src : List α)
    (hsrc : src = cs.flatMap enc' ++ 0 :: rest) :
    Transcoded { loop (src.length + 1) ⟨src, 0, ⟨0, mem⟩⟩ with
        out := (loop (src.length + 1) ⟨src, 0, ⟨0, mem⟩⟩).out.finish size }
      (cs.flatMap enc') (cs.flatMap dec') mem size := by
  have hstring : src = cString enc (cs.map Char.toNat) rest := by
    rw [hsrc, cString, flatMap_toNat henc]
  have hlen : (cs.map Char.toNat).length < src.length + 1 := by
    have hle := length_le_flatMap hne (cs.map Char.toNat)
    rw [hstring, cString, length_append]
    omega
  obtain ⟨hdx, hout⟩ := hloop (src.length + 1) ⟨src, 0, ⟨0, mem⟩⟩ hlen
    ⟨hstring, Nat.zero_add _, (filled_nil size mem).symm⟩
  rw [nil_append, flatMap_toNat hdec] at hout
  obtain ⟨hax, hstored, hnul, hkept⟩ := @Writer.finish_filled β _ size mem (cs.flatMap dec') hsize
  rw [hout]
  refine ⟨?_, hax, hstored, hnul, hkept⟩
  have hlength : src.length = (cs.flatMap enc').length + (rest.length + 1) := by
    rw [hsrc, length_append, length_cons]
  rw [← hstring] at hdx
  dsimp only
  omega

theorem tprecode8to16_spec (arch : Arch) (addr size : Nat) (mem : Nat → UInt16) (rest : Bytes)
    (cs : List Char) (hcs : '\x00' ∉ cs) (hsize : 1 ≤ size) :
    Transcoded (tprecode8to16 arch addr mem size (cs.flatMap String.utf8EncodeChar ++ 0 :: rest))
      (cs.flatMap String.utf8EncodeChar) (cs.flatMap utf16EncodeChar) mem size :=
  transcoded_of_loop tpenc_eq_utf8 encodeUtf16_eq asciiCompatible_tpenc.ne_nil hsize (loop8to16 arch addr size)
    (fun fuel _ hlen hat => loop8to16_at arch addr fuel (scalars hcs) hlen hat) _ rfl

theorem tprecode16to8_spec (arch : Arch) (addr size : Nat) (mem : Nat → UInt8) (rest : List UInt16)
    (cs : List Char) (hcs : '\x00' ∉ cs) (hsize : 1 ≤ size) :
    Transcoded (tprecode16to8 arch addr mem size (cs.flatMap utf16EncodeChar ++ 0 :: rest))
      (cs.flatMap utf16EncodeChar) (cs.flatMap String.utf8EncodeChar) mem size :=
  transcoded_of_loop encodeUtf16_eq tpenc_eq_utf8 asciiCompatible_encodeUtf16.ne_nil hsize
    (loop16to8 arch addr size) (fun fuel _ hlen hat => loop16to8_at arch addr fuel (scalars hcs) hlen hat) _ rfl

omit [Zero α] in
theorem Transcoded.buffer {src : List α} {out : List β} (h : Transcoded r src out mem size)
    (hsize : out.length < size) :
    (List.range size).map r.out.dst =
      out ++ 0 :: (List.range (size - out.length - 1)).map fun i => r.out.dst (out.length + 1 + i) := by
  have hmin : min out.length (size - 1) = out.length := by omega
  have hrange : List.range size = List.range out.length ++ out.length ::
      (List.range (size - out.length - 1)).map fun i => out.length + 1 + i := by
    have hsplit : size = out.length + (1 + (size - out.length - 1)) := by omega
    conv_lhs => rw [hsplit, range_add, range_add]
    simp [Function.comp_def, Nat.add_assoc]
  rw [hrange, map_append, map_cons, map_map]
  congr 1
  · apply List.ext_getElem
    · simp
    · intro i h₁ h₂
      have := h.stored i (by rw [hmin]; exact h₂)
      rw [getElem_map, getElem_range, this, getD_eq_getElem _ _ h₂]
  · congr 1
    have := h.nul
    rw [hmin] at this
    exact this

/-- Both directions and the round trip, for every architecture, alignment and size. -/
theorem tprecode_roundTrip (arch : Arch) (addr8 addr16 size8 size16 : Nat) (mem8 : Nat → UInt8)
    (mem16 : Nat → UInt16) (rest8 : Bytes) (rest16 : List UInt16) (cs : List Char) (hcs : '\x00' ∉ cs)
    (hsize8 : 1 ≤ size8) (hsize16 : 1 ≤ size16) :
    let utf8 := cs.flatMap String.utf8EncodeChar
    let utf16 := cs.flatMap utf16EncodeChar
    let r := tprecode8to16 arch addr8 mem16 size16 (utf8 ++ 0 :: rest8)
    Transcoded r utf8 utf16 mem16 size16 ∧
      Transcoded (tprecode16to8 arch addr16 mem8 size8 (utf16 ++ 0 :: rest16)) utf16 utf8 mem8 size8 ∧
      (utf16.length < size16 →
        Transcoded (tprecode16to8 arch addr16 mem8 size8 ((List.range size16).map r.out.dst)) utf16 utf8
          mem8 size8) := by
  have h8 := tprecode8to16_spec arch addr8 size16 mem16 rest8 cs hcs hsize16
  refine ⟨h8, tprecode16to8_spec arch addr16 size8 mem8 rest16 cs hcs hsize8, fun hsize => ?_⟩
  rw [h8.buffer hsize]
  exact tprecode16to8_spec arch addr16 size8 mem8 _ cs hcs hsize8

def smile : List Char := ['$', '¢', '€', '😀']

/-- Five units and eleven bytes. -/
theorem tprecode_roundTrip_smile :
    Transcoded (tprecode16to8 .sse2 0x2000 (fun _ => 7) 11 ((List.range 6).map
      (tprecode8to16 .sse2 0x1000 (fun _ => 7) 6 (smile.flatMap String.utf8EncodeChar ++ [0])).out.dst))
      (smile.flatMap utf16EncodeChar) (smile.flatMap String.utf8EncodeChar) (fun _ => 7) 11 :=
  (tprecode_roundTrip .sse2 0x1000 0x2000 11 6 (fun _ => 7) (fun _ => 7) [] [] smile
    (by decide) (by decide) (by decide)).2.2 (by decide)

end CosmoRuby.Windows.Tprecode