import CosmoRuby.Http.Tables
import CosmoRuby.Lib.Escape
import CosmoRuby.Lib.LittleEndian

/-!
# The ELF header in the shell script

`apelink` writes the ELF header of an input as the argument of a `printf` statement of the shell
script, and puts the offset and the number of the program headers in later. `ApeLoader` scans the
script for the statement and decodes the argument, in place, at the front of its buffer.
-/

namespace CosmoRuby.Ape

open Lib Http List

/-! ## apelink -/

def isPlain (c : Nat) : Bool :=
  c < 128 && (0x20 ≤ c && c ≤ 0x7e) && !(0x30 ≤ c && c ≤ 0x39) && c != 0x5c && c != 0x25

def octalDigit (n : Nat) : UInt8 := UInt8.ofNat (0x30 + n)

def encodeByteAsPrintf (c : Nat) : Bytes :=
  if isPlain c then [UInt8.ofNat c]
  else
    0x5c :: (if c &&& 0o700 ≠ 0 then [octalDigit ((c &&& 0o700) >>> 6)] else []) ++
      (if c &&& 0o770 ≠ 0 then [octalDigit ((c &&& 0o70) >>> 3)] else []) ++
      [octalDigit (c &&& 7)]

def encodeWordAsPrintf : Nat → Nat → Bytes
  | _, 0 => []
  | w, bytes + 1 => encodeByteAsPrintf (w &&& 255) ++ encodeWordAsPrintf (w >>> 8) bytes

def fixupText : Nat → Nat → Bytes
  | 0, _ => []
  | fuel + 1, w =>
    [0x5c, octalDigit ((w &&& 0o700) >>> 6), octalDigit ((w &&& 0o70) >>> 3),
      octalDigit (w &&& 0o7)] ++
      if w >>> 8 = 0 then [] else fixupText fuel (w >>> 8)

/-- The text is overwritten at a place, where `unassert` wants to see the slot for a byte. -/
def fixupWordAsPrintf (text : Bytes) (p w : Nat) : Option Bytes :=
  if (text.drop p).take 4 = ascii "\\000" then
    some (text.take p ++ fixupText 8 w ++ text.drop (p + (fixupText 8 w).length))
  else none

def printfStart (osabi machine : UInt8) (entry : BitVec 64) : Bytes :=
  ascii "\\177ELF" ++ ascii "\\2" ++ ascii "\\1" ++ ascii "\\1" ++
    encodeWordAsPrintf osabi.toNat 1 ++
    ascii "\\0" ++ ascii "\\0\\0\\0" ++ ascii "\\0\\0\\0\\0" ++ ascii "\\2\\0" ++
    encodeWordAsPrintf machine.toNat 1 ++
    ascii "\\0\\1\\0\\0\\0" ++
    encodeWordAsPrintf entry.toNat 8

def printfMiddle : Bytes :=
  ascii "\\000\\000\\000\\000\\0\\0\\0\\0" ++ ascii "\\0\\0\\0\\0\\0\\0\\0\\0" ++
    ascii "\\0\\0\\0\\0" ++ ascii "\\100\\0" ++ ascii "\\70\\0"

def printfEnd : Bytes := ascii "\\000\\000" ++ ascii "\\0\\0" ++ ascii "\\0\\0" ++ ascii "\\0\\0"

def printfArgument (osabi machine : UInt8) (entry : BitVec 64) (phoff phnum : Nat) :
    Option Bytes := do
  let start := printfStart osabi machine entry
  let text ← fixupWordAsPrintf (start ++ printfMiddle ++ printfEnd) start.length phoff
  fixupWordAsPrintf text (start ++ printfMiddle).length phnum

/-! ## ApeLoader -/

def sizeofEbuf : Nat := 8192

def scanOctal (buf : Bytes) (p : Nat) : Nat × Nat :=
  if isOctal (buf.getD p 0) then
    let c := (buf.getD p 0).toNat - 0x30
    if isOctal (buf.getD (p + 1) 0) then
      let c := c * 8 + ((buf.getD (p + 1) 0).toNat - 0x30)
      if isOctal (buf.getD (p + 2) 0) then
        (c * 8 + ((buf.getD (p + 2) 0).toNat - 0x30), p + 3)
      else (c, p + 2)
    else (c, p + 1)
  else (0x5c, p)

/-- The loop over the argument of a `printf`, from the place `p` of the buffer on, which ends at
`pe`: the buffer, the place after the argument and the number of bytes that were decoded. -/
def scanPrintf (pe : Nat) : Nat → Bytes → Nat → Nat → Bytes × Nat × Nat
  | 0, buf, p, i => (buf, p, i)
  | fuel + 1, buf, p, i =>
    if p + 3 < pe then
      if buf.getD p 0 = 0x27 then (buf, p + 1, i)
      else
        let (c, p) :=
          if buf.getD p 0 = 0x5c then scanOctal buf (p + 1) else ((buf.getD p 0).toNat, p + 1)
        let buf := buf.set i (UInt8.ofNat c)
        if sizeofEbuf ≤ i + 1 then (buf, p, i + 1) else scanPrintf pe fuel buf p (i + 1)
    else (buf, p, i)

/-! ## The header -/

def elfHeader (osabi machine : UInt8) (entry : BitVec 64) (phoff phnum : Nat) : Bytes :=
  [0x7f, 0x45, 0x4c, 0x46, 2, 1, 1, osabi] ++ leBytes 8 0 ++ leBytes 2 2 ++ [machine, 0] ++
    leBytes 4 1 ++ leBytes 8 entry.toNat ++ leBytes 8 phoff ++ leBytes 8 0 ++ leBytes 4 0 ++
    leBytes 2 64 ++ leBytes 2 56 ++ leBytes 2 phnum ++ leBytes 2 0 ++ leBytes 2 0 ++ leBytes 2 0

/-- The statement denotes the header: as text of the shell, and to the loader, wherever in the
buffer it stands. -/
structure PrintfRight (arg header : Bytes) : Prop where
  escapes : ∀ v ∈ Lib.escapes arg, v ≤ 255
  noQuote : (0x27 : UInt8) ∉ arg
  decoded : ∀ buf p pe tail, buf.drop p = arg ++ 0x27 :: tail → p + arg.length + 4 ≤ pe →
    pe ≤ buf.length → pe ≤ sizeofEbuf →
    (scanPrintf pe pe buf p 0).2.2 = 64 ∧ (scanPrintf pe pe buf p 0).1.take 64 = header

/-! ## What apelink writes, in tokens -/

/-- The byte the loader stores for it. -/
def stored (x : Token) : UInt8 := UInt8.ofNat x.value

def encodeToken (c : Nat) : Token :=
  if isPlain c then .raw (UInt8.ofNat c)
  else .esc ((if c &&& 0o700 ≠ 0 then [octalDigit ((c &&& 0o700) >>> 6)] else []) ++
    (if c &&& 0o770 ≠ 0 then [octalDigit ((c &&& 0o70) >>> 3)] else []) ++ [octalDigit (c &&& 7)])

def slotToken (w : Nat) : Token :=
  .esc [octalDigit ((w &&& 0o700) >>> 6), octalDigit ((w &&& 0o70) >>> 3), octalDigit (w &&& 0o7)]

def slotTokens (n w : Nat) : List Token := (List.range n).map fun j => slotToken (w / 256 ^ j)

theorem encodeByteAsPrintf_eq (c : Nat) : encodeByteAsPrintf c = (encodeToken c).text := by
  unfold encodeByteAsPrintf encodeToken
  split_ifs <;> rfl

theorem encodeToken_spec {c : Nat} (hc : c < 256) :
    (encodeToken c).valid = true ∧ (encodeToken c).value = c := by
  revert c
  decide +kernel

theorem stored_encodeToken (b : UInt8) : stored (encodeToken b.toNat) = b := by
  rw [stored, (encodeToken_spec b.toNat_lt).2, UInt8.ofNat_toNat]

theorem encodeWordAsPrintf_eq (w n : Nat) :
    encodeWordAsPrintf w n = render ((leBytes n w).map fun c => encodeToken c.toNat) := by
  induction n generalizing w with
  | zero => rfl
  | succ n ih =>
    have hbyte : w &&& 255 = (UInt8.ofNat w).toNat := by
      rw [UInt8.toNat_ofNat']
      exact Nat.and_two_pow_sub_one_eq_mod w 8
    rw [encodeWordAsPrintf, ih, leBytes_succ, map_cons, render_cons, encodeByteAsPrintf_eq,
      hbyte, Nat.shiftRight_eq_div_pow]

theorem slotToken_mod (w : Nat) : slotToken w = slotToken (w % 512) := by
  have hmask : ∀ m, 511 &&& m = m → w &&& m = w % 512 &&& m := by
    intro m hm
    rw [← Nat.and_two_pow_sub_one_eq_mod w 9, Nat.and_assoc]
    exact congrArg (w &&& ·) hm.symm
  unfold slotToken
  rw [hmask 0o700 (by decide), hmask 0o70 (by decide), hmask 0o7 (by decide)]

theorem slotToken_spec (w : Nat) : (slotToken w).valid = true ∧ (slotToken w).value = w % 512 := by
  have hall : ∀ v < 512, (slotToken v).valid = true ∧ (slotToken v).value = v := by decide +kernel
  rw [slotToken_mod]
  exact hall _ (Nat.mod_lt w (by omega))

theorem length_slotToken (w : Nat) : (slotToken w).text.length = 4 := rfl

theorem slotTokens_succ (n w : Nat) :
    slotTokens (n + 1) w = slotToken w :: slotTokens n (w / 256) := by
  unfold slotTokens
  rw [range_succ_eq_map, map_cons, map_map, pow_zero, Nat.div_one]
  refine congrArg _ (map_congr_left fun j _ => ?_)
  rw [Function.comp_apply, pow_succ', Nat.div_div_eq_div_mul]

theorem length_render_slotTokens (n w : Nat) : (render (slotTokens n w)).length = 4 * n := by
  induction n generalizing w with
  | zero => rfl
  | succ n ih =>
    rw [slotTokens_succ, render_cons, length_append, ih, length_slotToken]
    omega

theorem fixupText_succ (fuel w : Nat) :
    fixupText (fuel + 1) w =
      (slotToken w).text ++ if w / 256 = 0 then [] else fixupText fuel (w / 256) := by
  rw [fixupText, Nat.shiftRight_eq_div_pow w 8]
  rfl

variable {n fuel w p pe : Nat}

theorem fixupText_slots (hw : w < 256 ^ (n + 1)) (hn : n < fuel) :
    fixupText fuel w ++ (render (slotTokens (n + 1) 0)).drop (fixupText fuel w).length =
      render (slotTokens (n + 1) w) := by
  induction n generalizing w fuel with
  | zero =>
    obtain ⟨fuel, rfl⟩ := Nat.exists_eq_add_of_le' hn
    rw [fixupText_succ, if_pos (Nat.div_eq_of_lt (by omega)), append_nil, slotTokens_succ,
      slotTokens_succ, render_cons, render_cons]
    rfl
  | succ n ih =>
    obtain ⟨fuel, rfl⟩ := Nat.exists_eq_add_of_le' (show 1 ≤ fuel by omega)
    have hsmall : w / 256 < 256 ^ (n + 1) := by
      rw [Nat.pow_succ] at hw
      omega
    have hdrop : ∀ k, (render (slotTokens (n + 1 + 1) 0)).drop ((slotToken w).text.length + k) =
        (render (slotTokens (n + 1) 0)).drop k := by
      intro k
      rw [slotTokens_succ, render_cons, Nat.zero_div, length_slotToken, ← length_slotToken 0,
        drop_length_add_append]
    rw [fixupText_succ, length_append, hdrop, slotTokens_succ _ w, render_cons,
      append_assoc]
    congr 1
    split_ifs with hlast
    · rw [hlast]
      rfl
    · exact ih hsmall (by omega)

theorem fixupWordAsPrintf_slots (pre post : Bytes) (hw : w < 256 ^ (n + 1)) (hn : n < 8) :
    fixupWordAsPrintf (pre ++ render (slotTokens (n + 1) 0) ++ post) pre.length w =
      some (pre ++ render (slotTokens (n + 1) w) ++ post) := by
  have htext := fixupText_slots hw hn
  have hslot : (pre ++ render (slotTokens (n + 1) 0) ++ post).drop pre.length =
      render (slotTokens (n + 1) 0) ++ post := by
    rw [append_assoc, drop_left]
  have hbefore : (pre ++ render (slotTokens (n + 1) 0) ++ post).take pre.length = pre := by
    rw [append_assoc, take_left]
  have hlen : (fixupText 8 w).length ≤ (render (slotTokens (n + 1) 0)).length := by
    have hsum := congrArg List.length htext
    rw [length_append, length_render_slotTokens] at hsum
    rw [length_render_slotTokens]
    omega
  unfold fixupWordAsPrintf
  rw [if_pos (by rw [hslot, slotTokens_succ, render_cons]; rfl), ← drop_drop, hslot, hbefore,
    drop_append_of_le_length hlen, ← htext]
  simp only [append_assoc]

/-! ## What the loader reads -/

variable {c : UInt8} {buf rest tail : Bytes}

theorem getD_of_drop (h : buf.drop p = c :: rest) : buf.getD p 0 = c := by
  rw [List.getD_eq_getElem?_getD, ← List.head?_drop, h]
  rfl

theorem drop_succ_of_drop (h : buf.drop p = c :: rest) : buf.drop (p + 1) = rest := by
  rw [← drop_drop, h]
  rfl

theorem isOctal_getD (h : buf.drop p = rest) (hrest : NoDigit rest) :
    isOctal (buf.getD p 0) = false := by
  cases rest with
  | nil =>
    rw [List.getD_eq_getElem?_getD, ← List.head?_drop, h]
    rfl
  | cons c rest =>
    rw [getD_of_drop h]
    exact hrest c rfl

theorem scanOctal_eq {ds : Bytes} (hne : ds ≠ []) (hlen : ds.length ≤ 3)
    (hds : ∀ d ∈ ds, isOctal d = true) (hdrop : buf.drop p = ds ++ rest) (hrest : NoDigit rest) :
    scanOctal buf p = (octalValue ds, p + ds.length) := by
  unfold scanOctal
  match ds, hne, hlen with
  | [a], _, _ =>
    have hnext := drop_succ_of_drop hdrop
    rw [getD_of_drop hdrop, hds a (by simp), isOctal_getD hnext hrest]
    simp [octalValue]
  | [a, b], _, _ =>
    have hb := drop_succ_of_drop hdrop
    have hnext := drop_succ_of_drop hb
    rw [getD_of_drop hdrop, getD_of_drop hb, hds a (by simp), hds b (by simp),
      isOctal_getD hnext hrest]
    simp [octalValue]
  | [a, b, c], _, _ =>
    have hb := drop_succ_of_drop hdrop
    have hc := drop_succ_of_drop hb
    rw [getD_of_drop hdrop, getD_of_drop hb, getD_of_drop hc, hds a (by simp), hds b (by simp),
      hds c (by simp)]
    simp [octalValue]
  | _ :: _ :: _ :: _ :: _, _, hlong => exact absurd hlong (by simp)

theorem noDigit_quote (tail : Bytes) : NoDigit (0x27 :: tail) := by
  intro c hc
  obtain rfl := Option.some.inj hc
  decide

variable {x : Token}

theorem scan_token (hx : x.valid = true)
    (hdrop : buf.drop p = x.text ++ rest) (hrest : NoDigit rest) :
    (if buf.getD p 0 = 0x5c then scanOctal buf (p + 1) else ((buf.getD p 0).toNat, p + 1)) =
      (x.value, p + x.text.length) := by
  cases x with
  | raw c =>
    rw [getD_of_drop hdrop, if_neg (valid_raw hx).1]
    rfl
  | esc ds =>
    obtain ⟨hne, hlen, hds⟩ := valid_esc hx
    rw [getD_of_drop hdrop, if_pos rfl,
      scanOctal_eq hne hlen hds (drop_succ_of_drop hdrop) hrest]
    change (_, _) = (octalValue ds, p + (ds.length + 1))
    rw [Nat.add_assoc, Nat.add_comm 1]

/-- The bytes of the argument are put in front of where they are read, so the scanner reads what was
there at the start. -/
theorem scanPrintf_render {ts : List Token} {i : Nat}
    (hvalid : ∀ x ∈ ts, x.valid = true) (hquote : (0x27 : UInt8) ∉ render ts)
    (hdrop : buf.drop p = render ts ++ 0x27 :: tail) (hi : i ≤ p)
    (hpe : p + (render ts).length + 4 ≤ pe) (hlen : pe ≤ buf.length) (hsize : pe ≤ sizeofEbuf)
    (hfuel : ts.length < fuel) :
    (scanPrintf pe fuel buf p i).2.2 = i + ts.length ∧
      (scanPrintf pe fuel buf p i).1.take (i + ts.length) =
        buf.take i ++ ts.map stored := by
  -- on the tokens; what is decoded stays below the place that is read next
  induction ts generalizing fuel i p buf with
  | nil =>
    obtain ⟨fuel, rfl⟩ := Nat.exists_eq_add_of_le' hfuel
    have hq : buf.getD p 0 = 0x27 := getD_of_drop hdrop
    have hstep : scanPrintf pe (fuel + 1) buf p i = (buf, p + 1, i) := by
      rw [scanPrintf, if_pos (by change p + 0 + 4 ≤ pe at hpe; omega), if_pos hq]
    change (scanPrintf pe (fuel + 1) buf p i).2.2 = _ ∧
      (scanPrintf pe (fuel + 1) buf p i).1.take _ = _
    rw [hstep]
    exact ⟨rfl, (append_nil _).symm⟩
  | cons x ts ih =>
    obtain ⟨fuel, rfl⟩ := Nat.exists_eq_add_of_le' (show 1 ≤ fuel by omega)
    have hx := hvalid x mem_cons_self
    have hts : ∀ y ∈ ts, y.valid = true := fun y hy => hvalid y (mem_cons_of_mem x hy)
    rw [render_cons] at hquote hdrop hpe
    rw [append_assoc] at hdrop
    rw [length_append] at hpe
    have htoken := scan_token hx hdrop (noDigit_render hts (noDigit_quote tail))
    have hpos : 0 < x.text.length := by cases x <;> exact Nat.succ_pos _
    have hfirst : buf.getD p 0 ≠ 0x27 := by
      intro heq
      apply hquote
      apply mem_append_left
      cases hx : x.text with
      | nil => rw [hx] at hpos; exact absurd hpos (Nat.lt_irrefl 0)
      | cons c cs =>
        rw [hx] at hdrop
        rw [getD_of_drop hdrop] at heq
        rw [heq]
        exact mem_cons_self
    have hstep : scanPrintf pe (fuel + 1) buf p i =
        scanPrintf pe fuel (buf.set i (stored x)) (p + x.text.length) (i + 1) := by
      rw [scanPrintf, if_pos (by omega), if_neg hfirst, htoken]
      dsimp only
      rw [if_neg (by omega), stored]
    have hnext : (buf.set i (stored x)).drop (p + x.text.length) =
        render ts ++ 0x27 :: tail := by
      rw [drop_set_of_lt (by omega), ← drop_drop, hdrop, drop_left]
    have hbehind : i + 1 ≤ p + x.text.length := by omega
    have hless : ts.length < fuel := by
      rw [length_cons] at hfuel
      omega
    obtain ⟨hcount, htake⟩ := ih hts (fun h => hquote (mem_append_right _ h)) hnext hbehind
      (by omega) (by rw [length_set]; exact hlen) hless
    have hwritten : (buf.set i (stored x)).take (i + 1) =
        buf.take i ++ [stored x] := by
      rw [take_add_one, take_set_of_le (Nat.le_refl i),
        List.getElem?_set_self (by omega)]
      rfl
    rw [hstep, length_cons, show i + (ts.length + 1) = i + 1 + ts.length by omega]
    refine ⟨hcount, ?_⟩
    rw [htake, hwritten, append_assoc]
    rfl

/-! ## The whole argument -/

def escToken (s : String) : Token := .esc (ascii s)

def startTokens (osabi machine : UInt8) (entry : BitVec 64) : List Token :=
  [escToken "177", .raw 0x45, .raw 0x4c, .raw 0x46, escToken "2", escToken "1", escToken "1"] ++
    [encodeToken osabi.toNat] ++
    (replicate 8 (escToken "0") ++ [escToken "2", escToken "0"]) ++
    [encodeToken machine.toNat] ++
    [escToken "0", escToken "1", escToken "0", escToken "0", escToken "0"] ++
    (leBytes 8 entry.toNat).map fun c => encodeToken c.toNat

def middleTokens : List Token :=
  replicate 16 (escToken "0") ++ [escToken "100", escToken "0", escToken "70", escToken "0"]

def argumentTokens (osabi machine : UInt8) (entry : BitVec 64) (phoff phnum : Nat) : List Token :=
  startTokens osabi machine entry ++ slotTokens 4 phoff ++ middleTokens ++ slotTokens 2 phnum ++
    replicate 6 (escToken "0")

variable {osabi machine : UInt8} {entry : BitVec 64} {phoff phnum : Nat}

theorem printfStart_eq : printfStart osabi machine entry =
    render (startTokens osabi machine entry) := by
  have hident : render [escToken "177", .raw 0x45, .raw 0x4c, .raw 0x46, escToken "2",
      escToken "1", escToken "1"] =
        ascii "\\177ELF" ++ ascii "\\2" ++ ascii "\\1" ++ ascii "\\1" := by decide
  have htype : render (replicate 8 (escToken "0") ++ [escToken "2", escToken "0"]) =
        ascii "\\0" ++ ascii "\\0\\0\\0" ++ ascii "\\0\\0\\0\\0" ++ ascii "\\2\\0" := by
    decide
  have hversion : render [escToken "0", escToken "1", escToken "0", escToken "0", escToken "0"] =
      ascii "\\0\\1\\0\\0\\0" := by decide
  have hbyte : ∀ b : UInt8, encodeWordAsPrintf b.toNat 1 = render [encodeToken b.toNat] := by
    intro b
    rw [encodeWordAsPrintf_eq, leBytes_succ, UInt8.ofNat_toNat]
    rfl
  unfold printfStart startTokens
  rw [hbyte, hbyte, encodeWordAsPrintf_eq, render_append, render_append, render_append,
    render_append, render_append, hident, htype, hversion]
  simp only [append_assoc]

theorem printfMiddle_eq :
    printfMiddle = render (slotTokens 4 0) ++ render middleTokens := by
  decide

theorem printfEnd_eq :
    printfEnd = render (slotTokens 2 0) ++ render (replicate 6 (escToken "0")) := by
  decide

theorem printfArgument_eq (hphoff : phoff < 2 ^ 32) (hphnum : phnum < 2 ^ 16) :
    printfArgument osabi machine entry phoff phnum =
      some (render (argumentTokens osabi machine entry phoff phnum)) := by
  unfold printfArgument
  dsimp only
  have hfirst := fixupWordAsPrintf_slots (render (startTokens osabi machine entry))
    (render middleTokens ++ printfEnd) (n := 3) (w := phoff) hphoff (by omega)
  have hsecond := fixupWordAsPrintf_slots
    (render (startTokens osabi machine entry) ++ render (slotTokens 4 phoff) ++ render middleTokens)
    (render (replicate 6 (escToken "0"))) (n := 1) (w := phnum) hphnum (by omega)
  have hlen : (printfStart osabi machine entry ++ printfMiddle).length =
      (render (startTokens osabi machine entry) ++ render (slotTokens 4 phoff) ++
        render middleTokens).length := by
    rw [printfStart_eq, printfMiddle_eq]
    simp only [length_append, length_render_slotTokens]
    omega
  rw [hlen, printfStart_eq, printfMiddle_eq, ← append_assoc, append_assoc _ _ printfEnd,
    hfirst]
  rw [Option.bind_eq_bind, Option.bind_some, printfEnd_eq]
  simp only [← append_assoc] at hsecond ⊢
  rw [hsecond]
  unfold argumentTokens
  simp only [render_append]

def fixedTokens : List Token :=
  [escToken "177", .raw 0x45, .raw 0x4c, .raw 0x46, escToken "2", escToken "1", escToken "0",
    escToken "100", escToken "70"]

theorem mem_argumentTokens : x ∈ argumentTokens osabi machine entry phoff phnum ↔ x ∈ fixedTokens ∨
      (∃ c ∈ osabi :: machine :: leBytes 8 entry.toNat, x = encodeToken c.toNat) ∨
      x ∈ slotTokens 4 phoff ∨ x ∈ slotTokens 2 phnum := by
  simp only [argumentTokens, startTokens, middleTokens, fixedTokens, mem_append, mem_cons,
    mem_replicate, mem_map, not_mem_nil, or_false, exists_eq_or_imp]
  constructor
  · grind
  · grind

theorem argumentTokens_valid :
    ∀ x ∈ argumentTokens osabi machine entry phoff phnum, x.valid = true := by
  intro x hx
  rcases mem_argumentTokens.mp hx with hfixed | ⟨c, -, rfl⟩ | hslot | hslot
  · exact (show ∀ x ∈ fixedTokens, x.valid = true by decide) x hfixed
  · exact (encodeToken_spec c.toNat_lt).1
  · obtain ⟨j, -, rfl⟩ := List.mem_map.mp hslot
    exact (slotToken_spec _).1
  · obtain ⟨j, -, rfl⟩ := List.mem_map.mp hslot
    exact (slotToken_spec _).1

theorem slotTokens_le_iff (n w : Nat) :
    (∀ x ∈ slotTokens n w, x.value ≤ 255) ↔ ∀ j < n, w / 256 ^ (j + 1) % 2 = 0 := by
  have hbyte : ∀ j, (slotToken (w / 256 ^ j)).value ≤ 255 ↔ w / 256 ^ (j + 1) % 2 = 0 := by
    intro j
    rw [(slotToken_spec _).2, pow_succ, ← Nat.div_div_eq_div_mul]
    omega
  unfold slotTokens
  simp only [mem_map, mem_range, forall_exists_index, and_imp, forall_apply_eq_imp_iff₂,
    hbyte]

theorem escapes_argument_iff :
    (∀ v ∈ escapes (render (argumentTokens osabi machine entry phoff phnum)), v ≤ 255) ↔
      (∀ j < 4, phoff / 256 ^ (j + 1) % 2 = 0) ∧ ∀ j < 2, phnum / 256 ^ (j + 1) % 2 = 0 := by
  rw [escapes_le_iff argumentTokens_valid, ← slotTokens_le_iff, ← slotTokens_le_iff]
  constructor
  · intro h
    exact ⟨fun x hx => h x (mem_argumentTokens.mpr (by tauto)),
      fun x hx => h x (mem_argumentTokens.mpr (by tauto))⟩
  · rintro ⟨hoff, hnum⟩ x hx
    rcases mem_argumentTokens.mp hx with hfixed | ⟨c, -, rfl⟩ | hslot | hslot
    · exact (show ∀ x ∈ fixedTokens, x.value ≤ 255 by decide) x hfixed
    · rw [(encodeToken_spec c.toNat_lt).2]
      exact Nat.le_of_lt_succ c.toNat_lt
    · exact hoff x hslot
    · exact hnum x hslot

theorem quote_mem_argument_iff :
    (0x27 : UInt8) ∈ render (argumentTokens osabi machine entry phoff phnum) ↔
      (0x27 : UInt8) ∈ osabi :: machine :: leBytes 8 entry.toNat := by
  rw [mem_render_iff argumentTokens_valid (by decide) (by decide), mem_argumentTokens]
  constructor
  · rintro (hfixed | ⟨c, hc, heq⟩ | hslot | hslot)
    · exact absurd hfixed (by decide)
    · have hvalue := (encodeToken_spec c.toNat_lt).2
      rw [← heq] at hvalue
      rwa [UInt8.toNat_inj.mp hvalue]
    · obtain ⟨j, -, heq⟩ := List.mem_map.mp hslot
      nomatch heq
    · obtain ⟨j, -, heq⟩ := List.mem_map.mp hslot
      nomatch heq
  · intro h
    exact Or.inr (Or.inl ⟨0x27, h, by decide⟩)

theorem map_slotTokens (n w : Nat) :
    (slotTokens n w).map stored = leBytes n w := by
  unfold slotTokens leBytes
  rw [map_map]
  refine map_congr_left fun j _ => ?_
  rw [Function.comp_apply, stored, (slotToken_spec _).2]
  apply UInt8.toNat_inj.mp
  rw [UInt8.toNat_ofNat', UInt8.toNat_ofNat']
  omega

theorem map_encodeTokens (l : Bytes) :
    (l.map fun c => encodeToken c.toNat).map stored = l := by
  rw [map_map]
  exact List.map_id'' stored_encodeToken l

theorem map_argumentTokens (osabi machine : UInt8) (entry : BitVec 64) (phnum : Nat)
    (hphoff : phoff < 2 ^ 32) :
    (argumentTokens osabi machine entry phoff phnum).map stored =
      elfHeader osabi machine entry phoff phnum := by
  have hlong : leBytes 8 phoff = leBytes 4 phoff ++ leBytes 4 0 := by
    rw [leBytes_add 4 4, Nat.div_eq_of_lt (show phoff < 256 ^ 4 by omega)]
  have hident : [escToken "177", .raw 0x45, .raw 0x4c, .raw 0x46, escToken "2", escToken "1",
      escToken "1"].map stored = [0x7f, 0x45, 0x4c, 0x46, 2, 1, 1] := by
    decide
  have htype : (replicate 8 (escToken "0") ++ [escToken "2", escToken "0"]).map
      stored = leBytes 8 0 ++ leBytes 2 2 := by decide
  have hversion : [escToken "0", escToken "1", escToken "0", escToken "0", escToken "0"].map
      stored = [0] ++ leBytes 4 1 := by decide
  have hmiddle : middleTokens.map stored =
      leBytes 4 0 ++ leBytes 8 0 ++ leBytes 4 0 ++ leBytes 2 64 ++ leBytes 2 56 := by decide
  have hlast : (replicate 6 (escToken "0")).map stored =
      leBytes 2 0 ++ leBytes 2 0 ++ leBytes 2 0 := by decide
  unfold argumentTokens startTokens elfHeader
  rw [map_append, map_append, map_append, map_append, map_append,
    map_append, map_append, map_append, map_append, hident, htype, hversion,
    hmiddle, hlast, map_slotTokens, map_slotTokens, map_encodeTokens, map_singleton,
    stored_encodeToken, map_singleton, stored_encodeToken, hlong]
  simp only [append_assoc, cons_append, nil_append]

theorem length_argumentTokens :
    (argumentTokens osabi machine entry phoff phnum).length = 64 := by
  have hentry : (leBytes 8 entry.toNat).length = 8 := by simp [leBytes]
  have hslots : ∀ n w, (slotTokens n w).length = n := by
    intro n w
    simp [slotTokens]
  simp [argumentTokens, startTokens, middleTokens, hentry, hslots]

theorem scanPrintf_argument (hphoff : phoff < 2 ^ 32)
    (hquote : (0x27 : UInt8) ∉ render (argumentTokens osabi machine entry phoff phnum))
    (hdrop : buf.drop p =
      render (argumentTokens osabi machine entry phoff phnum) ++ 0x27 :: tail)
    (hpe : p + (render (argumentTokens osabi machine entry phoff phnum)).length + 4 ≤ pe)
    (hlen : pe ≤ buf.length) (hsize : pe ≤ sizeofEbuf) :
    (scanPrintf pe pe buf p 0).2.2 = 64 ∧
      (scanPrintf pe pe buf p 0).1.take 64 = elfHeader osabi machine entry phoff phnum := by
  have hfuel : (argumentTokens osabi machine entry phoff phnum).length < pe := by
    have hle := length_le_render (argumentTokens osabi machine entry phoff phnum)
    omega
  obtain ⟨hi, htake⟩ := scanPrintf_render argumentTokens_valid hquote hdrop (Nat.zero_le p) hpe
    hlen hsize hfuel
  rw [Nat.zero_add, length_argumentTokens] at hi htake
  refine ⟨hi, ?_⟩
  rw [htake, map_argumentTokens osabi machine entry phnum hphoff, take_zero, nil_append]

/-- For every header: the argument denotes it just if no byte that is encoded is a single quote, and
the bytes of the offset and the number above the lowest are even. -/
theorem printfRight_iff_noQuote_even (osabi machine : UInt8) (entry : BitVec 64)
    (hphoff : phoff < 2 ^ 32) (hphnum : phnum < 2 ^ 16) :
    (∃ arg, printfArgument osabi machine entry phoff phnum = some arg ∧
      PrintfRight arg (elfHeader osabi machine entry phoff phnum)) ↔
    (0x27 : UInt8) ∉ osabi :: machine :: leBytes 8 entry.toNat ∧
      phoff / 2 ^ 8 % 2 = 0 ∧ phoff / 2 ^ 16 % 2 = 0 ∧ phoff / 2 ^ 24 % 2 = 0 ∧
      phnum / 2 ^ 8 % 2 = 0 := by
  rw [printfArgument_eq hphoff hphnum, ← quote_mem_argument_iff]
  have hbits : (phoff / 2 ^ 8 % 2 = 0 ∧ phoff / 2 ^ 16 % 2 = 0 ∧ phoff / 2 ^ 24 % 2 = 0 ∧
      phnum / 2 ^ 8 % 2 = 0) ↔
      (∀ j < 4, phoff / 256 ^ (j + 1) % 2 = 0) ∧ ∀ j < 2, phnum / 256 ^ (j + 1) % 2 = 0 := by
    constructor
    · rintro ⟨h8, h16, h24, hn⟩
      constructor
      · intro j hj
        interval_cases j <;> omega
      · intro j hj
        interval_cases j <;> omega
    · rintro ⟨hoff, hnum⟩
      exact ⟨hoff 0 (by omega), hoff 1 (by omega), hoff 2 (by omega), hnum 0 (by omega)⟩
  constructor
  · rintro ⟨arg, harg, hright⟩
    obtain rfl := Option.some.inj harg
    exact ⟨hright.noQuote, hbits.mpr (escapes_argument_iff.mp hright.escapes)⟩
  · rintro ⟨hquote, heven⟩
    refine ⟨_, rfl, escapes_argument_iff.mpr (hbits.mp heven), hquote, ?_⟩
    intro buf p pe tail hdrop hpe hlen hsize
    exact scanPrintf_argument hphoff hquote hdrop hpe hlen hsize

theorem printfRight_entry_401000 :
    ∃ arg, printfArgument 9 62 0x401000 0x2040 7 = some arg ∧
      PrintfRight arg (elfHeader 9 62 0x401000 0x2040 7) :=
  (printfRight_iff_noQuote_even 9 62 0x401000 (by decide) (by decide)).mpr (by decide)

/-- An entry point with the byte of a single quote ends the argument early, and the slot of an offset
whose second byte is odd has the escape `\400`. -/
theorem not_printfRight_quote_carry :
    (¬∃ arg, printfArgument 9 62 0x402700 0x2040 7 = some arg ∧
      PrintfRight arg (elfHeader 9 62 0x402700 0x2040 7)) ∧
    ¬∃ arg, printfArgument 9 62 0x401000 0x100 7 = some arg ∧
      PrintfRight arg (elfHeader 9 62 0x401000 0x100 7) := by
  rw [printfArgument_eq (by decide) (by decide), printfArgument_eq (by decide) (by decide)]
  constructor
  · rintro ⟨arg, harg, hright⟩
    obtain rfl := Option.some.inj harg
    exact absurd (quote_mem_argument_iff.mpr (by decide)) hright.noQuote
  · rintro ⟨arg, harg, hright⟩
    obtain rfl := Option.some.inj harg
    exact absurd ((escapes_argument_iff.mp hright.escapes).1 0 (by omega)) (by decide)

end CosmoRuby.Ape
