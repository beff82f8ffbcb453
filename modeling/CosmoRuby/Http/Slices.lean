import CosmoRuby.Http.Framing

/-!
# The slices of an accepted message

Where the header lines of an accepted message are filed, said without the parser: `slot` is what the
table holds for a header, `spilled` is the spill array.  The parser fills both as they say, and every
slice it publishes cuts a well formed piece out of the message.
-/

namespace CosmoRuby.Http

open Lib List

/-! ## Filing -/

structure HeaderLine where
  name : Bytes
  slices : HttpHeader

def HeaderLine.id (l : HeaderLine) : Option HeaderId := getHttpHeader l.name

/-- A line goes to the spill array when its header has no number, or repeats one that may repeat. -/
def spills (before : List HeaderLine) (l : HeaderLine) : Bool :=
  match l.id with
  | none => true
  | some h => kHttpRepeatable h && before.any fun b => b.id == some h

def spilled (before : List HeaderLine) : List HeaderLine → List HttpHeader
  | [] => []
  | l :: ls => (if spills before l then [l.slices] else []) ++ spilled (before ++ [l]) ls

/-- The table's slice for `h`: the first of its lines when `h` may repeat, the last one when not. -/
def slot (lines : List HeaderLine) (h : HeaderId) : HttpSlice :=
  let own := lines.filter fun l => l.id == some h
  ((if kHttpRepeatable h then own.head? else own.getLast?).map (·.slices.v)).getD ⟨0, 0⟩

/-- The header lines of `fields`, the first of which starts at offset `off`. -/
def located (off : Nat) : List Field → List HeaderLine
  | [] => []
  | f :: fs =>
    ⟨f.name, f.keySlice off, f.valueSlice off⟩ :: located (off + f.bytes.length) fs

theorem spilled_concat (before lines : List HeaderLine) (l : HeaderLine) :
    spilled before (lines ++ [l]) =
      spilled before lines ++ if spills (before ++ lines) l then [l.slices] else [] := by
  induction lines generalizing before with
  | nil => simp [spilled]
  | cons x xs ih => simp [spilled, ih]

theorem add_fieldsBytes_cons (off : Nat) (g : Field) (fs : List Field) :
    off + (fieldsBytes (g :: fs)).length = off + g.bytes.length + (fieldsBytes fs).length := by
  simp only [fieldsBytes, map_cons, flatten_cons, length_append]
  omega

theorem located_concat (off : Nat) (fs : List Field) (f : Field) :
    located off (fs ++ [f]) = located off fs ++
      [⟨f.name, f.keySlice (off + (fieldsBytes fs).length),
        f.valueSlice (off + (fieldsBytes fs).length)⟩] := by
  induction fs generalizing off with
  | nil => rfl
  | cons g fs ih =>
    rw [cons_append, located, ih, located, add_fieldsBytes_cons, cons_append]

variable {off : Nat} {fs : List Field} {l : HeaderLine}

theorem mem_located (hl : l ∈ located off fs) : ∃ pre f post, fs = pre ++ f :: post ∧
      l = ⟨f.name, f.keySlice (off + (fieldsBytes pre).length),
        f.valueSlice (off + (fieldsBytes pre).length)⟩ := by
  induction fs generalizing off with
  | nil => cases hl
  | cons g fs ih =>
    rcases List.mem_cons.mp hl with rfl | hl
    · exact ⟨[], g, fs, rfl, rfl⟩
    · obtain ⟨pre, f, post, rfl, rfl⟩ := ih hl
      refine ⟨g :: pre, f, post, rfl, ?_⟩
      rw [add_fieldsBytes_cons]

variable {h : HeaderId}

theorem slot_concat_self (lines : List HeaderLine) (hl : l.id = some h) :
    slot (lines ++ [l]) h =
      if kHttpRepeatable h && lines.any (fun b => b.id == some h) then slot lines h
      else l.slices.v := by
  have hown : (lines ++ [l]).filter (fun l => l.id == some h) =
      lines.filter (fun l => l.id == some h) ++ [l] := by
    rw [filter_append, filter_singleton]
    simp [hl]
  unfold slot
  rw [hown]
  by_cases hrep : kHttpRepeatable h = true
  · simp only [hrep, if_true, Bool.true_and]
    cases hf : lines.filter (fun l => l.id == some h) with
    | nil =>
      have hany : lines.any (fun b => b.id == some h) = false :=
        List.any_eq_false.mpr (List.filter_eq_nil_iff.mp hf)
      rw [hany]
      rfl
    | cons x xs =>
      have hx : x ∈ lines.filter (fun l => l.id == some h) := by rw [hf]; exact mem_cons_self
      have hany : lines.any (fun b => b.id == some h) = true :=
        List.any_eq_true.mpr ⟨x, List.mem_filter.mp hx⟩
      rw [hany]
      rfl
  · simp [hrep]

theorem slot_concat_other (lines : List HeaderLine)
    (hl : l.id ≠ some h) : slot (lines ++ [l]) h = slot lines h := by
  have hown : (lines ++ [l]).filter (fun l => l.id == some h) =
      lines.filter (fun l => l.id == some h) := by
    have hfalse : (l.id == some h) = false := by simpa using hl
    rw [filter_append, filter_singleton, hfalse]
    exact append_nil _
  unfold slot
  rw [hown]

theorem slot_mem (lines : List HeaderLine) (h : HeaderId) :
    (slot lines h = ⟨0, 0⟩ ∧ lines.any (fun b => b.id == some h) = false) ∨
      ∃ l ∈ lines, l.id = some h ∧ slot lines h = l.slices.v := by
  induction lines using List.reverseRecOn with
  | nil => exact .inl ⟨by unfold slot; split <;> rfl, rfl⟩
  | append_singleton lines l ih =>
    by_cases hl : l.id = some h
    · rw [slot_concat_self lines hl]
      right
      split_ifs with hrep
      · rcases ih with ⟨-, hany⟩ | ⟨x, hx, hid, hslot⟩
        · simp [hany] at hrep
        · exact ⟨x, mem_append_left _ hx, hid, hslot⟩
      · exact ⟨l, by simp, hl, rfl⟩
    · rw [slot_concat_other lines hl]
      rcases ih with ⟨hslot, hany⟩ | ⟨x, hx, hid, hslot⟩
      · exact .inl ⟨hslot, by simp [hany, hl]⟩
      · exact .inr ⟨x, mem_append_left _ hx, hid, hslot⟩

variable {lines : List HeaderLine}

theorem mem_spilled {before : List HeaderLine} {x : HttpHeader}
    (hx : x ∈ spilled before lines) : ∃ l ∈ lines, x = l.slices := by
  induction lines generalizing before with
  | nil => cases hx
  | cons l ls ih =>
    rw [spilled] at hx
    rcases List.mem_append.mp hx with h | h
    · split_ifs at h
      · exact ⟨l, mem_cons_self, List.mem_singleton.mp h⟩
      · cases h
    · obtain ⟨y, hy, rfl⟩ := ih h
      exact ⟨y, mem_cons_of_mem _ hy, rfl⟩

/-! ## The parser files so -/

section Filing

variable {realloc : Nat → Bool} (hrealloc : ∀ c, realloc c = true)

include hrealloc

theorem pushXheader_spec {x : HttpHeaders} (hx : x.p.length ≤ x.c) (h : HttpHeader) :
    (pushXheader realloc x h).p = x.p ++ [h] ∧
      (pushXheader realloc x h).p.length ≤ (pushXheader realloc x h).c := by
  unfold pushXheader
  dsimp only
  by_cases hfull : x.p.length = x.c
  · -- the array is full: twice its capacity, or one, has room
    rw [if_pos hfull, hrealloc, if_pos rfl]
    dsimp only
    have hroom : x.p.length < if x.c = 0 then 1 else x.c * 2 := by split <;> omega
    rw [if_pos hroom]
    exact ⟨rfl, by simpa using hroom⟩
  · rw [if_neg hfull, if_pos (by omega)]
    refine ⟨rfl, ?_⟩
    simp only [length_append, length_singleton]
    omega

/-- The lines filed so far are where `slot` and `spilled` have them. -/
structure Filed (lines : List HeaderLine) (s : Store) : Prop where
  headers : ∀ h, s.headers h = slot lines h
  xheaders : s.xheaders.p = spilled [] lines
  room : s.xheaders.p.length ≤ s.xheaders.c

omit hrealloc in
theorem filed_nil : Filed [] emptyStore where
  headers := fun h => by unfold slot; split <;> rfl
  xheaders := rfl
  room := le_rfl

variable {s : Store}

theorem Filed.spill (hs : Filed lines s) (hspills : spills lines l = true)
    (hslot : ∀ h, l.id = some h → slot (lines ++ [l]) h = slot lines h) :
    Filed (lines ++ [l]) { s with xheaders := pushXheader realloc s.xheaders l.slices } := by
  obtain ⟨hp, hroom⟩ := pushXheader_spec hrealloc hs.room l.slices
  refine ⟨fun h => ?_, ?_, hroom⟩
  · by_cases hid : l.id = some h
    · rw [hslot h hid]
      exact hs.headers h
    · rw [slot_concat_other lines hid]
      exact hs.headers h
  · rw [spilled_concat, nil_append, if_pos hspills, ← hs.xheaders]
    exact hp

omit hrealloc in
theorem Filed.put (hs : Filed lines s) (hid : l.id = some h)
    (hfirst : (kHttpRepeatable h && lines.any fun b => b.id == some h) = false) :
    Filed (lines ++ [l]) { s with headers := Function.update s.headers h l.slices.v } := by
  refine ⟨fun h' => ?_, ?_, hs.room⟩
  · by_cases hh : h' = h
    · subst hh
      rw [slot_concat_self lines hid, hfirst]
      exact Function.update_self ..
    · have hother : l.id ≠ some h' := fun hc => hh (Option.some.inj (hc.symm.trans hid))
      rw [slot_concat_other lines hother, ← hs.headers h']
      exact Function.update_of_ne hh ..
  · have hspills : spills lines l = false := by simp only [spills, hid, hfirst]
    rw [spilled_concat, nil_append, hspills, ← hs.xheaders]
    exact (append_nil _).symm

theorem Filed.file (hs : Filed lines s) (hpos : ∀ l ∈ lines, l.slices.v.a ≠ 0) (l : HeaderLine) :
    Filed (lines ++ [l]) (s.file realloc l.name l.slices) := by
  cases hid : l.id with
  | none =>
    rw [Store.file_none realloc s l.slices hid]
    refine hs.spill hrealloc ?_ fun h hh => by rw [hid] at hh; cases hh
    simp only [spills, hid]
  | some h =>
    -- the slot is free exactly when no line of `h` came before
    have hfree : (s.headers h).a = 0 ↔ lines.any (fun b => b.id == some h) = false := by
      rw [hs.headers h]
      rcases slot_mem lines h with ⟨hslot, hany⟩ | ⟨x, hx, hxid, hslot⟩
      · simp [hslot, hany]
      · have hany : lines.any (fun b => b.id == some h) = true :=
          List.any_eq_true.mpr ⟨x, hx, by simp [hxid]⟩
        simp [hslot, hany, hpos x hx]
    rw [Store.file_some realloc s l.slices hid]
    by_cases hrep : (kHttpRepeatable h && lines.any fun b => b.id == some h) = true
    · obtain ⟨hr, hany⟩ := Bool.and_eq_true_iff.mp hrep
      rw [if_neg (by rw [hfree, hany, hr]; decide)]
      refine hs.spill hrealloc ?_ fun h' hh' => ?_
      · simp only [spills, hid, hrep]
      · cases hid.symm.trans hh'
        rw [slot_concat_self lines hid, if_pos hrep]
    · have hput : (s.headers h).a = 0 ∨ (!kHttpRepeatable h) = true := by
        rw [hfree]
        cases hr : kHttpRepeatable h with
        | false => exact .inr rfl
        | true => exact .inl (by simpa [hr] using hrep)
      rw [if_pos hput]
      exact hs.put hid (by simpa using hrep)

omit hrealloc in
theorem located_value_pos : ∀ l ∈ located off fs, l.slices.v.a ≠ 0 := by
  intro l hl
  obtain ⟨pre, f, post, -, rfl⟩ := mem_located hl
  simp only [Field.valueSlice, sliceAt]
  omega

theorem filed_fileFields (off : Nat) (fs : List Field) :
    Filed (located off fs) (fileFields realloc off fs emptyStore) := by
  induction fs using List.reverseRecOn with
  | nil => exact filed_nil
  | append_singleton fs f ih =>
    rw [located_concat, fileFields_concat]
    exact ih.file hrealloc located_value_pos _

end Filing

/-! ## What a slice cuts out -/

def HttpSlice.In (s : HttpSlice) (k : Int) : Prop := 0 ≤ s.a ∧ s.a ≤ s.b ∧ s.b ≤ k

def IsKeySlice (m : Bytes) (k : Int) (s : HttpSlice) : Prop :=
  s.In k ∧ keyOf m s ≠ [] ∧ AllBytes kHttpToken (keyOf m s)

def IsValueSlice (m : Bytes) (k : Int) (s : HttpSlice) : Prop :=
  s.In k ∧ AllBytes valueByte (keyOf m s) ∧
    (∀ c, (keyOf m s).head? = some c → isBlank c = false) ∧
    ∀ c, (keyOf m s).getLast? = some c → isBlank c = false

def IsLineSlice (m : Bytes) (k : Int) (s : HttpSlice) : Prop :=
  s.In k ∧ AllBytes messageByte (keyOf m s)

structure SlicesSound (m : Bytes) (k : Int) (r : HttpMessage) : Prop where
  uri : IsLineSlice m k r.uri
  message : IsLineSlice m k r.message
  headers : ∀ h, (r.headers h).a ≠ 0 → IsValueSlice m k (r.headers h)
  xheaders : ∀ x ∈ r.xheaders.p, IsKeySlice m k x.k ∧ IsValueSlice m k x.v

theorem sliceAt_in {len : Nat} {k : Int} (h : ((off + len : Nat) : Int) ≤ k) :
    (sliceAt off len).In k := by
  refine ⟨?_, ?_, h⟩ <;> simp only [sliceAt] <;> omega

theorem slice_of_take {m pre x post : Bytes} {k : Nat} (hk : k ≤ m.length)
    (hm : m.take k = pre ++ x ++ post) :
    (sliceAt pre.length x.length).In k ∧ keyOf m (sliceAt pre.length x.length) = x := by
  have hlen := congrArg List.length hm
  simp only [length_take, length_append] at hlen
  refine ⟨sliceAt_in (by omega), ?_⟩
  rw [← take_append_drop k m, hm, append_assoc (pre ++ x)]
  exact keyOf_sliceAt pre x (post ++ m.drop k)

theorem isLineSlice_empty (m : Bytes) (k : Nat) : IsLineSlice m k ⟨0, 0⟩ := by
  refine ⟨⟨le_rfl, le_rfl, Int.natCast_nonneg k⟩, ?_⟩
  simp only [keyOf, slice, Int.toNat_zero, take_zero, drop_nil]
  exact .nil

theorem messageByte_of_uriByte (c : UInt8) (h : uriByte c = true) : messageByte c = true :=
  (Bool.and_eq_true_iff.mp h).2

section Accepted

variable {realloc : Nat → Bool} {type : HttpType} {m : Bytes} {k : Nat} {r : HttpMessage}
  {head : Head} {fields : List Field} {blank : Bytes}

section

variable (hacc : Accepted realloc type (m.take k) r head fields blank) (hk : k ≤ m.length)
include hacc hk

theorem Accepted.uri : IsLineSlice m k r.uri := by
  rw [hacc.sections.uri]
  have hm := hacc.bytes
  have hwf := hacc.sections.head_wf
  cases head with
  | response => exact isLineSlice_empty m k
  | request lead method uri version stop =>
    have hsplit : m.take k = (lead ++ method ++ [chSpace]) ++ uri ++
        (optionalPart version ++ stop ++ fieldsBytes fields ++ blank) := by
      rw [hm]
      simp [Head.bytes]
    obtain ⟨hin, htext⟩ := slice_of_take hk hsplit
    have hoff : (Head.request lead method uri version stop).uriSlice =
        sliceAt (lead ++ method ++ [chSpace]).length uri.length := by
      simp [Head.uriSlice, add_assoc]
    rw [hoff, IsLineSlice, htext]
    exact ⟨hin, hwf.2.2.2.2.2.1.mono messageByte_of_uriByte⟩

theorem Accepted.message : IsLineSlice m k r.message := by
  rw [hacc.sections.message]
  have hm := hacc.bytes
  have hwf := hacc.sections.head_wf
  cases head with
  | request => exact isLineSlice_empty m k
  | response lead version sep status message stop =>
    cases message with
    | none => exact isLineSlice_empty m k
    | some s =>
      have hsplit : m.take k = (lead ++ version ++ [sep] ++ status ++ [chSpace]) ++ s ++
          (stop ++ fieldsBytes fields ++ blank) := by
        rw [hm]
        simp [Head.bytes, optionalPart]
      obtain ⟨hin, htext⟩ := slice_of_take hk hsplit
      have hoff : (Head.response lead version sep status (some s) stop).messageSlice =
          sliceAt (lead ++ version ++ [sep] ++ status ++ [chSpace]).length s.length := by
        simp only [Head.messageSlice, length_append, length_singleton]
      rw [hoff, IsLineSlice, htext]
      exact ⟨hin, hwf.2.2.2.2.2.2.1 s rfl⟩

theorem Accepted.line (hl : l ∈ located head.bytes.length fields) :
    IsKeySlice m k l.slices.k ∧ IsValueSlice m k l.slices.v := by
  obtain ⟨pre, f, post, hfields, rfl⟩ := mem_located hl
  have hf : f.Wf := hacc.sections.fields_wf f (by rw [hfields]; simp)
  have hm : m.take k = head.bytes ++ fieldsBytes pre ++ f.bytes ++ (fieldsBytes post ++ blank) := by
    rw [hacc.bytes, hfields]
    simp [fieldsBytes]
  have hkey : m.take k = (head.bytes ++ fieldsBytes pre) ++ f.name ++
      ([0x3A] ++ f.pad ++ f.value ++ f.trail ++ f.eol ++ (fieldsBytes post ++ blank)) := by
    rw [hm]
    simp [Field.bytes]
  have hvalue : m.take k = (head.bytes ++ fieldsBytes pre ++ f.name ++ [0x3A] ++ f.pad) ++ f.value ++
      (f.trail ++ f.eol ++ (fieldsBytes post ++ blank)) := by
    rw [hm]
    simp [Field.bytes]
  obtain ⟨hkin, hktext⟩ := slice_of_take hk hkey
  obtain ⟨hvin, hvtext⟩ := slice_of_take hk hvalue
  simp only [length_append, length_singleton] at hkin hktext hvin hvtext
  simp only [Field.keySlice, Field.valueSlice, IsKeySlice, IsValueSlice, hktext, hvtext]
  exact ⟨⟨hkin, hf.name_ne, hf.name⟩, hvin, hf.value, hf.first, hf.last⟩

end

section

variable (hrealloc : ∀ c, realloc c = true) (hacc : Accepted realloc type (m.take k) r head fields blank)
include hrealloc hacc

theorem Accepted.filed : Filed (located head.bytes.length fields) r.store := by
  rw [hacc.sections.store]
  exact filed_fileFields hrealloc _ _

theorem Accepted.slicesSound (hk : k ≤ m.length) : SlicesSound m k r := by
  have hfiled := hacc.filed hrealloc
  refine ⟨hacc.uri hk, hacc.message hk, fun h hne => ?_, fun x hx => ?_⟩
  · have hslot : r.headers h = slot (located head.bytes.length fields) h := hfiled.headers h
    rcases slot_mem (located head.bytes.length fields) h with ⟨hzero, -⟩ | ⟨l, hl, -, hval⟩
    · exact absurd (by rw [hslot, hzero]) hne
    · rw [hslot, hval]
      exact (hacc.line hk hl).2
  · have hx' : x ∈ spilled [] (located head.bytes.length fields) := hfiled.xheaders ▸ hx
    obtain ⟨l, hl, rfl⟩ := mem_spilled hx'
    exact hacc.line hk hl

end

end Accepted

/-- On every input a fresh parser accepts, with memory for the spill array, the bytes it takes are a
head, header fields and an empty line, every slice it publishes is sound, and each of the fields is
filed once: in the table's slot for its header or in the spill array, in order. -/
theorem parse_slicesSound (realloc : Nat → Bool) (type : HttpType) (m : Bytes) (c : Nat) (k : Int)
    (r : HttpMessage) (hrealloc : ∀ c, realloc c = true) (hc : m.length ≤ c) (hk : 0 < k)
    (hparse : parseHttpMessage realloc (initHttpMessage type) m m.length c = (k, r)) :
    SlicesSound m k r ∧ ∃ (head : Head) (fields : List Field) (blank : Bytes),
      m.take k.toNat = head.bytes ++ fieldsBytes fields ++ blank ∧ head.Wf type ∧
      (∀ f ∈ fields, f.Wf) ∧ IsEol blank ∧
      (∀ h, r.headers h = slot (located head.bytes.length fields) h) ∧
      r.xheaders.p = spilled [] (located head.bytes.length fields) := by
  obtain ⟨hkn, head, fields, blank, hacc⟩ := accepted_of_parse le_rfl hc hk hparse
  have hsound := hacc.slicesSound hrealloc (by omega)
  rw [Int.toNat_of_nonneg hk.le] at hsound
  have hfiled := hacc.filed hrealloc
  exact ⟨hsound, head, fields, blank, hacc.bytes, hacc.sections.head_wf, hacc.sections.fields_wf,
    hacc.blank_eol, hfiled.headers, hfiled.xheaders⟩

def acceptTwice : Bytes :=
  ascii "HTTP/1.0 200 OK\r\nAccept: a\r\nX: b \r\nAccept: c\r\n\r\n"

theorem parse_slicesSound_acceptTwice :
    SlicesSound acceptTwice 48
      (parseHttpMessage (fun _ => true) (initHttpMessage .kHttpResponse) acceptTwice
        acceptTwice.length 48).2 := by
  have hlen : acceptTwice.length ≤ 48 := by decide +kernel
  have hk : (parseHttpMessage (fun _ => true) (initHttpMessage .kHttpResponse) acceptTwice
      acceptTwice.length 48).1 = 48 := by decide +kernel
  generalize hparse : parseHttpMessage (fun _ => true) (initHttpMessage .kHttpResponse) acceptTwice
    acceptTwice.length 48 = out at hk ⊢
  obtain ⟨k, r⟩ := out
  cases hk
  exact (parse_slicesSound (fun _ => true) .kHttpResponse acceptTwice 48 48 r (fun _ => rfl) hlen
    (by decide) hparse).1

end CosmoRuby.Http
