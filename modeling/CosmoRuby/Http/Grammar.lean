import CosmoRuby.Http.Machine

/-!
# The text of an accepted message

An accepted message is a head (leading line terminators and the start line), header fields and an
empty line.  The head is cut as the parser cuts it, which is a little wider than a start line: after
the version a request may go on with a space where its line should end, and in a response any
terminator may stand between the version and the status.
-/

namespace CosmoRuby.Http

open Lib List

abbrev AllBytes (q : UInt8 → Bool) (s : Bytes) : Prop := ∀ c ∈ s, q c = true

variable {q : UInt8 → Bool}

theorem AllBytes.nil : AllBytes q [] := fun _ hc => nomatch hc

variable {s name : Bytes} {c : UInt8}

theorem AllBytes.concat (hs : AllBytes q s) (hc : q c = true) : AllBytes q (s ++ [c]) := by
  intro x hx
  rcases List.mem_append.mp hx with h | h
  · exact hs x h
  · rw [List.mem_singleton.mp h]; exact hc

theorem AllBytes.single (hc : q c = true) : AllBytes q [c] := by
  intro x hx
  rw [List.mem_singleton.mp hx]; exact hc

theorem AllBytes.mono {q' : UInt8 → Bool} (hs : AllBytes q s)
    (h : ∀ c, q c = true → q' c = true) : AllBytes q' s :=
  fun c hc => h c (hs c hc)

theorem AllBytes.append {t : Bytes} (hs : AllBytes q s) (ht : AllBytes q t) :
    AllBytes q (s ++ t) := by
  intro c hc
  rcases List.mem_append.mp hc with h | h
  · exact hs c h
  · exact ht c h

def isLineByte (c : UInt8) : Bool := !isEolByte c

/-! ## Heads -/

def IsEol (e : Bytes) : Prop := e = [chLf] ∨ e = [chCr, chLf]

def IsVersionText (v : Bytes) : Prop := v.length = 8 ∧ isVersion v 0 = true

def statusValue (ds : Bytes) : Nat := ds.foldl (fun n d => n * 10 + (d.toNat - 48)) 0

theorem statusValue_concat (ds : Bytes) (d : UInt8) :
    statusValue (ds ++ [d]) = statusValue ds * 10 + (d.toNat - 48) := by
  simp [statusValue, foldl_append]

inductive Head where
  | request (lead method uri : Bytes) (version : Option Bytes) (stop : Bytes)
  | response (lead version : Bytes) (sep : UInt8) (status : Bytes) (message : Option Bytes)
      (stop : Bytes)

def optionalPart : Option Bytes → Bytes
  | none => []
  | some s => chSpace :: s

def Head.bytes : Head → Bytes
  | .request lead method uri version stop =>
    lead ++ method ++ [chSpace] ++ uri ++ optionalPart version ++ stop
  | .response lead version sep status message stop =>
    lead ++ version ++ [sep] ++ status ++ optionalPart message ++ stop

def Head.Wf (type : HttpType) : Head → Prop
  | .request lead method uri version stop =>
    type = .kHttpRequest ∧ AllBytes isEolByte lead ∧ method ≠ [] ∧ AllBytes kHttpToken method ∧
      uri ≠ [] ∧ AllBytes uriByte uri ∧ (∀ v, version = some v → IsVersionText v) ∧
      (IsEol stop ∨ (version.isSome = true ∧ stop = [chSpace]))
  | .response lead version sep status message stop =>
    type = .kHttpResponse ∧ AllBytes isEolByte lead ∧ IsVersionText version ∧
      (sep = chSpace ∨ isEolByte sep = true) ∧ AllBytes isdigit status ∧
      100 ≤ statusValue status ∧ (∀ s, message = some s → AllBytes messageByte s) ∧ IsEol stop

def sliceAt (off len : Nat) : HttpSlice := ⟨off, (off + len : Nat)⟩

def Head.uriSlice : Head → HttpSlice
  | .request lead method uri _ _ => sliceAt (lead.length + method.length + 1) uri.length
  | .response .. => ⟨0, 0⟩

def Head.messageSlice : Head → HttpSlice
  | .request .. => ⟨0, 0⟩
  | .response _ _ _ _ none _ => ⟨0, 0⟩
  | .response lead version _ status (some s) _ =>
    sliceAt (lead.length + version.length + 1 + status.length + 1) s.length

/-! ## Header fields -/

structure Field where
  name : Bytes
  pad : Bytes
  value : Bytes
  trail : Bytes
  eol : Bytes

def Field.bytes (f : Field) : Bytes := f.name ++ [0x3A] ++ f.pad ++ f.value ++ f.trail ++ f.eol

/-- A header line `token:value` with blanks around the value, none of them in it. -/
structure Field.Wf (f : Field) : Prop where
  name_ne : f.name ≠ []
  name : AllBytes kHttpToken f.name
  pad : AllBytes isBlank f.pad
  value : AllBytes valueByte f.value
  first : ∀ c, f.value.head? = some c → isBlank c = false
  last : ∀ c, f.value.getLast? = some c → isBlank c = false
  trail : AllBytes isBlank f.trail
  eol : IsEol f.eol

def Field.keySlice (off : Nat) (f : Field) : HttpSlice := sliceAt off f.name.length

def Field.valueSlice (off : Nat) (f : Field) : HttpSlice :=
  sliceAt (off + f.name.length + 1 + f.pad.length) f.value.length

def fieldsBytes (fs : List Field) : Bytes := (fs.map Field.bytes).flatten

theorem fieldsBytes_concat (fs : List Field) (f : Field) :
    fieldsBytes (fs ++ [f]) = fieldsBytes fs ++ f.bytes := by
  simp [fieldsBytes]

/-! ## Where the lines are filed -/

structure Store where
  headers : HeaderId → HttpSlice
  xheaders : HttpHeaders

def HttpMessage.store (r : HttpMessage) : Store := ⟨r.headers, r.xheaders⟩

def emptyStore : Store := ⟨fun _ => ⟨0, 0⟩, ⟨0, []⟩⟩

section

variable (realloc : Nat → Bool) (s : Store)

def Store.file (name : Bytes) (h : HttpHeader) : Store :=
  match getHttpHeader name with
  | some id =>
    if (s.headers id).a = 0 ∨ !kHttpRepeatable id then
      { s with headers := Function.update s.headers id h.v }
    else { s with xheaders := pushXheader realloc s.xheaders h }
  | none => { s with xheaders := pushXheader realloc s.xheaders h }

theorem Store.file_none (h : HttpHeader)
    (hid : getHttpHeader name = none) :
    s.file realloc name h = { s with xheaders := pushXheader realloc s.xheaders h } := by
  unfold Store.file
  rw [hid]

theorem Store.file_some {id : HeaderId}
    (h : HttpHeader) (hid : getHttpHeader name = some id) :
    s.file realloc name h =
      if (s.headers id).a = 0 ∨ !kHttpRepeatable id then
        { s with headers := Function.update s.headers id h.v }
      else { s with xheaders := pushXheader realloc s.xheaders h } := by
  unfold Store.file
  rw [hid]

end

def fileFields (realloc : Nat → Bool) : Nat → List Field → Store → Store
  | _, [], s => s
  | off, f :: fs, s =>
    fileFields realloc (off + f.bytes.length) fs
      (s.file realloc f.name ⟨f.keySlice off, f.valueSlice off⟩)

theorem fileFields_concat (realloc : Nat → Bool) (off : Nat) (fs : List Field) (f : Field)
    (s : Store) :
    fileFields realloc off (fs ++ [f]) s =
      (fileFields realloc off fs s).file realloc f.name
        ⟨f.keySlice (off + (fieldsBytes fs).length),
          f.valueSlice (off + (fieldsBytes fs).length)⟩ := by
  induction fs generalizing off s with
  | nil => rfl
  | cons g fs ih =>
    rw [cons_append, fileFields, fileFields, ih]
    have hoff : off + g.bytes.length + (fieldsBytes fs).length =
        off + (fieldsBytes (g :: fs)).length := by
      simp only [fieldsBytes, map_cons, flatten_cons, length_append]
      omega
    rw [hoff]

/-- `s` is a head and header fields, and `r` holds what they say. -/
structure Sections (realloc : Nat → Bool) (type : HttpType) (s : Bytes) (r : HttpMessage)
    (head : Head) (fields : List Field) : Prop where
  head_wf : head.Wf type
  fields_wf : ∀ f ∈ fields, f.Wf
  bytes : s = head.bytes ++ fieldsBytes fields
  uri : r.uri = head.uriSlice
  message : r.message = head.messageSlice
  store : r.store = fileFields realloc head.bytes.length fields emptyStore

end CosmoRuby.Http
