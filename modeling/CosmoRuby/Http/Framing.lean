import CosmoRuby.Http.Sections

/-!
# Message framing

A message is framed when the bytes the parser takes are a start line, header lines and the first empty
line.  Every accepted message whose start line ends where its first line does is framed; the others are
the requests with a space after the version and the responses with a line break after it.
-/

namespace CosmoRuby.Http

open Lib List

/-! ## Framed messages -/

def IsStartLine (type : HttpType) (line : Bytes) : Prop :=
  match type with
  | .kHttpRequest => ∃ method uri version, line = method ++ [chSpace] ++ uri ++ optionalPart version ∧
      method ≠ [] ∧ AllBytes kHttpToken method ∧ uri ≠ [] ∧ AllBytes uriByte uri ∧
      ∀ v, version = some v → IsVersionText v
  | .kHttpResponse => ∃ version status message,
      line = version ++ [chSpace] ++ status ++ optionalPart message ∧ IsVersionText version ∧
      AllBytes isdigit status ∧ 100 ≤ statusValue status ∧
      ∀ s, message = some s → AllBytes messageByte s

def IsHeaderLine (line : Bytes) : Prop :=
  ∃ name value eol, line = name ++ [0x3A] ++ value ++ eol ∧ name ≠ [] ∧ AllBytes kHttpToken name ∧
    AllBytes valueByte value ∧ IsEol eol

/-- The offset just past the first empty line; `fresh` says that a line starts here. -/
def pastEmptyLine : Bool → Bytes → Option Nat
  | _, [] => none
  | true, 0x0A :: _ => some 1
  | true, 0x0D :: 0x0A :: _ => some 2
  | _, c :: cs => (pastEmptyLine (c == chLf) cs).map (· + 1)

/-- The first `k` bytes of `m` are line terminators, a start line, header lines and one empty line,
which is the first after the start line. -/
def Framed (type : HttpType) (m : Bytes) (k : Nat) : Prop :=
  ∃ (lead line eol : Bytes) (headers : List Bytes) (blank : Bytes),
    m.take k = lead ++ line ++ eol ++ headers.flatten ++ blank ∧
    AllBytes isEolByte lead ∧ IsStartLine type line ∧ IsEol eol ∧
    (∀ h ∈ headers, IsHeaderLine h) ∧ IsEol blank ∧
    pastEmptyLine true (m.drop (lead ++ line ++ eol).length) =
      some (headers.flatten ++ blank).length

/-! ## Bytes of a line -/

theorem byteClasses : ∀ c : UInt8,
    ((isdigit c = true ∨ kHttpToken c = true) → uriByte c = true) ∧
      (isBlank c = true → valueByte c = true) ∧
      ((uriByte c = true ∨ messageByte c = true ∨ valueByte c = true) → isLineByte c = true) := by
  decide +kernel

theorem uriByte_of_isdigit (c : UInt8) (h : isdigit c = true) : uriByte c = true :=
  (byteClasses c).1 (.inl h)

theorem uriByte_of_kHttpToken (c : UInt8) (h : kHttpToken c = true) : uriByte c = true :=
  (byteClasses c).1 (.inr h)

theorem isLineByte_of_uriByte (c : UInt8) (h : uriByte c = true) : isLineByte c = true :=
  (byteClasses c).2.2 (.inl h)

theorem isLineByte_of_messageByte (c : UInt8) (h : messageByte c = true) : isLineByte c = true :=
  (byteClasses c).2.2 (.inr (.inl h))

theorem isLineByte_of_valueByte (c : UInt8) (h : valueByte c = true) : isLineByte c = true :=
  (byteClasses c).2.2 (.inr (.inr h))

theorem valueByte_of_isBlank (c : UInt8) (h : isBlank c = true) : valueByte c = true :=
  (byteClasses c).2.1 h

variable {v s lead x rest line blank : Bytes}

theorem IsVersionText.uriBytes (hv : IsVersionText v) : AllBytes uriByte v := by
  obtain ⟨hlen, hver⟩ := hv
  match v, hlen with
  | [a, b, c, d, e, f, g, h], _ =>
    simp only [isVersion, byteAt, getD_cons_zero, getD_cons_succ, Nat.zero_add,
      Bool.and_eq_true, beq_iff_eq] at hver
    obtain ⟨⟨⟨⟨⟨⟨⟨rfl, rfl⟩, rfl⟩, rfl⟩, rfl⟩, hf⟩, rfl⟩, hh⟩ := hver
    intro x hx
    simp only [mem_cons, not_mem_nil, or_false] at hx
    rcases hx with rfl | rfl | rfl | rfl | rfl | rfl | rfl | rfl
    case inr.inr.inr.inr.inr.inl => exact uriByte_of_isdigit _ hf
    case inr.inr.inr.inr.inr.inr.inr => exact uriByte_of_isdigit _ hh
    all_goals decide

theorem IsVersionText.ne_nil (hv : IsVersionText v) : v ≠ [] := by
  rintro rfl
  exact absurd hv.1 (by decide)

theorem count_space_of_uriBytes (hs : AllBytes uriByte s) : s.count chSpace = 0 := by
  apply List.count_eq_zero_of_not_mem
  intro hmem
  exact absurd (hs _ hmem) (by decide)

/-! ## The first line -/

def firstLine (m : Bytes) : Bytes := (m.dropWhile isEolByte).takeWhile isLineByte

theorem firstLine_append (hlead : AllBytes isEolByte lead) (hx : x ≠ [])
    (hline : AllBytes isLineByte x) :
    firstLine (lead ++ x ++ rest) = x ++ rest.takeWhile isLineByte := by
  cases x with
  | nil => exact absurd rfl hx
  | cons c cs =>
    have hc : isEolByte c = false := by simpa [isLineByte] using hline c (by simp)
    unfold firstLine
    rw [append_assoc, dropWhile_append_of_pos hlead, cons_append,
      dropWhile_cons_of_neg (by rw [hc]; decide), ← cons_append,
      takeWhile_append_of_pos hline]

variable {k : Nat} {c : UInt8}

theorem firstLine_eq {m : Bytes}
    (hm : m.take k = lead ++ x ++ c :: rest) (hlead : AllBytes isEolByte lead) (hx : x ≠ [])
    (hline : AllBytes isLineByte x) (hc : isEolByte c = true) : firstLine m = x := by
  rw [← take_append_drop k m, hm, append_assoc (lead ++ x), firstLine_append hlead hx hline,
    cons_append, takeWhile_cons_of_neg (by simp [isLineByte, hc]), append_nil]

def StartLineSpaces (type : HttpType) (m : Bytes) : Prop :=
  match type with
  | .kHttpRequest => (firstLine m).count chSpace ≤ 2
  | .kHttpResponse => chSpace ∈ firstLine m

instance (type : HttpType) (m : Bytes) : Decidable (StartLineSpaces type m) := by
  unfold StartLineSpaces
  cases type <;> infer_instance

theorem IsEol.cons {e : Bytes} (he : IsEol e) : ∃ c rest, e = c :: rest ∧ isEolByte c = true := by
  rcases he with rfl | rfl
  · exact ⟨chLf, [], rfl, by decide⟩
  · exact ⟨chCr, [chLf], rfl, by decide⟩

theorem isLineByte_space : AllBytes isLineByte [chSpace] := .single (by decide)

theorem optionalPart_lineBytes {q : UInt8 → Bool} {o : Option Bytes}
    (hq : ∀ c, q c = true → isLineByte c = true) (ho : ∀ s, o = some s → AllBytes q s) :
    AllBytes isLineByte (optionalPart o) := by
  cases o with
  | none => exact .nil
  | some s => exact isLineByte_space.append ((ho s rfl).mono hq)

theorem IsStartLine.lineBytes {type : HttpType} (h : IsStartLine type line) :
    line ≠ [] ∧ AllBytes isLineByte line := by
  cases type with
  | kHttpRequest =>
    obtain ⟨method, uri, version, rfl, hne, hmethod, -, huri, hversion⟩ := h
    have hm := (hmethod.mono uriByte_of_kHttpToken).mono isLineByte_of_uriByte
    have hu := huri.mono isLineByte_of_uriByte
    have hv := optionalPart_lineBytes isLineByte_of_uriByte fun v hv => (hversion v hv).uriBytes
    exact ⟨by simp [hne], ((hm.append isLineByte_space).append hu).append hv⟩
  | kHttpResponse =>
    obtain ⟨version, status, message, rfl, hversion, hstatus, -, hmessage⟩ := h
    have hv := hversion.uriBytes.mono isLineByte_of_uriByte
    have hs := (hstatus.mono uriByte_of_isdigit).mono isLineByte_of_uriByte
    have hm := optionalPart_lineBytes isLineByte_of_messageByte hmessage
    exact ⟨by simp, ((hv.append isLineByte_space).append hs).append hm⟩

theorem startLineSpaces_of_framed {type : HttpType} {m : Bytes} (h : Framed type m k) :
    StartLineSpaces type m := by
  obtain ⟨lead, line, eol, headers, blank, hm, hlead, hline, heol, -⟩ := h
  obtain ⟨c, rest, rfl, hc⟩ := heol.cons
  have hfirst : firstLine m = line := by
    have hm' : m.take k = lead ++ line ++ c :: (rest ++ headers.flatten ++ blank) := by
      rw [hm]
      simp
    exact firstLine_eq hm' hlead hline.lineBytes.1 hline.lineBytes.2 hc
  unfold StartLineSpaces
  rw [hfirst]
  cases type with
  | kHttpRequest =>
    obtain ⟨method, uri, version, rfl, -, hmethod, -, huri, hversion⟩ := hline
    have hm0 := count_space_of_uriBytes (hmethod.mono uriByte_of_kHttpToken)
    have hu0 := count_space_of_uriBytes huri
    have hv1 : (optionalPart version).count chSpace ≤ 1 := by
      cases version with
      | none => exact Nat.zero_le _
      | some v =>
        have hv0 := count_space_of_uriBytes (hversion v rfl).uriBytes
        rw [optionalPart, count_cons_self, hv0]
    simp only [count_append, count_singleton_self, hm0, hu0]
    omega
  | kHttpResponse =>
    obtain ⟨version, status, message, rfl, -⟩ := hline
    simp

/-! ## The first empty line -/

theorem pastEmptyLine_false (hs : chLf ∉ s) : pastEmptyLine false (s ++ chLf :: rest) =
      (pastEmptyLine true rest).map (· + (s.length + 1)) := by
  induction s with
  | nil => rfl
  | cons c cs ih =>
    obtain ⟨hc, hcs⟩ := not_or.mp (mt List.mem_cons.mpr hs)
    have hfalse : (c == chLf) = false := by simpa using Ne.symm hc
    rw [cons_append, pastEmptyLine, hfalse, ih hcs, Option.map_map]
    · congr 1
    · exact fun h => nomatch h
    · exact fun _ h => nomatch h

theorem pastEmptyLine_cons (hc : isEolByte c = false) (rest : Bytes) :
    pastEmptyLine true (c :: rest) = (pastEmptyLine false rest).map (· + 1) := by
  have hne : ¬(c = chCr ∨ c = chLf) := by rw [← isEolByte_iff, hc]; decide
  obtain ⟨hcr, hlf⟩ := not_or.mp hne
  have hfalse : (c == chLf) = false := by simpa using hlf
  rw [pastEmptyLine, hfalse]
  · exact fun _ h => hlf h
  · exact fun _ _ h _ => hcr h

theorem IsHeaderLine.shape {h : Bytes} (hh : IsHeaderLine h) :
    ∃ c s, h = c :: (s ++ [chLf]) ∧ isEolByte c = false ∧ chLf ∉ s := by
  obtain ⟨name, value, eol, rfl, hne, hname, hvalue, heol⟩ := hh
  obtain ⟨c, cs, rfl⟩ := exists_cons_of_ne_nil hne
  have hn := (hname.mono uriByte_of_kHttpToken).mono isLineByte_of_uriByte
  have hbody : AllBytes isLineByte (cs ++ [0x3A] ++ value) :=
    (AllBytes.append (fun x hx => hn x (mem_cons_of_mem c hx)) (.single (by decide))).append
      (hvalue.mono isLineByte_of_valueByte)
  have hlf : chLf ∉ cs ++ [0x3A] ++ value := fun hmem => absurd (hbody _ hmem) (by decide)
  have hc : isEolByte c = false := by simpa [isLineByte] using hn c (by simp)
  rcases heol with rfl | rfl
  · exact ⟨c, cs ++ [0x3A] ++ value, by simp, hc, hlf⟩
  · refine ⟨c, cs ++ [0x3A] ++ value ++ [chCr], by simp, hc, ?_⟩
    rw [mem_append, not_or]
    exact ⟨hlf, by decide⟩

theorem pastEmptyLine_headers {headers : List Bytes} (rest : Bytes)
    (hh : ∀ h ∈ headers, IsHeaderLine h) (hblank : IsEol blank) :
    pastEmptyLine true (headers.flatten ++ blank ++ rest) =
      some (headers.flatten ++ blank).length := by
  induction headers with
  | nil => rcases hblank with rfl | rfl <;> rfl
  | cons h hs ih =>
    obtain ⟨c, s, rfl, hc, hlf⟩ := (hh h mem_cons_self).shape
    have hrec := ih fun x hx => hh x (mem_cons_of_mem _ hx)
    have hsplit : ((c :: (s ++ [chLf])) :: hs).flatten ++ blank ++ rest =
        c :: (s ++ chLf :: (hs.flatten ++ blank ++ rest)) := by simp
    rw [hsplit, pastEmptyLine_cons hc, pastEmptyLine_false hlf, hrec]
    simp only [Option.map_some, flatten_cons, length_append, length_cons,
      length_nil]
    congr 1
    omega

theorem Field.Wf.isHeaderLine {f : Field} (hf : f.Wf) : IsHeaderLine f.bytes := by
  refine ⟨f.name, f.pad ++ f.value ++ f.trail, f.eol, by simp [Field.bytes], hf.name_ne, hf.name,
    ?_, hf.eol⟩
  exact ((hf.pad.mono valueByte_of_isBlank).append hf.value).append
    (hf.trail.mono valueByte_of_isBlank)

/-! ## The parser's framing -/

variable {realloc : Nat → Bool} {type : HttpType} {m : Bytes}

variable {fields : List Field}

theorem framed_of_startLine {eol : Bytes}
    (hm : m.take k = lead ++ line ++ eol ++ fieldsBytes fields ++ blank)
    (hlead : AllBytes isEolByte lead) (hline : IsStartLine type line) (heol : IsEol eol)
    (hfields : ∀ f ∈ fields, f.Wf) (hblank : IsEol blank) : Framed type m k := by
  have hheaders : ∀ h ∈ fields.map Field.bytes, IsHeaderLine h := by
    intro h hh
    obtain ⟨f, hf, rfl⟩ := List.mem_map.mp hh
    exact (hfields f hf).isHeaderLine
  refine ⟨lead, line, eol, fields.map Field.bytes, blank, hm, hlead, hline, heol, hheaders, hblank,
    ?_⟩
  have hdrop : m.drop (lead ++ line ++ eol).length =
      (fields.map Field.bytes).flatten ++ blank ++ m.drop k := by
    nth_rewrite 1 [← take_append_drop k m]
    rw [hm, append_assoc (lead ++ line ++ eol), append_assoc (lead ++ line ++ eol),
      drop_left]
    rfl
  rw [hdrop]
  exact pastEmptyLine_headers _ hheaders hblank

/-- An accepted message has as many spaces in its first line as its start line only when the one ends
where the other does. -/
theorem framed_of_accepted {r : HttpMessage} {head : Head}
    (hacc : Accepted realloc type (m.take k) r head fields blank)
    (hspaces : StartLineSpaces type m) : Framed type m k := by
  have hwf := hacc.sections.head_wf
  have hm := hacc.bytes
  cases head with
  | request lead method uri version stop =>
    obtain ⟨rfl, hlead, hmne, hmethod, hune, huri, hversion, hstop⟩ := hwf
    rcases hstop with hstop | ⟨hsome, rfl⟩
    · have hsplit : m.take k = lead ++ (method ++ [chSpace] ++ uri ++ optionalPart version) ++ stop ++
          fieldsBytes fields ++ blank := by
        rw [hm]
        simp [Head.bytes]
      exact framed_of_startLine hsplit hlead
        ⟨method, uri, version, rfl, hmne, hmethod, hune, huri, hversion⟩ hstop
        hacc.sections.fields_wf hacc.blank_eol
    · -- the third space is in the first line
      obtain ⟨v, rfl⟩ := Option.isSome_iff_exists.mp hsome
      have hm' := (hmethod.mono uriByte_of_kHttpToken).mono isLineByte_of_uriByte
      have hv' := (hversion v rfl).uriBytes.mono isLineByte_of_uriByte
      have hx : AllBytes isLineByte (method ++ [chSpace] ++ uri ++ [chSpace] ++ v ++ [chSpace]) :=
        ((((hm'.append isLineByte_space).append (huri.mono isLineByte_of_uriByte)).append
          isLineByte_space).append hv').append isLineByte_space
      have hsplit : lead ++ (method ++ [chSpace] ++ uri ++ [chSpace] ++ v ++ [chSpace]) ++
          (fieldsBytes fields ++ blank ++ m.drop k) = m := by
        nth_rewrite 2 [← take_append_drop k m]
        rw [hm]
        simp [Head.bytes, optionalPart]
      have hcount : (firstLine m).count chSpace ≤ 2 := hspaces
      rw [← hsplit, firstLine_append hlead (by simp) hx] at hcount
      simp only [count_append, count_singleton_self] at hcount
      omega
  | response lead version sep status message stop =>
    obtain ⟨rfl, hlead, hversion, hsep, hstatus, h100, hmessage, hstop⟩ := hwf
    rcases hsep with rfl | hsep
    · have hsplit : m.take k = lead ++ (version ++ [chSpace] ++ status ++ optionalPart message) ++
          stop ++ fieldsBytes fields ++ blank := by
        rw [hm]
        simp [Head.bytes]
      exact framed_of_startLine hsplit hlead
        ⟨version, status, message, rfl, hversion, hstatus, h100, hmessage⟩ hstop
        hacc.sections.fields_wf hacc.blank_eol
    · -- the first line is the version alone
      have hsplit : m.take k = lead ++ version ++
          sep :: (status ++ optionalPart message ++ stop ++ fieldsBytes fields ++ blank) := by
        rw [hm]
        simp [Head.bytes]
      have hfirst := firstLine_eq hsplit hlead hversion.ne_nil
        (hversion.uriBytes.mono isLineByte_of_uriByte) hsep
      have hmem : chSpace ∈ firstLine m := hspaces
      rw [hfirst] at hmem
      exact absurd (hversion.uriBytes _ hmem) (by decide)

/-- A positive result frames the message exactly when the first line has the spaces of a start line:
at most two in a request, at least one in a response. -/
theorem framed_iff_startLineSpaces (realloc : Nat → Bool) (type : HttpType) (m : Bytes) (c : Nat)
    (k : Int) (hc : m.length ≤ c) (hk : 0 < k)
    (hparse : (parseHttpMessage realloc (initHttpMessage type) m m.length c).1 = k) :
    Framed type m k.toNat ↔ StartLineSpaces type m := by
  constructor
  · exact startLineSpaces_of_framed
  · obtain ⟨-, head, fields, blank, hacc⟩ := accepted_of_parse le_rfl hc hk (Prod.ext hparse rfl)
    exact framed_of_accepted hacc

theorem framed_get : Framed .kHttpRequest (ascii "GET / HTTP/1.1\r\nHost: x\r\n\r\n") 27 :=
  (framed_iff_startLineSpaces (fun _ => true) .kHttpRequest
    (ascii "GET / HTTP/1.1\r\nHost: x\r\n\r\n") 27 27 (by decide) (by decide)
    (by decide)).mpr (by decide)

/-- With a space after the version the parser takes the end of the request line for the empty line,
and the header after it is left. -/
theorem not_framed_trailing_space :
    (parseHttpMessage (fun _ => true) (initHttpMessage .kHttpRequest)
        (ascii "GET / HTTP/1.1 \r\nHost: x\r\n\r\n") 28 28).1 = 17 ∧
      ¬ Framed .kHttpRequest (ascii "GET / HTTP/1.1 \r\nHost: x\r\n\r\n") 17 := by
  refine ⟨by decide, fun h => ?_⟩
  exact absurd (startLineSpaces_of_framed h) (by decide)

end CosmoRuby.Http
