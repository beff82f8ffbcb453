import CosmoRuby.Http.Grammar

/-!
# What the parser has read

`AtState` says, state by state, how the bytes read so far are cut and what the registers hold.  It is
kept by every byte that does not end the parse, so an accepted message is a head, header fields and an
empty line.
-/

namespace CosmoRuby.Http

open Lib List

variable {realloc : Nat → Bool} {type : HttpType} {p w : Bytes} {r : HttpMessage} {ch : UInt8}

/-! ## The invariant -/

def HttpMessage.Blank (r : HttpMessage) : Prop :=
  r.uri = ⟨0, 0⟩ ∧ r.message = ⟨0, 0⟩ ∧ r.store = emptyStore ∧ r.status = 0

def IsRequestStart (type : HttpType) (w lead method : Bytes) : Prop :=
  type = .kHttpRequest ∧ w = lead ++ method ++ [chSpace] ∧ AllBytes isEolByte lead ∧
    method ≠ [] ∧ AllBytes kHttpToken method

def IsResponseStart (type : HttpType) (w lead version : Bytes) (sep : UInt8) : Prop :=
  type = .kHttpResponse ∧ w = lead ++ version ++ [sep] ∧ AllBytes isEolByte lead ∧
    IsVersionText version ∧ (sep = chSpace ∨ isEolByte sep = true)

def AtState (realloc : Nat → Bool) (type : HttpType) (w : Bytes) (r : HttpMessage) : Prop :=
  r.i = w.length ∧ r.type = type ∧
    match r.t with
    | .start => AllBytes isEolByte w ∧ r.Blank
    | .method =>
      type = .kHttpRequest ∧ r.Blank ∧ ∃ lead method, w = lead ++ method ∧
        AllBytes isEolByte lead ∧ method ≠ [] ∧ AllBytes kHttpToken method
    | .uri =>
      r.Blank ∧ ∃ w0 lead method u, w = w0 ++ u ∧ IsRequestStart type w0 lead method ∧
        r.a = w0.length ∧ AllBytes uriByte u
    | .version =>
      (∃ w0 lead method u v, w = w0 ++ u ++ [chSpace] ++ v ∧ IsRequestStart type w0 lead method ∧
        r.a = (w0 ++ u).length + 1 ∧ u ≠ [] ∧ AllBytes uriByte u ∧
        r.uri = sliceAt w0.length u.length ∧ r.message = ⟨0, 0⟩ ∧ r.store = emptyStore) ∨
      (type = .kHttpResponse ∧ r.Blank ∧ ∃ lead v, w = lead ++ v ∧ AllBytes isEolByte lead ∧
        r.a = lead.length)
    | .status =>
      ∃ w0 lead version sep st, w = w0 ++ st ∧ IsResponseStart type w0 lead version sep ∧
        AllBytes isdigit st ∧ r.status = statusValue st ∧
        r.uri = ⟨0, 0⟩ ∧ r.message = ⟨0, 0⟩ ∧ r.store = emptyStore
    | .message =>
      ∃ w0 lead version sep st s, w = w0 ++ st ++ [chSpace] ++ s ∧
        IsResponseStart type w0 lead version sep ∧ AllBytes isdigit st ∧ 100 ≤ statusValue st ∧
        AllBytes messageByte s ∧ r.a = (w0 ++ st).length + 1 ∧
        r.uri = ⟨0, 0⟩ ∧ r.message = ⟨0, 0⟩ ∧ r.store = emptyStore
    | .cr => ∃ head fields, Sections realloc type (w ++ [chLf]) r head fields
    | .lf1 => ∃ head fields, Sections realloc type w r head fields
    | .lf2 => ∃ w0 head fields, w = w0 ++ [chCr] ∧ Sections realloc type w0 r head fields
    | .name =>
      ∃ w0 head fields name, w = w0 ++ name ∧ Sections realloc type w0 r head fields ∧
        name ≠ [] ∧ AllBytes kHttpToken name ∧ r.k.a = w0.length
    | .colon =>
      ∃ w0 head fields name pad, w = w0 ++ name ++ [0x3A] ++ pad ∧
        Sections realloc type w0 r head fields ∧ name ≠ [] ∧ AllBytes kHttpToken name ∧
        AllBytes isBlank pad ∧ r.k = sliceAt w0.length name.length
    | .value =>
      ∃ w0 head fields name pad v, w = w0 ++ name ++ [0x3A] ++ pad ++ v ∧
        Sections realloc type w0 r head fields ∧ name ≠ [] ∧ AllBytes kHttpToken name ∧
        AllBytes isBlank pad ∧ r.k = sliceAt w0.length name.length ∧
        r.a = (w0 ++ name ++ [0x3A] ++ pad).length ∧ AllBytes valueByte v ∧
        ∃ c, v.head? = some c ∧ isBlank c = false

/-! ## Small facts -/

theorem short_of_le {x : Nat} (h : x ≤ SHRT_MAX) : short x = x := by
  unfold short
  change x ≤ 32767 at h
  rw [Int.bmod_eq_of_le] <;> omega

theorem lineEnd_cases (hch : isEolByte ch = true) :
    (ch = chCr ∧ lineEnd ch = .cr) ∨ (ch = chLf ∧ lineEnd ch = .lf1) := by
  rcases (isEolByte_iff ch).mp hch with rfl | rfl
  · exact .inl ⟨rfl, rfl⟩
  · exact .inr ⟨rfl, rfl⟩

def eolOf (ch : UInt8) : Bytes := if ch = chCr then [chCr, chLf] else [chLf]

theorem isEol_eolOf (ch : UInt8) : IsEol (eolOf ch) := by
  unfold eolOf IsEol
  split
  · exact .inr rfl
  · exact .inl rfl

variable {head : Head} {fields : List Field} {r' : HttpMessage}

theorem atState_of {t : HttpState} (ht : r.t = t) (h : AtState realloc type w { r with t }) :
    AtState realloc type w r := by
  subst ht
  exact h

theorem atState_lineEnd (hch : isEolByte ch = true) (hi : r.i = w.length) (hty : r.type = type)
    (hsec : Sections realloc type (w ++ eolOf ch) r head fields) :
    AtState realloc type (w ++ [ch]) { r with t := lineEnd ch, i := r.i + 1 } := by
  refine ⟨by simp [hi], hty, ?_⟩
  have hsec' : ∀ t i, Sections realloc type (w ++ eolOf ch) { r with t := t, i := i } head fields :=
    fun t i => { hsec with }
  rcases lineEnd_cases hch with ⟨rfl, ht⟩ | ⟨rfl, ht⟩
  · simp only [ht]
    refine ⟨head, fields, ?_⟩
    rw [append_assoc]
    exact hsec' .cr (r.i + 1)
  · simp only [ht]
    exact ⟨head, fields, hsec' .lf1 (r.i + 1)⟩

theorem trimEnd_spec (pre v rest : Bytes) :
    ∃ value trail, v = value ++ trail ∧ AllBytes isBlank trail ∧
      (∀ c, value.getLast? = some c → isBlank c = false) ∧
      trimEnd (pre ++ v ++ rest) pre.length (pre.length + v.length) =
        pre.length + value.length := by
  induction v using List.reverseRecOn generalizing rest with
  | nil =>
    refine ⟨[], [], rfl, .nil, by simp, ?_⟩
    rw [length_nil, Nat.add_zero]
    cases h : pre.length with
    | zero => rfl
    | succ n => rw [trimEnd, if_neg (by omega)]
  | append_singleton v c ih =>
    have hbyte : byteAt (pre ++ (v ++ [c]) ++ rest) (pre.length + v.length) = c := by
      rw [show pre ++ (v ++ [c]) ++ rest = (pre ++ v) ++ (c :: rest) by simp,
        ← length_append, ← Nat.add_zero (pre ++ v).length, byteAt_append_right]
      rfl
    have hlen : pre.length + (v ++ [c]).length = pre.length + v.length + 1 := by simp; omega
    rw [hlen, trimEnd, hbyte]
    by_cases hbl : isBlank c = true
    · obtain ⟨value, trail, hv, htrail, hlast, htrim⟩ := ih ([c] ++ rest)
      refine ⟨value, trail ++ [c], by rw [hv, append_assoc], htrail.concat hbl, hlast, ?_⟩
      rw [if_pos ⟨by omega, (isBlank_iff c).mp hbl⟩, ← htrim]
      congr 1
      simp
    · refine ⟨v ++ [c], [], by simp, .nil, ?_, ?_⟩
      · intro d hd
        rw [List.getLast?_append_of_ne_nil _ (by simp)] at hd
        cases hd
        simpa using hbl
      · rw [if_neg fun h => hbl ((isBlank_iff c).mpr h.2)]
        simp
        omega

variable {v w0 : Bytes}

theorem isVersionText_of {pre rest : Bytes} (hlen : v.length = 8)
    (hv : isVersion (pre ++ v ++ rest) pre.length = true) : IsVersionText v := by
  have hbyte : ∀ j < 8, byteAt (pre ++ v ++ rest) (pre.length + j) = byteAt v j := by
    intro j hj
    rw [append_assoc, byteAt_append_right, byteAt_append_left _ _ _ (by omega)]
  refine ⟨hlen, ?_⟩
  unfold isVersion at hv ⊢
  have h0 := hbyte 0 (by decide)
  rw [Nat.add_zero] at h0
  rw [h0, hbyte 1 (by decide), hbyte 2 (by decide), hbyte 3 (by decide), hbyte 4 (by decide),
    hbyte 5 (by decide), hbyte 6 (by decide), hbyte 7 (by decide)] at hv
  exact hv

theorem Sections.ofHead (hwf : head.Wf type) (hbytes : w = head.bytes)
    (huri : r.uri = head.uriSlice) (hmsg : r.message = head.messageSlice)
    (hstore : r.store = emptyStore) : Sections realloc type w r head [] where
  head_wf := hwf
  fields_wf := fun _ hf => nomatch hf
  bytes := by rw [hbytes, fieldsBytes, map_nil, flatten_nil, append_nil]
  uri := huri
  message := hmsg
  store := hstore

theorem keyOf_sliceAt (w0 name rest : Bytes) :
    keyOf (w0 ++ name ++ rest) (sliceAt w0.length name.length) = name := by
  simp only [keyOf, sliceAt, Int.toNat_natCast]
  exact slice_append_mid w0 name rest

theorem storeHeader_store (r : HttpMessage) (v : HttpSlice) :
    (storeHeader realloc p r v).store = r.store.file realloc (keyOf p r.k) ⟨r.k, v⟩ := by
  unfold storeHeader Store.file
  cases getHttpHeader (keyOf p r.k) with
  | some h =>
    dsimp only
    split <;> rename_i hfree
    · exact (if_pos hfree).symm
    · exact (if_neg hfree).symm
  | none => rfl

theorem storeHeader_frame (r : HttpMessage) (v : HttpSlice) :
    (storeHeader realloc p r v).type = r.type ∧ (storeHeader realloc p r v).uri = r.uri ∧
      (storeHeader realloc p r v).message = r.message := by
  unfold storeHeader
  split
  · split <;> exact ⟨rfl, rfl, rfl⟩
  · exact ⟨rfl, rfl, rfl⟩

theorem Sections.snoc {f : Field} (hsec : Sections realloc type w0 r head fields) (hf : f.Wf)
    (hk : r.k = f.keySlice w0.length) (hkey : keyOf p r.k = f.name) :
    Sections realloc type (w0 ++ f.bytes) (storeHeader realloc p r (f.valueSlice w0.length))
      head (fields ++ [f]) where
  head_wf := hsec.head_wf
  fields_wf := by
    intro g hg
    rcases List.mem_append.mp hg with h | h
    · exact hsec.fields_wf g h
    · rw [List.mem_singleton.mp h]; exact hf
  bytes := by rw [fieldsBytes_concat, hsec.bytes, append_assoc]
  uri := by rw [(storeHeader_frame r _).2.1, hsec.uri]
  message := by rw [(storeHeader_frame r _).2.2, hsec.message]
  store := by
    have hw0 : w0.length = head.bytes.length + (fieldsBytes fields).length := by
      rw [hsec.bytes, length_append]
    rw [storeHeader_store, hkey, hsec.store, fileFields_concat, hk, hw0]

/-! ## Every byte keeps it -/

def Round.next : Round → Option HttpMessage
  | .brk r | .go r => some r
  | .ret _ _ => none

section Steps

variable (hpre : w ++ [ch] <+: p) (hlen : (w ++ [ch]).length ≤ SHRT_MAX)

include hpre hlen

theorem atState_valueEnd {name pad : Bytes}
    (hw : w = w0 ++ name ++ [0x3A] ++ pad ++ v) (hi : r.i = w.length) (hty : r.type = type)
    (hsec : Sections realloc type w0 r head fields) (hne : name ≠ [])
    (hname : AllBytes kHttpToken name) (hpad : AllBytes isBlank pad)
    (hk : r.k = sliceAt w0.length name.length)
    (ha : r.a = (w0 ++ name ++ [0x3A] ++ pad).length) (hv : AllBytes valueByte v)
    (hfirst : ∀ c, v.head? = some c → isBlank c = false) (hch : isEolByte ch = true) :
    AtState realloc type (w ++ [ch])
      { storeHeader realloc p r ⟨short r.a, short (trimEnd p r.a r.i)⟩
        with t := lineEnd ch, i := r.i + 1 } := by
  obtain ⟨rest, hp⟩ := hpre
  obtain ⟨value, trail, hvt, htrail, hlast, htrim⟩ :=
    trimEnd_spec (w0 ++ name ++ [0x3A] ++ pad) v ([ch] ++ rest)
  have hp' : p = w0 ++ name ++ [0x3A] ++ pad ++ v ++ ([ch] ++ rest) := by
    rw [← hp, hw, append_assoc]
  have hi' : r.i = (w0 ++ name ++ [0x3A] ++ pad).length + v.length := by
    rw [hi, hw, length_append]
  have hend : trimEnd p r.a r.i = (w0 ++ name ++ [0x3A] ++ pad).length + value.length := by
    rw [ha, hi', hp', htrim]
  rw [length_append, length_singleton, ← hi] at hlen
  have hvl : value.length ≤ v.length := by rw [hvt, length_append]; omega
  let f : Field := ⟨name, pad, value, trail, eolOf ch⟩
  have hf : f.Wf :=
    { name_ne := hne
      name := hname
      pad := hpad
      value := fun c hc => hv c (by rw [hvt]; exact mem_append_left _ hc)
      first := fun c hc => hfirst c (by
        rw [hvt, List.head?_append]
        rw [show value.head? = some c from hc]
        rfl)
      last := hlast
      trail := htrail
      eol := isEol_eolOf ch }
  have hslice : (⟨short r.a, short (trimEnd p r.a r.i)⟩ : HttpSlice) = f.valueSlice w0.length := by
    rw [hend, short_of_le (by omega), short_of_le (by omega), ha]
    simp only [Field.valueSlice, sliceAt, f, length_append, length_singleton]
  have hkey : keyOf p r.k = f.name := by
    rw [hk, hp', show w0 ++ name ++ [0x3A] ++ pad ++ v ++ ([ch] ++ rest) =
      w0 ++ name ++ ([0x3A] ++ pad ++ v ++ ([ch] ++ rest)) by simp]
    exact keyOf_sliceAt _ _ _
  have hbytes : w ++ eolOf ch = w0 ++ f.bytes := by
    rw [hw, hvt]
    simp [Field.bytes, f]
  have hnext := hsec.snoc hf hk hkey
  rw [← hslice, ← hbytes] at hnext
  have hdone := atState_lineEnd hch (by rw [storeHeader_i, hi])
    (by rw [(storeHeader_frame r _).1, hty]) hnext
  rwa [storeHeader_i] at hdone

theorem atState_step (hat : AtState realloc type w r) {x : Round}
    (hstep : Step realloc p r ch x) (hx : x.next = some r') :
    AtState realloc type (w ++ [ch]) { r' with i := r'.i + 1 } := by
  obtain ⟨hi, hty, hst⟩ := hat
  have hlen' : w.length + 1 ≤ SHRT_MAX := by simpa using hlen
  have hil : r.i + 1 = (w ++ [ch]).length := by simp [hi]
  -- the round goes on, and the state it was in says what was read so far
  cases hstep <;> cases hx <;> simp only [‹r.t = _›] at hst
  case lead ht hch =>
    exact atState_of ht ⟨hil, hty, hst.1.concat hch, hst.2⟩
  case requestStart ht hch hreq =>
    exact ⟨hil, hty, hty ▸ hreq, hst.2, w, [ch], rfl, hst.1, by simp, .single hch⟩
  case responseStart ht hch hresp =>
    exact ⟨hil, hty, .inr ⟨hty ▸ hresp, hst.2, w, [ch], rfl, hst.1, hi⟩⟩
  case methodEnd ht hch =>
    obtain ⟨hreq, hblank, lead, method, hw, hlead, hne, hmethod⟩ := hst
    refine ⟨hil, hty, hblank, w ++ [ch], lead, method, [], by simp, ⟨hreq, ?_, hlead, hne, hmethod⟩,
      hil, .nil⟩
    rw [hw, hch]
  case methodByte ht hch m =>
    obtain ⟨hreq, hblank, lead, method, hw, hlead, hne, hmethod⟩ := hst
    exact atState_of ht ⟨hil, hty, hreq, hblank, lead, method ++ [ch], by rw [hw, append_assoc], hlead, by simp,
      hmethod.concat hch⟩
  case uriSpace ht hch hne =>
    obtain ⟨hblank, w0, lead, method, u, hw, hstart, ha, hu⟩ := hst
    have hwl : w.length = w0.length + u.length := by rw [hw, length_append]
    refine ⟨hil, hty, .inl ⟨w0, lead, method, u, [], by rw [hw, hch]; simp, hstart, ?_, ?_, hu, ?_,
      hblank.2.1, hblank.2.2.1⟩⟩
    · dsimp only
      rw [hi, hw]
    · rintro rfl
      rw [length_nil] at hwl
      omega
    · dsimp only
      rw [short_of_le (by omega), short_of_le (by omega), ha, hi, hwl]
      rfl
  case uriEol ht hch hne =>
    obtain ⟨hblank, w0, lead, method, u, hw, hstart, ha, hu⟩ := hst
    have hwl : w.length = w0.length + u.length := by rw [hw, length_append]
    obtain ⟨hreq, hw0, hlead, hmne, hmethod⟩ := hstart
    have hune : u ≠ [] := by
      rintro rfl
      rw [length_nil] at hwl
      omega
    have hwf : (Head.request lead method u none (eolOf ch)).Wf type :=
      ⟨hreq, hlead, hmne, hmethod, hune, hu, by simp, .inl (isEol_eolOf ch)⟩
    refine atState_lineEnd hch hi hty (.ofHead hwf ?_ ?_ hblank.2.1 hblank.2.2.1)
    · rw [hw, hw0, Head.bytes, optionalPart, append_nil]
    · dsimp only
      rw [short_of_le (by omega), short_of_le (by omega), ha, hi, hwl, hw0]
      simp [Head.uriSlice, sliceAt]
      omega
  case uriByte ht hch =>
    obtain ⟨hblank, w0, lead, method, u, hw, hstart, ha, hu⟩ := hst
    exact atState_of ht ⟨hil, hty, hblank, w0, lead, method, u ++ [ch], by rw [hw, append_assoc], hstart, ha,
      hu.concat hch⟩
  case versionByte ht hsp hch =>
    refine ⟨hil, hty, ?_⟩
    simp only [ht]
    rcases hst with ⟨w0, lead, method, u, v, hw, hrest⟩ | ⟨hresp, hblank, lead, v, hw, hrest⟩
    · exact .inl ⟨w0, lead, method, u, v ++ [ch], by rw [hw]; simp, hrest⟩
    · exact .inr ⟨hresp, hblank, lead, v ++ [ch], by rw [hw, append_assoc], hrest⟩
  case requestVersion n ht hch hvl hv hreq =>
    rcases hst with ⟨w0, lead, method, u, v, hw, hstart, ha, hune, hu, huri, hmsg, hstore⟩ |
      ⟨hresp, -⟩
    · obtain ⟨-, hw0, hlead, hmne, hmethod⟩ := hstart
      obtain ⟨rest, hp⟩ := hpre
      have hvlen : v.length = 8 := by
        have hwl : w.length = (w0 ++ u).length + 1 + v.length := by
          simp only [hw, length_append, length_singleton]
        omega
      have hpv : p = w0 ++ u ++ [chSpace] ++ v ++ ([ch] ++ rest) := by
        rw [← hp, hw, append_assoc]
      rw [hpv, ha, ← length_singleton (a := chSpace), ← length_append] at hv
      have hver := isVersionText_of hvlen hv
      have huri' : r.uri = (Head.request lead method u (some v) []).uriSlice := by
        rw [huri, hw0]
        simp [Head.uriSlice, add_assoc]
      rcases hch with rfl | heol
      · refine ⟨hil, hty, ?_⟩
        simp only [show lineEnd chSpace = .lf1 from rfl]
        refine ⟨.request lead method u (some v) [chSpace], [],
          .ofHead ⟨hty ▸ hreq, hlead, hmne, hmethod, hune, hu, ?_, .inr ⟨rfl, rfl⟩⟩ ?_ huri' hmsg
            hstore⟩
        · rintro _ ⟨⟩; exact hver
        · rw [hw, hw0]; simp [Head.bytes, optionalPart]
      · have hwf : (Head.request lead method u (some v) (eolOf ch)).Wf type :=
          ⟨hty ▸ hreq, hlead, hmne, hmethod, hune, hu, by rintro _ ⟨⟩; exact hver,
            .inl (isEol_eolOf ch)⟩
        refine atState_lineEnd heol hi hty (.ofHead hwf ?_ huri' hmsg hstore)
        rw [hw, hw0]; simp [Head.bytes, optionalPart]
    · exact absurd ((hty.symm.trans hreq).symm.trans hresp) (by decide)
  case responseVersion n ht hch hvl hv hresp =>
    rcases hst with ⟨w0, lead, method, u, v, hw, hstart, -⟩ |
      ⟨-, hblank, lead, v, hw, hlead, ha⟩
    · exact absurd ((hty.symm.trans hresp).symm.trans hstart.1) (by decide)
    · obtain ⟨rest, hp⟩ := hpre
      have hvlen : v.length = 8 := by
        have hwl : w.length = lead.length + v.length := by rw [hw, length_append]
        omega
      rw [← hp, hw, ha, append_assoc (lead ++ v)] at hv
      exact ⟨hil, hty, w ++ [ch], lead, v, ch, [], by simp,
        ⟨hty ▸ hresp, by rw [hw], hlead, isVersionText_of hvlen hv, hch⟩, .nil, hblank.2.2.2,
        hblank.1, hblank.2.1, hblank.2.2.1⟩
  case statusSpace ht hch h100 =>
    obtain ⟨w0, lead, version, sep, st, hw, hstart, hst, hval, huri, hmsg, hstore⟩ := hst
    exact ⟨hil, hty, w0, lead, version, sep, st, [], by rw [hw, hch]; simp, hstart, hst,
      hval ▸ h100, .nil, by rw [← hw, ← hi], huri, hmsg, hstore⟩
  case statusEol ht hch h100 =>
    obtain ⟨w0, lead, version, sep, st, hw, hstart, hst, hval, huri, hmsg, hstore⟩ := hst
    obtain ⟨hresp, hw0, hlead, hver, hsep⟩ := hstart
    have hwf : (Head.response lead version sep st none (eolOf ch)).Wf type :=
      ⟨hresp, hlead, hver, hsep, hst, hval ▸ h100, by simp, isEol_eolOf ch⟩
    refine atState_lineEnd hch hi hty (.ofHead hwf ?_ huri hmsg hstore)
    rw [hw, hw0, Head.bytes, optionalPart, append_nil]
  case statusDigit ht hch h999 =>
    obtain ⟨w0, lead, version, sep, st, hw, hstart, hst, hval, hrest⟩ := hst
    exact atState_of ht ⟨hil, hty, w0, lead, version, sep, st ++ [ch], by rw [hw, append_assoc], hstart,
      hst.concat hch, by rw [statusValue_concat, hval], hrest⟩
  case messageEol ht hch =>
    obtain ⟨w0, lead, version, sep, st, s, hw, hstart, hst, h100, hs, ha, huri, hmsg, hstore⟩ := hst
    obtain ⟨hresp, hw0, hlead, hver, hsep⟩ := hstart
    have hwl : w.length = (w0 ++ st).length + 1 + s.length := by
      simp only [hw, length_append, length_singleton]
    have hwf : (Head.response lead version sep st (some s) (eolOf ch)).Wf type :=
      ⟨hresp, hlead, hver, hsep, hst, h100, by rintro _ ⟨⟩; exact hs, isEol_eolOf ch⟩
    refine atState_lineEnd hch hi hty (.ofHead hwf ?_ huri ?_ hstore)
    · rw [hw, hw0]; simp [Head.bytes, optionalPart]
    · dsimp only
      rw [short_of_le (by omega), short_of_le (by omega), ha, hi, hwl, hw0]
      simp [Head.messageSlice, sliceAt]
      omega
  case messageByte ht hch =>
    obtain ⟨w0, lead, version, sep, st, s, hw, hstart, hst, h100, hs, hrest⟩ := hst
    exact atState_of ht ⟨hil, hty, w0, lead, version, sep, st, s ++ [ch], by rw [hw]; simp, hstart, hst, h100,
      hs.concat hch, hrest⟩
  case crLf ht hch =>
    obtain ⟨head, fields, hsec⟩ := hst
    exact ⟨hil, hty, head, fields, hch ▸ { hsec with }⟩
  case blankCr ht hch =>
    obtain ⟨head, fields, hsec⟩ := hst
    exact ⟨hil, hty, w, head, fields, by rw [hch], { hsec with }⟩
  case nameStart ht hch =>
    obtain ⟨head, fields, hsec⟩ := hst
    refine ⟨hil, hty, w, head, fields, [ch], rfl, { hsec with }, by simp, .single hch, ?_⟩
    dsimp only
    rw [short_of_le (by omega), hi]
  case nameEnd ht hch =>
    obtain ⟨w0, head, fields, name, hw, hsec, hne, hname, hk⟩ := hst
    refine ⟨hil, hty, w0, head, fields, name, [], by rw [hw, hch]; simp, { hsec with },
      hne, hname, .nil, ?_⟩
    dsimp only
    rw [short_of_le (by omega), hk, hi, hw, length_append]
    rfl
  case nameByte ht hch =>
    obtain ⟨w0, head, fields, name, hw, hsec, hne, hname, hk⟩ := hst
    exact atState_of ht ⟨hil, hty, w0, head, fields, name ++ [ch], by rw [hw, append_assoc], { hsec with },
      by simp, hname.concat hch, hk⟩
  case pad ht hch =>
    obtain ⟨w0, head, fields, name, pad, hw, hsec, hne, hname, hpad, hk⟩ := hst
    exact atState_of ht ⟨hil, hty, w0, head, fields, name, pad ++ [ch], by rw [hw]; simp, { hsec with }, hne,
      hname, hpad.concat hch, hk⟩
  case valueEmpty ht hch =>
    obtain ⟨w0, head, fields, name, pad, hw, hsec, hne, hname, hpad, hk⟩ := hst
    have hdone := atState_valueEnd (r := { r with a := r.i, t := .value }) (v := []) hpre hlen
      (by rw [hw, append_nil]) hi hty { hsec with } hne hname hpad hk
      (by rw [← hw]; exact hi) .nil (by simp) hch
    rwa [storeHeader_i]
  case valueFirst ht hch hbl =>
    obtain ⟨w0, head, fields, name, pad, hw, hsec, hne, hname, hpad, hk⟩ := hst
    exact ⟨hil, hty, w0, head, fields, name, pad, [ch], by rw [hw], { hsec with }, hne,
      hname, hpad, hk, by rw [← hw]; exact hi, .single hch, ch, rfl, hbl⟩
  case valueEol ht hch =>
    obtain ⟨w0, head, fields, name, pad, v, hw, hsec, hne, hname, hpad, hk, ha, hv, c, hc, hbl⟩ := hst
    have hdone := atState_valueEnd hpre hlen hw hi hty hsec hne hname hpad hk ha hv
      (by intro d hd; rw [hc] at hd; cases hd; exact hbl) hch
    rwa [storeHeader_i]
  case valueByte ht hch =>
    obtain ⟨w0, head, fields, name, pad, v, hw, hsec, hne, hname, hpad, hk, ha, hv, c, hc, hbl⟩ := hst
    exact atState_of ht ⟨hil, hty, w0, head, fields, name, pad, v ++ [ch], by rw [hw]; simp, { hsec with }, hne,
      hname, hpad, hk, ha, hv.concat hch, c, by rw [List.head?_append, hc]; rfl, hbl⟩

end Steps

/-! ## Accepted messages -/

structure Accepted (realloc : Nat → Bool) (type : HttpType) (s : Bytes) (r : HttpMessage)
    (head : Head) (fields : List Field) (blank : Bytes) : Prop where
  sections : Sections realloc type (head.bytes ++ fieldsBytes fields) r head fields
  blank_eol : IsEol blank
  bytes : s = head.bytes ++ fieldsBytes fields ++ blank

theorem atState_init (type : HttpType) : AtState realloc type [] (initHttpMessage type) :=
  ⟨rfl, rfl, .nil, rfl, rfl, rfl, rfl⟩

variable {n : Nat} {k : Int}

theorem accepted_of_feed {s : Cursor} (hn : n ≤ p.length) (hmax : n ≤ SHRT_MAX) (hk : 0 < k)
    (hrun : feed (byteStep realloc p) (initHttpMessage type, false) (p.take n) = .done k s) :
    k ≤ n ∧ ∃ head fields blank,
      Accepted realloc type (p.take k.toNat) s.1 head fields blank := by
  let Inv : Bytes → Cursor → Prop :=
    fun w s => w <+: p → w.length ≤ SHRT_MAX → AtState realloc type w s.1
  have hkeep : ∀ w s x s', Inv w s → byteStep realloc p s x = .more s' → Inv (w ++ [x]) s' := by
    intro w s x s' hinv hstep hpre hlen
    have hat := hinv ((prefix_append w [x]).trans hpre)
      (by rw [length_append] at hlen; omega)
    have hround := byteRound_step realloc p s.1 x
    unfold byteStep at hstep
    cases hb : byteRound realloc p s.1 x with
    | brk r' | go r' =>
      rw [hb] at hstep hround
      cases hstep
      exact atState_step hpre hlen hat hround rfl
    | ret rc r' =>
      rw [hb] at hstep
      cases hstep
  obtain ⟨w, x, rest, s1, hword, hinv, hlast⟩ := feed_done_invariant Inv (w := [])
    (fun _ _ => atState_init type) hkeep hrun
  rw [nil_append] at hinv
  have hpre : w ++ [x] <+: p := by
    refine List.IsPrefix.trans ⟨rest, ?_⟩ ( take_prefix n p)
    rw [hword, append_assoc, singleton_append]
  have hwn : w.length + 1 ≤ n := by
    have hlen := congrArg List.length hword
    simp only [length_take, length_append, length_cons] at hlen
    omega
  obtain ⟨hi, -, hst⟩ := hinv ((prefix_append w [x]).trans hpre) (by omega)
  unfold byteStep at hlast
  cases hb : byteRound realloc p s1.1 x with
  | brk r' | go r' => rw [hb] at hlast; cases hlast
  | ret rc r' =>
    rw [hb] at hlast
    cases hlast
    rcases byteRound_ret hb with rfl | ⟨rfl, rfl, rfl, ht⟩
    · omega
    · have hi' : (s1.1.i : Int) = w.length := by rw [hi]
      have htake : p.take ((s1.1.i : Int) + 1).toNat = w ++ [chLf] := by
        rw [show ((s1.1.i : Int) + 1).toNat = (w ++ [chLf]).length by
          rw [length_append, length_singleton]; omega]
        exact (List.prefix_iff_eq_take.mp hpre).symm
      refine ⟨by omega, ?_⟩
      rw [htake]
      rcases ht with ht | ht <;> simp only [ht] at hst
      · obtain ⟨head, fields, hsec⟩ := hst
        refine ⟨head, fields, [chLf], ?_, .inl rfl, by rw [← hsec.bytes]⟩
        rw [← hsec.bytes]
        exact { hsec with }
      · obtain ⟨w0, head, fields, hw, hsec⟩ := hst
        refine ⟨head, fields, [chCr, chLf], ?_, .inr rfl, ?_⟩
        · rw [← hsec.bytes]
          exact { hsec with }
        · rw [hw, ← hsec.bytes, append_assoc]
          rfl

theorem accepted_of_parse {c : Nat} {r : HttpMessage} (hn : n ≤ p.length) (hc : n ≤ c)
    (hk : 0 < k) (hparse : parseHttpMessage realloc (initHttpMessage type) p n c = (k, r)) :
    k ≤ n ∧ ∃ head fields blank, Accepted realloc type (p.take k.toNat) r head fields blank := by
  rw [parseHttpMessage_eq _ hc hn (Nat.zero_le _),
    show (initHttpMessage type).i = 0 from rfl, slice, drop_zero] at hparse
  cases hrun : feed (byteStep realloc p) (initHttpMessage type, false)
      (p.take (min n SHRT_MAX)) with
  | more s =>
    rw [hrun] at hparse
    simp only [finish, loopResult] at hparse
    split_ifs at hparse <;> · cases hparse; omega
  | done rc s =>
    rw [hrun] at hparse
    cases hparse
    obtain ⟨hkn, hacc⟩ := accepted_of_feed (by omega) (by omega) hk hrun
    exact ⟨by omega, hacc⟩

end CosmoRuby.Http