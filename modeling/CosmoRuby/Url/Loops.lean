import CosmoRuby.Url.Text

/-!
# The loops of the parser

What each loop of `ParseUrl` does with a text that has no delimiter in it, and where it stops.
-/

namespace CosmoRuby.UrlCodec

open Lib Http List

variable {σ : Type} {body : UrlParser → σ → Turn (UrlParser × σ)} {u u' : UrlParser} {x x' : σ}
  {c : UInt8} {s t rest : Bytes} {h : Url}

/-! ## Reading -/

def Consumes (body : UrlParser → σ → Turn (UrlParser × σ)) : Prop :=
  ∀ u x u' x', body u x = .next (u', x') → u'.rest.length ≤ u.rest.length

abbrev UrlParser.moved (u : UrlParser) (buf : Bytes) (c : UInt8) (rest : Bytes) : UrlParser :=
  { u with buf := buf, c := c, rest := rest }

theorem rest_eq_cons (hc : (!u.rest.isEmpty) = true) : ∃ c rest, u.rest = c :: rest :=
  exists_cons_of_ne_nil (by simpa using hc)

theorem Consumes.lowers (hbody : Consumes body) :
    Lowers (fun s : UrlParser × σ => !s.1.rest.isEmpty)
      (fun s =>
        match s.1.rest with
        | [] => .stop s
        | c :: rest => body (s.1.read c rest) s.2)
      (fun s => s.1.rest.length) where
  pos := by
    rintro ⟨u, x⟩ hc
    obtain ⟨c, rest, hr⟩ := rest_eq_cons hc
    rw [hr]
    exact Nat.succ_pos _
  lt := by
    rintro ⟨u, x⟩ ⟨u', x'⟩ hc hb
    obtain ⟨c, rest, hr⟩ := rest_eq_cons hc
    dsimp only at hb ⊢
    rw [hr] at hb ⊢
    have hle := hbody _ _ _ _ hb
    rw [length_cons]
    exact Nat.lt_succ_of_le hle

theorem whileInput_nil (hr : u.rest = []) : whileInput body u x = (u, x) :=
  loop_done _ (by simp [hr])

theorem whileInput_next (hbody : Consumes body) (hr : u.rest = c :: rest)
    (hb : body (u.read c rest) x = .next (u', x')) : whileInput body u x = whileInput body u' x' := by
  obtain ⟨buf, d, n, _, f⟩ := u
  cases hr
  exact loop_next (s := ((⟨buf, d, n, c :: rest, f⟩ : UrlParser), x)) hbody.lowers rfl hb

theorem whileInput_stop (hbody : Consumes body) (hr : u.rest = c :: rest)
    (hb : body (u.read c rest) x = .stop (u', x')) : whileInput body u x = (u', x') := by
  obtain ⟨buf, d, n, _, f⟩ := u
  cases hr
  exact loop_stop (s := ((⟨buf, d, n, c :: rest, f⟩ : UrlParser), x)) hbody.lowers rfl hb

theorem whileInput_invariant (hbody : Consumes body) (Inv Post : UrlParser → σ → Prop)
    (hnext : ∀ u x c rest u' x', Inv u x → u.rest = c :: rest →
      body (u.read c rest) x = .next (u', x') → Inv u' x')
    (hstop : ∀ u x c rest u' x', Inv u x → u.rest = c :: rest →
      body (u.read c rest) x = .stop (u', x') → Post u' x')
    (hdone : ∀ u x, Inv u x → u.rest = [] → Post u x) (h0 : Inv u x) :
    Post (whileInput body u x).1 (whileInput body u x).2 := by
  refine loop_invariant hbody.lowers (fun s => Inv s.1 s.2) (fun s => Post s.1 s.2) ?_ ?_ ?_ (u, x) h0
  · rintro ⟨u, x⟩ ⟨u', x'⟩ hinv hc hb
    obtain ⟨c, rest, hr⟩ := rest_eq_cons hc
    dsimp only at hb
    rw [hr] at hb
    exact hnext u x c rest u' x' hinv hr hb
  · rintro ⟨u, x⟩ ⟨u', x'⟩ hinv hc hb
    obtain ⟨c, rest, hr⟩ := rest_eq_cons hc
    dsimp only at hb
    rw [hr] at hb
    exact hstop u x c rest u' x' hinv hr hb
  · rintro ⟨u, x⟩ hinv hc
    exact hdone u x hinv (by simpa using hc)

/-! ## Text -/

theorem parseText_plain (hesc : NotEscape c rest) :
    parseText (u.read c rest) =
      { u with buf := u.buf ++ plainOut u.f.latin1 c, c := c, rest := rest } := by
  unfold parseText
  by_cases hc : c = chPercent
  · rw [if_pos (show (u.read c rest).c = chPercent from hc)]
    have hout : plainOut u.f.latin1 c = [chPercent] := by
      rw [hc]
      exact if_neg fun h => absurd h.1 (by decide)
    rw [hout]
    unfold parseEscape
    split
    · rename_i a b s hr
      rw [if_neg]
      · rfl
      · rintro ⟨ha, hb⟩
        exact hesc a b s hc hr ⟨by simpa [isHex] using ha, by simpa [isHex] using hb⟩
    · rfl
  · rw [if_neg (show ¬(u.read c rest).c = chPercent from hc)]
    unfold plainOut
    by_cases hl : 0x80 ≤ c ∧ u.f.latin1 = true
    · rw [if_pos hl, if_pos (show 0x80 ≤ (u.read c rest).c ∧ (u.read c rest).f.latin1 = true from hl)]
      rfl
    · rw [if_neg hl, if_neg (show ¬(0x80 ≤ (u.read c rest).c ∧ (u.read c rest).f.latin1 = true) from hl)]
      rfl

theorem parseText_escape {a b : UInt8} (ha : isHex a = true) (hb : isHex b = true) :
    parseText (u.read chPercent (a :: b :: rest)) =
      { u with buf := u.buf ++ [hexByte a b], c := chPercent, rest := rest } := by
  have hhex : kHexToInt a ≠ -1 ∧ kHexToInt b ≠ -1 :=
    ⟨by simpa [isHex] using ha, by simpa [isHex] using hb⟩
  exact if_pos hhex

theorem parseText_length (u : UrlParser) : (parseText u).rest.length ≤ u.rest.length := by
  unfold parseText parseEscape emitLatin1 UrlParser.emit
  split_ifs
  · split
    · rename_i a b s hr
      split_ifs
      · rw [hr]
        simp only [length_cons]
        omega
      · exact le_rfl
    · exact le_rfl
  · exact le_rfl
  · exact le_rfl

theorem parseText_c (u : UrlParser) : (parseText u).c = u.c := by
  unfold parseText parseEscape emitLatin1 UrlParser.emit
  split_ifs
  · split
    · split_ifs <;> rfl
    · rfl
  · rfl
  · rfl

theorem parseText_buf (u : UrlParser) : (parseText u).buf ≠ [] := by
  unfold parseText parseEscape emitLatin1 UrlParser.emit
  split_ifs
  · split
    · split_ifs <;> simp
    · simp
  · simp [latin1]
  · simp

theorem parseText_f (u : UrlParser) : (parseText u).f = u.f := by
  unfold parseText parseEscape emitLatin1 UrlParser.emit
  split_ifs
  · split
    · split_ifs <;> rfl
    · rfl
  · rfl
  · rfl

theorem whileInput_text (hbody : Consumes body) (ht : Closed t)
    (htext : ∀ v : UrlParser, v.c ∈ s → v.f = u.f → body v x = .next (parseText v, x))
    (hr : u.rest = s ++ t) :
    whileInput body u x =
      whileInput body (u.moved (u.buf ++ decode u.f.latin1 s) (lastRead u.c s) t) x := by
  induction s using text_induction generalizing u with
  | nil =>
    rw [decode, lastRead, append_nil, ← show u.rest = t from hr]
  | plain c rest hesc ih =>
    have hstep := htext (u.read c (rest ++ t)) mem_cons_self rfl
    rw [whileInput_next hbody hr hstep, parseText_plain (hesc.append ht)]
    have hrec := ih (u := { u with
      buf := u.buf ++ plainOut u.f.latin1 c, c := c, rest := rest ++ t })
      (fun v hv hf => htext v (mem_cons_of_mem c hv) hf) rfl
    rw [hrec, decode_plain hesc, lastRead_plain hesc, append_assoc]
  | escape a b rest ha hb ih =>
    have hstep := htext (u.read chPercent (a :: b :: rest ++ t)) mem_cons_self rfl
    rw [whileInput_next hbody hr hstep]
    change whileInput body (parseText (u.read chPercent (a :: b :: (rest ++ t)))) x = _
    rw [parseText_escape ha hb]
    have hrec := ih (u := { u with
      buf := u.buf ++ [hexByte a b], c := chPercent, rest := rest ++ t })
      (fun v hv hf => htext v (mem_cons_of_mem _ (mem_cons_of_mem _
        (mem_cons_of_mem _ hv))) hf) rfl
    rw [hrec, decode_escape ha hb, lastRead_escape ha hb, append_assoc, singleton_append]

theorem whileInput_escapeUrlView {T : UInt8 → Bool} {v : Bytes} (q : UInt8 → Bool)
    (hT : T chPercent = true) (hq : ∀ c, (T c = false ∨ c = chPercent ∨ isHex c = true) → q c = true)
    (hbody : Consumes body) (ht : Closed t) (hl1 : u.f.latin1 = false)
    (htext : ∀ w : UrlParser, q w.c = true → w.f = u.f → body w x = .next (parseText w, x))
    (hr : u.rest = escapeUrlView T v ++ t) :
    ∃ c, (v = [] ∧ c = u.c ∨ v ≠ [] ∧ q c = true) ∧
      whileInput body u x = whileInput body (u.moved (u.buf ++ v) c t) x := by
  have hbytes : ∀ c ∈ escapeUrlView T v, q c = true := fun c hc =>
    hq c ((mem_escapeUrlView hc).imp_left And.left)
  refine ⟨lastRead u.c (escapeUrlView T v), ?_, ?_⟩
  · cases v with
    | nil => exact .inl ⟨rfl, rfl⟩
    | cons d v =>
      have hne := cons_ne_nil d v
      exact .inr ⟨hne, hbytes _ (lastRead_mem (escapeUrlView_ne_nil hne))⟩
  · have hdec := decode_escapeUrlView hT v []
    rw [append_nil, decode, append_nil] at hdec
    rw [whileInput_text hbody ht (fun w hw hf => htext w (hbytes _ hw) hf) hr, hl1, hdec]

/-! ## Paths -/

def pathByte (isOpaque : Bool) (c : UInt8) : Bool := c != chHash && (c != chQuestion || isOpaque)

theorem pathBody_text (hc : pathByte u.f.isOpaque u.c = true) :
    pathBody u () = .next (parseText u, ()) := by
  simp only [pathByte, Bool.and_eq_true, bne_iff_ne, ne_eq, Bool.or_eq_true] at hc
  unfold pathBody
  rw [if_neg hc.1, if_neg]
  rintro ⟨hq, hf⟩
  rcases hc.2 with h | h
  · exact h hq
  · rw [h] at hf; cases hf

theorem pathBody_stop (hc : pathByte u.f.isOpaque u.c = false) : pathBody u () = .stop (u, ()) := by
  unfold pathBody
  by_cases hh : u.c = chHash
  · rw [if_pos hh]
  · rw [if_neg hh, if_pos]
    simpa [pathByte, hh] using hc

theorem consumes_pathBody : Consumes pathBody := by
  intro u x u' x' h
  by_cases hc : pathByte u.f.isOpaque u.c = true
  · rw [pathBody_text hc] at h
    cases h
    exact parseText_length u
  · rw [pathBody_stop (by simpa using hc)] at h
    cases h

theorem closed_of_pathByte {o : Bool} (h : pathByte o c = false) : Closed (c :: t) := by
  apply closed_cons
  have hc : c = chHash ∨ c = chQuestion := by
    by_contra hne
    rw [not_or] at hne
    simp [pathByte, hne.1, hne.2] at h
  rcases hc with rfl | rfl <;> decide

theorem parsePath_end (hs : ∀ c ∈ u.rest, pathByte u.f.isOpaque c = true) :
    parsePath u h =
      (u.moved [] (lastRead u.c u.rest) [],
        { h with path := some (u.buf ++ decode u.f.latin1 u.rest) }) := by
  have hloop := whileInput_text (u := u) (x := ()) (t := []) consumes_pathBody closed_nil
    (fun v hv hf => pathBody_text (hf ▸ hs _ hv)) (append_nil _).symm
  unfold parsePath
  rw [hloop, whileInput_nil rfl]
  rfl

theorem parsePath_stop (hs : ∀ d ∈ s, pathByte u.f.isOpaque d = true)
    (hc : pathByte u.f.isOpaque c = false) (hr : u.rest = s ++ c :: t) :
    parsePath u h =
      (u.moved [] c t, { h with path := some (u.buf ++ decode u.f.latin1 s) }) := by
  have hloop := whileInput_text (x := ()) consumes_pathBody (closed_of_pathByte hc)
    (fun v hv hf => pathBody_text (hf ▸ hs _ hv)) hr
  have hstop : whileInput pathBody
      (u.moved (u.buf ++ decode u.f.latin1 s) (lastRead u.c s) (c :: t)) () =
      (u.moved (u.buf ++ decode u.f.latin1 s) c t, ()) :=
    whileInput_stop consumes_pathBody rfl (pathBody_stop hc)
  unfold parsePath
  rw [hloop, hstop]
  rfl

/-! ## Fragments -/

theorem parseFragment_eq : (parseFragment u h).2 =
    { h with fragment := some (u.buf ++ decode u.f.latin1 u.rest) } := by
  have hbody : Consumes fragmentBody := by
    rintro u x u' x' ⟨⟩
    exact parseText_length u
  have hloop := whileInput_text (u := u) (x := ()) (t := []) hbody closed_nil (fun v _ _ => rfl)
    (append_nil _).symm
  unfold parseFragment
  rw [hloop, whileInput_nil rfl]

/-! ## What follows the path -/

theorem parseTail_path (hh : u.c ≠ chHash) (hq : u.c ≠ chQuestion) :
    parseTail u h = parseRest (parsePath u h).1 (parsePath u h).2 := by
  unfold parseTail
  rw [if_pos ⟨hh, hq⟩]

theorem parseTail_noPath (hc : u.c = chHash ∨ u.c = chQuestion) : parseTail u h = parseRest u h := by
  unfold parseTail
  rw [if_neg]
  rintro ⟨hh, hq⟩
  exact hc.elim hh hq

theorem parseRest_plain (hq : u.c ≠ chQuestion) (hh : u.c ≠ chHash) : parseRest u h = h := by
  unfold parseRest
  rw [if_neg hq, if_neg hh]

theorem parseRest_fragment (hh : u.c = chHash) :
    parseRest u h = { h with fragment := some (u.buf ++ decode u.f.latin1 u.rest) } := by
  have hq : u.c ≠ chQuestion := by rw [hh]; decide
  unfold parseRest
  rw [if_neg hq, if_pos hh]
  exact parseFragment_eq

end CosmoRuby.UrlCodec