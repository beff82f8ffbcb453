import CosmoRuby.Url.Loops

/-!
# Query parameters

`ParseQuery` reads back the parameters that `EncodeUrl` writes.  The two lists it cannot tell apart in
the text, no parameter at all and one with an empty key and no value, it tells apart by whether a
fragment follows (`parseQuery_shape`).
-/

namespace CosmoRuby.UrlCodec

open Lib Http List

variable {u : UrlParser} {x : Bool × List UrlParam} {c : UInt8} {t rest : Bytes} {h : Url}
  {p : UrlParam} {ps : List UrlParam}

/-! ## One pass -/

def queryByte (c : UInt8) : Bool := c != chHash && c != chPlus && c != chAmp && c != chEquals

theorem queryBody_text (hc : queryByte u.c = true) : queryBody u x = .next (parseText u, x) := by
  simp only [queryByte, Bool.and_eq_true, bne_iff_ne, ne_eq] at hc
  unfold queryBody
  rw [if_neg hc.1.1.1, if_neg hc.1.1.2, if_neg hc.1.2, if_neg hc.2]

theorem queryBody_hash (hc : u.c = chHash) : queryBody u x = .stop (u, x) := if_pos hc

theorem queryBody_amp (hc : u.c = chAmp) :
    queryBody u x = .next ((emitVal u x.2 x.1).1, false, (emitVal u x.2 x.1).2) := by
  unfold queryBody
  rw [if_neg (by rw [hc]; decide), if_neg (by rw [hc]; decide), if_pos hc]

theorem queryBody_equals (hc : u.c = chEquals) :
    queryBody u (false, ps) = .next (u.cut, true, ps ++ [⟨u.buf, none⟩]) := by
  unfold queryBody
  rw [if_neg (by rw [hc]; decide), if_neg (by rw [hc]; decide), if_neg (by rw [hc]; decide),
    if_pos hc]
  rfl

theorem emitVal_key (h : u.buf ≠ [] ∨ u.c ≠ chQuestion) :
    emitVal u ps false = (u.cut, ps ++ [⟨u.buf, none⟩]) := if_pos h

theorem emitVal_none (hb : u.buf = []) (hc : u.c = chQuestion) : emitVal u ps false = (u, ps) := by
  have hfresh : ¬(u.buf ≠ [] ∨ u.c ≠ chQuestion) := by simp [hb, hc]
  exact if_neg hfresh

theorem emitVal_val : emitVal u ps true = (u.cut, setLastVal u.buf ps) := rfl

theorem emitVal_rest (t : Bool) : (emitVal u ps t).1.rest = u.rest := by
  unfold emitVal emitKey
  split_ifs <;> rfl

inductive QueryStep (u : UrlParser) (b : Bool) (ps : List UrlParam) :
    Turn (UrlParser × Bool × List UrlParam) → Prop
  | hash (hc : u.c = chHash) : QueryStep u b ps (.stop (u, b, ps))
  | plus (hc : u.c = chPlus) (out : UInt8) : QueryStep u b ps (.next (u.emit [out], b, ps))
  | amp (hc : u.c = chAmp) :
      QueryStep u b ps (.next ((emitVal u ps b).1, false, (emitVal u ps b).2))
  | key (hc : u.c = chEquals) : QueryStep u b ps (.next (u.cut, true, ps ++ [⟨u.buf, none⟩]))
  | equals (hc : u.c = chEquals) : QueryStep u b ps (.next (u.emit [chEquals], b, ps))
  | text (hc : u.c ≠ chHash) : QueryStep u b ps (.next (parseText u, b, ps))

theorem queryBody_step (u : UrlParser) (b : Bool) (ps : List UrlParam) :
    QueryStep u b ps (queryBody u (b, ps)) := by
  by_cases hhash : u.c = chHash
  · rw [queryBody_hash hhash]
    exact .hash hhash
  · unfold queryBody
    rw [if_neg hhash]
    split <;> rename_i hplus
    · exact .plus hplus _
    · split_ifs with hamp hequals
      · exact .amp hamp
      · exact .key hequals
      · exact .equals hequals
      · exact .text hhash

theorem consumes_queryBody : Consumes queryBody := by
  rintro u ⟨b, ps⟩ u' x' h
  have hstep := queryBody_step u b ps
  rw [h] at hstep
  cases hstep with
  | amp => exact (congrArg List.length (emitVal_rest b)).le
  | text => exact parseText_length u
  | plus | key | equals => exact le_rfl

/-! ## Reading back -/

theorem setLastVal_concat (v : Bytes) (ps : List UrlParam) (p : UrlParam) :
    setLastVal v (ps ++ [p]) = ps ++ [{ p with val := some v }] := by
  induction ps with
  | nil => rfl
  | cons q ps ih =>
    cases ps with
    | nil => rfl
    | cons r ps => exact congrArg (q :: ·) ih

theorem kEscapeParam_text : ∀ c : UInt8,
    (kEscapeParam c = false ∨ c = chPercent ∨ isHex c = true) → queryByte c = true := by
  decide +kernel

theorem whileInput_param (ps : List UrlParam) (p : UrlParam) (hl1 : u.f.latin1 = false) (hbuf : u.buf = [])
    (ht : Closed t) (hr : u.rest = encodeParam p ++ t) :
    ∃ v b ps', whileInput queryBody u (false, ps) = whileInput queryBody v (b, ps') ∧
      v.rest = t ∧ v.f = u.f ∧ (v.c ≠ chHash ∨ v.c = u.c) ∧ (p = ⟨[], none⟩ → v.c = u.c) ∧
      ∀ w : UrlParser, w.buf = v.buf → (w.c ≠ chQuestion ∨ p ≠ ⟨[], none⟩) →
        emitVal w ps' b = (w.cut, ps ++ [p]) := by
  have hnot : ∀ c, queryByte c = true → c ≠ chHash := by
    rintro c hc rfl
    exact absurd hc (by decide)
  obtain ⟨key, val⟩ := p
  cases val with
  | none =>
    rw [encodeParam, append_nil] at hr
    obtain ⟨c, hc, hloop⟩ := whileInput_escapeUrlView (x := (false, ps)) queryByte (by decide)
      kEscapeParam_text consumes_queryBody ht hl1 (fun w hw _ => queryBody_text hw) hr
    rw [hbuf, nil_append] at hloop
    dsimp only at hc hloop
    refine ⟨_, _, _, hloop, rfl, rfl, ?_, ?_, ?_⟩
    · exact hc.elim (fun h => .inr h.2) fun h => .inl (hnot _ h.2)
    · intro hp
      have hkey : key = [] := congrArg UrlParam.key hp
      exact hc.elim And.right fun h => absurd hkey h.1
    · intro w hw hcond
      have hw' : w.buf = key := hw
      rw [emitVal_key, hw']
      rw [hw']
      by_cases hkey : key = []
      · exact .inr (hcond.resolve_right (not_not.mpr (by rw [hkey])))
      · exact .inl hkey
  | some val =>
    set rest := escapeUrlView kEscapeParam val ++ t
    have hr' : u.rest = escapeUrlView kEscapeParam key ++ chEquals :: rest := by
      rw [hr, encodeParam, append_assoc, cons_append]
    obtain ⟨c, -, hloop⟩ := whileInput_escapeUrlView (x := (false, ps)) queryByte (by decide)
      kEscapeParam_text consumes_queryBody (closed_cons (by decide)) hl1
      (fun w hw _ => queryBody_text hw) hr'
    rw [hbuf, nil_append] at hloop
    have hequals : whileInput queryBody (u.moved key c (chEquals :: rest)) (false, ps) =
        whileInput queryBody (u.moved [] chEquals rest) (true, ps ++ [⟨key, none⟩]) :=
      whileInput_next consumes_queryBody rfl (queryBody_equals rfl)
    obtain ⟨d, hd, hloop'⟩ := whileInput_escapeUrlView
      (u := u.moved [] chEquals rest) (x := (true, ps ++ [⟨key, none⟩])) queryByte (by decide)
      kEscapeParam_text consumes_queryBody ht hl1 (fun w hw _ => queryBody_text hw) rfl
    rw [nil_append] at hloop'
    refine ⟨_, _, _, hloop.trans (hequals.trans hloop'), rfl, rfl, ?_, ?_, ?_⟩
    · left
      rcases hd with ⟨-, rfl⟩ | ⟨-, hd⟩
      · exact show chEquals ≠ chHash by decide
      · exact hnot _ hd
    · intro hp
      cases hp
    · intro w hw _
      have hw' : w.buf = val := hw
      rw [emitVal_val, hw', setLastVal_concat]

/-- The text of a list of parameters that is not empty, at the start of the query or after `&`. -/
theorem parseParams_encode (hl1 : u.f.latin1 = false) (hbuf : u.buf = []) (hne : ps ≠ [])
    (ht : t = [] ∨ ∃ g, t = chHash :: g) (hc : u.c ≠ chHash)
    (hlast : u.c = chQuestion → ps = [⟨[], none⟩] → t ≠ []) (acc : List UrlParam)
    (hr : u.rest = encodeParams ps ++ t) :
    ∃ v b qs, whileInput queryBody u (false, acc) = (v, b, qs) ∧
      emitVal v qs b = (v.cut, acc ++ ps) ∧ v.f = u.f ∧
      (t = [] → v.c ≠ chHash) ∧ ∀ g, t = chHash :: g → v.c = chHash ∧ v.rest = g := by
  induction ps generalizing u acc with
  | nil => exact absurd rfl hne
  | cons p ps ih =>
    cases ps with
    | nil =>
      have hclosed : Closed t := by
        rcases ht with rfl | ⟨g, rfl⟩
        · exact closed_nil
        · exact closed_cons (by decide)
      obtain ⟨v, b, qs, hloop, hvr, hvf, hvc, hvp, hval⟩ :=
        whileInput_param acc p hl1 hbuf hclosed hr
      rcases ht with rfl | ⟨g, rfl⟩
      · refine ⟨v, b, qs, hloop.trans (whileInput_nil hvr), ?_, hvf, fun _ => ?_, fun g h => by cases h⟩
        · apply hval v rfl
          by_cases hp : p = ⟨[], none⟩
          · left
            intro hq
            exact hlast ((hvp hp).symm.trans hq) (by rw [hp]) rfl
          · exact .inr hp
        · exact hvc.elim id fun h => h ▸ hc
      · have hstop : whileInput queryBody v (b, qs) = ({ v with c := chHash, rest := g }, b, qs) :=
          whileInput_stop consumes_queryBody hvr (queryBody_hash rfl)
        refine ⟨_, b, qs, hloop.trans hstop, hval _ rfl (.inl (show chHash ≠ chQuestion by decide)),
          hvf, fun h => absurd h (cons_ne_nil _ _), ?_⟩
        rintro _ ⟨⟩
        exact ⟨rfl, rfl⟩
    | cons q ps =>
      have hr' : u.rest = encodeParam p ++ chAmp :: (encodeParams (q :: ps) ++ t) := by
        rw [hr, encodeParams, append_assoc, cons_append]
        exact cons_ne_nil q ps
      obtain ⟨v, b, qs, hloop, hvr, hvf, -, -, hval⟩ :=
        whileInput_param acc p hl1 hbuf (closed_cons (by decide)) hr'
      have hamp : whileInput queryBody v (b, qs) =
          whileInput queryBody (v.moved [] chAmp (encodeParams (q :: ps) ++ t)) (false, acc ++ [p]) := by
        apply whileInput_next consumes_queryBody hvr
        rw [queryBody_amp rfl, hval (v.read chAmp _) rfl (.inl (show chAmp ≠ chQuestion by decide))]
        rfl
      obtain ⟨v', b', qs', hloop', hval', hvf', htail⟩ := ih
        (u := v.moved [] chAmp (encodeParams (q :: ps) ++ t))
        (by rw [hvf]; exact hl1) rfl (cons_ne_nil q ps) (show chAmp ≠ chHash by decide)
        (fun h => absurd h (show chAmp ≠ chQuestion by decide)) (acc ++ [p]) rfl
      rw [append_assoc] at hval'
      exact ⟨v', b', qs', (hloop.trans hamp).trans hloop', hval', hvf'.trans hvf, htail⟩

/-- Every list of parameters is read back except the one whose text is empty: a parameter without key and value. -/
theorem parseParams_encodeParams_iff (ps acc : List UrlParam) (hsize : (encodeParams ps).length < 2 ^ 32) :
    parseParams (encodeParams ps) acc = acc ++ ps ↔ ps ≠ [⟨[], none⟩] := by
  have hempty : parseParams [] acc = acc := rfl
  constructor
  · rintro heq rfl
    exact cons_ne_nil _ _ (append_right_eq_self.mp (heq.symm.trans hempty))
  · intro hone
    by_cases hne : ps = []
    · rw [hne, encodeParams, hempty, append_nil]
    · obtain ⟨v, b, qs, hloop, hval, -⟩ := parseParams_encode
        (u := ⟨[], chQuestion, (encodeParams ps).length, encodeParams ps, ⟨true, false, false⟩⟩)
        rfl rfl hne (.inl rfl) (show chQuestion ≠ chHash by decide) (fun _ h => absurd h hone) acc (append_nil _).symm
      simp only [parseParams, parseQuery, Nat.mod_eq_of_lt hsize, take_length, Option.getD_some, hloop, hval]

theorem parseParams_encodeParams_two : parseParams (encodeParams [⟨[0x26], some [0x3D, 0x20]⟩, ⟨[], none⟩]) [] =
    [⟨[0x26], some [0x3D, 0x20]⟩, ⟨[], none⟩] :=
  (parseParams_encodeParams_iff _ [] (by decide)).mpr (by decide)

/-! ## Query and fragment -/

/-- A query without parameters ends the URL, and one whose only parameter is empty does not. -/
structure QueryShape (h : Url) : Prop where
  nil : h.params = some [] → h.fragment = none
  empty : h.params = some [⟨[], none⟩] → h.fragment ≠ none

theorem parseQuery_eq {v w : UrlParser} {b : Bool} {qs : List UrlParam} (hparams : h.params = none)
    (hloop : whileInput queryBody u (false, []) = (v, b, qs)) (hval : emitVal v qs b = (w, ps)) :
    parseQuery u h = (w, { h with params := some ps }) := by
  unfold parseQuery
  rw [hparams, Option.getD_none, hloop]
  dsimp only
  rw [hval]

theorem parseRest_query {w : UrlParser} {h1 : Url} (hc : u.c = chQuestion)
    (hquery : parseQuery u h = (w, h1)) :
    parseRest u h =
      if w.c = chHash then { h1 with fragment := some (w.buf ++ decode w.f.latin1 w.rest) }
      else h1 := by
  unfold parseRest
  rw [if_pos hc, hquery]
  dsimp only
  rw [parseFragment_eq]

theorem parseRest_encode (hshape : QueryShape h) {h0 : Url} (hl1 : u.f.latin1 = false)
    (hbuf : u.buf = []) (hparams : h0.params = none) (hfragment : h0.fragment = none)
    (hr : u.c :: u.rest = encodeQuery h ++ encodeFragment h) :
    parseRest u h0 = { h0 with params := h.params, fragment := h.fragment } := by
  have hdec : ∀ g, decode false (escapeUrlView kEscapeFragment g) = g := by
    intro g
    have hg := decode_escapeUrlView (T := kEscapeFragment) (by decide) g []
    rwa [append_nil, decode, append_nil] at hg
  unfold encodeQuery encodeFragment at hr
  cases hp : h.params with
  | none =>
    rw [hp, nil_append] at hr
    cases hg : h.fragment with
    | none => rw [hg] at hr; cases hr
    | some g =>
      rw [hg] at hr
      obtain ⟨hc, hrest⟩ := List.cons.inj hr
      rw [parseRest_fragment hc, hbuf, hrest, hl1, hdec, nil_append, ← hparams]
  | some ps =>
    rw [hp, cons_append] at hr
    obtain ⟨hc, hrest⟩ := List.cons.inj hr
    by_cases hne : ps = []
    · -- nothing follows the question mark
      have hg : h.fragment = none := hshape.nil (by rw [hp, hne])
      rw [hne, hg] at hrest
      have hloop : whileInput queryBody u (false, []) = (u, false, []) := whileInput_nil hrest
      have hcut : u.c ≠ chHash := by rw [hc]; decide
      rw [parseRest_query hc (parseQuery_eq hparams hloop (emitVal_none hbuf hc)), if_neg hcut, hne, hg,
        ← hfragment]
    · cases hg : h.fragment with
      | none =>
        rw [hg] at hrest
        have hlast : u.c = chQuestion → ps = [⟨[], none⟩] → ([] : Bytes) ≠ [] := fun _ h1 _ =>
          hshape.empty (by rw [hp, h1]) hg
        obtain ⟨v, b, qs, hloop, hval, -, hvc, -⟩ := parseParams_encode hl1 hbuf hne (.inl rfl)
          (by rw [hc]; decide) hlast [] hrest
        rw [parseRest_query hc (parseQuery_eq hparams hloop hval),
          if_neg (show v.cut.c ≠ chHash from hvc rfl), ← hfragment]
        rfl
      | some g =>
        rw [hg] at hrest
        obtain ⟨v, b, qs, hloop, hval, hvf, -, hvc⟩ := parseParams_encode hl1 hbuf hne
          (.inr ⟨_, rfl⟩) (by rw [hc]; decide) (fun _ _ h => absurd h (cons_ne_nil _ _)) [] hrest
        obtain ⟨hvh, hvr⟩ := hvc _ rfl
        have htext : v.cut.buf ++ decode v.cut.f.latin1 v.cut.rest = g := by
          change [] ++ decode v.f.latin1 v.rest = g
          rw [hvf, hl1, hvr, hdec, nil_append]
        rw [parseRest_query hc (parseQuery_eq hparams hloop hval),
          if_pos (show v.cut.c = chHash from hvh), htext]
        rfl

/-! ## The shape of every query -/

theorem setLastVal_ne_nil {v : Bytes} (hps : ps ≠ []) : setLastVal v ps ≠ [] := by
  cases ps with
  | nil => exact absurd rfl hps
  | cons p ps => cases ps <;> simp [setLastVal]

/-- Before the first character of a query nothing is written; after it a parameter or a byte is. -/
structure QueryInv (u : UrlParser) (x : Bool × List UrlParam) : Prop where
  hash : u.c ≠ chHash
  fresh : u.buf = [] → x.2 = [] → u.c = chQuestion ∧ x.1 = false
  question : u.c = chQuestion → u.buf = [] → x.2 = []
  val : x.1 = true → x.2 ≠ []

theorem queryInv_text (hx : x.1 = true → x.2 ≠ []) {v : UrlParser} (hc : v.c ≠ chHash)
    (hb : v.buf ≠ []) : QueryInv v x :=
  ⟨hc, fun h => absurd h hb, fun _ h => absurd h hb, hx⟩

theorem queryInv_next {u' : UrlParser} {x' : Bool × List UrlParam} (hinv : QueryInv u x)
    (hb : queryBody (u.read c rest) x = .next (u', x')) : QueryInv u' x' := by
  obtain ⟨b, ps⟩ := x
  have hstep := queryBody_step (u.read c rest) b ps
  rw [hb] at hstep
  cases hstep with
  | plus hc | equals hc =>
    have hhash : (u.read c rest).c ≠ chHash := by rw [hc]; decide
    exact queryInv_text hinv.val hhash (by simp [UrlParser.emit])
  | text hc => exact queryInv_text hinv.val (by rw [parseText_c]; exact hc) (parseText_buf _)
  | key hc =>
    have hc' : ((u.read c rest).cut).c = chEquals := hc
    exact ⟨by rw [hc']; decide, fun _ h => absurd h (by simp),
      fun h => absurd (hc'.symm.trans h) (by decide), fun _ => by simp⟩
  | amp hc =>
    have hq : (u.read c rest).c ≠ chQuestion := by rw [hc]; decide
    have hne : (emitVal (u.read c rest) ps b).2 ≠ [] := by
      cases b with
      | false => rw [emitVal_key (.inr hq)]; simp
      | true => rw [emitVal_val]; exact setLastVal_ne_nil (hinv.val rfl)
    have hc' : (emitVal (u.read c rest) ps b).1.c = chAmp := by
      cases b with
      | false => rw [emitVal_key (.inr hq)]; exact hc
      | true => exact hc
    exact ⟨by rw [hc']; decide, fun _ h => absurd h hne,
      fun h => absurd (hc'.symm.trans h) (by decide), fun h => nomatch h⟩

theorem parseQuery_shape (hc : u.c = chQuestion) (hparams : h.params = none) :
    ∃ w ps, parseQuery u h = (w, { h with params := some ps }) ∧
      (ps = [] → w.c ≠ chHash) ∧ (ps = [⟨[], none⟩] → w.c = chHash) := by
  have hinv : QueryInv u (false, []) :=
    ⟨by rw [hc]; decide, fun _ _ => ⟨hc, rfl⟩, fun _ _ => rfl, fun h => nomatch h⟩
  have hpost := whileInput_invariant consumes_queryBody QueryInv
    (fun v x => (emitVal v x.2 x.1).1.c = v.c ∧ ((emitVal v x.2 x.1).2 = [] → v.c ≠ chHash) ∧
      ((emitVal v x.2 x.1).2 = [⟨[], none⟩] → v.c = chHash))
    (fun u x c rest u' x' hinv _ hb => queryInv_next hinv hb) ?_ ?_ hinv
  · generalize hloop : whileInput queryBody u (false, []) = r at hpost
    obtain ⟨v, b, qs⟩ := r
    obtain ⟨hwc, hnil, hempty⟩ := hpost
    generalize hval : emitVal v qs b = e at hwc hnil hempty
    refine ⟨e.1, e.2, parseQuery_eq hparams hloop hval, ?_, ?_⟩
    · rw [hwc]; exact hnil
    · rw [hwc]; exact hempty
  · -- left at the hash sign, where the last parameter is always written
    rintro u ⟨b, ps⟩ c rest u' x' hinv - hb
    have hstep := queryBody_step (u.read c rest) b ps
    rw [hb] at hstep
    cases hstep with
    | hash hc =>
      cases b with
      | false =>
        rw [emitVal_key (.inr (by rw [hc]; decide))]
        exact ⟨rfl, fun h => absurd h (by simp), fun _ => hc⟩
      | true => exact ⟨rfl, fun h => absurd h (setLastVal_ne_nil (hinv.val rfl)), fun _ => hc⟩
  · rintro u ⟨b, ps⟩ hinv -
    cases b with
    | true =>
      obtain ⟨qs, q, rfl⟩ : ∃ qs q, ps = qs ++ [q] :=
        ⟨_, _, (dropLast_append_getLast (hinv.val rfl)).symm⟩
      refine ⟨rfl, fun _ => hinv.hash, fun h => ?_⟩
      rw [emitVal_val, setLastVal_concat] at h
      have hlast := congrArg List.getLast? h
      simp at hlast
    | false =>
      by_cases hwrite : u.buf ≠ [] ∨ u.c ≠ chQuestion
      · rw [emitVal_key hwrite]
        refine ⟨rfl, fun _ => hinv.hash, fun h => ?_⟩
        cases ps with
        | nil =>
          have hb : u.buf = [] := by simpa using h
          exact absurd (hinv.fresh hb rfl).1 (hwrite.resolve_left (not_not.mpr hb))
        | cons p ps => simp at h
      · rw [not_or, not_not, not_not] at hwrite
        rw [emitVal_none hwrite.1 hwrite.2]
        refine ⟨rfl, fun _ => hinv.hash, fun h => ?_⟩
        have hps := hinv.question hwrite.2 hwrite.1
        rw [hps] at h
        cases h

/-- What follows the path touches the parameters and the fragment only, and leaves their shape. -/
theorem parseRest_shape (hparams : h.params = none) (hfragment : h.fragment = none) :
    ∃ params fragment, parseRest u h = { h with params := params, fragment := fragment } ∧
      QueryShape (parseRest u h) ∧ (params = none ↔ u.c ≠ chQuestion) := by
  by_cases hq : u.c = chQuestion
  · obtain ⟨w, ps, hquery, hnil, hempty⟩ := parseQuery_shape hq hparams
    rw [parseRest_query hq hquery]
    split_ifs with hw
    · refine ⟨_, _, rfl, ⟨fun h => ?_, fun _ h => by cases h⟩, by simp [hq]⟩
      exact absurd hw (hnil (Option.some.inj h))
    · refine ⟨_, _, rfl, ⟨fun _ => hfragment, fun h => ?_⟩, by simp [hq]⟩
      exact absurd (hempty (Option.some.inj h)) hw
  · by_cases hh : u.c = chHash
    · rw [parseRest_fragment hh]
      refine ⟨h.params, _, rfl, ⟨fun h' => ?_, fun _ h' => by cases h'⟩, by simp [hparams, hq]⟩
      rw [hparams] at h'
      cases h'
    · rw [parseRest_plain hq hh]
      refine ⟨h.params, h.fragment, rfl, ⟨fun _ => hfragment, fun h' => ?_⟩, by simp [hparams, hq]⟩
      rw [hparams] at h'
      cases h'

theorem parseRest_question (hbuf : u.buf = []) (hc : u.c = chQuestion) (hr : u.rest = [])
    (hparams : h.params = none) : parseRest u h = { h with params := some [] } := by
  have hloop : whileInput queryBody u (false, []) = (u, false, []) := whileInput_nil hr
  rw [parseRest_query hc (parseQuery_eq hparams hloop (emitVal_none hbuf hc)),
    if_neg (by rw [hc]; decide)]

end CosmoRuby.UrlCodec