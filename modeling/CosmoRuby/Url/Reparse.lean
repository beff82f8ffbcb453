import CosmoRuby.Url.Query
import CosmoRuby.Url.Authority
import CosmoRuby.Url.Scheme

/-!
# Reading back what was encoded

The shape of the URLs that the parser makes, and which of them it makes again from their encoding.
-/

namespace CosmoRuby.UrlCodec

open Lib Http List Option

variable {x s t y rest : Bytes} {c : UInt8} {f : UrlFlags} {n : Nat} {u v : UrlParser} {h h0 : Url}

structure Normal (h : Url) : Prop where
  scheme : ∀ x, h.scheme = some x → IsScheme x
  pass : h.pass ≠ none → h.user ≠ none
  noHost : h.host = none → h.user = none ∧ h.pass = none ∧ h.port = none ∧ h.path ≠ none
  path : h.host ≠ none →
    (h.path = none ∧ (h.params ≠ none ∨ h.fragment ≠ none)) ∨
      (h.path = some [] ∧ h.params = none ∧ h.fragment = none) ∨ ∃ p, h.path = some (chSlash :: p)
  query : QueryShape h
  rootless : h.scheme ≠ none → h.host = none → (h.path.getD []).head? ≠ some chSlash →
    h.params = none ∨ h.params = some []

def SlashesPath (h : Url) : Prop := h.host = none ∧ [chSlash, chSlash] <+: h.path.getD []

def SchemePath (h : Url) : Prop :=
  h.scheme = none ∧ h.host = none ∧ splitScheme (h.path.getD []) ≠ none

def RootlessQuery (h : Url) : Prop :=
  h.scheme ≠ none ∧ h.host = none ∧ (h.path.getD []).head? ≠ some chSlash ∧ h.params = some []

def BareAuthority (h : Url) : Prop :=
  h.scheme = none ∧ h.host = some [] ∧ h.user = none ∧ h.port = none ∧ h.path = some []

def ReadsBack (h : Url) : Prop := parseUrl (encodeUrl h) noFlags = h

/-! ## The end of the scheme -/

theorem parseUrl_ends (f : UrlFlags) (hs : s.length < 2 ^ 32) : ∃ r, SchemeEnds f s.length s r ∧
    parseUrl s f =
      if r.2.1 then parseTail (parseAuthority r.1 r.2.2).1 (parseAuthority r.1 r.2.2).2
      else parseTail r.1 r.2.2 := by
  refine ⟨_, parseScheme_ends f s, ?_⟩
  unfold parseUrl
  dsimp only
  rw [Nat.mod_eq_of_lt hs, take_length]

theorem parseUrl_scheme (hx : IsScheme x) (hs : (x ++ chColon :: t).length < 2 ^ 32) :
    ∃ n, parseUrl (x ++ chColon :: t) f =
      if [chSlash, chSlash] <+: t then
        let a := parseAuthority ⟨[], chColon, n, t.drop 2, f⟩ (withScheme x)
        parseTail a.1 a.2
      else parseTail
        ⟨[], chColon, n, t, if t.head? = some chSlash then f else { f with isOpaque := true }⟩
        (withScheme x) := by
  obtain ⟨r, hends, hparse⟩ := parseUrl_ends f hs
  refine ⟨(x ++ chColon :: t).length, ?_⟩
  have hsplit := splitScheme_scheme hx t
  rw [hparse]
  cases hends with
  | authority t' hs =>
    rw [hs, splitScheme_slashes] at hsplit
    cases hsplit
  | schemeAuthority x' t' hx' hs =>
    obtain ⟨rfl, rfl⟩ := scheme_unique hx hx' hs
    rw [if_pos rfl, if_pos ⟨t', rfl⟩]
    simp only [drop_succ_cons, drop_zero]
  | schemePath x' t' hx' hs ht =>
    obtain ⟨rfl, rfl⟩ := scheme_unique hx hx' hs
    rw [if_neg Bool.false_ne_true, if_neg, if_pos (show (chSlash :: t').head? = some chSlash from rfl)]
    rintro ⟨r, hr⟩
    obtain ⟨-, rfl⟩ := List.cons.inj hr
    exact ht rfl
  | opaquePart x' t' hx' hs ht =>
    obtain ⟨rfl, rfl⟩ := scheme_unique hx hx' hs
    rw [if_neg Bool.false_ne_true, if_neg, if_neg ht]
    rintro ⟨r, rfl⟩
    exact ht rfl
  | delimiter x' d t' hx' hd hs =>
    rw [hs, splitScheme_delimiter hx' hd] at hsplit
    cases hsplit
  | path pre v _ _ _ _ _ hno _ =>
    rw [hno] at hsplit
    cases hsplit

theorem parseUrl_slashes (hs : (chSlash :: chSlash :: t).length < 2 ^ 32) :
    ∃ n, parseUrl (chSlash :: chSlash :: t) f =
      parseTail (parseAuthority ⟨[], chSlash, n, t, f⟩ emptyUrl).1
        (parseAuthority ⟨[], chSlash, n, t, f⟩ emptyUrl).2 := by
  obtain ⟨r, hends, hparse⟩ := parseUrl_ends f hs
  refine ⟨(chSlash :: chSlash :: t).length, ?_⟩
  rw [hparse]
  cases hends with
  | authority t' hs =>
    cases hs
    exact if_pos rfl
  | schemeAuthority x' t' hx' hs | schemePath x' t' hx' hs ht | opaquePart x' t' hx' hs ht =>
    exact absurd ⟨t, hs⟩ (not_slashes hx')
  | delimiter x' d t' hx' hd hs =>
    rcases hx' with rfl | hx'
    · obtain ⟨rfl, -⟩ := List.cons.inj hs
      exact absurd hd (by decide)
    · exact absurd ⟨t, hs⟩ (not_slashes hx')
  | path pre v _ _ _ _ _ _ hslash => exact absurd ⟨t, rfl⟩ hslash

/-! ## Path, query and fragment -/

def encodeRest (h : Url) : Bytes := encodeQuery h ++ encodeFragment h

variable {d : UInt8}

theorem encodeRest_head (hd : (encodeRest h).head? = some d) :
    d = chQuestion ∧ h.params ≠ none ∨ d = chHash ∧ h.params = none := by
  unfold encodeRest encodeQuery encodeFragment at hd
  cases hp : h.params with
  | some ps =>
    rw [hp] at hd
    cases hd
    exact .inl ⟨rfl, some_ne_none ps⟩
  | none =>
    cases hf : h.fragment with
    | some g =>
      rw [hp, hf] at hd
      cases hd
      exact .inr ⟨rfl, rfl⟩
    | none =>
      rw [hp, hf] at hd
      cases hd

theorem encodeRest_delimiter (hd : (encodeRest h).head? = some d) :
    d = chHash ∨ d = chQuestion := by
  rcases encodeRest_head hd with ⟨rfl, -⟩ | ⟨rfl, -⟩
  · exact .inr rfl
  · exact .inl rfl

theorem encodeRest_eq_nil (hr : encodeRest h = []) : h.params = none ∧ h.fragment = none := by
  obtain ⟨hquery, hfragment⟩ := List.append_eq_nil_iff.mp hr
  constructor
  · cases hp : h.params with
    | none => rfl
    | some ps => rw [encodeQuery, hp] at hquery; cases hquery
  · cases hf : h.fragment with
    | none => rfl
    | some g => rw [encodeFragment, hf] at hfragment; cases hfragment

variable {p r host : Bytes}

theorem escapePath_class (hd : d ∈ escapeUrlView kEscapePath p) : d ≠ chHash ∧ d ≠ chQuestion := by
  have hclass : ∀ d : UInt8, (kEscapePath d = false ∨ d = chPercent ∨ isHex d = true) →
      d ≠ chHash ∧ d ≠ chQuestion := by decide +kernel
  exact hclass d ((mem_escapeUrlView hd).imp_left And.left)

theorem decode_escapePath (p : Bytes) : decode false (escapeUrlView kEscapePath p) = p := by
  have hp := decode_escapeUrlView (T := kEscapePath) (by decide) p []
  rwa [append_nil, decode, append_nil] at hp

theorem parseTail_encode (hshape : QueryShape h) (hl1 : v.f.latin1 = false)
    (hc : v.c ≠ chHash ∧ v.c ≠ chQuestion) (hparams : h0.params = none)
    (hfragment : h0.fragment = none) (hy : ∀ d ∈ y, d ≠ chHash ∧ d ≠ chQuestion)
    (hnoparams : v.f.isOpaque = true → h.params = none) (hr : v.rest = y ++ encodeRest h) :
    parseTail v h0 =
      { h0 with path := some (v.buf ++ decode false y), params := h.params, fragment := h.fragment } := by
  have hbytes : ∀ d ∈ y, pathByte v.f.isOpaque d = true := by
    intro d hd
    simp [pathByte, hy d hd]
  rw [parseTail_path hc.1 hc.2]
  cases hrest : encodeRest h with
  | nil =>
    obtain ⟨hp, hf⟩ := encodeRest_eq_nil hrest
    rw [hrest, append_nil] at hr
    have hlast : lastRead v.c y ≠ chHash ∧ lastRead v.c y ≠ chQuestion := by
      by_cases hne : y = []
      · rw [hne]; exact hc
      · exact hy _ (lastRead_mem hne)
    rw [parsePath_end (hr ▸ hbytes), hr, parseRest_plain hlast.2 hlast.1, hl1, hp, hf]
    cases h0
    simp_all
  | cons d t =>
    have hd : pathByte v.f.isOpaque d = false := by
      rcases encodeRest_head (by rw [hrest]; rfl) with ⟨rfl, hne⟩ | ⟨rfl, -⟩
      · cases ho : v.f.isOpaque with
        | false => rfl
        | true => exact absurd (hnoparams ho) hne
      · rfl
    rw [hrest] at hr
    rw [parsePath_stop hbytes hd hr, hl1]
    exact parseRest_encode (u := v.moved [] d t) hshape hl1 rfl
      (by exact hparams) (by exact hfragment) hrest.symm

theorem append_delimiter {a b : Bytes} (hx : ∀ d ∈ x, d ≠ chHash ∧ d ≠ chQuestion)
    (hb : ∀ d, b.head? = some d → d = chHash ∨ d = chQuestion) (h : x ++ r = a ++ b) :
    ∃ y, a = x ++ y ∧ r = y ++ b := by
  rcases List.append_eq_append_iff.mp h with ⟨y, rfl, rfl⟩ | ⟨y, rfl, rfl⟩
  · exact ⟨y, rfl, rfl⟩
  · cases y with
    | nil => exact ⟨[], by simp, by simp⟩
    | cons d y =>
      have hd := hx d (by simp)
      exact absurd (hb d rfl) (not_or.mpr hd)

/-! ## The encoding -/

theorem encodeScheme_some (hx : IsScheme x) (hh : h.scheme = some x) :
    encodeScheme h = x ++ [chColon] := by
  obtain ⟨c, cs, rfl, -⟩ := hx
  rw [encodeScheme, hh]

theorem encodeScheme_none (hh : h.scheme = none) : encodeScheme h = [] := by
  rw [encodeScheme, hh]

theorem encodeUrl_noHost (hh : h.host = none) :
    encodeUrl h = encodeScheme h ++ (escapeUrlView kEscapePath (h.path.getD []) ++ encodeRest h) := by
  unfold encodeUrl encodeAuthority encodeRest
  rw [hh]
  simp only [append_assoc, nil_append]

theorem encodeUrl_host (hn : Normal h) (hh : h.host = some host) :
    encodeUrl h = encodeScheme h ++ chSlash :: chSlash ::
      (authorityText h host ++ (escapeUrlView kEscapePath (h.path.getD []) ++ encodeRest h)) := by
  have hauth : encodeAuthority h = chSlash :: chSlash :: authorityText h host := by
    unfold encodeAuthority authorityText
    rw [hh]
    rcases hn.path (by rw [hh]; exact some_ne_none host) with ⟨hp, -⟩ | ⟨hp, -⟩ | ⟨p, hp⟩
    · rw [hp]; simp
    · rw [hp]; simp
    · rw [hp]; simp
  unfold encodeUrl encodeRest
  rw [hauth]
  simp only [append_assoc, cons_append]

theorem barrier_encodeRest : Barrier (encodeRest h) := by
  intro d hd
  rcases encodeRest_delimiter hd with rfl | rfl <;> decide

theorem escapePath_sameStart (hr : Barrier r) (p : Bytes) :
    SameStart p (escapeUrlView kEscapePath p ++ r) := by
  have hclass : ∀ c : UInt8, kEscapePath c = true →
      isSchemeByte c = false ∧ c ≠ chColon ∧ c ≠ chSlash := by decide +kernel
  induction p with
  | nil => exact .barrier barrier_nil hr
  | cons c p ih =>
    rw [escapeUrlView_cons, escapeByte, append_assoc]
    cases hc : kEscapePath c with
    | false => exact .cons c ih
    | true => exact .barrier (barrier_cons (hclass c hc)) (barrier_cons (by decide))

/-! ## URLs that are read back -/

theorem escapePath_slash (p : Bytes) :
    escapeUrlView kEscapePath (chSlash :: p) = chSlash :: escapeUrlView kEscapePath p := by
  rw [escapeUrlView_cons]
  rfl

theorem Normal.stop (hn : Normal h) (hh : h.host ≠ none)
    (hd : (escapeUrlView kEscapePath (h.path.getD []) ++ encodeRest h).head? = some d) :
    stopByte d = true := by
  have hrest : (encodeRest h).head? = some d → stopByte d = true := by
    intro hd
    rcases encodeRest_delimiter hd with rfl | rfl <;> decide
  rcases hn.path hh with ⟨hp, -⟩ | ⟨hp, -⟩ | ⟨p, hp⟩
  · rw [hp] at hd
    exact hrest hd
  · rw [hp] at hd
    exact hrest hd
  · rw [hp, getD_some, escapePath_slash] at hd
    cases hd
    decide

theorem parseAuthority_readsBack (hn : Normal h) (hh : h.host = some host)
    (hf : u.f = noFlags) (hbuf : u.buf = []) (hcolon : u.c = chColon ∨ u.c = chSlash)
    (hbare : u.c = chSlash → authorityText h host = [] → h.path ≠ some [])
    (hr : u.rest = authorityText h host ++ (escapeUrlView kEscapePath (h.path.getD []) ++ encodeRest h))
    (h0 : Url) (h0eq : h0 = ⟨h.scheme, none, none, none, none, none, none, none⟩) :
    parseTail (parseAuthority u h0).1 (parseAuthority u h0).2 = h := by
  have hl1 : u.f.latin1 = false := by rw [hf]; rfl
  have hnoparams : u.f.isOpaque = true → h.params = none := by
    intro ho
    rw [hf] at ho
    cases ho
  have hsome : h.host ≠ none := by rw [hh]; exact some_ne_none host
  obtain ⟨c, hlast, hhead, hparse⟩ := parseAuthority_encode (h := h) hl1 hbuf hn.pass
    (show h0.user = none by rw [h0eq]) (show h0.pass = none by rw [h0eq])
    (show h0.port = none by rw [h0eq]) (fun d hd => hn.stop hsome hd) hr
  rw [hparse]
  subst h0eq
  set g : Url := ⟨h.scheme, h.user, h.pass, some host, h.port, none, none, none⟩
  rcases hn.path hsome with ⟨hp, hrest⟩ | ⟨hp, hparams, hfragment⟩ | ⟨p, hp⟩
  · -- no path: the query or the fragment stands behind the authority
    rw [hp] at hhead ⊢
    cases hrest' : encodeRest h with
    | nil =>
      obtain ⟨hparams, hfragment⟩ := encodeRest_eq_nil hrest'
      exact absurd hrest (by simp [hparams, hfragment])
    | cons d t =>
      have hcd : c = d := hhead d (by rw [hrest']; rfl)
      have hdelim := encodeRest_delimiter (h := h) (d := d) (by rw [hrest']; rfl)
      rw [if_neg (by rw [hcd]; rcases hdelim with rfl | rfl <;> decide), hcd]
      rw [parseTail_noPath hdelim]
      have hread : parseRest (u.moved [] d t) g =
          ⟨h.scheme, h.user, h.pass, some host, h.port, none, h.params, h.fragment⟩ :=
        parseRest_encode hn.query hl1 rfl rfl rfl hrest'.symm
      refine hread.trans ?_
      rw [← hh, ← hp]
  · -- an empty path: nothing follows, and the last character is one of the authority
    have hnil : encodeRest h = [] := by
      rw [encodeRest, encodeQuery, encodeFragment, hparams, hfragment]
      rfl
    have hc : stopByte c = false := by
      rcases hlast (by rw [hp, hnil]; rfl) with ⟨htext, rfl⟩ | ⟨-, hc⟩
      · rcases hcolon with h | h
        · rw [h]; decide
        · exact absurd hp (hbare h htext)
      · exact hc
    rw [← Bool.not_eq_true, stopByte_iff, not_or, not_or] at hc
    have hread : parseTail (u.moved [] c []) g =
        ⟨h.scheme, h.user, h.pass, some host, h.port, some [], h.params, h.fragment⟩ :=
      parseTail_encode (y := []) hn.query hl1 hc.2 rfl rfl (fun d hd => nomatch hd) hnoparams hnil.symm
    rw [if_neg hc.1, hp, hnil]
    refine hread.trans ?_
    rw [← hh, ← hp]
  · rw [hp, getD_some, escapePath_slash] at hhead ⊢
    have hc : c = chSlash := hhead chSlash rfl
    have hread : parseTail (u.moved [chSlash] chSlash (escapeUrlView kEscapePath p ++ encodeRest h)) g =
        ⟨h.scheme, h.user, h.pass, some host, h.port,
          some ([chSlash] ++ decode false (escapeUrlView kEscapePath p)), h.params, h.fragment⟩ :=
      parseTail_encode hn.query hl1 (show chSlash ≠ chHash ∧ chSlash ≠ chQuestion by decide) rfl rfl
        (fun d hd => escapePath_class hd) hnoparams rfl
    rw [if_pos hc, hc]
    refine hread.trans ?_
    rw [decode_escapePath, singleton_append, ← hh, ← hp]

theorem authorityText_eq_nil (ht : authorityText h host = []) :
    h.user = none ∧ host = [] ∧ h.port = none := by
  obtain ⟨h12, hport⟩ := List.append_eq_nil_iff.mp ht
  obtain ⟨huser, hhost⟩ := List.append_eq_nil_iff.mp h12
  refine ⟨?_, ?_, ?_⟩
  · cases hu : h.user with
    | none => rfl
    | some user => simp [encodeUser, hu] at huser
  · by_contra hne
    unfold encodeHost at hhost
    split_ifs at hhost
    · simp at hhost
    · exact escapeUrlView_ne_nil hne hhost
  · cases hp : h.port with
    | none => rfl
    | some port => simp [encodePort, hp] at hport

section

variable (hn : Normal h) (hsize : (encodeUrl h).length < 2 ^ 32)
include hn hsize

theorem schemePath_readsBack (hh : h.host = none) (hp : h.path = some p)
    (hs : h.scheme = some x) (hslashes : ¬SlashesPath h)
    (hrootless : ¬RootlessQuery h) : ReadsBack h := by
  obtain ⟨huser, hpass, hport, -⟩ := hn.noHost hh
  have hx := hn.scheme x hs
  have hstart := escapePath_sameStart (barrier_encodeRest (h := h)) p
  set text := escapeUrlView kEscapePath p ++ encodeRest h
  have hsplit : encodeUrl h = x ++ chColon :: text := by
    rw [encodeUrl_noHost hh, encodeScheme_some hx hs, hp, getD_some, append_assoc]
    rfl
  rw [hsplit] at hsize
  obtain ⟨n, hparse⟩ := parseUrl_scheme (f := noFlags) hx hsize
  have hno : ¬[chSlash, chSlash] <+: text := fun hpre =>
    hslashes ⟨hh, by rw [hp]; exact hstart.symm.slashes hpre⟩
  rw [ReadsBack, hsplit, hparse, if_neg hno]
  have hread : parseTail ⟨[], chColon, n, text,
      if text.head? = some chSlash then noFlags
      else { noFlags with isOpaque := true }⟩ (withScheme x) = _ := parseTail_encode
    (y := escapeUrlView kEscapePath p) hn.query (by dsimp only; split_ifs <;> rfl) (show chColon ≠ chHash ∧ chColon ≠ chQuestion by decide)
    rfl rfl (fun d hd => escapePath_class hd) ?_ rfl
  · refine hread.trans ?_
    rw [decode_escapePath, nil_append, ← hp]
    cases h
    simp_all [withScheme, emptyUrl]
  · intro ho
    have hhead : (h.path.getD []).head? ≠ some chSlash := by
      rw [hp]
      intro hhead
      rw [if_pos (hstart.head hhead)] at ho
      cases ho
    have hsome : h.scheme ≠ none := by rw [hs]; exact some_ne_none x
    exact (hn.rootless hsome hh hhead).resolve_right fun hnil => hrootless ⟨hsome, hh, hhead, hnil⟩

theorem barePath_readsBack (hh : h.host = none) (hp : h.path = some p)
    (hs : h.scheme = none) (hslashes : ¬SlashesPath h)
    (hscheme : ¬SchemePath h) : ReadsBack h := by
  obtain ⟨huser, hpass, hport, -⟩ := hn.noHost hh
  have hstart := escapePath_sameStart (barrier_encodeRest (h := h)) p
  have hsplit : encodeUrl h = escapeUrlView kEscapePath p ++ encodeRest h := by
    rw [encodeUrl_noHost hh, encodeScheme_none hs, hp, getD_some, nil_append]
  have hnoscheme : ∀ x t, IsScheme x → encodeUrl h ≠ x ++ chColon :: t := by
    intro x t hx he
    have hsome := splitScheme_scheme hx t
    rw [← he, hsplit] at hsome
    obtain ⟨r, hr⟩ := hstart.symm.scheme hsome
    exact hscheme ⟨hs, hh, by rw [hp, getD_some, hr]; exact some_ne_none _⟩
  obtain ⟨r, hends, hparse⟩ := parseUrl_ends noFlags hsize
  rw [ReadsBack, hparse]
  cases hends with
  | authority t he =>
    rw [hsplit] at he
    exact absurd ⟨hh, by rw [hp]; exact hstart.symm.slashes ⟨t, he.symm⟩⟩ hslashes
  | schemeAuthority x t hx he | schemePath x t hx he ht | opaquePart x t hx he ht =>
    exact absurd he (hnoscheme _ _ hx)
  | delimiter x d t hx hd he =>
    have hbytes := schemeBytes hx
    rw [hsplit] at he
    obtain ⟨y, hy, hr⟩ := append_delimiter (fun e he => schemeByte_class e (hbytes e he))
      (fun e he => encodeRest_delimiter he) he.symm
    cases y with
    | cons e y =>
      obtain ⟨rfl, -⟩ := List.cons.inj hr
      have hclass := escapePath_class (p := p) (d := d) (by rw [hy]; simp)
      exact absurd hd (not_or.mpr hclass)
    | nil =>
      have hpx : p = x := by
        have hdec := decode_run hbytes false []
        rw [← decode_escapePath p, hy, hdec, decode, append_nil]
      have hread : parseRest ⟨[], d, (encodeUrl h).length, t, noFlags⟩ (withPath x) = _ :=
        parseRest_encode hn.query rfl rfl rfl rfl hr
      rw [if_neg Bool.false_ne_true, parseTail_noPath hd]
      refine hread.trans ?_
      cases h
      simp_all [withPath, emptyUrl]
  | path pre v he hf hdecode hc hpre _ _ =>
    rw [hsplit] at he
    obtain ⟨y, hy, hr⟩ := append_delimiter hpre (fun d hd => encodeRest_delimiter hd) he.symm
    have hmem : ∀ d ∈ y, d ≠ chHash ∧ d ≠ chQuestion := fun d hd =>
      escapePath_class (p := p) (by rw [hy]; exact mem_append_right _ hd)
    have hread : parseTail v emptyUrl = _ := parseTail_encode hn.query (by rw [hf]; rfl) hc rfl rfl hmem
      (fun ho => by rw [hf] at ho; cases ho) hr
    have hbuf := hdecode y (encodeRest h) hr
    rw [if_neg Bool.false_ne_true]
    refine hread.trans ?_
    rw [show v.buf ++ decode false y = decode false (pre ++ y) from hbuf, ← hy, decode_escapePath, ← hp]
    cases h
    simp_all [emptyUrl]

theorem host_readsBack (hh : h.host = some host) (hbare : ¬BareAuthority h) : ReadsBack h := by
  have hsplit := encodeUrl_host hn hh
  rw [ReadsBack]
  cases hs : h.scheme with
  | some x =>
    have hx := hn.scheme x hs
    rw [encodeScheme_some hx hs, append_assoc, singleton_append] at hsplit
    rw [hsplit] at hsize ⊢
    obtain ⟨n, hparse⟩ := parseUrl_scheme (f := noFlags) hx hsize
    rw [hparse, if_pos ⟨_, rfl⟩]
    exact parseAuthority_readsBack hn hh rfl rfl (.inl rfl)
      (fun h => absurd h (show chColon ≠ chSlash by decide)) rfl (withScheme x) (by rw [hs]; rfl)
  | none =>
    rw [encodeScheme_none hs, nil_append] at hsplit
    rw [hsplit] at hsize ⊢
    obtain ⟨n, hparse⟩ := parseUrl_slashes (f := noFlags) hsize
    rw [hparse]
    refine parseAuthority_readsBack hn hh rfl rfl (.inr rfl) (fun _ htext hpath => ?_) rfl emptyUrl
      (by rw [hs]; rfl)
    obtain ⟨huser, rfl, hport⟩ := authorityText_eq_nil htext
    exact hbare ⟨hs, hh, huser, hport, hpath⟩

/-! ## URLs that are not -/

omit hn hsize in
theorem parseTail_frame (hparams : h.params = none) (hfragment : h.fragment = none) :
    (parseTail u h).scheme = h.scheme ∧ (parseTail u h).host = h.host := by
  by_cases hc : u.c = chHash ∨ u.c = chQuestion
  · rw [parseTail_noPath hc]
    obtain ⟨_, _, hparse, -⟩ := parseRest_shape (u := u) hparams hfragment
    rw [hparse]
    exact ⟨rfl, rfl⟩
  · rw [parseTail_path (fun h => hc (.inl h)) (fun h => hc (.inr h))]
    obtain ⟨_, _, hparse, -⟩ := parseRest_shape (u := (parsePath u h).1) (h := (parsePath u h).2)
      hparams hfragment
    rw [hparse]
    exact ⟨rfl, rfl⟩

omit hn hsize in
theorem parseAuthority_frame (hbuf : u.buf = []) (huser : h.user = none) (hpass : h.pass = none)
    (hport : h.port = none) (hparams : h.params = none) (hfragment : h.fragment = none) :
    (parseTail (parseAuthority u h).1 (parseAuthority u h).2).scheme = h.scheme ∧
      (parseTail (parseAuthority u h).1 (parseAuthority u h).2).host ≠ none := by
  obtain ⟨v, user, pass, host, port, hparse, -⟩ := parseAuthority_shape hbuf huser hpass hport
  obtain ⟨hscheme, hhost⟩ := parseTail_frame (u := v)
    (h := { h with user := user, pass := pass, host := some host, port := port }) hparams hfragment
  rw [hparse, hscheme, hhost]
  exact ⟨rfl, some_ne_none host⟩

omit hn hsize in
theorem parseUrl_scheme_eq (hx : IsScheme x) (hs : (x ++ chColon :: t).length < 2 ^ 32) :
    (parseUrl (x ++ chColon :: t) f).scheme = some x := by
  obtain ⟨n, hparse⟩ := parseUrl_scheme (f := f) hx hs
  rw [hparse]
  split <;> rename_i ht
  · exact (parseAuthority_frame rfl rfl rfl rfl rfl rfl).1
  · exact (parseTail_frame rfl rfl).1

theorem SlashesPath.not_readsBack (hsl : SlashesPath h) : ¬ReadsBack h := by
  obtain ⟨hh, hpre⟩ := hsl
  intro hback
  obtain ⟨r, hr⟩ := (escapePath_sameStart (barrier_encodeRest (h := h)) _).slashes hpre
  have hhost : (parseUrl (encodeUrl h) noFlags).host ≠ none := by
    rw [encodeUrl_noHost hh, ← hr] at hsize ⊢
    cases hs : h.scheme with
    | some x =>
      have hx := hn.scheme x hs
      rw [encodeScheme_some hx hs, append_assoc, singleton_append] at hsize ⊢
      obtain ⟨n, hparse⟩ := parseUrl_scheme (f := noFlags) hx hsize
      rw [hparse, if_pos ⟨_, rfl⟩]
      exact (parseAuthority_frame rfl rfl rfl rfl rfl rfl).2
    | none =>
      rw [encodeScheme_none hs] at hsize ⊢
      obtain ⟨n, hparse⟩ := parseUrl_slashes (f := noFlags) (t := r) hsize
      exact hparse ▸ (parseAuthority_frame rfl rfl rfl rfl rfl rfl).2
  rw [hback] at hhost
  exact hhost hh

omit hn in
theorem SchemePath.not_readsBack (hsp : SchemePath h) : ¬ReadsBack h := by
  obtain ⟨hs, hh, hpath⟩ := hsp
  intro hback
  obtain ⟨⟨x, t⟩, hsome⟩ := Option.ne_none_iff_exists'.mp hpath
  obtain ⟨r, hr⟩ := (escapePath_sameStart (barrier_encodeRest (h := h)) _).scheme hsome
  obtain ⟨hx, hsplit⟩ := splitScheme_eq_some.mp hr
  have henc : encodeUrl h = x ++ chColon :: r := by
    rw [encodeUrl_noHost hh, encodeScheme_none hs, nil_append, hsplit]
  have hscheme := parseUrl_scheme_eq (f := noFlags) hx (henc ▸ hsize)
  rw [← henc, show parseUrl (encodeUrl h) noFlags = h from hback, hs] at hscheme
  cases hscheme

theorem RootlessQuery.not_readsBack (hrq : RootlessQuery h) : ¬ReadsBack h := by
  obtain ⟨hs, hh, hhead, hparams⟩ := hrq
  intro hback
  obtain ⟨x, hs⟩ := Option.ne_none_iff_exists'.mp hs
  have hx := hn.scheme x hs
  have hrest : encodeRest h = [chQuestion] := by
    rw [encodeRest, encodeQuery, encodeFragment, hparams, hn.query.nil hparams]
    rfl
  set text := escapeUrlView kEscapePath (h.path.getD []) ++ [chQuestion] with htext
  have henc : encodeUrl h = x ++ chColon :: text := by
    rw [htext, encodeUrl_noHost hh, encodeScheme_some hx hs, hrest, append_assoc]
    rfl
  have hstart := escapePath_sameStart (barrier_encodeRest (h := h)) (h.path.getD [])
  rw [hrest] at hstart
  have hnohead : text.head? ≠ some chSlash :=
    fun he => hhead (hstart.symm.head he)
  have hnoslash : ¬[chSlash, chSlash] <+: text := by
    rintro ⟨r, hr⟩
    exact hnohead (by rw [← hr]; rfl)
  obtain ⟨n, hparse⟩ := parseUrl_scheme (f := noFlags) hx (henc ▸ hsize)
  rw [if_neg hnoslash, if_neg hnohead, ← henc,
    parseTail_path (show chColon ≠ chHash by decide) (show chColon ≠ chQuestion by decide),
    parsePath_end] at hparse
  · -- the question mark becomes the last character of the path
    obtain ⟨params, fragment, hrest', -⟩ := parseRest_shape
      (u := ⟨[], lastRead chColon text, n, [], { noFlags with isOpaque := true }⟩)
      (h := { withScheme x with path := some (decode false text) }) rfl rfl
    have hpath := congrArg Url.path (hparse.trans hrest')
    rw [show parseUrl (encodeUrl h) noFlags = h from hback, htext, decode_escapeUrlView (by decide)] at hpath
    have hlen : (h.path.getD []).length = (h.path.getD [] ++ decode false [chQuestion]).length := by
      conv_lhs => rw [hpath]
      rfl
    rw [length_append, show (decode false [chQuestion]).length = 1 from rfl] at hlen
    omega
  · intro d hd
    have hd' : d ≠ chHash := by
      rcases List.mem_append.mp hd with hd | hd
      · exact (escapePath_class hd).1
      · rw [List.mem_singleton.mp hd]; decide
    simp [pathByte, hd']

omit hsize in
theorem BareAuthority.not_readsBack (hb : BareAuthority h) : ¬ReadsBack h := by
  obtain ⟨hs, hh, huser, hport, hpath⟩ := hb
  have hpass : h.pass = none := by
    by_contra hne
    exact hn.pass hne huser
  obtain ⟨hparams, hfragment⟩ : h.params = none ∧ h.fragment = none := by
    rcases hn.path (by rw [hh]; exact some_ne_none _) with ⟨hp, -⟩ | ⟨-, h⟩ | ⟨p, hp⟩
    · rw [hpath] at hp; cases hp
    · exact h
    · rw [hpath] at hp; cases hp
  have heq : h = ⟨none, none, none, some [], none, some [], none, none⟩ := by
    cases h
    simp_all
  rw [heq]
  unfold ReadsBack
  decide

theorem readsBack_iff :
    ReadsBack h ↔ ¬SlashesPath h ∧ ¬SchemePath h ∧ ¬RootlessQuery h ∧ ¬BareAuthority h := by
  constructor
  · intro hback
    exact ⟨fun h => h.not_readsBack hn hsize hback, fun h => h.not_readsBack hsize hback,
      fun h => h.not_readsBack hn hsize hback, fun h => h.not_readsBack hn hback⟩
  · rintro ⟨h1, h2, h3, h4⟩
    cases hh : h.host with
    | some host => exact host_readsBack hn hsize hh h4
    | none =>
      obtain ⟨p, hp⟩ := Option.ne_none_iff_exists'.mp (hn.noHost hh).2.2.2
      cases hs : h.scheme with
      | some x => exact schemePath_readsBack hn hsize hh hp hs h1 h3
      | none => exact barePath_readsBack hn hsize hh hp hs h1 h2

end

end CosmoRuby.UrlCodec