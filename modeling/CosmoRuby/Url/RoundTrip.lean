import CosmoRuby.Url.Size

/-!
# Round trips

`EncodeUrl` after `ParseUrl`, and `ParseUrl` again: which texts come back as the same URL.
-/

namespace CosmoRuby.UrlCodec

open Lib Http List Option

variable {x s t y rest : Bytes} {c : UInt8} {f : UrlFlags} {n : Nat} {u v : UrlParser} {h : Url}

/-! ## Texts -/

def afterScheme (s : Bytes) : Bytes :=
  match splitScheme s with
  | some (_, t) => t
  | none => s

def HidesAuthority (s : Bytes) : Prop :=
  [chSlash, chSlash] <+: unescape (afterScheme s) ∧ ¬[chSlash, chSlash] <+: afterScheme s

def HidesScheme (s : Bytes) : Prop := splitScheme s = none ∧ splitScheme (unescape s) ≠ none

def EndsQuestion (s : Bytes) : Prop :=
  splitScheme s ≠ none ∧ (unescape (afterScheme s)).head? ≠ some chSlash ∧
    (afterScheme s).getLast? = some chQuestion ∧ chHash ∉ afterScheme s

/-- An authority of nothing but square brackets, which is empty, as in `//[]` -/
def OnlyBrackets (s : Bytes) : Prop :=
  [chSlash, chSlash] <+: s ∧ s.drop 2 ≠ [] ∧ (s.drop 2).all isBracket = true

def Unambiguous (s : Bytes) : Prop :=
  ¬HidesAuthority s ∧ ¬HidesScheme s ∧ ¬EndsQuestion s ∧ ¬OnlyBrackets s

instance (s : Bytes) : Decidable (HidesAuthority s) := inferInstanceAs (Decidable (_ ∧ _))
instance (s : Bytes) : Decidable (HidesScheme s) := inferInstanceAs (Decidable (_ ∧ _))
instance (s : Bytes) : Decidable (EndsQuestion s) := inferInstanceAs (Decidable (_ ∧ _))
instance (s : Bytes) : Decidable (OnlyBrackets s) := inferInstanceAs (Decidable (_ ∧ _))
instance (s : Bytes) : Decidable (Unambiguous s) := inferInstanceAs (Decidable (_ ∧ _))

def RoundTrips (s : Bytes) (f : UrlFlags) : Prop :=
  parseUrl (encodeUrl (parseUrl s f)) noFlags = parseUrl s f

instance (s : Bytes) (f : UrlFlags) : Decidable (RoundTrips s f) := inferInstanceAs (Decidable (_ = _))

theorem onlyBrackets_iff : OnlyBrackets (chSlash :: chSlash :: t) ↔ t ≠ [] ∧ t.all isBracket = true :=
  ⟨fun h => h.2, fun h => ⟨⟨t, rfl⟩, h⟩⟩

/-! ## Decoding keeps the start of a text -/

theorem closed_of_delimiter (ht : ∀ d, t.head? = some d → d = chHash ∨ d = chQuestion) : Closed t := by
  intro d hd
  rcases ht d hd with rfl | rfl <;> decide

theorem decode_sameStart (l1 : Bool) (ht : ∀ d, t.head? = some d → d = chHash ∨ d = chQuestion)
    (s : Bytes) : SameStart (decode l1 s) (unescape (s ++ t)) := by
  have hhigh : ∀ c : UInt8, 0x80 ≤ c → isSchemeByte c = false ∧ c ≠ chColon ∧ c ≠ chSlash := by
    decide +kernel
  have hlatin : ∀ c : UInt8, isSchemeByte ((0xC0 : UInt8) ||| (c >>> 6)) = false ∧
      (0xC0 : UInt8) ||| (c >>> 6) ≠ chColon ∧ (0xC0 : UInt8) ||| (c >>> 6) ≠ chSlash := by
    decide +kernel
  have hclosed := closed_of_delimiter ht
  unfold unescape
  induction s using text_induction with
  | nil =>
    refine .barrier barrier_nil ?_
    cases t with
    | nil => exact barrier_nil
    | cons d t =>
      have hd := ht d rfl
      have hplain : NotEscape d t := fun _ _ _ h => by
        rcases hd with rfl | rfl <;> exact absurd h (by decide)
      rw [nil_append, decode_plain hplain]
      have hlow : ¬(0x80 ≤ d ∧ false = true) := fun h => Bool.false_ne_true h.2
      rw [plainOut, if_neg hlow]
      exact barrier_cons (by rcases hd with rfl | rfl <;> decide)
  | plain c rest hesc ih =>
    rw [cons_append, decode_plain hesc, decode_plain (hesc.append hclosed)]
    have hfalse : plainOut false c = [c] := if_neg fun h => Bool.false_ne_true h.2
    rw [hfalse]
    unfold plainOut
    split_ifs with hc
    · exact .barrier (barrier_cons (hlatin c)) (barrier_cons (hhigh c hc.1))
    · exact .cons c ih
  | escape a b rest ha hb ih =>
    rw [cons_append, cons_append, cons_append, decode_escape ha hb, decode_escape ha hb]
    exact .cons _ ih

theorem lastRead_question {c0 : UInt8} (hs : s ≠ []) :
    lastRead c0 s = chQuestion ↔ s.getLast? = some chQuestion := by
  induction s using text_induction generalizing c0 with
  | nil => exact absurd rfl hs
  | plain c rest hesc ih =>
    rw [lastRead_plain hesc]
    cases rest with
    | nil => simp [lastRead]
    | cons d rest => rw [ih (cons_ne_nil d rest), List.getLast?_cons_cons]
  | escape a b rest ha hb ih =>
    rw [lastRead_escape ha hb, List.getLast?_cons_cons, List.getLast?_cons_cons]
    cases rest with
    | nil =>
      have hne : b ≠ chQuestion := by
        rintro rfl
        exact absurd hb (by decide)
      simp only [lastRead, List.getLast?_singleton, Option.some.injEq, hne, iff_false]
      decide
    | cons d rest => rw [ih (cons_ne_nil d rest), List.getLast?_cons_cons]

/-! ## The shape of what is parsed -/

theorem parseTail_shape (hc : v.c ≠ chHash ∧ v.c ≠ chQuestion) (hparams : h.params = none)
    (hfragment : h.fragment = none) :
    ∃ p t params fragment, v.rest = p ++ t ∧ (∀ d, t.head? = some d → d = chHash ∨ d = chQuestion) ∧
      parseTail v h = { h with
        path := some (v.buf ++ decode v.f.latin1 p), params := params, fragment := fragment } ∧
      QueryShape (parseTail v h) ∧
      (v.f.isOpaque = true → (params = none ∨ params = some []) ∧
        (params = some [] ↔ chHash ∉ v.rest ∧ lastRead v.c v.rest = chQuestion)) := by
  have hspan := takeWhile_append_dropWhile (p := pathByte v.f.isOpaque) (l := v.rest)
  have hbytes : ∀ d ∈ v.rest.takeWhile (pathByte v.f.isOpaque), pathByte v.f.isOpaque d = true :=
    fun d hd => mem_takeWhile_imp hd
  generalize v.rest.takeWhile (pathByte v.f.isOpaque) = p at hspan hbytes
  rw [parseTail_path hc.1 hc.2]
  cases hdrop : v.rest.dropWhile (pathByte v.f.isOpaque) with
  | nil =>
    rw [hdrop, append_nil] at hspan
    rw [parsePath_end (hspan ▸ hbytes)]
    set w := v.moved [] (lastRead v.c v.rest) []
    set g := { h with path := some (v.buf ++ decode v.f.latin1 v.rest) }
    obtain ⟨params, fragment, hparse, hshape, -⟩ := parseRest_shape (u := w) (h := g) hparams hfragment
    refine ⟨v.rest, [], params, fragment, (append_nil _).symm, ?_, hparse, hshape, fun _ => ?_⟩
    · intro d hd
      cases hd
    · have hhash : ∀ d ∈ v.rest, d ≠ chHash := by
        rintro d hd rfl
        exact absurd (hbytes chHash (hspan ▸ hd)) (by simp [pathByte])
      have hparams' := congrArg Url.params hparse
      by_cases hq : lastRead v.c v.rest = chQuestion
      · have hread := parseRest_question (u := w) (h := g) rfl hq rfl hparams
        rw [← show some [] = params from (congrArg Url.params hread).symm.trans hparams']
        exact ⟨.inr rfl, fun _ => ⟨fun hmem => hhash _ hmem rfl, hq⟩, fun _ => rfl⟩
      · have hlast : lastRead v.c v.rest ≠ chHash := by
          by_cases hne : v.rest = []
          · rw [hne]; exact hc.1
          · exact hhash _ (lastRead_mem hne)
        rw [parseRest_plain hq hlast] at hparams'
        rw [← show h.params = params from hparams', hparams]
        exact ⟨.inl rfl, fun h => absurd h (some_ne_none _).symm, fun h => absurd h.2 hq⟩
  | cons d t =>
    rw [hdrop] at hspan
    have hd : pathByte v.f.isOpaque d = false := by
      have hhead := List.head?_dropWhile_not (pathByte v.f.isOpaque) v.rest
      rw [hdrop] at hhead
      simpa using hhead
    rw [parsePath_stop hbytes hd hspan.symm]
    obtain ⟨params, fragment, hparse, hshape, hnone⟩ := parseRest_shape
      (u := v.moved [] d t)
      (h := { h with path := some (v.buf ++ decode v.f.latin1 p) }) hparams hfragment
    refine ⟨p, d :: t, params, fragment, hspan.symm, ?_, hparse, hshape, fun ho => ?_⟩
    · rintro e ⟨⟩
      by_contra hne
      rw [not_or] at hne
      simp [pathByte, hne.1, hne.2] at hd
    · have hhash : d = chHash := by simpa [pathByte, ho] using hd
      have hp : params = none := hnone.mpr (show d ≠ chQuestion by rw [hhash]; decide)
      have hmem : chHash ∈ v.rest := by rw [← hspan, hhash]; simp
      rw [hp]
      exact ⟨.inl rfl, fun h => absurd h (some_ne_none _).symm, fun h => absurd hmem h.1⟩

theorem parseTail_nil (hc : v.c ≠ chHash ∧ v.c ≠ chQuestion) (hr : v.rest = []) :
    parseTail v h = { h with path := some v.buf } := by
  rw [parseTail_path hc.1 hc.2, parsePath_end (by rw [hr]; exact fun _ h => nomatch h), hr]
  rw [parseRest_plain (u := v.moved [] (lastRead v.c []) []) hc.2 hc.1, decode,
    append_nil]

theorem parseRest_some (hc : u.c = chHash ∨ u.c = chQuestion) (hparams : h.params = none)
    (hfragment : h.fragment = none) :
    ∃ params fragment, parseRest u h = { h with params := params, fragment := fragment } ∧
      QueryShape (parseRest u h) ∧ (params ≠ none ∨ fragment ≠ none) := by
  obtain ⟨params, fragment, hparse, hshape, hnone⟩ := parseRest_shape (u := u) hparams hfragment
  refine ⟨params, fragment, hparse, hshape, ?_⟩
  rcases hc with hc | hc
  · have hsome := congrArg Url.fragment (parseRest_fragment (h := h) hc)
    rw [hparse] at hsome
    exact .inr (by rw [show fragment = _ from hsome]; exact some_ne_none _)
  · exact .inl fun hp => hnone.mp hp hc

structure Reads (s : Bytes) (h : Url) : Prop where
  normal : Normal h
  slashes : SlashesPath h ↔ HidesAuthority s
  scheme : SchemePath h ↔ HidesScheme s
  rootless : RootlessQuery h ↔ EndsQuestion s
  bare : BareAuthority h ↔ OnlyBrackets s

theorem authority_shape {scheme : UrlView} (hbuf : u.buf = []) (hu : u.c = chColon ∨ u.c = chSlash)
    (hscheme : ∀ x, scheme = some x → IsScheme x)
    (hh : h = ⟨scheme, none, none, none, none, none, none, none⟩) :
    let g := parseTail (parseAuthority u h).1 (parseAuthority u h).2
    Normal g ∧ g.scheme = scheme ∧ g.host ≠ none ∧
      (g.host = some [] ∧ g.user = none ∧ g.port = none ∧ g.path = some [] ↔
        u.rest.all isBracket = true ∧ (u.c = chSlash → u.rest ≠ [])) := by
  obtain ⟨v, user, pass, host, port, hparse, hpass, hf, hbuf', hends⟩ := parseAuthority_shape hbuf
    (show h.user = none by rw [hh]) (show h.pass = none by rw [hh]) (show h.port = none by rw [hh])
  rw [hparse, hh]
  dsimp only
  have hhost {P : Prop} (h : some host = none) : P := absurd h (some_ne_none host)
  by_cases hdelim : v.c = chHash ∨ v.c = chQuestion
  · -- the authority ends at a query or a fragment
    have hall : u.rest.all isBracket = false := by
      rcases hends with ⟨-, hall⟩ | ⟨-, ⟨hc, -⟩ | ⟨-, hc⟩, -⟩
      · exact hall
      · rw [hc] at hdelim
        rcases hu with hu | hu <;> rw [hu] at hdelim <;> exact absurd hdelim (by decide)
      · rcases hdelim with h | h <;> rw [h] at hc <;> exact absurd hc (by decide)
    rw [parseTail_noPath hdelim]
    obtain ⟨params, fragment, hrest, hshape, hsome⟩ := parseRest_some (u := v)
      (h := ⟨scheme, user, pass, some host, port, none, none, none⟩) hdelim rfl rfl
    rw [hrest] at hshape ⊢
    refine ⟨⟨hscheme, hpass, hhost, fun _ => .inl ⟨rfl, hsome⟩, hshape, fun _ => hhost⟩, rfl, some_ne_none _, ?_⟩
    rw [hall]
    exact ⟨fun h => absurd h.2.2.2.symm (some_ne_none _), fun h => absurd h.1 (by decide)⟩
  rw [not_or] at hdelim
  by_cases hslash : v.c = chSlash
  · -- a slash starts the path
    rw [if_pos hslash] at hbuf'
    obtain ⟨p, t, params, fragment, -, -, htail, hshape, -⟩ := parseTail_shape
      (h := ⟨scheme, user, pass, some host, port, none, none, none⟩) hdelim rfl rfl
    rw [htail] at hshape ⊢
    rw [hbuf'] at hshape ⊢
    refine ⟨⟨hscheme, hpass, hhost, fun _ => .inr (.inr ⟨_, rfl⟩), hshape, fun _ => hhost⟩, rfl, some_ne_none _, ?_⟩
    refine ⟨fun h => absurd h.2.2.2 (by simp), fun ⟨hall, hne⟩ => ?_⟩
    rcases hends with ⟨-, hno⟩ | ⟨-, ⟨hc, hr⟩ | ⟨-, hc⟩, -⟩
    · rw [hall] at hno; cases hno
    · exact absurd hr (hne (hc ▸ hslash))
    · rw [hslash] at hc; exact absurd hc (by decide)
  · -- the authority ends the URL
    have hstop : stopByte v.c = false := by
      rw [← Bool.not_eq_true, stopByte_iff]
      exact not_or.mpr ⟨hslash, not_or.mpr hdelim⟩
    rcases hends with ⟨hc, -⟩ | ⟨hr, hlast, hall⟩
    · rw [hstop] at hc; cases hc
    rw [if_neg hslash] at hbuf'
    rw [parseTail_nil hdelim hr, hbuf']
    refine ⟨⟨hscheme, hpass, hhost, fun _ => .inr (.inl ⟨rfl, rfl, rfl⟩),
      ⟨fun h => absurd h.symm (some_ne_none _), fun h => absurd h.symm (some_ne_none _)⟩, fun _ => hhost⟩, rfl, some_ne_none _, ?_⟩
    rw [hall]
    constructor
    · rintro ⟨hhost, huser, hport, -⟩
      refine ⟨⟨Option.some.inj hhost, huser, hport⟩, fun hc hnil => ?_⟩
      rcases hlast with ⟨hc', -⟩ | ⟨hne, -⟩
      · exact hslash (hc'.trans hc)
      · exact hne hnil
    · rintro ⟨⟨rfl, huser, hport⟩, -⟩
      exact ⟨rfl, huser, hport, rfl⟩

theorem afterScheme_scheme (hx : IsScheme x) : afterScheme (x ++ chColon :: t) = t := by
  rw [afterScheme, splitScheme_scheme hx]

theorem afterScheme_none (hs : splitScheme s = none) : afterScheme s = s := by
  rw [afterScheme, hs]

theorem unescape_slash : unescape (chSlash :: t) = chSlash :: unescape t :=
  decode_plain fun _ _ _ h => absurd h (by decide)

theorem reads_path {p : Bytes} {params : Option (List UrlParam)} {fragment : UrlView}
    (hstart : SameStart p (unescape (afterScheme s))) (hafter : ¬[chSlash, chSlash] <+: afterScheme s)
    (hslash : ¬[chSlash, chSlash] <+: s)
    (hshape : QueryShape ⟨(splitScheme s).map Prod.fst, none, none, none, none, some p, params, fragment⟩)
    (hrootless : splitScheme s ≠ none → p.head? ≠ some chSlash → (params = none ∨ params = some []) ∧
      (params = some [] ↔ (afterScheme s).getLast? = some chQuestion ∧ chHash ∉ afterScheme s)) :
    Reads s ⟨(splitScheme s).map Prod.fst, none, none, none, none, some p, params, fragment⟩ where
  normal := by
    refine ⟨?_, fun h => absurd rfl h, fun _ => ⟨rfl, rfl, rfl, some_ne_none p⟩,
      fun h => absurd rfl h, hshape, ?_⟩
    · intro x hx
      obtain ⟨⟨x', t⟩, hs, rfl⟩ := Option.map_eq_some_iff.mp hx
      exact (splitScheme_eq_some.mp hs).1
    · intro hs _ hhead
      exact (hrootless (by simpa using hs) hhead).1
  slashes := by
    constructor
    · rintro ⟨-, hp⟩
      exact ⟨hstart.slashes hp, hafter⟩
    · rintro ⟨hp, -⟩
      exact ⟨rfl, hstart.symm.slashes hp⟩
  scheme := by
    constructor
    · rintro ⟨hs, -, hp⟩
      have hs' : splitScheme s = none := by simpa using hs
      rw [afterScheme_none hs'] at hstart
      exact ⟨hs', fun hno => hp (hstart.noScheme hno)⟩
    · rintro ⟨hs, hp⟩
      rw [afterScheme_none hs] at hstart
      exact ⟨by simpa using hs, rfl, fun hno => hp (hstart.symm.noScheme hno)⟩
  rootless := by
    constructor
    · rintro ⟨hs, -, hhead, hparams⟩
      have hs' : splitScheme s ≠ none := by simpa using hs
      exact ⟨hs', fun h => hhead (hstart.symm.head h), (hrootless hs' hhead).2.mp hparams⟩
    · rintro ⟨hs, hhead, hlast⟩
      have hp : p.head? ≠ some chSlash := fun h => hhead (hstart.head h)
      exact ⟨by simpa using hs, rfl, hp, (hrootless hs hp).2.mpr hlast⟩
  bare := by
    constructor
    · rintro ⟨-, hh, -⟩
      cases hh
    · rintro ⟨hpre, -⟩
      exact absurd hpre hslash

theorem reads_authority (hn : Normal h) (hhost : h.host ≠ none) (hs : afterScheme s = chSlash :: chSlash :: t)
    (hbare : BareAuthority h ↔ OnlyBrackets s) : Reads s h where
  normal := hn
  slashes := by
    constructor
    · rintro ⟨hh, -⟩
      exact absurd hh hhost
    · rintro ⟨-, hno⟩
      exact absurd ⟨t, hs.symm⟩ hno
  scheme := by
    constructor
    · rintro ⟨-, hh, -⟩
      exact absurd hh hhost
    · rintro ⟨hno, hne⟩
      rw [afterScheme_none hno] at hs
      rw [hs, unescape_slash, splitScheme_slashes] at hne
      exact absurd rfl hne
  rootless := by
    constructor
    · rintro ⟨-, hh, -⟩
      exact absurd hh hhost
    · rintro ⟨-, hhead, -⟩
      rw [hs, unescape_slash] at hhead
      exact absurd rfl hhead
  bare := hbare

theorem reads_schemePath (hx : IsScheme x) (ht : ¬[chSlash, chSlash] <+: t)
    (ho : t.head? ≠ some chSlash → f.isOpaque = true) :
    Reads (x ++ chColon :: t) (parseTail ⟨[], chColon, n, t, f⟩ (withScheme x)) := by
  obtain ⟨p, r, params, fragment, hr, hdelim, htail, hshape, hquestion⟩ := parseTail_shape
    (v := ⟨[], chColon, n, t, f⟩) (h := withScheme x)
    (show chColon ≠ chHash ∧ chColon ≠ chQuestion by decide) rfl rfl
  have hscheme : (splitScheme (x ++ chColon :: t)).map Prod.fst = some x := by
    rw [splitScheme_scheme hx]
    rfl
  have hstart : SameStart (decode f.latin1 p) (unescape (afterScheme (x ++ chColon :: t))) := by
    rw [afterScheme_scheme hx, show t = p ++ r from hr]
    exact decode_sameStart f.latin1 hdelim p
  rw [htail] at hshape ⊢
  have hreads := reads_path hstart (by rwa [afterScheme_scheme hx]) (not_slashes hx)
    (show QueryShape ⟨_, none, none, none, none, _, params, fragment⟩ by rw [hscheme]; exact hshape) ?_
  · rw [hscheme] at hreads
    exact hreads
  · intro _ hhead
    have hop : f.isOpaque = true := by
      refine ho fun h => hhead ?_
      obtain ⟨t', rfl⟩ := List.head?_eq_some_iff.mp h
      rw [afterScheme_scheme hx, unescape_slash] at hstart
      exact hstart.symm.head rfl
    obtain ⟨hempty, hiff⟩ := hquestion hop
    refine ⟨hempty, ?_⟩
    rw [hiff, afterScheme_scheme hx, and_comm]
    refine and_congr_left fun _ => ?_
    by_cases hne : t = []
    · rw [hne]
      exact show chColon = chQuestion ↔ ([] : Bytes).getLast? = some chQuestion by decide
    · exact lastRead_question hne

theorem reads_barePath {p : Bytes} {params : Option (List UrlParam)} {fragment : UrlView}
    (hno : splitScheme s = none) (hslash : ¬[chSlash, chSlash] <+: s) (hstart : SameStart p (unescape s))
    (hshape : QueryShape ⟨none, none, none, none, none, some p, params, fragment⟩) :
    Reads s ⟨none, none, none, none, none, some p, params, fragment⟩ := by
  have hafter := afterScheme_none hno
  have hscheme : (splitScheme s).map Prod.fst = none := by rw [hno]; rfl
  have hreads := reads_path (by rwa [hafter]) (by rwa [hafter]) hslash
    (show QueryShape ⟨_, none, none, none, none, some p, params, fragment⟩ by rwa [hscheme])
    (fun h => absurd hno h)
  rwa [hscheme] at hreads

theorem parseUrl_reads (f : UrlFlags) (hs : s.length < 2 ^ 32) : Reads s (parseUrl s f) := by
  obtain ⟨r, hends, hparse⟩ := parseUrl_ends f hs
  rw [hparse]
  cases hends with
  | authority t hs =>
    rw [if_pos rfl]
    obtain ⟨hn, hscheme, hhost, hbare⟩ := authority_shape (u := ⟨[], chSlash, s.length, t, f⟩) rfl
      (.inr rfl) (fun _ h => absurd h.symm (some_ne_none _)) (show emptyUrl = _ from rfl)
    refine reads_authority (t := t) hn hhost ?_ ?_
    · rw [afterScheme_none (by rw [hs, splitScheme_slashes]), hs]
    · have hbrackets := onlyBrackets_iff (t := t)
      rw [← hs] at hbrackets
      rw [hbrackets]
      constructor
      · rintro ⟨-, hbar⟩
        obtain ⟨hall, hne⟩ := hbare.mp hbar
        exact ⟨hne rfl, hall⟩
      · rintro ⟨hne, hall⟩
        exact ⟨hscheme, hbare.mpr ⟨hall, fun _ => hne⟩⟩
  | schemeAuthority x t hx hs =>
    rw [if_pos rfl]
    obtain ⟨hn, hscheme, hhost, hbare⟩ := authority_shape (u := ⟨[], chColon, s.length, t, f⟩) rfl
      (.inl rfl) (fun _ h => Option.some.inj h ▸ hx) (show withScheme x = _ from rfl)
    refine reads_authority (t := t) hn hhost ?_ ?_
    · rw [hs, afterScheme_scheme hx]
    · constructor
      · rintro ⟨hno, -⟩
        rw [hscheme] at hno
        cases hno
      · rintro ⟨hpre, -⟩
        rw [hs] at hpre
        exact absurd hpre (not_slashes hx)
  | schemePath x t hx hs ht =>
    rw [if_neg Bool.false_ne_true, hs]
    refine reads_schemePath hx ?_ fun h => absurd rfl h
    rintro ⟨r, hr⟩
    obtain ⟨-, rfl⟩ := List.cons.inj hr
    exact ht rfl
  | opaquePart x t hx hs ht =>
    rw [if_neg Bool.false_ne_true, hs]
    refine reads_schemePath hx ?_ fun _ => rfl
    rintro ⟨r, rfl⟩
    exact ht rfl
  | delimiter x d t hx hd hs =>
    have hno : splitScheme s = none := by rw [hs]; exact splitScheme_delimiter hx hd
    have hslash : ¬[chSlash, chSlash] <+: s := by
      rw [hs]
      rcases hx with rfl | hx
      · rintro ⟨r, hr⟩
        obtain ⟨rfl, -⟩ := List.cons.inj hr
        exact absurd hd (by decide)
      · exact not_slashes hx
    have hstart : SameStart x (unescape s) := by
      have hdec := decode_run (schemeBytes hx) false []
      rw [append_nil, decode, append_nil] at hdec
      have hsame := decode_sameStart false (t := d :: t) (by rintro _ ⟨⟩; exact hd) x
      rwa [hdec, ← hs] at hsame
    rw [if_neg Bool.false_ne_true, parseTail_noPath hd]
    obtain ⟨params, fragment, hrest, hshape, -⟩ := parseRest_shape (u := ⟨[], d, s.length, t, f⟩)
      (h := withPath x) rfl rfl
    rw [hrest] at hshape ⊢
    exact reads_barePath hno hslash hstart hshape
  | path pre v hs hf hdecode hc hpre hno hslash =>
    obtain ⟨p, r, params, fragment, hr, hdelim, htail, hshape, -⟩ := parseTail_shape
      (v := v) (h := emptyUrl) hc rfl rfl
    have hstart : SameStart (v.buf ++ decode v.f.latin1 p) (unescape s) := by
      have hsame := decode_sameStart f.latin1 hdelim (pre ++ p)
      rwa [← hdecode p r hr, append_assoc, ← hr, ← hs, ← hf] at hsame
    rw [if_neg Bool.false_ne_true, htail]
    rw [htail] at hshape
    exact reads_barePath hno hslash hstart hshape

/-! ## Round trips -/

/-- Every text short enough that its encoding can be passed to `ParseUrl`, whose sizes are `unsigned`. -/
theorem roundTrips_iff_unambiguous (s : Bytes) (f : UrlFlags) (hs : 6 * s.length + 17 < 2 ^ 32) :
    RoundTrips s f ↔ Unambiguous s := by
  have hlen : s.length < 2 ^ 32 := by omega
  have hreads := parseUrl_reads f hlen
  have hsize := length_encodeUrl_parseUrl f hlen
  have hback := readsBack_iff hreads.normal (by omega)
  rw [hreads.slashes, hreads.scheme, hreads.rootless, hreads.bare] at hback
  exact hback

theorem roundTrips_ip :
    RoundTrips (ascii "http://u:p@[::1]:80/a%20b?x=y&z=&w#f") ⟨true, true, false⟩ :=
  (roundTrips_iff_unambiguous _ _ (by decide)).mpr (by decide +kernel)

/-- An escaped slash, an escaped letter before a colon, a question mark at the end of a URL that is
opaque, and an authority of square brackets. -/
theorem not_roundTrips_ambiguous :
    ¬RoundTrips (ascii "/%2Fx") noFlags ∧ ¬RoundTrips (ascii "%61:b") noFlags ∧
      ¬RoundTrips (ascii "a:b?") noFlags ∧ ¬RoundTrips (ascii "//[]") noFlags := by
  decide +kernel

end CosmoRuby.UrlCodec