import CosmoRuby.Url.Loops

/-!
# The scheme

Which texts have a scheme, and how `ParseScheme` ends on every text.
-/

namespace CosmoRuby.UrlCodec

open Lib Http List

variable {x s t rest : Bytes} {c : UInt8} {f : UrlFlags} {n : Nat} {h : Url}

/-! ## Schemes -/

def IsScheme (x : Bytes) : Prop := ∃ c cs, x = c :: cs ∧ isalpha c = true ∧ ∀ d ∈ cs, isSchemeByte d = true

def splitScheme (s : Bytes) : Option (Bytes × Bytes) :=
  match s.takeWhile isSchemeByte, s.dropWhile isSchemeByte with
  | c :: cs, d :: t => if isalpha c ∧ d = chColon then some (c :: cs, t) else none
  | _, _ => none

theorem isSchemeByte_of_isalpha (h : isalpha c = true) : isSchemeByte c = true := by
  simp [isSchemeByte, h]

theorem IsScheme.bytes (hx : IsScheme x) : ∀ d ∈ x, isSchemeByte d = true := by
  obtain ⟨c, cs, rfl, hc, hcs⟩ := hx
  exact List.forall_mem_cons.mpr ⟨isSchemeByte_of_isalpha hc, hcs⟩

theorem schemeBytes (hx : x = [] ∨ IsScheme x) : ∀ d ∈ x, isSchemeByte d = true := by
  rcases hx with rfl | hx
  · exact fun d hd => nomatch hd
  · exact hx.bytes

theorem IsScheme.ne_nil (hx : IsScheme x) : x ≠ [] := by
  obtain ⟨c, cs, rfl, -⟩ := hx
  exact cons_ne_nil c cs

theorem span_scheme (hx : ∀ d ∈ x, isSchemeByte d = true) (hc : isSchemeByte c = false) :
    (x ++ c :: t).takeWhile isSchemeByte = x ∧ (x ++ c :: t).dropWhile isSchemeByte = c :: t := by
  rw [takeWhile_append_of_pos hx, dropWhile_append_of_pos hx,
    takeWhile_cons_of_neg (by simp [hc]), dropWhile_cons_of_neg (by simp [hc])]
  exact ⟨append_nil x, rfl⟩

theorem splitScheme_eq_some : splitScheme s = some (x, t) ↔ IsScheme x ∧ s = x ++ chColon :: t := by
  constructor
  · intro h
    unfold splitScheme at h
    have hspan := takeWhile_append_dropWhile (p := isSchemeByte) (l := s)
    split at h
    · rename_i c cs d t' hx ht
      split_ifs at h with hcond
      cases h
      rw [hx, ht, hcond.2] at hspan
      refine ⟨⟨c, cs, rfl, hcond.1, fun d hd => ?_⟩, hspan.symm⟩
      exact mem_takeWhile_imp (by rw [hx]; exact mem_cons_of_mem c hd)
    · cases h
  · rintro ⟨hx, rfl⟩
    obtain ⟨htake, hdrop⟩ := span_scheme (c := chColon) (t := t) hx.bytes (by decide)
    obtain ⟨c, cs, rfl, hc, -⟩ := hx
    unfold splitScheme
    rw [htake, hdrop]
    exact if_pos ⟨hc, rfl⟩

theorem splitScheme_scheme (hx : IsScheme x) (t : Bytes) :
    splitScheme (x ++ chColon :: t) = some (x, t) := splitScheme_eq_some.mpr ⟨hx, rfl⟩

theorem scheme_unique {x' t' : Bytes} (hx : IsScheme x) (hx' : IsScheme x')
    (h : x ++ chColon :: t = x' ++ chColon :: t') : x = x' ∧ t = t' := by
  have h1 := splitScheme_scheme hx t
  rw [h, splitScheme_scheme hx' t'] at h1
  cases h1
  exact ⟨rfl, rfl⟩

theorem splitScheme_none (hx : ∀ d ∈ x, isSchemeByte d = true) (hc : isSchemeByte c = false)
    (hcolon : c = chColon → x = []) : splitScheme (x ++ c :: t) = none := by
  obtain ⟨htake, hdrop⟩ := span_scheme (t := t) hx hc
  unfold splitScheme
  rw [htake, hdrop]
  cases x with
  | nil => rfl
  | cons d x => exact if_neg fun h => cons_ne_nil d x (hcolon h.2)

theorem splitScheme_run (hx : ∀ d ∈ x, isSchemeByte d = true) : splitScheme x = none := by
  unfold splitScheme
  rw [List.dropWhile_eq_nil_iff.mpr hx]
  split
  · rename_i heq
    cases heq
  · rfl

theorem splitScheme_first (hc : isalpha c = false) : splitScheme (c :: t) = none := by
  by_contra hne
  obtain ⟨⟨x, t'⟩, hsome⟩ := Option.ne_none_iff_exists'.mp hne
  obtain ⟨⟨d, ds, rfl, hd, -⟩, hs⟩ := splitScheme_eq_some.mp hsome
  obtain ⟨rfl, -⟩ := List.cons.inj hs
  rw [hc] at hd
  cases hd

theorem splitScheme_slashes : splitScheme (chSlash :: t) = none := splitScheme_first (by decide)

theorem splitScheme_delimiter {d : UInt8} (hx : x = [] ∨ IsScheme x)
    (hd : d = chHash ∨ d = chQuestion) : splitScheme (x ++ d :: t) = none := by
  have hclass : isSchemeByte d = false ∧ d ≠ chColon := by rcases hd with rfl | rfl <;> decide
  exact splitScheme_none (schemeBytes hx) hclass.1 fun h => absurd h hclass.2

/-! ## Texts with the same start

What tells a scheme and an authority from a path is looked for up to the first character that is
none of theirs.
-/

def Barrier (s : Bytes) : Prop :=
  ∀ c, s.head? = some c → isSchemeByte c = false ∧ c ≠ chColon ∧ c ≠ chSlash

theorem barrier_nil : Barrier [] := fun _ h => nomatch h

theorem barrier_cons (h : isSchemeByte c = false ∧ c ≠ chColon ∧ c ≠ chSlash) : Barrier (c :: t) := by
  rintro _ ⟨⟩
  exact h

inductive SameStart : Bytes → Bytes → Prop
  | barrier {s t : Bytes} (hs : Barrier s) (ht : Barrier t) : SameStart s t
  | cons (c : UInt8) {s t : Bytes} (h : SameStart s t) : SameStart (c :: s) (c :: t)

theorem SameStart.symm (h : SameStart s t) : SameStart t s := by
  induction h with
  | barrier hs ht => exact .barrier ht hs
  | cons c _ ih => exact .cons c ih

theorem SameStart.head (h : SameStart s t) (hs : s.head? = some chSlash) :
    t.head? = some chSlash := by
  cases h with
  | barrier hbar _ => exact absurd rfl (hbar chSlash hs).2.2
  | cons c _ => exact hs

theorem SameStart.slashes (h : SameStart s t) (hs : [chSlash, chSlash] <+: s) :
    [chSlash, chSlash] <+: t := by
  obtain ⟨r, rfl⟩ := hs
  cases h with
  | barrier hbar _ => exact absurd rfl (hbar chSlash rfl).2.2
  | cons c h =>
    obtain ⟨r', rfl⟩ := List.head?_eq_some_iff.mp (h.head rfl)
    exact ⟨r', rfl⟩

variable {r : Bytes}

theorem SameStart.append (hx : ∀ d ∈ x, isSchemeByte d = true)
    (h : SameStart (x ++ chColon :: r) t) : ∃ r', t = x ++ chColon :: r' := by
  induction x generalizing t with
  | nil =>
    cases h with
    | barrier hbar _ => exact absurd rfl (hbar chColon rfl).2.1
    | cons c h => exact ⟨_, rfl⟩
  | cons d x ih =>
    cases h with
    | barrier hbar _ =>
      have hd := hx d mem_cons_self
      rw [(hbar d rfl).1] at hd
      cases hd
    | cons c h =>
      obtain ⟨r', rfl⟩ := ih (fun e he => hx e (mem_cons_of_mem d he)) h
      exact ⟨r', rfl⟩

theorem SameStart.scheme (h : SameStart s t) (hs : splitScheme s = some (x, r)) :
    ∃ r', splitScheme t = some (x, r') := by
  obtain ⟨hx, rfl⟩ := splitScheme_eq_some.mp hs
  obtain ⟨r', rfl⟩ := h.append hx.bytes
  exact ⟨r', splitScheme_scheme hx r'⟩

theorem SameStart.noScheme (h : SameStart s t) (ht : splitScheme t = none) : splitScheme s = none := by
  by_contra hne
  obtain ⟨⟨x, r⟩, hs⟩ := Option.ne_none_iff_exists'.mp hne
  obtain ⟨r', hr'⟩ := h.scheme hs
  rw [ht] at hr'
  cases hr'

/-! ## The loop -/

theorem consumes_schemeBody : Consumes schemeBody := by
  rintro u ⟨b, h⟩ u' x' hb
  unfold schemeBody at hb
  dsimp only at hb
  split_ifs at hb <;> cases hb <;> exact le_rfl

def withScheme (x : Bytes) : Url := { emptyUrl with scheme := some x }

def withPath (x : Bytes) : Url := { emptyUrl with path := some x }

inductive SchemeEnds (f : UrlFlags) (n : Nat) (s : Bytes) : UrlParser × Bool × Url → Prop
  | authority (t : Bytes) (hs : s = chSlash :: chSlash :: t) :
      SchemeEnds f n s (⟨[], chSlash, n, t, f⟩, true, emptyUrl)
  | schemeAuthority (x t : Bytes) (hx : IsScheme x) (hs : s = x ++ chColon :: chSlash :: chSlash :: t) :
      SchemeEnds f n s (⟨[], chColon, n, t, f⟩, true, withScheme x)
  | schemePath (x t : Bytes) (hx : IsScheme x) (hs : s = x ++ chColon :: chSlash :: t)
      (ht : t.head? ≠ some chSlash) :
      SchemeEnds f n s
        (⟨[], chColon, n, chSlash :: t, f⟩, false, withScheme x)
  | opaquePart (x t : Bytes) (hx : IsScheme x) (hs : s = x ++ chColon :: t)
      (ht : t.head? ≠ some chSlash) :
      SchemeEnds f n s
        (⟨[], chColon, n, t, { f with isOpaque := true }⟩, false, withScheme x)
  | delimiter (x : Bytes) (d : UInt8) (t : Bytes) (hx : x = [] ∨ IsScheme x)
      (hd : d = chHash ∨ d = chQuestion) (hs : s = x ++ d :: t) :
      SchemeEnds f n s (⟨[], d, n, t, f⟩, false, withPath x)
  | path (pre : Bytes) (v : UrlParser) (hs : s = pre ++ v.rest) (hf : v.f = f)
      (hdecode : ∀ y z, v.rest = y ++ z → v.buf ++ decode f.latin1 y = decode f.latin1 (pre ++ y))
      (hc : v.c ≠ chHash ∧ v.c ≠ chQuestion) (hpre : ∀ c ∈ pre, c ≠ chHash ∧ c ≠ chQuestion)
      (hno : splitScheme s = none) (hslash : ¬[chSlash, chSlash] <+: s) :
      SchemeEnds f n s (v, false, emptyUrl)

theorem decode_run (hx : ∀ d ∈ x, isSchemeByte d = true) (l1 : Bool) (y : Bytes) :
    decode l1 (x ++ y) = x ++ decode l1 y := by
  induction x with
  | nil => rfl
  | cons d x ih =>
    have hd := hx d mem_cons_self
    have hplain : ∀ c : UInt8, isSchemeByte c = true → c ≠ chPercent ∧ ¬0x80 ≤ c := by decide +kernel
    obtain ⟨hne, hlow⟩ := hplain d hd
    rw [cons_append, decode_plain fun _ _ _ h => absurd h hne,
      ih fun e he => hx e (mem_cons_of_mem d he), plainOut, if_neg fun h => hlow h.1]
    rfl

theorem NotEscape.of_append (h : NotEscape c (s ++ t)) : NotEscape c s := by
  intro a b r hc hr
  exact h a b (r ++ t) hc (by rw [hr]; rfl)

theorem schemeByte_class :
    ∀ c : UInt8, isSchemeByte c = true → c ≠ chHash ∧ c ≠ chQuestion := by
  decide +kernel

theorem not_slashes (hx : IsScheme x) : ¬[chSlash, chSlash] <+: x ++ t := by
  rintro ⟨r, hr⟩
  obtain ⟨c, cs, rfl, hc, -⟩ := hx
  obtain ⟨rfl, -⟩ := List.cons.inj hr
  exact absurd hc (by decide)

variable {u : UrlParser}

theorem schemeEnds_text (hx : ∀ d ∈ x, isSchemeByte d = true)
    (hc : c ≠ chHash ∧ c ≠ chQuestion) (hno : splitScheme (x ++ c :: rest) = none)
    (hslash : ¬[chSlash, chSlash] <+: x ++ c :: rest) (hbuf : u.buf = x) (hf : u.f = f) :
    SchemeEnds f n (x ++ c :: rest) (parseText (u.read c rest), false, emptyUrl) := by
  have hrun : ∀ d ∈ x, d ≠ chHash ∧ d ≠ chQuestion := fun d hd =>
    schemeByte_class d (hx d hd)
  by_cases hesc : NotEscape c rest
  · rw [parseText_plain hesc]
    refine .path (x ++ [c]) _ (by simp) hf ?_ hc
      (List.forall_mem_append.mpr ⟨hrun, List.forall_mem_singleton.mpr hc⟩) hno hslash
    intro y z hyz
    have hy : NotEscape c y := NotEscape.of_append (by rwa [show rest = y ++ z from hyz] at hesc)
    rw [append_assoc, append_assoc, singleton_append, decode_run hx,
      decode_plain hy, hbuf, hf]
  · simp only [NotEscape, not_forall, not_not] at hesc
    obtain ⟨a, b, s, rfl, rfl, ha, hb⟩ := hesc
    rw [parseText_escape ha hb]
    refine .path (x ++ [chPercent, a, b]) _ (by simp) hf ?_ hc ?_ hno hslash
    · intro y z _
      have hesc : decode f.latin1 ([chPercent, a, b] ++ y) = hexByte a b :: decode f.latin1 y :=
        decode_escape ha hb
      rw [append_assoc, append_assoc, decode_run hx, hesc, hbuf]
      rfl
    · have hhex : ∀ d : UInt8, isHex d = true → d ≠ chHash ∧ d ≠ chQuestion := by decide +kernel
      refine List.forall_mem_append.mpr ⟨hrun, ?_⟩
      simp only [forall_mem_cons]
      exact ⟨hc, hhex a ha, hhex b hb, nofun⟩

def runByte (i : Nat) (c : UInt8) : Bool := if i = 1 then isalpha c else isSchemeByte c

variable {b : Bool}

theorem schemeBody_next (hc : runByte u.i u.c = true) :
    schemeBody u (b, h) = .next (u.emit [u.c], false, h) := by
  have hclass : ∀ c : UInt8, isSchemeByte c = true → c ≠ chSlash ∧ c ≠ chColon ∧ c ≠ chHash ∧
      c ≠ chQuestion ∧ c ≠ chPercent ∧ ¬0x80 ≤ c := by decide +kernel
  have hrun : isSchemeByte u.c = true := by
    unfold runByte at hc
    split_ifs at hc
    · exact isSchemeByte_of_isalpha hc
    · exact hc
  obtain ⟨h1, h2, h3, h4, h5, h6⟩ := hclass u.c hrun
  unfold schemeBody
  dsimp only
  rw [if_neg h1, if_neg fun h => h2 h.1, if_neg (not_or.mpr ⟨h3, h4⟩), if_neg h5,
    if_neg fun h => h6 h.1]
  by_cases hi : u.i = 1
  · rw [if_pos hi, if_neg]
    simpa [runByte, hi] using hc
  · rw [if_neg hi, if_neg]
    simpa [runByte, hi] using hc

theorem schemeBody_text (hrun : runByte u.i u.c = false)
    (hc : u.c ≠ chHash ∧ u.c ≠ chQuestion) (hcolon : u.c = chColon → ¬1 < u.i)
    (hslash : u.c = chSlash → ¬(u.i = 1 ∧ u.rest.head? = some chSlash)) :
    schemeBody u (b, h) = .stop (parseText u, false, h) := by
  unfold schemeBody parseText
  dsimp only
  by_cases h1 : u.c = chSlash
  · rw [if_pos h1, if_neg (hslash h1), if_neg, if_neg, h1]
    · rw [h1]; exact fun h => absurd h.1 (by decide)
    · rw [h1]; decide
  · rw [if_neg h1, if_neg fun h => hcolon h.1 h.2, if_neg (not_or.mpr hc)]
    by_cases h2 : u.c = chPercent
    · rw [if_pos h2, if_pos h2]
    · rw [if_neg h2, if_neg h2]
      by_cases h3 : 0x80 ≤ u.c ∧ u.f.latin1 = true
      · rw [if_pos h3, if_pos h3]
      · rw [if_neg h3, if_neg h3]
        by_cases hi : u.i = 1
        · rw [if_pos hi, if_pos]
          simpa [runByte, hi] using hrun
        · rw [if_neg hi, if_pos]
          simpa [runByte, hi] using hrun

theorem schemeBody_slashes (hc : u.c = chSlash) (hi : u.i = 1) (hr : u.rest.head? = some chSlash) :
    schemeBody u (b, h) = .stop ({ u with rest := u.rest.tail }, true, h) := by
  unfold schemeBody
  dsimp only
  rw [if_pos hc, if_pos ⟨hi, hr⟩]

theorem schemeBody_colon (hc : u.c = chColon) (hi : 1 < u.i) : schemeBody u (b, h) =
      if u.rest.head? = some chSlash then
        if u.rest.tail.head? = some chSlash then
          .stop ({ u.cut with rest := u.rest.tail.tail }, true, { h with scheme := some u.buf })
        else .stop (u.cut, false, { h with scheme := some u.buf })
      else .stop ({ u.cut with f := { u.f with isOpaque := true } }, false,
        { h with scheme := some u.buf }) := by
  have hne : u.c ≠ chSlash := by rw [hc]; decide
  unfold schemeBody
  dsimp only
  rw [if_neg hne, if_pos ⟨hc, hi⟩]
  rfl

theorem schemeBody_delimiter (hc : u.c = chHash ∨ u.c = chQuestion) :
    schemeBody u (b, h) = .stop (u.cut, false, { h with path := some u.buf }) := by
  have hne : u.c ≠ chSlash ∧ u.c ≠ chColon := by
    rcases hc with hc | hc <;> rw [hc] <;> decide
  unfold schemeBody
  dsimp only
  rw [if_neg hne.1, if_neg fun h => hne.2 h.1, if_pos hc]

theorem runByte_eq_true (hx : x = [] ∨ IsScheme x) (hc : runByte (x.length + 1) c = true) :
    IsScheme (x ++ [c]) := by
  rcases hx with rfl | ⟨d, ds, rfl, hd, hds⟩
  · exact ⟨c, [], rfl, hc, fun e he => nomatch he⟩
  · refine ⟨d, ds ++ [c], rfl, hd, List.forall_mem_append.mpr ⟨hds, List.forall_mem_singleton.mpr ?_⟩⟩
    simpa [runByte] using hc

theorem splitScheme_leave (hx : x = [] ∨ IsScheme x) (hc : runByte (x.length + 1) c = false)
    (hcolon : c = chColon → x = []) : splitScheme (x ++ c :: rest) = none := by
  rcases hx with rfl | hx
  · exact splitScheme_first hc
  · exact splitScheme_none hx.bytes (by simpa [runByte, hx.ne_nil] using hc) hcolon

variable {c0 : UInt8}

theorem schemeEnds_colon (hx : IsScheme x) (hn : n = x.length + rest.length + 1) :
    SchemeEnds f n (x ++ chColon :: rest)
      (whileInput schemeBody ⟨x, c0, n, chColon :: rest, f⟩ (false, emptyUrl)) := by
  have hi : 1 < ((⟨x, c0, n, chColon :: rest, f⟩ : UrlParser).read chColon rest).i := by
    have hpos := length_pos_of_ne_nil hx.ne_nil
    simp only [UrlParser.i, UrlParser.read, hn]
    omega
  have hbody : schemeBody ((⟨x, c0, n, chColon :: rest, f⟩ : UrlParser).read chColon rest)
      (false, emptyUrl) =
      if rest.head? = some chSlash then
        if rest.tail.head? = some chSlash then
          .stop (⟨[], chColon, n, rest.tail.tail, f⟩, true, withScheme x)
        else .stop (⟨[], chColon, n, rest, f⟩, false, withScheme x)
      else .stop (⟨[], chColon, n, rest, { f with isOpaque := true }⟩, false,
        withScheme x) := by
    exact schemeBody_colon rfl hi
  by_cases hslash : rest.head? = some chSlash
  · rw [if_pos hslash] at hbody
    obtain ⟨t, rfl⟩ := List.head?_eq_some_iff.mp hslash
    by_cases ht : t.head? = some chSlash
    · rw [if_pos (show (chSlash :: t).tail.head? = some chSlash from ht)] at hbody
      rw [whileInput_stop consumes_schemeBody rfl hbody]
      obtain ⟨r, rfl⟩ := List.head?_eq_some_iff.mp ht
      exact .schemeAuthority x r hx rfl
    · rw [if_neg (show (chSlash :: t).tail.head? ≠ some chSlash from ht)] at hbody
      rw [whileInput_stop consumes_schemeBody rfl hbody]
      exact .schemePath x t hx rfl ht
  · rw [if_neg hslash] at hbody
    rw [whileInput_stop consumes_schemeBody rfl hbody]
    exact .opaquePart x rest hx rfl hslash

theorem schemeEnds_leave (hx : x = [] ∨ IsScheme x)
    (hn : n = x.length + rest.length + 1) (hrun : runByte (x.length + 1) c = false) :
    SchemeEnds f n (x ++ c :: rest)
      (whileInput schemeBody ⟨x, c0, n, c :: rest, f⟩ (false, emptyUrl)) := by
  have hbytes := schemeBytes hx
  have hi : ((⟨x, c0, n, c :: rest, f⟩ : UrlParser).read c rest).i = x.length + 1 := by
    simp only [UrlParser.i, UrlParser.read, hn]
    omega
  by_cases hcolon : c = chColon ∧ x ≠ []
  · obtain ⟨rfl, hne⟩ := hcolon
    exact schemeEnds_colon (hx.resolve_left hne) hn
  have hx0 : c = chColon → x = [] := fun hc => by_contra fun hne => hcolon ⟨hc, hne⟩
  by_cases hdelim : c = chHash ∨ c = chQuestion
  · have hbody : schemeBody ((⟨x, c0, n, c :: rest, f⟩ : UrlParser).read c rest) (false, emptyUrl) =
        .stop (⟨[], c, n, rest, f⟩, false, withPath x) := by
      exact schemeBody_delimiter hdelim
    rw [whileInput_stop consumes_schemeBody rfl hbody]
    exact .delimiter x c rest hx hdelim rfl
  by_cases hauth : c = chSlash ∧ x = [] ∧ rest.head? = some chSlash
  · obtain ⟨rfl, rfl, hhead⟩ := hauth
    obtain ⟨t, rfl⟩ := List.head?_eq_some_iff.mp hhead
    have hbody : schemeBody ((⟨[], c0, n, chSlash :: chSlash :: t, f⟩ : UrlParser).read chSlash
        (chSlash :: t)) (false, emptyUrl) = .stop (⟨[], chSlash, n, t, f⟩, true, emptyUrl) := by
      exact schemeBody_slashes rfl hi rfl
    rw [whileInput_stop consumes_schemeBody rfl hbody]
    exact .authority t rfl
  · have hbody := schemeBody_text (u := (⟨x, c0, n, c :: rest, f⟩ : UrlParser).read c rest)
      (b := false) (h := emptyUrl) (by rw [hi]; exact hrun) (not_or.mp hdelim)
      (fun hc => by rw [hi, hx0 hc]; decide)
      (fun hc ⟨h1, h2⟩ => hauth ⟨hc, eq_nil_of_length_eq_zero (by omega), h2⟩)
    rw [whileInput_stop consumes_schemeBody rfl hbody]
    refine schemeEnds_text hbytes (not_or.mp hdelim) (splitScheme_leave hx hrun hx0) ?_ rfl rfl
    rcases hx with rfl | hx
    · rintro ⟨r, hr⟩
      obtain ⟨hc, hrest⟩ := List.cons.inj hr
      exact hauth ⟨hc.symm, rfl, List.head?_eq_some_iff.mpr ⟨r, hrest.symm⟩⟩
    · exact not_slashes hx

theorem schemeEnds_run (hx : x = [] ∨ IsScheme x) (hn : n = x.length + rest.length)
    (hc0 : c0 ≠ chHash ∧ c0 ≠ chQuestion) :
    SchemeEnds f n (x ++ rest) (whileInput schemeBody ⟨x, c0, n, rest, f⟩ (false, emptyUrl)) := by
  have hbytes := schemeBytes hx
  induction rest generalizing x c0 with
  | nil =>
    have hslash : ¬[chSlash, chSlash] <+: x ++ [] := by
      rcases hx with rfl | hx
      · exact fun h => nomatch List.prefix_nil.mp h
      · exact not_slashes hx
    rw [whileInput_nil rfl]
    refine .path x _ rfl rfl ?_ hc0 (fun d hd => schemeByte_class d (hbytes d hd)) ?_ hslash
    · intro y z _
      exact (decode_run hbytes _ _).symm
    · rw [append_nil]
      exact splitScheme_run hbytes
  | cons c rest ih =>
    cases hrun : runByte (x.length + 1) c with
    | true =>
      have hi : ((⟨x, c0, n, c :: rest, f⟩ : UrlParser).read c rest).i = x.length + 1 := by
        simp only [UrlParser.i, UrlParser.read, hn, length_cons]
        omega
      have hstep : whileInput schemeBody ⟨x, c0, n, c :: rest, f⟩ (false, emptyUrl) =
          whileInput schemeBody ⟨x ++ [c], c, n, rest, f⟩ (false, emptyUrl) :=
        whileInput_next consumes_schemeBody rfl (schemeBody_next (by rw [hi]; exact hrun))
      have hx' := runByte_eq_true hx hrun
      rw [hstep, ← singleton_append, ← append_assoc]
      refine ih (.inr hx') ?_ (schemeByte_class c (hx'.bytes c (by simp))) hx'.bytes
      rw [hn, length_append, length_cons, length_singleton]
      omega
    | false => exact schemeEnds_leave hx (by rw [hn, length_cons]; omega) hrun

theorem parseScheme_ends (f : UrlFlags) (s : Bytes) :
    SchemeEnds f s.length s (parseScheme ⟨[], 0, s.length, s, f⟩ emptyUrl) :=
  schemeEnds_run (x := []) (.inl rfl) (by simp) (by decide)

end CosmoRuby.UrlCodec