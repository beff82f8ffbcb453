import CosmoRuby.Url.Reparse

/-!
# Sizes

How much longer than the text of a URL the encoding of what was parsed can be. Latin-1 doubles a
byte, and an escape takes three.
-/

namespace CosmoRuby.UrlCodec

open Lib Http List Option

variable {s t rest : Bytes} {c : UInt8} {f : UrlFlags} {u v : UrlParser} {h : Url}

def viewSize (v : UrlView) : Nat := (v.getD []).length

def paramSize (p : UrlParam) : Nat := p.key.length + viewSize p.val + 1

def paramsSize (ps : List UrlParam) : Nat := (ps.map paramSize).sum

def urlSize (h : Url) : Nat :=
  viewSize h.scheme + viewSize h.user + viewSize h.pass + viewSize h.host + viewSize h.port +
    viewSize h.path + paramsSize (h.params.getD []) + viewSize h.fragment

/-! ## Encoding -/

theorem length_escapeUrlView (T : UInt8 → Bool) (v : Bytes) :
    (escapeUrlView T v).length ≤ 3 * v.length := by
  induction v with
  | nil => exact le_rfl
  | cons c v ih =>
    have hc : (escapeByte T c).length ≤ 3 := by
      unfold escapeByte
      split <;> simp
    rw [escapeUrlView_cons, length_append, length_cons]
    omega

theorem length_encodeParam (p : UrlParam) : (encodeParam p).length + 2 ≤ 3 * paramSize p := by
  have hkey := length_escapeUrlView kEscapeParam p.key
  unfold encodeParam paramSize
  cases p.val with
  | none =>
    simp only [append_nil, viewSize, getD_none, length_nil]
    omega
  | some val =>
    have hval := length_escapeUrlView kEscapeParam val
    simp only [length_append, length_cons, viewSize, getD_some]
    omega

theorem length_encodeParams (ps : List UrlParam) : (encodeParams ps).length ≤ 3 * paramsSize ps := by
  induction ps with
  | nil => exact le_rfl
  | cons p ps ih =>
    have hp := length_encodeParam p
    have hsum : paramsSize (p :: ps) = paramSize p + paramsSize ps := sum_cons
    rw [hsum]
    cases ps with
    | nil =>
      rw [encodeParams]
      omega
    | cons q ps =>
      rw [encodeParams, length_append, length_cons]
      · omega
      · exact cons_ne_nil q ps

theorem length_encodeUser (h : Url) :
    (encodeUser h).length ≤ 3 * (viewSize h.user + viewSize h.pass) + 2 := by
  unfold encodeUser
  cases h.user with
  | none => exact Nat.zero_le _
  | some user =>
    have huser := length_escapeUrlView kEscapeAuthority user
    cases h.pass with
    | none =>
      simp only [viewSize, append_nil, length_append, length_singleton, getD_some]
      omega
    | some pass =>
      have hpass := length_escapeUrlView kEscapeAuthority pass
      simp only [viewSize, length_append, length_cons, length_nil, getD_some]
      omega

theorem length_encodeHost (h : Url) (host : Bytes) :
    (encodeHost h host).length ≤ 3 * host.length + 2 := by
  have hip := length_escapeUrlView kEscapeIp host
  have hauthority := length_escapeUrlView kEscapeAuthority host
  unfold encodeHost
  split
  · simp only [length_append, length_singleton]
    omega
  · omega

theorem length_encodePort (h : Url) : (encodePort h).length ≤ 3 * viewSize h.port + 1 := by
  unfold encodePort
  cases h.port with
  | none => exact Nat.zero_le _
  | some port =>
    have hport := length_escapeUrlView kEscapeAuthority port
    simp only [viewSize, length_cons, getD_some]
    omega

theorem length_encodeAuthority (h : Url) : (encodeAuthority h).length ≤
    3 * (viewSize h.user + viewSize h.pass + viewSize h.host + viewSize h.port) + 8 := by
  have huser := length_encodeUser h
  have hport := length_encodePort h
  unfold encodeAuthority
  cases h.host with
  | none => exact Nat.zero_le _
  | some host =>
    have hhost := length_encodeHost h host
    have hview : viewSize (some host) = host.length := rfl
    rw [hview]
    rcases h.path with _ | (_ | ⟨c, p⟩)
    · simp only [length_append, length_cons, length_nil]
      omega
    · simp only [length_append, length_cons, length_nil]
      omega
    · have hsep : (if c ≠ chSlash then [chSlash] else []).length ≤ 1 := by split <;> simp
      simp only [length_append, length_cons, length_nil]
      omega

theorem length_encodeScheme (h : Url) : (encodeScheme h).length ≤ viewSize h.scheme + 1 := by
  unfold encodeScheme
  split
  · rename_i hs
    rw [hs]
    simp [viewSize]
  · exact Nat.zero_le _

theorem length_encodeFragment (h : Url) : (encodeFragment h).length ≤ 3 * viewSize h.fragment + 1 := by
  unfold encodeFragment
  cases h.fragment with
  | none => exact Nat.zero_le _
  | some g => exact Nat.succ_le_succ (length_escapeUrlView kEscapeFragment g)

theorem length_encodeQuery (h : Url) :
    (encodeQuery h).length ≤ (encodeParams (h.params.getD [])).length + 1 := by
  unfold encodeQuery
  cases h.params with
  | none => exact Nat.zero_le _
  | some ps => exact Nat.le_refl _

theorem length_encodeUrl (h : Url) : (encodeUrl h).length ≤ 3 * urlSize h + 11 := by
  have hscheme := length_encodeScheme h
  have hquery := length_encodeQuery h
  have hparams := length_encodeParams (h.params.getD [])
  have hfragment := length_encodeFragment h
  have hpath := length_escapeUrlView kEscapePath (h.path.getD [])
  have hauthority := length_encodeAuthority h
  have hview : viewSize h.path = (h.path.getD []).length := rfl
  unfold encodeUrl urlSize
  simp only [length_append]
  omega

/-! ## The buffer of `EncodeUrl` -/

def dimensionParams (ps : List UrlParam) : Nat :=
  ps.length + (ps.map fun p => p.key.length * 3 + 1 + viewSize p.val * 3).sum

/-- `DimensionUrl` -/
def dimensionUrl (h : Url) : Nat :=
  viewSize h.scheme + 1 + 2 + viewSize h.user * 3 + 1 + viewSize h.pass * 3 + 1 + 1 + viewSize h.host * 3 + 1 + 1 +
    viewSize h.port * 3 + 1 + viewSize h.path * 3 + 1 + dimensionParams (h.params.getD []) + 1 +
    viewSize h.fragment * 3 + 1

theorem length_encodeParams_le (ps : List UrlParam) : (encodeParams ps).length ≤ dimensionParams ps := by
  induction ps with
  | nil => exact le_rfl
  | cons p ps ih =>
    have hp : (encodeParam p).length ≤ p.key.length * 3 + 1 + viewSize p.val * 3 := by
      have hkey := length_escapeUrlView kEscapeParam p.key
      unfold encodeParam
      cases p.val with
      | none => simp only [append_nil, viewSize, getD_none, length_nil]; omega
      | some val =>
        have hval := length_escapeUrlView kEscapeParam val
        simp only [length_append, length_cons, viewSize, getD_some]
        omega
    simp only [dimensionParams, map_cons, sum_cons, length_cons] at ih ⊢
    cases ps with
    | nil =>
      rw [encodeParams]
      omega
    | cons q ps =>
      rw [encodeParams, length_append, length_cons]
      · omega
      · exact cons_ne_nil q ps

/-- What `EncodeUrl` stores for any URL, with the NUL, is at most what it allocates. -/
theorem length_encodeUrl_lt_dimensionUrl (h : Url) : (encodeUrl h).length < dimensionUrl h := by
  have hquery := length_encodeQuery h
  have hparams := length_encodeParams_le (h.params.getD [])
  have hscheme := length_encodeScheme h
  have hauthority := length_encodeAuthority h
  have hpath : _ ≤ 3 * viewSize h.path := length_escapeUrlView kEscapePath (h.path.getD [])
  have hfragment := length_encodeFragment h
  unfold encodeUrl dimensionUrl
  simp only [length_append]
  omega

/-! ## Parsing -/

def UrlParser.size (u : UrlParser) : Nat := u.buf.length + 2 * u.rest.length

open UrlParser

theorem parseText_size (u : UrlParser) : (parseText u).size ≤ u.size + 2 := by
  have hlen := parseText_length u
  have hbuf : (parseText u).buf.length ≤ u.buf.length + 2 := by
    unfold parseText parseEscape emitLatin1 emit
    split_ifs
    · split
      · split_ifs <;> simp
      · simp
    · simp [latin1]
    · simp
  unfold size
  omega

theorem whileInput_size {σ : Type} {body : UrlParser → σ → Turn (UrlParser × σ)} {x : σ} (μ : σ → Nat)
    (hbody : Consumes body)
    (hstep : ∀ u x u' x', body u x = .next (u', x') ∨ body u x = .stop (u', x') →
      u'.size + μ x' ≤ u.size + 2 + μ x) :
    (whileInput body u x).1.size + μ (whileInput body u x).2 ≤ u.size + μ x := by
  have hread : ∀ (v : UrlParser) c rest, v.rest = c :: rest → (v.read c rest).size + 2 = v.size := by
    intro v c rest hr
    simp only [size, UrlParser.read, hr, length_cons]
    omega
  have hpass : ∀ (v : UrlParser) y c rest v' y', v.size + μ y ≤ u.size + μ x → v.rest = c :: rest →
      (body (v.read c rest) y = .next (v', y') ∨ body (v.read c rest) y = .stop (v', y')) →
      v'.size + μ y' ≤ u.size + μ x := by
    intro v y c rest v' y' hinv hr hb
    have hle := hstep _ _ _ _ hb
    rw [hread v c rest hr] at hle
    exact hle.trans hinv
  exact whileInput_invariant (u := u) (x := x) hbody (fun v y => v.size + μ y ≤ u.size + μ x)
    (fun v y => v.size + μ y ≤ u.size + μ x)
    (fun v y c rest v' y' hinv hr hb => hpass v y c rest v' y' hinv hr (.inl hb))
    (fun v y c rest v' y' hinv hr hb => hpass v y c rest v' y' hinv hr (.inr hb))
    (fun _ _ h _ => h) (Nat.le_refl _)

theorem parsePath_size :
    viewSize (parsePath u h).2.path + 2 * (parsePath u h).1.rest.length ≤ u.size := by
  have hbody : ∀ (v : UrlParser) (y : Unit) v' y', pathBody v y = .next (v', y') ∨
      pathBody v y = .stop (v', y') → v'.size + 0 ≤ v.size + 2 + 0 := by
    rintro v ⟨⟩ v' ⟨⟩ hb
    by_cases hc : pathByte v.f.isOpaque v.c = true
    · rw [pathBody_text hc] at hb
      rcases hb with hb | hb <;> cases hb
      exact parseText_size v
    · rw [pathBody_stop (by simpa using hc)] at hb
      rcases hb with hb | hb <;> cases hb
      omega
  have hloop := whileInput_size (u := u) (x := ()) (fun _ => 0) consumes_pathBody hbody
  unfold parsePath
  simp only [size, cut, viewSize, getD_some] at hloop ⊢
  omega

theorem decode_length (l1 : Bool) (s : Bytes) : (decode l1 s).length ≤ 2 * s.length := by
  induction s using text_induction with
  | nil => exact le_rfl
  | plain c rest hesc ih =>
    have hc : (plainOut l1 c).length ≤ 2 := by
      unfold plainOut
      split <;> simp [latin1]
    rw [decode_plain hesc, length_append, length_cons]
    omega
  | escape a b rest ha hb ih =>
    rw [decode_escape ha hb]
    simp only [length_cons]
    omega

theorem paramsSize_concat (ps : List UrlParam) (p : UrlParam) :
    paramsSize (ps ++ [p]) = paramsSize ps + paramSize p := by
  simp [paramsSize]

theorem setLastVal_size (v : Bytes) (ps : List UrlParam) :
    paramsSize (setLastVal v ps) ≤ paramsSize ps + v.length := by
  rcases eq_nil_or_concat ps with rfl | ⟨ps, p, rfl⟩
  · exact Nat.zero_le _
  · rw [concat_eq_append, setLastVal_concat, paramsSize_concat, paramsSize_concat]
    simp only [paramSize, viewSize, getD_some]
    omega

theorem emitVal_size (ps : List UrlParam) (b : Bool) :
    (emitVal u ps b).1.size + paramsSize (emitVal u ps b).2 ≤ u.size + paramsSize ps + 1 := by
  cases b with
  | true =>
    have hset := setLastVal_size u.buf ps
    rw [emitVal_val]
    simp only [size, cut, length_nil]
    omega
  | false =>
    have hkey : (emitKey u ps).1.size + paramsSize (emitKey u ps).2 ≤ u.size + paramsSize ps + 1 := by
      unfold emitKey
      rw [paramsSize_concat]
      simp only [size, cut, length_nil, paramSize, viewSize, getD_none]
      omega
    rw [emitVal, if_pos (show (!false) = true from rfl)]
    split
    · exact hkey
    · exact Nat.le_succ _

theorem UrlParser.emit_size (s : Bytes) : (u.emit s).size = u.size + s.length := by
  simp only [size, emit, length_append]
  omega

theorem queryBody_size {b b' : Bool} {ps ps' : List UrlParam}
    (hb : queryBody u (b, ps) = .next (v, b', ps') ∨ queryBody u (b, ps) = .stop (v, b', ps')) :
    v.size + paramsSize ps' ≤ u.size + 2 + paramsSize ps := by
  have hstep := queryBody_step u b ps
  generalize queryBody u (b, ps) = r at hb hstep
  cases hstep <;> rcases hb with hb | hb <;> cases hb
  case hash => omega
  case plus _ out | equals =>
    rw [emit_size, length_singleton]
    omega
  case amp =>
    have hval := emitVal_size (u := u) ps b
    omega
  case key =>
    rw [paramsSize_concat]
    simp only [size, cut, length_nil, paramSize, viewSize, getD_none]
    omega
  case text =>
    have htext := parseText_size u
    omega

theorem parseQuery_size (hparams : h.params = none) :
    paramsSize ((parseQuery u h).2.params.getD []) + (parseQuery u h).1.size ≤ u.size + 1 := by
  have hloop := whileInput_size (u := u) (x := (false, [])) (fun x => paramsSize x.2) consumes_queryBody
    (fun u x u' x' hb => queryBody_size hb)
  unfold parseQuery
  rw [hparams, getD_none]
  generalize whileInput queryBody u (false, []) = r at hloop
  have hval := emitVal_size (u := r.1) r.2.2 r.2.1
  have hnil : paramsSize [] = 0 := rfl
  simp only [getD_some] at *
  omega

def headSize (h : Url) : Nat :=
  viewSize h.scheme + viewSize h.user + viewSize h.pass + viewSize h.host + viewSize h.port

theorem length_fragment (u : UrlParser) : (u.buf ++ decode u.f.latin1 u.rest).length ≤ u.size := by
  have hdec := decode_length u.f.latin1 u.rest
  rw [length_append, size]
  omega

theorem parseRest_size (hparams : h.params = none) (hfragment : h.fragment = none) :
    urlSize (parseRest u h) ≤ headSize h + viewSize h.path + u.size + 1 := by
  by_cases hq : u.c = chQuestion
  · obtain ⟨w, ps, hquery, -⟩ := parseQuery_shape hq hparams
    have hsize := parseQuery_size (u := u) hparams
    rw [hquery] at hsize
    rw [parseRest_query hq hquery]
    have hfrag := length_fragment w
    split_ifs
    · simp only [urlSize, headSize, viewSize, getD_some] at *
      omega
    · simp only [urlSize, headSize, viewSize, getD_some, hfragment, getD_none,
        length_nil] at *
      omega
  · have hnil : paramsSize [] = 0 := rfl
    by_cases hh : u.c = chHash
    · have hfrag := length_fragment u
      rw [parseRest_fragment hh]
      simp only [urlSize, headSize, viewSize, hparams, getD_some, getD_none] at *
      omega
    · rw [parseRest_plain hq hh]
      simp only [urlSize, headSize, viewSize, hparams, hfragment, getD_none, length_nil]
      omega

theorem parseTail_size (hpath : h.path = none) (hparams : h.params = none)
    (hfragment : h.fragment = none) : urlSize (parseTail u h) ≤ headSize h + u.size + 1 := by
  by_cases hc : u.c = chHash ∨ u.c = chQuestion
  · have hrest := parseRest_size (u := u) hparams hfragment
    rw [hpath] at hrest
    rw [parseTail_noPath hc]
    exact hrest
  · rw [not_or] at hc
    have hsize := parsePath_size (u := u) (h := h)
    have hrest := parseRest_size (u := (parsePath u h).1) (h := (parsePath u h).2) hparams hfragment
    have hhead : headSize (parsePath u h).2 = headSize h := rfl
    have hbuf : (parsePath u h).1.size = 2 * (parsePath u h).1.rest.length := by
      simp only [size, parsePath, cut, length_nil, Nat.zero_add]
    rw [parseTail_path hc.1 hc.2]
    omega

theorem length_take_drop (s : Bytes) (k : Nat) :
    (s.take (k - 1)).length + (s.drop k).length ≤ s.length := by
  rw [length_take, length_drop]
  omega

theorem authorityBody_size {x x' : Authority}
    (hb : authorityBody u x = .next (v, x') ∨ authorityBody u x = .stop (v, x')) :
    v.size + headSize x'.h ≤ u.size + 2 + headSize x.h := by
  obtain ⟨n, k, h⟩ := x
  have hstep := authorityBody_step u n k h
  generalize authorityBody u ⟨n, k, h⟩ = r at hb hstep
  dsimp only
  cases hstep <;> rcases hb with hb | hb <;> cases hb
  case stop | opening | closing => dsimp only; omega
  case colon =>
    dsimp only
    rw [emit_size, length_singleton]
    omega
  case pass _ j hk =>
    have hsplit := length_take_drop u.buf j
    simp only [headSize, viewSize, getD_some, size, cut, length_nil]
    omega
  case user =>
    simp only [headSize, viewSize, getD_some, size, cut, length_nil]
    omega
  case text =>
    have htext := parseText_size u
    dsimp only
    omega

theorem authorityEnd_size (x : Authority) :
    headSize (authorityEnd u x).2 + (authorityEnd u x).1.size ≤ headSize x.h + u.size + 1 := by
  have hu : (authorityEnd u x).1.size ≤ 2 * u.rest.length + 1 := by
    unfold authorityEnd
    dsimp only
    split_ifs <;> simp [size, cut, emit, Nat.add_comm]
  have hh : headSize (authorityEnd u x).2 ≤ headSize x.h + u.buf.length := by
    unfold authorityEnd
    dsimp only
    split
    · rename_i k _
      have hsplit := length_take_drop u.buf k
      split_ifs
      · simp only [headSize, viewSize, getD_some]
        omega
      · simp only [headSize, viewSize, getD_some]
        omega
    · simp only [headSize, viewSize, getD_some]
      omega
  unfold size at *
  omega

theorem parseAuthority_size :
    headSize (parseAuthority u h).2 + (parseAuthority u h).1.size ≤ headSize h + u.size + 1 := by
  have hloop := whileInput_size (u := u) (x := (⟨1, none, h⟩ : Authority)) (fun x => headSize x.h)
    consumes_authorityBody (fun u x u' x' hb => authorityBody_size hb)
  unfold parseAuthority
  generalize whileInput authorityBody u ⟨1, none, h⟩ = r at hloop ⊢
  have hend := authorityEnd_size (u := r.1) r.2
  dsimp only at hloop ⊢
  omega

theorem parseAuthority_tail (hbuf : u.buf = []) (huser : h.user = none) (hpass : h.pass = none)
    (hport : h.port = none) (hpath : h.path = none) (hparams : h.params = none)
    (hfragment : h.fragment = none) :
    urlSize (parseTail (parseAuthority u h).1 (parseAuthority u h).2) ≤ headSize h + u.size + 2 := by
  have hsize := parseAuthority_size (u := u) (h := h)
  obtain ⟨v, user, pass, host, port, hparse, -⟩ := parseAuthority_shape hbuf huser hpass hport
  rw [hparse] at hsize ⊢
  have htail := parseTail_size (u := v)
    (h := { h with user := user, pass := pass, host := some host, port := port }) hpath hparams hfragment
  dsimp only at hsize htail ⊢
  omega

theorem SchemeEnds.size {n : Nat} {r : UrlParser × Bool × Url} (hends : SchemeEnds f n s r) :
    headSize r.2.2 + viewSize r.2.2.path + r.1.size ≤ 2 * s.length := by
  have hempty : headSize emptyUrl + viewSize emptyUrl.path = 0 := rfl
  have hscheme : ∀ x, headSize (withScheme x) + viewSize (withScheme x).path = x.length := fun x => rfl
  have hpath : ∀ x, headSize (withPath x) + viewSize (withPath x).path = x.length := fun x => Nat.zero_add _
  cases hends with
  | path pre v hs hf hdecode =>
    have hbuf := decode_length f.latin1 (pre ++ [])
    have hpre := hdecode [] v.rest rfl
    rw [← hpre, decode, append_nil, append_nil] at hbuf
    simp only [UrlParser.size, hempty, hs, length_append]
    omega
  | _ =>
    simp only [UrlParser.size, *, length_nil, length_cons, length_append]
    omega

theorem parseUrl_size (f : UrlFlags) (hs : s.length < 2 ^ 32) :
    urlSize (parseUrl s f) ≤ 2 * s.length + 2 := by
  obtain ⟨r, hends, hparse⟩ := parseUrl_ends f hs
  have hsize := hends.size
  rw [hparse]
  cases hends with
  | authority | schemeAuthority =>
    rw [if_pos rfl]
    exact (parseAuthority_tail rfl rfl rfl rfl rfl rfl rfl).trans (Nat.add_le_add_right hsize 2)
  | schemePath | opaquePart | path =>
    rw [if_neg Bool.false_ne_true]
    exact (parseTail_size rfl rfl rfl).trans (Nat.le_succ_of_le (Nat.succ_le_succ hsize))
  | delimiter _ _ _ _ hd =>
    rw [if_neg Bool.false_ne_true, parseTail_noPath hd]
    exact (parseRest_size rfl rfl).trans (Nat.le_succ_of_le (Nat.succ_le_succ hsize))

theorem length_encodeUrl_parseUrl (f : UrlFlags) (hs : s.length < 2 ^ 32) :
    (encodeUrl (parseUrl s f)).length ≤ 6 * s.length + 17 := by
  have hencode := length_encodeUrl (parseUrl s f)
  have hparse := parseUrl_size f hs
  omega

end CosmoRuby.UrlCodec
