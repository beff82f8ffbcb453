import CosmoRuby.Url.Loops

/-!
# The authority

`ParseAuthority` reads back user, password, host and port.  A colon in the host is kept from splitting
it by square brackets or by an escape, whichever `EncodeUrl` chooses.
-/

namespace CosmoRuby.UrlCodec

open Lib Http List

variable {u : UrlParser} {x : Authority} {c : UInt8} {t rest : Bytes} {h h0 : Url}

/-! ## One pass -/

def stopByte (c : UInt8) : Bool := c == chSlash || c == chHash || c == chQuestion

theorem stopByte_iff (c : UInt8) :
    stopByte c = true ↔ c = chSlash ∨ c = chHash ∨ c = chQuestion := by
  simp [stopByte, or_assoc]

def ipByte (c : UInt8) : Bool := !stopByte c && c != chOpen && c != chClose && c != chAt

def authorityByte (c : UInt8) : Bool := ipByte c && c != chColon

inductive AuthorityStep (u : UrlParser) (n : Nat) (k : Option Nat) (h : Url) :
    Turn (UrlParser × Authority) → Prop
  | stop (hc : stopByte u.c = true) : AuthorityStep u n k h (.stop (u, ⟨n, k, h⟩))
  | opening (hc : u.c = chOpen) : AuthorityStep u n k h (.next (u, ⟨0, k, h⟩))
  | closing (hc : u.c = chClose) : AuthorityStep u n k h (.next (u, ⟨1, k, h⟩))
  | colon (hc : u.c = chColon) (hn : 0 < n) :
      AuthorityStep u n k h (.next (u.emit [chColon], ⟨n + 1, some (u.buf.length + 1), h⟩))
  | pass (hc : u.c = chAt) (j : Nat) (hk : k = some j) :
      AuthorityStep u n k h (.next (u.cut, ⟨1, none,
        { h with user := some (u.buf.take (j - 1)), pass := some (u.buf.drop j) }⟩))
  | user (hc : u.c = chAt) (hk : k = none) :
      AuthorityStep u n k h (.next (u.cut, ⟨n, none, { h with user := some u.buf }⟩))
  | text (hc : ipByte u.c = true) : AuthorityStep u n k h (.next (parseText u, ⟨n, k, h⟩))

theorem authorityBody_step (u : UrlParser) (n : Nat) (k : Option Nat) (h : Url) :
    AuthorityStep u n k h (authorityBody u ⟨n, k, h⟩) := by
  unfold authorityBody
  split <;> rename_i hstop
  · exact .stop ((stopByte_iff u.c).mpr hstop)
  · have hnot : stopByte u.c = false := by
      rw [← Bool.not_eq_true, stopByte_iff]
      exact hstop
    split_ifs with hopen hclose hcolon hat
    · exact .opening hopen
    · exact .closing hclose
    · have hstep := AuthorityStep.colon (k := k) (h := h) hcolon.1 hcolon.2
      rw [← length_singleton (a := chColon), ← length_append] at hstep
      exact hstep
    · cases k with
      | some j => exact .pass hat j rfl
      | none => exact .user hat rfl
    · exact .text (by simp [ipByte, hnot, hopen, hclose, hat])

theorem consumes_authorityBody : Consumes authorityBody := by
  rintro u ⟨n, k, h⟩ u' x' hb
  have hstep := authorityBody_step u n k h
  rw [hb] at hstep
  cases hstep with
  | text => exact parseText_length u
  | opening | closing | colon | pass | user => exact le_rfl

theorem authorityBody_ip (hc : ipByte u.c = true) (hcolon : u.c = chColon → x.t = 0) :
    authorityBody u x = .next (parseText u, x) := by
  simp only [ipByte, Bool.and_eq_true, Bool.not_eq_true', bne_iff_ne, ne_eq] at hc
  obtain ⟨⟨⟨hstop, hopen⟩, hclose⟩, hat⟩ := hc
  have hnot : ¬(u.c = chSlash ∨ u.c = chHash ∨ u.c = chQuestion) := by
    rw [← stopByte_iff, hstop]; decide
  unfold authorityBody
  rw [if_neg hnot, if_neg hopen, if_neg hclose, if_neg, if_neg hat]
  rintro ⟨h, hpos⟩
  rw [hcolon h] at hpos
  cases hpos

theorem authorityBody_text (hc : authorityByte u.c = true) :
    authorityBody u x = .next (parseText u, x) := by
  simp only [authorityByte, Bool.and_eq_true, bne_iff_ne, ne_eq] at hc
  exact authorityBody_ip hc.1 fun h => absurd h hc.2

theorem authorityBody_colon {n : Nat} {k : Option Nat} (hc : u.c = chColon) (hn : 0 < n) :
    authorityBody u ⟨n, k, h⟩ =
      .next (u.emit [chColon], ⟨n + 1, some (u.buf.length + 1), h⟩) := by
  unfold authorityBody
  rw [if_neg (by rw [hc]; decide), if_neg (by rw [hc]; decide), if_neg (by rw [hc]; decide),
    if_pos ⟨hc, hn⟩]
  dsimp only [UrlParser.emit]
  rw [length_append, length_singleton]

theorem authorityBody_at {n : Nat} (hc : u.c = chAt) :
    authorityBody u ⟨n, none, h⟩ = .next (u.cut, ⟨n, none, { h with user := some u.buf }⟩) ∧
      ∀ j, authorityBody u ⟨n, some j, h⟩ = .next (u.cut, ⟨1, none,
        { h with user := some (u.buf.take (j - 1)), pass := some (u.buf.drop j) }⟩) := by
  unfold authorityBody
  refine ⟨?_, fun j => ?_⟩
  all_goals
    rw [if_neg (by rw [hc]; decide), if_neg (by rw [hc]; decide), if_neg (by rw [hc]; decide),
      if_neg (by rw [hc]; exact fun h => absurd h.1 (by decide)), if_pos hc]

/-! ## Reading back -/

theorem kEscapeAuthority_text : ∀ c : UInt8,
    (kEscapeAuthority c = false ∨ c = chPercent ∨ isHex c = true) → authorityByte c = true := by
  decide +kernel

theorem kEscapeIp_text : ∀ c : UInt8,
    (kEscapeIp c = false ∨ c = chPercent ∨ isHex c = true) → ipByte c = true := by
  decide +kernel

theorem authorityByte_calm (c : UInt8) (h : authorityByte c = true) : stopByte c = false := by
  simp only [authorityByte, ipByte, Bool.and_eq_true, Bool.not_eq_true'] at h
  exact h.1.1.1.1

/-- The last character of a part of the authority: one of its own, unless the part is empty. -/
def LastOf (text : Bytes) (before c : UInt8) : Prop :=
  (text = [] ∧ c = before) ∨ (text ≠ [] ∧ stopByte c = false)

theorem LastOf.trans {s t : Bytes} {a b : UInt8} (h1 : LastOf s a b) (h2 : LastOf t b c) :
    LastOf (s ++ t) a c := by
  rcases h2 with ⟨rfl, rfl⟩ | ⟨hne, hc⟩
  · rwa [append_nil]
  · exact .inr ⟨by simp [hne], hc⟩

theorem whileInput_authority (v : Bytes) (hl1 : u.f.latin1 = false) (ht : Closed t)
    (hr : u.rest = escapeUrlView kEscapeAuthority v ++ t) :
    ∃ c, LastOf (escapeUrlView kEscapeAuthority v) u.c c ∧
      whileInput authorityBody u x =
        whileInput authorityBody (u.moved (u.buf ++ v) c t) x := by
  obtain ⟨c, hc, hloop⟩ := whileInput_escapeUrlView (x := x) authorityByte (by decide)
    kEscapeAuthority_text consumes_authorityBody ht hl1 (fun w hw _ => authorityBody_text hw) hr
  refine ⟨c, ?_, hloop⟩
  rcases hc with ⟨rfl, rfl⟩ | ⟨hne, hc⟩
  · exact .inl ⟨rfl, rfl⟩
  · exact .inr ⟨escapeUrlView_ne_nil hne, authorityByte_calm c hc⟩

/-- Text, a colon and text behind it: the colon is kept, with the place behind it. -/
theorem whileInput_colon {text : Bytes} (h0 : Url) (hl1 : u.f.latin1 = false) (ht : Closed t)
    (hr : u.rest = chColon :: (escapeUrlView kEscapeAuthority text ++ t)) :
    ∃ c, stopByte c = false ∧ whileInput authorityBody u ⟨1, none, h0⟩ =
      whileInput authorityBody (u.moved (u.buf ++ [chColon] ++ text) c t) ⟨2, some (u.buf.length + 1), h0⟩ := by
  obtain ⟨c, hc, hloop⟩ := whileInput_authority
    (u := u.moved (u.buf ++ [chColon]) chColon (escapeUrlView kEscapeAuthority text ++ t))
    (x := ⟨2, some (u.buf.length + 1), h0⟩) text hl1 ht rfl
  refine ⟨c, ?_, (whileInput_next consumes_authorityBody hr (authorityBody_colon rfl (by decide))).trans hloop⟩
  rcases hc with ⟨-, rfl⟩ | ⟨-, hc⟩
  · exact show stopByte chColon = false by decide
  · exact hc

theorem split_colon (a b : Bytes) :
    (a ++ [chColon] ++ b).take (a.length + 1 - 1) = a ∧ (a ++ [chColon] ++ b).drop (a.length + 1) = b := by
  simp

theorem whileInput_user (hl1 : u.f.latin1 = false) (hbuf : u.buf = [])
    (hpass : h.pass ≠ none → h.user ≠ none) (huser0 : h0.user = none) (hpass0 : h0.pass = none)
    (hr : u.rest = encodeUser h ++ t) :
    ∃ c, LastOf (encodeUser h) u.c c ∧
      whileInput authorityBody u ⟨1, none, h0⟩ =
        whileInput authorityBody { u with c := c, rest := t }
          ⟨1, none, { h0 with user := h.user, pass := h.pass }⟩ := by
  have hcalm : ∀ s : Bytes, LastOf (s ++ [chAt]) u.c chAt := fun s => .inr ⟨by simp, by decide⟩
  unfold encodeUser at hr ⊢
  cases hu : h.user with
  | none =>
    have hp : h.pass = none := by
      by_contra hne
      exact hpass hne hu
    have hsame : { h0 with user := none, pass := none } = h0 := by cases h0; simp_all
    rw [hu, nil_append] at hr
    refine ⟨u.c, .inl ⟨rfl, rfl⟩, ?_⟩
    rw [hp, hsame, ← hr]
  | some user =>
    rw [hu] at hr
    cases hp : h.pass with
    | none =>
      rw [hp] at hr
      have hr' : u.rest = escapeUrlView kEscapeAuthority user ++ chAt :: t := by
        rw [hr]; simp
      obtain ⟨c, -, hloop⟩ := whileInput_authority (x := ⟨1, none, h0⟩) user hl1
        (closed_cons (by decide)) hr'
      rw [hbuf, nil_append] at hloop
      have hat : whileInput authorityBody (u.moved user c (chAt :: t)) ⟨1, none, h0⟩ =
          whileInput authorityBody (u.moved [] chAt t) ⟨1, none, { h0 with user := some user }⟩ :=
        whileInput_next consumes_authorityBody rfl (authorityBody_at rfl).1
      refine ⟨chAt, hcalm _, ?_⟩
      rw [hloop, hat, ← hbuf, ← hpass0]
    | some pass =>
      rw [hp] at hr
      set rest := escapeUrlView kEscapeAuthority pass ++ chAt :: t with hrest
      have hr' : u.rest = escapeUrlView kEscapeAuthority user ++ chColon :: rest := by
        rw [hr, hrest]; simp
      obtain ⟨c, -, hloop⟩ := whileInput_authority (x := ⟨1, none, h0⟩) user hl1
        (closed_cons (by decide)) hr'
      rw [hbuf, nil_append] at hloop
      obtain ⟨d, -, hcolon⟩ := whileInput_colon (u := u.moved user c (chColon :: rest)) h0 hl1
        (closed_cons (by decide)) rfl
      have hat := whileInput_next consumes_authorityBody
        (u := u.moved (user ++ [chColon] ++ pass) d (chAt :: t)) (x := ⟨2, some (user.length + 1), h0⟩) rfl
        ((authorityBody_at rfl).2 _)
      refine ⟨chAt, hcalm _, (hloop.trans (hcolon.trans hat)).trans ?_⟩
      show whileInput authorityBody (u.moved [] chAt t) ⟨1, none, { h0 with
        user := some ((user ++ [chColon] ++ pass).take (user.length + 1 - 1))
        pass := some ((user ++ [chColon] ++ pass).drop (user.length + 1)) }⟩ = _
      rw [(split_colon user pass).1, (split_colon user pass).2, ← hbuf]

theorem whileInput_host (h0 : Url) (host : Bytes) (hl1 : u.f.latin1 = false) (hbuf : u.buf = [])
    (ht : Closed t) (hr : u.rest = encodeHost h host ++ t) :
    ∃ c, LastOf (encodeHost h host) u.c c ∧
      whileInput authorityBody u ⟨1, none, h0⟩ =
        whileInput authorityBody (u.moved host c t) ⟨1, none, h0⟩ := by
  unfold encodeHost at hr ⊢
  split_ifs at hr ⊢ with hbr
  · set rest := escapeUrlView kEscapeIp host ++ chClose :: t with hrest
    have hr' : u.rest = chOpen :: rest := by
      rw [hr, hrest]; simp
    have hopen : whileInput authorityBody u ⟨1, none, h0⟩ =
        whileInput authorityBody (u.moved [] chOpen rest) ⟨0, none, h0⟩ := by
      rw [← hbuf]
      exact whileInput_next consumes_authorityBody hr' rfl
    obtain ⟨c, -, hloop⟩ := whileInput_escapeUrlView
      (u := u.moved [] chOpen rest) (x := (⟨0, none, h0⟩ : Authority)) ipByte (by decide) kEscapeIp_text consumes_authorityBody
      (closed_cons (by decide)) hl1 (fun w hw _ => authorityBody_ip hw fun _ => rfl) rfl
    rw [nil_append] at hloop
    have hclose : whileInput authorityBody (u.moved host c (chClose :: t)) ⟨0, none, h0⟩ =
        whileInput authorityBody (u.moved host chClose t) ⟨1, none, h0⟩ :=
      whileInput_next consumes_authorityBody rfl rfl
    refine ⟨chClose, .inr ⟨by simp, by decide⟩, ?_⟩
    rw [hopen, hloop, hclose]
  · obtain ⟨c, hc, hloop⟩ := whileInput_authority (x := ⟨1, none, h0⟩) host hl1 ht hr
    rw [hbuf, nil_append] at hloop
    exact ⟨c, hc, hloop⟩

theorem whileInput_port (h0 : Url) (hl1 : u.f.latin1 = false) (hport0 : h0.port = none) (ht : Closed t)
    (hr : u.rest = encodePort h ++ t) :
    ∃ c x, LastOf (encodePort h) u.c c ∧
      (∃ buf, whileInput authorityBody u ⟨1, none, h0⟩ =
        whileInput authorityBody (u.moved buf c t) x ∧
        ∀ d s, authorityEnd (u.moved buf d s) x =
          (if d = chSlash then u.moved [chSlash] d s else u.moved [] d s,
            { h0 with host := some u.buf, port := h.port })) := by
  unfold encodePort at hr ⊢
  cases hp : h.port with
  | none =>
    rw [hp, nil_append] at hr
    refine ⟨u.c, ⟨1, none, h0⟩, .inl ⟨rfl, rfl⟩, u.buf, ?_, fun d s => ?_⟩
    · rw [← hr]
    · rw [← hport0]
      rfl
  | some port =>
    rw [hp] at hr
    obtain ⟨c, hc, hloop⟩ := whileInput_colon h0 hl1 ht hr
    refine ⟨c, ⟨2, some (u.buf.length + 1), h0⟩, .inr ⟨cons_ne_nil _ _, hc⟩, _, hloop, fun d s => ?_⟩
    unfold authorityEnd
    dsimp only
    rw [if_pos rfl, (split_colon u.buf port).1, (split_colon u.buf port).2]
    rfl

def authorityText (h : Url) (host : Bytes) : Bytes := encodeUser h ++ encodeHost h host ++ encodePort h

theorem closed_encodePort (ht : Closed t) : Closed (encodePort h ++ t) := by
  unfold encodePort
  cases h.port with
  | none => exact ht
  | some port => exact closed_cons (by decide)

theorem parseAuthority_encode {host : Bytes} (hl1 : u.f.latin1 = false) (hbuf : u.buf = [])
    (hpass : h.pass ≠ none → h.user ≠ none) (huser0 : h0.user = none) (hpass0 : h0.pass = none)
    (hport0 : h0.port = none) (ht : ∀ d, t.head? = some d → stopByte d = true)
    (hr : u.rest = authorityText h host ++ t) :
    ∃ c, (t = [] → LastOf (authorityText h host) u.c c) ∧ (∀ d, t.head? = some d → c = d) ∧
      parseAuthority u h0 =
        (if c = chSlash then u.moved [chSlash] c t.tail else u.moved [] c t.tail,
          { h0 with user := h.user, pass := h.pass, host := some host, port := h.port }) := by
  have hclosed : Closed t := by
    intro d hd
    rcases (stopByte_iff d).mp (ht d hd) with rfl | rfl | rfl <;> decide
  rw [authorityText, append_assoc, append_assoc] at hr
  obtain ⟨c1, hc1, hloop1⟩ := whileInput_user hl1 hbuf hpass huser0 hpass0 hr
  obtain ⟨c2, hc2, hloop2⟩ := whileInput_host { h0 with user := h.user, pass := h.pass } (h := h)
    (u := { u with c := c1, rest := encodeHost h host ++ (encodePort h ++ t) })
    host hl1 hbuf (closed_encodePort hclosed) rfl
  obtain ⟨c3, x, hc3, buf, hloop3, hend⟩ := whileInput_port
    { h0 with user := h.user, pass := h.pass } (h := h)
    (u := u.moved host c2 (encodePort h ++ t)) hl1 hport0 hclosed rfl
  have hloop := hloop1.trans (hloop2.trans hloop3)
  unfold parseAuthority
  rw [hloop]
  cases t with
  | nil =>
    refine ⟨c3, fun _ => ?_, by simp, ?_⟩
    · exact (hc1.trans hc2).trans hc3
    · rw [whileInput_nil rfl]
      exact hend c3 []
  | cons d t =>
    refine ⟨d, fun h => absurd h (cons_ne_nil d t), ?_, ?_⟩
    · rintro _ ⟨⟩
      rfl
    · have hstop : whileInput authorityBody (u.moved buf c3 (d :: t)) x = (u.moved buf d t, x) := by
        apply whileInput_stop consumes_authorityBody rfl
        exact if_pos ((stopByte_iff d).mp (ht d rfl))
      rw [hstop]
      exact hend d t

/-! ## The shape of every authority -/

def isBracket (c : UInt8) : Bool := c == chOpen || c == chClose

/-- What holds at the head of every pass, where the loop was entered with `u0` and `h0`. -/
structure AuthorityInv (u0 : UrlParser) (h0 : Url) (v : UrlParser) (x : Authority) : Prop where
  frame : x.h = { h0 with user := x.h.user, pass := x.h.pass }
  pass : x.h.pass ≠ none → x.h.user ≠ none
  flags : v.f = u0.f
  last : (v.c = u0.c ∧ v.rest = u0.rest) ∨ (u0.rest ≠ [] ∧ stopByte v.c = false)
  brackets : (v.buf = [] ∧ x.h.user = none ∧ x.c = none ∧
      (v.rest.all isBracket = u0.rest.all isBracket)) ∨
    ((v.buf ≠ [] ∨ x.h.user ≠ none) ∧ u0.rest.all isBracket = false)

theorem ipByte_spec (h : ipByte c = true) : stopByte c = false ∧ isBracket c = false := by
  simp only [ipByte, Bool.and_eq_true, Bool.not_eq_true', bne_iff_ne, ne_eq] at h
  obtain ⟨⟨⟨hstop, hopen⟩, hclose⟩, -⟩ := h
  exact ⟨hstop, by simp [isBracket, hopen, hclose]⟩

theorem AuthorityInv.not_brackets {u0 v : UrlParser} (hinv : AuthorityInv u0 h0 v x)
    (hr : v.rest = c :: rest) (hc : isBracket c = false) : u0.rest.all isBracket = false := by
  rcases hinv.brackets with ⟨-, -, -, hall⟩ | ⟨-, hall⟩
  · rw [← hall, hr, all_cons, hc, Bool.false_and]
  · exact hall

theorem authorityInv_next {u0 v v' : UrlParser} {x' : Authority} (hinv : AuthorityInv u0 h0 v x)
    (hr : v.rest = c :: rest) (hb : authorityBody (v.read c rest) x = .next (v', x')) :
    AuthorityInv u0 h0 v' x' := by
  obtain ⟨n, k, h⟩ := x
  have hframe : h = { h0 with user := h.user, pass := h.pass } := hinv.frame
  have hstep := authorityBody_step (v.read c rest) n k h
  rw [hb] at hstep
  have hne : u0.rest ≠ [] := by
    rcases hinv.last with ⟨-, h⟩ | ⟨h, -⟩
    · rw [← h, hr]
      exact cons_ne_nil c rest
    · exact h
  -- a bracket leaves no trace
  have hbracket : ∀ n', stopByte c = false → isBracket c = true →
      AuthorityInv u0 h0 (v.read c rest) ⟨n', k, h⟩ := by
    intro n' hstop hbr
    refine ⟨hframe, hinv.pass, hinv.flags, .inr ⟨hne, hstop⟩, ?_⟩
    rcases hinv.brackets with ⟨hbuf, huser, hk, hall⟩ | hother
    · refine .inl ⟨hbuf, huser, hk, ?_⟩
      rw [← hall, hr, all_cons, hbr, Bool.true_and]
      rfl
    · exact .inr hother
  cases hstep with
  | opening hc =>
    have hc' : c = chOpen := hc
    exact hbracket 0 (by rw [hc']; decide) (by rw [hc']; decide)
  | closing hc =>
    have hc' : c = chClose := hc
    exact hbracket 1 (by rw [hc']; decide) (by rw [hc']; decide)
  | colon hc hn =>
    have hc' : c = chColon := hc
    refine ⟨hframe, hinv.pass, hinv.flags, .inr ⟨hne, ?_⟩, .inr ⟨.inl (by simp [UrlParser.emit]), ?_⟩⟩
    · exact show stopByte c = false by rw [hc']; decide
    · exact hinv.not_brackets hr (by rw [hc']; decide)
  | pass hc j hk | user hc hk =>
    have hc' : c = chAt := hc
    refine ⟨by rw [hframe], fun _ => Option.some_ne_none _, hinv.flags, .inr ⟨hne, ?_⟩,
      .inr ⟨.inr (Option.some_ne_none _), ?_⟩⟩
    · exact show stopByte c = false by rw [hc']; decide
    · exact hinv.not_brackets hr (by rw [hc']; decide)
  | text hc =>
    obtain ⟨hstop, hbr⟩ := ipByte_spec hc
    refine ⟨hframe, hinv.pass, (parseText_f _).trans hinv.flags, .inr ⟨hne, ?_⟩, .inr ⟨.inl (parseText_buf _), ?_⟩⟩
    · rw [parseText_c]
      exact hstop
    · exact hinv.not_brackets hr hbr

theorem authorityEnd_shape (v : UrlParser) (n : Nat) (k : Option Nat) (h : Url) (hport : h.port = none) :
    ∃ host port, authorityEnd v ⟨n, k, h⟩ =
        (if v.c = chSlash then v.cut.emit [chSlash] else v.cut,
          { h with host := some host, port := port }) ∧
      (port = none → host = v.buf) ∧ (k = none → port = none) := by
  cases k with
  | none =>
    refine ⟨v.buf, none, ?_, fun _ => rfl, fun _ => rfl⟩
    rw [← hport]
    rfl
  | some j =>
    by_cases hn : n = 2
    · refine ⟨v.buf.take (j - 1), some (v.buf.drop j), ?_, fun h => absurd h (Option.some_ne_none _),
        fun h => absurd h (Option.some_ne_none _)⟩
      unfold authorityEnd
      dsimp only
      rw [if_pos hn]
      rfl
    · refine ⟨v.buf, none, ?_, fun _ => rfl, fun _ => rfl⟩
      unfold authorityEnd
      dsimp only
      rw [if_neg hn, ← hport]
      rfl

theorem parseAuthority_shape (hbuf : u.buf = []) (huser0 : h0.user = none) (hpass0 : h0.pass = none)
    (hport0 : h0.port = none) :
    ∃ v user pass host port,
      parseAuthority u h0 =
        (v, { h0 with user := user, pass := pass, host := some host, port := port }) ∧
      (pass ≠ none → user ≠ none) ∧ v.f = u.f ∧ v.buf = (if v.c = chSlash then [chSlash] else []) ∧
      ((stopByte v.c = true ∧ u.rest.all isBracket = false) ∨
        (v.rest = [] ∧ (v.c = u.c ∧ u.rest = [] ∨ u.rest ≠ [] ∧ stopByte v.c = false) ∧
          (u.rest.all isBracket = true ↔ host = [] ∧ user = none ∧ port = none))) := by
  have hinv : AuthorityInv u h0 u ⟨1, none, h0⟩ :=
    ⟨rfl, fun h => absurd hpass0 h, rfl, .inl ⟨rfl, rfl⟩, .inl ⟨hbuf, huser0, rfl, rfl⟩⟩
  have hpost := whileInput_invariant consumes_authorityBody (AuthorityInv u h0)
    (fun v x => x.h = { h0 with user := x.h.user, pass := x.h.pass } ∧
      (x.h.pass ≠ none → x.h.user ≠ none) ∧ v.f = u.f ∧
      ((stopByte v.c = true ∧ u.rest.all isBracket = false) ∨
        (v.rest = [] ∧ (v.c = u.c ∧ u.rest = [] ∨ u.rest ≠ [] ∧ stopByte v.c = false) ∧
          ((v.buf = [] ∧ x.h.user = none ∧ x.c = none ∧ u.rest.all isBracket = true) ∨
            ((v.buf ≠ [] ∨ x.h.user ≠ none) ∧ u.rest.all isBracket = false)))))
    (fun v x c rest v' x' hinv hr hb => authorityInv_next hinv hr hb) ?_ ?_ hinv
  · unfold parseAuthority
    generalize whileInput authorityBody u ⟨1, none, h0⟩ = r at hpost
    obtain ⟨v, n, k, h⟩ := r
    obtain ⟨hframe, hpass, hflags, hends⟩ := hpost
    obtain ⟨user, pass, rfl⟩ :
        ∃ user pass, h = { h0 with user := user, pass := pass } := ⟨_, _, hframe⟩
    dsimp only at hpass hflags hends ⊢
    obtain ⟨host, port, hend, hhost, hport⟩ :=
      authorityEnd_shape v n k { h0 with user := user, pass := pass } hport0
    have hc : (if v.c = chSlash then v.cut.emit [chSlash] else v.cut).c = v.c := by split <;> rfl
    have hrest : (if v.c = chSlash then v.cut.emit [chSlash] else v.cut).rest = v.rest := by
      split <;> rfl
    refine ⟨if v.c = chSlash then v.cut.emit [chSlash] else v.cut, user, pass, host, port, hend, hpass,
      ?_, ?_, ?_⟩
    · split <;> exact hflags
    · rw [hc]
      split <;> rfl
    · rw [hc, hrest]
      refine hends.imp_right fun ⟨hr, hlast, hbr⟩ => ⟨hr, hlast, ?_⟩
      rcases hbr with ⟨hb, hu, hk, hall⟩ | ⟨hne, hall⟩
      · exact ⟨fun _ => ⟨(hhost (hport hk)).trans hb, hu, hport hk⟩, fun _ => hall⟩
      · rw [hall]
        refine ⟨fun h => absurd h (by decide), fun ⟨hh, hu, hp⟩ => ?_⟩
        exact absurd ((hhost hp).symm.trans hh) (hne.resolve_right (not_not.mpr hu))
  · rintro v ⟨n, k, h⟩ c rest v' x' hinv hr hb
    have hstep := authorityBody_step (v.read c rest) n k h
    rw [hb] at hstep
    cases hstep with
    | stop hc =>
      refine ⟨hinv.frame, hinv.pass, hinv.flags, .inl ⟨hc, hinv.not_brackets hr ?_⟩⟩
      rcases (stopByte_iff c).mp hc with rfl | rfl | rfl <;> decide
  · rintro v x hinv hr
    refine ⟨hinv.frame, hinv.pass, hinv.flags, .inr ⟨hr, ?_, ?_⟩⟩
    · exact hinv.last.imp_left fun ⟨hc, hrest⟩ => ⟨hc, by rw [← hrest, hr]⟩
    · refine hinv.brackets.imp_left fun ⟨hb, hu, hk, hall⟩ => ⟨hb, hu, hk, ?_⟩
      rw [← hall, hr]
      rfl

end CosmoRuby.UrlCodec