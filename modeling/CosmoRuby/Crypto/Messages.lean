import CosmoRuby.Crypto.Openssl

/-!
# Authenticated messages

What the user of an `OpenSSL::Cipher` has given for the message in work, and how far the object agrees
with it. A message ends when the object is rewound: `encrypt`, `decrypt` and `reset` begin a new one,
and so do `key=` and `iv=` once the message was started.
-/

namespace CosmoRuby.Crypto

open Lib List

inductive Method where
  | setOperation (op : Operation)
  | setKey (key : Bytes)
  | setIv (iv : Bytes)
  | setIvLen (n : Nat)
  | setPadding (on : Bool)
  | setAuthData (data : Bytes)
  | setAuthTagLen (n : Nat)
  | setAuthTag (tag : Bytes)
  | authTag (len : Option Nat)
  | update (data : Bytes)
  | final
  | reset

def Method.exec (m : Mbedtls) : Method → Openssl → Openssl.Result Bytes
  | .setOperation op, x => (.ok [], x.setOperation op)
  | .setKey key, x => ((x.setKey key).1.map fun _ => [], (x.setKey key).2)
  | .setIv iv, x => ((x.setIv iv).1.map fun _ => [], (x.setIv iv).2)
  | .setIvLen n, x => ((x.setIvLen n).1.map fun _ => [], (x.setIvLen n).2)
  | .setPadding on, x => ((x.setPadding on).1.map fun _ => [], (x.setPadding on).2)
  | .setAuthData data, x => ((x.setAuthData data).1.map fun _ => [], (x.setAuthData data).2)
  | .setAuthTagLen n, x => ((x.setAuthTagLen n).1.map fun _ => [], (x.setAuthTagLen n).2)
  | .setAuthTag tag, x => ((x.setAuthTag tag).1.map fun _ => [], (x.setAuthTag tag).2)
  | .authTag len, x => x.authTag m len
  | .update data, x => x.update m data
  | .final, x => x.final m
  | .reset, x => (.ok [], x.reset)

structure Message where
  /-- What was passed to `update`. -/
  data : Bytes
  /-- Set for this message, nothing where it was not. -/
  aad : Bytes
  tag : Option Bytes
  /-- `final` has returned. -/
  final : Bool
  /-- `final` has returned when decrypting. -/
  checked : Bool
  deriving DecidableEq, Repr

def Message.new : Message := ⟨[], [], none, false, false⟩

def Message.after (msg : Message) (x : Openssl) : Method → Message
  | .setOperation _ => .new
  | .reset => .new
  | .setKey _ => if x.c.started then .new else msg
  | .setIv _ => if x.c.started then .new else msg
  | .setAuthData data => { msg with aad := data }
  | .setAuthTag tag => { msg with tag := some tag }
  | .update data => { msg with data := msg.data ++ data }
  | .final => { msg with final := true, checked := msg.checked || x.state = some .decrypt }
  | _ => msg

structure Tracked where
  x : Openssl
  msg : Message

def Tracked.step (m : Mbedtls) (t : Tracked) (method : Method) : Tracked :=
  let r := method.exec m t.x
  ⟨r.2, if r.1.isOk then t.msg.after t.x method else t.msg⟩

def Tracked.run (m : Mbedtls) (methods : List Method) (t : Tracked) : Tracked :=
  methods.foldl (Tracked.step m) t

def Tracked.new (name : String) (info : Info) : Tracked := ⟨.new name info, .new⟩

/-! ## Authenticated messages, and calls that keep messages apart -/

/-- The context was started with what was set, and given `data`. -/
structure Session.Of (s : Session) (operation : Option Operation) (key iv : Option Bytes) (data : Bytes) :
    Prop where
  operation : operation = some s.operation
  key : key = some s.key
  iv : iv = some s.iv
  inputs : s.inputs.flatten = data

/-- The tag was checked with success, on the data of the message, with the additional data and the tag
that were set for it, and left the object in `x'`. -/
def Authenticated (m : Mbedtls) (t : Tracked) (x' : Openssl) : Prop :=
  ∃ s tag, s.Of t.x.c.operation t.x.c.key t.x.c.iv t.msg.data ∧ s.operation = .decrypt ∧
    s.aad = t.msg.aad ∧ t.msg.tag = some tag ∧ m.tag s tag.length = some tag ∧ x'.c.ctx = some (s.use (.tag tag.length))

def Produced (m : Mbedtls) (t : Tracked) (bytes : Bytes) : Prop :=
  t.msg.final = true ∧ t.x.c.pending = [] ∧
    ∃ s tag, s.Of t.x.c.operation t.x.c.key t.x.c.iv t.msg.data ∧ s.operation = .encrypt ∧
      m.tag s 16 = some tag ∧ bytes <+: tag

def Fresh (t : Tracked) : Prop := t.x.c.aad = t.msg.aad ∧ t.x.expectedTag = t.msg.tag

/-- A call that leaves nothing of the last message: `key=` and `iv=` keep the expected tag and the
additional data, `reset` the additional data. -/
def Safe (x : Openssl) : Method → Prop
  | .setKey _ => x.c.started = true → x.expectedTag = none ∧ x.c.aad = []
  | .setIv _ => x.c.started = true → x.expectedTag = none ∧ x.c.aad = []
  | .reset => x.c.aad = []
  | _ => True

def SafeRun (m : Mbedtls) : Tracked → List Method → Prop
  | _, [] => True
  | t, method :: methods => Safe t.x method ∧ SafeRun m (t.step m method) methods

/-! ## The object during a message -/

structure Total (m : Mbedtls) : Prop where
  accepts : ∀ s x, m.accepts s x = true
  finish : ∀ s, m.finish s = some []

structure Tracks (m : Mbedtls) (t : Tracked) : Prop where
  aead : cipherIsAead t.x.c = true
  state : t.x.state = t.x.c.operation
  short : t.x.c.pending.length < 16
  idle : t.x.c.started = false → t.msg.data = [] ∧ t.msg.checked = false ∧ t.x.finalized = false ∧
    t.x.c.finished = false ∧ t.x.c.tagReady = false
  live : t.x.c.started = true → ∃ s data, t.x.c.ctx = some s ∧
    s.Of t.x.c.operation t.x.c.key t.x.c.iv data ∧ s.aad = t.x.c.aad ∧ t.msg.data = data ++ t.x.c.pending
  flushed : t.x.c.finished = true → t.x.c.pending = []
  finalized : t.x.finalized = true → t.x.c.finished = true ∧ (t.x.state = some .encrypt → t.msg.final = true)
  checked : t.msg.checked = true → t.x.c.tagChecked = true
  tagged : t.x.c.tagReady = true → t.x.c.finished = true ∧
    ∃ s, s.Of t.x.c.operation t.x.c.key t.x.c.iv t.msg.data ∧ s.operation = .encrypt ∧
      m.tag s 16 = some t.x.c.tag

/-- What a call keeps, and what it keeps where it is safe. -/
structure Keeps (m : Mbedtls) (safe : Prop) (t t' : Tracked) : Prop where
  tracks : Tracks m t'
  fresh : safe → Fresh t → Fresh t'

variable {m : Mbedtls} {t : Tracked} {x x' : Openssl} {msg : Message} {c : Cipher}

theorem tracks_rewind (haead : cipherIsAead c = true) (hc : x.c = cipherRewind c)
    (hstate : x.state = c.operation) (hfinalized : x.finalized = false) (hdata : msg.data = [])
    (hchecked : msg.checked = false) : Tracks m ⟨x, msg⟩ := by
  constructor
  all_goals dsimp only
  all_goals rw [hc]
  · exact haead
  · exact hstate
  · exact Nat.succ_pos 15
  · exact fun _ => ⟨hdata, hchecked, hfinalized, rfl, rfl⟩
  · exact fun h => by cases h
  · exact fun h => by cases h
  · rw [hfinalized]
    exact fun h => by cases h
  · rw [hchecked]
    exact fun h => by cases h
  · exact fun h => by cases h

theorem Tracks.started_of_finished (h : Tracks m t) (hfinished : t.x.c.finished = true) :
    t.x.c.started = true := by
  by_contra hne
  rw [(h.idle (Bool.eq_false_of_not_eq_true hne)).2.2.2.1] at hfinished
  cases hfinished

def Rewound (x : Openssl) (r : Openssl.Result Unit) : Prop :=
  (∃ e, r = (.error e, x)) ∨ ∃ c, r = (.ok (), { x with c := cipherRewind c, finalized := false }) ∧
    c.info = x.c.info ∧ c.operation = x.c.operation ∧ c.aad = x.c.aad

theorem rewound_setKey (x : Openssl) (key : Bytes) : Rewound x (x.setKey key) := by
  unfold Openssl.setKey cipherSetKey
  split_ifs
  · exact Or.inl ⟨_, rfl⟩
  · exact Or.inl ⟨_, rfl⟩
  · exact Or.inr ⟨_, rfl, rfl, rfl, rfl⟩

theorem rewound_guardSetter_setIv (x : Openssl) (iv : Bytes) :
    Rewound x (x.guardSetter (cipherSetIv iv x.c)) := by
  unfold cipherSetIv
  split_ifs
  · exact Or.inl ⟨_, rfl⟩
  · exact Or.inr ⟨_, rfl, rfl, rfl, rfl⟩
  · exact Or.inl ⟨_, rfl⟩
  · exact Or.inr ⟨_, rfl, rfl, rfl, rfl⟩

theorem rewound_setIv (x : Openssl) (iv : Bytes) : Rewound x (x.setIv iv) := by
  have hset := rewound_guardSetter_setIv x iv
  unfold Openssl.setIv
  split
  · split_ifs
    · exact Or.inl ⟨_, rfl⟩
    · exact hset
  · split_ifs
    · exact Or.inl ⟨_, rfl⟩
    · exact hset
    · exact Or.inl ⟨_, rfl⟩
    · exact hset

theorem Tracks.rewound (h : Tracks m ⟨x, msg⟩) {r : Openssl.Result Unit} (hr : Rewound x r) :
    Keeps m (x.c.started = true → x.expectedTag = none ∧ x.c.aad = []) ⟨x, msg⟩ ⟨r.2,
      if (r.1.map fun _ => ([] : Bytes)).isOk then if x.c.started then .new else msg else msg⟩ := by
  rcases hr with ⟨e, rfl⟩ | ⟨c, rfl, hinfo, hop, haad⟩
  · exact ⟨h, fun _ => id⟩
  · have haead : cipherIsAead c = true := by
      rw [cipherIsAead, hinfo]
      exact h.aead
    have hstate := h.state.trans hop.symm
    cases hstarted : x.c.started with
    | true =>
      exact ⟨tracks_rewind haead rfl hstate rfl rfl rfl, fun hsafe _ => ⟨haad.trans (hsafe rfl).2, (hsafe rfl).1⟩⟩
    | false =>
      obtain ⟨hdata, hchecked, -⟩ := h.idle hstarted
      exact ⟨tracks_rewind haead rfl hstate rfl hdata hchecked, fun _ hf => ⟨haad.trans hf.1, hf.2⟩⟩

theorem tracks_start (m : Mbedtls) (h : Tracks m ⟨x, msg⟩) :
    Tracks m ⟨{ x with c := (cipherStart m x.c).2 }, msg⟩ := by
  rcases cipherStart_cases m x.c with ⟨-, heq⟩ | ⟨s, c', heq, hopened⟩ | ⟨e, c', heq, hrefused⟩
  · rw [heq]
    exact h
  · obtain ⟨hdata, hchecked, hfinalized, -, -⟩ := h.idle hopened.idle
    obtain ⟨iv, hiv, hc'⟩ := hopened.state
    have hiv' := hiv h.aead
    rw [heq, hc', hiv']
    refine ⟨h.aead, h.state, Nat.succ_pos 15, (fun hs => by cases hs), ?_, (fun hf => by cases hf), ?_, ?_,
      fun ht => by cases ht⟩
    · intro _
      refine ⟨s, [], rfl, ⟨hopened.operation, hopened.key, hopened.iv h.aead, ?_⟩, hopened.aad h.aead, hdata⟩
      rw [Session.inputs, hopened.uses]
      rfl
    · intro hf
      exact absurd hf (by rw [hfinalized]; decide)
    · intro hch
      exact absurd hch (by rw [hchecked]; decide)
  · obtain ⟨iv, ctx, hiv, -, hc'⟩ := hrefused.state
    have hiv' := hiv h.aead
    have hidle := hrefused.idle
    rw [heq, hc', hiv']
    refine { h with live := ?_ }
    intro hs
    exact absurd hs (by rw [hidle]; decide)

section

variable {s : Session} {operation : Option Operation} {key iv : Option Bytes} {data : Bytes}

section

variable (h : s.Of operation key iv data)
include h

theorem Session.Of.update (piece : Bytes) :
    (s.use (.update piece)).Of operation key iv (data ++ piece) := by
  refine { h with inputs := ?_ }
  rw [inputs_use_update, flatten_append, flatten_singleton, h.inputs]

theorem Session.Of.finish : (s.use .finish).Of operation key iv data := by
  refine { h with inputs := ?_ }
  rw [inputs_use_finish, h.inputs]

theorem Session.Of.tag (n : Nat) : (s.use (.tag n)).Of operation key iv data := by
  refine { h with inputs := ?_ }
  rw [inputs_use_tag, h.inputs]

end

theorem cipherFeed_total (hm : Total m) (haead : cipherIsAead c = true) (hfinished : c.finished = false)
    (hshort : c.pending.length < 16) (hctx : c.ctx = some s) (h : s.Of operation key iv data)
    (piece : Bytes) :
    ∃ out s' data' pending, cipherFeed m piece c = (.ok out, { c with ctx := some s', pending }) ∧
      s'.Of operation key iv data' ∧ s'.aad = s.aad ∧ pending.length < 16 ∧
      data ++ c.pending ++ piece = data' ++ pending := by
  have hsplit : data ++ c.pending ++ piece =
      data ++ whole 16 (c.pending ++ piece) ++ part 16 (c.pending ++ piece) := by
    rw [append_assoc, append_assoc, whole_append_part]
  have hpart : (part 16 (c.pending ++ piece)).length < 16 := length_part_lt (by decide) _
  rw [cipherFeed_eq haead hfinished hshort]
  split_ifs with hnone
  · rw [hnone, append_nil] at hsplit
    refine ⟨[], s, data, _, ?_, h, rfl, hpart, hsplit⟩
    rw [← hctx]
  · rw [mbedtlsCipherUpdate_eq (hm.accepts s _) hctx]
    exact ⟨_, _, _, _, rfl, h.update _, rfl, hpart, hsplit⟩

end

theorem tracks_feed (hm : Total m) (h : Tracks m ⟨x, msg⟩) (hstarted : x.c.started = true) (piece : Bytes) :
    Tracks m ⟨{ x with c := (cipherFeed m piece x.c).2 },
      if (cipherFeed m piece x.c).1.isOk then { msg with data := msg.data ++ piece } else msg⟩ ∧
      (cipherFeed m piece x.c).2.aad = x.c.aad := by
  cases hfinished : x.c.finished with
  | true =>
    have hfeed : cipherFeed m piece x.c =
        (.error (.crypto "cipher has already been finalized"), x.c) := by
      rw [cipherFeed, if_pos hfinished]
    rw [hfeed]
    exact ⟨h, rfl⟩
  | false =>
    obtain ⟨s, data, hctx, hof, haad, hdata⟩ := h.live hstarted
    obtain ⟨out, s', data', pending, hfeed, hof', haad', hshort, hsplit⟩ :=
      cipherFeed_total hm h.aead hfinished h.short hctx hof piece
    have hunfinished : x.c.finished = true → False := by
      rw [hfinished]
      exact fun hf => by cases hf
    have hidle : x.c.started = false → False := by
      rw [hstarted]
      exact fun hs => by cases hs
    rw [show msg.data = data ++ x.c.pending from hdata]
    rw [show cipherFeed m piece x.c = _ from hfeed]
    exact ⟨⟨h.aead, h.state, hshort, fun hs => (hidle hs).elim,
      fun _ => ⟨s', data', rfl, hof', haad'.trans haad, hsplit⟩, fun hf => (hunfinished hf).elim,
      fun hf => (hunfinished (h.finalized hf).1).elim, h.checked,
      fun ht => (hunfinished (h.tagged ht).1).elim⟩, rfl⟩

theorem cipherUpdate_cases (m : Mbedtls) (piece : Bytes) (c : Cipher) :
    (∃ e, cipherUpdate m piece c = (.error e, (cipherStart m c).2)) ∨
      (cipherStart m c).1 = .ok () ∧ cipherUpdate m piece c = cipherFeed m piece (cipherStart m c).2 := by
  unfold cipherUpdate
  dsimp only
  cases hok : (cipherStart m c).1 with
  | error e => exact Or.inl ⟨e, rfl⟩
  | ok u => exact Or.inr ⟨rfl, rfl⟩

theorem cipherFinal_cases (m : Mbedtls) (c : Cipher) :
    (∃ e, cipherFinal m c = (.error e, (cipherStart m c).2)) ∨
      (cipherStart m c).1 = .ok () ∧ cipherFinal m c = cipherFlush m (cipherStart m c).2 := by
  unfold cipherFinal
  dsimp only
  cases hok : (cipherStart m c).1 with
  | error e => exact Or.inl ⟨e, rfl⟩
  | ok u => exact Or.inr ⟨rfl, rfl⟩

theorem isOk_mapError {α ε ε' : Type} (f : ε → ε') (r : Except ε α) : (r.mapError f).isOk = r.isOk := by
  cases r <;> rfl

theorem cipherStart_keeps (m : Mbedtls) (haead : cipherIsAead c = true) :
    (cipherStart m c).2.info = c.info ∧ (cipherStart m c).2.operation = c.operation ∧
      (cipherStart m c).2.key = c.key ∧ (cipherStart m c).2.iv = c.iv ∧
      (cipherStart m c).2.aad = c.aad := by
  rcases cipherStart_cases m c with ⟨-, heq⟩ | ⟨s, c', heq, hopened⟩ | ⟨e, c', heq, hrefused⟩
  · rw [heq]
    exact ⟨rfl, rfl, rfl, rfl, rfl⟩
  · obtain ⟨iv, hiv, hc'⟩ := hopened.state
    rw [heq, hc']
    exact ⟨rfl, rfl, rfl, hiv haead, rfl⟩
  · obtain ⟨iv, ctx, hiv, -, hc'⟩ := hrefused.state
    rw [heq, hc']
    exact ⟨rfl, rfl, rfl, hiv haead, rfl⟩

theorem keeps_update (hm : Total m) (h : Tracks m t) (piece : Bytes) :
    Keeps m True t (t.step m (.update piece)) := by
  have hstart := tracks_start m h
  have hkept := (cipherStart_keeps m h.aead).2.2.2.2
  unfold Tracked.step Method.exec
  dsimp only
  unfold Openssl.update Openssl.guard
  dsimp only
  rw [isOk_mapError]
  rcases cipherUpdate_cases m piece t.x.c with ⟨e, hupdate⟩ | ⟨hok, hupdate⟩
  · rw [hupdate]
    exact ⟨hstart, fun _ hf => ⟨hkept.trans hf.1, hf.2⟩⟩
  · rw [hupdate]
    obtain ⟨htracks, haad⟩ := tracks_feed hm hstart (cipherStart_ok hok).1 piece
    refine ⟨htracks, fun _ hf => ?_⟩
    split_ifs <;> exact ⟨(haad.trans hkept).trans hf.1, hf.2⟩

/-! ## The end of a message -/

theorem cipherFlush_total (hm : Total m) {s : Session} {operation : Option Operation}
    {key iv : Option Bytes} {data : Bytes} (haead : cipherIsAead c = true) (hctx : c.ctx = some s)
    (h : s.Of operation key iv data) :
    ∃ out s', cipherFlush m c = (.ok out, { c with ctx := some s', pending := [], finished := true }) ∧
      s'.Of operation key iv (data ++ c.pending) ∧ s'.aad = s.aad := by
  unfold cipherFlush
  split_ifs with hpending
  · rw [mbedtlsCipherUpdate_eq (hm.accepts s _) hctx]
    dsimp only
    rw [cipherFinish_eq (hm.finish _) _ rfl]
    exact ⟨_, _, rfl, (h.update _).finish, rfl⟩
  · have hnil : c.pending = [] := by
      by_contra hne
      exact hpending ⟨haead, hne⟩
    rw [cipherFinish_eq (hm.finish _) [] hctx, hnil, append_nil]
    exact ⟨_, _, rfl, h.finish, rfl⟩

/-- The object when all data was processed: what `final` leaves before it checks the tag. -/
structure Flushed (m : Mbedtls) (t : Tracked) (c : Cipher) : Prop where
  info : c.info = t.x.c.info
  operation : c.operation = t.x.c.operation
  key : c.key = t.x.c.key
  iv : c.iv = t.x.c.iv
  aad : c.aad = t.x.c.aad
  started : c.started = true
  finished : c.finished = true
  pending : c.pending = []
  checked : t.msg.checked = true → c.tagChecked = true
  ctx : ∃ s, c.ctx = some s ∧ s.Of t.x.c.operation t.x.c.key t.x.c.iv t.msg.data ∧ s.aad = t.x.c.aad
  tagged : c.tagReady = true → ∃ s, s.Of t.x.c.operation t.x.c.key t.x.c.iv t.msg.data ∧
    s.operation = .encrypt ∧ m.tag s 16 = some c.tag

theorem cipherFinal_total (hm : Total m) (h : Tracks m t) :
    (∃ e, cipherFinal m t.x.c = (.error e, (cipherStart m t.x.c).2)) ∨
      ∃ out c, cipherFinal m t.x.c = (.ok out, c) ∧ Flushed m t c := by
  have hstart := tracks_start m h
  rcases cipherFinal_cases m t.x.c with hfinal | ⟨hok, hfinal⟩
  · exact Or.inl hfinal
  · have hstarted := (cipherStart_ok hok).1
    obtain ⟨s, data, hctx, hof, haad, hdata⟩ := hstart.live hstarted
    obtain ⟨out, s', hflush, hof', haad'⟩ := cipherFlush_total hm hstart.aead hctx hof
    obtain ⟨hinfo, hop, hkey, hiv, hkept⟩ := cipherStart_keeps m h.aead
    have htagged := hstart.tagged
    dsimp only at hof' haad haad' hdata htagged
    rw [← hdata, hop, hkey, hiv] at hof'
    rw [hop, hkey, hiv] at htagged
    refine Or.inr ⟨out, _, hfinal.trans hflush, ⟨hinfo, hop, hkey, hiv, hkept, hstarted, rfl, rfl,
      hstart.checked, ⟨s', rfl, hof', ?_⟩, fun ht => (htagged ht).2⟩⟩
    rw [haad', haad, hkept]

theorem tracks_flushed (h : Tracks m t) {c : Cipher} (hc : Flushed m t c) (hmsg : msg.data = t.msg.data)
    (hfinal : t.x.state = some .encrypt → msg.final = true)
    (hchecked : msg.checked = true → c.tagChecked = true) :
    Tracks m ⟨{ t.x with c, finalized := true }, msg⟩ := by
  obtain ⟨s, hctx, hof, haad⟩ := hc.ctx
  constructor
  all_goals dsimp only
  · rw [cipherIsAead, hc.info]
    exact h.aead
  · rw [hc.operation]
    exact h.state
  · rw [hc.pending]
    exact Nat.succ_pos 15
  · rw [hc.started]
    exact fun hs => by cases hs
  · intro _
    rw [hc.operation, hc.key, hc.iv, hc.aad, hc.pending, hmsg]
    exact ⟨s, _, hctx, hof, haad, (append_nil _).symm⟩
  · exact fun _ => hc.pending
  · exact fun _ => ⟨hc.finished, hfinal⟩
  · exact hchecked
  · intro ht
    rw [hc.operation, hc.key, hc.iv, hmsg]
    exact ⟨hc.finished, hc.tagged ht⟩

theorem Flushed.use_tag {s : Session} (hc : Flushed m t c) (hctx : c.ctx = some s) (n : Nat) :
    Flushed m t { c with tagChecked := true, ctx := some (s.use (.tag n)) } := by
  obtain ⟨s', hctx', hof, haad⟩ := hc.ctx
  cases Option.some.inj (hctx.symm.trans hctx')
  exact { hc with checked := fun _ => rfl, ctx := ⟨_, rfl, hof.tag n, haad⟩ }

/-- The tag of the context was compared with `tag`, for the first time, and is the same. -/
structure CheckedOk (m : Mbedtls) (t : Tracked) (tag : Bytes) (c : Cipher) : Prop where
  once : t.msg.checked = false
  done : c.tagChecked = true
  ctx : ∃ s, c.ctx = some (s.use (.tag tag.length)) ∧
    s.Of t.x.c.operation t.x.c.key t.x.c.iv t.msg.data ∧ s.aad = t.x.c.aad ∧ s.operation = .decrypt ∧
    m.tag s tag.length = some tag

theorem cipherCheckTag_flushed (haead : cipherIsAead t.x.c = true) (hc : Flushed m t c) (tag : Bytes) :
    ∃ r c', cipherCheckTag m tag c = (r, c') ∧ Flushed m t c' ∧ (r = .ok () → CheckedOk m t tag c') := by
  have haead' : cipherIsAead c = true := by
    rw [cipherIsAead, hc.info]
    exact haead
  obtain ⟨s, hctx, hof, haad⟩ := hc.ctx
  unfold cipherCheckTag
  rw [if_neg (by rw [haead']; decide)]
  split_ifs with hchecked
  · exact ⟨_, c, rfl, hc, fun h => by cases h⟩
  · have hfailed : Flushed m t { c with tagChecked := true } := { hc with checked := fun _ => rfl }
    unfold mbedtlsTag
    dsimp only
    rw [hctx] at hfailed ⊢
    dsimp only
    split_ifs with hop
    · cases htag : m.tag s tag.length with
      | none => exact ⟨_, _, rfl, hfailed, fun h => by cases h⟩
      | some tag' =>
        refine ⟨_, _, rfl, hc.use_tag hctx _, ?_⟩
        intro heq
        split_ifs at heq with hsame
        rw [hsame] at htag
        refine ⟨?_, rfl, s, rfl, hof, haad, hop, htag⟩
        by_contra hne
        exact hchecked (hc.checked (Bool.eq_true_of_not_eq_false hne))
    · exact ⟨_, _, rfl, hfailed, fun h => by cases h⟩

theorem final_cases (hm : Total m) (h : Tracks m t) :
    (∃ e, t.x.final m = (.error e, { t.x with c := (cipherStart m t.x.c).2 })) ∨
      ∃ r c, t.x.final m = (r, { t.x with c, finalized := true }) ∧ Flushed m t c ∧
        (r.isOk = false → t.x.state = some .decrypt) ∧
        (r.isOk = true → t.x.state = some .decrypt →
          ∃ tag, t.x.expectedTag = some tag ∧ CheckedOk m t tag c) := by
  have hauth : ∀ c : Cipher, c.info = t.x.c.info →
      ({ t.x with c, finalized := true } : Openssl).authenticated = true := by
    intro c hinfo
    have haead := h.aead
    rw [cipherIsAead, Bool.or_eq_true] at haead
    rw [Openssl.authenticated, hinfo, Bool.or_eq_true, Bool.or_eq_true]
    exact haead.imp_left Or.inl
  unfold Openssl.final
  dsimp only
  rcases cipherFinal_total hm h with ⟨e, hfinal⟩ | ⟨out, c, hfinal, hc⟩
  · rw [hfinal]
    exact Or.inl ⟨_, rfl⟩
  · rw [hfinal]
    dsimp only
    rw [hauth c hc.info]
    right
    by_cases hstate : t.x.state = some .decrypt
    · rw [if_pos ⟨rfl, hstate⟩]
      unfold Openssl.checkTag
      dsimp only
      cases htag : t.x.expectedTag with
      | none => exact ⟨_, c, rfl, hc, fun _ => hstate, fun hr => by cases hr⟩
      | some tag =>
        dsimp only
        split_ifs with hlen
        · exact ⟨_, c, rfl, hc, fun _ => hstate, fun hr => by cases hr⟩
        · obtain ⟨r, c', hcheck, hc', hok⟩ := cipherCheckTag_flushed h.aead hc tag
          rw [hcheck]
          refine ⟨_, c', rfl, hc', fun _ => hstate, fun hr _ => ⟨tag, rfl, hok ?_⟩⟩
          cases r with
          | error e => cases hr
          | ok u => rfl
    · rw [if_neg (fun hs => hstate hs.2)]
      exact ⟨_, c, rfl, hc, (fun hr => by cases hr), fun _ hs => (hstate hs).elim⟩

theorem keeps_final (hm : Total m) (h : Tracks m t) : Keeps m True t (t.step m .final) := by
  unfold Tracked.step Method.exec
  dsimp only
  rcases final_cases hm h with ⟨e, hfinal⟩ | ⟨r, c, hfinal, hc, herror, hok⟩
  · rw [hfinal]
    exact ⟨tracks_start m h, fun _ hf => ⟨(cipherStart_keeps m h.aead).2.2.2.2.trans hf.1, hf.2⟩⟩
  · rw [hfinal]
    dsimp only
    cases hr : r.isOk with
    | false =>
      rw [if_neg Bool.false_ne_true]
      refine ⟨tracks_flushed h hc rfl ?_ hc.checked, fun _ hf => ⟨hc.aad.trans hf.1, hf.2⟩⟩
      rw [herror hr]
      exact fun hs => by cases hs
    | true =>
      rw [if_pos rfl]
      refine ⟨tracks_flushed h hc rfl (fun _ => rfl) ?_, fun _ hf => ⟨hc.aad.trans hf.1, hf.2⟩⟩
      intro hchecked
      rcases (Bool.or_eq_true _ _ ▸ hchecked : t.msg.checked = true ∨ _) with hold | hnew
      · exact hc.checked hold
      · obtain ⟨tag, -, hcheck⟩ := hok hr (of_decide_eq_true hnew)
        exact hcheck.done

theorem authTag_cases (h : Tracks m t) (len : Option Nat) :
    (∃ e, t.x.authTag m len = (.error e, t.x)) ∨
      ∃ bytes c, t.x.authTag m len = (.ok bytes, { t.x with c }) ∧ Produced m t bytes ∧
        c.aad = t.x.c.aad ∧ Tracks m ⟨{ t.x with c }, t.msg⟩ := by
  unfold Openssl.authTag
  split_ifs with hauth hstate hfinalized
  · exact Or.inl ⟨_, rfl⟩
  · exact Or.inl ⟨_, rfl⟩
  · exact Or.inl ⟨_, rfl⟩
  · rw [ne_eq, not_not] at hstate
    obtain ⟨hfinished, hfinal⟩ := h.finalized (Bool.eq_true_of_not_eq_false hfinalized)
    have hstarted := h.started_of_finished hfinished
    have hflushed := h.flushed hfinished
    obtain ⟨s, data, hctx, hof, haad, hdata⟩ := h.live hstarted
    rw [hflushed, append_nil] at hdata
    rw [← hdata] at hof
    unfold Openssl.guard cipherWriteTag
    rw [if_neg (by rw [h.aead]; decide)]
    split_ifs with hlen hready
    · exact Or.inl ⟨_, rfl⟩
    · obtain ⟨-, s₀, hof₀, hop₀, htag₀⟩ := h.tagged hready
      exact Or.inr ⟨_, _, rfl, ⟨hfinal hstate, hflushed, s₀, _, hof₀, hop₀, htag₀, take_prefix _ _⟩, rfl,
        h⟩
    · unfold mbedtlsTag
      rw [hctx]
      dsimp only
      have hop : s.operation = .encrypt := by
        have hset := hof.operation
        rw [← h.state, hstate] at hset
        exact (Option.some.inj hset).symm
      rw [if_pos hop]
      cases htag : m.tag s 16 with
      | none => exact Or.inl ⟨_, rfl⟩
      | some tag =>
        refine Or.inr ⟨_, _, rfl, ⟨hfinal hstate, hflushed, s, tag, hof, hop, htag, take_prefix _ _⟩, rfl,
          ?_⟩
        refine { h with idle := ?_, live := ?_, tagged := ?_ }
        · intro hs
          exact absurd hs (by dsimp only; rw [hstarted]; decide)
        · intro _
          refine ⟨_, _, rfl, hof.tag 16, haad, ?_⟩
          dsimp only
          rw [hflushed, append_nil]
        · exact fun _ => ⟨hfinished, s, hof, hop, htag⟩

/-! ## Every order of calls -/

theorem keeps_setAuthData (h : Tracks m t) (data : Bytes) : Keeps m True t (t.step m (.setAuthData data)) := by
  unfold Tracked.step Method.exec
  dsimp only
  unfold Openssl.setAuthData cipherSetAad
  rw [if_neg (by rw [h.aead]; decide)]
  cases hstarted : t.x.c.started with
  | true => exact ⟨h, fun _ => id⟩
  | false =>
    refine ⟨{ h with idle := fun _ => h.idle hstarted, live := ?_ }, fun _ hf => ⟨rfl, hf.2⟩⟩
    intro hs
    have hs' : t.x.c.started = true := hs
    rw [hstarted] at hs'
    cases hs'

theorem keeps_step (hm : Total m) (h : Tracks m t) (method : Method) :
    Keeps m (Safe t.x method) t (t.step m method) := by
  unfold Tracked.step Method.exec
  cases method with
  | setOperation op =>
    exact ⟨tracks_rewind (c := cipherDropAad { t.x.c with operation := some op }) h.aead rfl rfl rfl rfl rfl,
      fun _ _ => ⟨rfl, rfl⟩⟩
  | setKey key => exact h.rewound (rewound_setKey t.x key)
  | setIv iv => exact h.rewound (rewound_setIv t.x iv)
  | setIvLen n =>
    unfold Openssl.setIvLen
    dsimp only
    split_ifs <;> exact ⟨{ h with }, fun _ => id⟩
  | setPadding on =>
    unfold Openssl.setPadding cipherSetPadding Openssl.guard
    dsimp only
    split_ifs <;> exact ⟨{ h with }, fun _ => id⟩
  | setAuthData data => exact keeps_setAuthData h data
  | setAuthTagLen n =>
    unfold Openssl.setAuthTagLen
    dsimp only
    split_ifs <;> exact ⟨{ h with }, fun _ => id⟩
  | setAuthTag tag =>
    unfold Openssl.setAuthTag
    dsimp only
    cases t.x.authenticated with
    | false => exact ⟨h, fun _ => id⟩
    | true => exact ⟨{ h with }, fun _ hf => ⟨hf.1, rfl⟩⟩
  | authTag len =>
    dsimp only
    rcases authTag_cases h len with ⟨e, htag⟩ | ⟨bytes, c, htag, -, haad, htracks⟩ <;> rw [htag]
    · exact ⟨h, fun _ => id⟩
    · exact ⟨htracks, fun _ hf => ⟨haad.trans hf.1, hf.2⟩⟩
  | update data => exact keeps_update hm h data
  | final => exact keeps_final hm h
  | reset => exact ⟨tracks_rewind h.aead rfl h.state rfl rfl rfl, fun hsafe _ => ⟨hsafe, rfl⟩⟩

theorem keeps_run (hm : Total m) (methods : List Method) (h : Tracks m t) :
    Keeps m (SafeRun m t methods) t (t.run m methods) := by
  induction methods generalizing t with
  | nil => exact ⟨h, fun _ => id⟩
  | cons method methods ih =>
    obtain ⟨htracks, hfresh⟩ := keeps_step hm h method
    exact ⟨(ih htracks).tracks, fun hsafe hf => (ih htracks).fresh hsafe.2 (hfresh hsafe.1 hf)⟩

theorem tracks_new {info : Info} (name : String) (h : cipherIsAead (.new info) = true) :
    Tracks m (.new name info) :=
  tracks_rewind (c := .new info) h rfl rfl rfl rfl rfl

theorem Session.use_inj {s s' : Session} {u u' : Use} (h : s.use u = s'.use u') : s = s' ∧ u = u' := by
  obtain ⟨op, key, iv, aad, padding, uses⟩ := s
  obtain ⟨op', key', iv', aad', padding', uses'⟩ := s'
  simp only [Session.use, Session.mk.injEq] at h
  obtain ⟨rfl, rfl, rfl, rfl, rfl, huses⟩ := h
  obtain ⟨rfl, hu⟩ := append_inj' huses rfl
  exact ⟨rfl, (List.cons.inj hu).1⟩

theorem authenticated_iff {c : Cipher} {tag : Bytes} (htag : t.x.expectedTag = some tag)
    (hc : CheckedOk m t tag c) :
    Authenticated m t { t.x with c, finalized := true } ↔ Fresh t := by
  obtain ⟨s, hctx, hof, haad, hop, hsame⟩ := hc.ctx
  constructor
  · rintro ⟨s', tag', -, -, haad', htag', hsame', hctx'⟩
    obtain ⟨rfl, huse⟩ := Session.use_inj (Option.some.inj (hctx.symm.trans hctx'))
    rw [← Use.tag.inj huse, hsame] at hsame'
    rw [← Option.some.inj hsame'] at htag'
    exact ⟨haad.symm.trans haad', htag.trans htag'.symm⟩
  · rintro ⟨hdata, htag'⟩
    exact ⟨s, tag, hof, hop, haad.trans hdata, htag'.symm.trans htag, hsame, hctx⟩

/-- After any calls: where `final` returns when decrypting, the tag was not checked before, and it was
checked now on the data of the message; with the additional data and the tag that were set for it just
where the object has these, as it has after calls that are safe. `auth_tag` only returns the tag of a
message all of whose data `final` has processed. -/
theorem final_authenticates (m : Mbedtls) (hm : Total m) (name : String) (info : Info)
    (haead : cipherIsAead (.new info) = true) (methods : List Method) :
    (∀ out x', (Tracked.run m methods (.new name info)).x.final m = (.ok out, x') →
      (Tracked.run m methods (.new name info)).x.state = some .decrypt →
        (Tracked.run m methods (.new name info)).msg.checked = false ∧
          (Authenticated m (Tracked.run m methods (.new name info)) x' ↔
            Fresh (Tracked.run m methods (.new name info)))) ∧
      (∀ len bytes x', (Tracked.run m methods (.new name info)).x.authTag m len = (.ok bytes, x') →
        Produced m (Tracked.run m methods (.new name info)) bytes) ∧
      (SafeRun m (.new name info) methods → Fresh (Tracked.run m methods (.new name info))) := by
  obtain ⟨htracks, hfresh⟩ := keeps_run hm methods (tracks_new (m := m) name haead)
  refine ⟨?_, ?_, fun hsafe => hfresh hsafe ⟨rfl, rfl⟩⟩
  · intro out x' hfinal hstate
    rcases final_cases hm htracks with ⟨e, hfinal'⟩ | ⟨r, c, hfinal', hc, -, hok⟩
    · rw [hfinal] at hfinal'
      cases hfinal'
    · rw [hfinal] at hfinal'
      obtain ⟨rfl, rfl⟩ := Prod.mk.inj hfinal'
      obtain ⟨tag, htag, hcheck⟩ := hok rfl hstate
      exact ⟨hcheck.once, authenticated_iff htag hcheck⟩
  · intro len bytes x' htag
    rcases authTag_cases htracks len with ⟨e, htag'⟩ | ⟨bytes', c, htag', hproduced, -⟩
    · rw [htag] at htag'
      cases htag'
    · rw [htag] at htag'
      cases htag'
      exact hproduced

theorem total_flipping : Total flipping := ⟨fun _ _ => rfl, fun _ => rfl⟩

def aes128Gcm : Tracked := .new "AES-128-GCM" ⟨.gcm, 16, 12⟩

/-- Two messages with `reset` between them; only the first has additional data of its own. -/
def twoMessages (aad : Bytes) : List Method :=
  [.setOperation .decrypt, .setKey (List.replicate 16 1), .setIv (List.replicate 12 2), .setAuthData aad,
    .setAuthTag (aad ++ [0x62, 0x63, 0x64, 0x65]), .update [0x62, 0x63, 0x64, 0x65], .final, .reset,
    .setAuthTag (aad ++ [0x66, 0x67, 0x68, 0x69]), .update [0x66, 0x67, 0x68, 0x69]]

theorem final_authenticates_twoMessages : ∃ out x',
    (Tracked.run flipping (twoMessages []) aes128Gcm).x.final flipping = (.ok out, x') ∧
      Authenticated flipping (Tracked.run flipping (twoMessages []) aes128Gcm) x' := by
  have hfinal := final_authenticates flipping total_flipping "AES-128-GCM" ⟨.gcm, 16, 12⟩ rfl (twoMessages [])
  have hsafe : SafeRun flipping aes128Gcm (twoMessages []) :=
    ⟨trivial, nofun, nofun, trivial, trivial, trivial, trivial, rfl, trivial, trivial, trivial⟩
  exact ⟨_, _, rfl, (hfinal.1 _ _ rfl rfl).2.mpr (hfinal.2.2 hsafe)⟩

/-- After `reset` the second message has no additional data, and is checked with that of the first. -/
theorem not_authenticated_reset : ∃ out x',
    (Tracked.run flipping (twoMessages [0x61]) aes128Gcm).x.final flipping = (.ok out, x') ∧
      ¬Authenticated flipping (Tracked.run flipping (twoMessages [0x61]) aes128Gcm) x' := by
  refine ⟨_, _, rfl, ?_⟩
  rintro ⟨s, tag, -, -, haad, -, -, hctx⟩
  have haads := congrArg (Option.map Session.aad) hctx
  rw [Option.map_some, show (s.use (.tag tag.length)).aad = s.aad from rfl, haad] at haads
  revert haads
  decide

end CosmoRuby.Crypto