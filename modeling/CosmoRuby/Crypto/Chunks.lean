import CosmoRuby.Crypto.Cipher

/-!
# Messages in pieces

An authenticated cipher holds partial blocks back, so that mbedtls only sees whole blocks before the
last piece. The output is that of one call with the whole message, however it is split.
-/

namespace CosmoRuby.Crypto

open Lib List

def Session.Aligned (s : Session) : Prop := ∀ x ∈ s.inputs, 16 ∣ x.length

/-- `mbedtls_cipher_update` as a stream that keeps lengths. It may be called with whole blocks, and last
with any length. -/
structure Streams (m : Mbedtls) : Prop where
  accepts : ∀ s x, s.Aligned → m.accepts s x = true
  length : ∀ s x, s.Aligned → (m.crypt s x).length = x.length
  append : ∀ s x y, s.Aligned → 16 ∣ x.length →
    m.crypt s (x ++ y) = m.crypt s x ++ m.crypt (s.use (.update x)) y
  finish : ∀ s, m.finish s = some []

def cipherUpdates (m : Mbedtls) : List Bytes → Cipher → Leaves Bytes
  | [], c => (.ok [], c)
  | x :: xs, c =>
    let r := cipherUpdate m x c
    match r.1 with
    | .error e => (.error e, r.2)
    | .ok out =>
      let r' := cipherUpdates m xs r.2
      (r'.1.map (out ++ ·), r'.2)

def cipherMessage (m : Mbedtls) (pieces : List Bytes) (c : Cipher) : Leaves Bytes :=
  let r := cipherUpdates m pieces c
  match r.1 with
  | .error e => (.error e, r.2)
  | .ok out =>
    let r' := cipherFinal m r.2
    (r'.1.map (out ++ ·), r'.2)

variable {m : Mbedtls} {c : Cipher} {s s' : Session} {x y out : Bytes}

@[simp] theorem inputs_use_update (s : Session) (x : Bytes) :
    (s.use (.update x)).inputs = s.inputs ++ [x] := by
  simp [Session.inputs, Session.use]

@[simp] theorem inputs_use_finish (s : Session) : (s.use .finish).inputs = s.inputs := by
  simp [Session.inputs, Session.use]

@[simp] theorem inputs_use_tag (s : Session) (n : Nat) : (s.use (.tag n)).inputs = s.inputs := by
  simp [Session.inputs, Session.use]

theorem inputs_of_uses (h : s.uses = []) : s.inputs = [] := by
  rw [Session.inputs, h]
  rfl

theorem cipherStart_started (h : c.started = true) : cipherStart m c = (.ok (), c) := by
  rw [cipherStart, if_pos h]

theorem Session.Aligned.use_update (h : s.Aligned) (hx : 16 ∣ x.length) :
    (s.use (.update x)).Aligned := by
  intro y hy
  rw [inputs_use_update, mem_append, mem_singleton] at hy
  rcases hy with hy | rfl
  · exact h y hy
  · exact hx

/-! ## Feeding a started context -/

/-- The context `s'` is `s` after the whole blocks `x`, for which `out` was returned. -/
structure Fed (m : Mbedtls) (s s' : Session) (x out : Bytes) : Prop where
  aligned : s'.Aligned
  inputs : s'.inputs.flatten = s.inputs.flatten ++ x
  crypt : ∀ y, m.crypt s (x ++ y) = out ++ m.crypt s' y

theorem Fed.refl (h : s.Aligned) : Fed m s s [] [] where
  aligned := h
  inputs := (append_nil _).symm
  crypt _ := rfl

theorem Fed.update (hm : Streams m) (h : Fed m s s' x out) (hy : 16 ∣ y.length) :
    Fed m s (s'.use (.update y)) (x ++ y) (out ++ m.crypt s' y) where
  aligned := h.aligned.use_update hy
  inputs := by
    rw [inputs_use_update, flatten_append, h.inputs, flatten_singleton, append_assoc]
  crypt z := by
    rw [append_assoc, h.crypt, hm.append s' y z h.aligned hy, append_assoc]

/-- A message that was started, and of which the pieces that make `data` were given. -/
structure Midway (m : Mbedtls) (s : Session) (data out : Bytes) (c : Cipher) : Prop where
  aead : cipherIsAead c = true
  started : c.started = true
  finished : c.finished = false
  pending : c.pending = part 16 data
  fed : ∃ s', c.ctx = some s' ∧ Fed m s s' (whole 16 data) out

theorem part_pending (data piece : Bytes) :
    whole 16 (data ++ piece) = whole 16 data ++ whole 16 (part 16 data ++ piece) ∧
      part 16 (data ++ piece) = part 16 (part 16 data ++ piece) := by
  have hlength := length_whole 16 data
  have hsplit : data ++ piece = whole 16 data ++ (part 16 data ++ piece) := by
    rw [← append_assoc, whole_append_part]
  have hdiv : (data ++ piece).length / 16 * 16 =
      (whole 16 data).length + (part 16 data ++ piece).length / 16 * 16 := by
    have htotal : (data ++ piece).length = (whole 16 data).length + (part 16 data ++ piece).length := by
      rw [← length_append, ← hsplit]
    omega
  constructor
  · rw [whole, hdiv, hsplit, take_length_add_append]
    rfl
  · rw [part, hdiv, hsplit, drop_length_add_append]
    rfl

theorem cipherFeed_eq (haead : cipherIsAead c = true) (hfinished : c.finished = false)
    (hshort : c.pending.length < 16) (piece : Bytes) :
    cipherFeed m piece c =
      if whole 16 (c.pending ++ piece) = [] then
        (.ok [], { c with pending := part 16 (c.pending ++ piece) })
      else mbedtlsCipherUpdate m (whole 16 (c.pending ++ piece))
        { c with pending := part 16 (c.pending ++ piece) } := by
  have hlength := length_whole 16 (c.pending ++ piece)
  unfold cipherFeed
  dsimp only
  rw [if_neg (by rw [hfinished]; decide), if_pos haead, ← length_append]
  by_cases hzero : (c.pending ++ piece).length / 16 * 16 = 0
  · have hall : part 16 (c.pending ++ piece) = c.pending ++ piece := by
      rw [part, hzero, drop_zero]
    rw [if_pos hzero, if_pos (List.length_eq_zero_iff.mp (hlength.trans hzero)), hall]
  · have hle : c.pending.length ≤ (c.pending ++ piece).length / 16 * 16 := by omega
    rw [if_neg hzero, if_neg (fun h => hzero (hlength.symm.trans (List.length_eq_zero_iff.mpr h))),
      whole_append hle, part_append hle]

theorem mbedtlsCipherUpdate_eq (haccepts : m.accepts s x = true) (hctx : c.ctx = some s)
    (pending : Bytes) :
    mbedtlsCipherUpdate m x { c with pending } =
      (.ok (m.crypt s x), { c with pending, ctx := some (s.use (.update x)) }) := by
  unfold mbedtlsCipherUpdate
  dsimp only
  rw [hctx]
  exact if_pos haccepts

theorem Midway.feed (hm : Streams m) {data : Bytes} (h : Midway m s data out c) (piece : Bytes) :
    ∃ out' c', cipherUpdate m piece c = (.ok out', c') ∧ Midway m s (data ++ piece) (out ++ out') c' := by
  obtain ⟨haead, hstarted, hfinished, hpending, s', hctx, hfed⟩ := h
  obtain ⟨hwhole, hpart⟩ := part_pending data piece
  have hshort : c.pending.length < 16 := by
    rw [hpending]
    exact length_part_lt (by decide) data
  unfold cipherUpdate
  rw [cipherStart_started hstarted]
  dsimp only
  rw [cipherFeed_eq haead hfinished hshort, hpending]
  split_ifs with hnone
  · refine ⟨_, _, rfl, haead, hstarted, hfinished, hpart.symm, s', hctx, ?_⟩
    rw [hwhole, hnone, append_nil, append_nil]
    exact hfed
  · rw [mbedtlsCipherUpdate_eq (hm.accepts s' _ hfed.aligned) hctx]
    refine ⟨_, _, rfl, haead, hstarted, hfinished, hpart.symm, _, rfl, ?_⟩
    rw [hwhole]
    exact hfed.update hm (dvd_length_whole 16 _)

theorem Midway.updates (hm : Streams m) {data : Bytes} (h : Midway m s data out c) (pieces : List Bytes) :
    ∃ out' c', cipherUpdates m pieces c = (.ok out', c') ∧
      Midway m s (data ++ pieces.flatten) (out ++ out') c' := by
  induction pieces generalizing data out c with
  | nil =>
    refine ⟨[], c, rfl, ?_⟩
    rwa [flatten_nil, append_nil, append_nil]
  | cons piece pieces ih =>
    obtain ⟨out₁, c₁, hupdate, h₁⟩ := h.feed hm piece
    obtain ⟨out₂, c₂, hupdates, h₂⟩ := ih h₁
    refine ⟨out₁ ++ out₂, c₂, ?_, ?_⟩
    · rw [cipherUpdates, hupdate]
      dsimp only
      rw [hupdates]
      rfl
    · rwa [flatten_cons, ← append_assoc, ← append_assoc]

/-- What is returned for the whole message, and what mbedtls was given for it. -/
structure Whole (m : Mbedtls) (s : Session) (data out : Bytes) (c : Cipher) : Prop where
  pending : c.pending = []
  finished : c.finished = true
  crypt : out = m.crypt s data
  inputs : ∃ s', c.ctx = some s' ∧ s'.inputs.flatten = s.inputs.flatten ++ data ∧
    ∀ x ∈ s'.inputs.dropLast, 16 ∣ x.length

theorem cipherFinish_eq (hfinish : m.finish s = some []) (tail : Bytes) (hctx : c.ctx = some s) :
    cipherFinish m tail c = (.ok tail, { c with ctx := some (s.use .finish), finished := true }) := by
  unfold cipherFinish mbedtlsCipherFinish
  rw [hctx]
  dsimp only
  rw [hfinish]
  dsimp only
  rw [append_nil]

theorem Midway.final (hm : Streams m) {data : Bytes} (h : Midway m s data out c) :
    ∃ out' c', cipherFinal m c = (.ok out', c') ∧ Whole m s data (out ++ out') c' := by
  obtain ⟨haead, hstarted, hfinished, hpending, s', hctx, hfed⟩ := h
  have hdata := whole_append_part 16 data
  have hcrypt := hfed.crypt (part 16 data)
  unfold cipherFinal
  rw [cipherStart_started hstarted]
  unfold cipherFlush
  dsimp only
  by_cases hnil : c.pending = []
  · rw [if_neg (fun h => h.2 hnil), cipherFinish_eq (hm.finish _) [] hctx]
    have hpart : part 16 data = [] := hpending.symm.trans hnil
    have hempty : m.crypt s' [] = [] := List.length_eq_zero_iff.mp (hm.length s' [] hfed.aligned)
    rw [hdata, hpart, hempty] at hcrypt
    rw [hpart, append_nil] at hdata
    refine ⟨[], _, rfl, hnil, rfl, hcrypt.symm, _, rfl, ?_, ?_⟩
    · rw [inputs_use_finish, hfed.inputs, hdata]
    · intro x hx
      rw [inputs_use_finish] at hx
      exact hfed.aligned x (mem_of_mem_dropLast hx)
  · have hupdate : mbedtlsCipherUpdate m c.pending { c with pending := [] } =
        (.ok (m.crypt s' (part 16 data)), { c with
          pending := []
          ctx := some (s'.use (.update (part 16 data))) }) := by
      rw [mbedtlsCipherUpdate_eq (hm.accepts s' _ hfed.aligned) hctx, hpending]
    rw [if_pos ⟨haead, hnil⟩, hupdate]
    dsimp only
    rw [cipherFinish_eq (hm.finish _) _ rfl]
    rw [hdata] at hcrypt
    refine ⟨_, _, rfl, rfl, rfl, hcrypt.symm, _, rfl, ?_, ?_⟩
    · rw [inputs_use_finish, inputs_use_update, flatten_append, hfed.inputs,
        flatten_singleton, append_assoc, hdata]
    · intro x hx
      rw [inputs_use_finish, inputs_use_update, dropLast_concat] at hx
      exact hfed.aligned x hx

/-! ## Starting a message -/

structure Opened (c : Cipher) (s : Session) (c' : Cipher) : Prop where
  idle : c.started = false
  uses : s.uses = []
  operation : c.operation = some s.operation
  key : c.key = some s.key
  iv : cipherIsAead c = true → c.iv = some s.iv
  aad : cipherIsAead c = true → s.aad = c.aad
  state : ∃ iv, (cipherIsAead c = true → iv = c.iv) ∧ c' = { c with
    iv, ctx := some s, pending := [], finished := false, tagReady := false, tagChecked := false,
    started := true }

structure Refused (c c' : Cipher) : Prop where
  idle : c.started = false
  state : ∃ iv ctx, (cipherIsAead c = true → iv = c.iv) ∧ (ctx = c.ctx ∨ ctx = none) ∧
    c' = { c with iv, ctx }

theorem cipherOpen_cases (m : Mbedtls) {op : Operation} {key : Bytes} (iv : Bytes)
    (iv' : Option Bytes) (hidle : c.started = false) (hop : c.operation = some op) (hkey : c.key = some key)
    (hiv : cipherIsAead c = true → iv' = c.iv ∧ c.iv = some iv) :
    (∃ s c', cipherOpen m op key iv { c with iv := iv' } = (.ok (), c') ∧ Opened c s c') ∨
      (∃ e c', cipherOpen m op key iv { c with iv := iv' } = (.error e, c') ∧ Refused c c') := by
  unfold cipherOpen
  dsimp only
  split
  · rename_i what hwhat
    exact Or.inr ⟨_, _, rfl, hidle, iv', none, fun h => (hiv h).1, Or.inr rfl, rfl⟩
  · refine Or.inl ⟨_, _, rfl, hidle, rfl, hop, hkey, fun h => (hiv h).2, ?_, iv', fun h => (hiv h).1, rfl⟩
    intro h
    exact if_pos h

theorem cipherStart_cases (m : Mbedtls) (c : Cipher) :
    (c.started = true ∧ cipherStart m c = (.ok (), c)) ∨
      (∃ s c', cipherStart m c = (.ok (), c') ∧ Opened c s c') ∨
      (∃ e c', cipherStart m c = (.error e, c') ∧ Refused c c') := by
  unfold cipherStart
  cases hstarted : c.started with
  | true => exact Or.inl ⟨rfl, if_pos rfl⟩
  | false =>
    have hsame : Refused c c := ⟨hstarted, c.iv, c.ctx, fun _ => rfl, Or.inl rfl, rfl⟩
    refine Or.inr ?_
    rw [if_neg Bool.false_ne_true]
    cases hop : c.operation with
    | none => exact Or.inr ⟨_, c, rfl, hsame⟩
    | some op =>
      cases hkey : c.key with
      | none => exact Or.inr ⟨_, c, rfl, hsame⟩
      | some key =>
        dsimp only
        split <;> rename_i hneeds
        · cases hiv : c.iv with
          | some iv =>
            exact cipherOpen_cases m iv c.iv hstarted hop hkey fun _ => ⟨rfl, hiv⟩
          | none =>
            dsimp only
            split <;> rename_i haead
            · exact Or.inr ⟨_, c, rfl, hsame⟩
            · generalize (if c.info.ivSize = 0 ∨ maxIvLength < c.info.ivSize then maxIvLength
                else c.info.ivSize) = n
              have hopen := cipherOpen_cases m (replicate n 0) (some (replicate n 0)) hstarted
                hop hkey fun h => absurd h haead
              rwa [hop, hkey, hstarted] at hopen
        · exact cipherOpen_cases m [] c.iv hstarted hop hkey fun h => absurd (Or.inr h) hneeds

/-- A message can be given from its beginning, to the context `s`. -/
structure Ready (m : Mbedtls) (c : Cipher) (s : Session) : Prop where
  ok : (cipherStart m c).1 = .ok ()
  ctx : (cipherStart m c).2.ctx = some s
  uses : s.uses = []
  pending : (cipherStart m c).2.pending = []
  finished : (cipherStart m c).2.finished = false

theorem cipherIsAead_start (m : Mbedtls) (c : Cipher) :
    cipherIsAead (cipherStart m c).2 = cipherIsAead c := by
  rcases cipherStart_cases m c with ⟨-, heq⟩ | ⟨s, c', heq, hopened⟩ | ⟨e, c', heq, hrefused⟩
  · rw [heq]
  · obtain ⟨iv, -, hc'⟩ := hopened.state
    rw [heq, hc']
    rfl
  · obtain ⟨iv, ctx, -, -, hc'⟩ := hrefused.state
    rw [heq, hc']
    rfl

theorem ready_of_idle (hidle : c.started = false) (hok : (cipherStart m c).1 = .ok ()) :
    ∃ s, Ready m c s := by
  rcases cipherStart_cases m c with ⟨hc, -⟩ | ⟨s, c', heq, hopened⟩ | ⟨e, c', heq, -⟩
  · rw [hidle] at hc
    cases hc
  · obtain ⟨iv, -, hc'⟩ := hopened.state
    refine ⟨s, hok, ?_, hopened.uses, ?_, ?_⟩
    all_goals rw [heq, hc']
  · rw [heq] at hok
    cases hok

section

variable (h : (cipherStart m c).1 = .ok ())
include h

theorem cipherStart_ok : (cipherStart m c).2.started = true ∧
      cipherStart m (cipherStart m c).2 = (.ok (), (cipherStart m c).2) := by
  have hstarted : (cipherStart m c).2.started = true := by
    rcases cipherStart_cases m c with ⟨hc, heq⟩ | ⟨s, c', heq, hopened⟩ | ⟨e, c', heq, -⟩
    · rw [heq]
      exact hc
    · obtain ⟨iv, -, hc'⟩ := hopened.state
      rw [heq, hc']
    · rw [heq] at h
      cases h
  exact ⟨hstarted, cipherStart_started hstarted⟩

theorem cipherUpdate_start (x : Bytes) : cipherUpdate m x (cipherStart m c).2 = cipherUpdate m x c := by
  unfold cipherUpdate
  rw [(cipherStart_ok h).2]
  dsimp only
  rw [h]

theorem cipherFinal_start : cipherFinal m (cipherStart m c).2 = cipherFinal m c := by
  unfold cipherFinal
  rw [(cipherStart_ok h).2]
  dsimp only
  rw [h]

theorem cipherMessage_start (pieces : List Bytes) :
    cipherMessage m pieces (cipherStart m c).2 = cipherMessage m pieces c := by
  unfold cipherMessage
  cases pieces with
  | nil =>
    dsimp only [cipherUpdates]
    rw [cipherFinal_start h]
  | cons x xs =>
    dsimp only [cipherUpdates]
    rw [cipherUpdate_start h]

end

theorem Ready.message (hm : Streams m) (haead : cipherIsAead c = true) (h : Ready m c s)
    (pieces : List Bytes) :
    ∃ out c', cipherMessage m pieces c = (.ok out, c') ∧ Whole m s pieces.flatten out c' := by
  have haligned : s.Aligned := by
    intro x hx
    rw [inputs_of_uses h.uses] at hx
    cases hx
  have hmidway : Midway m s [] [] (cipherStart m c).2 :=
    ⟨(cipherIsAead_start m c).trans haead, (cipherStart_ok h.ok).1, h.finished, h.pending, s, h.ctx,
      Fed.refl haligned⟩
  obtain ⟨out, c', hupdates, hmidway'⟩ := hmidway.updates hm pieces
  obtain ⟨out', c'', hfinal, hwhole⟩ := hmidway'.final hm
  refine ⟨out ++ out', c'', ?_, hwhole⟩
  rw [← cipherMessage_start h.ok]
  unfold cipherMessage
  rw [hupdates]
  dsimp only
  rw [hfinal]
  rfl

/-! ## Every order of calls -/

inductive Call where
  | setOperation (op : Operation)
  | setKey (key : Bytes)
  | setIv (iv : Bytes)
  | setPadding (on : Bool)
  | setAad (aad : Bytes)
  | start
  | reset
  | update (data : Bytes)
  | final
  | writeTag (len : Nat)
  | checkTag (tag : Bytes)

def Call.exec (m : Mbedtls) : Call → Cipher → Cipher
  | .setOperation op, c => cipherSetOperation op c
  | .setKey key, c => (cipherSetKey key c).2
  | .setIv iv, c => (cipherSetIv iv c).2
  | .setPadding on, c => (cipherSetPadding on c).2
  | .setAad aad, c => (cipherSetAad aad c).2
  | .start, c => (cipherStart m c).2
  | .reset, c => cipherRewind c
  | .update data, c => (cipherUpdate m data c).2
  | .final, c => (cipherFinal m c).2
  | .writeTag len, c => (cipherWriteTag m len c).2
  | .checkTag tag, c => (cipherCheckTag m tag c).2

def runCalls (m : Mbedtls) (calls : List Call) (c : Cipher) : Cipher :=
  calls.foldl (fun c call => call.exec m c) c

/-- Less than a block is held back, nothing behind the last piece, and mbedtls was given whole blocks
before the last piece. -/
structure Staged (c : Cipher) : Prop where
  aead : cipherIsAead c = true
  pending : c.pending.length < 16
  flushed : c.finished = true → c.pending = []
  inputs : ∀ s, c.ctx = some s → ∀ x ∈ s.inputs.dropLast, 16 ∣ x.length
  open_ : c.started = true → ∃ s, c.ctx = some s ∧ (c.finished = false → s.Aligned)

theorem staged_of_ctx (haead : cipherIsAead c = true) (hctx : c.ctx = some s) (hpending : c.pending.length < 16)
    (hflushed : c.finished = true → c.pending = []) (hinputs : ∀ x ∈ s.inputs.dropLast, 16 ∣ x.length)
    (hopen : c.started = true → c.finished = false → s.Aligned) : Staged c where
  aead := haead
  pending := hpending
  flushed := hflushed
  inputs s' hs' := by
    cases hctx.symm.trans hs'
    exact hinputs
  open_ hstarted := ⟨s, hctx, hopen hstarted⟩

theorem staged_rewind (h : Staged c) : Staged (cipherRewind c) where
  aead := h.aead
  pending := Nat.succ_pos 15
  flushed _ := rfl
  inputs := h.inputs
  open_ hstarted := by cases hstarted

theorem staged_start (m : Mbedtls) (h : Staged c) : Staged (cipherStart m c).2 := by
  rcases cipherStart_cases m c with ⟨-, heq⟩ | ⟨s, c', heq, hopened⟩ | ⟨e, c', heq, hrefused⟩
  · rw [heq]
    exact h
  · obtain ⟨iv, -, hc'⟩ := hopened.state
    have hnone := inputs_of_uses hopened.uses
    rw [heq, hc']
    refine staged_of_ctx h.aead rfl (Nat.succ_pos 15) (fun _ => rfl) ?_ fun _ _ => ?_
    · rw [hnone]
      exact nofun
    · rw [Session.Aligned, hnone]
      exact nofun
  · obtain ⟨iv, ctx, -, hctx, hc'⟩ := hrefused.state
    rw [heq, hc']
    refine ⟨h.aead, h.pending, h.flushed, ?_, ?_⟩
    · rcases hctx with rfl | rfl
      · exact h.inputs
      · intro s hs
        cases hs
    · intro hstarted
      exact absurd hstarted (by rw [hrefused.idle]; decide)

theorem Session.Aligned.dropLast (h : s.Aligned) (x : Bytes) (hx : x ∈ s.inputs.dropLast) :
    16 ∣ x.length :=
  h x (mem_of_mem_dropLast hx)

theorem staged_feed (hm : Streams m) (h : Staged c) (hstarted : c.started = true) (data : Bytes) :
    Staged (cipherFeed m data c).2 := by
  cases hfinished : c.finished with
  | true =>
    unfold cipherFeed
    rw [if_pos hfinished]
    exact h
  | false =>
    obtain ⟨s, hctx, hopen⟩ := h.open_ hstarted
    have haligned := hopen hfinished
    have hpart : (part 16 (c.pending ++ data)).length < 16 := length_part_lt (by decide) _
    have hflushed : c.finished = true → part 16 (c.pending ++ data) = [] := by
      rw [hfinished]
      exact fun h => by cases h
    rw [cipherFeed_eq h.aead hfinished h.pending]
    split_ifs
    · exact ⟨h.aead, hpart, hflushed, h.inputs, h.open_⟩
    · rw [mbedtlsCipherUpdate_eq (hm.accepts s _ haligned) hctx]
      have haligned' := haligned.use_update (dvd_length_whole 16 (c.pending ++ data))
      exact staged_of_ctx h.aead rfl hpart hflushed haligned'.dropLast fun _ _ => haligned'

theorem staged_flush (hm : Streams m) (h : Staged c) (hstarted : c.started = true) :
    Staged (cipherFlush m c).2 := by
  obtain ⟨s, hctx, hopen⟩ := h.open_ hstarted
  unfold cipherFlush
  split_ifs with hpending
  · have hfinished : c.finished = false := by
      by_contra hne
      exact hpending.2 (h.flushed (Bool.eq_true_of_not_eq_false hne))
    rw [mbedtlsCipherUpdate_eq (hm.accepts s _ (hopen hfinished)) hctx]
    dsimp only
    rw [cipherFinish_eq (hm.finish _) _ rfl]
    refine staged_of_ctx h.aead rfl (Nat.succ_pos 15) (fun _ => rfl) ?_ fun _ => nofun
    rw [inputs_use_finish, inputs_use_update, dropLast_concat]
    exact hopen hfinished
  · have hnil : c.pending = [] := by
      by_contra hne
      exact hpending ⟨h.aead, hne⟩
    rw [cipherFinish_eq (hm.finish _) [] hctx]
    refine staged_of_ctx h.aead rfl h.pending (fun _ => hnil) ?_ fun _ => nofun
    rw [inputs_use_finish]
    exact h.inputs s hctx

theorem staged_tag {op : Operation} {len : Nat} {t : Bytes} {c' : Cipher} (h : Staged c)
    (htag : mbedtlsTag m op len c = some (t, c')) : Staged c' := by
  unfold mbedtlsTag at htag
  split at htag
  · cases htag
  · rename_i s hctx
    split_ifs at htag
    split at htag
    · cases htag
    · cases htag
      refine staged_of_ctx h.aead rfl h.pending h.flushed ?_ fun hstarted hfinished => ?_
      · rw [inputs_use_tag]
        exact h.inputs s hctx
      · obtain ⟨s', hs', hopen⟩ := h.open_ hstarted
        cases hctx.symm.trans hs'
        rw [Session.Aligned, inputs_use_tag]
        exact hopen hfinished

theorem staged_exec (hm : Streams m) (call : Call) (h : Staged c) : Staged (call.exec m c) := by
  cases call with
  | setOperation op => exact staged_rewind { h with }
  | setKey key =>
    rw [Call.exec, cipherSetKey]
    split_ifs
    · exact h
    · exact h
    · exact staged_rewind { h with }
  | setIv iv =>
    rw [Call.exec, cipherSetIv]
    split_ifs
    · exact h
    · exact staged_rewind { h with }
    · exact h
    · exact staged_rewind { h with }
  | setPadding on =>
    rw [Call.exec, cipherSetPadding]
    split_ifs
    · exact h
    · exact { h with }
  | setAad aad =>
    rw [Call.exec, cipherSetAad]
    split_ifs
    · exact h
    · exact h
    · exact { h with }
  | start => exact staged_start m h
  | reset => exact staged_rewind h
  | update data =>
    have hstart := staged_start m h
    unfold Call.exec cipherUpdate
    dsimp only
    split
    · exact hstart
    · rename_i hok
      exact staged_feed hm hstart (cipherStart_ok hok).1 data
  | final =>
    have hstart := staged_start m h
    unfold Call.exec cipherFinal
    dsimp only
    split
    · exact hstart
    · rename_i hok
      exact staged_flush hm hstart (cipherStart_ok hok).1
  | writeTag len =>
    rw [Call.exec, cipherWriteTag]
    split_ifs
    · exact h
    · exact h
    · exact h
    · split
      · exact h
      · rename_i t c' htag
        have htag' := staged_tag h htag
        exact { htag' with }
  | checkTag tag =>
    have hchecked : Staged { c with tagChecked := true } :=
      { h with }
    rw [Call.exec, cipherCheckTag]
    split_ifs
    · exact h
    · exact h
    · split
      · exact hchecked
      · rename_i t c' htag
        exact staged_tag hchecked htag

theorem staged_runCalls (hm : Streams m) (calls : List Call) (h : Staged c) :
    Staged (runCalls m calls c) := by
  induction calls generalizing c with
  | nil => exact h
  | cons call calls ih => exact ih (staged_exec hm call h)

theorem staged_new {info : Info} (h : cipherIsAead (Cipher.new info) = true) : Staged (Cipher.new info) where
  aead := h
  pending := Nat.succ_pos 15
  flushed _ := rfl
  inputs s hs := by cases hs
  open_ hstarted := by cases hstarted

/-- After any calls less than a block is held back and mbedtls was only given whole blocks before the
last piece; and a message that is begun then has one result, however it is split. -/
theorem cipherMessage_split (m : Mbedtls) (hm : Streams m) (info : Info)
    (haead : cipherIsAead (Cipher.new info) = true) (calls : List Call) :
    (runCalls m calls (Cipher.new info)).pending.length < 16 ∧
      (∀ s, (runCalls m calls (Cipher.new info)).ctx = some s → ∀ x ∈ s.inputs.dropLast, 16 ∣ x.length) ∧
      ∀ s pieces, Ready m (runCalls m calls (Cipher.new info)) s →
        (cipherMessage m pieces (runCalls m calls (Cipher.new info))).1 =
            .ok (m.crypt s pieces.flatten) ∧
          (cipherMessage m [pieces.flatten] (runCalls m calls (Cipher.new info))).1 =
            .ok (m.crypt s pieces.flatten) ∧
          ∃ s', (cipherMessage m pieces (runCalls m calls (Cipher.new info))).2.ctx = some s' ∧
            s'.inputs.flatten = pieces.flatten ∧ ∀ x ∈ s'.inputs.dropLast, 16 ∣ x.length := by
  have hstaged := staged_runCalls hm calls (staged_new haead)
  refine ⟨hstaged.pending, hstaged.inputs, ?_⟩
  intro s pieces hready
  obtain ⟨out, c', hmessage, hwhole⟩ := hready.message hm hstaged.aead pieces
  obtain ⟨out₁, c₁, hmessage₁, hwhole₁⟩ := hready.message hm hstaged.aead [pieces.flatten]
  obtain ⟨s', hctx, hinputs, haligned⟩ := hwhole.inputs
  rw [hmessage, hmessage₁, hwhole.crypt, hwhole₁.crypt, flatten_singleton]
  refine ⟨rfl, rfl, s', hctx, ?_, haligned⟩
  rw [hinputs, inputs_of_uses hready.uses]
  rfl

def flipping : Mbedtls where
  refuses _ := none
  accepts _ _ := true
  crypt _ x := x.map (· ^^^ 0x5A)
  finish _ := some []
  tag s n := some ((s.aad ++ s.inputs.flatten ++ replicate 16 0).take n)

theorem streams_flipping : Streams flipping where
  accepts _ _ _ := rfl
  length _ _ _ := length_map _
  append _ _ _ _ _ := map_append
  finish _ := rfl

/-- Three bytes, nothing and 17 bytes, after a message that was given up. -/
theorem cipherMessage_split_flipping :
    (cipherMessage flipping [[1, 2, 3], [], replicate 17 4]
      (runCalls flipping [.setOperation .encrypt, .setKey (replicate 16 1),
        .setIv (replicate 12 2), .update (replicate 21 3), .reset]
        (Cipher.new ⟨.gcm, 16, 12⟩))).1 =
      .ok ([0x5B, 0x58, 0x59] ++ replicate 17 0x5E) := by
  obtain ⟨s, hready⟩ : ∃ s, Ready flipping (runCalls flipping [.setOperation .encrypt,
      .setKey (replicate 16 1), .setIv (replicate 12 2), .update (replicate 21 3), .reset]
      (Cipher.new ⟨.gcm, 16, 12⟩)) s :=
    ready_of_idle rfl rfl
  exact ((cipherMessage_split flipping streams_flipping ⟨.gcm, 16, 12⟩ rfl _).2.2 s _ hready).1

end CosmoRuby.Crypto
