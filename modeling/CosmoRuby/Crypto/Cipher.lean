import CosmoRuby.Lib.Bytes
import CosmoRuby.Lib.Blocks

/-!
# `MbedTLS::Cipher`

The methods of `ext/mbedtls/crypto.c` over an mbedtls that is known only by what its context was
asked since a message was started. A method that raises leaves what it did before that, so each
returns the state also with an exception.
-/

namespace CosmoRuby.Crypto

open Lib

inductive Operation where
  | encrypt
  | decrypt
  deriving DecidableEq, Repr

inductive Mode where
  | none
  | ecb
  | cbc
  | cfb
  | ofb
  | ctr
  | gcm
  | stream
  | ccm
  | xts
  | chachapoly
  deriving DecidableEq, Repr

structure Info where
  mode : Mode
  keyLen : Nat
  ivSize : Nat
  deriving DecidableEq, Repr

inductive Use where
  | update (input : Bytes)
  | finish
  /-- `mbedtls_gcm_finish` or `mbedtls_chachapoly_finish`, which change the context. -/
  | tag (len : Nat)
  deriving DecidableEq, Repr

/-- `mbedtls_cipher_context_t`, by how it was started and what it was asked since then. -/
structure Session where
  operation : Operation
  key : Bytes
  iv : Bytes
  aad : Bytes
  padding : Bool
  uses : List Use
  deriving DecidableEq, Repr

def Session.use (s : Session) (u : Use) : Session := { s with uses := s.uses ++ [u] }

def Session.inputs (s : Session) : List Bytes :=
  s.uses.filterMap fun
    | .update x => some x
    | _ => Option.none

structure Mbedtls where
  /-- The function that refuses to start a context, where one does. -/
  refuses : Session → Option String
  accepts : Session → Bytes → Bool
  crypt : Session → Bytes → Bytes
  finish : Session → Option Bytes
  /-- The tag of a length. -/
  tag : Session → Nat → Option Bytes

inductive Raised where
  /-- `MbedTLS::CryptoError` with a message. -/
  | crypto (message : String)
  /-- `crypto_raise` with the name of what failed. -/
  | failed (what : String)
  deriving DecidableEq, Repr

structure Cipher where
  info : Info
  /-- Nothing where it was never started, or starting it failed. -/
  ctx : Option Session
  operation : Option Operation
  /-- The key, with `key_set`. -/
  key : Option Bytes
  iv : Option Bytes
  started : Bool
  finished : Bool
  tag : Bytes
  tagReady : Bool
  tagChecked : Bool
  padding : Bool
  aad : Bytes
  pending : Bytes
  deriving DecidableEq, Repr

/-- What a call returns or raises, and the cipher it leaves. -/
abbrev Leaves (α : Type) := Except Raised α × Cipher

def maxIvLength : Nat := 16

def Cipher.new (info : Info) : Cipher where
  info
  ctx := none
  operation := none
  key := none
  iv := none
  started := false
  finished := false
  tag := List.replicate 16 0
  tagReady := false
  tagChecked := false
  padding := true
  aad := []
  pending := []

def cipherIsAead (c : Cipher) : Bool := c.info.mode = .gcm || c.info.mode = .chachapoly

def cipherRewind (c : Cipher) : Cipher :=
  { c with
    started := false
    finished := false
    pending := []
    tagReady := false
    tagChecked := false
    tag := List.replicate 16 0 }

def cipherDropAad (c : Cipher) : Cipher := { c with aad := [] }

def cipherSetOperation (op : Operation) (c : Cipher) : Cipher :=
  cipherRewind (cipherDropAad { c with operation := some op })

def cipherSetKey (key : Bytes) (c : Cipher) : Leaves Unit :=
  if key.length ≠ c.info.keyLen then
    (.error (.crypto s!"key must be {c.info.keyLen} bytes, got {key.length}"), c)
  else if 64 < key.length then (.error (.crypto "key too long"), c)
  else (.ok (), cipherRewind { c with key := some key })

def cipherSetIv (iv : Bytes) (c : Cipher) : Leaves Unit :=
  if cipherIsAead c then
    if iv.length < 1 ∨ maxIvLength < iv.length then
      (.error (.crypto s!"iv must be 1..{maxIvLength} bytes for this mode, got {iv.length}"), c)
    else (.ok (), cipherRewind { c with iv := some iv })
  else if iv.length ≠ c.info.ivSize then
    (.error (.crypto s!"iv must be {c.info.ivSize} bytes, got {iv.length}"), c)
  else (.ok (), cipherRewind { c with iv := some iv })

def cipherSetPadding (on : Bool) (c : Cipher) : Leaves Unit :=
  if c.started then
    (.error (.crypto "padding cannot be changed once the cipher has processed data"), c)
  else (.ok (), { c with padding := on })

def cipherSetAad (aad : Bytes) (c : Cipher) : Leaves Unit :=
  if cipherIsAead c = false then
    (.error (.crypto "cipher does not support authenticated data"), c)
  else if c.started then
    (.error (.crypto "authenticated data must be set before any update"), c)
  else (.ok (), { cipherDropAad c with aad })

section

variable (m : Mbedtls)

def cipherOpen (op : Operation) (key iv : Bytes) (c : Cipher) : Leaves Unit :=
  let s : Session := ⟨op, key, iv, if cipherIsAead c then c.aad else [], c.padding, []⟩
  match m.refuses s with
  | some what => (.error (.failed what), { c with ctx := none })
  | none =>
    (.ok (), { c with
      ctx := some s
      pending := []
      finished := false
      tagReady := false
      tagChecked := false
      started := true })

def cipherStart (c : Cipher) : Leaves Unit :=
  if c.started then (.ok (), c)
  else
    match c.operation, c.key with
    | none, _ => (.error (.crypto "cipher not initialized for encryption or decryption"), c)
    | some _, none => (.error (.crypto "key not set"), c)
    | some op, some key =>
      if 0 < c.info.ivSize ∨ cipherIsAead c then
        match c.iv with
        | some iv => cipherOpen m op key iv c
        | none =>
          if cipherIsAead c then
            (.error (.crypto "iv (nonce) must be set explicitly for authenticated ciphers"), c)
          else
            -- an IV of zeros, as OpenSSL takes it
            let n := if c.info.ivSize = 0 ∨ maxIvLength < c.info.ivSize then maxIvLength else c.info.ivSize
            cipherOpen m op key (List.replicate n 0) { c with iv := some (List.replicate n 0) }
      else cipherOpen m op key [] c

def mbedtlsCipherUpdate (input : Bytes) (c : Cipher) : Leaves Bytes :=
  match c.ctx with
  | none => (.error (.failed "mbedtls_cipher_update"), c)
  | some s =>
    if m.accepts s input then (.ok (m.crypt s input), { c with ctx := some (s.use (.update input)) })
    else (.error (.failed "mbedtls_cipher_update"), c)

def mbedtlsCipherFinish (c : Cipher) : Leaves Bytes :=
  match c.ctx with
  | none => (.error (.failed "mbedtls_cipher_finish"), c)
  | some s =>
    match m.finish s with
    | none => (.error (.failed "mbedtls_cipher_finish"), c)
    | some out => (.ok out, { c with ctx := some (s.use .finish) })

def cipherFeed (data : Bytes) (c : Cipher) : Leaves Bytes :=
  if c.finished then (.error (.crypto "cipher has already been finalized"), c)
  else if cipherIsAead c then
    let total := c.pending.length + data.length
    let take := total / 16 * 16
    if take = 0 then (.ok [], { c with pending := c.pending ++ data })
    else
      let fromInput := take - c.pending.length
      let tmp := c.pending ++ data.take fromInput
      mbedtlsCipherUpdate m tmp { c with pending := data.drop fromInput }
  else mbedtlsCipherUpdate m data c

def cipherUpdate (data : Bytes) (c : Cipher) : Leaves Bytes :=
  let r := cipherStart m c
  match r.1 with
  | .error e => (.error e, r.2)
  | .ok () => cipherFeed m data r.2

def cipherFinish (tail : Bytes) (c : Cipher) : Leaves Bytes :=
  let r := mbedtlsCipherFinish m c
  match r.1 with
  | .error e => (.error e, r.2)
  | .ok out => (.ok (tail ++ out), { r.2 with finished := true })

def cipherFlush (c : Cipher) : Leaves Bytes :=
  if cipherIsAead c ∧ c.pending ≠ [] then
    -- what is held back is forgotten also where mbedtls refuses it
    let r := mbedtlsCipherUpdate m c.pending { c with pending := [] }
    match r.1 with
    | .error e => (.error e, r.2)
    | .ok tail => cipherFinish m tail r.2
  else cipherFinish m [] c

def cipherFinal (c : Cipher) : Leaves Bytes :=
  let r := cipherStart m c
  match r.1 with
  | .error e => (.error e, r.2)
  | .ok () => cipherFlush m r.2

def mbedtlsTag (op : Operation) (len : Nat) (c : Cipher) : Option (Bytes × Cipher) :=
  match c.ctx with
  | none => none
  | some s =>
    if s.operation = op then
      match m.tag s len with
      | none => none
      | some t => some (t, { c with ctx := some (s.use (.tag len)) })
    else none

def cipherWriteTag (len : Nat) (c : Cipher) : Leaves Bytes :=
  if cipherIsAead c = false then (.error (.crypto "cipher is not authenticated"), c)
  else if len < 1 ∨ 16 < len then (.error (.crypto "bad tag length"), c)
  else if c.tagReady then (.ok (c.tag.take len), c)
  else
    match mbedtlsTag m .encrypt 16 c with
    | none => (.error (.failed "mbedtls_cipher_write_tag"), c)
    | some (t, c) => (.ok (t.take len), { c with tag := t, tagReady := true })

def cipherCheckTag (tag : Bytes) (c : Cipher) : Leaves Unit :=
  if cipherIsAead c = false then (.error (.crypto "cipher is not authenticated"), c)
  else if c.tagChecked then
    (.error (.crypto "authentication tag has already been checked for this message"), c)
  else
    match mbedtlsTag m .decrypt tag.length { c with tagChecked := true } with
    | none => (.error (.failed "authentication tag mismatch"), { c with tagChecked := true })
    | some (t, c) => (if t = tag then .ok () else .error (.failed "authentication tag mismatch"), c)

end

end CosmoRuby.Crypto
