import CosmoRuby.Crypto.Chunks

/-!
# `OpenSSL::Cipher`

The class of `lib/openssl.rb` over `MbedTLS::Cipher`. The state of a message is in both: the direction,
the expected tag and whether the message was finished here, the rest there.
-/

namespace CosmoRuby.Crypto

open Lib

inductive OpensslError where
  /-- `CipherError` -/
  | cipher (message : String)
  | argument (message : String)
  /-- `CipherError` with the message of what `guard` caught. -/
  | guarded (e : Raised)
  deriving DecidableEq, Repr

structure Openssl where
  /-- `@mbed_name` -/
  name : String
  c : Cipher
  authTagLenSet : Bool
  defaultIvLen : Nat
  ivLen : Option Nat
  state : Option Operation
  authTagLen : Nat
  expectedTag : Option Bytes
  finalized : Bool
  deriving DecidableEq, Repr

def Openssl.new (name : String) (info : Info) : Openssl where
  name
  c := .new info
  authTagLenSet := false
  defaultIvLen := info.ivSize
  ivLen := none
  state := none
  authTagLen := 16
  expectedTag := none
  finalized := false

namespace Openssl

/-- What a call returns or raises, and the object it leaves. -/
abbrev Result (α : Type) := Except OpensslError α × Openssl

def authenticated (x : Openssl) : Bool :=
  x.c.info.mode = .gcm || x.c.info.mode = .ccm || x.c.info.mode = .chachapoly

def resetAuthState (x : Openssl) : Openssl := { x with expectedTag := none, finalized := false }

def setOperation (op : Operation) (x : Openssl) : Openssl :=
  resetAuthState { x with c := cipherSetOperation op x.c, state := some op }

def guard {α : Type} (x : Openssl) (r : Leaves α) : Result α :=
  (r.1.mapError .guarded, { x with c := r.2 })

def guardSetter (x : Openssl) (r : Leaves Unit) : Result Unit :=
  match r.1 with
  | .error e => (.error (.guarded e), { x with c := r.2 })
  | .ok () => (.ok (), { x with c := r.2, finalized := false })

def setKey (key : Bytes) (x : Openssl) : Result Unit :=
  if key.length ≠ x.c.info.keyLen then (.error (.argument s!"key must be {x.c.info.keyLen} bytes"), x)
  else guardSetter x (cipherSetKey key x.c)

def setIv (iv : Bytes) (x : Openssl) : Result Unit :=
  match x.ivLen with
  | some n =>
    if iv.length ≠ n then (.error (.argument s!"iv must be {n} bytes"), x)
    else guardSetter x (cipherSetIv iv x.c)
  | none =>
    if x.authenticated then
      if iv.length < 1 ∨ 16 < iv.length then (.error (.argument "iv must be 1..16 bytes"), x)
      else guardSetter x (cipherSetIv iv x.c)
    else if iv.length ≠ x.defaultIvLen then
      (.error (.argument s!"iv must be {x.defaultIvLen} bytes"), x)
    else guardSetter x (cipherSetIv iv x.c)

def setIvLen (n : Nat) (x : Openssl) : Result Unit :=
  if x.authenticated = false then
    (.error (.cipher s!"{x.name} has a fixed iv length of {x.defaultIvLen}"), x)
  else if n < 1 ∨ 16 < n then (.error (.cipher "iv length must be 1..16"), x)
  else (.ok (), { x with ivLen := some n })

def setPadding (on : Bool) (x : Openssl) : Result Unit :=
  guard x (cipherSetPadding on x.c)

def setAuthData (data : Bytes) (x : Openssl) : Result Unit :=
  guard x (cipherSetAad data x.c)

def setAuthTagLen (n : Nat) (x : Openssl) : Result Unit :=
  if n < 4 ∨ 16 < n then (.error (.cipher "tag length must be 4..16"), x)
  else (.ok (), { x with authTagLenSet := true, authTagLen := n })

def setAuthTag (tag : Bytes) (x : Openssl) : Result Unit :=
  if x.authenticated = false then
    (.error (.cipher s!"{x.name} is not an authenticated cipher"), x)
  else (.ok (), { x with expectedTag := some tag })

def reset (x : Openssl) : Openssl := resetAuthState { x with c := cipherRewind x.c }

section

variable (m : Mbedtls)

def authTag (len : Option Nat) (x : Openssl) : Result Bytes :=
  if x.authenticated = false then
    (.error (.cipher s!"{x.name} is not an authenticated cipher"), x)
  else if x.state ≠ some .encrypt then
    (.error (.cipher "authentication tag is only produced when encrypting"), x)
  else if x.finalized = false then
    (.error (.cipher "call #final before reading the authentication tag"), x)
  else guard x (cipherWriteTag m (len.getD x.authTagLen) x.c)

def update (data : Bytes) (x : Openssl) : Result Bytes :=
  guard x (cipherUpdate m data x.c)

def checkTag (x : Openssl) : Result Unit :=
  match x.expectedTag with
  | none => (.error (.cipher "authentication tag not set (auth_tag=)"), x)
  | some tag =>
    if x.authTagLenSet ∧ tag.length ≠ x.authTagLen then
      (.error (.cipher s!"authentication tag must be {x.authTagLen} bytes, got {tag.length}"), x)
    else guard x (cipherCheckTag m tag x.c)

def final (x : Openssl) : Result Bytes :=
  let r := cipherFinal m x.c
  match r.1 with
  | .error e => (.error (.guarded e), { x with c := r.2 })
  | .ok out =>
    let x := { x with c := r.2, finalized := true }
    if x.authenticated ∧ x.state = some .decrypt then
      let r := checkTag m x
      (r.1.map fun _ => out, r.2)
    else (.ok out, x)

end

end Openssl

end CosmoRuby.Crypto
