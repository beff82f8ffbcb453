import CosmoRuby.Http.Header

/-!
# `ParseHttpMessage`

The parser of `parsehttpmessage.c`, arm by arm.  The outer `for` increments `r->i` after every
`switch`; six arms run a `for (;;)` of their own that increments `r->i` too and leaves when it
reaches `n`.  Offsets are stored in `short`s; `realloc` is a parameter that says which capacities can
be had.
-/

namespace CosmoRuby.Http

open Lib

/-! ## Data -/

inductive HttpType where
  | kHttpRequest
  | kHttpResponse
  deriving DecidableEq, Repr

inductive HttpState where
  | start
  | method
  | uri
  | version
  | status
  | message
  | name
  | colon
  | value
  | cr
  | lf1
  | lf2
  deriving DecidableEq, Repr

abbrev SHRT_MAX : Nat := 32767

def short (x : Nat) : Int := (x : Int).bmod (2 ^ 16)

structure HttpSlice where
  a : Int
  b : Int
  deriving DecidableEq, Repr

structure HttpHeader where
  k : HttpSlice
  v : HttpSlice
  deriving DecidableEq, Repr

/-- The spill array: `n` is the length of `p`, `c` its capacity. -/
structure HttpHeaders where
  c : Nat
  p : List HttpHeader
  deriving DecidableEq, Repr

structure HttpMessage where
  i : Nat
  a : Nat
  status : Nat
  t : HttpState
  type : HttpType
  version : Nat
  method : UInt64
  k : HttpSlice
  uri : HttpSlice
  message : HttpSlice
  headers : HeaderId → HttpSlice
  xheaders : HttpHeaders

def initHttpMessage (type : HttpType) : HttpMessage where
  i := 0
  a := 0
  status := 0
  t := .start
  type := type
  version := 0
  method := 0
  k := ⟨0, 0⟩
  uri := ⟨0, 0⟩
  message := ⟨0, 0⟩
  headers := fun _ => ⟨0, 0⟩
  xheaders := ⟨0, []⟩

/-- How one pass over a `switch` arm, or over the body of an arm's own loop, ends: by `break`, by
`return`, or (in a loop only) by going on to the next byte. -/
inductive Round where
  | brk (r : HttpMessage)
  | ret (rc : Int) (r : HttpMessage)
  | go (r : HttpMessage)

def ebadmsg (r : HttpMessage) : Round := .ret (-1) r

/-! ## Arms -/

section

variable (r : HttpMessage) (ch : UInt8)

def startArm : Round :=
  if ch = chCr ∨ ch = chLf then .brk r
  else if !kHttpToken ch then ebadmsg r
  else
    match r.type with
    | .kHttpRequest => .brk { r with t := .method, method := (kToUpper ch).toUInt64, a := 8 }
    | .kHttpResponse => .brk { r with t := .version, a := r.i }

def methodRound : Round :=
  if ch = chSpace then .brk { r with a := r.i + 1, t := .uri }
  else if r.a = 64 ∨ !kHttpToken ch then ebadmsg r
  else
    .go { r with
      method := r.method ||| ((kToUpper ch).toUInt64 <<< UInt64.ofNat r.a), a := r.a + 8 }

def lineEnd (ch : UInt8) : HttpState := if ch = chCr then .cr else .lf1

def isControl (ch : UInt8) : Bool := ch < 0x20 || (0x7F ≤ ch && ch < 0xA0)

def uriRound : Round :=
  if ch = chSpace ∨ ch = chCr ∨ ch = chLf then
    if r.i = r.a then ebadmsg r
    else
      let r := { r with uri := ⟨short r.a, short r.i⟩ }
      if ch = chSpace then .brk { r with a := r.i + 1, t := .version }
      else .brk { r with version := 9, t := lineEnd ch }
  else if isControl ch then ebadmsg r
  else .go r

/-- The test of the version arm: `READ64BE(p + a)` masked against `HTTP/?.?`, and the two digits. -/
def isVersion (p : Bytes) (a : Nat) : Bool :=
  byteAt p a == 0x48 && byteAt p (a + 1) == 0x54 && byteAt p (a + 2) == 0x54 &&
    byteAt p (a + 3) == 0x50 && byteAt p (a + 4) == 0x2F && isdigit (byteAt p (a + 5)) &&
    byteAt p (a + 6) == 0x2E && isdigit (byteAt p (a + 7))

def versionArm (p : Bytes) (r : HttpMessage) (ch : UInt8) : Round :=
  if ch = chSpace ∨ ch = chCr ∨ ch = chLf then
    if (r.i : Int) - r.a = 8 ∧ isVersion p r.a then
      let r := { r with
        version := ((byteAt p (r.a + 5)).toNat - 48) * 10 + ((byteAt p (r.a + 7)).toNat - 48) }
      match r.type with
      | .kHttpRequest => .brk { r with t := lineEnd ch }
      | .kHttpResponse => .brk { r with t := .status }
    else ebadmsg r
  else .brk r

def statusRound : Round :=
  if ch = chSpace ∨ ch = chCr ∨ ch = chLf then
    if r.status < 100 then ebadmsg r
    else if ch = chSpace then .brk { r with a := r.i + 1, t := .message }
    else .brk { r with t := lineEnd ch }
  else if isdigit ch then
    let r := { r with status := r.status * 10 + (ch.toNat - 48) }
    if 999 < r.status then ebadmsg r else .go r
  else ebadmsg r

def messageRound : Round :=
  if ch = chCr ∨ ch = chLf then
    .brk { r with message := ⟨short r.a, short r.i⟩, t := lineEnd ch }
  else if isControl ch then ebadmsg r
  else .go r

def crArm : Round :=
  if ch ≠ chLf then ebadmsg r else .brk { r with t := .lf1 }

def lf1Arm : Round :=
  if ch = chCr then .brk { r with t := .lf2 }
  else if ch = chLf then .ret (r.i + 1) { r with i := r.i + 1 }
  else if !kHttpToken ch then ebadmsg r
  else .brk { r with k := ⟨short r.i, r.k.b⟩, t := .name }

def nameRound : Round :=
  if ch = 0x3A then .brk { r with k := ⟨r.k.a, short r.i⟩, t := .colon }
  else if !kHttpToken ch then ebadmsg r
  else .go r

def trimEnd (p : Bytes) (a : Nat) : Nat → Nat
  | 0 => 0
  | i + 1 => if a < i + 1 ∧ (byteAt p i = chSpace ∨ byteAt p i = chTab) then trimEnd p a i else i + 1

/-- Appends to the spill array, doubling its capacity when it is full; without memory the header is
dropped. -/
def pushXheader (realloc : Nat → Bool) (x : HttpHeaders) (h : HttpHeader) : HttpHeaders :=
  let x :=
    if x.p.length = x.c then
      let c2 := if x.c = 0 then 1 else x.c * 2
      if realloc c2 then { x with c := c2 } else x
    else x
  if x.p.length < x.c then { x with p := x.p ++ [h] } else x

def keyOf (p : Bytes) (k : HttpSlice) : Bytes := slice p k.a.toNat k.b.toNat

def storeHeader (realloc : Nat → Bool) (p : Bytes) (r : HttpMessage) (v : HttpSlice) :
    HttpMessage :=
  match getHttpHeader (keyOf p r.k) with
  | some h =>
    if (r.headers h).a = 0 ∨ !kHttpRepeatable h then
      { r with headers := Function.update r.headers h v }
    else { r with xheaders := pushXheader realloc r.xheaders ⟨r.k, v⟩ }
  | none => { r with xheaders := pushXheader realloc r.xheaders ⟨r.k, v⟩ }

def valueRound (realloc : Nat → Bool) (p : Bytes) (r : HttpMessage) (ch : UInt8) : Round :=
  if ch = chCr ∨ ch = chLf then
    let i := trimEnd p r.a r.i
    let r := storeHeader realloc p r ⟨short r.a, short i⟩
    .brk { r with t := lineEnd ch }
  else if (ch < 0x20 ∧ ch ≠ chTab) ∨ (0x7F ≤ ch ∧ ch < 0xA0) then ebadmsg r
  else .go r

def lf2Arm : Round :=
  if ch = chLf then .ret (r.i + 1) { r with i := r.i + 1 } else ebadmsg r

end

/-! ## Loops -/

def armLoop (p : Bytes) (n : Nat) (body : HttpMessage → UInt8 → Round) :
    Nat → HttpMessage → Round
  | 0, r => .brk r
  | fuel + 1, r =>
    match body r (byteAt p r.i) with
    | .brk r => .brk r
    | .ret rc r => .ret rc r
    | .go r =>
      let r := { r with i := r.i + 1 }
      if r.i = n then .brk r else armLoop p n body fuel r

def switchArm (realloc : Nat → Bool) (p : Bytes) (n : Nat) (r : HttpMessage) : Round :=
  let ch := byteAt p r.i
  let loop (body : HttpMessage → UInt8 → Round) (r : HttpMessage) := armLoop p n body (n - r.i) r
  match r.t with
  | .start => startArm r ch
  | .method => loop methodRound r
  | .uri => loop uriRound r
  | .version => versionArm p r ch
  | .status => loop statusRound r
  | .message => loop messageRound r
  | .cr => crArm r ch
  | .lf1 => lf1Arm r ch
  | .name => loop nameRound r
  | .colon =>
    if ch = chSpace ∨ ch = chTab then .brk r
    else loop (valueRound realloc p) { r with a := r.i, t := .value }
  | .value => loop (valueRound realloc p) r
  | .lf2 => lf2Arm r ch

def parseLoop (realloc : Nat → Bool) (p : Bytes) (n : Nat) :
    Nat → HttpMessage → Option Int × HttpMessage
  | 0, r => (none, r)
  | fuel + 1, r =>
    if r.i < n then
      match switchArm realloc p n r with
      | .ret rc r => (some rc, r)
      | .brk r => parseLoop realloc p n fuel { r with i := r.i + 1 }
      | .go r => parseLoop realloc p n fuel { r with i := r.i + 1 }
    else (none, r)

def parseHttpMessage (realloc : Nat → Bool) (r : HttpMessage) (p : Bytes) (n c : Nat) :
    Int × HttpMessage :=
  if c < n then (-1, r)
  else
    let n := min n SHRT_MAX
    let c := min c SHRT_MAX
    match parseLoop realloc p n (n - r.i) r with
    | (some rc, r) => (rc, r)
    | (none, r) => if r.i < c then (0, r) else (-1, r)

end CosmoRuby.Http
