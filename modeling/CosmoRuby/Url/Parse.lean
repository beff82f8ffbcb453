import CosmoRuby.Http.Tables
import CosmoRuby.Lib.Loop

/-!
# `ParseUrl`

The parser of `parseurl.c`.  The five loops share the cursor and the last character read, which is how
each of them tells the next one where it stopped.  Decoded bytes go to one buffer; what was written
since the last view was cut is `buf`.
-/

namespace CosmoRuby.UrlCodec

open Lib Http

/-! ## Data -/

structure UrlFlags where
  plus : Bool
  latin1 : Bool
  isOpaque : Bool
  deriving DecidableEq, Repr

def noFlags : UrlFlags := ⟨false, false, false⟩

abbrev UrlView := Option Bytes

structure UrlParam where
  key : Bytes
  val : UrlView
  deriving DecidableEq, Repr

structure Url where
  scheme : UrlView
  user : UrlView
  pass : UrlView
  host : UrlView
  port : UrlView
  path : UrlView
  params : Option (List UrlParam)
  fragment : UrlView
  deriving DecidableEq, Repr

def emptyUrl : Url := ⟨none, none, none, none, none, none, none, none⟩

/-- The state of the parser: `buf` is `[q, p)`, `rest` is `s[i..n)`. -/
structure UrlParser where
  buf : Bytes
  c : UInt8
  n : Nat
  rest : Bytes
  f : UrlFlags
  deriving DecidableEq, Repr

abbrev chSlash : UInt8 := 0x2F
abbrev chColon : UInt8 := 0x3A
abbrev chQuestion : UInt8 := 0x3F
abbrev chHash : UInt8 := 0x23
abbrev chPercent : UInt8 := 0x25
abbrev chAt : UInt8 := 0x40
abbrev chOpen : UInt8 := 0x5B
abbrev chClose : UInt8 := 0x5D
abbrev chPlus : UInt8 := 0x2B
abbrev chAmp : UInt8 := 0x26
abbrev chEquals : UInt8 := 0x3D

/-! ## Emitting -/

section

variable (u : UrlParser) (h : Url)

def UrlParser.i : Nat := u.n - u.rest.length

def UrlParser.read (c : UInt8) (rest : Bytes) : UrlParser :=
  { u with c := c, rest := rest }

def UrlParser.emit (s : Bytes) : UrlParser := { u with buf := u.buf ++ s }

def UrlParser.cut : UrlParser := { u with buf := [] }

def latin1 (c : UInt8) : Bytes := [(0xC0 : UInt8) ||| (c >>> 6), (0x80 : UInt8) ||| (c &&& 0x3F)]

def emitLatin1 : UrlParser := u.emit (latin1 u.c)

def hexByte (a b : UInt8) : UInt8 :=
  UInt8.ofNat ((kHexToInt a).toNat <<< 4 ||| (kHexToInt b).toNat)

def parseEscape : UrlParser :=
  match u.rest with
  | a :: b :: rest =>
    if kHexToInt a ≠ -1 ∧ kHexToInt b ≠ -1 then { u with buf := u.buf ++ [hexByte a b], rest := rest }
    else u.emit [chPercent]
  | _ => u.emit [chPercent]

/-- The end of every loop's chain of tests: an escape, a Latin-1 character or any other byte. -/
def parseText : UrlParser :=
  if u.c = chPercent then parseEscape u
  else if 0x80 ≤ u.c ∧ u.f.latin1 then emitLatin1 u
  else u.emit [u.c]

def whileInput {σ : Type} (body : UrlParser → σ → Turn (UrlParser × σ)) (u : UrlParser) (x : σ) :
    UrlParser × σ :=
  loop (fun s => !s.1.rest.isEmpty)
    (fun s =>
      match s.1.rest with
      | [] => .stop s
      | c :: rest => body (s.1.read c rest) s.2)
    u.rest.length (u, x)

/-! ## The scheme -/

def isalpha (c : UInt8) : Bool := (0x41 ≤ c && c ≤ 0x5A) || (0x61 ≤ c && c ≤ 0x7A)

def isSchemeByte (c : UInt8) : Bool :=
  isdigit c || isalpha c || c == chPlus || c == 0x2D || c == 0x2E

def schemeBody (x : Bool × Url) : Turn (UrlParser × Bool × Url) :=
  let h := x.2
  if u.c = chSlash then
    if u.i = 1 ∧ u.rest.head? = some chSlash then .stop ({ u with rest := u.rest.tail }, true, h)
    else .stop (u.emit [chSlash], false, h)
  else if u.c = chColon ∧ 1 < u.i then
    let h := { h with scheme := some u.buf }
    let u := u.cut
    if u.rest.head? = some chSlash then
      if u.rest.tail.head? = some chSlash then .stop ({ u with rest := u.rest.tail.tail }, true, h)
      else .stop (u, false, h)
    else .stop ({ u with f := { u.f with isOpaque := true } }, false, h)
  else if u.c = chHash ∨ u.c = chQuestion then
    .stop (u.cut, false, { h with path := some u.buf })
  else if u.c = chPercent then .stop (parseEscape u, false, h)
  else if 0x80 ≤ u.c ∧ u.f.latin1 then .stop (emitLatin1 u, false, h)
  else if u.i = 1 then
    if !isalpha u.c then .stop (u.emit [u.c], false, h) else .next (u.emit [u.c], false, h)
  else if !isSchemeByte u.c then .stop (u.emit [u.c], false, h)
  else .next (u.emit [u.c], false, h)

def parseScheme : UrlParser × Bool × Url :=
  whileInput schemeBody u (false, h)

/-! ## The authority -/

/-- The locals of `ParseAuthority`: `c` is the offset in `buf` past the last colon. -/
structure Authority where
  t : Nat
  c : Option Nat
  h : Url
  deriving DecidableEq, Repr

def authorityBody (x : Authority) : Turn (UrlParser × Authority) :=
  if u.c = chSlash ∨ u.c = chHash ∨ u.c = chQuestion then .stop (u, x)
  else if u.c = chOpen then .next (u, { x with t := 0 })
  else if u.c = chClose then .next (u, { x with t := 1 })
  else if u.c = chColon ∧ 0 < x.t then
    let u := u.emit [chColon]
    .next (u, { x with c := some u.buf.length, t := x.t + 1 })
  else if u.c = chAt then
    match x.c with
    | some c =>
      .next (u.cut, ⟨1, none,
        { x.h with user := some (u.buf.take (c - 1)), pass := some (u.buf.drop c) }⟩)
    | none => .next (u.cut, { x with h := { x.h with user := some u.buf } })
  else .next (parseText u, x)

def authorityEnd (x : Authority) : UrlParser × Url :=
  let h :=
    match x.c with
    | some c =>
      if x.t = 2 then
        { x.h with host := some (u.buf.take (c - 1)), port := some (u.buf.drop c) }
      else { x.h with host := some u.buf }
    | none => { x.h with host := some u.buf }
  let u := u.cut
  (if u.c = chSlash then u.emit [chSlash] else u, h)

def parseAuthority : UrlParser × Url :=
  let r := whileInput authorityBody u ⟨1, none, h⟩
  authorityEnd r.1 r.2

/-! ## Path, query and fragment -/

def pathBody (_ : Unit) : Turn (UrlParser × Unit) :=
  if u.c = chHash then .stop (u, ())
  else if u.c = chQuestion ∧ !u.f.isOpaque then .stop (u, ())
  else .next (parseText u, ())

def parsePath : UrlParser × Url :=
  let u := (whileInput pathBody u ()).1
  (u.cut, { h with path := some u.buf })

def setLastVal (v : Bytes) : List UrlParam → List UrlParam
  | [] => []
  | [p] => [{ p with val := some v }]
  | p :: ps => p :: setLastVal v ps

def emitKey (ps : List UrlParam) : UrlParser × List UrlParam :=
  (u.cut, ps ++ [⟨u.buf, none⟩])

def emitVal (ps : List UrlParam) (t : Bool) : UrlParser × List UrlParam :=
  if !t then
    if u.buf ≠ [] ∨ u.c ≠ chQuestion then emitKey u ps else (u, ps)
  else (u.cut, setLastVal u.buf ps)

def queryBody (x : Bool × List UrlParam) : Turn (UrlParser × Bool × List UrlParam) :=
  if u.c = chHash then .stop (u, x)
  else if u.c = chPlus then .next (u.emit [if u.f.plus then chSpace else chPlus], x)
  else if u.c = chAmp then
    .next ((emitVal u x.2 x.1).1, false, (emitVal u x.2 x.1).2)
  else if u.c = chEquals then
    if !x.1 then .next ((emitKey u x.2).1, true, (emitKey u x.2).2)
    else .next (u.emit [chEquals], x)
  else .next (parseText u, x)

def parseQuery : UrlParser × Url :=
  let r := whileInput queryBody u (false, h.params.getD [])
  let e := emitVal r.1 r.2.2 r.2.1
  (e.1, { h with params := some e.2 })

def fragmentBody (_ : Unit) : Turn (UrlParser × Unit) := .next (parseText u, ())

def parseFragment : UrlParser × Url :=
  let u := (whileInput fragmentBody u ()).1
  (u.cut, { h with fragment := some u.buf })

/-! ## The URL -/

def parseRest : Url :=
  let r := if u.c = chQuestion then parseQuery u h else (u, h)
  if r.1.c = chHash then (parseFragment r.1 r.2).2 else r.2

def parseTail : Url :=
  let r := if u.c ≠ chHash ∧ u.c ≠ chQuestion then parsePath u h else (u, h)
  parseRest r.1 r.2

end

def parseUrl (s : Bytes) (f : UrlFlags) : Url :=
  let n := s.length % 2 ^ 32
  let r := parseScheme ⟨[], 0, n, s.take n, f⟩ emptyUrl
  if r.2.1 then
    let a := parseAuthority r.1 r.2.2
    parseTail a.1 a.2
  else parseTail r.1 r.2.2

/-- `ParseParams`, which puts what it reads behind the parameters that are there. -/
def parseParams (s : Bytes) (acc : List UrlParam) : List UrlParam :=
  let n := s.length % 2 ^ 32
  (parseQuery ⟨[], chQuestion, n, s.take n, ⟨true, false, false⟩⟩ { emptyUrl with params := some acc }).2.params.getD []

end CosmoRuby.UrlCodec
