import CosmoRuby.Url.Parse

/-!
# `EncodeUrl`

The encoder of `encodeurl.c` and the escape tables it uses.
-/

namespace CosmoRuby.UrlCodec

open Lib Http

/-! ## Escape tables -/

/-- A table as its file says how it was generated: digits, letters and some others stay. -/
def kEscape (others : String) (c : UInt8) : Bool :=
  !(isdigit c || (0x41 ≤ c && c ≤ 0x5A) || (0x61 ≤ c && c ≤ 0x7A) || (ascii others).contains c)

def kEscapeAuthority : UInt8 → Bool := kEscape "_.!~*'();&=+$,-"

def kEscapeIp : UInt8 → Bool := kEscape "_-.!~*'();&=+$,:"

def kEscapePath : UInt8 → Bool := kEscape ".-~_@:!$&'()*+,;=/"

def kEscapeParam : UInt8 → Bool := kEscape ".-*_"

def kEscapeFragment : UInt8 → Bool := kEscape "/?.~_@:!$&'()*+,;=-"

/-! ## Escaping -/

def hexDigit (x : UInt8) : UInt8 := if x < 10 then 0x30 + x else 0x37 + x

def escapeByte (T : UInt8 → Bool) (c : UInt8) : Bytes :=
  if !T c then [c] else [chPercent, hexDigit ((c &&& 0xF0) >>> 4), hexDigit (c &&& 0x0F)]

def escapeUrlView (T : UInt8 → Bool) (v : Bytes) : Bytes := v.flatMap (escapeByte T)

/-! ## The encoder -/

/-- `kHexToInt[c] || c == '.' || c == ':'`; the table has -1 where there is no digit. -/
def bracketByte (c : UInt8) : Bool := kHexToInt c != 0 || c == 0x2E || c == chColon

def needsSquareBrackets (h : Url) (host : Bytes) : Bool :=
  if !host.contains chColon then false
  else if h.pass.isSome then true
  else if 4 ≤ host.length ∧ byteAt host 0 = 0x76 ∧ byteAt host 2 = 0x2E ∧
      kHexToInt (byteAt host 1) ≠ -1 then
    (host.drop 3).all fun c => !kEscapeIp c
  else host.all bracketByte

def encodeUser (h : Url) : Bytes :=
  match h.user with
  | none => []
  | some user =>
    escapeUrlView kEscapeAuthority user ++
      (match h.pass with
      | none => []
      | some pass => chColon :: escapeUrlView kEscapeAuthority pass) ++ [chAt]

def encodeHost (h : Url) (host : Bytes) : Bytes :=
  if needsSquareBrackets h host then [chOpen] ++ escapeUrlView kEscapeIp host ++ [chClose]
  else escapeUrlView kEscapeAuthority host

def encodePort (h : Url) : Bytes :=
  match h.port with
  | none => []
  | some port => chColon :: escapeUrlView kEscapeAuthority port

def encodeAuthority (h : Url) : Bytes :=
  match h.host with
  | none => []
  | some host =>
    [chSlash, chSlash] ++ encodeUser h ++ encodeHost h host ++ encodePort h ++
      (match h.path with
      | some (c :: _) => if c ≠ chSlash then [chSlash] else []
      | _ => [])

def encodeParam (p : UrlParam) : Bytes :=
  escapeUrlView kEscapeParam p.key ++
    (match p.val with
    | none => []
    | some val => chEquals :: escapeUrlView kEscapeParam val)

def encodeParams : List UrlParam → Bytes
  | [] => []
  | [p] => encodeParam p
  | p :: ps => encodeParam p ++ chAmp :: encodeParams ps

def encodeQuery (h : Url) : Bytes :=
  match h.params with
  | none => []
  | some ps => chQuestion :: encodeParams ps

def encodeFragment (h : Url) : Bytes :=
  match h.fragment with
  | none => []
  | some fragment => chHash :: escapeUrlView kEscapeFragment fragment

def encodeScheme (h : Url) : Bytes :=
  match h.scheme with
  | some (c :: cs) => c :: cs ++ [chColon]
  | _ => []

def encodeUrl (h : Url) : Bytes :=
  encodeScheme h ++ encodeAuthority h ++ escapeUrlView kEscapePath (h.path.getD []) ++
    encodeQuery h ++ encodeFragment h

end CosmoRuby.UrlCodec
