import CosmoRuby.Http.Tables

/-!
# Header names

`gethttpheader.inc` is gperf output: a perfect hash over five character positions, a table indexed by
the hash, and one comparison that ignores case.  A header number is an index of `headers[]` in
`struct HttpMessage`.
-/

namespace CosmoRuby.Http

open Lib

abbrev kHttpHeadersMax : Nat := 93

abbrev HeaderId := Fin kHttpHeadersMax

def kHttpRepeatable (h : HeaderId) : Bool :=
  [34,5,4,3,32,1,29,49,52,53,54,11,61,64,
    66,67,68,69,25,72,70,71,8,36,37,41,43].contains h.val

def assoValues : List (List Nat) :=
  let none := List.replicate 16 182
  let letters := [
    [182,15,182,30,60,10,5,40,0,40,182,80,40,90,0,45],
    [5,0,45,0,0,0,182,0,182,45,182,182,182,182,182,182]]
  [none, none, none.set 13 35, none.set 5 5] ++ letters ++ letters ++ List.replicate 8 none

def wordlist : List (String × HeaderId) :=
  let o := ("", 0)
  [o, o, o, ("DNT", 13), ("Host", 0), ("Allow", 32), o, o, ("Location", 59), o, o, ("Accept", 3),
   ("TE", 66), ("Age", 44), ("Date", 26), o, o, o, ("Via", 72), o, ("Connection", 2), o, o,
   ("If-Match", 53), o, ("Range", 22), ("X-XSS-Protection", 78), o,
   ("Access-Control-Allow-Headers", 36), ("Access-Control-RequestHeaders", 41),
   ("Access-Control-Request-Methods", 43), ("Access-Control-MaxAge", 39), ("Upgrade", 69),
   ("If-Range", 55), ("Content-Length", 23), ("X-Frame-Options", 74), ("Expect", 52),
   ("Alt-Svc", 76), o, ("Content-Description", 47), o, ("WWW-Authenticate", 71), o, o, ("ETag", 31),
   ("User-Agent", 6), ("Origin", 9), ("Content-Base", 46), ("Content-Range", 33), ("Vary", 25),
   ("Upgrade-Insecure-Requests", 10), ("Content-Language", 49), ("Expires", 28), ("CDN-Loop", 92),
   ("Sec-CH-UA", 81), o, ("Cookie", 12), ("X-Content-Type-Options", 75), ("Accept-Ranges", 79),
   ("Save-Data", 21), ("Set-Cookie", 80), ("Server", 27), ("Access-Control-Allow-Credentials", 35),
   o, ("Sec-Fetch-Site", 83), ("Keep-Alive", 57), ("CF-RAY", 87), ("Transfer-Encoding", 68), o,
   ("Content-Disposition", 48), ("Accept-Language", 4), ("Proxy-Connection", 63),
   ("Access-Control-Allow-Origin", 38), ("If-None-Match", 54), ("If-Unmodified-Since", 56), o,
   ("Public", 64), ("Sec-GPC", 14), o, ("Accept-Charset", 34), o, ("Access-Control-Method", 40),
   ("Content-Type", 24), ("Proxy-Authenticate", 61), ("Link", 58), o, ("X-Requested-With", 17),
   ("Warning", 70), o, ("Access-Control-Request-Method", 42), o, ("Content-MD5", 51),
   ("Trailer", 67), o, ("From", 15), o, ("Content-Encoding", 29), ("Referer", 7),
   ("Authorization", 45), ("Sec-Fetch-User", 85), o, ("Content-Location", 50), o, o, o, o,
   ("CF-Connecting-IP", 89), ("CF-IPCountry", 90), ("Cache-Control", 1),
   ("Proxy-Authorization", 62), o, ("Pragma", 11), o, o, ("Sec-Fetch-Dest", 86), o, o, o,
   ("Access-Control-Allow-Methods", 37), o, o, o, ("Max-Forwards", 60), o, o, o, o, o, o, o, o,
   ("X-Forwarded-Host", 18), o, o, o, ("Accept-Encoding", 5), o, o, o, o, ("CF-Visitor", 88), o,
   ("If-Modified-Since", 16), o, o, o, o, ("X-CSRF-Token", 20), o, o, o, o, o,
   ("Last-Modified", 30), ("Sec-Fetch-Mode", 84), ("Referrer-Policy", 77), ("Retry-After", 65), o,
   o, o, ("Strict-Transport-Security", 73), o, o, o, o, o, o, o, o, o, o, o, o, o, o,
   ("X-Forwarded-For", 8), o, ("X-Forwarded-Proto", 19), ("Sec-CH-UA-Platform", 91), o, o,
   ("Sec-CH-UA-Mobile", 82)]

/-- `hash`: the `switch` on the length falls through from the longest case down. -/
def hash (str : Bytes) : Nat :=
  let asso (i : Nat) := tableAt assoValues 182 (byteAt str i)
  let len := str.length
  let hval := len
  let hval := if 21 < len then hval + asso 21 else hval
  let hval := if 10 < len then hval + asso 10 else hval
  let hval := if 9 < len then hval + asso 9 else hval
  let hval := if 4 < len then hval + asso 4 else hval
  hval + asso (len - 1)

/-- `!gperf_case_strncmp (str, s, len)`; the walk also stops on a NUL of `str`. -/
def caseMatches : Bytes → Bytes → Bool
  | [], _ => true
  | c :: cs, s =>
    let c1 := kToLower c
    let c2 := kToLower (byteAt s 0)
    if c1 != 0 && c1 == c2 then caseMatches cs s.tail else c1 == c2

def lookupHttpHeader (str : Bytes) : Option HeaderId :=
  let len := str.length
  if 2 ≤ len ∧ len ≤ 32 then
    let key := hash str
    if key ≤ 181 then
      let slot := wordlist.getD key ("", 0)
      let s := ascii slot.1
      if (byteAt str 0 ^^^ byteAt s 0) &&& 0xDF == 0 && caseMatches str s && byteAt s len == 0 then
        some slot.2
      else none
    else none
  else none

def getHttpHeader (str : Bytes) : Option HeaderId := lookupHttpHeader str

end CosmoRuby.Http
