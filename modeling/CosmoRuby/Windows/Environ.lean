import Mathlib
import CosmoRuby.Lib.Bytes
import CosmoRuby.Windows.Transcode

/-!
# The environment block

`GetDosEnviron` turns the block of the parent into UTF-8 strings in a buffer and a list of pointers
to them. The buffer is the list of its bytes, a pointer its distance from the start of the buffer,
and a store outside of the buffer ends the computation with `none`. The block is followed by zeros.
-/

open CosmoRuby.Lib Option

namespace CosmoRuby.Windows

open List

/-! ## 1. Recoding one string -/

def storeByte (buf : Bytes) (i : Nat) (b : UInt8) : Option Bytes :=
  if i < buf.length then some (buf.set i b) else none

/-- The code points of the string in front, and what follows its NUL. Whatever is behind a unit
that is not UCS-2 is merged with it, a NUL too. -/
def takeString : List UInt16 → List Nat × List UInt16
  | [] => ([], [])
  | [x] =>
    if x = 0 then ([], [])
    else if isUcs2 x.toNat then ([x.toNat], []) else ([mergeUtf16 x.toNat 0], [])
  | x :: y :: src =>
    if x = 0 then ([], y :: src)
    else if isUcs2 x.toNat then
      (x.toNat :: (takeString (y :: src)).1, (takeString (y :: src)).2)
    else (mergeUtf16 x.toNat y.toNat :: (takeString src).1, (takeString src).2)

def toUpper (c : Nat) : Nat := if 97 ≤ c ∧ c ≤ 122 then c - 97 + 65 else c

def upperName : List Nat → List Nat
  | [] => []
  | x :: cs => if x = 61 then x :: cs else toUpper x :: upperName cs

def putBytes (base dstsize : Nat) : Bytes → Nat → Bytes → Option (Nat × Bytes)
  | [], ax, buf => some (ax, buf)
  | b :: bs, ax, buf =>
    if ax + 1 < dstsize then
      (storeByte buf (base + ax) b).bind fun buf => putBytes base dstsize bs (ax + 1) buf
    else some (ax, buf)

def putChars (base dstsize : Nat) : List Nat → Nat → Bytes → Option (Nat × Bytes)
  | [], ax, buf => some (ax, buf)
  | c :: cs, ax, buf =>
    (putBytes base dstsize (tpenc c) ax buf).bind fun r => putChars base dstsize cs r.1 r.2

def recode16to8 (base dstsize : Nat) (src : List UInt16) (buf : Bytes) : Option (Nat × Bytes) :=
  (putChars base dstsize (upperName (takeString src).1) 0 buf).bind fun r =>
    if r.1 < dstsize then (storeByte r.2 (base + r.1) 0).map fun buf => (r.1, buf) else some r

/-! ## 2. Paths in a value -/

def isAlpha (c : UInt8) : Bool := (65 ≤ c && c ≤ 90) || (97 ≤ c && c ≤ 122)

def fixDrives : Bytes → Bytes
  | s :: a :: c :: d :: text =>
    if s = 59 && isAlpha a && c = 58 && d = 47 then s :: fixDrives (47 :: a :: d :: text)
    else s :: fixDrives (a :: c :: d :: text)
  | text => text
termination_by text => text.length

def fixFirstDrive : Bytes → Bytes
  | a :: c :: d :: text =>
    if isAlpha a && c = 58 && d = 47 then 47 :: a :: d :: text else a :: c :: d :: text
  | text => text

def fixPath (path : Bytes) : Bytes :=
  let path := path.map fun c => if c = 92 then 47 else c
  (fixDrives (fixFirstDrive path)).map fun c => if c = 59 then 58 else c

def fixPathAt (buf : Bytes) (i : Nat) : Option Bytes :=
  let path := (buf.drop i).takeWhile (· ≠ 0)
  if i + path.length < buf.length then
    some (buf.take i ++ fixPath path ++ buf.drop (i + path.length))
  else none

def findEquals (buf : Bytes) (base n : Nat) : Option Nat :=
  (((buf.drop base).take n).findIdx? (· = 61)).map (base + ·)

def hasDrive (buf : Bytes) (p : Nat) : Bool :=
  isAlpha (byteAt buf (p + 1)) && byteAt buf (p + 2) = 58 &&
    (byteAt buf (p + 3) = 92 || byteAt buf (p + 3) = 47)

def fixValue (base n : Nat) (buf : Bytes) : Option Bytes :=
  match findEquals buf base n with
  | none => some buf
  | some p => if hasDrive buf p then fixPathAt buf (p + 1) else some buf

/-! ## 3. The block -/

def lessen (size n : Nat) : Nat := if n ≤ size then size - n else size + 2 ^ 64 - n

/-- The variables of the loop: the count of pointers, where `buf` points now, the room that is
left by the count of the code, the whole buffer and the pointers. -/
structure Environ where
  i : Nat
  base : Nat
  size : Nat
  buf : Bytes
  envp : List (Option Nat)
deriving DecidableEq

def Environ.point (s : Environ) : Environ :=
  if s.i + 1 < s.envp.length then
    { s with i := s.i + 1, envp := s.envp.set s.i (some s.base) }
  else s

def Environ.decode (env : List UInt16) (s : Environ) : Option Environ :=
  (recode16to8 s.base s.size env s.buf).bind fun r =>
    (fixValue s.base r.1 r.2).map fun buf =>
      { s.point with base := s.base + (r.1 + 1), size := lessen s.size (r.1 + 1), buf := buf }

def getDosEnvironFrom : Nat → List UInt16 → Environ → Option Environ
  | 0, _, s => some s
  | fuel + 1, env, s =>
    if env.headD 0 = 0 then some s
    else (s.decode env).bind fun s => getDosEnvironFrom fuel (takeString env).2 s

def getDosEnviron (env : List UInt16) (buf : Bytes) (envp : List (Option Nat)) : Option Environ :=
  getDosEnvironFrom env.length env ⟨0, 0, lessen buf.length 1, buf, envp⟩

/-! ## 4. Stores of one variable -/

structure SameOutside (a b : Nat) (buf buf' : Bytes) : Prop where
  length : buf'.length = buf.length
  same : ∀ j, j < a ∨ b ≤ j → buf'[j]? = buf[j]?

theorem SameOutside.refl (a b : Nat) (buf : Bytes) : SameOutside a b buf buf :=
  ⟨rfl, fun _ _ => rfl⟩

variable {a b base dstsize e : Nat} {buf buf' : Bytes}

theorem SameOutside.trans {buf'' : Bytes} (h : SameOutside a b buf buf')
    (h' : SameOutside a b buf' buf'') : SameOutside a b buf buf'' :=
  ⟨h'.length.trans h.length, fun j hj => (h'.same j hj).trans (h.same j hj)⟩

theorem SameOutside.mono {a' b' : Nat} (h : SameOutside a b buf buf')
    (ha : a' ≤ a) (hb : b ≤ b') : SameOutside a' b' buf buf' :=
  ⟨h.length, fun j hj => h.same j (by omega)⟩

theorem sameOutside_set (buf : Bytes) (i : Nat) (b : UInt8) :
    SameOutside i (i + 1) buf (buf.set i b) :=
  ⟨length_set, fun j hj => List.getElem?_set_ne (by omega)⟩

theorem putBytes_inside (bs : Bytes) (ax : Nat) (buf : Bytes)
    (hax : ax < dstsize) (hroom : base + dstsize ≤ buf.length) :
    ∃ buf', putBytes base dstsize bs ax buf = some (min (ax + bs.length) (dstsize - 1), buf') ∧
      SameOutside base (base + dstsize) buf buf' := by
  induction bs generalizing ax buf with
  | nil =>
    refine ⟨buf, ?_, SameOutside.refl _ _ _⟩
    rw [putBytes, length_nil, Nat.add_zero, Nat.min_eq_left (by omega)]
  | cons b bs ih =>
    rw [putBytes]
    by_cases hlt : ax + 1 < dstsize
    · have hin : base + ax < buf.length := by omega
      obtain ⟨buf', hput, hsame⟩ := ih (ax + 1) (buf.set (base + ax) b) hlt
        (by rw [length_set]; exact hroom)
      have hlen : ax + 1 + bs.length = ax + (b :: bs).length := by rw [length_cons]; omega
      rw [if_pos hlt, storeByte, if_pos hin, bind_some, hput, hlen]
      exact ⟨buf', rfl, ((sameOutside_set buf _ b).mono (by omega) (by omega)).trans hsame⟩
    · rw [if_neg hlt]
      refine ⟨buf, ?_, SameOutside.refl _ _ _⟩
      rw [Nat.min_eq_right (by rw [length_cons]; omega), show dstsize - 1 = ax by omega]

theorem putBytes_append (bs bs' : Bytes) (ax : Nat) (buf : Bytes) :
    putBytes base dstsize (bs ++ bs') ax buf =
      (putBytes base dstsize bs ax buf).bind fun r => putBytes base dstsize bs' r.1 r.2 := by
  induction bs generalizing ax buf with
  | nil => rfl
  | cons b bs ih =>
    rw [cons_append, putBytes, putBytes]
    split_ifs with hlt
    · simp only [ih, bind_assoc]
    · cases bs' with
      | nil => rfl
      | cons c bs' => rw [bind_some, putBytes, if_neg hlt]

theorem putChars_eq (cs : List Nat) (ax : Nat) (buf : Bytes) :
    putChars base dstsize cs ax buf = putBytes base dstsize (cs.flatMap tpenc) ax buf := by
  induction cs generalizing ax buf with
  | nil => rfl
  | cons c cs ih => simp only [putChars, flatMap_cons, putBytes_append, ih]

def variableText (env : List UInt16) : Bytes := (upperName (takeString env).1).flatMap tpenc

theorem recode16to8_inside (env : List UInt16) (buf : Bytes)
    (hpos : 0 < dstsize) (hroom : base + dstsize ≤ buf.length) :
    ∃ buf', recode16to8 base dstsize env buf =
        some (min (variableText env).length (dstsize - 1), buf') ∧
      SameOutside base (base + dstsize) buf buf' ∧
      buf'[base + min (variableText env).length (dstsize - 1)]? = some 0 := by
  obtain ⟨buf₁, hput, hsame⟩ := putBytes_inside (variableText env) 0 buf hpos hroom
  rw [Nat.zero_add] at hput
  generalize hax : min (variableText env).length (dstsize - 1) = ax at hput ⊢
  have hlt : ax < dstsize := by omega
  have hin : base + ax < buf₁.length := by rw [hsame.length]; omega
  refine ⟨buf₁.set (base + ax) 0, ?_, ?_, List.getElem?_set_self hin⟩
  · rw [recode16to8, putChars_eq, ← variableText, hput, bind_some, if_pos hlt, storeByte, if_pos hin]
    rfl
  · exact hsame.trans ((sameOutside_set _ _ _).mono (by omega) (by omega))

theorem recode16to8_zero (base : Nat) (env : List UInt16) (buf : Bytes) :
    recode16to8 base 0 env buf = some (0, buf) := by
  have hbytes : putBytes base 0 (variableText env) 0 buf = some (0, buf) := by
    cases variableText env with
    | nil => rfl
    | cons b bs => rw [putBytes, if_neg (Nat.not_lt_zero _)]
  rw [recode16to8, putChars_eq, ← variableText, hbytes, bind_some, if_neg (Nat.lt_irrefl 0)]

theorem recode16to8_outside (env : List UInt16) (buf : Bytes)
    (hsize : 1 < dstsize) (hbase : buf.length ≤ base) (htext : (takeString env).1 ≠ []) :
    recode16to8 base dstsize env buf = none := by
  have hupper : upperName (takeString env).1 ≠ [] := by
    cases h : (takeString env).1 with
    | nil => exact absurd h htext
    | cons x cs =>
      rw [upperName]
      split <;> exact cons_ne_nil _ _
  obtain ⟨c, cs, hcs⟩ := exists_cons_of_ne_nil hupper
  obtain ⟨b, bs, hbs⟩ := exists_cons_of_ne_nil (tpenc_ne_nil c)
  rw [recode16to8, putChars_eq, hcs, flatMap_cons, hbs, cons_append, putBytes, if_pos (by omega), storeByte,
    if_neg (by omega)]
  rfl

theorem takeString_ne_nil {env : List UInt16} (h : env.headD 0 ≠ 0) : (takeString env).1 ≠ [] := by
  match env with
  | [] => exact absurd rfl h
  | [x] | x :: y :: src =>
    have hx : x ≠ 0 := h
    rw [takeString, if_neg hx]
    split <;> exact cons_ne_nil _ _

/-! ## 5. Stores of a path -/

theorem length_fixDrives (path : Bytes) : (fixDrives path).length = path.length := by
  induction path using fixDrives.induct with
  | case1 s a c d text h ih =>
    rw [fixDrives, if_pos h]
    simp only [length_cons] at ih ⊢
    omega
  | case2 s a c d text h ih =>
    rw [fixDrives, if_neg h]
    simp only [length_cons] at ih ⊢
    omega
  | case3 text h => rw [fixDrives]; exact h

theorem length_fixFirstDrive (path : Bytes) : (fixFirstDrive path).length = path.length := by
  match path with
  | [] => rfl
  | [_] => rfl
  | [_, _] => rfl
  | a :: c :: d :: text =>
    rw [fixFirstDrive]
    split <;> rfl

theorem length_fixPath (path : Bytes) : (fixPath path).length = path.length := by
  rw [fixPath, length_map, length_fixDrives, length_fixFirstDrive, length_map]

theorem fixPathAt_inside {i : Nat} (hie : i ≤ e) (he : buf[e]? = some 0) :
    ∃ buf', fixPathAt buf i = some buf' ∧ SameOutside i e buf buf' := by
  obtain ⟨path, hpath⟩ : ∃ path, (buf.drop i).takeWhile (· ≠ 0) = path := ⟨_, rfl⟩
  have hlt : e < buf.length := (List.getElem?_eq_some_iff.1 he).1
  -- the first NUL is at `e` or before
  have hle : path.length ≤ e - i := by
    by_contra hgt
    have hmem : (0 : UInt8) ∈ path := by
      have hget : path[e - i]? = some 0 := by
        have hpre := takeWhile_prefix (fun c : UInt8 => decide (c ≠ 0)) (l := buf.drop i)
        rw [hpath] at hpre
        rw [List.getElem?_eq_getElem (by omega), ← List.prefix_iff_getElem?.1 hpre (e - i) (by omega),
          List.getElem?_drop, Nat.add_sub_cancel' hie, he]
      exact List.mem_of_getElem? hget
    rw [← hpath] at hmem
    have hne := mem_takeWhile_imp hmem
    exact absurd rfl (of_decide_eq_true hne)
  have htotal : i + path.length < buf.length := by omega
  rw [fixPathAt, hpath, if_pos htotal]
  have htake : (buf.take i).length = i := by rw [length_take]; omega
  have hfixed : (buf.take i ++ fixPath path).length = i + path.length := by
    rw [length_append, htake, length_fixPath]
  refine ⟨_, rfl, ?_, fun j hj => ?_⟩
  · rw [length_append, hfixed, length_drop]
    omega
  · rcases hj with hj | hj
    · rw [append_assoc, List.getElem?_append_left (by omega), List.getElem?_take_of_lt hj]
    · rw [List.getElem?_append_right (by omega), hfixed, List.getElem?_drop]
      congr 1
      omega

theorem fixValue_inside {n : Nat} (hnul : buf[base + n]? = some 0) :
    ∃ buf', fixValue base n buf = some buf' ∧ SameOutside base (base + n) buf buf' := by
  rw [fixValue]
  cases hp : findEquals buf base n with
  | none => exact ⟨buf, rfl, SameOutside.refl _ _ _⟩
  | some p =>
    obtain ⟨k, hk, rfl⟩ := Option.map_eq_some_iff.1 hp
    have hlt : k < n := by
      have hbound := (List.findIdx?_eq_some_iff_getElem.1 hk).1
      rw [length_take] at hbound
      omega
    change ∃ buf', (if hasDrive buf (base + k) then fixPathAt buf (base + k + 1) else some buf) =
      some buf' ∧ _
    split
    · obtain ⟨buf', hfix, hsame⟩ := fixPathAt_inside (i := base + k + 1) (by omega) hnul
      exact ⟨buf', hfix, hsame.mono (by omega) (Nat.le_refl _)⟩
    · exact ⟨buf, rfl, SameOutside.refl _ _ _⟩

theorem fixValue_zero (base : Nat) (buf : Bytes) : fixValue base 0 buf = some buf := rfl

/-! ## 6. Runs -/

def variablesFrom : Nat → List UInt16 → List Bytes
  | 0, _ => []
  | fuel + 1, env =>
    if env.headD 0 = 0 then [] else variableText env :: variablesFrom fuel (takeString env).2

def variableTexts (env : List UInt16) : List Bytes := variablesFrom env.length env

def beyond : Nat → List Bytes → List Bytes
  | 0, vs => vs
  | _ + 1, [] => []
  | room + 1, v :: vs => beyond (room - v.length) vs

/-- What is to hold at the end: each pointer has a NUL behind it in the buffer, and a null pointer
follows the last one. -/
structure Environ.Good (s : Environ) : Prop where
  strings : ∀ k < s.i, ∃ o j, s.envp[k]? = some (some o) ∧ o ≤ j ∧ s.buf[j]? = some 0
  null : s.envp[s.i]? = some none

/-- Before a variable, as long as the count of the room that is left is right. One byte is kept
back at the end of the buffer. -/
structure Environ.Inside (buf₀ : Bytes) (envp₀ : List (Option Nat)) (s : Environ) : Prop where
  length : s.buf.length = buf₀.length
  room : s.base + s.size + 1 = buf₀.length
  last : s.buf[s.base + s.size]? = buf₀[s.base + s.size]?
  count : s.i + 1 ≤ envp₀.length
  envpLength : s.envp.length = envp₀.length
  rest : ∀ k, s.i ≤ k → s.envp[k]? = envp₀[k]?
  strings : ∀ k < s.i, ∃ o j, s.envp[k]? = some (some o) ∧ o ≤ j ∧ j < s.base ∧ s.buf[j]? = some 0

section Runs

variable {buf₀ : Bytes} {envp₀ : List (Option Nat)} {s s' : Environ} {env : List UInt16}

section

variable (h : s.Inside buf₀ envp₀)
include h

theorem Environ.point_strings (hbase : s.base ≤ e) (hnul : s.i + 1 < envp₀.length → buf'[e]? = some 0)
    (hsame : ∀ j < s.base, buf'[j]? = s.buf[j]?) :
    ∀ k < s.point.i, ∃ o j, s.point.envp[k]? = some (some o) ∧ o ≤ j ∧ j < e + 1 ∧
      buf'[j]? = some 0 := by
  intro k hk
  rw [Environ.point, h.envpLength] at hk ⊢
  split_ifs at hk ⊢ with hmax
  · change k < s.i + 1 at hk
    change ∃ o j, (s.envp.set s.i (some s.base))[k]? = some (some o) ∧ _
    rcases Nat.eq_or_lt_of_le (Nat.le_of_lt_succ hk) with rfl | hlt
    · refine ⟨s.base, e, ?_, hbase, Nat.lt_succ_self e, hnul hmax⟩
      rw [List.getElem?_set_self (by rw [h.envpLength]; omega)]
    · obtain ⟨o, j, hptr, hoj, hj, hzero⟩ := h.strings k hlt
      refine ⟨o, j, ?_, hoj, by omega, by rw [hsame j hj, hzero]⟩
      rw [List.getElem?_set_ne (by omega), hptr]
  · obtain ⟨o, j, hptr, hoj, hj, hzero⟩ := h.strings k hk
    exact ⟨o, j, hptr, hoj, by omega, by rw [hsame j hj, hzero]⟩

theorem Environ.point_rest (k : Nat) (hk : s.point.i ≤ k) : s.point.envp[k]? = envp₀[k]? := by
  rw [Environ.point, h.envpLength] at hk ⊢
  split_ifs at hk ⊢ with hmax
  · change s.i + 1 ≤ k at hk
    change (s.envp.set s.i (some s.base))[k]? = _
    rw [List.getElem?_set_ne (by omega), h.rest k (by omega)]
  · exact h.rest k hk

theorem Environ.point_count : s.point.i = min (s.i + 1) (envp₀.length - 1) := by
  have hcount := h.count
  rw [Environ.point, h.envpLength]
  split
  · next hlt =>
    change s.i + 1 = _
    omega
  · omega

theorem Environ.point_envpLength : s.point.envp.length = envp₀.length := by
  rw [Environ.point]
  split
  · exact List.length_set.trans h.envpLength
  · exact h.envpLength

end

theorem Environ.Inside.decode (env : List UInt16) (h : s.Inside buf₀ envp₀) (hsize : 0 < s.size) :
    ∃ s', s.decode env = some s' ∧ s'.Inside buf₀ envp₀ ∧
      s'.i = min (s.i + 1) (envp₀.length - 1) ∧ s'.size = s.size - 1 - (variableText env).length := by
  have hroom := h.room
  have hlength := h.length
  obtain ⟨buf₁, hrec, hsame₁, hnul₁⟩ := recode16to8_inside env s.buf hsize
    (show s.base + s.size ≤ s.buf.length by omega)
  obtain ⟨n, hn⟩ : ∃ n, min (variableText env).length (s.size - 1) = n := ⟨_, rfl⟩
  rw [hn] at hrec hnul₁
  obtain ⟨buf₂, hfix, hsame₂⟩ := fixValue_inside hnul₁
  have hnul₂ : buf₂[s.base + n]? = some 0 := by rw [hsame₂.same _ (.inr (Nat.le_refl _)), hnul₁]
  have hsame : SameOutside s.base (s.base + s.size) s.buf buf₂ :=
    hsame₁.trans (hsame₂.mono (Nat.le_refl _) (by omega))
  have hless : lessen s.size (n + 1) = s.size - (n + 1) := if_pos (by omega)
  refine ⟨{ s.point with base := s.base + (n + 1), size := lessen s.size (n + 1), buf := buf₂ },
    ?_, ⟨?_, ?_, ?_, ?_, ?_, ?_, ?_⟩, Environ.point_count h, ?_⟩
  · rw [Environ.decode, hrec, bind_some, hfix]
    rfl
  · exact hsame.length.trans h.length
  · change s.base + (n + 1) + lessen s.size (n + 1) + 1 = _
    omega
  · change buf₂[s.base + (n + 1) + lessen s.size (n + 1)]? = buf₀[s.base + (n + 1) + lessen s.size (n + 1)]?
    rw [hless, show s.base + (n + 1) + (s.size - (n + 1)) = s.base + s.size by omega,
      hsame.same _ (.inr (Nat.le_refl _)), h.last]
  · change s.point.i + 1 ≤ _
    rw [Environ.point_count h]
    have hcount := h.count
    omega
  · exact Environ.point_envpLength h
  · exact Environ.point_rest h
  · exact Environ.point_strings h (Nat.le_add_right _ _) (fun _ => hnul₂)
      fun j hj => hsame.same j (.inl hj)
  · change lessen s.size (n + 1) = _
    omega

/-- A variable that begins without room: a pointer to the byte kept back, and a count of the room
that has wrapped around. -/
theorem Environ.decode_zero (hsize : s.size = 0) :
    s.decode env = some { s.point with base := s.base + 1, size := 2 ^ 64 - 1 } := by
  rw [Environ.decode, hsize, recode16to8_zero, bind_some, fixValue_zero, map_some]
  congr 1
  rw [Environ.point]
  split <;> rfl

theorem Environ.decode_outside (hsize : 1 < s.size) (hbase : s.buf.length ≤ s.base)
    (henv : env.headD 0 ≠ 0) : s.decode env = none := by
  rw [Environ.decode, recode16to8_outside env s.buf hsize hbase (takeString_ne_nil henv)]
  rfl

theorem getDosEnvironFrom_done (fuel : Nat) (henv : env.headD 0 = 0) :
    getDosEnvironFrom fuel env s = some s := by
  cases fuel with
  | zero => rfl
  | succ fuel => rw [getDosEnvironFrom, if_pos henv]

theorem variablesFrom_done (fuel : Nat) (henv : env.headD 0 = 0) : variablesFrom fuel env = [] := by
  cases fuel with
  | zero => rfl
  | succ fuel => rw [variablesFrom, if_pos henv]

/-- What the state before the next variable, the texts that are left and the bytes and pointers
that were there before come to. -/
structure Enough (buf₀ : Bytes) (envp₀ : List (Option Nat)) (i room : Nat) (vs : List Bytes) :
    Prop where
  beyond : (beyond room vs).length ≤ 1
  kept : (Windows.beyond room vs).length = 1 → i + vs.length < envp₀.length →
    buf₀[buf₀.length - 1]? = some 0
  null : envp₀[min (i + vs.length) (envp₀.length - 1)]? = some none

theorem good_of_inside (h : s.Inside buf₀ envp₀) : s.Good ↔ envp₀[s.i]? = some none := by
  rw [← h.rest s.i (Nat.le_refl _)]
  refine ⟨fun hgood => hgood.null, fun hnull => ⟨fun k hk => ?_, hnull⟩⟩
  obtain ⟨o, j, hptr, hoj, -, hzero⟩ := h.strings k hk
  exact ⟨o, j, hptr, hoj, hzero⟩

theorem Environ.point_buf (s : Environ) : s.point.buf = s.buf := by
  rw [Environ.point]
  split <;> rfl

theorem good_last (h : s.Inside buf₀ envp₀) (hsize : s.size = 0) :
    { s.point with base := s.base + 1, size := 2 ^ 64 - 1 : Environ }.Good ↔
      (s.i + 1 < envp₀.length → buf₀[buf₀.length - 1]? = some 0) ∧
        envp₀[min (s.i + 1) (envp₀.length - 1)]? = some none := by
  have hroom := h.room
  have hbase : s.base = buf₀.length - 1 := by omega
  have hlast : s.buf[s.base]? = buf₀[buf₀.length - 1]? := by
    have hsame := h.last
    rw [hsize, Nat.add_zero] at hsame
    rw [hsame, hbase]
  have hnull : s.point.envp[s.point.i]? = envp₀[min (s.i + 1) (envp₀.length - 1)]? := by
    rw [Environ.point_rest h _ (Nat.le_refl _), Environ.point_count h]
  constructor
  · rintro ⟨hstrings, hend⟩
    refine ⟨fun hmax => ?_, hnull.symm.trans hend⟩
    have hi : s.point.i = s.i + 1 := by rw [Environ.point_count h]; omega
    obtain ⟨o, j, hptr, hoj, hzero⟩ := hstrings s.i (by rw [hi]; exact Nat.lt_succ_self _)
    have henvp : s.point.envp[s.i]? = some (some s.base) := by
      rw [Environ.point, if_pos (by rw [h.envpLength]; exact hmax)]
      exact List.getElem?_set_self (by rw [h.envpLength]; omega)
    have ho : s.base = o := Option.some.inj (Option.some.inj (henvp.symm.trans hptr))
    change s.point.buf[j]? = some 0 at hzero
    rw [s.point_buf] at hzero
    have hj : j < s.buf.length := (List.getElem?_eq_some_iff.1 hzero).1
    have hjb : j = s.base := by
      rw [h.length] at hj
      omega
    rw [← hlast, ← hjb, hzero]
  · rintro ⟨hkept, hend⟩
    refine ⟨fun k hk => ?_, hnull.trans hend⟩
    obtain ⟨o, j, hptr, hoj, -, hzero⟩ := Environ.point_strings h (Nat.le_refl _)
      (fun hmax => hlast.trans (hkept hmax)) (fun _ _ => rfl) k hk
    exact ⟨o, j, hptr, hoj, s.point_buf.symm ▸ hzero⟩

theorem beyond_nil (room : Nat) : beyond room [] = [] := by
  cases room <;> rfl

theorem enough_step (hcount : s.i + 1 ≤ envp₀.length) (room : Nat) (v : Bytes) (vs : List Bytes) :
    Enough buf₀ envp₀ (min (s.i + 1) (envp₀.length - 1)) (room - v.length) vs ↔
      Enough buf₀ envp₀ s.i (room + 1) (v :: vs) := by
  have hmin : min (min (s.i + 1) (envp₀.length - 1) + vs.length) (envp₀.length - 1) =
      min (s.i + (v :: vs).length) (envp₀.length - 1) := by
    rw [length_cons]
    omega
  have hlt : min (s.i + 1) (envp₀.length - 1) + vs.length < envp₀.length ↔
      s.i + (v :: vs).length < envp₀.length ∨
        s.i + 1 = envp₀.length ∧ vs = [] := by
    rw [length_cons, ← length_eq_zero_iff]
    omega
  constructor
  · rintro ⟨hbeyond, hkept, hnull⟩
    exact ⟨hbeyond, fun hone hmax => hkept hone (hlt.2 (.inl hmax)), hmin ▸ hnull⟩
  · rintro ⟨hbeyond, hkept, hnull⟩
    refine ⟨hbeyond, fun hone hmax => ?_, hmin.symm ▸ hnull⟩
    rcases hlt.1 hmax with hmax | ⟨-, rfl⟩
    · exact hkept hone hmax
    · -- no variable is left, so that none is beyond the room
      rw [beyond_nil] at hone
      exact absurd hone (by decide)

theorem enough_nil (hcount : s.i + 1 ≤ envp₀.length) (room : Nat) :
    Enough buf₀ envp₀ s.i room [] ↔ envp₀[s.i]? = some none := by
  have hmin : min (s.i + ([] : List Bytes).length) (envp₀.length - 1) = s.i := by
    rw [length_nil]
    omega
  refine ⟨fun h => hmin ▸ h.null, fun h => ⟨by rw [beyond_nil]; decide, fun hone => ?_, hmin.symm ▸ h⟩⟩
  rw [beyond_nil] at hone
  exact absurd hone (by decide)

theorem good_done (h : s.Inside buf₀ envp₀) (room : Nat) :
    (∃ s', some s = some s' ∧ s'.Good) ↔ Enough buf₀ envp₀ s.i room [] := by
  rw [enough_nil h.count, ← good_of_inside h]
  exact ⟨fun ⟨_, hs, hgood⟩ => Option.some.inj hs ▸ hgood, fun hgood => ⟨s, rfl, hgood⟩⟩

theorem getDosEnvironFrom_good_iff (fuel : Nat) (h : s.Inside buf₀ envp₀) :
    (∃ s', getDosEnvironFrom fuel env s = some s' ∧ s'.Good) ↔
      Enough buf₀ envp₀ s.i s.size (variablesFrom fuel env) := by
  induction fuel generalizing env s with
  | zero =>
    exact good_done h s.size
  | succ fuel ih =>
    rw [getDosEnvironFrom, variablesFrom]
    by_cases henv : env.headD 0 = 0
    · rw [if_pos henv, if_pos henv]
      exact good_done h s.size
    · rw [if_neg henv, if_neg henv]
      rcases Nat.eq_zero_or_pos s.size with hsize | hsize
      · -- no room is left: the variable has no string, and one behind it is stored outside
        rw [Environ.decode_zero hsize, bind_some, hsize]
        by_cases hmore : (takeString env).2.headD 0 = 0 ∨ fuel = 0
        · have hdone : (∀ s, getDosEnvironFrom fuel (takeString env).2 s = some s) ∧
              variablesFrom fuel (takeString env).2 = [] := by
            rcases hmore with hnone | rfl
            · exact ⟨fun s => getDosEnvironFrom_done fuel hnone, variablesFrom_done fuel hnone⟩
            · exact ⟨fun s => rfl, rfl⟩
          rw [hdone.1, hdone.2]
          constructor
          · rintro ⟨s', hs', hgood⟩
            rw [← Option.some.inj hs', good_last h hsize] at hgood
            exact ⟨Nat.le_refl 1, fun _ => hgood.1, hgood.2⟩
          · rintro ⟨-, hkept, hnull⟩
            exact ⟨_, rfl, (good_last h hsize).2 ⟨hkept rfl, hnull⟩⟩
        · push Not at hmore
          obtain ⟨hmore, hfuel⟩ := hmore
          obtain ⟨k, rfl⟩ := Nat.exists_eq_succ_of_ne_zero hfuel
          have hroom := h.room
          have hout : s.buf.length ≤ s.base + 1 := by rw [h.length]; omega
          have hnone : getDosEnvironFrom (k + 1) (takeString env).2
              { s.point with base := s.base + 1, size := 2 ^ 64 - 1 } = none := by
            rw [getDosEnvironFrom, if_neg hmore, Environ.decode_outside (show 1 < 2 ^ 64 - 1 by decide) ?_ hmore]
            · rfl
            · change s.point.buf.length ≤ s.base + 1
              rw [s.point_buf]
              exact hout
          constructor
          · rintro ⟨s', hs', -⟩
            rw [hnone] at hs'
            cases hs'
          · rintro ⟨hbeyond, -, -⟩
            rw [variablesFrom, if_neg hmore] at hbeyond
            exact absurd hbeyond (by simp [beyond])
      · obtain ⟨s', hdecode, hinside, hi, hs'⟩ := h.decode env hsize
        obtain ⟨room, hroom⟩ : ∃ room, s.size = room + 1 := ⟨s.size - 1, by omega⟩
        rw [hdecode, bind_some, ih hinside, hi, hs', hroom, Nat.add_sub_cancel,
          enough_step h.count]

end Runs

/-- Everything `GetDosEnviron` stores is inside its two buffers, its pointers are to strings that
end in the buffer, and the list of them ends with a null pointer. -/
def StaysInBuffers (env : List UInt16) (buf : Bytes) (envp : List (Option Nat)) : Prop :=
  ∃ s, getDosEnviron env buf envp = some s ∧ s.Good

/-- The property holds exactly if at most one variable comes when the room is used up, that one
finds a NUL in the last byte if it gets a pointer, and a null pointer was there already. -/
theorem staysInBuffers_iff_enough (env : List UInt16) (buf : Bytes) (envp : List (Option Nat))
    (hbuf : buf ≠ []) (henvp : envp ≠ []) :
    StaysInBuffers env buf envp ↔ Enough buf envp 0 (buf.length - 1) (variableTexts env) := by
  have hlen : 1 ≤ buf.length := List.length_pos_iff.2 hbuf
  have hmax : 1 ≤ envp.length := List.length_pos_iff.2 henvp
  have hless : lessen buf.length 1 = buf.length - 1 := if_pos hlen
  have hinside : (⟨0, 0, lessen buf.length 1, buf, envp⟩ : Environ).Inside buf envp := by
    refine ⟨rfl, ?_, rfl, ?_, rfl, fun _ _ => rfl, fun k hk => absurd hk (Nat.not_lt_zero k)⟩
    · change 0 + lessen buf.length 1 + 1 = buf.length
      omega
    · exact hmax
  rw [← hless]
  exact getDosEnvironFrom_good_iff env.length hinside

theorem staysInBuffers_two :
    StaysInBuffers [65, 61, 49, 0, 66, 0, 0] (List.replicate 8 1) [none, none, none] := by
  refine (staysInBuffers_iff_enough _ _ _ (by decide) (by decide)).2 ⟨?_, ?_, ?_⟩ <;> decide

/-- Three variables of one letter and a buffer of three bytes: the first fills it, and the third is
stored behind it. -/
theorem getDosEnviron_stores_outside :
    getDosEnviron [65, 0, 66, 0, 67, 0, 0] [0, 0, 0] [none, none, none, none] = none ∧
      ¬ StaysInBuffers [65, 0, 66, 0, 67, 0, 0] [0, 0, 0] [none, none, none, none] := by
  have hnone : getDosEnviron [65, 0, 66, 0, 67, 0, 0] [0, 0, 0] [none, none, none, none] = none := by
    decide
  refine ⟨hnone, ?_⟩
  rintro ⟨s, hs, -⟩
  rw [hnone] at hs
  cases hs

end CosmoRuby.Windows