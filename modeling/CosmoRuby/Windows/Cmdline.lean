import Mathlib
import CosmoRuby.Lib.Bytes
import CosmoRuby.Windows.Transcode

/-!
# Command lines

`mkntcmdline` joins arguments to a Windows command line and `GetDosArgv` takes one apart. Both work
on characters: the first reads UTF-8 and appends UTF-16, the second the other way round. What they
append is modelled as the list of characters, from which the units or bytes in the output buffer
follow.
-/

open CosmoRuby.Lib

namespace CosmoRuby.Windows

open List

def quote : Nat := 34
def backslash : Nat := 92

def isBlank (c : Nat) : Bool := c == 32 || c == 9

/-! ## 1. Making a command line -/

def needsQuotes (s : Bytes) : Bool :=
  s.isEmpty || s.any fun c => c == 34 || c == 32 || c == 9 || c == 11 || c == 10

def isLetter (c : UInt8) : Bool := (65 ≤ c && c ≤ 90) || (97 ≤ c && c ≤ 122)

def looksLikeCosmoDrivePath (s : Bytes) : Bool :=
  byteAt s 0 == 47 && isLetter (byteAt s 1) && byteAt s 2 == 47

def mungeColons : Bytes → Bytes
  | [] => []
  | c :: text => (if c = 58 ∧ byteAt text 0 ≠ 92 then 59 else c) :: mungeColons text

def mungeFirstDrive (text : Bytes) : Bytes :=
  if looksLikeCosmoDrivePath text then byteAt text 1 :: 58 :: text.drop 2 else text

def mungeDrives : Nat → Bytes → Bytes
  | 0, text => text
  | _, [] => []
  | fuel + 1, c :: text =>
    if c = 59 ∧ looksLikeCosmoDrivePath text then
      c :: mungeDrives fuel (byteAt text 1 :: 58 :: text.drop 2)
    else c :: mungeDrives fuel text

def mungentpath (path : Bytes) : Bytes :=
  (mungeDrives path.length (mungeFirstDrive (mungeColons path))).map fun c => if c = 47 then 92 else c

/-- The argument, or the Windows spelling of a drive path that is shorter than `PATH_MAX`. -/
def argText (arg : Bytes) : Bytes :=
  if looksLikeCosmoDrivePath arg ∧ arg.length < 1024 then mungentpath arg else arg

def quoteLoop (needsquote : Bool) : Nat → List Nat → List Nat
  | slashes, [] =>
    replicate (if needsquote then 2 * slashes else slashes) backslash ++
      if needsquote then [quote] else []
  | slashes, x :: cs =>
    if x = backslash then quoteLoop needsquote (slashes + 1) cs
    else if x = quote then quote :: quote :: quote :: quoteLoop needsquote slashes cs
    else replicate slashes backslash ++ x :: quoteLoop needsquote 0 cs

def quoteArg (arg : Bytes) : List Nat :=
  (if needsQuotes arg then [quote] else []) ++
    quoteLoop (needsQuotes arg) 0 (readAllUtf8 arg.length arg)

def joinArgs : List Bytes → List Nat
  | [] => []
  | [arg] => quoteArg (argText arg)
  | arg :: args => quoteArg (argText arg) ++ 32 :: joinArgs args

def mkntcmdline (argv : List Bytes) (size : Nat) : List UInt16 × Nat :=
  let out := (joinArgs argv).flatMap encodeUtf16
  (out.take (size - 1), out.length)

/-! ## 2. Taking a command line apart -/

def countHead (c : Nat) : List Nat → Nat
  | [] => 0
  | x :: cs => if x = c then countHead c cs + 1 else 0

/-- What backslashes with quotes behind them append, and whether the text behind is in quotes. -/
def quoteRun (slashes quotes : Nat) (inquote : Bool) : List Nat × Bool :=
  let out := replicate (slashes / 2) backslash ++ if slashes % 2 = 1 then [quote] else []
  let quotes := if slashes % 2 = 1 then quotes - 1 else quotes
  if 0 < quotes then
    let quotes := if inquote then quotes else quotes - 1
    (out ++ replicate ((quotes + 1) / 3) quote, quotes % 3 == 0)
  else (out, inquote)

def takeArg : Nat → Bool → List Nat → List Nat × List Nat
  | 0, _, cs => ([], cs)
  | _, _, [] => ([], [])
  | fuel + 1, inquote, c :: cs =>
    if !inquote && isBlank c then ([], c :: cs)
    else if c = quote ∨ c = backslash then
      let slashes := countHead backslash (c :: cs)
      let rest := (c :: cs).drop slashes
      let quotes := countHead quote rest
      let rest := rest.drop quotes
      if quotes = 0 then
        let r := takeArg fuel inquote rest
        (replicate slashes backslash ++ r.1, r.2)
      else
        let q := quoteRun slashes quotes inquote
        let r := takeArg fuel q.2 rest
        (q.1 ++ r.1, r.2)
    else
      let r := takeArg fuel inquote cs
      (c :: r.1, r.2)

def takeArgs : Nat → List Nat → List (List Nat)
  | 0, _ => []
  | fuel + 1, cs =>
    let cs := cs.dropWhile isBlank
    if cs = [] then []
    else
      let r := takeArg cs.length false cs
      r.1 :: takeArgs fuel r.2

/-- What `GetDosArgv` leaves: the count it returns, `buf` and `argv`, where a pointer is its
distance from `buf`. -/
structure DosArgs where
  argc : Nat
  buf : Bytes
  argv : List (Option Nat)

def offsets : Nat → List (List Nat) → List Nat
  | _, [] => []
  | o, arg :: args => o :: offsets (o + (arg.flatMap tpenc).length + 1) args

def argsText (args : List (List Nat)) : Bytes :=
  args.flatMap fun arg => arg.flatMap tpenc ++ [0]

def getDosArgv (cmdline : List UInt16) (size max : Nat) : DosArgs :=
  let cs := readAllUtf16 cmdline
  let args := takeArgs cs.length cs
  let text := argsText args ++ [0]
  { argc := args.length
    buf := if size = 0 then [] else if text.length < size then text ++ [0] else text.take (size - 1) ++ [0]
    argv := if max = 0 then [] else
      ((offsets 0 args).take (max - 1)).map (fun o => if o < size then some o else none) ++ [none] }

/-! ## 3. Runs of backslashes and quotes -/

variable {c x : Nat}

theorem countHead_replicate {t : List Nat} (n : Nat) (ht : t.head? ≠ some c) :
    countHead c (replicate n c ++ t) = n := by
  induction n with
  | zero =>
    cases t with
    | nil => rfl
    | cons x t =>
      have hx : x ≠ c := fun h => ht (by rw [h]; rfl)
      rw [replicate_zero, nil_append, countHead, if_neg hx]
  | succ n ih => rw [replicate_succ, cons_append, countHead, if_pos rfl, ih]

theorem takeArg_nil (fuel : Nat) (q : Bool) : takeArg fuel q [] = ([], []) := by
  cases fuel with
  | zero => rfl
  | succ fuel => rfl

theorem takeArg_char (fuel : Nat) (q : Bool) (cs : List Nat) (hq : c ≠ quote)
    (hb : c ≠ backslash) (hblank : q = true ∨ isBlank c = false) :
    takeArg (fuel + 1) q (c :: cs) = (c :: (takeArg fuel q cs).1, (takeArg fuel q cs).2) := by
  have hin : ¬ (!q && isBlank c) = true := by
    rcases hblank with rfl | h
    · simp
    · simp [h]
  rw [takeArg, if_neg hin, if_neg (not_or.2 ⟨hq, hb⟩)]

theorem takeArg_run (fuel : Nat) (q : Bool) (s m : Nat) (t : List Nat) (hpos : 0 < s + m)
    (ht : t.head? ≠ some quote) (ht' : m = 0 → t.head? ≠ some backslash) :
    takeArg (fuel + 1) q (replicate s backslash ++ (replicate m quote ++ t)) =
      if m = 0 then
        (replicate s backslash ++ (takeArg fuel q t).1, (takeArg fuel q t).2)
      else
        ((quoteRun s m q).1 ++ (takeArg fuel (quoteRun s m q).2 t).1,
          (takeArg fuel (quoteRun s m q).2 t).2) := by
  obtain ⟨cs, hcs⟩ : ∃ cs, replicate s backslash ++ (replicate m quote ++ t) = cs :=
    ⟨_, rfl⟩
  have hslashes : countHead backslash cs = s := by
    rw [← hcs]
    apply countHead_replicate
    cases m with
    | zero => exact ht' rfl
    | succ m => exact fun h => absurd (Option.some.inj h) (by decide)
  have hrest : cs.drop s = replicate m quote ++ t := by
    rw [← hcs]
    exact drop_left' length_replicate
  have hquotes : countHead quote (cs.drop s) = m := by
    rw [hrest]
    exact countHead_replicate m ht
  have hrest' : (cs.drop s).drop m = t := by
    rw [hrest]
    exact drop_left' length_replicate
  -- the first character is one of the run
  obtain ⟨c, cs', hcons, hc⟩ : ∃ c cs', cs = c :: cs' ∧ (c = quote ∨ c = backslash) := by
    cases s with
    | succ s => exact ⟨backslash, _, hcs.symm, .inr rfl⟩
    | zero =>
      cases m with
      | zero => exact absurd hpos (Nat.lt_irrefl 0)
      | succ m => exact ⟨quote, _, hcs.symm, .inl rfl⟩
  have hblank : ¬ (!q && isBlank c) = true := by
    rcases hc with rfl | rfl <;> cases q <;> decide
  rw [hcs, hcons, takeArg, if_neg hblank, if_pos hc, ← hcons]
  simp only [hslashes, hquotes, hrest']

def Takes (q : Bool) (cs arg rest : List Nat) : Prop :=
  ∀ fuel, cs.length ≤ fuel → takeArg fuel q cs = (arg, rest)

section Takes

variable {q : Bool} {cs t arg rest : List Nat}

theorem Takes.of_cons (h : ∀ k, t.length ≤ k → takeArg (k + 1) q (c :: t) = (arg, rest)) :
    Takes q (c :: t) arg rest := by
  intro fuel hfuel
  cases fuel with
  | zero => cases hfuel
  | succ k => exact h k (Nat.le_of_succ_le_succ hfuel)

theorem Takes.char (h : Takes q t arg rest) (hq : c ≠ quote) (hb : c ≠ backslash)
    (hblank : q = true ∨ isBlank c = false) : Takes q (c :: t) (c :: arg) rest := by
  refine Takes.of_cons fun k hk => ?_
  rw [takeArg_char k q t hq hb hblank, h k hk]

theorem Takes.run {s m : Nat} {q' : Bool} {cs : List Nat} (hrun : quoteRun s m q = (cs, q')) (hm : m ≠ 0)
    (ht : t.head? ≠ some quote) (h : Takes q' t arg rest) :
    Takes q (replicate s backslash ++ (replicate m quote ++ t)) (cs ++ arg) rest := by
  intro fuel hfuel
  simp only [length_append, length_replicate] at hfuel
  obtain ⟨k, rfl⟩ : ∃ k, fuel = k + 1 := ⟨fuel - 1, by omega⟩
  rw [takeArg_run k q s m t (by omega) ht fun h => absurd h hm, if_neg hm, hrun, h k (by omega)]

theorem Takes.slashes (s : Nat) (ht : t.head? ≠ some quote) (ht' : t.head? ≠ some backslash)
    (h : Takes q t arg rest) :
    Takes q (replicate s backslash ++ t) (replicate s backslash ++ arg) rest := by
  cases s with
  | zero => exact h
  | succ s =>
    intro fuel hfuel
    simp only [length_append, length_replicate] at hfuel
    obtain ⟨k, rfl⟩ : ∃ k, fuel = k + 1 := ⟨fuel - 1, by omega⟩
    have hrun := takeArg_run k q (s + 1) 0 t (Nat.succ_pos s) ht fun _ => ht'
    rw [replicate_zero, nil_append, if_pos rfl, h k (by omega)] at hrun
    exact hrun

theorem exists_quotes (cs : List Nat) :
    ∃ m t, cs = replicate m quote ++ t ∧ t.head? ≠ some quote := by
  induction cs with
  | nil => exact ⟨0, [], rfl, nofun⟩
  | cons c cs ih =>
    by_cases hc : c = quote
    · obtain ⟨m, t, hcs, ht⟩ := ih
      exact ⟨m + 1, t, by rw [hc, hcs]; rfl, ht⟩
    · exact ⟨0, c :: cs, rfl, fun h => hc (Option.some.inj h)⟩

theorem Takes.opening (h : Takes true cs arg rest) : Takes false (quote :: cs) arg rest := by
  obtain ⟨m, t, rfl, ht⟩ := exists_quotes cs
  cases m with
  | zero => exact Takes.run (s := 0) (m := 1) rfl Nat.one_ne_zero ht h
  | succ m =>
    refine Takes.of_cons fun k hk => ?_
    -- one quote more outside of quotes is the same run inside
    have hrun : quoteRun 0 (m + 1 + 1) false = quoteRun 0 (m + 1) true := rfl
    have hin := h (k + 1) (by omega)
    have hopen := takeArg_run k false 0 (m + 1 + 1) t (by omega) ht fun h => nomatch h
    have hinside := takeArg_run k true 0 (m + 1) t (by omega) ht fun h => nomatch h
    rw [if_neg (Nat.succ_ne_zero _), hrun] at hopen
    rw [if_neg (Nat.succ_ne_zero _)] at hinside
    rw [← hin]
    exact hopen.trans hinside.symm

theorem Takes.quotes (k : Nat) (ht : t.head? ≠ some quote) (h : Takes true t arg rest) :
    Takes true (replicate (3 * k) quote ++ t) (replicate k quote ++ arg) rest := by
  cases k with
  | zero => exact h
  | succ k =>
    have hrun : quoteRun 0 (3 * (k + 1)) true = (replicate (k + 1) quote, true) := by
      have hdiv : (3 * (k + 1) + 1) / 3 = k + 1 := by omega
      have hmod : 3 * (k + 1) % 3 = 0 := by omega
      simp [quoteRun, hdiv, hmod]
    exact Takes.run (s := 0) hrun (by omega) ht h

theorem Takes.closing (k p : Nat) (ht : rest.head? ≠ some quote) (h : Takes false rest [] rest) :
    Takes true (replicate (3 * k) quote ++ (replicate (2 * p) backslash ++ quote :: rest))
      (replicate k quote ++ replicate p backslash) rest := by
  cases p with
  | zero =>
    have hrun : quoteRun 0 (3 * k + 1) true = (replicate k quote, false) := by
      have hdiv : (3 * k + 1 + 1) / 3 = k := by omega
      have hmod : (3 * k + 1) % 3 = 1 := by omega
      simp [quoteRun, hdiv, hmod]
    have hstep := Takes.run (s := 0) hrun (by omega) ht h
    rw [replicate_add, append_assoc] at hstep
    exact hstep
  | succ p =>
    refine Takes.quotes k (fun h => absurd (Option.some.inj h) (by decide)) ?_
    have hrun : quoteRun (2 * (p + 1)) 1 true = (replicate (p + 1) backslash, false) := by
      have hdiv : 2 * (p + 1) / 2 = p + 1 := by omega
      have hmod : 2 * (p + 1) % 2 = 0 := by omega
      simp [quoteRun, hdiv, hmod]
    have hstep := Takes.run hrun Nat.one_ne_zero ht h
    rw [append_nil] at hstep
    exact hstep

end Takes

/-! ## 4. One argument -/

/-- The argument that comes back: backslashes wait until the quotes behind them are through. -/
def settle : Nat → List Nat → List Nat
  | slashes, [] => replicate slashes backslash
  | slashes, x :: cs =>
    if x = backslash then settle (slashes + 1) cs
    else if x = quote then quote :: settle slashes cs
    else replicate slashes backslash ++ x :: settle 0 cs

def Ends (rest : List Nat) : Prop := rest = [] ∨ ∃ c cs, rest = c :: cs ∧ isBlank c = true

variable {rest : List Nat}

theorem Ends.head_ne (h : Ends rest) (hc : isBlank c = false) : rest.head? ≠ some c := by
  rcases h with rfl | ⟨d, cs, rfl, hd⟩
  · exact nofun
  · intro heq
    rw [Option.some.inj heq, hc] at hd
    exact Bool.false_ne_true hd

theorem Ends.takes (h : Ends rest) : Takes false rest [] rest := by
  rcases h with rfl | ⟨d, cs, rfl, hd⟩
  · exact fun fuel _ => takeArg_nil fuel false
  · refine Takes.of_cons fun k _ => ?_
    rw [takeArg, if_pos (by rw [hd]; rfl)]

theorem head_slashes_ne (s : Nat) (cs : List Nat) (hc : c ≠ backslash) (hx : x ≠ c) :
    (replicate s backslash ++ x :: cs).head? ≠ some c := by
  cases s with
  | zero => exact fun h => hx (Option.some.inj h)
  | succ s => exact fun h => hc (Option.some.inj h).symm

theorem takes_quoteLoop (hrest : Ends rest) (cs : List Nat) (k p : Nat) :
    Takes true (replicate (3 * k) quote ++ (quoteLoop true p cs ++ rest))
      (replicate k quote ++ settle p cs) rest := by
  induction cs generalizing k p with
  | nil =>
    rw [quoteLoop, settle, append_assoc]
    exact Takes.closing k p (hrest.head_ne rfl) hrest.takes
  | cons x cs ih =>
    rw [quoteLoop, settle]
    by_cases hb : x = backslash
    · rw [if_pos hb, if_pos hb]
      exact ih k (p + 1)
    · rw [if_neg hb, if_neg hb]
      by_cases hq : x = quote
      · have hk := ih (k + 1) p
        rw [Nat.mul_add, replicate_add, replicate_add, append_assoc,
          append_assoc] at hk
        rw [if_pos hq, if_pos hq]
        exact hk
      · rw [if_neg hq, if_neg hq, append_assoc, cons_append]
        refine Takes.quotes k (head_slashes_ne p _ (by decide) hq) ?_
        refine Takes.slashes p (fun h => hq (Option.some.inj h)) (fun h => hb (Option.some.inj h)) ?_
        exact (ih 0 0).char hq hb (.inl rfl)

theorem takes_plain (hrest : Ends rest) (cs : List Nat) (p : Nat)
    (hcs : ∀ c ∈ cs, c ≠ quote ∧ isBlank c = false) :
    Takes false (quoteLoop false p cs ++ rest) (settle p cs) rest := by
  induction cs generalizing p with
  | nil =>
    rw [quoteLoop, settle]
    have hstep := Takes.slashes p (hrest.head_ne rfl) (hrest.head_ne rfl) hrest.takes
    rw [append_nil] at hstep
    simpa using hstep
  | cons x cs ih =>
    obtain ⟨hq, hblank⟩ := hcs x mem_cons_self
    have htail : ∀ c ∈ cs, c ≠ quote ∧ isBlank c = false :=
      fun c hc => hcs c (mem_cons_of_mem x hc)
    rw [quoteLoop, settle]
    by_cases hb : x = backslash
    · rw [if_pos hb, if_pos hb]
      exact ih (p + 1) htail
    · rw [if_neg hb, if_neg hb, if_neg hq, if_neg hq, append_assoc, cons_append]
      refine Takes.slashes p (fun h => hq (Option.some.inj h)) (fun h => hb (Option.some.inj h)) ?_
      exact (ih 0 htail).char hq hb (.inr hblank)

def Settled (cs : List Nat) : Prop :=
  cs.IsChain fun x y => ¬ (x = backslash ∧ y = quote)

theorem settled_cons (cs : List Nat) (hx : x ≠ backslash) : Settled (x :: cs) ↔ Settled cs := by
  rw [Settled, isChain_cons]
  exact and_iff_right fun y _ h => hx h.1

section

variable (p : Nat) (cs : List Nat)

theorem settled_slashes (hx : x ≠ quote) :
    Settled (replicate p backslash ++ x :: cs) ↔ Settled (x :: cs) := by
  induction p with
  | zero => exact Iff.rfl
  | succ p ih =>
    rw [replicate_succ, cons_append, Settled, isChain_cons, ← Settled, ih]
    refine and_iff_right fun y hy h => ?_
    exact head_slashes_ne p cs (by decide) hx (h.2 ▸ hy)

theorem not_settled_quote : ¬ Settled (replicate (p + 1) backslash ++ quote :: cs) := by
  induction p with
  | zero =>
    intro h
    exact (List.isChain_cons_cons.1 h).1 ⟨rfl, rfl⟩
  | succ p ih =>
    intro h
    exact ih (List.isChain_cons.1 h).2

theorem replicate_append_backslash :
    replicate p backslash ++ backslash :: cs = replicate (p + 1) backslash ++ cs := by
  rw [replicate_succ', append_assoc]
  rfl

theorem settle_eq_iff :
    settle p cs = replicate p backslash ++ cs ↔
      Settled (replicate p backslash ++ cs) := by
  induction cs generalizing p with
  | nil =>
    rw [settle, append_nil]
    refine iff_of_true rfl ?_
    induction p with
    | zero => exact List.isChain_nil
    | succ p ih =>
      rw [replicate_succ, Settled, isChain_cons]
      refine ⟨fun y hy h => ?_, ih⟩
      have hmem := eq_of_mem_replicate (List.mem_of_mem_head? hy)
      rw [h.2] at hmem
      exact absurd hmem (by decide)
  | cons x cs ih =>
    rw [settle]
    split <;> rename_i hb
    · rw [hb, replicate_append_backslash]
      exact ih (p + 1)
    · split <;> rename_i hq
      · rw [hq]
        cases p with
        | zero =>
          rw [replicate_zero, nil_append, settled_cons cs (by decide), cons_inj_right]
          exact ih 0
        | succ p =>
          refine iff_of_false (fun h => ?_) (not_settled_quote p cs)
          rw [replicate_succ] at h
          exact absurd (List.cons.inj h).1 (by decide)
      · rw [settled_slashes p cs hq, settled_cons cs hb, append_cancel_left_eq,
          cons_inj_right]
        exact ih 0

end

/-! ## 5. All arguments -/

def utf8 (arg : List Char) : Bytes := arg.flatMap String.utf8EncodeChar

def codes (arg : List Char) : List Nat := arg.map Char.toNat

theorem utf8_eq (arg : List Char) : utf8 arg = (codes arg).flatMap tpenc := by
  rw [utf8, codes, flatMap_map]
  exact flatMap_congr fun c _ => (tpenc_eq_utf8 c).symm

variable {arg : List Char}

theorem scalar_codes (hnul : '\x00' ∉ arg) : ∀ v ∈ codes arg, Scalar v := by
  intro v hv
  obtain ⟨c, hc, rfl⟩ := List.mem_map.1 hv
  exact scalar_toNat fun h => hnul (h ▸ hc)

theorem readAllUtf8_utf8 (hnul : '\x00' ∉ arg) :
    readAllUtf8 (utf8 arg).length (utf8 arg) = codes arg := by
  rw [utf8_eq]
  exact readAllUtf8_tpenc _ _
    (fun v hv => ⟨(scalar_codes hnul v hv).1, (scalar_codes hnul v hv).2.1⟩)
    (length_le_flatMap tpenc_ne_nil _)

theorem mem_utf8_of_mem_codes {v : Nat} (hv : v ∈ codes arg) (hlt : v ≤ 127) :
    UInt8.ofNat v ∈ utf8 arg := by
  rw [utf8_eq]
  refine List.mem_flatMap.2 ⟨v, hv, ?_⟩
  rw [tpenc, if_pos hlt]
  exact List.mem_singleton.2 rfl

theorem plain_codes (h : needsQuotes (utf8 arg) = false) :
    codes arg ≠ [] ∧ ∀ c ∈ codes arg, c ≠ quote ∧ isBlank c = false := by
  obtain ⟨hnonempty, hany⟩ := Bool.or_eq_false_iff.1 h
  rw [any_eq_false] at hany
  constructor
  · intro hnil
    rw [utf8_eq, hnil] at hnonempty
    exact Bool.false_ne_true hnonempty.symm
  · intro c hc
    refine ⟨?_, ?_⟩
    · rintro rfl
      exact hany _ (mem_utf8_of_mem_codes hc (by decide)) (by decide)
    · by_contra hblank
      rw [Bool.not_eq_false, isBlank, Bool.or_eq_true, beq_iff_eq, beq_iff_eq] at hblank
      rcases hblank with rfl | rfl
      · exact hany _ (mem_utf8_of_mem_codes hc (by decide)) (by decide)
      · exact hany _ (mem_utf8_of_mem_codes hc (by decide)) (by decide)

theorem quoteLoop_plain (cs : List Nat) (p : Nat) (hcs : ∀ c ∈ cs, c ≠ quote) :
    quoteLoop false p cs = replicate p backslash ++ cs := by
  induction cs generalizing p with
  | nil => simp [quoteLoop]
  | cons x cs ih =>
    have htail : ∀ c ∈ cs, c ≠ quote := fun c hc => hcs c (mem_cons_of_mem x hc)
    rw [quoteLoop]
    by_cases hb : x = backslash
    · rw [if_pos hb, ih (p + 1) htail, hb, replicate_succ', append_assoc]
      rfl
    · rw [if_neg hb, if_neg (hcs x mem_cons_self), ih 0 htail]
      rfl

theorem quoteArg_head (hnul : '\x00' ∉ arg) :
    ∃ c cs, quoteArg (utf8 arg) = c :: cs ∧ isBlank c = false := by
  rw [quoteArg, readAllUtf8_utf8 hnul]
  cases h : needsQuotes (utf8 arg) with
  | true => exact ⟨quote, _, rfl, rfl⟩
  | false =>
    obtain ⟨hne, hplain⟩ := plain_codes h
    obtain ⟨c, cs, hcons⟩ := exists_cons_of_ne_nil hne
    refine ⟨c, cs, ?_, (hplain c (by rw [hcons]; exact mem_cons_self)).2⟩
    rw [quoteLoop_plain _ _ fun c hc => (hplain c hc).1, hcons]
    rfl

theorem takes_quoteArg (hnul : '\x00' ∉ arg)
    (hrest : Ends rest) :
    Takes false (quoteArg (utf8 arg) ++ rest) (settle 0 (codes arg)) rest := by
  rw [quoteArg, readAllUtf8_utf8 hnul]
  cases h : needsQuotes (utf8 arg) with
  | true => exact (takes_quoteLoop hrest (codes arg) 0 0).opening
  | false => exact takes_plain hrest (codes arg) 0 (plain_codes h).2

theorem dropWhile_quoteArg (hnul : '\x00' ∉ arg) (rest : List Nat) :
    (quoteArg (utf8 arg) ++ rest).dropWhile isBlank = quoteArg (utf8 arg) ++ rest := by
  obtain ⟨c, cs, hcons, hc⟩ := quoteArg_head hnul
  rw [hcons, cons_append, dropWhile_cons, hc]
  rfl

theorem argText_eq {arg : Bytes} (h : looksLikeCosmoDrivePath arg = false) : argText arg = arg := by
  rw [argText, if_neg fun hand => by rw [h] at hand; exact Bool.false_ne_true hand.1]

theorem joinArgs_utf8 (hdrive : looksLikeCosmoDrivePath (utf8 arg) = false)
    (args : List (List Char)) : joinArgs ((arg :: args).map utf8) = quoteArg (utf8 arg) ++
      if args = [] then [] else 32 :: joinArgs (args.map utf8) := by
  cases args with
  | nil =>
    rw [if_pos rfl, append_nil, map_cons, map_nil, joinArgs, argText_eq hdrive]
  | cons a as =>
    rw [if_neg (cons_ne_nil a as), map_cons, map_cons, joinArgs, argText_eq hdrive]
    exact nofun

theorem takeArgs_step {fuel : Nat} {cs : List Nat}
    (hnul : '\x00' ∉ arg) (hrest : Ends rest)
    (hcs : cs.dropWhile isBlank = quoteArg (utf8 arg) ++ rest) :
    takeArgs (fuel + 1) cs = settle 0 (codes arg) :: takeArgs fuel rest := by
  obtain ⟨c, cs', hcons, -⟩ := quoteArg_head hnul
  have hne : quoteArg (utf8 arg) ++ rest ≠ [] := by
    rw [hcons]
    exact cons_ne_nil _ _
  simp only [takeArgs, hcs]
  rw [if_neg hne, takes_quoteArg hnul hrest _ (Nat.le_refl _)]

/-- An argument without a NUL that is not taken for a path. -/
abbrev Plain (arg : List Char) : Prop := '\x00' ∉ arg ∧ looksLikeCosmoDrivePath (utf8 arg) = false

theorem dropWhile_joinArgs (h : Plain arg) (args : List (List Char)) :
    (joinArgs ((arg :: args).map utf8)).dropWhile isBlank = joinArgs ((arg :: args).map utf8) := by
  rw [joinArgs_utf8 h.2, dropWhile_quoteArg h.1]

theorem takeArgs_joinArgs (args : List (List Char)) (fuel : Nat) (cs : List Nat) (h : ∀ arg ∈ args, Plain arg)
    (hfuel : args.length ≤ fuel) (hcs : cs.dropWhile isBlank = joinArgs (args.map utf8)) :
    takeArgs fuel cs = args.map fun arg => settle 0 (codes arg) := by
  induction args generalizing fuel cs with
  | nil =>
    cases fuel with
    | zero => rfl
    | succ fuel => simp only [takeArgs, hcs, map_nil, joinArgs, if_true]
  | cons arg args ih =>
    obtain ⟨k, rfl⟩ : ∃ k, fuel = k + 1 := ⟨fuel - 1, by rw [length_cons] at hfuel; omega⟩
    obtain ⟨⟨harg, hdrive⟩, htail⟩ := List.forall_mem_cons.1 h
    have hfuel' : args.length ≤ k := by rw [length_cons] at hfuel; omega
    rw [joinArgs_utf8 hdrive] at hcs
    rw [map_cons]
    cases args with
    | nil =>
      rw [if_pos rfl] at hcs
      rw [takeArgs_step harg (.inl rfl) hcs, ih k [] htail hfuel' rfl]
    | cons arg' args =>
      rw [if_neg (cons_ne_nil arg' args)] at hcs
      rw [takeArgs_step harg (.inr ⟨32, _, rfl, rfl⟩) hcs, ih k _ htail hfuel' ?_]
      rw [dropWhile_cons, if_pos (show isBlank 32 = true from rfl),
        dropWhile_joinArgs (htail arg' mem_cons_self)]

/-! ## 6. What is in the buffers -/

theorem mem_quoteLoop {q : Bool} (cs : List Nat) (p : Nat) (h : c ∈ quoteLoop q p cs) :
    c = quote ∨ c = backslash ∨ c ∈ cs := by
  induction cs generalizing p with
  | nil =>
    rw [quoteLoop, mem_append] at h
    rcases h with h | h
    · exact .inr (.inl (eq_of_mem_replicate h))
    · cases q with
      | true => exact .inl (List.mem_singleton.1 h)
      | false => cases h
  | cons x cs ih =>
    rw [quoteLoop] at h
    split at h
    · exact (ih _ h).imp_right (Or.imp_right (mem_cons_of_mem x))
    · split at h
      · simp only [mem_cons] at h
        rcases h with h | h | h | h
        · exact .inl h
        · exact .inl h
        · exact .inl h
        · exact (ih _ h).imp_right (Or.imp_right (mem_cons_of_mem x))
      · rw [mem_append, mem_cons] at h
        rcases h with h | rfl | h
        · exact .inr (.inl (eq_of_mem_replicate h))
        · exact .inr (.inr mem_cons_self)
        · exact (ih _ h).imp_right (Or.imp_right (mem_cons_of_mem x))

theorem scalar_quoteArg (hnul : '\x00' ∉ arg) : ∀ v ∈ quoteArg (utf8 arg), Scalar v := by
  have hquote : Scalar quote := ⟨by decide, by decide, .inl (by decide)⟩
  have hbackslash : Scalar backslash := ⟨by decide, by decide, .inl (by decide)⟩
  intro v hv
  rw [quoteArg, readAllUtf8_utf8 hnul, mem_append] at hv
  rcases hv with hv | hv
  · split at hv
    · rw [List.mem_singleton.1 hv]
      exact hquote
    · cases hv
  · rcases mem_quoteLoop _ _ hv with rfl | rfl | hmem
    · exact hquote
    · exact hbackslash
    · exact scalar_codes hnul v hmem

theorem scalar_joinArgs (args : List (List Char)) (h : ∀ arg ∈ args, Plain arg) :
    ∀ v ∈ joinArgs (args.map utf8), Scalar v := by
  induction args with
  | nil => exact nofun
  | cons arg args ih =>
    obtain ⟨harg, htail⟩ := List.forall_mem_cons.1 h
    rw [joinArgs_utf8 harg.2]
    intro v hv
    rcases mem_append.mp hv with hv | hv
    · exact scalar_quoteArg harg.1 v hv
    · split_ifs at hv
      · nomatch hv
      · rcases mem_cons.mp hv with rfl | hv
        · exact ⟨by decide, by decide, .inl (by decide)⟩
        · exact ih htail v hv

theorem settle_perm (cs : List Nat) (p : Nat) :
    (settle p cs).Perm (replicate p backslash ++ cs) := by
  induction cs generalizing p with
  | nil =>
    rw [settle, append_nil]
  | cons x cs ih =>
    rw [settle]
    split <;> rename_i hb
    · rw [hb, replicate_append_backslash]
      exact ih (p + 1)
    · split <;> rename_i hq
      · rw [hq]
        exact ((ih p).cons quote).trans List.perm_middle.symm
      · exact ((ih 0).cons x).append_left _

def stringAt (buf : Bytes) (o : Nat) : Bytes := (buf.drop o).takeWhile (· ≠ 0)

theorem stringAt_append {pre text tail : Bytes} (htext : ∀ b ∈ text, b ≠ 0) :
    stringAt (pre ++ (text ++ 0 :: tail)) pre.length = text := by
  rw [stringAt, drop_left, takeWhile_append_of_pos fun b hb => decide_eq_true (htext b hb),
    takeWhile_cons, if_neg (by decide), append_nil]

theorem argsText_cons (arg : List Nat) (args : List (List Nat)) :
    argsText (arg :: args) = arg.flatMap tpenc ++ 0 :: argsText args := by
  rw [argsText, flatMap_cons, append_assoc]
  rfl

theorem strings_offsets (args : List (List Nat)) (pre tail : Bytes)
    (hargs : ∀ arg ∈ args, ∀ v ∈ arg, Scalar v) :
    (offsets pre.length args).map (stringAt (pre ++ (argsText args ++ tail))) =
      args.map fun arg => arg.flatMap tpenc := by
  induction args generalizing pre with
  | nil => rfl
  | cons arg args ih =>
    have htext : ∀ b ∈ arg.flatMap tpenc, b ≠ 0 := by
      intro b hb
      obtain ⟨v, hv, hbv⟩ := List.mem_flatMap.1 hb
      obtain ⟨hne, hle, -⟩ := hargs arg mem_cons_self v hv
      exact tpenc_ne_zero hne hle b hbv
    have hbuf : pre ++ (argsText (arg :: args) ++ tail) =
        pre ++ (arg.flatMap tpenc ++ 0 :: (argsText args ++ tail)) := by
      rw [argsText_cons, append_assoc]
      rfl
    have hlen : pre.length + (arg.flatMap tpenc).length + 1 =
        (pre ++ (arg.flatMap tpenc ++ [0])).length := by
      rw [length_append, length_append, length_singleton, Nat.add_assoc]
    have hbuf' : pre ++ (arg.flatMap tpenc ++ 0 :: (argsText args ++ tail)) =
        pre ++ (arg.flatMap tpenc ++ [0]) ++ (argsText args ++ tail) := by
      simp only [append_assoc, singleton_append]
    rw [offsets, map_cons, map_cons, hbuf, stringAt_append htext, hlen, hbuf',
      ih _ fun a ha => hargs a (mem_cons_of_mem arg ha)]

theorem length_offsets (o : Nat) (args : List (List Nat)) :
    (offsets o args).length = args.length := by
  induction args generalizing o with
  | nil => rfl
  | cons arg args ih => rw [offsets, length_cons, length_cons, ih]

theorem offsets_lt (args : List (List Nat)) (o : Nat) :
    ∀ k ∈ offsets o args, k < o + (argsText args).length := by
  induction args generalizing o with
  | nil => exact nofun
  | cons arg args ih =>
    intro k hk
    rw [argsText_cons, length_append, length_cons]
    rcases List.mem_cons.1 hk with rfl | hk
    · omega
    · have hlt := ih _ k hk
      omega

def DosArgs.strings (r : DosArgs) : List (Option Bytes) :=
  (r.argv.take r.argc).map (Option.map (stringAt r.buf))

theorem getDosArgv_strings {cmdline : List UInt16} {args : List (List Nat)} (size max : Nat)
    (hargs : takeArgs (readAllUtf16 cmdline).length (readAllUtf16 cmdline) = args)
    (hscalar : ∀ arg ∈ args, ∀ v ∈ arg, Scalar v) (hsize : (argsText args).length < size)
    (hmax : args.length < max) :
    (getDosArgv cmdline size max).argc = args.length ∧
      (getDosArgv cmdline size max).strings = args.map fun arg => some (arg.flatMap tpenc) := by
  subst hargs
  refine ⟨rfl, ?_⟩
  generalize hargs : takeArgs (readAllUtf16 cmdline).length (readAllUtf16 cmdline) = args at *
  obtain ⟨tail, htail⟩ : ∃ tail, (getDosArgv cmdline size max).buf = argsText args ++ tail := by
    have hlen : (argsText args ++ [0]).length = (argsText args).length + 1 := by
      rw [length_append, length_singleton]
    simp only [getDosArgv, hargs]
    rw [if_neg (by omega)]
    split
    · exact ⟨[0] ++ [0], append_assoc _ _ _⟩
    · have htake : (argsText args ++ [0]).take (size - 1) = argsText args := by
        rw [take_append_of_le_length (by omega), take_of_length_le (by omega)]
      rw [htake]
      exact ⟨[0], rfl⟩
  have hargv : (getDosArgv cmdline size max).argv = (offsets 0 args).map some ++ [none] := by
    simp only [getDosArgv, hargs]
    rw [if_neg (by omega), take_of_length_le (by rw [length_offsets]; omega)]
    congr 1
    refine map_congr_left fun o ho => if_pos ?_
    have hlt := offsets_lt args 0 o ho
    omega
  have hargc : (getDosArgv cmdline size max).argc = ((offsets 0 args).map some).length := by
    rw [length_map, length_offsets, ← hargs]
    rfl
  have hstrings := strings_offsets args [] tail hscalar
  rw [DosArgs.strings, hargc, hargv, take_left, map_map, htail]
  change (offsets 0 args).map (fun o => some (stringAt (argsText args ++ tail) o)) = _
  have hsome := congrArg (List.map some) hstrings
  rw [map_map, map_map] at hsome
  exact hsome

/-! ## 7. The round trip -/

/-- `GetDosArgv` on the output of `mkntcmdline` gives as many arguments, with the same bytes. -/
def RoundTrips (argv : List Bytes) (size bufsize max : Nat) : Prop :=
  (getDosArgv (mkntcmdline argv size).1 bufsize max).argc = argv.length ∧
    (getDosArgv (mkntcmdline argv size).1 bufsize max).strings = argv.map some

def BackslashBeforeQuote (arg : List Char) : Prop :=
  ¬ arg.IsChain fun x y => ¬ (x = '\\' ∧ y = '"')

theorem settled_codes (arg : List Char) : Settled (codes arg) ↔ ¬ BackslashBeforeQuote arg := by
  have hb (c : Char) : c.toNat = backslash ↔ c = '\\' := Char.toNat_inj (d := '\\')
  have hq (c : Char) : c.toNat = quote ↔ c = '"' := Char.toNat_inj (d := '"')
  rw [BackslashBeforeQuote, not_not, Settled, codes, isChain_map]
  simp only [hb, hq]

theorem length_argsText_settle (args : List (List Char)) :
    (argsText (args.map fun arg => settle 0 (codes arg))).length =
      (args.map fun arg => (utf8 arg).length + 1).sum := by
  induction args with
  | nil => rfl
  | cons arg args ih =>
    have hperm : ((settle 0 (codes arg)).flatMap tpenc).length = (utf8 arg).length := by
      rw [utf8_eq]
      exact ((settle_perm (codes arg) 0).flatMap_right tpenc).length_eq
    rw [map_cons, argsText_cons, length_append, length_cons, ih, hperm,
      map_cons, sum_cons]
    omega

theorem length_le_joinArgs (args : List (List Char)) (h : ∀ arg ∈ args, Plain arg) :
    args.length ≤ (joinArgs (args.map utf8)).length := by
  induction args with
  | nil => exact Nat.le_refl 0
  | cons arg args ih =>
    obtain ⟨harg, htail⟩ := List.forall_mem_cons.1 h
    obtain ⟨c, cs, hcons, -⟩ := quoteArg_head harg.1
    have hlength := ih htail
    rw [joinArgs_utf8 harg.2, hcons]
    split_ifs with hnil
    · rw [hnil]
      exact Nat.succ_le_succ (Nat.zero_le _)
    · simp only [cons_append, length_cons, length_append]
      omega

/-- With buffers that are large enough, arguments come back unchanged exactly if none of them has a
backslash directly before a quote. -/
theorem roundTrips_iff_no_backslash_before_quote (args : List (List Char)) (size bufsize max : Nat)
    (hnul : ∀ arg ∈ args, '\x00' ∉ arg)
    (hdrive : ∀ arg ∈ args, looksLikeCosmoDrivePath (utf8 arg) = false)
    (hcmdline : (mkntcmdline (args.map utf8) size).2 < size)
    (hbuf : (args.map fun arg => (utf8 arg).length + 1).sum < bufsize) (hmax : args.length < max) :
    RoundTrips (args.map utf8) size bufsize max ↔ ∀ arg ∈ args, ¬ BackslashBeforeQuote arg := by
  have hplain : ∀ arg ∈ args, Plain arg := fun arg harg => ⟨hnul arg harg, hdrive arg harg⟩
  have hscalar := scalar_joinArgs args hplain
  have hunits : readAllUtf16 (mkntcmdline (args.map utf8) size).1 = joinArgs (args.map utf8) := by
    change ((joinArgs (args.map utf8)).flatMap encodeUtf16).length < size at hcmdline
    change readAllUtf16 (((joinArgs (args.map utf8)).flatMap encodeUtf16).take (size - 1)) = _
    rw [take_of_length_le (by omega), readAllUtf16_flatMap _ hscalar]
  have htaken : takeArgs (readAllUtf16 (mkntcmdline (args.map utf8) size).1).length
      (readAllUtf16 (mkntcmdline (args.map utf8) size).1) =
      args.map fun arg => settle 0 (codes arg) := by
    rw [hunits]
    refine takeArgs_joinArgs args _ _ hplain (length_le_joinArgs args hplain) ?_
    cases args with
    | nil => rfl
    | cons arg args => exact dropWhile_joinArgs (hplain arg mem_cons_self) args
  have hsettle (arg : List Char) (harg : arg ∈ args) : ∀ v ∈ settle 0 (codes arg), Scalar v :=
    fun v hv => scalar_codes (hnul arg harg) v ((settle_perm (codes arg) 0).mem_iff.1 hv)
  obtain ⟨hargc, hstrings⟩ := getDosArgv_strings bufsize max htaken
    (by
      intro arg' harg' v hv
      obtain ⟨arg, harg, rfl⟩ := List.mem_map.1 harg'
      exact hsettle arg harg v hv)
    (by rw [length_argsText_settle]; exact hbuf) (by rw [length_map]; exact hmax)
  rw [RoundTrips, hargc, hstrings, length_map, length_map, and_iff_right rfl, map_map,
    map_map, map_inj_left]
  refine forall₂_congr fun arg harg => ?_
  rw [← settled_codes]
  have hiff := settle_eq_iff 0 (codes arg)
  rw [replicate_zero, nil_append] at hiff
  rw [← hiff]
  constructor
  · intro h
    have hbytes : (settle 0 (codes arg)).flatMap tpenc = (codes arg).flatMap tpenc := by
      rw [← utf8_eq]
      exact Option.some.inj h
    exact flatMap_tpenc_inj (fun v hv => (hsettle arg harg v hv).lt)
      (fun v hv => (scalar_codes (hnul arg harg) v hv).lt) hbytes
  · intro h
    change some ((settle 0 (codes arg)).flatMap tpenc) = some (utf8 arg)
    rw [h, utf8_eq]

theorem roundTrips_three :
    RoundTrips ([['a', ' ', '\\'], [], ['"', '\\', 'x', 'ü']].map utf8) 30 20 4 := by
  refine (roundTrips_iff_no_backslash_before_quote _ 30 20 4 ?_ ?_ ?_ ?_ ?_).2 ?_
  · decide
  · decide
  · decide
  · decide
  · decide
  · simp [BackslashBeforeQuote]

/-- The argument `\"` comes back as `"\`. -/
theorem backslash_quote_swapped :
    (getDosArgv (mkntcmdline [[92, 34]] 10).1 10 2).strings = [some [34, 92]] ∧
      ¬ RoundTrips [[92, 34]] 10 10 2 := by
  have hstrings : (getDosArgv (mkntcmdline [[92, 34]] 10).1 10 2).strings = [some [34, 92]] := by
    decide
  refine ⟨hstrings, fun h => ?_⟩
  have heq := h.2
  rw [hstrings] at heq
  exact absurd heq (by decide)

end CosmoRuby.Windows