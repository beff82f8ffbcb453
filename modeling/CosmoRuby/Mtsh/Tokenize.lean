import CosmoRuby.Lib.Bytes
import CosmoRuby.Lib.Loop

/-!
# The shell `mtsh`

`Tokenize` of `mtsh/tokenize.inc` and the loop of `_mtsh` around it (`mtsh/entry.inc`). There is no
parse tree: commands are run while the text is scanned. `p` is the rest of the text, and `word` what
is between `r` and `q`. What a command does is left to an oracle that gives the exit status of the
last command of a history. Variables, command substitution and redirections are where the model
stops. The words with a byte behind each are at most one byte longer than the text, so that the check
of `Append` can fail at one length only: there the model stops, too.
-/

namespace CosmoRuby.Mtsh

open Lib

inductive Event where
  | spawn (args : List Bytes)
  | async (args : List Bytes)
  | pipe (args : List Bytes)
  | subshell (text : Bytes)
  deriving DecidableEq, Repr

inductive TokState where
  | whitespace
  | cmd
  | single
  | quoted
  deriving DecidableEq, Repr

structure Shell where
  p : Bytes
  word : Bytes
  /-- The word is an assignment. -/
  assign : Bool
  args : List Bytes
  exitstatus : Nat
  ran : List Event
  deriving DecidableEq, Repr

inductive Tick where
  | next (t : TokState) (sh : Shell)
  /-- `Finish`, with `none` for `TOMBSTONE`. -/
  | arg (a : Option Bytes) (sh : Shell)
  | finished (sh : Shell)
  | exit (code : Nat) (sh : Shell)
  | expansion (sh : Shell)

def unsupported (c : UInt8) : Bool :=
  (c < 0x20 && c ≠ 0x09 && c ≠ 0x0A) || c = 0x7F || c = 0x7E || c = 0x7B

def finish (sh : Shell) : Tick :=
  if sh.assign then .arg none { sh with word := [], assign := false }
  else .arg (some sh.word) { sh with word := [] }

/-- The loops that skip commands: up to a semicolon, a newline or two of the bytes `stop`. `depth`
parentheses are open. -/
def skipTo (stop : UInt8) : Nat → Bytes → Bytes
  | _, [] => []
  | 0, c :: rest =>
    if c = 0x3B ∨ c = 0x0A ∨ (c = stop ∧ rest.head? = some stop) then c :: rest
    else skipTo stop (if c = 0x28 then 1 else 0) rest
  | depth + 1, c :: rest =>
    skipTo stop (if c = 0x28 then depth + 2 else if c = 0x29 then depth else depth + 1) rest

def closing : Nat → Bytes → Option (Bytes × Bytes)
  | _, [] => none
  | depth, c :: rest =>
    if c = 0x29 ∧ depth = 0 then some ([], rest)
    else
      match closing (if c = 0x28 then depth + 1 else if c = 0x29 then depth - 1 else depth) rest with
      | none => none
      | some (text, rest) => some (c :: text, rest)

section

variable (status : List Event → Nat)

def shellSpawn (sh : Shell) : Nat × Shell :=
  if sh.args = [] then (sh.exitstatus, sh)
  else (status (sh.ran ++ [.spawn sh.args]), { sh with args := [], ran := sh.ran ++ [.spawn sh.args] })

/-- `ShellSpawnAsync`. The child has nothing to run where there is no command. -/
def shellSpawnAsync (sh : Shell) : Shell :=
  if sh.args = [] then sh else { sh with args := [], ran := sh.ran ++ [.async sh.args] }

def pipe (sh : Shell) : Shell :=
  { sh with args := [], ran := if sh.args = [] then sh.ran else sh.ran ++ [.pipe sh.args] }

def skipOr (code : Nat) (p : Bytes) (sh : Shell) (landed : Bytes → Bytes) : Tick :=
  match p with
  | [] => .exit code sh
  | c :: rest =>
    if c = 0x3B ∨ c = 0x0A then .exit code sh else .next .whitespace { sh with p := landed rest }

def orIf (sh : Shell) : Tick :=
  let r := shellSpawn status sh
  if r.1 = 0 then
    -- left at the first `&`, so that the second is seen next
    skipOr 0 (skipTo 0x26 0 r.2.p) r.2 id
  else .next .whitespace r.2

def andIf (sh : Shell) : Tick :=
  let r := shellSpawn status sh
  if r.1 = 0 then .next .whitespace r.2 else skipOr r.1 (skipTo 0x7C 0 r.2.p) r.2 List.tail

def tickCmd (sh : Shell) : Tick :=
  match sh.p with
  | [] => finish sh
  | c :: rest =>
    if unsupported c then .exit 4 sh
    else if c = 0x20 ∨ c = 0x09 then finish sh
    else if c = 0x23 then
      if sh.word ≠ [] then finish sh
      else
        match rest.dropWhile (· ≠ 0x0A) with
        | [] => .finished { sh with p := [] }
        | p => .next .cmd { sh with p }
    else if c = 0x22 then .next .quoted { sh with p := rest }
    else if c = 0x27 then .next .single { sh with p := rest }
    else if c = 0x60 ∨ c = 0x24 then .expansion sh
    else if c = 0x5C then
      match rest with
      | [] => .exit 4 sh
      | d :: rest => .next .cmd { sh with p := rest, word := sh.word ++ [d] }
    else if c = 0x3D then
      .next .cmd { sh with
        p := rest
        word := sh.word ++ [c]
        assign := sh.assign || (sh.args.isEmpty && !sh.word.isEmpty) }
    else if c = 0x28 then
      if sh.word ≠ [] then finish sh
      else
        match closing 0 rest with
        | none => .exit 15 sh
        | some (text, rest) =>
          if 4096 ≤ text.length then .exit 12 sh
          else
            .next .whitespace { sh with
              p := rest
              exitstatus := status (sh.ran ++ [.subshell text])
              ran := sh.ran ++ [.subshell text] }
    else if c = 0x29 then .exit 15 sh
    else if c = 0x7C then
      if sh.word ≠ [] then finish sh
      else if rest.head? = some 0x7C then orIf status { sh with p := rest.tail }
      else .next .whitespace (pipe { sh with p := rest })
    else if c = 0x3B ∨ c = 0x0A then
      if sh.word ≠ [] then finish sh
      else
        let r := shellSpawn status { sh with p := rest }
        .next .whitespace { r.2 with exitstatus := r.1 }
    else if c = 0x3E ∧ rest.head? = some 0x26 then
      .next .cmd { sh with p := rest.tail, word := sh.word ++ [c, 0x26] }
    else if c = 0x26 then
      if sh.word ≠ [] then finish sh
      else if rest.head? = some 0x26 then andIf status { sh with p := rest.tail }
      else .next .whitespace (shellSpawnAsync { sh with p := rest })
    else .next .cmd { sh with p := rest, word := sh.word ++ [c] }

def tickEscaped (sh : Shell) : Tick :=
  match sh.p with
  | [] => .exit 4 sh
  | c :: rest =>
    if c = 0x0A then .next .quoted { sh with p := rest }
    else if c = 0x24 ∨ c = 0x60 ∨ c = 0x22 ∨ c = 0x5C then
      .next .quoted { sh with p := rest, word := sh.word ++ [c] }
    else .next .quoted { sh with p := rest, word := sh.word ++ [0x5C, c] }

def tick (t : TokState) (sh : Shell) : Tick :=
  match t with
  | .whitespace =>
    match sh.p with
    | [] => .finished sh
    | c :: rest =>
      if c = 0x20 ∨ c = 0x09 ∨ c = 0x0A ∨ (c = 0x5C ∧ rest.head? = some 0x0A) then
        .next .whitespace { sh with p := rest }
      else tickCmd status sh
  | .cmd => tickCmd status sh
  | .single =>
    match sh.p with
    | [] => .exit 6 sh
    | c :: rest =>
      if c = 0x27 then .next .cmd { sh with p := rest }
      else .next .single { sh with p := rest, word := sh.word ++ [c] }
  | .quoted =>
    match sh.p with
    | [] => .exit 6 sh
    | c :: rest =>
      if c = 0x22 then .next .cmd { sh with p := rest }
      else if c = 0x60 ∨ c = 0x24 then .expansion sh
      else if c = 0x5C then tickEscaped { sh with p := rest }
      else .next .quoted { sh with p := rest, word := sh.word ++ [c] }

end

/-! ## The loop over the words -/

inductive Ending where
  | exit (code : Nat)
  | redirection
  | expansion
  | argbuf
  deriving DecidableEq, Repr

inductive Globbed where
  | nomatch
  | paths (ps : List Bytes)
  | failed
  deriving DecidableEq, Repr

def isdigit (c : UInt8) : Bool := 0x30 ≤ c && c ≤ 0x39

def isRedirect : Bytes → Bool
  | [] => false
  | [c] => c = 0x3E || c = 0x3C
  | c :: d :: _ => c = 0x3E || c = 0x3C || (isdigit c && d = 0x3E)

def maxArgs : Nat := 3000

def argMax : Nat := 131074

def takeArg (glob : Bytes → Globbed) (sh : Shell) : Option Bytes → Except Ending Shell
  | none => .ok sh
  | some a =>
    if sh.args.length + 1 < maxArgs then
      if isRedirect a then .error .redirection
      else
        match glob a with
        | .nomatch => .ok { sh with args := sh.args ++ [a] }
        | .failed => .error (.exit 16)
        | .paths ps =>
          if sh.args.length + ps.length < maxArgs then .ok { sh with args := sh.args ++ ps }
          else .error (.exit 13)
    else .error (.exit 13)

structure Pass where
  t : TokState
  sh : Shell
  ending : Option Ending
  deriving DecidableEq

def turn (status : List Event → Nat) (glob : Bytes → Globbed) (x : Pass) : Turn Pass :=
  match tick status x.t x.sh with
  | .next t sh => .next ⟨t, sh, none⟩
  | .arg a sh =>
    match takeArg glob sh a with
    | .ok sh => .next ⟨.whitespace, sh, none⟩
    | .error e => .stop ⟨.whitespace, sh, some e⟩
  | .finished sh =>
    let r := shellSpawn status sh
    .stop ⟨.whitespace, r.2, some (.exit r.1)⟩
  | .exit code sh => .stop ⟨.whitespace, sh, some (.exit code)⟩
  | .expansion sh => .stop ⟨.whitespace, sh, some .expansion⟩

def passes (x : Pass) : Nat :=
  2 * x.sh.p.length + (if x.t = .whitespace ∧ x.sh.word = [] then 0 else 1) + 1

def run (status : List Event → Nat) (glob : Bytes → Globbed) (x : Pass) : Pass :=
  loop (fun _ => true) (turn status glob) (passes x) x

def mtsh (status : List Event → Nat) (glob : Bytes → Globbed) (text : Bytes) :
    Option Ending × List Event :=
  if argMax ≤ text.length then (some (.exit 12), [])
  else if argMax ≤ text.length + 1 then (some .argbuf, [])
  else
    let x := run status glob ⟨.whitespace, ⟨text, [], false, [], 0, []⟩, none⟩
    (x.ending, x.sh.ran)

/-! ## Every pass goes forward -/

variable {status : List Event → Nat} {glob : Bytes → Globbed} {t t' : TokState} {sh sh' : Shell}

theorem length_skipTo (stop : UInt8) (depth : Nat) (p : Bytes) :
    (skipTo stop depth p).length ≤ p.length := by
  induction p generalizing depth with
  | nil => rw [skipTo]
  | cons c rest ih =>
    cases depth with
    | zero =>
      rw [skipTo]
      split_ifs
      · exact le_rfl
      · exact (ih 1).trans (Nat.le_succ _)
      · exact (ih 0).trans (Nat.le_succ _)
    | succ depth =>
      rw [skipTo]
      exact (ih _).trans (Nat.le_succ _)

variable {p : Bytes}

theorem length_closing {depth : Nat} {text rest : Bytes} (h : closing depth p = some (text, rest)) :
    rest.length ≤ p.length := by
  induction p generalizing depth text with
  | nil => nomatch h
  | cons c p ih =>
    rw [closing] at h
    split_ifs at h
    · cases h
      exact Nat.le_succ _
    all_goals
      split at h
      · nomatch h
      · rename_i text' rest' hclosing
        cases h
        exact (ih hclosing).trans (Nat.le_succ _)

@[simp] theorem shellSpawn_p (sh : Shell) : (shellSpawn status sh).2.p = sh.p := by
  unfold shellSpawn
  split_ifs <;> rfl

@[simp] theorem shellSpawnAsync_p (sh : Shell) : (shellSpawnAsync sh).p = sh.p := by
  unfold shellSpawnAsync
  split_ifs <;> rfl

def Forward (n : Nat) : Tick → Prop
  | .next _ sh => sh.p.length < n
  | _ => True

variable {n code : Nat} {c : Prop} {x y : Tick}

theorem length_tail_le (p : Bytes) : p.tail.length ≤ p.length := by
  rw [List.length_tail]
  exact Nat.sub_le _ _

/-- What a pass in the command state can come to. -/
theorem tickCmd_cases {C : Tick → Prop}
    (hfinish : (sh.word ≠ [] ∨ ∀ c, sh.p.head? = some c → c = 0x20 ∨ c = 0x09) → C (finish sh))
    (hexit : ∀ code p, C (.exit code { sh with p })) (hexpansion : C (.expansion sh))
    (hfinished : ∀ p, C (.finished { sh with p }))
    (hnext : ∀ t p word assign, p.length < sh.p.length → C (.next t { sh with p, word, assign }))
    (hsubshell : ∀ p text exitstatus, p.length < sh.p.length →
      C (.next .whitespace { sh with p, exitstatus, ran := sh.ran ++ [.subshell text] }))
    (horIf : ∀ p, p.length < sh.p.length → C (orIf status { sh with p }))
    (handIf : ∀ p, p.length < sh.p.length → C (andIf status { sh with p }))
    (hpipe : ∀ p, p.length < sh.p.length → C (.next .whitespace (pipe { sh with p })))
    (hspawn : ∀ p exitstatus, p.length < sh.p.length →
      C (.next .whitespace { (shellSpawn status { sh with p }).2 with exitstatus }))
    (hasync : ∀ p, p.length < sh.p.length → C (.next .whitespace (shellSpawnAsync { sh with p }))) :
    C (tickCmd status sh) := by
  unfold tickCmd
  cases hp : sh.p with
  | nil =>
    refine hfinish (.inr ?_)
    rw [hp]
    exact nofun
  | cons c rest =>
    have hrest : rest.length < sh.p.length := hp ▸ Nat.lt_succ_self _
    have htail := (length_tail_le rest).trans_lt hrest
    dsimp only
    have hword (h : sh.word ≠ []) : C (finish sh) := hfinish (.inl h)
    have hread (t : TokState) (word : Bytes) (assign : Bool) :
        C (.next t { sh with p := rest, word, assign }) := hnext t rest word assign hrest
    refine iteInduction (fun _ => hexit _ _) fun _ => iteInduction (fun hblank => hfinish (.inr ?_))
      fun _ => iteInduction (fun _ => iteInduction hword fun _ => ?_) fun _ =>
      iteInduction (fun _ => hread _ _ _) fun _ => iteInduction (fun _ => hread _ _ _) fun _ =>
      iteInduction (fun _ => hexpansion) fun _ => iteInduction (fun _ => ?_) fun _ =>
      iteInduction (fun _ => hread _ _ _) fun _ =>
      iteInduction (fun _ => iteInduction hword fun _ => ?_) fun _ =>
      iteInduction (fun _ => hexit _ _) fun _ =>
      iteInduction (fun _ => iteInduction hword fun _ =>
        iteInduction (fun _ => horIf _ htail) fun _ => hpipe _ hrest) fun _ =>
      iteInduction (fun _ => iteInduction hword fun _ => hspawn _ _ hrest) fun _ =>
      iteInduction (fun _ => hnext _ _ _ _ htail) fun _ =>
      iteInduction (fun _ => iteInduction hword fun _ =>
        iteInduction (fun _ => handIf _ htail) fun _ => hasync _ hrest) fun _ => hread _ _ _
    · rw [hp]
      rintro d hd
      exact Option.some.inj hd ▸ hblank
    · -- a comment
      split
      · exact hfinished _
      · exact hnext _ _ _ _ ((List.dropWhile_suffix _).length_le.trans_lt hrest)
    · -- a backslash
      split
      · exact hexit _ _
      · exact hnext _ _ _ _ ((Nat.lt_succ_self _).trans hrest)
    · -- a subshell
      split
      · exact hexit _ _
      · rename_i text rest' hclosing
        exact iteInduction (fun _ => hexit _ _) fun _ =>
          hsubshell _ _ _ ((length_closing hclosing).trans_lt hrest)

/-- What a pass can come to. Blanks are passed over before a command, and a quote only reads. -/
theorem tick_cases {C : Tick → Prop} (t : TokState)
    (hcmd : (t = .whitespace → ∃ c, sh.p.head? = some c ∧ ¬(c = 0x20 ∨ c = 0x09)) →
      C (tickCmd status sh))
    (hexit : ∀ code p, C (.exit code { sh with p })) (hexpansion : C (.expansion sh))
    (hfinished : C (.finished sh))
    (hnext : ∀ t p word, p.length < sh.p.length → C (.next t { sh with p, word })) :
    C (tick status t sh) := by
  unfold tick
  cases t with
  | cmd => exact hcmd nofun
  | whitespace =>
    dsimp only
    split
    · exact hfinished
    · rename_i c rest hp
      split_ifs with hblank
      · exact hnext _ _ _ (hp ▸ Nat.lt_succ_self _)
      · exact hcmd fun _ => ⟨c, by rw [hp]; rfl, fun h => hblank (h.imp_right .inl)⟩
  | single =>
    dsimp only
    split
    · exact hexit _ sh.p
    · rename_i c rest hp
      split_ifs <;> exact hnext _ _ _ (hp ▸ Nat.lt_succ_self _)
  | quoted =>
    dsimp only
    split
    · exact hexit _ sh.p
    · rename_i c rest hp
      have hrest : rest.length < sh.p.length := hp ▸ Nat.lt_succ_self _
      split_ifs
      · exact hnext _ _ _ hrest
      · exact hexpansion
      · unfold tickEscaped
        split
        · exact hexit _ _
        · rename_i d rest' hp'
          have hrest' : rest'.length < sh.p.length := by
            cases hp'
            exact (Nat.lt_succ_self _).trans hrest
          split_ifs <;> exact hnext _ _ _ hrest'
      · exact hnext _ _ _ hrest

theorem forward_finish (n : Nat) (sh : Shell) : Forward n (finish sh) := by
  unfold finish
  split_ifs <;> trivial

variable {landed : Bytes → Bytes}

theorem forward_skipOr (hlanded : ∀ q, (landed q).length ≤ q.length) (hp : p.length < n) :
    Forward n (skipOr code p sh landed) := by
  unfold skipOr
  split
  · trivial
  · split_ifs
    · trivial
    · exact (hlanded _).trans_lt ((Nat.lt_succ_self _).trans hp)

theorem forward_orIf (h : sh.p.length < n) : Forward n (orIf status sh) := by
  unfold orIf
  dsimp only
  split_ifs
  · refine forward_skipOr (fun q => le_rfl) ?_
    rw [shellSpawn_p]
    exact (length_skipTo _ _ _).trans_lt h
  · change (shellSpawn status sh).2.p.length < n
    rw [shellSpawn_p]
    exact h

theorem forward_andIf (h : sh.p.length < n) : Forward n (andIf status sh) := by
  unfold andIf
  dsimp only
  split_ifs
  · change (shellSpawn status sh).2.p.length < n
    rw [shellSpawn_p]
    exact h
  · refine forward_skipOr length_tail_le ?_
    rw [shellSpawn_p]
    exact (length_skipTo _ _ _).trans_lt h

theorem forward_tickCmd (sh : Shell) : Forward sh.p.length (tickCmd status sh) := by
  refine tickCmd_cases (fun _ => forward_finish _ sh) (fun _ _ => trivial) trivial (fun _ => trivial)
    (fun _ _ _ _ h => h) (fun _ _ _ h => h) (fun _ h => forward_orIf h) (fun _ h => forward_andIf h)
    (fun _ h => h) ?_ ?_
  · intro p exitstatus h
    change (shellSpawn status { sh with p }).2.p.length < _
    rw [shellSpawn_p]
    exact h
  · intro p h
    change (shellSpawnAsync { sh with p }).p.length < _
    rw [shellSpawnAsync_p]
    exact h

theorem forward_tick (t : TokState) (sh : Shell) : Forward sh.p.length (tick status t sh) :=
  tick_cases t (fun _ => forward_tickCmd sh) (fun _ _ => trivial) trivial trivial fun _ _ _ h => h

/-- A word is ended at the byte where the scan is, and only if there is one or a blank follows. -/
def EndsWord (sh : Shell) : Tick → Prop
  | .arg _ sh' => sh'.p = sh.p ∧ sh'.word = [] ∧
    (sh.word ≠ [] ∨ ∀ c, sh.p.head? = some c → c = 0x20 ∨ c = 0x09)
  | _ => True

theorem endsWord_finish (h : sh.word ≠ [] ∨ ∀ c, sh.p.head? = some c → c = 0x20 ∨ c = 0x09) :
    EndsWord sh (finish sh) := by
  unfold finish
  split_ifs <;> exact ⟨rfl, rfl, h⟩

theorem endsWord_skipOr {r : Shell} : EndsWord sh (skipOr code p r landed) := by
  unfold skipOr
  split
  · trivial
  · split_ifs <;> trivial

theorem endsWord_tickCmd (sh : Shell) : EndsWord sh (tickCmd status sh) := by
  refine tickCmd_cases endsWord_finish (fun _ _ => trivial) trivial (fun _ => trivial)
    (fun _ _ _ _ _ => trivial) (fun _ _ _ _ => trivial) ?_ ?_ (fun _ _ => trivial)
    (fun _ _ _ => trivial) (fun _ _ => trivial)
  · intro p _
    unfold orIf
    dsimp only
    split_ifs
    · exact endsWord_skipOr
    · trivial
  · intro p _
    unfold andIf
    dsimp only
    split_ifs
    · trivial
    · exact endsWord_skipOr

theorem tick_arg (h : tick status t sh = .arg a sh') :
    sh'.p = sh.p ∧ sh'.word = [] ∧ ¬(t = .whitespace ∧ sh.word = []) := by
  revert h
  refine tick_cases (C := fun x => x = .arg a sh' → _) t (fun hnot h => ?_) nofun
    nofun nofun nofun
  have hcmd : EndsWord sh (tickCmd status sh) := endsWord_tickCmd sh
  rw [h] at hcmd
  refine ⟨hcmd.1, hcmd.2.1, ?_⟩
  rintro ⟨ht, hword⟩
  obtain ⟨c, hc, hblank⟩ := hnot ht
  cases hcmd.2.2 with
  | inl hne => exact hne hword
  | inr hall => exact hblank (hall c hc)

theorem takeArg_ok (h : takeArg glob sh a = .ok sh') : sh'.p = sh.p ∧ sh'.word = sh.word := by
  unfold takeArg at h
  split at h
  · cases h
    exact ⟨rfl, rfl⟩
  · split_ifs at h
    split at h
    · cases h
      exact ⟨rfl, rfl⟩
    · nomatch h
    · split_ifs at h
      cases h
      exact ⟨rfl, rfl⟩

theorem lowers_turn (status : List Event → Nat) (glob : Bytes → Globbed) :
    Lowers (fun _ => true) (turn status glob) passes where
  pos _ _ := Nat.succ_pos _
  lt := by
    intro x y _ h
    unfold turn at h
    split at h
    · -- a byte was read
      rename_i t sh htick
      cases h
      have hlt : Forward x.sh.p.length (tick status x.t x.sh) := forward_tick x.t x.sh
      rw [htick] at hlt
      have hlength : sh.p.length < x.sh.p.length := hlt
      unfold passes
      dsimp only
      split_ifs <;> omega
    · -- a word was ended
      rename_i a sh htick
      obtain ⟨hp, hword, hnot⟩ := tick_arg htick
      split at h
      · rename_i sh' harg
        cases h
        obtain ⟨hp', hword'⟩ := takeArg_ok harg
        unfold passes
        rw [if_neg hnot, if_pos ⟨rfl, hword'.trans hword⟩, hp', hp]
        exact Nat.lt_succ_self _
      · nomatch h
    · nomatch h
    · nomatch h
    · nomatch h

theorem run_next {x y : Pass} (h : turn status glob x = .next y) :
    run status glob x = run status glob y :=
  loop_next (lowers_turn status glob) rfl h

theorem run_stop {x y : Pass} (h : turn status glob x = .stop y) : run status glob x = y :=
  loop_stop (lowers_turn status glob) rfl h

end CosmoRuby.Mtsh
