import CosmoRuby.Mtsh.AndOr

/-!
# Where the shell is a POSIX shell

A script is run as POSIX says where the conditions of `Good` hold. For scripts whose quoted text does
not get in the way of the loops that skip commands these conditions are also necessary: a newline
between two lists joins their commands, and a list that ends in a skipped command ends the shell.
-/

namespace CosmoRuby.Mtsh

open Lib List

variable {status : List Event → Nat} {glob : Bytes → Globbed} {t : TokState} {sh sh' : Shell} {ran : List Event}

/-! ## What a pass starts -/

def Starts (sh sh' : Shell) : Prop :=
  (sh'.args = sh.args ∧ sh'.ran = sh.ran) ∨
    ∃ e, sh'.ran = sh.ran ++ [e] ∧ ∀ args, e = .spawn args → args = sh.args

theorem Starts.refl (sh : Shell) : Starts sh sh := Or.inl ⟨rfl, rfl⟩

def TickStarts (sh : Shell) : Tick → Prop
  | .next _ sh' => Starts sh sh'
  | .arg _ sh' => Starts sh sh'
  | .finished sh' => Starts sh sh'
  | .exit _ sh' => Starts sh sh'
  | .expansion sh' => Starts sh sh'

theorem tickStarts_finish (sh : Shell) : TickStarts sh (finish sh) := by
  unfold finish
  split_ifs <;> exact Starts.refl sh

theorem starts_shellSpawn (sh : Shell) (p : Bytes) :
    Starts sh (shellSpawn status { sh with p }).2 := by
  unfold shellSpawn
  split_ifs with h
  · exact Starts.refl sh
  · refine Or.inr ⟨.spawn sh.args, rfl, ?_⟩
    intro args heq
    exact (Event.spawn.inj heq).symm

theorem tickStarts_skipOr {code : Nat} {p : Bytes} {landed : Bytes → Bytes} (h : Starts sh sh') :
    TickStarts sh (skipOr code p sh' landed) := by
  unfold skipOr
  split
  · exact h
  · split_ifs <;> exact h

section

variable (sh : Shell) (p : Bytes)

theorem tickStarts_orIf : TickStarts sh (orIf status { sh with p }) := by
  have h : Starts sh (shellSpawn status { sh with p }).2 := starts_shellSpawn sh p
  exact iteInduction (fun _ => tickStarts_skipOr h) fun _ => h

theorem tickStarts_andIf : TickStarts sh (andIf status { sh with p }) := by
  have h : Starts sh (shellSpawn status { sh with p }).2 := starts_shellSpawn sh p
  exact iteInduction (fun _ => h) fun _ => tickStarts_skipOr h

theorem starts_pipe : Starts sh (pipe { sh with p }) := by
  unfold pipe
  dsimp only
  split_ifs with h
  · exact Or.inl ⟨h.symm, rfl⟩
  · exact Or.inr ⟨.pipe sh.args, rfl, fun args heq => nomatch heq⟩

theorem starts_shellSpawnAsync : Starts sh (shellSpawnAsync { sh with p }) := by
  unfold shellSpawnAsync
  split_ifs with h
  · exact Starts.refl sh
  · exact Or.inr ⟨.async sh.args, rfl, fun args heq => nomatch heq⟩

end

theorem tickStarts_tick (t : TokState) (sh : Shell) : TickStarts sh (tick status t sh) := by
  have hsame : Starts sh sh := Starts.refl sh
  refine tick_cases t (fun _ => ?_) (fun _ _ => hsame) hsame hsame (fun _ _ _ _ => hsame)
  exact tickCmd_cases (fun _ => tickStarts_finish sh) (fun _ _ => hsame) hsame (fun _ => hsame)
    (fun _ _ _ _ _ => hsame) (fun _ _ _ _ => .inr ⟨_, rfl, nofun⟩)
    (fun p _ => tickStarts_orIf sh p) (fun p _ => tickStarts_andIf sh p) (fun p _ => starts_pipe sh p)
    (fun p _ _ => starts_shellSpawn sh p) (fun p _ => starts_shellSpawnAsync sh p)

/-- Nothing was started since `ran`, and the words `args` wait; or the first command that was started
since then has these words at its beginning. -/
def Waits (ran : List Event) (args : List Bytes) (sh : Shell) : Prop :=
  (sh.ran = ran ∧ args <+: sh.args) ∨ ∃ e, ran ++ [e] <+: sh.ran ∧ ∀ v, e = .spawn v → args <+: v

variable {args : List Bytes}

theorem Waits.starts (h : Waits ran args sh) (hstarts : Starts sh sh') : Waits ran args sh' := by
  rcases h with ⟨hran, hargs⟩ | ⟨e, hran, he⟩
  · rcases hstarts with ⟨hargs', hran'⟩ | ⟨e, hran', he⟩
    · exact Or.inl ⟨hran'.trans hran, hargs' ▸ hargs⟩
    · refine Or.inr ⟨e, ?_, fun v hv => he v hv ▸ hargs⟩
      rw [hran', hran]
  · refine Or.inr ⟨e, ?_, he⟩
    rcases hstarts with ⟨-, hran'⟩ | ⟨e', hran', -⟩
    · rwa [hran']
    · rw [hran']
      exact hran.trans (prefix_append _ _)

theorem Waits.takeArg {a : Option Bytes} (h : Waits ran args sh)
    (harg : takeArg glob sh a = .ok sh') : Waits ran args sh' := by
  have hmore : ∃ more, sh'.args = sh.args ++ more ∧ sh'.ran = sh.ran := by
    unfold Mtsh.takeArg at harg
    split at harg
    · cases harg
      exact ⟨[], (append_nil _).symm, rfl⟩
    · split_ifs at harg
      split at harg
      · cases harg
        exact ⟨_, rfl, rfl⟩
      · nomatch harg
      · split_ifs at harg
        cases harg
        exact ⟨_, rfl, rfl⟩
  obtain ⟨more, hargs, hran⟩ := hmore
  unfold Waits
  rw [hargs, hran]
  exact h.imp_left fun h => ⟨h.1, h.2.trans (prefix_append _ _)⟩

theorem waits_run {x : Pass} (h : Waits ran args x.sh) : Waits ran args (run status glob x).sh := by
  have hturn : ∀ x y, Waits ran args x.sh →
      turn status glob x = .next y ∨ turn status glob x = .stop y → Waits ran args y.sh := by
    intro x y hx hy
    have hstarts : TickStarts x.sh (tick status x.t x.sh) := tickStarts_tick x.t x.sh
    unfold turn at hy
    split at hy <;> rename_i htick <;> rw [htick] at hstarts
    · rcases hy with hy | hy <;> cases hy
      exact hx.starts hstarts
    · split at hy <;> rename_i harg <;> rcases hy with hy | hy <;> cases hy
      · exact (hx.starts hstarts).takeArg harg
      · exact hx.starts hstarts
    · rcases hy with hy | hy <;> cases hy
      exact (hx.starts hstarts).starts (starts_shellSpawn _ _)
    · rcases hy with hy | hy <;> cases hy
      exact hx.starts hstarts
    · rcases hy with hy | hy <;> cases hy
      exact hx.starts hstarts
  exact loop_invariant (lowers_turn status glob) (fun x => Waits ran args x.sh)
    (fun x => Waits ran args x.sh) (fun x y hx _ hy => hturn x y hx (Or.inl hy))
    (fun x y hx _ hy => hturn x y hx (Or.inr hy)) (fun x _ hx => nomatch hx) x h

/-! ## Scripts with harmless words -/

/-- Words that are neither patterns nor redirections, the last one not empty, and no quoted text that
the loops which skip commands stop at. -/
structure Cmd.Tame (glob : Bytes → Globbed) (c : Cmd) : Prop where
  passed : ∀ v ∈ c.values, Passed glob v
  count : c.values.length < maxArgs
  nonempty : c.values.getLast? ≠ some []
  clean : ∀ op : Op, clean op.stop c.render = true

variable {c : Cmd}

theorem Cmd.Tame.sound (h : c.Tame glob) (next : Bytes) : Sound glob c next :=
  ⟨h.passed, h.count, Or.inl h.nonempty⟩

def AndOr.cmds (l : AndOr) : List Cmd := l.first :: l.rest.map Item.cmd

def Script.cmds : Script → List Cmd
  | .last l _ _ => l.cmds
  | .cons l _ _ rest => l.cmds ++ rest.cmds

variable {tail : Bytes} {isLast : Prop}

theorem goodRest_of_tame {x : Ran} {items : List Item}
    (h : ∀ c ∈ items.map Item.cmd, c.Tame glob) (hlast : EndsSkipped status x items → isLast) :
    GoodRest status glob tail isLast x items := by
  induction items generalizing x with
  | nil => trivial
  | cons i items ih =>
    rw [map_cons, forall_mem_cons] at h
    rw [EndsSkipped] at hlast
    rw [GoodRest]
    split_ifs at hlast ⊢
    · exact ⟨h.1.sound _, ih h.2 hlast⟩
    · exact ⟨h.1.clean _, fun h => hlast (Or.inl h), ih h.2 fun h => hlast (Or.inr h)⟩

theorem goodList_of_tame {l : AndOr} (h : ∀ c ∈ l.cmds, c.Tame glob)
    (hlast : EndsSkipped status (execute status ran l.first) l.rest → isLast) :
    GoodList status glob ran tail isLast l := by
  rw [AndOr.cmds, forall_mem_cons] at h
  exact ⟨h.1.sound _, goodRest_of_tame h.2 hlast⟩

/-! ## What POSIX runs -/

theorem prefix_posixRest (x : Ran) (items : List Item) : x.2 <+: (posixRest status x items).2 := by
  induction items generalizing x with
  | nil => exact prefix_rfl
  | cons i items ih =>
    rw [posixRest]
    refine List.IsPrefix.trans ?_ (ih _)
    split_ifs
    · exact prefix_append _ _
    · exact prefix_rfl

theorem prefix_posix (status : List Event → Nat) (ran : List Event) (s : Script) :
    ∃ e, ran ++ [e] <+: (posix status ran s).2 := by
  induction s generalizing ran with
  | last l trail fin => exact ⟨_, prefix_posixRest (execute status ran l.first) l.rest⟩
  | cons l lead sep rest ih =>
    obtain ⟨e, he⟩ := ih (posixList status ran l).2
    refine ⟨.spawn l.first.values, ?_⟩
    exact (prefix_posixRest (execute status ran l.first) l.rest).trans ((prefix_append _ _).trans he)

theorem ne_posix (ran : List Event) (s : Script) : ran ≠ (posix status ran s).2 := by
  intro heq
  obtain ⟨e, he⟩ := prefix_posix status ran s
  have hlength := he.length_le
  rw [← heq, length_append, length_singleton] at hlength
  omega

/-! ## A newline joins commands -/

def Script.first : Script → Cmd
  | .last l _ _ => l.first
  | .cons l _ _ _ => l.first

theorem first_mem_cmds (s : Script) : s.first ∈ s.cmds := by
  cases s with
  | last l trail fin => exact mem_cons_self
  | cons l lead sep rest => exact mem_append_left _ mem_cons_self

theorem render_first (s : Script) : ∃ next, s.render = s.first.render ++ next ∧ Ended next := by
  have hlist {l : AndOr} {tail : Bytes} (ht : Tail tail) :
      ∃ next, l.render ++ tail = l.first.render ++ next ∧ Ended next := by
    refine ⟨l.rest.flatMap Item.render ++ tail, ?_, ended_items _ ht⟩
    rw [AndOr.render, append_assoc]
  cases s with
  | last l trail fin => exact hlist (tail_renderEnd _ _)
  | cons l lead sep rest => exact hlist (tail_sep _ _ _)

variable {s : Script}

theorem waits_first (status : List Event → Nat) (args : List Bytes) (st : Nat)
    (ran : List Event) (h : s.first.Tame glob) :
    Waits ran (args ++ [s.first.first.value]) (between status glob s.render args st ran).sh ∨
      (between status glob s.render args st ran).sh.ran = ran := by
  obtain ⟨next, hrender, hnext⟩ := render_first s
  have hends : Terminates (s.first.more.flatMap (fun w => blank w.1 :: w.2.render) ++ next)
      s.first.first.value := by
    have hnonempty := h.nonempty
    unfold Cmd.values at hnonempty
    cases hmore : s.first.more with
    | nil =>
      rw [hmore] at hnonempty
      exact hnext.imp_right fun hx => ⟨fun hv => hnonempty (congrArg some hv), hx⟩
    | cons w more =>
      refine Or.inl fun c hc => ?_
      rw [← Option.some.inj hc]
      cases w.1
      · exact Or.inl rfl
      · exact Or.inr rfl
  rw [hrender, Cmd.render, append_assoc]
  by_cases hcount : args.length + 1 < maxArgs
  · rw [run_word (h.passed _ mem_cons_self) hcount hends]
    exact Or.inl (waits_run (Or.inl ⟨rfl, prefix_rfl⟩))
  · rw [run_word_full hcount hends]
    exact Or.inr rfl

theorem ne_posix_of_waiting {st : Nat} (h : s.first.Tame glob) :
    (between status glob s.render c.values st ran).sh.ran ≠
      (posix status (execute status ran c).2 s).2 := by
  intro heq
  obtain ⟨e, he⟩ := prefix_posix status (execute status ran c).2 s
  have hposix : ran ++ [.spawn c.values] <+: (posix status (execute status ran c).2 s).2 :=
    (prefix_append _ _).trans he
  have hlong := hposix.length_le
  rw [length_append, length_singleton] at hlong
  rw [← heq] at hposix hlong
  rcases waits_first status c.values st ran h with (⟨hran, -⟩ | ⟨e', he', hargs⟩) | hran
  · rw [hran] at hlong
    omega
  · have hlast : ran ++ [e'] = ran ++ [.spawn c.values] := by
      apply (prefix_of_prefix_length_le he' hposix _).eq_of_length
      · rw [length_append, length_append]
        rfl
      · rw [length_append, length_append]
        exact le_rfl
    have hlength := (hargs _ (List.cons.inj (append_cancel_left hlast)).1).length_le
    rw [length_append, length_singleton] at hlength
    omega
  · rw [hran] at hlong
    omega

/-! ## Scripts as a whole -/

theorem goodLists_of_ran (st : Nat) (htame : ∀ c ∈ s.cmds, c.Tame glob)
    (h : (between status glob s.render [] st ran).sh.ran = (posix status ran s).2) :
    GoodLists status glob ran s := by
  induction s generalizing ran st with
  | last l trail fin => exact goodList_of_tame htame fun _ => trivial
  | cons l lead sep rest ih =>
    obtain ⟨hl, hrest⟩ := List.forall_mem_append.mp htame
    have hlist : AtEnd status glob (blanks lead ++ sep.byte :: rest.render)
        (EndsSkipped status (execute status ran l.first) l.rest)
        (EndsSkipped status (execute status ran l.first) l.rest) st
        (between status glob (Script.cons l lead sep rest).render [] st ran)
        (posixList status ran l) :=
      run_list (tail_sep lead sep rest.render) st (goodList_of_tame hl id)
    rcases hlist with ⟨hskipped, ran', c, hx, hy⟩ | ⟨-, -, hran⟩
    · have hlead : between status glob (Script.cons l lead sep rest).render [] st ran =
          between status glob (sep.byte :: rest.render) c.values st ran' :=
        hy.trans (run_blanks (shell [] [] c.values st ran') lead)
      rw [hlead, posix, hx] at h
      cases sep with
      | semi =>
        rw [Sep.byte, run_semi, spawned_values] at h
        refine ⟨rfl, goodList_of_tame hl hskipped, ?_⟩
        rw [hx]
        exact ih _ hrest h
      | newline =>
        rw [Sep.byte, run_newline] at h
        exact absurd h (ne_posix_of_waiting (hrest _ (first_mem_cmds rest)))
    · rw [hran, posix] at h
      exact absurd h (ne_posix _ rest)

theorem good_of_asPosix (htame : ∀ c ∈ s.cmds, c.Tame glob) (h : AsPosix status glob s) :
    Good status glob s := by
  unfold AsPosix mtsh at h
  split_ifs at h with hlength hargbuf
  · exact absurd (congrArg Prod.snd h) (ne_posix [] s)
  · exact absurd (congrArg Prod.snd h) (ne_posix [] s)
  · exact ⟨Nat.not_le.mp hargbuf, goodLists_of_ran 0 htame (congrArg Prod.snd h)⟩

/-- A good script is run as POSIX says, whatever is in its quotes; and where the words are harmless
and `argbuf` has room for them only a good one is. -/
theorem asPosix_iff_good (status : List Event → Nat) (glob : Bytes → Globbed) (s : Script) :
    (Good status glob s → AsPosix status glob s) ∧
      ((∀ c ∈ s.cmds, c.Tame glob) → s.render.length + 1 ≠ argMax →
        (AsPosix status glob s ↔ Good status glob s)) :=
  ⟨asPosix_of_good, fun htame _ => ⟨good_of_asPosix htame, asPosix_of_good⟩⟩

def letter (lead : List Bool) (c : { c : UInt8 // isAlnum c = true }) : Cmd :=
  ⟨⟨lead, [.plain c], cons_ne_nil _ _⟩, []⟩

def failing (ran : List Event) : Nat := if ran.getLast? = some (.spawn [[0x64]]) then 0 else 1

def alternative : Script :=
  .cons ⟨letter [] ⟨0x61, rfl⟩, [⟨[false], .and, letter [false] ⟨0x62, rfl⟩⟩,
    ⟨[false], .or, letter [false] ⟨0x64, rfl⟩⟩]⟩ [] .semi
    (.last ⟨letter [false] ⟨0x63, rfl⟩, []⟩ [] none)

theorem asPosix_alternative : Good failing (fun _ => .nomatch) alternative ∧
    AsPosix failing (fun _ => .nomatch) alternative := by
  have hsound : ∀ (c : UInt8) (next : Bytes) (lead : List Bool) (h : isAlnum c = true),
      Sound (fun _ => .nomatch) (letter lead ⟨c, h⟩) next := by
    intro c next lead h
    refine ⟨?_, Nat.lt_of_sub_eq_succ rfl, Or.inl (fun h => nomatch h)⟩
    intro v hv
    have hred : ∀ c : UInt8, isAlnum c = true → isRedirect [c] = false := by decide +kernel
    rw [List.mem_singleton.mp hv]
    exact ⟨hred c h, Or.inl rfl⟩
  have hgood : Good failing (fun _ => .nomatch) alternative := by
    refine ⟨by decide, rfl, ⟨hsound _ _ _ rfl, ?_⟩, hsound _ _ _ rfl, trivial⟩
    exact ⟨by decide, (fun h => nomatch h), hsound _ _ _ rfl, trivial⟩
  exact ⟨hgood, (asPosix_iff_good _ _ _).1 hgood⟩

/-- `a`, a newline and `b`: one command. -/
example : mtsh (fun _ => 0) (fun _ => .nomatch) [0x61, 0x0A, 0x62] =
    (some (.exit 0), [.spawn [[0x61], [0x62]]]) := by
  decide

/-- `a && b; c` where `a` fails: `c` is not run. -/
theorem not_asPosix_skipped_last :
    ¬AsPosix (fun _ => 1) (fun _ => .nomatch)
      (.cons ⟨letter [] ⟨0x61, rfl⟩, [⟨[false], .and, letter [false] ⟨0x62, rfl⟩⟩]⟩ [] .semi
        (.last ⟨letter [false] ⟨0x63, rfl⟩, []⟩ [] none)) := by
  decide

end CosmoRuby.Mtsh
