import CosmoRuby.Mtsh.Script

/-!
# Running AND-OR lists

How the shell goes through the text of a script: over blanks and words, through the operators, and
over the commands that it skips.
-/

namespace CosmoRuby.Mtsh

open Lib List

variable {status : List Event → Nat} {glob : Bytes → Globbed} {sh : Shell} {rest next : Bytes}
  {t t' : TokState} {sh' : Shell} {e : Option Ending}

theorem run_tick (h : tick status t sh = .next t' sh') :
    run status glob ⟨t, sh, e⟩ = run status glob ⟨t', sh', none⟩ := by
  apply run_next
  unfold turn
  dsimp only
  rw [h]

/-! ## Words -/

def Shell.reading (sh : Shell) (p word : Bytes) : Shell := { sh with p, word }

def isPlain (c : UInt8) : Bool :=
  !unsupported c && c ≠ 0x20 && c ≠ 0x09 && c ≠ 0x23 && c ≠ 0x22 && c ≠ 0x27 && c ≠ 0x60 && c ≠ 0x24 &&
    c ≠ 0x5C && c ≠ 0x3D && c ≠ 0x28 && c ≠ 0x29 && c ≠ 0x7C && c ≠ 0x3B && c ≠ 0x0A && c ≠ 0x3E && c ≠ 0x26

theorem isPlain_of_isAlnum : ∀ c : UInt8, isAlnum c = true → isPlain c = true := by
  decide +kernel

variable {c d : UInt8}

theorem ne_of_isAlnum (hc : isAlnum c = true) (hd : isAlnum d = false) : c ≠ d := by
  rintro rfl
  exact Bool.false_ne_true (hd.symm.trans hc)

theorem tick_plain (h : isPlain c = true) (word : Bytes) :
    tick status .cmd (sh.reading (c :: rest) word) = .next .cmd (sh.reading rest (word ++ [c])) := by
  simp only [isPlain, Bool.and_eq_true, Bool.not_eq_true', decide_eq_true_eq] at h
  obtain ⟨⟨⟨⟨⟨⟨⟨⟨⟨⟨⟨⟨⟨⟨⟨⟨h0, h1⟩, h2⟩, h3⟩, h4⟩, h5⟩, h6⟩, h7⟩, h8⟩, h9⟩, h10⟩, h11⟩, h12⟩, h13⟩, h14⟩, h15⟩,
    h16⟩ := h
  unfold tick tickCmd
  simp only [Shell.reading, h0, h1, h2, h3, h4, h5, h6, h7, h8, h9, h10, h11, h12, h13, h14, h15, h16,
    or_self, false_and, if_false, Bool.false_eq_true]

theorem run_single (text : Bytes) (h : ∀ c ∈ text, c ≠ 0x27 ∧ c ≠ 0) (word : Bytes) :
    run status glob ⟨.single, sh.reading (text ++ 0x27 :: rest) word, none⟩ =
      run status glob ⟨.cmd, sh.reading rest (word ++ text), none⟩ := by
  induction text generalizing word with
  | nil =>
    rw [append_nil]
    exact run_tick rfl
  | cons c text ih =>
    obtain ⟨hc, htext⟩ := List.forall_mem_cons.mp h
    have hword : word ++ c :: text = word ++ [c] ++ text := append_cons word c text
    rw [hword, ← ih htext]
    apply run_tick
    unfold tick
    exact if_neg hc.1

theorem run_inner (i : Inner) (word : Bytes) :
    run status glob ⟨.quoted, sh.reading (i.render ++ rest) word, none⟩ =
      run status glob ⟨.quoted, sh.reading rest (word ++ i.value), none⟩ := by
  apply run_tick
  cases i with
  | lit c =>
    obtain ⟨c, hc, hc0⟩ := c
    simp only [isQuotable, Bool.or_eq_false_iff, decide_eq_false_iff_not] at hc
    unfold tick
    dsimp only [Inner.render, Inner.value, Shell.reading, cons_append, nil_append]
    rw [if_neg hc.1.2, if_neg (not_or.mpr ⟨hc.1.1.2, hc.1.1.1⟩), if_neg hc.2]
  | quoted c =>
    obtain ⟨c, hc⟩ := c
    simp only [isQuotable, Bool.or_eq_true, decide_eq_true_eq, or_assoc] at hc
    have hnl : c ≠ 0x0A := by
      rcases hc with rfl | rfl | rfl | rfl <;> decide
    unfold tick tickEscaped
    dsimp only [Inner.render, Inner.value, Shell.reading, cons_append, nil_append]
    rw [if_neg (by decide), if_neg (by decide), if_pos rfl, if_neg hnl, if_pos hc]
  | kept c =>
    obtain ⟨c, hc, hnl, hc0⟩ := c
    simp only [isQuotable, Bool.or_eq_false_iff, decide_eq_false_iff_not] at hc
    unfold tick tickEscaped
    dsimp only [Inner.render, Inner.value, Shell.reading, cons_append, nil_append]
    rw [if_neg (by decide), if_neg (by decide), if_pos rfl, if_neg hnl, if_neg]
    rintro (h | h | h | h)
    · exact hc.1.1.1 h
    · exact hc.1.1.2 h
    · exact hc.1.2 h
    · exact hc.2 h
  | joined =>
    rw [Inner.value, append_nil]
    rfl

theorem run_inners (text : List Inner) (word : Bytes) :
    run status glob ⟨.quoted, sh.reading (text.flatMap Inner.render ++ 0x22 :: rest) word, none⟩ =
      run status glob ⟨.cmd, sh.reading rest (word ++ text.flatMap Inner.value), none⟩ := by
  induction text generalizing word with
  | nil =>
    rw [flatMap_nil, flatMap_nil, append_nil]
    exact run_tick rfl
  | cons i text ih =>
    rw [flatMap_cons, flatMap_cons, append_assoc, run_inner, ih, append_assoc]

theorem run_piece (x : Piece) (word : Bytes) :
    run status glob ⟨.cmd, sh.reading (x.render ++ rest) word, none⟩ =
      run status glob ⟨.cmd, sh.reading rest (word ++ x.value), none⟩ := by
  cases x with
  | plain c => exact run_tick (tick_plain (isPlain_of_isAlnum c.1 c.2) word)
  | single text =>
    rw [Piece.value, ← run_single text.1 text.2 word, Piece.render, cons_append,
      cons_append, append_assoc]
    exact run_tick rfl
  | double text =>
    rw [Piece.value, ← run_inners text word, Piece.render, cons_append,
      cons_append, append_assoc]
    exact run_tick rfl

theorem run_pieces (xs : List Piece) (word : Bytes) :
    run status glob ⟨.cmd, sh.reading (xs.flatMap Piece.render ++ rest) word, none⟩ =
      run status glob ⟨.cmd, sh.reading rest (word ++ xs.flatMap Piece.value), none⟩ := by
  induction xs generalizing word with
  | nil => rw [flatMap_nil, flatMap_nil, append_nil, nil_append]
  | cons x xs ih =>
    rw [flatMap_cons, flatMap_cons, append_assoc, run_piece, ih, append_assoc]

theorem endsEmpty_blank (b : Bool) (p : Bytes) : EndsEmpty (blank b :: p) := by
  intro c hc
  rw [← Option.some.inj hc]
  cases b
  · exact Or.inl rfl
  · exact Or.inr rfl

theorem run_blanks (sh : Shell) (bs : List Bool) :
    run status glob ⟨.whitespace, sh.reading (blanks bs ++ rest) [], none⟩ =
      run status glob ⟨.whitespace, sh.reading rest [], none⟩ := by
  induction bs with
  | nil => rfl
  | cons b bs ih =>
    rw [← ih]
    apply run_tick
    cases b <;> rfl

theorem run_word_start (w : Word) :
    run status glob ⟨.whitespace, sh.reading (w.text ++ rest) [], none⟩ =
      run status glob ⟨.cmd, sh.reading (w.text ++ rest) [], none⟩ := by
  obtain ⟨lead, xs, hne⟩ := w
  obtain ⟨x, xs, rfl⟩ := exists_cons_of_ne_nil hne
  have hhead : ∃ c s, x.render = c :: s ∧ c ≠ 0x20 ∧ c ≠ 0x09 ∧ c ≠ 0x0A ∧ c ≠ 0x5C := by
    cases x with
    | single text => exact ⟨0x27, _, rfl, by decide⟩
    | double text => exact ⟨0x22, _, rfl, by decide⟩
    | plain c =>
      exact ⟨c.1, [], rfl, ne_of_isAlnum c.2 rfl, ne_of_isAlnum c.2 rfl, ne_of_isAlnum c.2 rfl,
        ne_of_isAlnum c.2 rfl⟩
  obtain ⟨c, s, hx, h1, h2, h3, h4⟩ := hhead
  obtain ⟨p, hp⟩ : ∃ p, Word.text ⟨lead, x :: xs, hne⟩ ++ rest = c :: p := by
    unfold Word.text
    rw [flatMap_cons, hx]
    exact ⟨_, rfl⟩
  rw [hp]
  have hsame : tick status .whitespace (sh.reading (c :: p) []) = tick status .cmd (sh.reading (c :: p) []) := by
    unfold tick
    exact if_neg (by rintro (h | h | h | h) <;> first | exact h1 h | exact h2 h | exact h3 h | exact h4 h.1)
  have hturn : turn status glob ⟨.whitespace, sh.reading (c :: p) [], none⟩ =
      turn status glob ⟨.cmd, sh.reading (c :: p) [], none⟩ := by
    unfold turn
    dsimp only
    rw [hsame]
  cases hy : turn status glob ⟨.cmd, sh.reading (c :: p) [], none⟩ with
  | next y => rw [run_next hy, run_next (hturn.trans hy)]
  | stop y => rw [run_stop hy, run_stop (hturn.trans hy)]

def shell (p word : Bytes) (args : List Bytes) (st : Nat) (ran : List Event) : Shell :=
  ⟨p, word, false, args, st, ran⟩

/-- The loop of the shell from between two words on. -/
abbrev between (status : List Event → Nat) (glob : Bytes → Globbed) (p : Bytes) (args : List Bytes) (st : Nat)
    (ran : List Event) : Pass :=
  run status glob ⟨.whitespace, shell p [] args st ran, none⟩

variable {args : List Bytes} {st : Nat} {ran : List Event}

def Terminates (next word : Bytes) : Prop :=
  EndsEmpty next ∨ (word ≠ [] ∧ ∃ c s, next = c :: s ∧ (c = 0x3B ∨ c = 0x0A ∨ c = 0x26 ∨ c = 0x7C))

theorem tick_end {word : Bytes} (h : Terminates next word) :
    tick status .cmd (shell next word args st ran) = .arg (some word) (shell next [] args st ran) := by
  cases next with
  | nil => rfl
  | cons c s =>
    rcases h with hblank | ⟨hne, c', s', heq, hc⟩
    · rcases hblank c rfl with rfl | rfl <;> rfl
    · cases heq
      rcases hc with rfl | rfl | rfl | rfl <;> exact if_pos hne

theorem run_word_read (w : Word) :
    between status glob (w.render ++ next) args st ran =
      run status glob ⟨.cmd, shell next w.value args st ran, none⟩ := by
  have hwords : ∀ p word, (shell [] [] args st ran).reading p word = shell p word args st ran :=
    fun _ _ => rfl
  change run status glob ⟨.whitespace, shell (w.render ++ next) [] args st ran, none⟩ = _
  rw [← hwords, Word.render, append_assoc, run_blanks, run_word_start, Word.text, run_pieces,
    nil_append]
  rfl

variable {w : Word}

theorem run_word (hpassed : Passed glob w.value) (hcount : args.length + 1 < maxArgs)
    (hnext : Terminates next w.value) :
    between status glob (w.render ++ next) args st ran =
      between status glob next (args ++ [w.value]) st ran := by
  have htake : takeArg glob (shell next [] args st ran) (some w.value) =
      .ok (shell next [] (args ++ [w.value]) st ran) := by
    unfold takeArg shell
    dsimp only
    rw [if_pos hcount, hpassed.1, if_neg (by decide)]
    rcases hpassed.2 with hglob | hglob
    · rw [hglob]
    · rw [hglob]
      exact if_pos hcount
  have hturn : turn status glob ⟨.cmd, shell next w.value args st ran, none⟩ =
      .next ⟨.whitespace, shell next [] (args ++ [w.value]) st ran, none⟩ := by
    unfold turn
    dsimp only
    rw [tick_end hnext]
    dsimp only
    rw [htake]
  rw [run_word_read, run_next hturn]

theorem run_word_full (hcount : ¬args.length + 1 < maxArgs) (hnext : Terminates next w.value) :
    between status glob (w.render ++ next) args st ran =
      ⟨.whitespace, shell next [] args st ran, some (.exit 13)⟩ := by
  have hturn : turn status glob ⟨.cmd, shell next w.value args st ran, none⟩ =
      .stop ⟨.whitespace, shell next [] args st ran, some (.exit 13)⟩ := by
    have htake : takeArg glob (shell next [] args st ran) (some w.value) = .error (.exit 13) :=
      if_neg hcount
    unfold turn
    dsimp only
    rw [tick_end hnext]
    dsimp only
    rw [htake]
  rw [run_word_read, run_stop hturn]

def Follows (c : Cmd) (next : Bytes) : Prop :=
  EndsEmpty next ∨
    (c.values.getLast? ≠ some [] ∧ ∃ x s, next = x :: s ∧ (x = 0x3B ∨ x = 0x0A ∨ x = 0x26 ∨ x = 0x7C))

theorem run_words (ws : List (Bool × Word)) (w : Word)
    (hpassed : ∀ v ∈ w.value :: ws.map (fun w => w.2.value), Passed glob v)
    (hcount : args.length + (ws.length + 1) < maxArgs)
    (hnext : EndsEmpty next ∨
      ((w.value :: ws.map (fun w => w.2.value)).getLast? ≠ some [] ∧
        ∃ x s, next = x :: s ∧ (x = 0x3B ∨ x = 0x0A ∨ x = 0x26 ∨ x = 0x7C))) :
    between status glob (w.render ++ (ws.flatMap (fun w => blank w.1 :: w.2.render) ++ next)) args st ran =
      between status glob next (args ++ w.value :: ws.map (fun w => w.2.value)) st ran := by
  induction ws generalizing w args with
  | nil =>
    rw [flatMap_nil, nil_append]
    apply run_word (hpassed _ mem_cons_self) hcount
    refine hnext.imp_right ?_
    rintro ⟨hlast, hx⟩
    exact ⟨fun h => hlast (congrArg some h), hx⟩
  | cons v ws ih =>
    obtain ⟨b, v⟩ := v
    rw [flatMap_cons, append_assoc, cons_append,
      run_word (hpassed _ mem_cons_self) (by rw [length_cons] at hcount; omega)
        (Or.inl (endsEmpty_blank b _))]
    have hskip : between status glob (blank b :: (v.render ++
          (ws.flatMap (fun w => blank w.1 :: w.2.render) ++ next))) (args ++ [w.value]) st ran =
        between status glob (v.render ++
          (ws.flatMap (fun w => blank w.1 :: w.2.render) ++ next)) (args ++ [w.value]) st ran := by
      apply run_tick
      cases b <;> rfl
    rw [hskip, ih v (fun x hx => hpassed x (mem_cons_of_mem _ hx)), append_assoc]
    · rfl
    · rw [length_append, length_singleton]
      rw [length_cons] at hcount
      omega
    · rwa [map_cons, List.getLast?_cons_cons] at hnext

theorem run_command {c : Cmd} (hpassed : ∀ v ∈ c.values, Passed glob v)
    (hcount : args.length + c.values.length < maxArgs) (hnext : Follows c next) :
    between status glob (c.render ++ next) args st ran =
      between status glob next (args ++ c.values) st ran := by
  have hlength : c.values.length = c.more.length + 1 := by
    rw [Cmd.values, length_cons, length_map]
  rw [Cmd.render, append_assoc]
  exact run_words c.more c.first hpassed (hlength ▸ hcount) hnext

/-! ## Operators -/

def spawned (status : List Event → Nat) (args : List Bytes) (st : Nat) (ran : List Event) : Ran :=
  if args = [] then (st, ran) else (status (ran ++ [.spawn args]), ran ++ [.spawn args])

theorem shellSpawn_shell (p word : Bytes) (args : List Bytes) (st : Nat) (ran : List Event) :
    shellSpawn status (shell p word args st ran) =
      ((spawned status args st ran).1, shell p word [] st (spawned status args st ran).2) := by
  unfold shellSpawn spawned shell
  dsimp only
  split_ifs with h
  · rw [h]
  · rfl

theorem spawned_values (c : Cmd) (st : Nat) (ran : List Event) :
    spawned status c.values st ran = execute status ran c :=
  if_neg (cons_ne_nil _ _)

theorem run_semi :
    between status glob (0x3B :: rest) args st ran =
      between status glob rest [] (spawned status args st ran).1 (spawned status args st ran).2 := by
  apply run_tick
  change Tick.next .whitespace { (shellSpawn status (shell rest [] args st ran)).2 with
    exitstatus := (shellSpawn status (shell rest [] args st ran)).1 } = _
  rw [shellSpawn_shell]
  rfl

theorem run_newline :
    between status glob (0x0A :: rest) args st ran = between status glob rest args st ran :=
  run_tick rfl

theorem run_end :
    between status glob [] args st ran =
      ⟨.whitespace, shell [] [] [] st (spawned status args st ran).2,
        some (.exit (spawned status args st ran).1)⟩ := by
  apply run_stop
  change Turn.stop (Pass.mk .whitespace (shellSpawn status (shell [] [] args st ran)).2
    (some (.exit (shellSpawn status (shell [] [] args st ran)).1))) = _
  rw [shellSpawn_shell]

variable {op : Op}

def Op.landed : Op → Bytes → Bytes
  | .and => List.tail
  | .or => id

theorem tick_op : tick status .whitespace (shell (op.byte :: op.byte :: rest) [] args st ran) =
    if op.runs (spawned status args st ran).1 then
      .next .whitespace (shell rest [] [] st (spawned status args st ran).2)
    else skipOr (spawned status args st ran).1 (skipTo op.stop 0 rest)
      (shell rest [] [] st (spawned status args st ran).2) op.landed := by
  cases op with
  | and =>
    change andIf status (shell rest [] args st ran) = _
    unfold andIf
    rw [shellSpawn_shell]
    simp only [Op.runs, decide_eq_true_eq]
    rfl
  | or =>
    change orIf status (shell rest [] args st ran) = _
    unfold orIf
    rw [shellSpawn_shell]
    by_cases hzero : (spawned status args st ran).1 = 0
    · simp only [Op.runs, hzero, ne_eq, not_true_eq_false, decide_false, if_pos]
      rfl
    · simp only [Op.runs, hzero, ne_eq, not_false_eq_true, decide_true, if_neg, if_pos]

theorem run_op_taken (h : op.runs (spawned status args st ran).1 = true) :
    between status glob (op.byte :: op.byte :: rest) args st ran =
      between status glob rest [] st (spawned status args st ran).2 :=
  run_tick (tick_op.trans (if_pos h))

theorem run_op_exit (h : op.runs (spawned status args st ran).1 = false)
    (hskip : ∀ c s, skipTo op.stop 0 rest = c :: s → c = 0x3B ∨ c = 0x0A) :
    between status glob (op.byte :: op.byte :: rest) args st ran =
      ⟨.whitespace, shell rest [] [] st (spawned status args st ran).2,
        some (.exit (spawned status args st ran).1)⟩ := by
  apply run_stop
  unfold turn
  dsimp only
  rw [tick_op, h, if_neg Bool.false_ne_true]
  cases hp : skipTo op.stop 0 rest with
  | nil => rfl
  | cons c s =>
    unfold skipOr
    dsimp only
    rw [if_pos (hskip c s hp)]

theorem run_op_skipped {p : Bytes} (h : op.runs (spawned status args st ran).1 = false)
    (hskip : skipTo op.stop 0 rest = op.stop :: op.stop :: p) (hp : p.head? ≠ some 0x26) :
    between status glob (op.byte :: op.byte :: rest) args st ran =
      between status glob p [] st (spawned status args st ran).2 := by
  have hfirst : between status glob (op.byte :: op.byte :: rest) args st ran =
      between status glob (op.landed (op.stop :: p)) [] st (spawned status args st ran).2 := by
    apply run_tick
    rw [tick_op, h, if_neg Bool.false_ne_true, hskip]
    cases op <;> rfl
  rw [hfirst]
  cases op with
  | and => rfl
  | or =>
    -- the second byte of the operator is seen again, and starts nothing in the background
    apply run_tick
    change (if p.head? = some 0x26 then _ else _) = _
    rw [if_neg hp]
    rfl

/-! ## Skipping -/

theorem skip_clean {stop : UInt8} {text : Bytes} (h : clean stop text = true)
    (hlast : text.getLast? ≠ some stop) : skipTo stop 0 (text ++ rest) = skipTo stop 0 rest := by
  induction text with
  | nil => rfl
  | cons c text ih =>
    simp only [clean, Bool.and_eq_true, decide_eq_true_eq, Bool.not_eq_true', decide_eq_false_iff_not,
      Bool.and_eq_false_iff] at h
    obtain ⟨⟨⟨⟨h1, h2⟩, h3⟩, h4⟩, h5⟩ := h
    have hpair : ¬(c = stop ∧ (text ++ rest).head? = some stop) := by
      rintro ⟨hc, hhead⟩
      cases text with
      | nil => exact hlast (congrArg some hc)
      | cons d text => exact h4.elim (fun h => h hc) (fun h => h hhead)
    have htail : text.getLast? ≠ some stop := by
      cases text with
      | nil => exact fun h => nomatch h
      | cons d text => rwa [List.getLast?_cons_cons] at hlast
    rw [cons_append, skipTo, if_neg (by rintro (h | h | h); exacts [h1 h, h2 h, hpair h]), if_neg h3]
    exact ih h5 htail

theorem getLast?_append_ne {x y : Bytes} (hne : y ≠ []) (h : y.getLast? ≠ some c) :
    (x ++ y).getLast? ≠ some c := by
  rw [List.getLast?_append_of_ne_nil x hne]
  exact h

theorem word_last (w : Word) (op : Op) : w.render ≠ [] ∧ w.render.getLast? ≠ some op.stop := by
  obtain ⟨lead, xs, hne⟩ := w
  obtain ⟨front, x, rfl⟩ := eq_nil_or_concat' xs |>.resolve_left hne
  have hx : x.render ≠ [] ∧ x.render.getLast? ≠ some op.stop := by
    cases x with
    | plain c =>
      have hstop : isAlnum op.stop = false := by cases op <;> rfl
      exact ⟨cons_ne_nil _ _, fun heq => ne_of_isAlnum c.2 hstop (Option.some.inj heq)⟩
    | single text | double text =>
      refine ⟨cons_ne_nil _ _, getLast?_append_ne (cons_ne_nil _ _) ?_⟩
      cases op <;> decide
  have htext : Word.render ⟨lead, front ++ [x], hne⟩ =
      (blanks lead ++ front.flatMap Piece.render) ++ x.render := by
    rw [Word.render, Word.text, flatMap_append, flatMap_singleton, append_assoc]
  rw [htext]
  exact ⟨append_ne_nil_of_right_ne_nil _ hx.1, getLast?_append_ne hx.1 hx.2⟩

theorem cmd_last (c : Cmd) (op : Op) : c.render.getLast? ≠ some op.stop := by
  rw [Cmd.render]
  rcases eq_nil_or_concat' c.more with hmore | ⟨front, w, hmore⟩
  · rw [hmore, flatMap_nil, append_nil]
    exact (word_last c.first op).2
  · rw [hmore, flatMap_append, flatMap_singleton, ← append_assoc,
      append_cons]
    exact getLast?_append_ne (word_last w.2 op).1 (word_last w.2 op).2

theorem skip_blanks (op : Op) (bs : List Bool) :
    skipTo op.stop 0 (blanks bs ++ rest) = skipTo op.stop 0 rest := by
  induction bs with
  | nil => rfl
  | cons b bs ih =>
    rw [← ih]
    cases b <;> cases op <;> rfl

variable {i : Item}

theorem skip_item (h : clean i.op.stop i.cmd.render = true) :
    skipTo i.op.stop 0 (i.render ++ rest) = skipTo i.op.stop 0 rest := by
  have hop : ∀ p, skipTo i.op.stop 0 (i.op.byte :: i.op.byte :: p) = skipTo i.op.stop 0 p := by
    intro p
    cases i.op <;> rfl
  rw [Item.render, append_assoc, append_assoc, skip_blanks, cons_append, cons_append,
    nil_append, hop, skip_clean h (cmd_last _ _)]

theorem skip_other (h : i.op ≠ op) :
    skipTo op.stop 0 (i.render ++ rest) = op.stop :: op.stop :: (i.cmd.render ++ rest) := by
  have hbyte : i.op.byte = op.stop := by
    cases hi : i.op <;> cases op <;> first | rfl | exact absurd hi h
  rw [Item.render, append_assoc, append_assoc, skip_blanks, hbyte, cons_append,
    cons_append, nil_append, skipTo]
  exact if_pos (Or.inr (Or.inr ⟨rfl, rfl⟩))

/-! ## Lists -/

def Ended (next : Bytes) : Prop :=
  EndsEmpty next ∨ ∃ x s, next = x :: s ∧ (x = 0x3B ∨ x = 0x0A ∨ x = 0x26 ∨ x = 0x7C)

theorem ended_blanks (bs : List Bool) {next : Bytes} (h : Ended next) : Ended (blanks bs ++ next) := by
  cases bs with
  | nil => exact h
  | cons b bs => exact Or.inl (endsEmpty_blank b _)

structure Tail (tail : Bytes) : Prop where
  ended : Ended tail
  skipped : ∀ op : Op, ∀ c s, skipTo op.stop 0 tail = c :: s → c = 0x3B ∨ c = 0x0A

theorem tail_blanks (bs : List Bool) : Tail (blanks bs) where
  ended := by
    rw [← append_nil (blanks bs)]
    exact ended_blanks bs (Or.inl fun c hc => nomatch hc)
  skipped op c s h := by
    rw [← append_nil (blanks bs), skip_blanks] at h
    exact nomatch h

theorem tail_sep (bs : List Bool) (sep : Sep) (text : Bytes) : Tail (blanks bs ++ sep.byte :: text) where
  ended := by
    apply ended_blanks
    cases sep
    · exact Or.inr ⟨_, _, rfl, Or.inl rfl⟩
    · exact Or.inr ⟨_, _, rfl, Or.inr (Or.inl rfl)⟩
  skipped op c s h := by
    rw [skip_blanks] at h
    cases sep
    · exact Or.inl (List.cons.inj h).1.symm
    · exact Or.inr (List.cons.inj h).1.symm

theorem tail_renderEnd (trail : List Bool) (fin : Option (Sep × List Bool)) : Tail (renderEnd trail fin) := by
  cases fin with
  | none => exact tail_blanks trail
  | some fin => exact tail_sep trail fin.1 _

variable {tail : Bytes}

theorem ended_items (items : List Item) (h : Tail tail) :
    Ended (items.flatMap Item.render ++ tail) := by
  cases items with
  | nil => exact h.ended
  | cons i items =>
    rw [flatMap_cons, Item.render, append_assoc, append_assoc, append_assoc]
    apply ended_blanks
    refine Or.inr ⟨_, _, rfl, ?_⟩
    cases i.op
    · exact Or.inr (Or.inr (Or.inl rfl))
    · exact Or.inr (Or.inr (Or.inr rfl))

theorem run_sound {c : Cmd} (h : Sound glob c next) (hnext : Ended next) :
    between status glob (c.render ++ next) [] st ran = between status glob next c.values st ran := by
  have hfollows : Follows c next := by
    rcases h.ended with hlast | hempty
    · exact hnext.imp_right fun hx => ⟨hlast, hx⟩
    · exact Or.inl hempty
  apply run_command h.passed _ hfollows
  rw [length_nil, Nat.zero_add]
  exact h.count

theorem cmd_head (c : Cmd) (s : Bytes) : (c.render ++ s).head? ≠ some 0x26 := by
  obtain ⟨⟨lead, xs, hne⟩, more⟩ := c
  cases lead with
  | cons b lead => cases b <;> exact (nomatch ·)
  | nil =>
    obtain ⟨x, xs, rfl⟩ := exists_cons_of_ne_nil hne
    cases x with
    | single text | double text => exact (nomatch ·)
    | plain c => exact fun heq => ne_of_isAlnum c.2 (d := 0x26) rfl (Option.some.inj heq)

def EndsSkipped (status : List Event → Nat) : Ran → List Item → Prop
  | _, [] => False
  | x, i :: rest =>
    if i.op.runs x.1 then EndsSkipped status (execute status x.2 i.cmd) rest
    else rest = [] ∨ EndsSkipped status x rest

variable {isLast : Prop}

theorem skip_items {x : Ran} {items : List Item}
    (hop : op.runs x.1 = false) (hgood : GoodRest status glob tail isLast x items)
    (hlast : items = [] → isLast) :
    ∃ items', items'.length ≤ items.length ∧ (∀ i ∈ items'.head?, i.op ≠ op) ∧ (items' = [] → isLast) ∧
      GoodRest status glob tail isLast x items' ∧ posixRest status x items = posixRest status x items' ∧
      (items = [] ∨ EndsSkipped status x items → items' = [] ∨ EndsSkipped status x items') ∧
      skipTo op.stop 0 (items.flatMap Item.render ++ tail) =
        skipTo op.stop 0 (items'.flatMap Item.render ++ tail) := by
  induction items with
  | nil => exact ⟨[], le_rfl, (fun i hi => nomatch hi), hlast, hgood, rfl, id, rfl⟩
  | cons i items ih =>
    by_cases heq : i.op = op
    · have hruns : i.op.runs x.1 = false := heq ▸ hop
      rw [GoodRest, if_neg (by rw [hruns]; exact Bool.false_ne_true)] at hgood
      obtain ⟨hclean, hend, hrest⟩ := hgood
      obtain ⟨items', hlength, hhead, hnil, hgood', hposix, hends, hskip⟩ := ih hrest hend
      refine ⟨items', Nat.le_succ_of_le hlength, hhead, hnil, hgood', ?_, ?_, ?_⟩
      · rw [posixRest, hruns, if_neg Bool.false_ne_true]
        exact hposix
      · rw [EndsSkipped, hruns, if_neg Bool.false_ne_true]
        exact fun h => hends (h.resolve_left (cons_ne_nil _ _))
      · rw [flatMap_cons, append_assoc, ← heq, skip_item hclean, heq]
        exact hskip
    · refine ⟨i :: items, le_rfl, ?_, hlast, hgood, rfl, id, rfl⟩
      intro j hj
      rwa [← Option.some.inj hj]

theorem Op.runs_other {op' : Op} {rc : Nat} (hne : op' ≠ op) (h : op.runs rc = false) :
    op'.runs rc = true := by
  cases op <;> cases op' <;> simp_all [Op.runs]

/-- The shell at the end of a list: the last command of it waits to be run, or the shell has ended. -/
def AtEnd (status : List Event → Nat) (glob : Bytes → Globbed) (tail : Bytes) (isLast skipped : Prop)
    (st : Nat) (y : Pass) (x : Ran) : Prop :=
  (¬skipped ∧ ∃ (ran : List Event) (c : Cmd), x = execute status ran c ∧
      y = run status glob ⟨.whitespace, shell tail [] c.values st ran, none⟩) ∨
    (isLast ∧ y.ending = some (.exit x.1) ∧ y.sh.ran = x.2)

theorem run_rest (htail : Tail tail) (n : Nat) (items : List Item)
    (hn : items.length ≤ n) (c : Cmd) (ran : List Event)
    (hgood : GoodRest status glob tail isLast (execute status ran c) items) :
    AtEnd status glob tail isLast (EndsSkipped status (execute status ran c) items) st
      (between status glob (items.flatMap Item.render ++ tail) c.values st ran)
      (posixRest status (execute status ran c) items) := by
  induction n generalizing items c ran with
  | zero =>
    rw [List.length_eq_zero_iff.mp (Nat.le_zero.mp hn)]
    exact Or.inl ⟨id, ran, c, rfl, rfl⟩
  | succ n ih =>
    cases items with
    | nil => exact Or.inl ⟨id, ran, c, rfl, rfl⟩
    | cons i items =>
      have hlength : items.length ≤ n := Nat.le_of_succ_le_succ hn
      have hblanks : between status glob ((i :: items).flatMap Item.render ++ tail) c.values st ran =
          between status glob (i.op.byte :: i.op.byte ::
            (i.cmd.render ++ (items.flatMap Item.render ++ tail))) c.values st ran := by
        rw [flatMap_cons, Item.render, append_assoc, append_assoc, append_assoc]
        exact run_blanks (shell [] [] c.values st ran) i.lead
      have hstatus : spawned status c.values st ran = execute status ran c := spawned_values c st ran
      rw [hblanks, posixRest, EndsSkipped]
      rw [GoodRest] at hgood
      cases hruns : i.op.runs (execute status ran c).1 with
      | true =>
        rw [hruns, if_pos rfl] at hgood
        rw [run_op_taken (hstatus ▸ hruns), hstatus, if_pos rfl, if_pos rfl,
          run_sound hgood.1 (ended_items items htail)]
        exact ih items hlength i.cmd _ hgood.2
      | false =>
        rw [hruns, if_neg Bool.false_ne_true] at hgood
        obtain ⟨hclean, hend, hrest⟩ := hgood
        obtain ⟨items', hlength', hhead, hnil, hgood', hposix, hends, hskip⟩ :=
          skip_items hruns hrest hend
        have hskipped : skipTo i.op.stop 0 (i.cmd.render ++ (items.flatMap Item.render ++ tail)) =
            skipTo i.op.stop 0 (items'.flatMap Item.render ++ tail) := by
          rw [skip_clean hclean (cmd_last _ _), hskip]
        rw [if_neg Bool.false_ne_true, if_neg Bool.false_ne_true, hposix]
        cases items' with
        | nil =>
          have hexit : ∀ b s, skipTo i.op.stop 0
              (i.cmd.render ++ (items.flatMap Item.render ++ tail)) = b :: s → b = 0x3B ∨ b = 0x0A := by
            intro b s hb
            rw [hskipped] at hb
            exact htail.skipped i.op b s hb
          rw [run_op_exit (hstatus ▸ hruns) hexit, hstatus]
          exact Or.inr ⟨hnil rfl, rfl, rfl⟩
        | cons j items' =>
          have hj : j.op ≠ i.op := hhead j rfl
          have hruns' : j.op.runs (execute status ran c).1 = true := Op.runs_other hj hruns
          rw [GoodRest, hruns', if_pos rfl] at hgood'
          rw [flatMap_cons, append_assoc, skip_other hj] at hskipped
          rw [run_op_skipped (hstatus ▸ hruns) hskipped (cmd_head _ _), hstatus,
            run_sound hgood'.1 (ended_items items' htail), posixRest, hruns', if_pos rfl]
          rw [EndsSkipped, hruns', if_pos rfl] at hends
          have hlist := ih items' (Nat.le_trans (Nat.le_of_succ_le hlength') hlength) j.cmd _ hgood'.2
          exact hlist.imp_left fun h =>
            ⟨fun hskipped => h.1 ((hends hskipped).resolve_left (cons_ne_nil _ _)), h.2⟩

theorem run_list (htail : Tail tail) {l : AndOr} (st : Nat)
    (hgood : GoodList status glob ran tail isLast l) :
    AtEnd status glob tail isLast (EndsSkipped status (execute status ran l.first) l.rest) st
      (between status glob (l.render ++ tail) [] st ran)
      (posixList status ran l) := by
  rw [AndOr.render, append_assoc, run_sound hgood.1 (ended_items _ htail)]
  exact run_rest htail _ l.rest le_rfl l.first ran hgood.2

theorem run_renderEnd (trail : List Bool) (fin : Option (Sep × List Bool)) (c : Cmd) :
    (between status glob (renderEnd trail fin) c.values st ran).ending =
        some (.exit (execute status ran c).1) ∧
      (between status glob (renderEnd trail fin) c.values st ran).sh.ran =
        (execute status ran c).2 := by
  have hend : ∀ (bs : List Bool) args st ran,
      between status glob (blanks bs) args st ran =
        ⟨.whitespace, shell [] [] [] st (spawned status args st ran).2,
          some (.exit (spawned status args st ran).1)⟩ := by
    intro bs args st ran
    rw [← run_end, ← append_nil (blanks bs)]
    exact run_blanks (shell [] [] args st ran) bs
  cases fin with
  | none =>
    rw [renderEnd, hend, spawned_values]
    exact ⟨rfl, rfl⟩
  | some fin =>
    obtain ⟨sep, more⟩ := fin
    have hlead : between status glob (renderEnd trail (some (sep, more))) c.values st ran =
        between status glob (sep.byte :: blanks more) c.values st ran :=
      run_blanks (shell [] [] c.values st ran) trail
    rw [hlead]
    cases sep with
    | semi =>
      rw [Sep.byte, run_semi, spawned_values, hend]
      exact ⟨rfl, rfl⟩
    | newline =>
      rw [Sep.byte, run_newline, hend, spawned_values]
      exact ⟨rfl, rfl⟩

variable {s : Script}

theorem run_lists (st : Nat) (hgood : GoodLists status glob ran s) :
    (between status glob s.render [] st ran).ending =
        some (.exit (posix status ran s).1) ∧
      (between status glob s.render [] st ran).sh.ran =
        (posix status ran s).2 := by
  induction s generalizing ran st with
  | last l trail fin =>
    rcases run_list (tail_renderEnd trail fin) st hgood with ⟨-, ran', c, hx, hy⟩ | ⟨-, hend⟩
    · rw [Script.render, hy, posix, hx]
      exact run_renderEnd trail fin c
    · exact hend
  | cons l lead sep rest ih =>
    obtain ⟨rfl, hlist, hrest⟩ := hgood
    rcases run_list (tail_sep lead .semi rest.render) st hlist with ⟨-, ran', c, hx, hy⟩ | ⟨hlast, -⟩
    · have hlead : between status glob (blanks lead ++ Sep.semi.byte :: rest.render) c.values st ran' =
          between status glob (Sep.semi.byte :: rest.render) c.values st ran' :=
        run_blanks (shell [] [] c.values st ran') lead
      rw [Script.render, hy.trans hlead, Sep.byte, run_semi, spawned_values, posix, hx]
      rw [hx] at hrest
      exact ih _ hrest
    · exact hlast.elim

theorem asPosix_of_good (h : Good status glob s) : AsPosix status glob s := by
  obtain ⟨hlength, hgood⟩ := h
  obtain ⟨hending, hran⟩ := run_lists 0 hgood
  unfold AsPosix mtsh
  rw [if_neg (Nat.not_le.mpr (Nat.lt_of_succ_lt hlength)), if_neg (Nat.not_le.mpr hlength)]
  exact Prod.ext hending hran

end CosmoRuby.Mtsh
