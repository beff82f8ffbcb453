import CosmoRuby.Mtsh.Tokenize

/-!
# AND-OR lists

Command lines made of words of letters, digits and quoted text, with `&&`, `||`, `;` and newlines
between the commands: how they are written, with any blanks around words and operators, and what
POSIX says that a shell runs.
-/

namespace CosmoRuby.Mtsh

open Lib

def isAlnum (c : UInt8) : Bool :=
  (0x30 ≤ c && c ≤ 0x39) || (0x41 ≤ c && c ≤ 0x5A) || (0x61 ≤ c && c ≤ 0x7A)

def isQuotable (c : UInt8) : Bool := c = 0x24 || c = 0x60 || c = 0x22 || c = 0x5C

inductive Inner where
  | lit (c : { c : UInt8 // isQuotable c = false ∧ c ≠ 0 })
  | quoted (c : { c : UInt8 // isQuotable c = true })
  /-- A backslash that stands for itself. -/
  | kept (c : { c : UInt8 // isQuotable c = false ∧ c ≠ 0x0A ∧ c ≠ 0 })
  /-- A backslash before a newline, which joins two lines. -/
  | joined

inductive Piece where
  | plain (c : { c : UInt8 // isAlnum c = true })
  | single (text : { text : Bytes // ∀ c ∈ text, c ≠ 0x27 ∧ c ≠ 0 })
  | double (text : List Inner)

structure Word where
  /-- Blanks before the word, a tab where there is `true`. -/
  lead : List Bool
  pieces : List Piece
  nonempty : pieces ≠ []

structure Cmd where
  first : Word
  more : List (Bool × Word)

inductive Op where
  | and
  | or
  deriving DecidableEq, Repr

structure Item where
  lead : List Bool
  op : Op
  cmd : Cmd

structure AndOr where
  first : Cmd
  rest : List Item

inductive Sep where
  | semi
  | newline
  deriving DecidableEq, Repr

inductive Script where
  | last (l : AndOr) (trail : List Bool) (fin : Option (Sep × List Bool))
  | cons (l : AndOr) (lead : List Bool) (sep : Sep) (rest : Script)

/-! ## How it is written -/

def blank (b : Bool) : UInt8 := if b then 0x09 else 0x20

def blanks (bs : List Bool) : Bytes := bs.map blank

def Inner.render : Inner → Bytes
  | .lit c => [c.1]
  | .quoted c => [0x5C, c.1]
  | .kept c => [0x5C, c.1]
  | .joined => [0x5C, 0x0A]

def Piece.render : Piece → Bytes
  | .plain c => [c.1]
  | .single text => 0x27 :: text.1 ++ [0x27]
  | .double text => 0x22 :: text.flatMap Inner.render ++ [0x22]

def Word.text (w : Word) : Bytes := w.pieces.flatMap Piece.render

def Word.render (w : Word) : Bytes := blanks w.lead ++ w.text

def Cmd.render (c : Cmd) : Bytes := c.first.render ++ c.more.flatMap fun w => blank w.1 :: w.2.render

def Op.byte : Op → UInt8
  | .and => 0x26
  | .or => 0x7C

def Item.render (i : Item) : Bytes := blanks i.lead ++ [i.op.byte, i.op.byte] ++ i.cmd.render

def AndOr.render (l : AndOr) : Bytes := l.first.render ++ l.rest.flatMap Item.render

def Sep.byte : Sep → UInt8
  | .semi => 0x3B
  | .newline => 0x0A

def renderEnd (trail : List Bool) : Option (Sep × List Bool) → Bytes
  | none => blanks trail
  | some (sep, more) => blanks trail ++ sep.byte :: blanks more

def Script.render : Script → Bytes
  | .last l trail fin => l.render ++ renderEnd trail fin
  | .cons l lead sep rest => l.render ++ (blanks lead ++ sep.byte :: rest.render)

/-! ## What it means -/

def Inner.value : Inner → Bytes
  | .lit c => [c.1]
  | .quoted c => [c.1]
  | .kept c => [0x5C, c.1]
  | .joined => []

def Piece.value : Piece → Bytes
  | .plain c => [c.1]
  | .single text => text.1
  | .double text => text.flatMap Inner.value

def Word.value (w : Word) : Bytes := w.pieces.flatMap Piece.value

def Cmd.values (c : Cmd) : List Bytes := c.first.value :: c.more.map fun w => w.2.value

abbrev Ran := Nat × List Event

section

variable (status : List Event → Nat)

def execute (ran : List Event) (c : Cmd) : Ran :=
  (status (ran ++ [.spawn c.values]), ran ++ [.spawn c.values])

def Op.runs (op : Op) (rc : Nat) : Bool :=
  match op with
  | .and => rc = 0
  | .or => rc ≠ 0

def posixRest : Ran → List Item → Ran
  | st, [] => st
  | st, i :: rest => posixRest (if i.op.runs st.1 then execute status st.2 i.cmd else st) rest

def posixList (ran : List Event) (l : AndOr) : Ran := posixRest status (execute status ran l.first) l.rest

def posix : List Event → Script → Ran
  | ran, .last l _ _ => posixList status ran l
  | ran, .cons l _ _ rest => posix (posixList status ran l).2 rest

end

def AsPosix (status : List Event → Nat) (glob : Bytes → Globbed) (s : Script) : Prop :=
  mtsh status glob s.render = (some (.exit (posix status [] s).1), (posix status [] s).2)

instance (status : List Event → Nat) (glob : Bytes → Globbed) (s : Script) :
    Decidable (AsPosix status glob s) :=
  inferInstanceAs (Decidable (_ = _))

/-! ## Where the shell does it -/

def Op.stop : Op → UInt8
  | .and => 0x7C
  | .or => 0x26

def clean (stop : UInt8) : Bytes → Bool
  | [] => true
  | c :: rest => c ≠ 0x3B && c ≠ 0x0A && c ≠ 0x28 && !(c = stop && rest.head? = some stop) && clean stop rest

def Passed (glob : Bytes → Globbed) (v : Bytes) : Prop :=
  isRedirect v = false ∧ (glob v = .nomatch ∨ glob v = .paths [v])

def EndsEmpty (next : Bytes) : Prop := ∀ c, next.head? = some c → c = 0x20 ∨ c = 0x09

/-- A command that is run as it is written, before the text `next`. -/
structure Sound (glob : Bytes → Globbed) (c : Cmd) (next : Bytes) : Prop where
  passed : ∀ v ∈ c.values, Passed glob v
  count : c.values.length < maxArgs
  ended : c.values.getLast? ≠ some [] ∨ EndsEmpty next

section

variable (status : List Event → Nat) (glob : Bytes → Globbed)

/-- Every command that is run is sound, one that is skipped is clean, and the last of a list is skipped
only if no list follows. -/
def GoodRest (tail : Bytes) (isLast : Prop) : Ran → List Item → Prop
  | _, [] => True
  | st, i :: rest =>
    if i.op.runs st.1 then
      Sound glob i.cmd (rest.flatMap Item.render ++ tail) ∧
        GoodRest tail isLast (execute status st.2 i.cmd) rest
    else
      clean i.op.stop i.cmd.render = true ∧ (rest = [] → isLast) ∧ GoodRest tail isLast st rest

def GoodList (ran : List Event) (tail : Bytes) (isLast : Prop) (l : AndOr) : Prop :=
  Sound glob l.first (l.rest.flatMap Item.render ++ tail) ∧
    GoodRest status glob tail isLast (execute status ran l.first) l.rest

def GoodLists : List Event → Script → Prop
  | ran, .last l trail fin => GoodList status glob ran (renderEnd trail fin) True l
  | ran, .cons l lead sep rest =>
    sep = .semi ∧ GoodList status glob ran (blanks lead ++ sep.byte :: rest.render) False l ∧
      GoodLists (posixList status ran l).2 rest

def Good (s : Script) : Prop := s.render.length + 1 < argMax ∧ GoodLists status glob [] s

end

end CosmoRuby.Mtsh
