import ClassWeaver.Text.Basic

/-!
# Pens

A sequence of an escape, `[`, numbers and `m` chooses how the following text looks. The pen
keeps what was chosen, so that a line break can put it down and take it up again on the next
line.
-/

namespace ClassWeaver

namespace Terminal

/-- The looks that one number switches on, in the order in which they are switched on again. -/
inductive Look where
  | bold | faint | italic | slowBlink | rapidBlink | reversed | concealed | struck | underlined
  deriving DecidableEq, Repr

namespace Look

/-- All looks. -/
def all : List Look :=
  [bold, faint, italic, slowBlink, rapidBlink, reversed, concealed, struck, underlined]

/-- The number that switches a look on. -/
def number : Look → Nat
  | bold => 1
  | faint => 2
  | italic => 3
  | underlined => 4
  | slowBlink => 5
  | rapidBlink => 6
  | reversed => 7
  | concealed => 8
  | struck => 9

/-- The number that switches a look off. -/
def offNumber : Look → Nat
  | bold | faint => 22
  | italic => 23
  | underlined => 24
  | slowBlink | rapidBlink => 25
  | reversed => 27
  | concealed => 28
  | struck => 29

end Look

/-- How text is shown. -/
structure Pen where
  looks : List Look := []
  /-- The numbers that choose the colour of the text, if one was chosen. -/
  foreground : List Nat := []
  background : List Nat := []
  /-- The colour of the underline. -/
  underline : List Nat := []
  deriving DecidableEq, Repr

namespace Pen

/-- The number of numbers that choose a colour, the first of which says of what. -/
def colourLength : List Nat → Nat
  | _ :: 5 :: _ :: _ => 3
  | _ :: 2 :: _ :: _ :: _ :: _ => 5
  | _ => 0

/-- The pen after one number, with the numbers from it on. -/
def choose (numbers : List Nat) (n : Nat) (p : Pen) : Pen :=
  let colour := numbers.take (colourLength numbers)
  if n = 0 then {}
  else if 30 ≤ n && n ≤ 37 || 90 ≤ n && n ≤ 97 then { p with foreground := [n] }
  else if 40 ≤ n && n ≤ 47 || 100 ≤ n && n ≤ 107 then { p with background := [n] }
  else if n = 38 && !colour.isEmpty then { p with foreground := colour }
  else if n = 48 && !colour.isEmpty then { p with background := colour }
  else if n = 58 && !colour.isEmpty then { p with underline := colour }
  else if n = 39 then { p with foreground := [] }
  else if n = 49 then { p with background := [] }
  else if n = 59 then { p with underline := [] }
  else
    { p with looks := Look.all.filter fun look =>
        look.number = n || (p.looks.contains look && look.offNumber ≠ n) }

/-- The pen after numbers, of which the first `skip` belong to a colour. -/
def chooseAll (p : Pen) : (skip : Nat) → List Nat → Pen
  | _, [] => p
  | skip + 1, _ :: rest => chooseAll p skip rest
  | 0, n :: rest =>
    let colour := if n = 38 || n = 48 || n = 58 then colourLength (n :: rest) - 1 else 0
    chooseAll (p.choose (n :: rest) n) colour rest

/-- The number that digits spell; nothing spells zero. -/
def number? (t : Text) : Option Nat :=
  t.foldlM (fun n b => if 48 ≤ b && b ≤ 57 then some (10 * n + (b.toNat - 48)) else none) 0

/-- The numbers of a sequence that chooses a look. -/
def numbers? (sequence : Text) : Option (List Nat) :=
  let inner? := match sequence with
    | 0x1B :: 0x5B :: t => some t
    | 0x9B :: t => some t
    | _ => none
  match inner?.map List.reverse with
  | some (0x6D :: t) => (Text.splitAtByte 59 t.reverse).mapM number?
  | _ => none

/-- The pen after a sequence. -/
def after (p : Pen) (sequence : Text) : Pen :=
  match numbers? sequence with
  | some numbers => p.chooseAll 0 numbers
  | none => p

/-- Whether nothing was chosen. -/
def isPlain (p : Pen) : Bool := p = {}

/-- Whether a space cannot be seen. -/
def hidesSpaces (p : Pen) : Bool :=
  p.background.isEmpty && !p.looks.contains .reversed && !p.looks.contains .underlined

/-- A sequence of numbers. -/
def sequence (numbers : List Nat) : Text :=
  0x1B :: 0x5B :: (Text.join ";" (numbers.map Text.ofNat) ++ "m")

/-- Takes up the pen. -/
def takeUp (p : Pen) : Text :=
  if p.isPlain then []
  else sequence (p.looks.map Look.number ++ p.foreground ++ p.background ++ p.underline)

/-- Puts down the pen. -/
def putDown (p : Pen) : Text := if p.isPlain then [] else sequence []

end Pen

end Terminal

end ClassWeaver
