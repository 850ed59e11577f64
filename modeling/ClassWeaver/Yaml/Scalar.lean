import ClassWeaver.Yaml.Source

/-!
# Scalars of a configuration file

A scalar is written plain, between single quotes or between double quotes, and may run over
several lines. Blanks inside a line belong to it; a line break with the blanks around it is
folded into one space, and further breaks stand for themselves.

The readers go through the characters once. They carry the white space since the last
character of the scalar in a `Gap`, because only what follows decides whether it counts. They
always look one character ahead, so a file that cannot be read on there is refused.
-/

namespace ClassWeaver

namespace Yaml

/-! ### Characters -/

def isBlank (c : Char) : Bool := c = ' ' || c = '\t'

/-- The characters that end a line. -/
def isBreak (c : Char) : Bool :=
  c = '\n' || c = '\r' || c = '\x85' || c = '\u2028' || c = '\u2029'

/-- Whether a token that ends here is followed by white space or nothing. -/
def endsToken : List Char → Bool
  | [] => true
  | c :: _ => isBlank c || isBreak c

/-- The line break that a scalar keeps: the two Unicode separators stay, the others are the
newline. -/
def keptBreak (c : Char) : Char := if c = '\u2028' || c = '\u2029' then c else '\n'

/-- Whether a line that starts here separates documents. -/
def isSeparator (cs : List Char) : Bool :=
  match cs with
  | '-' :: '-' :: '-' :: rest => endsToken rest
  | '.' :: '.' :: '.' :: rest => endsToken rest
  | _ => false

/-- Where a character stands. -/
structure Mark where
  index : Nat := 0
  line : Nat := 0
  column : Nat := 0
  deriving DecidableEq, Repr

namespace Mark

/-- Behind a character. -/
def next (m : Mark) : Mark := { m with index := m.index + 1, column := m.column + 1 }

/-- Behind a line break of so many characters. -/
def newline (m : Mark) (width : Nat) : Mark :=
  { index := m.index + width, line := m.line + 1, column := 0 }

end Mark

/-! ### White space inside a scalar -/

/-- White space since the last character of a scalar. -/
structure Gap where
  /-- Blanks in front of the first line break, newest first. -/
  blanks : List Char := []
  /-- The first line break; an escaped one counts, and is empty. -/
  lead : Option (List Char) := none
  /-- The line breaks behind the first, newest first. -/
  more : List Char := []

namespace Gap

/-- Whether the gap goes on to another line. -/
def hasBreak (g : Gap) : Bool := g.lead.isSome

def addBlank (g : Gap) (c : Char) : Gap :=
  if g.hasBreak then g else { g with blanks := c :: g.blanks }

def addBreak (g : Gap) (c : Char) : Gap :=
  if g.hasBreak then { g with more := keptBreak c :: g.more } else { lead := some [keptBreak c] }

/-- What the gap stands for, newest character first. -/
def folded (g : Gap) : List Char :=
  match g.lead with
  | none => g.blanks
  | some ['\n'] => if g.more.isEmpty then [' '] else g.more
  | some lead => g.more ++ lead

end Gap

/-- A scalar that was read, and where reading goes on. -/
structure Lexeme where
  text : List Char
  mark : Mark
  rest : List Char
  /-- Whether a line break was passed behind the scalar. -/
  brokeLine : Bool := false

/-! ### Plain scalars -/

/-- Whether a plain scalar ends in front of `c`, inside brackets or not. -/
def endsPlain (flow : Bool) (c : Char) (rest : List Char) : Bool :=
  (c = ':' && endsToken rest) || (flow && ",?[]\x7b\x7d".contains c)

/-- Whether a plain scalar ends behind a gap, in front of these characters. -/
def endsBehindGap (mark : Mark) (cs : List Char) : Bool :=
  (mark.column = 0 && isSeparator cs) || cs.head? = some '#'

/-- Reads a plain scalar. Outside brackets its lines must be indented by `indent`. The
characters so far are in `out`, newest first. -/
def plain (flow : Bool) (indent : Int) (mark : Mark) (gap : Gap) (inGap : Bool) (out : List Char) :
    List Char → Option Lexeme
  | [] => some ⟨out.reverse, mark, [], gap.hasBreak⟩
  | '\r' :: '\n' :: rest =>
    plain flow indent (mark.newline 2) (gap.addBreak '\n') true out rest
  | c :: rest =>
    if c = tear then none
    else if isBlank c then
      if gap.hasBreak && mark.column < indent && c = '\t' then none
      else plain flow indent mark.next (gap.addBlank c) true out rest
    else if inGap && !isBreak c && !flow && mark.column < indent then
      some ⟨out.reverse, mark, c :: rest, gap.hasBreak⟩
    else if rest.head? = some tear then none
    else if isBreak c then plain flow indent (mark.newline 1) (gap.addBreak c) true out rest
    else if (inGap && endsBehindGap mark (c :: rest)) || endsPlain flow c rest then
      some ⟨out.reverse, mark, c :: rest, gap.hasBreak⟩
    else plain flow indent mark.next {} false (c :: gap.folded ++ out) rest

/-! ### Quoted scalars -/

/-- Reads a scalar up to its closing single quote; a doubled quote stands for one. -/
def singleQuoted (mark : Mark) (gap : Gap) (out : List Char) : List Char → Option Lexeme
  | [] => none
  | '\x27' :: '\x27' :: rest => singleQuoted mark.next.next {} ('\x27' :: gap.folded ++ out) rest
  | '\r' :: '\n' :: rest => singleQuoted (mark.newline 2) (gap.addBreak '\n') out rest
  | c :: rest =>
    if c = tear || rest.head? = some tear then none
    else if mark.column = 0 && isSeparator (c :: rest) then none
    else if c = '\x27' then some { text := (gap.folded ++ out).reverse, mark := mark.next, rest }
    else if isBlank c then singleQuoted mark.next (gap.addBlank c) out rest
    else if isBreak c then singleQuoted (mark.newline 1) (gap.addBreak c) out rest
    else singleQuoted mark.next {} (c :: gap.folded ++ out) rest

/-- What a backslash and this character stand for. -/
def escaped? : Char → Option Char
  | '0' => some '\x00'
  | 'a' => some '\x07'
  | 'b' => some '\x08'
  | 't' => some '\t'
  | '\t' => some '\t'
  | 'n' => some '\n'
  | 'v' => some '\x0b'
  | 'f' => some '\x0c'
  | 'r' => some '\r'
  | 'e' => some '\x1b'
  | ' ' => some ' '
  | '\x22' => some '\x22'
  | '\x27' => some '\x27'
  | '\x5c' => some '\x5c'
  | 'N' => some '\x85'
  | '_' => some '\u00a0'
  | 'L' => some '\u2028'
  | 'P' => some '\u2029'
  | _ => none

/-- The number of hexadecimal digits behind a backslash and this character. -/
def escapeWidth? : Char → Option Nat
  | 'x' => some 2
  | 'u' => some 4
  | 'U' => some 8
  | _ => none

/-- The value of a hexadecimal digit. -/
def hexValue? (c : Char) : Option Nat :=
  if '0' ≤ c && c ≤ '9' then some (c.toNat - 48)
  else if 'a' ≤ c && c ≤ 'f' then some (c.toNat - 87)
  else if 'A' ≤ c && c ≤ 'F' then some (c.toNat - 55)
  else none

/-- The character with a code, if there is one. -/
def charOf? (code : Nat) : Option Char :=
  if code.isValidChar then some (Char.ofNat code) else none

/-- What the next character of a double-quoted scalar belongs to. -/
inductive Escape where
  | off
  /-- Behind a backslash. -/
  | pending
  /-- A character code with so many digits to come and this value so far. -/
  | code (digits value : Nat)

/-- Reads a scalar up to its closing double quote. -/
def doubleQuoted (mark : Mark) (gap : Gap) (escape : Escape) (out : List Char) :
    List Char → Option Lexeme
  | [] => none
  | '\r' :: '\n' :: rest =>
    match escape with
    | .off => doubleQuoted (mark.newline 2) (gap.addBreak '\n') .off out rest
    | .pending => doubleQuoted (mark.newline 2) { lead := some [] } .off out rest
    | .code .. => none
  | c :: rest =>
    if c = tear || rest.head? = some tear then none
    else match escape with
    | .pending =>
      if isBreak c then doubleQuoted (mark.newline 1) { lead := some [] } .off out rest
      else
        match escaped? c, escapeWidth? c with
        | some d, _ => doubleQuoted mark.next {} .off (d :: out) rest
        | none, some width => doubleQuoted mark.next {} (.code width 0) out rest
        | none, none => none
    | .code digits value =>
      match hexValue? c with
      | none => none
      | some d =>
        let value := value * 16 + d
        if digits ≤ 1 then
          match charOf? value with
          | some ch => doubleQuoted mark.next {} .off (ch :: out) rest
          | none => none
        else doubleQuoted mark.next {} (.code (digits - 1) value) out rest
    | .off =>
      if mark.column = 0 && isSeparator (c :: rest) then none
      else if c = '\x22' then
        some { text := (gap.folded ++ out).reverse, mark := mark.next, rest }
      else if isBlank c then doubleQuoted mark.next (gap.addBlank c) .off out rest
      else if isBreak c then doubleQuoted (mark.newline 1) (gap.addBreak c) .off out rest
      else if c = '\x5c' then doubleQuoted mark.next {} .pending (gap.folded ++ out) rest
      else doubleQuoted mark.next {} .off (c :: gap.folded ++ out) rest

end Yaml

end ClassWeaver
