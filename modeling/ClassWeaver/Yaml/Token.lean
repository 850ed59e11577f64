import ClassWeaver.Yaml.Scalar

/-!
# Tokens of a configuration file

Indentation and brackets give a document its structure. The scanner turns both into tokens:
a deeper column begins a block and a smaller one ends it. That a scalar or bracket is the key
of a mapping shows only at the colon behind it, so the scanner remembers where the last
possible key began and puts the key token there when it meets the colon. A key must end on the
line on which it began, at most 1024 characters further on.

Tokens are scanned on demand, because what stands behind the document that is read must not
count. `Scanner.peek` scans until it knows two tokens behind the next and until the next one
cannot turn out to be a key any more; a mistake further on is never seen.
-/

namespace ClassWeaver

namespace Yaml

/-- A piece of a document. -/
inductive Token where
  | documentStart
  | documentEnd
  | beginSequence
  | beginMapping
  | endBlock
  | openBracket
  | closeBracket
  | openBrace
  | closeBrace
  | dash
  | comma
  /-- In front of a key. -/
  | key
  /-- In front of the value of a key. -/
  | value
  | scalar (text : List Char) (quoted : Bool)
  | finish
  deriving DecidableEq, Repr

/-- A possible key. -/
structure Candidate where
  /-- Whether nothing else can stand there. -/
  required : Bool
  mark : Mark
  /-- Whether its token is held back until it is clear that no colon follows. -/
  awaited : Bool := true

/-- Where keys can be: outside all brackets, or inside one that is open. -/
structure Level where
  /-- The number of tokens in front of the last possible key; at first, of the bracket. -/
  place : Nat := 0
  key : Option Candidate := none

/-- A document that is being taken apart. -/
structure Scanner where
  rest : List Char
  /-- Lines that begin before this index lose their first character. -/
  veiled : Nat := 0
  /-- The number of characters of the whole file, which bounds the steps of every loop. -/
  size : Nat
  mark : Mark := {}
  /-- The tokens that were scanned and not taken yet. -/
  queue : List Token := []
  /-- The number of tokens that were taken. -/
  taken : Nat := 0
  /-- The number of tokens that were scanned. -/
  scanned : Nat := 0
  /-- The column of the innermost block. -/
  indent : Int := -1
  /-- The columns of the blocks around it. -/
  outer : List Int := []
  keyAllowed : Bool := true
  /-- The open brackets, innermost first, and outside of them all. -/
  levels : List Level := [{}]

namespace Scanner

/-- Starts at the beginning of a file. -/
def start (src : Source) : Scanner :=
  { rest := src.chars, veiled := src.veiled, size := src.chars.length }

/-- Whether a bracket is open. -/
def inFlow (s : Scanner) : Bool :=
  match s.levels with
  | _ :: _ :: _ => true
  | _ => false

/-- The greatest number of open brackets, and of blocks around each other. -/
def maxDepth : Nat := 10000

/-- Adds a token behind the others. -/
def push (t : Token) (s : Scanner) : Scanner :=
  { s with queue := s.queue ++ [t], scanned := s.scanned + 1 }

/-- Adds a token behind the first `place` tokens, or behind all if those were taken already. -/
def insert (place : Nat) (t : Token) (s : Scanner) : Scanner :=
  if place < s.taken then s.push t
  else { s with queue := s.queue.insertIdx (place - s.taken) t, scanned := s.scanned + 1 }

/-- Goes over characters of the line. -/
def skip (s : Scanner) : (count : Nat) → Scanner
  | 0 => s
  | n + 1 => skip { s with rest := s.rest.drop 1, mark := s.mark.next } n

/-! ### Comments -/

/-- Goes to the end of the line. -/
def toBreak (mark : Mark) : List Char → Option (Mark × List Char)
  | [] => some (mark, [])
  | c :: rest =>
    if c = tear then none else if isBreak c then some (mark, c :: rest) else toBreak mark.next rest

/-- Looks for a comment behind blanks and line breaks, among the next `left` characters. -/
def seekComment (mark : Mark) : (left : Nat) → List Char → Option (Option (Mark × List Char))
  | 0, _ => some none
  | _, [] => some none
  | left + 1, '\r' :: '\n' :: rest => seekComment (mark.newline 2) (left - 1) rest
  | left + 1, c :: rest =>
    if c = tear then none
    else if c = '#' then some (some (mark, c :: rest))
    else if isBlank c then seekComment mark.next left rest
    else if c = '\n' || c = '\r' then seekComment (mark.newline 1) left rest
    else some none

/-- How far the scanner looks for a comment. -/
def commentReach : Nat := 512

/-- Passes a comment and those on the lines below it, however they are indented. -/
def passComments : (fuel : Nat) → Mark → List Char → Option (Mark × List Char)
  | 0, mark, cs => some (mark, cs)
  | fuel + 1, mark, cs => do
    let (mark, cs) ← toBreak mark cs
    match ← seekComment mark commentReach cs with
    | some (mark, cs) => passComments fuel mark cs
    | none => return (mark, cs)

/-- Goes over blanks, at most `count`. -/
def passBlanks (mark : Mark) : (count : Nat) → List Char → Mark × List Char
  | 0, cs => (mark, cs)
  | _, [] => (mark, [])
  | n + 1, c :: rest => if isBlank c then passBlanks mark.next n rest else (mark, c :: rest)

/-- Passes a comment on the line of the token that was read last, and no further one. -/
def passLineComment (s : Scanner) : Option Scanner :=
  let (mark, cs) := passBlanks s.mark (commentReach - 1) s.rest
  match cs with
  | c :: _ =>
    if c = tear then none
    else if c = '#' then do
      let (mark, rest) ← toBreak mark cs
      return { s with mark, rest }
    else some s
  | [] => some s

/-! ### White space and blocks -/

/-- Goes over the blanks in front of a token. A tab may not stand where a key can begin. -/
def passIndent (tabs : Bool) (mark : Mark) : List Char → Mark × List Char
  | [] => (mark, [])
  | c :: rest =>
    if c = ' ' || (tabs && c = '\t') then passIndent tabs mark.next rest else (mark, c :: rest)

/-- Goes to the next token: past blanks, comments and line breaks. Outside brackets a key can
begin on every line. -/
def advance : (fuel : Nat) → Scanner → Option Scanner
  | 0, _ => none
  | fuel + 1, s => do
    let s := if s.mark.column = 0 && s.mark.index < s.veiled then s.skip 1 else s
    let (mark, rest) := passIndent (s.inFlow || !s.keyAllowed) s.mark s.rest
    let (mark, rest) ← if rest.head? = some '#' then passComments (s.size + 1) mark rest
      else some (mark, rest)
    let keyAllowed := s.keyAllowed || !s.inFlow
    match rest with
    | [] => return { s with mark, rest }
    | '\r' :: '\n' :: rest => advance fuel { s with mark := mark.newline 2, rest, keyAllowed }
    | c :: rest =>
      if c = tear then none
      else if isBreak c then
        if rest.head? = some tear then none
        else advance fuel { s with mark := mark.newline 1, rest, keyAllowed }
      else return { s with mark, rest := c :: rest }

/-- The number of blocks that end at `column`, and the blocks that are left. -/
def endBlocks (column : Int) (count : Nat) (indent : Int) : List Int → Nat × Int × List Int
  | [] => (count, indent, [])
  | i :: rest =>
    if column < indent then endBlocks column (count + 1) i rest else (count, indent, i :: rest)

/-- Ends the blocks that lie deeper than `column`. -/
def unroll (column : Int) (s : Scanner) : Scanner :=
  if s.inFlow then s
  else
    let (count, indent, outer) := endBlocks column 0 s.indent s.outer
    if count = 0 then s
    else { s with queue := s.queue ++ List.replicate count .endBlock, scanned := s.scanned + count
                  indent, outer }

/-- Begins a block at `column` behind the first `place` tokens, if that lies deeper. -/
def roll (column place : Nat) (t : Token) (s : Scanner) : Option Scanner :=
  if !s.inFlow && s.indent < column then
    let outer := s.indent :: s.outer
    if maxDepth < outer.length then none
    else some { s.insert place t with indent := column, outer }
  else some s

/-! ### Possible keys -/

/-- Gives up the possible key; a required one must not be given up. -/
def dropKey (s : Scanner) : Option Scanner :=
  match s.levels with
  | l :: rest =>
    match l.key with
    | some k => if k.required then none else some { s with levels := { l with key := none } :: rest }
    | none => some s
  | [] => some s

/-- A key may begin here. -/
def noteKey (s : Scanner) : Option Scanner :=
  if s.keyAllowed then do
    let s ← s.dropKey
    let required := !s.inFlow && s.indent = s.mark.column
    return { s with levels := ⟨s.scanned, some { required, mark := s.mark }⟩ :: s.levels.drop 1 }
  else some s

/-- Whether a colon here would be too far off, or on another line. -/
def isPast (s : Scanner) (k : Candidate) : Bool :=
  k.mark.line < s.mark.line || k.mark.index + 1024 < s.mark.index

/-- The key that a colon here would belong to, with its place. If it is too far off there is
none, and if it was required the document is refused. -/
def currentKey (s : Scanner) : Option (Option (Candidate × Nat)) :=
  match s.levels with
  | l :: _ =>
    match l.key with
    | some k =>
      if s.isPast k then if k.required then none else some none else some (some (k, l.place))
    | none => some none
  | [] => some none

/-- The possible key behind the first `place` tokens that is awaited. The places of the levels
descend from the innermost one. -/
def awaitedKey? (place : Nat) : List Level → Option Candidate
  | [] => none
  | l :: rest =>
    if l.place < place then none
    else
      match l.key with
      | some k => if l.place = place && k.awaited then some k else awaitedKey? place rest
      | none => awaitedKey? place rest

/-! ### Tokens -/

/-- The end of the input, which counts as a new line. -/
def finish (s : Scanner) : Option Scanner := do
  let mark := if s.mark.column = 0 then s.mark
    else { s.mark with line := s.mark.line + 1, column := 0 }
  let s ← ({ s with mark }.unroll (-1)).dropKey
  return { s with keyAllowed := false }.push .finish

/-- A line that separates documents. -/
def separator (t : Token) (s : Scanner) : Option Scanner := do
  let s ← (s.unroll (-1)).dropKey
  return ({ s with keyAllowed := false }.skip 3).push t

/-- An opening bracket. -/
def openFlow (t : Token) (s : Scanner) : Option Scanner := do
  let s ← s.noteKey
  let levels := ⟨s.scanned, none⟩ :: s.levels
  if maxDepth < levels.length - 1 then none
  else return ({ s with levels, keyAllowed := true }.push t).skip 1

/-- The levels around a bracket that is closed. A bracket in which no key could begin is not
awaited as a key itself. -/
def closeLevel : List Level → List Level
  | inner :: l :: rest =>
    if inner.place = l.place then
      { l with key := l.key.map fun k => { k with awaited := false } } :: rest
    else l :: rest
  | levels => levels

/-- A closing bracket. -/
def closeFlow (t : Token) (s : Scanner) : Option Scanner := do
  let s ← s.dropKey
  return ({ s with levels := closeLevel s.levels, keyAllowed := false }.push t).skip 1

/-- A comma between brackets. -/
def comma (s : Scanner) : Option Scanner := do
  let s ← s.dropKey
  return ({ s with keyAllowed := true }.push .comma).skip 1

/-- Begins a block for an entry here. Outside brackets one can begin only where a key can. -/
def beginBlock (t : Token) (s : Scanner) : Option Scanner :=
  if s.inFlow then some s
  else if s.keyAllowed then s.roll s.mark.column s.scanned t
  else none

/-- The dash of a sequence entry. -/
def dash (s : Scanner) : Option Scanner := do
  let s ← (← s.beginBlock .beginSequence).dropKey
  return ({ s with keyAllowed := true }.push .dash).skip 1

/-- A question mark in front of a key. -/
def question (s : Scanner) : Option Scanner := do
  let s ← (← s.beginBlock .beginMapping).dropKey
  return ({ s with keyAllowed := !s.inFlow }.push .key).skip 1

/-- The levels without the possible key. -/
def withoutKey : List Level → List Level
  | l :: rest => { l with key := none } :: rest
  | [] => []

/-- A colon in front of a value. -/
def colon (s : Scanner) : Option Scanner := do
  match ← s.currentKey with
  | some (k, place) =>
    let s ← (s.insert place .key).roll k.mark.column place .beginMapping
    return ({ s with levels := withoutKey s.levels, keyAllowed := false }.push .value).skip 1
  | none =>
    let s ← s.beginBlock .beginMapping
    return ({ s with levels := withoutKey s.levels, keyAllowed := !s.inFlow }.push .value).skip 1

/-- Takes up a scalar, and the comment behind it if both are on one line. -/
def takeScalar (quoted : Bool) (s : Scanner) (x : Lexeme) : Option Scanner :=
  let s := { s with mark := x.mark, rest := x.rest, keyAllowed := x.brokeLine }.push
    (.scalar x.text quoted)
  if x.brokeLine then some s else s.passLineComment

/-- A scalar whose first character is `c`. -/
def scalar (c : Char) (rest : List Char) (s : Scanner) : Option Scanner := do
  let s ← s.noteKey
  if c = '\x27' then s.takeScalar true (← singleQuoted s.mark.next {} [] rest)
  else if c = '\x22' then s.takeScalar true (← doubleQuoted s.mark.next {} .off [] rest)
  else s.takeScalar false (← plain s.inFlow (s.indent + 1) s.mark {} false [] (c :: rest))

/-- Whether a scalar begins with `c`. -/
def beginsScalar (flow : Bool) (c : Char) (rest : List Char) : Bool :=
  !("-?:,[]\x7b\x7d#&*!|>%@\x60".contains c || isBlank c)
    || (c = '-' && !endsToken rest)
    || (!flow && (c = '?' || c = ':') && !endsToken rest)

/-- Reads one token, with the tokens for the blocks that begin or end there. -/
def step (s : Scanner) : Option Scanner := do
  let s ← s.advance (s.size + 1)
  let s := s.unroll s.mark.column
  if tornWithin 4 s.rest then none
  else
    match s.rest with
    | [] => s.finish
    | c :: rest =>
      let apart := s.inFlow || endsToken rest
      if s.mark.column = 0 && c = '%' then none
      else if s.mark.column = 0 && isSeparator s.rest then
        s.separator (if c = '-' then .documentStart else .documentEnd)
      else if c = '[' then (← s.openFlow .openBracket).passLineComment
      else if c = '\x7b' then (← s.openFlow .openBrace).passLineComment
      else if c = ']' then (← s.closeFlow .closeBracket).passLineComment
      else if c = '\x7d' then (← s.closeFlow .closeBrace).passLineComment
      else if c = ',' then (← s.comma).passLineComment
      else if c = '-' && endsToken rest then s.dash
      else if c = '?' && apart then (← s.question).passLineComment
      else if c = ':' && apart then (← s.colon).passLineComment
      else if beginsScalar s.inFlow c rest then s.scalar c rest
      else none

/-! ### Scanning on demand -/

/-- Whether the next token can be taken. A required key without a colon is refused. -/
def isReady (s : Scanner) : Option Bool :=
  match s.queue with
  | _ :: _ :: _ :: _ =>
    match awaitedKey? s.taken s.levels with
    | some k => if s.isPast k then if k.required then none else some true else some false
    | none => some true
  | _ => some false

/-- Scans until the next token can be taken. -/
def fetch : (fuel : Nat) → Scanner → Option Scanner
  | 0, _ => none
  | fuel + 1, s => do
    if ← s.isReady then return s
    else fetch fuel (← s.step)

/-- The next token. It is not taken; the scanner is the one that knows it. Every step but the
last few takes a character, so their number is enough fuel. -/
def peek (s : Scanner) : Option (Token × Scanner) := do
  let s ← s.fetch (s.size + 4)
  match s.queue with
  | t :: _ => return (t, s)
  | [] => none

/-- Takes the next token off. -/
def drop (s : Scanner) : Scanner := { s with queue := s.queue.drop 1, taken := s.taken + 1 }

end Scanner

end Yaml

end ClassWeaver
