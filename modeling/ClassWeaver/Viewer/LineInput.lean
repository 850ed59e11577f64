import ClassWeaver.Fault
import ClassWeaver.Terminal.Cluster
import ClassWeaver.Viewer.Key

/-!
# A line of input

A line that is edited with a cursor in it. Forty cells of it are shown: `LineInput.follow`
moves that window when the cursor leaves it. The cursor keys of a terminal and the usual
control keys move it by characters and words and delete on either side of it.
-/

namespace ClassWeaver

/-- A line of input. -/
structure LineInput where
  /-- The character codes in front of the cursor, newest first. -/
  before : List Nat := []
  /-- Those behind the cursor. -/
  after : List Nat := []
  /-- The number of characters in front of the window. -/
  start : Nat := 0
  /-- The number of characters up to its end. -/
  stop : Nat := 0

namespace LineInput

def codes (l : LineInput) : List Nat := l.before.reverse ++ l.after

def text (l : LineInput) : Text := l.codes.flatMap Text.ofCode

def size (l : LineInput) : Nat := l.before.length + l.after.length

/-- The number of characters in front of the cursor. -/
def cursor (l : LineInput) : Nat := l.before.length

/-! ### The window -/

/-- The cells of the window. -/
def windowCells : Nat := 40

/-- The number of characters that a window from here on holds, `count` of them taking `cells`.
The last one may stand out by a cell. -/
def reachForward (count cells : Nat) : List Nat → Nat
  | [] => count
  | c :: rest =>
    let cells := cells + Terminal.inputCells c
    if cells ≤ windowCells then reachForward (count + 1) cells rest
    else if cells ≤ windowCells + 1 then count + 1
    else count

/-- The number of characters that a window up to here holds, the first of the line excepted. -/
def reachBack (count cells : Nat) : List Nat → Nat
  | [] => count
  | [_] => count
  | c :: rest =>
    let cells := cells + Terminal.inputCells c
    if cells < windowCells then reachBack (count + 1) cells rest
    else if cells = windowCells then count + 1
    else count

/-- Moves the window to the cursor. A line that fits is shown whole. -/
def follow (l : LineInput) : LineInput :=
  if Terminal.clusterCells 0 0 (l.codes.map .point) ≤ windowCells then
    { l with start := 0, stop := l.size }
  else
    let stop := Nat.min l.stop l.size
    if l.cursor < l.start then
      { l with start := l.cursor, stop := l.cursor + reachForward 0 0 l.after }
    else if stop ≤ l.cursor then
      { l with start := l.cursor - reachBack 0 0 l.before, stop := l.cursor }
    else { l with stop }

/-- The part of the line in the window. -/
def shown (l : LineInput) : Text :=
  ((l.codes.take l.stop).drop l.start).flatMap Text.ofCode

/-! ### Moving -/

/-- Puts the cursor behind the first `n` characters. -/
def moveTo (n : Nat) (l : LineInput) : LineInput :=
  let codes := l.codes
  { l with before := (codes.take n).reverse, after := codes.drop n }.follow

/-- White space between words. -/
def isSpace (code : Nat) : Bool :=
  (9 ≤ code && code ≤ 13) || code = 32 || code = 0x85 || code = 0xA0 || code = 0x1680
    || (0x2000 ≤ code && code ≤ 0x200A) || code = 0x2028 || code = 0x2029 || code = 0x202F
    || code = 0x205F || code = 0x3000

/-- The number of characters in white space and a word behind it. -/
def wordLength (cs : List Nat) : Nat :=
  let blanks := cs.takeWhile isSpace
  blanks.length + ((cs.drop blanks.length).takeWhile fun c => !isSpace c).length

def moveWordBack (l : LineInput) : LineInput := l.moveTo (l.cursor - wordLength l.before)

def moveWordForward (l : LineInput) : LineInput := l.moveTo (l.cursor + wordLength l.after)

/-! ### Deleting -/

/-- Deletes the character in front of the cursor. -/
def deleteBack (l : LineInput) : LineInput := { l with before := l.before.drop 1 }.follow

/-- Deletes the character behind the cursor. -/
def deleteForward (l : LineInput) : LineInput := { l with after := l.after.drop 1 }.follow

/-- Deletes all in front of the cursor. -/
def deleteToStart (l : LineInput) : LineInput := { l with before := [], start := 0 }.follow

/-- Deletes all behind the cursor. -/
def deleteToEnd (l : LineInput) : LineInput := { l with after := [] }.follow

/-- Deletes the word in front of the cursor with the white space behind it. The cursor looks
at what stands in front of the word, and if that is the first character it goes too. -/
def deleteWordBack (l : LineInput) : LineInput :=
  match l.cursor - 1 - wordLength (l.before.take (l.cursor - 1)) with
  | 0 => { l.moveTo 0 with after := l.after }.follow
  | place + 1 => { (l.moveTo (place + 1)).moveTo (place + 2) with after := l.after }.follow

/-- Deletes a character with the white space and the word behind it; undefined for the last
character. -/
def deleteWordForward (l : LineInput) : Outcome LineInput :=
  match l.after with
  | [] => .ok l
  | [_] => Outcome.undefined
  | _ :: rest =>
    let count := wordLength rest
    .ok { l.moveTo (l.cursor + 1 + count) with before := l.before, after := rest.drop count }.follow

/-! ### Keys -/

/-- What a character code adds to the line: tabs and line ends are spaces, and other control
characters and the replacement character are left out. -/
def accepted (code : Nat) : List Nat :=
  if code = 9 || code = 10 || code = 13 then [32]
  else if code < 32 || (127 ≤ code && code < 160) || code = 0xFFFD then []
  else [code]

/-- Puts a text in front of the cursor. -/
def insert (t : Text) (l : LineInput) : LineInput :=
  { l with before := (t.codes.flatMap accepted).reverse ++ l.before }.follow

/-- The reaction to a key. -/
def update (l : LineInput) (k : Key) : Outcome LineInput :=
  if k.isAny ["alt+backspace", "ctrl+w"] then .ok l.deleteWordBack
  else if k.isAny ["backspace", "ctrl+h"] then .ok l.deleteBack
  else if k.isAny ["alt+left", "ctrl+left", "alt+b"] then .ok l.moveWordBack
  else if k.isAny ["left", "ctrl+b"] then .ok (l.moveTo (l.cursor - 1))
  else if k.isAny ["alt+right", "ctrl+right", "alt+f"] then .ok l.moveWordForward
  else if k.isAny ["right", "ctrl+f"] then .ok (l.moveTo (l.cursor + 1))
  else if k.isAny ["home", "ctrl+a"] then .ok (l.moveTo 0)
  else if k.isAny ["delete", "ctrl+d"] then .ok l.deleteForward
  else if k.isAny ["end", "ctrl+e"] then .ok (l.moveTo l.size)
  else if k.isAny ["ctrl+k"] then .ok l.deleteToEnd
  else if k.isAny ["ctrl+u"] then .ok l.deleteToStart
  else if k.isAny ["alt+delete", "alt+d"] then l.deleteWordForward
  else if k.isAny ["ctrl+v", "ctrl+n", "ctrl+p"] then .ok l
  else .ok (l.insert k.typed)

end LineInput

end ClassWeaver
