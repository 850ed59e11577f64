import ClassWeaver.Terminal.Pen
import ClassWeaver.Terminal.Piece

/-!
# Blocks of terminal text

A block is a text of several lines. It is shown without tabs, its lines are filled up to one
width, and it may be wrapped at a number of cells and cut to that width.

Wrapping breaks a line at spaces, which are dropped there, and behind hyphens; a word that is
longer than a line is broken where the line ends. At every line break the pen is put down and
taken up again.
-/

namespace ClassWeaver

namespace Terminal

/-- Replaces each return and newline by the newline. -/
def unixLines : Text → Text
  | 13 :: 10 :: t => 10 :: unixLines t
  | b :: t => b :: unixLines t
  | [] => []

/-- Replaces each tab by four spaces, and each return and newline by the newline. -/
def untabbed (t : Text) : Text :=
  unixLines (t.flatMap fun b => if b = 9 then [32, 32, 32, 32] else [b])

/-- A line with spaces behind it up to `cells`. -/
def padded (cells : Nat) (line : Text) : Text := line ++ List.replicate (cells - width line) 32

/-- A text as a block: without tabs, and all lines as wide as the widest. -/
def block (t : Text) : Text :=
  match (untabbed t).splitAtByte 10 with
  | [line] => line
  | lines =>
    let widest := lines.foldl (fun n l => Nat.max n (width l)) 0
    Text.join "\n" (lines.map (padded widest))

/-! ### Wrapping -/

/-- A text that is being wrapped. What is written stands newest first. -/
structure Wrapper where
  out : List Text := []
  /-- The cells that are written on the line. -/
  column : Nat := 0
  /-- Spaces that count only if a word follows on the line. -/
  spaces : Nat := 0
  /-- The word that is being read. -/
  word : List Text := []
  wordCells : Nat := 0
  /-- The pen behind what was read, and behind what is written. -/
  pen : Pen := {}
  writtenPen : Pen := {}

namespace Wrapper

/-- Writes the spaces. -/
def addSpaces (w : Wrapper) : Wrapper :=
  { w with out := List.replicate w.spaces 32 :: w.out, column := w.column + w.spaces, spaces := 0 }

/-- Writes the word behind the spaces, if there is one. -/
def addWord (w : Wrapper) : Wrapper :=
  if w.word.isEmpty then w
  else
    let w := w.addSpaces
    { w with out := w.word ++ w.out, column := w.column + w.wordCells, word := [], wordCells := 0
             writtenPen := w.pen }

/-- Begins a line; the spaces are dropped. -/
def addBreak (w : Wrapper) : Wrapper :=
  { w with out := (w.writtenPen.putDown ++ 10 :: w.writtenPen.takeUp) :: w.out, column := 0
           spaces := 0 }

/-- Writes what is left of a line of at most `limit` cells. Spaces at its end stay if they
fit. -/
def flush (limit : Nat) (w : Wrapper) : Wrapper :=
  if w.wordCells = 0 then
    if limit < w.column + w.spaces then { w with column := 0, spaces := 0 }.addWord
    else { w with out := List.replicate w.spaces 32 :: w.out, spaces := 0 }.addWord
  else w.addWord

/-- Adds a piece to the word. A word that fills a line by itself is written, and one that does
not fit on the line goes to the next. -/
def extend (limit : Nat) (w : Wrapper) (p : Piece) : Wrapper :=
  let w := if limit < w.wordCells + p.width then w.addWord else w
  let w := { w with word := p.bytes :: w.word, wordCells := w.wordCells + p.width }
  if limit < w.column + w.wordCells + w.spaces then w.addBreak else w

/-- Takes up the next piece. -/
def add (limit : Nat) (w : Wrapper) (p : Piece) : Wrapper :=
  if p.width = 0 then
    if p.bytes = [10] then (w.flush limit).addBreak
    else { w with word := p.bytes :: w.word, pen := w.pen.after p.bytes }
  else if p.bytes = [32] && w.pen.hidesSpaces then
    let w := w.addWord
    { w with spaces := w.spaces + 1 }
  else if p.bytes = [45] then
    let w := w.addSpaces
    if w.column + w.wordCells + 1 ≤ limit then
      let w := w.addWord
      { w with out := p.bytes :: w.out, column := w.column + 1 }
    else w.extend limit p
  else w.extend limit p

end Wrapper

/-- Wraps a text at `limit` cells; at no cells it stays as it is. -/
def wrap (limit : Nat) (t : Text) : Text :=
  if limit = 0 then t
  else
    let w := ((pieces t).foldl (Wrapper.add limit) {}).flush limit
    w.out.reverse.flatten ++ w.writtenPen.putDown

/-! ### Cutting -/

/-- The pieces of a line that fit into `left` cells. Behind the first visible piece that does
not, only those that are not visible stay. -/
def fitting (left : Nat) : List Piece → List Piece
  | [] => []
  | p :: rest =>
    if !p.visible then p :: fitting left rest
    else if left < p.cells then rest.filter fun p => !p.visible
    else p :: fitting (left - p.cells) rest

/-- Cuts a line to `limit` cells; at no cells it stays as it is. -/
def cut (limit : Nat) (line : Text) : Text :=
  if limit = 0 || width line ≤ limit then line
  else (fitting limit (pieces line)).flatMap (·.bytes)

/-- The first `height` lines of a text that is wrapped and cut at `limit` cells, filled up
with empty lines. -/
def page (limit height : Nat) (t : Text) : List Text :=
  let lines := (((wrap limit (untabbed t)).splitAtByte 10).map (cut limit)).take height
  lines ++ List.replicate (height - lines.length) []

end Terminal

end ClassWeaver
