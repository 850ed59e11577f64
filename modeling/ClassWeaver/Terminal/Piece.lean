import ClassWeaver.Terminal.Cluster

/-!
# Pieces of terminal text

A terminal text consists of pieces that stay whole: clusters, control characters and control
sequences. Sequences begin with an escape or with one of the controls that stand for an escape
and a letter; they take no cells.
-/

namespace ClassWeaver

namespace Terminal

/-- A part of a text that is never broken. -/
structure Piece where
  bytes : Text
  /-- The number of cells. -/
  width : Nat
  /-- Whether it is shown at all, be it without a cell of its own. -/
  visible : Bool := true

/-! ### Control sequences -/

/-- Where in a control sequence a code point stands. -/
inductive SequencePhase where
  /-- Behind an escape. -/
  | escape
  /-- In front of the parameters, among them, and behind them. -/
  | marks | parameters | intermediates
  /-- In the text of a sequence that holds one. -/
  | text
  deriving DecidableEq, Repr

/-- What a control sequence holds. -/
inductive Holding where
  | parameters
  /-- Parameters and a text. -/
  | device
  /-- A command and a text, which a bell can end. -/
  | command
  | text
  deriving DecidableEq, Repr

/-- The phase and contents of a sequence that this code begins behind an escape. -/
def introduced? (code : Nat) : Option (SequencePhase × Holding) :=
  if code = 0x5B then some (.marks, .parameters)
  else if code = 0x50 then some (.marks, .device)
  else if code = 0x5D then some (.text, .command)
  else if code = 0x58 || code = 0x5E || code = 0x5F then some (.text, .text)
  else none

/-- The phase of a sequence behind its first control. A stray byte among the controls beyond
ASCII stands for an escape and a letter. -/
def opened? : Scalar → Option (SequencePhase × Holding)
  | .point 0x1B => some (.escape, .parameters)
  | .point _ => none
  | .stray b =>
    if b = 0x9B || b = 0x90 || b = 0x9D || b = 0x98 || b = 0x9E || b = 0x9F then
      introduced? (b.toNat - 0x40)
    else none

/-- What the next code point does to a sequence. -/
inductive Verdict where
  | goesOn (phase : SequencePhase)
  /-- It is the last of the sequence. -/
  | ends
  /-- It is no part of the sequence. -/
  | breaks

/-- What a code point among or behind the parameters does. -/
def closing (holding : Holding) (code : Nat) : Verdict :=
  if 0x20 ≤ code && code ≤ 0x2F then .goesOn .intermediates
  else if 0x40 ≤ code && code ≤ 0x7E then
    if holding = .device then .goesOn .text else .ends
  else .breaks

/-- Whether a code point can be among parameters. -/
def isParameter (code : Nat) : Bool := 0x30 ≤ code && code ≤ 0x3B

/-- What a code point does to a sequence. -/
def judge (phase : SequencePhase) (holding : Holding) (s : Scalar) : Verdict :=
  let code := match s with
    | .point code => code
    | .stray b => b.toNat
  match phase with
  | .escape =>
    if 0x20 ≤ code && code ≤ 0x2F then .goesOn .escape
    else if 0x30 ≤ code && code ≤ 0x7E then .ends
    else .breaks
  | .marks =>
    if 0x3C ≤ code && code ≤ 0x3F then .goesOn .marks
    else if isParameter code then .goesOn .parameters
    else closing holding code
  | .parameters => if isParameter code then .goesOn .parameters else closing holding code
  | .intermediates => closing holding code
  | .text =>
    if code = 0x07 && holding = .command then .ends
    else if code = 0x18 || code = 0x1A then .breaks
    else if s = .stray 0x9C then .ends
    else .goesOn .text

/-- The number of code points in a sequence of which `count` were read. -/
def sequenceLength (phase : SequencePhase) (holding : Holding) (count : Nat) : List Scalar → Nat
  | [] => count
  | s :: rest =>
    if phase = .text && s = .point 0x1B then
      match rest with
      | .point 0x5C :: _ => count + 2
      | _ => count
    else
      match if phase = .escape then introduced? s.code else none with
      | some (phase, holding) => sequenceLength phase holding (count + 1) rest
      | none =>
        match judge phase holding s with
        | .goesOn phase => sequenceLength phase holding (count + 1) rest
        | .ends => count + 1
        | .breaks => count

/-! ### Pieces -/

/-- Whether a byte takes no cell by itself: a control, or one that can only continue a
character. -/
def isBare : Scalar → Bool
  | .point code => code < 0x20 || code = 0x7F
  | .stray b => b < 0xC0

/-- The number of code points in the piece that `s` begins, its cells, and whether it is
visible. -/
def extent (s : Scalar) (rest : List Scalar) : Nat × Nat × Bool :=
  match opened? s with
  | some (phase, holding) => (sequenceLength phase holding 1 rest, 0, false)
  | none =>
    if isBare s then (1, 0, false)
    else if s.code < 0x80 then (1, 1, true)
    else
      let (count, width) := Cluster.measure s rest
      (count, width, true)

/-- The pieces of code points; `fuel` is at least their number. -/
def piecesOf : (fuel : Nat) → List Scalar → List Piece
  | 0, _ => []
  | _, [] => []
  | fuel + 1, s :: rest =>
    let (count, width, visible) := extent s rest
    ⟨s.bytes ++ (rest.take (count - 1)).flatMap Scalar.bytes, width, visible⟩
      :: piecesOf fuel (rest.drop (count - 1))

/-- The pieces of a text. -/
def pieces (t : Text) : List Piece := piecesOf t.length t.scalars

/-- Whether a byte begins no character. It is wrapped as if it took a cell but takes none. -/
def isLost (b : UInt8) : Bool := b = 0xC0 || b = 0xC1 || 0xF5 ≤ b

/-- The cells that a piece takes in a line. -/
def Piece.cells (p : Piece) : Nat :=
  if p.bytes.head?.any isLost then p.width - 1 else p.width

/-- The cells of a line. -/
def width (t : Text) : Nat := (pieces t).foldl (fun n p => n + p.cells) 0

end Terminal

end ClassWeaver
