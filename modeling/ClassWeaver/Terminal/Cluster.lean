import ClassWeaver.Terminal.Property
import ClassWeaver.Text.Rune

/-!
# Clusters

A reader sees an accent and its letter, the syllable that Hangul letters make up or the two
letters of a flag as one character. Such a cluster is never broken and takes a number of
terminal cells as a whole. `Cluster.joint` says what the character read last can be joined to,
and `Cluster.step` whether the next one joins it.
-/

namespace ClassWeaver

namespace Scalar

/-- The code point, or that of the replacement character for a stray byte. -/
def code : Scalar → Nat
  | point code => code
  | stray _ => 0xFFFD

/-- The bytes that were read. -/
def bytes : Scalar → Text
  | point code => Text.ofCode code
  | stray b => [b]

end Scalar

namespace Terminal

/-- What a code point does to the cluster it stands in. -/
inductive Role where
  | other | carriageReturn | newline | control | prepend | extend | spacing | joiner | flag | picture
  /-- Hangul letters: leading, vowel, trailing; and syllables without and with a trailing one. -/
  | leading | vowel | trailing | openSyllable | closedSyllable
  deriving DecidableEq, Repr

namespace Role

/-- The role of a code point. -/
def ofCode (code : Nat) : Role :=
  if 0x20 ≤ code && code < 0x7F then other
  else if code = 0x0D then carriageReturn
  else if code = 0x0A then newline
  else if code < 0x20 || code = 0x7F then control
  else if code = 0x200D then joiner
  else if 0xAC00 ≤ code && code ≤ 0xD7A3 then
    if (code - 0xAC00) % 28 = 0 then openSyllable else closedSyllable
  else if (0x1100 ≤ code && code ≤ 0x115F) || (0xA960 ≤ code && code ≤ 0xA97C) then leading
  else if (0x1160 ≤ code && code ≤ 0x11A7) || (0xD7B0 ≤ code && code ≤ 0xD7C6) then vowel
  else if (0x11A8 ≤ code && code ≤ 0x11FF) || (0xD7CB ≤ code && code ≤ 0xD7FB) then trailing
  else if 0x1F1E6 ≤ code && code ≤ 0x1F1FF then flag
  else if inRanges extendRanges code then extend
  else if inRanges spacingRanges code then spacing
  else if inRanges pictureRanges code then picture
  else if inRanges prependRanges code then prepend
  else if inRanges controlRanges code then control
  else other

/-- Whether nothing joins the code point but a newline a return. -/
def isControl : Role → Bool
  | carriageReturn | newline | control => true
  | _ => false

end Role

/-- The number of cells of a code point. -/
def cells (code : Nat) (role : Role) : Nat :=
  match role with
  | .carriageReturn | .newline | .control | .extend | .joiner => 0
  | .flag => 2
  | .picture => if inRanges colourfulRanges code then 2 else 1
  | _ =>
    if code = 0x2E3A then 3
    else if code = 0x2E3B then 4
    else if inRanges wideRanges code then 2
    else 1

namespace Cluster

/-- What the code point read last can be joined to. -/
inductive Joint where
  | plain | carriageReturn | control | prepend | leading | vowel | trailing
  | picture
  /-- A picture and a joiner. -/
  | joinedPicture
  /-- The first letter of a flag, and the second. -/
  | halfFlag | wholeFlag
  deriving DecidableEq, Repr

/-- What a code point can be joined to when it begins a cluster, or continues one without a
rule of its own. -/
def joint : Role → Joint
  | .carriageReturn => .carriageReturn
  | .newline | .control => .control
  | .prepend => .prepend
  | .leading => .leading
  | .vowel | .openSyllable => .vowel
  | .trailing | .closedSyllable => .trailing
  | .picture => .picture
  | .flag => .halfFlag
  | .other | .extend | .spacing | .joiner => .plain

/-- Whether a code point with this role follows in the same cluster, and what can be joined
behind it. -/
def step : Joint → Role → Joint × Bool
  | .carriageReturn, .newline => (.control, true)
  | .carriageReturn, r | .control, r => (joint r, false)
  | .prepend, r => (joint r, !r.isControl)
  | .leading, .leading => (.leading, true)
  | .leading, .vowel | .leading, .openSyllable => (.vowel, true)
  | .leading, .closedSyllable => (.trailing, true)
  | .vowel, .vowel => (.vowel, true)
  | .vowel, .trailing | .trailing, .trailing => (.trailing, true)
  | .picture, .extend => (.picture, true)
  | .picture, .joiner => (.joinedPicture, true)
  | .joinedPicture, .picture => (.picture, true)
  | .halfFlag, .flag => (.wholeFlag, true)
  | _, r => (joint r, r = .extend || r = .joiner || r = .spacing)

/-- The cells of a cluster that began with a code point of role `first` and goes on with
another one. Behind a picture a selector chooses between text and emoji. -/
def widen (first : Role) (width code : Nat) (role : Role) : Nat :=
  if first = .picture then
    if code = 0xFE0E then 1 else if code = 0xFE0F then 2 else width
  else if first = .flag || first = .leading then width
  else width + cells code role

/-- The number of further code points in a cluster, and its cells. -/
def extent (first : Role) (j : Joint) (count width : Nat) : List Scalar → Nat × Nat
  | [] => (count, width)
  | s :: rest =>
    let role := Role.ofCode s.code
    match step j role with
    | (j, true) => extent first j (count + 1) (widen first width s.code role) rest
    | (_, false) => (count, width)

/-- The number of code points in the cluster that `s` begins, and its cells. -/
def measure (s : Scalar) (rest : List Scalar) : Nat × Nat :=
  let role := Role.ofCode s.code
  extent role (joint role) 1 (cells s.code role) rest

end Cluster

/-- The cells of code points, cluster by cluster. The first `skip` were counted already. -/
def clusterCells (width : Nat) : (skip : Nat) → List Scalar → Nat
  | _, [] => width
  | skip + 1, _ :: rest => clusterCells width skip rest
  | 0, s :: rest =>
    let (count, w) := Cluster.measure s rest
    clusterCells (width + w) (count - 1) rest

/-- The cells of a code point in a line of input, where every one counts for itself. -/
def inputCells (code : Nat) : Nat :=
  if code < 0x20 || (0x7F ≤ code && code < 0xA0) || code = 0xAD then 0
  else if code < 0x300 then 1
  else if inRanges invisibleRanges code || inRanges combiningRanges code then 0
  else if inRanges wideRanges code || inRanges laterWideRanges code then 2
  else 1

end Terminal

end ClassWeaver
