import ClassWeaver.Terminal.Block
import ClassWeaver.Viewer.Key

/-!
# A pane

A pane shows a part of a text that can be moved up and down. It is moved by the lines of the
text; what is shown of them is then wrapped at the width of the pane and cut to its height.
-/

namespace ClassWeaver

/-- A part of a text that can be moved. -/
structure Pane where
  lines : List Text := []
  width : Nat := 80
  height : Nat := 20
  /-- The number of lines above the part that is shown. -/
  offset : Nat := 0

namespace Pane

/-- The greatest offset. -/
def bottom (p : Pane) : Nat := p.lines.length - p.height

/-- Moves down; a pane at the bottom or behind it stays. -/
def scrollDown (p : Pane) (n : Nat) : Pane :=
  if p.bottom ≤ p.offset then p else { p with offset := Nat.min (p.offset + n) p.bottom }

/-- Moves up; a pane at the top stays. -/
def scrollUp (p : Pane) (n : Nat) : Pane :=
  if p.offset = 0 then p else { p with offset := Nat.min (p.offset - n) p.bottom }

/-- Gives the pane a text; an offset behind its end moves to the bottom. -/
def setText (p : Pane) (t : Text) : Pane :=
  let p := { p with lines := (Terminal.unixLines t).splitAtByte 10 }
  if p.lines.length ≤ p.offset then { p with offset := p.bottom } else p

/-- The reaction to a key. -/
def update (p : Pane) (k : Key) : Pane :=
  if k.isAny ["pgdown", " ", "f"] then p.scrollDown p.height
  else if k.isAny ["pgup", "b"] then p.scrollUp p.height
  else if k.isAny ["d", "ctrl+d"] then p.scrollDown (p.height / 2)
  else if k.isAny ["u", "ctrl+u"] then p.scrollUp (p.height / 2)
  else if k.isAny ["down", "j"] then p.scrollDown 1
  else if k.isAny ["up", "k"] then p.scrollUp 1
  else p

/-- The lines that are shown. -/
def shown (p : Pane) : List Text :=
  Terminal.page p.width p.height (Text.join "\n" ((p.lines.drop p.offset).take p.height))

end Pane

end ClassWeaver
