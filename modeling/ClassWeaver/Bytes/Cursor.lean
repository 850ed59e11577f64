import ClassWeaver.Bytes.BigEndian
import ClassWeaver.Fault

/-!
# Reading bytes

A cursor is a place in a byte string. Reading moves it forward, or fails and says at which
place the bytes ran out.
-/

namespace ClassWeaver

/-- A place in some bytes: `rest` is what `data` holds from `position` on. -/
structure Cursor where
  data : List UInt8
  position : Nat
  rest : List UInt8

/-- A computation that reads from a cursor. -/
abbrev Read := StateT Cursor (Except Fault)

namespace Cursor

/-- The start of some bytes. -/
def start (data : List UInt8) : Cursor := ⟨data, 0, data⟩

/-- The number of bytes not read yet. -/
def left (c : Cursor) : Nat := c.rest.length

/-- The bytes end too early for what is read at the cursor. -/
def tooShort (c : Cursor) : Fault :=
  .context ("at position " ++ Text.ofNat c.position ++ ": ") .truncated []

end Cursor

namespace Read

/-- Reads exactly `n` bytes. -/
def bytes (n : Nat) : Read (List UInt8) := fun c =>
  let taken := c.rest.take n
  if taken.length = n then .ok (taken, ⟨c.data, c.position + n, c.rest.drop n⟩)
  else .error c.tooShort

/-- Reads as many bytes as a count says, which must not be negative. -/
def counted (n : Int) : Read (List UInt8) := fun c =>
  if n < 0 then .error c.tooShort else bytes n.toNat c

/-- Reads a number of `width` bytes. -/
def number (width : Nat) : Read Nat := do return ofBigEndian (← bytes width)

def u1 : Read UInt8 := do return (← number 1).toUInt8

def u2 : Read UInt16 := do return (← number 2).toUInt16

def u4 : Read UInt32 := do return (← number 4).toUInt32

def u8 : Read UInt64 := do return (← number 8).toUInt64

def i1 : Read Int8 := do return (← u1).toInt8

def i2 : Read Int16 := do return (← u2).toInt16

def i4 : Read Int32 := do return (← u4).toInt32

/-- Reads a byte; the end of the bytes is a fault of its own. -/
def byte : Read UInt8 := fun c =>
  match c.rest with
  | b :: rest => .ok (b, ⟨c.data, c.position + 1, rest⟩)
  | [] => .error .endOfInput

/-- Moves to a place in the bytes; right behind them is one too. -/
def seek (place : Int) : Read Unit := fun c =>
  if 0 ≤ place && place ≤ c.data.length then
    .ok ((), ⟨c.data, place.toNat, c.data.drop place.toNat⟩)
  else .error c.tooShort

/-- Moves by `n` bytes, backwards if negative. -/
def skip (n : Int) : Read Unit := fun c => seek (c.position + n) c

/-- The cursor itself. -/
def here : Read Cursor := fun c => .ok (c, c)

/-- Puts a text in front of the fault of a reading. -/
def under {α : Type} (text : Text) (r : Read α) : Read α := fun c =>
  match r c with
  | .ok x => .ok x
  | .error f => .error (f.under text)

/-- Reads `count` items in order. -/
def repeated {α : Type} (item : Nat → Read α) (count : Nat) : Read (List α) :=
  go count #[]
where
  /-- Reads the items that are left behind those in `seen`. -/
  go : Nat → Array α → Read (List α)
    | 0, seen => return seen.toList
    | left + 1, seen => do
      let a ← item seen.size
      go left (seen.push a)

/-- Runs a reading on some bytes, of which it need not read all. -/
def run {α : Type} (r : Read α) (data : List UInt8) : Except Fault α :=
  match r (.start data) with
  | .ok (a, _) => .ok a
  | .error f => .error f

end Read

end ClassWeaver
