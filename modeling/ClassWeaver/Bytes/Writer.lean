import ClassWeaver.Bytes.BigEndian

/-!
# A patchable byte sequence

A writer collects bytes and can overwrite four of them later. It reserves room ahead of what
is written, and overwriting reaches into the reserved room, where it has no effect.
-/

namespace ClassWeaver

/-- Bytes in the making, with the number of bytes there is room for. -/
structure Writer where
  bytes : List UInt8 := []
  room : Nat := 0

namespace Writer

/-- The room for `size` bytes: at least 64, and twice the room before when that is full. -/
def grow (room size : Nat) : Nat :=
  if size ≤ room then room
  else if room = 0 && size ≤ 64 then 64
  else Nat.max size (2 * room)

/-- Adds bytes at the end. -/
def append (w : Writer) (more : List UInt8) : Writer :=
  let bytes := w.bytes ++ more
  ⟨bytes, grow w.room bytes.length⟩

/-- Overwrites the four bytes from `place` on; `none` when there is no room for them. -/
def patch? (w : Writer) (place : Int) (n : UInt32) : Option Writer :=
  if 0 ≤ place && place + 4 ≤ w.room then
    let before := w.bytes.take place.toNat
    let shown := (bigEndian 4 n.toNat).take (w.bytes.length - place.toNat)
    some { w with bytes := before ++ shown ++ w.bytes.drop (place.toNat + 4) }
  else none

end Writer

end ClassWeaver
