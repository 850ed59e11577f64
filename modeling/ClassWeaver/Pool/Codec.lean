import ClassWeaver.Bytes.Cursor
import ClassWeaver.Pool.Basic

/-!
# Constant pools in a class file

A pool is written as its count and the entries from index one on, each under its tag. The
entry behind a wide one is not written, and reading leaves it out again.
-/

namespace ClassWeaver

namespace Constant

/-- Reads an entry. -/
def read : Read Constant := do
  let tag ← Read.u1
  if tag = Tag.utf8 then return .utf8 (← Read.bytes (← Read.u2).toNat)
  else if tag = Tag.integer then return .integer (← Read.i4)
  else if tag = Tag.float then return .float (← Read.u4)
  else if tag = Tag.long then return .long (← Read.u8).toInt64
  else if tag = Tag.double then return .double (← Read.u8)
  else if Tag.isSingle tag then return .single tag (← Read.u2)
  else if Tag.isPair tag then return .pair tag (← Read.u2) (← Read.u2)
  else if tag = Tag.methodHandle then return .handle (← Read.u1) (← Read.u2)
  else throw (.note ("unknown constant tag " ++ Text.ofNat tag.toNat))

/-- The bytes of a text entry behind its tag. -/
def textBytes (t : Text) : List UInt8 := bigEndian 2 t.length ++ t

/-- The bytes of an entry with two indices behind its tag. A tag that calls for something
else gets what an entry without it holds. -/
def pairBytes? (tag : UInt8) (first second : UInt16) : Option (List UInt8) :=
  if Tag.isPair tag then some (bigEndian 2 first.toNat ++ bigEndian 2 second.toNat)
  else if tag = Tag.utf8 then some (textBytes [])
  else if tag = Tag.integer || tag = Tag.float then some (bigEndian 4 0)
  else if tag = Tag.long || tag = Tag.double then some (bigEndian 8 0)
  else if Tag.isSingle tag then some (bigEndian 2 first.toNat)
  else if tag = Tag.methodHandle then some (0 :: bigEndian 2 first.toNat)
  else none

/-- The bytes of an entry behind its tag, if there is such a tag. -/
def body? : Constant → Option (List UInt8)
  | unused => none
  | utf8 t => some (textBytes t)
  | integer v => some (bigEndian 4 v.toUInt32.toNat)
  | float bits => some (bigEndian 4 bits.toNat)
  | long v => some (bigEndian 8 v.toUInt64.toNat)
  | double bits => some (bigEndian 8 bits.toNat)
  | single tag i => if Tag.isSingle tag then some (bigEndian 2 i.toNat) else none
  | pair tag i j => pairBytes? tag i j
  | handle kind i => some (kind :: bigEndian 2 i.toNat)

/-- Writes the entry at index `n`. -/
def write (n : Nat) (c : Constant) : Except Fault (List UInt8) :=
  let place : Text := "constant " ++ Text.ofNat n
  if 65535 < c.text.length then .error (.note (place ++ ": utf8 too long"))
  else match c.body? with
    | some body => .ok (c.tag :: body)
    | none => .error (.note (place ++ ": unknown tag " ++ Text.ofNat c.tag.toNat))

end Constant

namespace Pool

/-- Reads entries until the table has `count` of them; `fuel` bounds their number. -/
def readEntries (count : Nat) : (fuel : Nat) → Array Constant → Read (Array Constant)
  | 0, table => return table
  | fuel + 1, table => do
    if count ≤ table.size then return table
    else
      let c ← Constant.read.under ("constant " ++ Text.ofNat table.size)
      let table := table.push c
      readEntries count fuel
        (if c.isWide && table.size < count then table.push .unused else table)

/-- Reads a pool. -/
def read : Read Pool := do
  let count ← Read.u2
  if count = 0 then throw (.note "constant pool count is zero")
  else return ofEntries (← readEntries count.toNat count.toNat #[.unused])

/-- Writes the entries from index `n` on behind the parts in `written`, newest first. The
entry behind a wide one is left out. -/
def writeEntries (written : List (List UInt8)) :
    (n : Nat) → List Constant → Except Fault (List UInt8)
  | _, [] => .ok written.reverse.flatten
  | n, [c] => do
    let bytes ← c.write n
    return (bytes :: written).reverse.flatten
  | n, c :: d :: rest => do
    let bytes ← c.write n
    if c.isWide then writeEntries (bytes :: written) (n + 2) rest
    else writeEntries (bytes :: written) (n + 1) (d :: rest)

/-- Writes a pool. -/
def write (p : Pool) : Except Fault (List UInt8) :=
  if 65535 < p.count then
    .error (.note ("constant pool too large: " ++ Text.ofNat p.count ++ " entries"))
  else do
    let entries ← writeEntries [] 1 (p.entries.toList.drop 1)
    return bigEndian 2 p.count ++ entries

end Pool

end ClassWeaver
