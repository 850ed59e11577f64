import ClassWeaver.Opcode
import ClassWeaver.Text.Quoted

/-!
# Descriptors

A field descriptor is any number of `[` and then a primitive letter, or a class name between
`L` and `;`. A method descriptor lists its parameters in brackets and ends with the returned
type or `V`. The readers here take a descriptor apart from left to right; a failure says what
was expected and, where that is known, at which byte.
-/

namespace ClassWeaver

/-- Why a text is not a descriptor. -/
inductive DescriptorError where
  /-- Too short, or no opening bracket. -/
  | notMethod (desc : Text)
  | missingBracket (desc : Text)
  | trailingData (desc : Text)
  /-- The field descriptor that starts at this byte is cut off, or a class name has a byte
  there that no class name holds. -/
  | invalidAt (desc : Text) (position : Nat)
  | emptyClassName (desc : Text)
  | unterminatedClassName (desc : Text)
  | unexpectedByte (desc : Text) (byte : UInt8) (position : Nat)
  deriving DecidableEq, Repr

namespace DescriptorError

def message : DescriptorError → Text
  | notMethod desc => "invalid method descriptor " ++ desc.quote
  | missingBracket desc => "invalid method descriptor " ++ desc.quote ++ ": missing ')'"
  | trailingData desc => "invalid method descriptor " ++ desc.quote ++ ": trailing data"
  | invalidAt desc position =>
    "invalid descriptor " ++ desc.quote ++ " at " ++ Text.ofNat position
  | emptyClassName desc => "invalid descriptor " ++ desc.quote ++ ": empty class name"
  | unterminatedClassName desc =>
    "invalid descriptor " ++ desc.quote ++ ": unterminated class name"
  | unexpectedByte desc byte position =>
    "invalid descriptor " ++ desc.quote ++ ": unexpected " ++ Text.quoteByte byte ++ " at "
      ++ Text.ofNat position

end DescriptorError

/-- A method descriptor taken apart. -/
structure MethodType where
  params : List Text
  result : Text
  deriving DecidableEq, Repr

namespace Descriptor

/-- The letters of the primitive types. -/
def isPrimitive (b : UInt8) : Bool := (utf8 "BCDFIJSZ").contains b

/-- Reads a class name up to and including its `;`. The text `whole` is quoted on failure;
`position` is the place of `rest` in it and `taken` the name so far, newest byte first. -/
def classTail (whole : Text) (position : Nat) (taken : Text) :
    (rest : Text) → Except DescriptorError (Text × Text)
  | [] => .error (.unterminatedClassName whole)
  | b :: rest =>
    if b = 59 then
      if taken.isEmpty then .error (.emptyClassName whole) else .ok ((b :: taken).reverse, rest)
    else if b = 40 || b = 41 || b = 91 then .error (.invalidAt whole position)
    else classTail whole (position + 1) (b :: taken) rest

/-- Reads one field descriptor from the front of `rest`, which stands at `position` of
`whole`: the descriptor, and what follows it. -/
def takeField (whole : Text) (position : Nat) (rest : Text) :
    Except DescriptorError (Text × Text) :=
  let brackets := rest.takeWhile (· = 91)
  let place := position + brackets.length
  match rest.dropWhile (· = 91) with
  | [] => .error (.invalidAt whole position)
  | b :: tail =>
    if isPrimitive b then .ok (brackets ++ [b], tail)
    else if b = 76 then do
      let (name, after) ← classTail whole (place + 1) [] tail
      return (brackets ++ b :: name, after)
    else .error (.unexpectedByte whole b place)

/-- Reads parameters up to the closing bracket, newest first, and what follows the bracket.
Every parameter takes at least one byte, so the length of `rest` is enough fuel. -/
def takeParams (whole : Text) :
    (fuel : Nat) → (position : Nat) → (taken : List Text) → (rest : Text) →
      Except DescriptorError (List Text × Text)
  | 0, _, _, _ => .error (.missingBracket whole)
  | fuel + 1, position, taken, rest =>
    match rest with
    | [] => .error (.missingBracket whole)
    | b :: tail =>
      if b = 41 then .ok (taken.reverse, tail)
      else do
        let (param, after) ← takeField whole position rest
        takeParams whole fuel (position + param.length) (param :: taken) after

/-- Reads the result type, which must end the descriptor. -/
def takeResult (whole rest : Text) : Except DescriptorError Text :=
  if rest = [86] then .ok rest
  else do
    let (result, after) ← takeField whole (whole.length - rest.length) rest
    if after.isEmpty then return result else .error (.trailingData whole)

/-- Takes a method descriptor apart. -/
def parseMethod (desc : Text) : Except DescriptorError MethodType :=
  match desc with
  | b :: rest =>
    if b = 40 && 3 ≤ desc.length then do
      let (params, after) ← takeParams desc (rest.length + 1) 1 [] rest
      return ⟨params, ← takeResult desc after⟩
    else .error (.notMethod desc)
  | [] => .error (.notMethod desc)

/-- Whether the text is exactly one field descriptor. -/
def isField (desc : Text) : Bool :=
  match takeField desc 0 desc with
  | .ok (_, []) => true
  | _ => false

/-! ### Sizes -/

/-- The local slots a value of the type takes: two for `long` and `double`. -/
def slotSize (desc : Text) : Nat := if desc = [74] || desc = [68] then 2 else 1

/-- Whether the descriptor names an object or array type. -/
def isReference (desc : Text) : Bool :=
  match desc with
  | b :: _ => b = 76 || b = 91
  | [] => false

end Descriptor

namespace MethodType

/-- The local slots of the parameters. -/
def paramSlots (t : MethodType) : Nat :=
  t.params.foldl (fun n d => n + Descriptor.slotSize d) 0

/-- Whether the method returns a value. -/
def returnsValue (t : MethodType) : Bool := t.result ≠ [86]

end MethodType

/-! ### Typed instruction families -/

/-- The five families of typed loads, stores and returns. -/
inductive Family where
  | int | long | float | double | reference
  deriving DecidableEq, Repr

namespace Family

/-- The position of the family inside a group of typed opcodes. -/
def offset : Family → Nat
  | int => 0
  | long => 1
  | float => 2
  | double => 3
  | reference => 4

/-- The family whose position is `n`. -/
def ofOffset : Nat → Family
  | 0 => int
  | 1 => long
  | 2 => float
  | 3 => double
  | _ => reference

/-- The family of a field descriptor, by its first letter; anything unknown is a reference. -/
def ofDescriptor (desc : Text) : Family :=
  match desc with
  | [] => reference
  | b :: _ =>
    if (utf8 "ZBCSI").contains b then int
    else if b = 74 then long
    else if b = 70 then float
    else if b = 68 then double
    else reference

/-- The widest field descriptor of the family. -/
def descriptor : Family → Text
  | int => "I"
  | long => "J"
  | float => "F"
  | double => "D"
  | reference => "Ljava/lang/Object;"

def load (f : Family) : Opcode := ⟨0x15 + f.offset⟩

def store (f : Family) : Opcode := ⟨0x36 + f.offset⟩

end Family

namespace Descriptor

/-- The typed local load of a field descriptor. -/
def loadOpcode (desc : Text) : Opcode := (Family.ofDescriptor desc).load

/-- The typed local store of a field descriptor. -/
def storeOpcode (desc : Text) : Opcode := (Family.ofDescriptor desc).store

/-- The typed return of a result descriptor. -/
def returnOpcode (desc : Text) : Opcode :=
  if desc = [86] then .voidReturn else ⟨0xAC + (Family.ofDescriptor desc).offset⟩

end Descriptor

/-- The family of the local that a typed load or store addresses. -/
def Opcode.family? (op : Opcode) : Option Family :=
  if op.within 0x15 0x19 then some (.ofOffset (op.code - 0x15).toNat)
  else if op.within 0x36 0x3A then some (.ofOffset (op.code - 0x36).toNat)
  else if op.isCompactLoad then some (.ofOffset ((op.code - 0x1A).toNat / 4))
  else if op.isCompactStore then some (.ofOffset ((op.code - 0x3B).toNat / 4))
  else none

/-- The widest descriptor of the local that a typed load or store addresses; empty for every
other opcode. -/
def Opcode.localDescriptor (op : Opcode) : Text :=
  match op.family? with
  | some f => f.descriptor
  | none => []

end ClassWeaver
