import Std.Data.HashMap
import ClassWeaver.Fault

/-!
# Constant pools

A constant pool is a table of constants that the rest of a class file refers to by index.
Index zero is not used, and a `long` or `double` takes two indices, of which the second is
not used either. Adding a constant that the pool already holds gives its first index; only
constants that are not numbers are never recognised again.
-/

namespace ClassWeaver

/-! ### Tags -/

namespace Tag

def utf8 : UInt8 := 1
def integer : UInt8 := 3
def float : UInt8 := 4
def long : UInt8 := 5
def double : UInt8 := 6
def classRef : UInt8 := 7
def string : UInt8 := 8
def fieldRef : UInt8 := 9
def methodRef : UInt8 := 10
def interfaceMethodRef : UInt8 := 11
def nameAndType : UInt8 := 12
def methodHandle : UInt8 := 15
def methodType : UInt8 := 16
def dynamic : UInt8 := 17
def invokeDynamic : UInt8 := 18
def module : UInt8 := 19
def package : UInt8 := 20

/-- Whether entries with the tag refer to a field or method. -/
def isMember (tag : UInt8) : Bool :=
  tag = fieldRef || tag = methodRef || tag = interfaceMethodRef

/-- Whether entries with the tag hold one index. -/
def isSingle (tag : UInt8) : Bool :=
  tag = classRef || tag = string || tag = methodType || tag = module || tag = package

/-- Whether entries with the tag hold two indices. -/
def isPair (tag : UInt8) : Bool :=
  isMember tag || tag = nameAndType || tag = dynamic || tag = invokeDynamic

/-- Whether entries with the tag take two indices of the pool. -/
def isWide (tag : UInt8) : Bool := tag = long || tag = double

end Tag

/-! ### Constants -/

/-- An entry of a constant pool. -/
inductive Constant where
  /-- The entry at index zero or behind a wide one. -/
  | unused
  | utf8 (text : Text)
  | integer (value : Int32)
  | float (bits : UInt32)
  | long (value : Int64)
  | double (bits : UInt64)
  /-- An entry with one index, under a tag that says to what. -/
  | single (tag : UInt8) (index : UInt16)
  /-- An entry with two indices, under a tag that says to what. -/
  | pair (tag : UInt8) (first second : UInt16)
  | handle (kind : UInt8) (index : UInt16)
  deriving DecidableEq, Hashable, Repr, Inhabited

namespace Constant

def tag : Constant → UInt8
  | unused => 0
  | utf8 _ => Tag.utf8
  | integer _ => Tag.integer
  | float _ => Tag.float
  | long _ => Tag.long
  | double _ => Tag.double
  | single tag _ => tag
  | pair tag _ _ => tag
  | handle _ _ => Tag.methodHandle

/-- The text of a text entry; empty for any other. -/
def text : Constant → Text
  | utf8 t => t
  | _ => []

/-- The first index of an entry; zero for one without. -/
def first : Constant → UInt16
  | single _ i => i
  | pair _ i _ => i
  | handle _ i => i
  | _ => 0

/-- The second index of an entry; zero for one without. -/
def second : Constant → UInt16
  | pair _ _ i => i
  | _ => 0

/-- Whether the entry takes two indices. -/
def isWide (c : Constant) : Bool := Tag.isWide c.tag

/-- Whether the entry is a floating-point constant that is not a number. -/
def isNaN : Constant → Bool
  | float bits => Decimal.single.isNaN bits.toNat
  | double bits => Decimal.double.isNaN bits.toNat
  | _ => false

end Constant

/-- A constant pool. The index finds the first place of every constant that can be
recognised. -/
structure Pool where
  entries : Array Constant := #[.unused]
  index : Std.HashMap Constant Nat := ∅
  deriving Inhabited

namespace Pool

/-- A pool without constants. -/
def empty : Pool := {}

/-- The first place of each constant of a table that can be recognised. -/
def indexOf (entries : Array Constant) : Std.HashMap Constant Nat :=
  entries.toList.zipIdx.foldl
    (fun index (c, n) => if c.tag = 0 || c.isNaN then index else index.insertIfNew c n) ∅

/-- The pool with a given table. -/
def ofEntries (entries : Array Constant) : Pool := ⟨entries, indexOf entries⟩

/-- One more than the highest index. -/
def count (p : Pool) : Nat := p.entries.size

/-- Whether the table holds an entry with one of the tags. -/
def hasTag (p : Pool) (tags : List UInt8) : Bool := p.entries.any fun c => tags.contains c.tag

/-! ### Looking up -/

def entryText (i : UInt16) : Text := "constant pool index " ++ Text.ofNat i.toNat

def get (p : Pool) (i : UInt16) : Except Fault Constant :=
  match (if i = 0 then none else p.entries[i.toNat]?) with
  | none =>
    .error (.note (entryText i ++ " out of range (count " ++ Text.ofNat p.count ++ ")"))
  | some c =>
    if c.tag = 0 then .error (.note (entryText i ++ " is the upper half of a wide entry"))
    else .ok c

/-- The entry at an index, which must have the tag. -/
def expect (p : Pool) (i : UInt16) (tag : UInt8) : Except Fault Constant := do
  let c ← p.get i
  if c.tag = tag then return c
  else .error (.note (entryText i ++ ": tag " ++ Text.ofNat c.tag.toNat ++ ", want "
    ++ Text.ofNat tag.toNat))

def textAt (p : Pool) (i : UInt16) : Except Fault Text := do
  return (← p.expect i Tag.utf8).text

def className (p : Pool) (i : UInt16) : Except Fault Text := do
  let c ← p.expect i Tag.classRef
  p.textAt c.first

def nameAndType (p : Pool) (i : UInt16) : Except Fault (Text × Text) := do
  let c ← p.expect i Tag.nameAndType
  return (← p.textAt c.first, ← p.textAt c.second)

/-- A reference to a field or method. -/
structure Member where
  owner : Text
  name : Text
  desc : Text
  tag : UInt8

def member (p : Pool) (i : UInt16) : Except Fault Member := do
  let c ← p.get i
  if Tag.isMember c.tag then
    let owner ← p.className c.first
    let (name, desc) ← p.nameAndType c.second
    return ⟨owner, name, desc, c.tag⟩
  else .error (.note (entryText i ++ ": tag " ++ Text.ofNat c.tag.toNat
    ++ " is not a member reference"))

/-- The constant that `ldc` pushes for an index. -/
def loadable (p : Pool) (i : UInt16) : Except Fault Loadable := do
  let c ← p.get i
  match c with
  | .integer v => return .int v
  | .float bits => return .float bits
  | .long v => return .long v
  | .double bits => return .double bits
  | _ =>
    if c.tag = Tag.integer then return .int 0
    else if c.tag = Tag.float then return .float 0
    else if c.tag = Tag.long then return .long 0
    else if c.tag = Tag.double then return .double 0
    else if c.tag = Tag.string then return .string (← p.textAt c.first)
    else if c.tag = Tag.classRef then return .classRef (← p.textAt c.first)
    else if c.tag = Tag.methodType then return .methodType (← p.textAt c.first)
    else if c.tag = Tag.methodHandle || c.tag = Tag.dynamic then return .pooled i
    else .error (.note (entryText i ++ ": tag " ++ Text.ofNat c.tag.toNat ++ " is not loadable"))

/-- Whether the constant at an index is two words wide on the stack. -/
def isWideConstant (p : Pool) (i : UInt16) : Bool :=
  match p.get i with
  | .error _ => false
  | .ok c =>
    if c.isWide then true
    else if c.tag = Tag.dynamic then
      match p.nameAndType c.second with
      | .ok (_, desc) => Descriptor.slotSize desc = 2
      | .error _ => false
    else false

/-! ### Adding -/

/-- The index of a constant, which is added if need be. Indices have 16 bits and start over
when there are more entries. -/
def add (p : Pool) (c : Constant) : UInt16 × Pool :=
  match (if c.isNaN then none else p.index[c]?) with
  | some n => (n.toUInt16, p)
  | none =>
    let n := p.entries.size
    let entries := p.entries.push c
    let entries := if c.isWide then entries.push .unused else entries
    (n.toUInt16, ⟨entries, if c.isNaN then p.index else p.index.insert c n⟩)

def addText (p : Pool) (t : Text) : UInt16 × Pool := p.add (.utf8 t)

def addSingle (p : Pool) (tag : UInt8) (t : Text) : UInt16 × Pool :=
  let (i, p) := p.addText t
  p.add (.single tag i)

def addClass (p : Pool) (name : Text) : UInt16 × Pool := p.addSingle Tag.classRef name

def addString (p : Pool) (t : Text) : UInt16 × Pool := p.addSingle Tag.string t

def addNameAndType (p : Pool) (name desc : Text) : UInt16 × Pool :=
  let (i, p) := p.addText name
  let (j, p) := p.addText desc
  p.add (.pair Tag.nameAndType i j)

def addMember (p : Pool) (tag : UInt8) (owner name desc : Text) : UInt16 × Pool :=
  let (i, p) := p.addClass owner
  let (j, p) := p.addNameAndType name desc
  p.add (.pair tag i j)

def addInvokeDynamic (p : Pool) (bootstrap : UInt16) (name desc : Text) : UInt16 × Pool :=
  let (j, p) := p.addNameAndType name desc
  p.add (.pair Tag.invokeDynamic bootstrap j)

/-- The index of the entry behind an `ldc` constant. -/
def addLoadable (p : Pool) : Loadable → Except Fault (UInt16 × Pool)
  | .int v => .ok (p.add (.integer v))
  | .float bits => .ok (p.add (.float bits))
  | .long v => .ok (p.add (.long v))
  | .double bits => .ok (p.add (.double bits))
  | .string t => .ok (p.addString t)
  | .classRef name => .ok (p.addClass name)
  | .methodType desc => .ok (p.addSingle Tag.methodType desc)
  | .pooled i => do
    let _ ← p.get i
    return (i, p)
  | .truth _ => .error (.note "unsupported ldc constant bool")

end Pool

end ClassWeaver
