import Std.Data.HashSet
import ClassWeaver.Bytes.Cursor
import ClassWeaver.ClassFile.Basic
import ClassWeaver.Listing.Canonical

/-!
# Reading code

The instructions of a code attribute are read in two steps. First every operand that is a
place in the code is kept as its byte offset, in the position where a listing has a label.
Then the offsets are numbered, each must be the start of an instruction or the end of the
code, and label entries are put in front of the places they name.

Compact and wide forms are read as the general instruction: `iload_1` as `iload 1`, `ldc_w`
as `ldc`, `goto_w` as `goto`.
-/

namespace ClassWeaver.Code

/-- The bytes between a switch opcode at `pc` and the next multiple of four. -/
def switchPadding (pc : Nat) : Nat := (4 - (pc + 1) % 4) % 4

/-! ### Instructions with offsets -/

/-- Reads what follows a `wide` opcode. -/
def readWide : Read Insn := do
  let inner : Opcode := ⟨(← Read.u1).toNat⟩
  let index ← Read.u2
  if inner = .iinc then return ⟨.iinc, .increment index (← Read.i2)⟩
  else if inner.isIndexedLocal || inner = .ret then return ⟨inner, .slot index⟩
  else throw (.note ("wide cannot modify " ++ inner.name))

/-- Reads a 32-bit displacement from `pc`. -/
def readTarget (pc : Nat) : Read Label := do return pc + (← Read.i4).toInt

def readTableSwitch (pc : Nat) : Read Insn := do
  Read.skip (switchPadding pc)
  let dflt ← readTarget pc
  let low ← Read.i4
  let high ← Read.i4
  if high < low || 65536 ≤ high.toInt - low.toInt then
    throw (.note ("bad tableswitch range " ++ Text.ofInt low.toInt ++ ".."
      ++ Text.ofInt high.toInt))
  else
    let targets ← Read.repeated (fun _ => readTarget pc) (high.toInt - low.toInt + 1).toNat
    return ⟨.tableSwitch, .tableSwitch low high dflt targets⟩

def readLookupSwitch (pc : Nat) : Read Insn := do
  Read.skip (switchPadding pc)
  let dflt ← readTarget pc
  let count ← Read.i4
  if count < 0 || 65536 < count.toInt then
    throw (.note ("bad lookupswitch pair count " ++ Text.ofInt count.toInt))
  else
    let cases ← Read.repeated
      (fun _ => do return (← Read.i4, ← readTarget pc)) count.toInt.toNat
    return ⟨.lookupSwitch, .lookupSwitch dflt (cases.map Prod.fst) (cases.map Prod.snd)⟩

def readCall (p : Pool) (op : Opcode) : Read Insn := do
  let index ← Read.u2
  if op = .invokeInterface then Read.skip 2
  let m ← p.member index
  return ⟨op, .method m.owner m.name m.desc (m.tag = Tag.interfaceMethodRef)⟩

def readDynamicCall (p : Pool) : Read Insn := do
  let index ← Read.u2
  Read.skip 2
  let c ← p.expect index Tag.invokeDynamic
  let (name, desc) ← p.nameAndType c.second
  return ⟨.invokeDynamic, .dynamic name desc c.first⟩

/-- Reads the operands of the instruction at `pc`, whose opcode is read already. -/
def readOperands (p : Pool) (pc : Nat) (op : Opcode) : Read Insn := do
  if !op.isValid then throw (.note ("unknown opcode 0x" ++ Text.hex 2 op.code.toNat))
  else if op = .wide then readWide
  else if op = .bipush then return ⟨op, .int (← Read.i1).toInt32⟩
  else if op = .sipush then return ⟨op, .int (← Read.i2).toInt32⟩
  else if op = .newArray then return ⟨op, .int (Int32.ofNat (← Read.u1).toNat)⟩
  else if op = .ldc then
    let index ← Read.u1
    return ⟨.ldc, .constant (← p.loadable index.toUInt16)⟩
  else if op = .ldcW || op = .ldc2W then
    let index ← Read.u2
    return ⟨.ldc, .constant (← p.loadable index)⟩
  else if op.isIndexedLocal || op = .ret then return ⟨op, .slot (← Read.u1).toUInt16⟩
  else if op.isCompactLoad then
    let n := (op.code - 0x1A).toNat
    return ⟨⟨0x15 + (n / 4 : Nat)⟩, .slot (n % 4).toUInt16⟩
  else if op.isCompactStore then
    let n := (op.code - 0x3B).toNat
    return ⟨⟨0x36 + (n / 4 : Nat)⟩, .slot (n % 4).toUInt16⟩
  else if op = .iinc then
    let index ← Read.u1
    return ⟨.iinc, .increment index.toUInt16 (← Read.i1).toInt16⟩
  else if op = .gotoW then return ⟨.goto, .jump (← readTarget pc)⟩
  else if op = .jsrW then return ⟨.jsr, .jump (← readTarget pc)⟩
  else if op.isJump then return ⟨op, .jump (pc + (← Read.i2).toInt)⟩
  else if op = .tableSwitch then readTableSwitch pc
  else if op = .lookupSwitch then readLookupSwitch pc
  else if op.isFieldAccess then
    let m ← p.member (← Read.u2)
    return ⟨op, .field m.owner m.name m.desc⟩
  else if op.isMemberCall then readCall p op
  else if op = .invokeDynamic then readDynamicCall p
  else if op.takesClass then return ⟨op, .type (← p.className (← Read.u2))⟩
  else if op = .multiNewArray then
    let index ← Read.u2
    let dims ← Read.u1
    return ⟨op, .multiArray (← p.className index) dims⟩
  else return .plain op

/-- Reads an instruction: its offset and itself. -/
def readInsn (p : Pool) : Read (Nat × Insn) := do
  let pc := (← Read.here).position
  let op : Opcode := ⟨(← Read.u1).toNat⟩
  let i ← (readOperands p pc op).under (op.name ++ " at offset " ++ Text.ofNat pc)
  return (pc, i)

/-- Reads instructions to the end of the code. Each takes at least a byte, so the length of
the code is enough fuel. -/
def readInsns (p : Pool) : (fuel : Nat) → Array (Nat × Insn) → Read (List (Nat × Insn))
  | 0, seen => return seen.toList
  | fuel + 1, seen => do
    if (← Read.here).rest.isEmpty then return seen.toList
    else
      let i ← readInsn p
      readInsns p fuel (seen.push i)

/-! ### Tables -/

/-- Reads attributes. -/
def readAttributes (p : Pool) : Read (List Attribute) := do
  let count ← Read.u2
  Read.repeated (fun n => do
    let index ← Read.u2
    let name ← (show Read Text from p.textAt index).under ("attribute " ++ Text.ofNat n)
    let size ← Read.u4
    let data ← (Read.bytes size.toNat).under ("attribute " ++ name)
    return ⟨name, data⟩) count.toNat

/-- Reads an exception entry, number `n` of its table. -/
def readHandler (p : Pool) (n : Nat) : Read Insn := do
  let (start, stop, handler, index) ←
    (do return (← Read.u2, ← Read.u2, ← Read.u2, ← Read.u2) :
      Read (UInt16 × UInt16 × UInt16 × UInt16)).under "exception table"
  let caught ←
    if index = 0 then pure []
    else (show Read Text from p.className index).under ("exception table " ++ Text.ofNat n)
  return ⟨.tryCatch, .tryCatch start.toNat stop.toNat handler.toNat caught⟩

/-- Reads line entries: the offset and the line of each. -/
def readLines : Read (List (Nat × UInt16)) := do
  let count ← Read.u2
  Read.repeated (fun _ => do return ((← Read.u2).toNat, ← Read.u2)) count.toNat

/-- Reads local variable entries. -/
def readLocals (p : Pool) : Read (List Insn) := do
  let count ← Read.u2
  Read.repeated (fun _ => do
    let start ← Read.u2
    let length ← Read.u2
    let nameIndex ← Read.u2
    let descIndex ← Read.u2
    let index ← Read.u2
    let name ← p.textAt nameIndex
    let desc ← p.textAt descIndex
    return ⟨.localVariable, .localVariable name desc start.toNat (start.toNat + length.toNat)
      index⟩) count.toNat

/-- What the attributes of a code attribute hold. -/
structure Tables where
  /-- Line entries by offset. -/
  lines : Array (Nat × UInt16) := #[]
  locals : Array Insn := #[]
  /-- The offsets of all entries, in the order in which they need labels. -/
  offsets : Array Label := #[]
  others : Array Attribute := #[]

/-- Interprets an attribute. -/
def Tables.add (p : Pool) (t : Tables) (a : Attribute) : Except Fault Tables :=
  let read {α : Type} (r : Read α) : Except Fault α := (r.under a.name).run a.data
  if a.name = Attribute.lineNumbers then do
    let lines ← read readLines
    return { t with
      lines := t.lines ++ lines
      offsets := t.offsets ++ (lines.map fun (pc, _) => (pc : Label)) }
  else if a.name = Attribute.localVariables then do
    let locals ← read (readLocals p)
    return { t with
      locals := t.locals ++ locals, offsets := t.offsets ++ locals.flatMap Insn.labels }
  else return { t with others := t.others.push a }

/-! ### Labels in place of offsets -/

/-- The offsets of an instruction in the order in which they need labels: the cases of a
switch come before its default. -/
def offsetsOf (i : Insn) : List Label :=
  match i.operand with
  | .tableSwitch _ _ dflt targets => targets ++ [dflt]
  | .lookupSwitch dflt _ targets => targets ++ [dflt]
  | _ => i.labels

/-- A code attribute with offsets in place of labels. -/
structure Body where
  size : Nat
  insns : List (Nat × Insn)
  handlers : List Insn
  tables : Tables

namespace Body

/-- All offsets that need labels, in order. -/
def offsets (b : Body) : List Label :=
  b.insns.flatMap (fun (_, i) => offsetsOf i) ++ b.handlers.flatMap Insn.labels
    ++ b.tables.offsets.toList

/-- Where instructions start, and where the code ends. -/
def boundaries (b : Body) : Std.HashSet Label :=
  (Std.HashSet.ofList (b.insns.map fun (pc, _) => (pc : Label))).insert b.size

/-- The first offset that is no boundary. -/
def misplaced? (b : Body) : Option Label :=
  let boundaries := b.boundaries
  b.offsets.find? fun pc => !boundaries.contains pc

/-- The lines of each offset in the order of their entries. -/
def linesByOffset (b : Body) : Std.HashMap Nat (List UInt16) :=
  b.tables.lines.foldr
    (fun (pc, line) m => m.insert pc (line :: m.getD pc [])) ∅

/-- The sequence with labels: exception entries, then the instructions with the label and
the line entries of each in front, then local variable entries. -/
def sequence (b : Body) (numbers : Std.HashMap Label Nat) : List Insn :=
  let lines := b.linesByOffset
  let rename (i : Insn) : Insn := ⟨i.opcode, i.operand.mapLabels fun pc => numbers.getD pc 0⟩
  let entries (pc : Nat) : List Insn :=
    match numbers[(pc : Label)]? with
    | some l => .place l :: (lines.getD pc []).map fun line => .line line l
    | none => []
  b.handlers.map rename
    ++ b.insns.flatMap (fun (pc, i) => entries pc ++ [rename i])
    ++ entries b.size
    ++ b.tables.locals.toList.map rename

/-- The listing of the code. -/
def listing (b : Body) : Except Fault Listing :=
  match b.misplaced? with
  | some pc => .error (.note ("offset " ++ Text.ofInt pc ++ " is not an instruction boundary"))
  | none =>
    let numbers := labelNumbers b.offsets
    .ok (Listing.ofInsns numbers.size (b.sequence numbers))

end Body

/-! ### Code attributes -/

/-- Reads a code attribute into a method. Attributes of the code that are not interpreted
join those that the method already has. -/
def readInto (p : Pool) (m : Method) : Read Method := do
  let maxStack ← Read.u2
  let maxLocals ← Read.u2
  let size ← Read.u4
  let code ← (Read.bytes size.toNat).under "code"
  let insns ← (readInsns p (code.length + 1) #[]).run code
  let count ← Read.u2
  let handlers ← Read.repeated (readHandler p) count.toNat
  let attributes ← readAttributes p
  let tables ← (attributes.foldlM (Tables.add p) {} : Except Fault Tables)
  let listing ← Body.listing ⟨code.length, insns, handlers, tables⟩
  return { m with
    maxStack, maxLocals
    code := some listing
    codeAttributes := m.codeAttributes ++ tables.others.toList }

end ClassWeaver.Code
