import ClassWeaver.Code.Layout

/-!
# Writing code

A listing is written as a code attribute in this order: labels are resolved, the constants of
all instructions are added to the pool, the code is laid out, the bytes of the instructions
are written at their offsets, and the exception, line and local variable entries of the
listing become tables.
-/

namespace ClassWeaver

/-- How a fault of the encoder names an instruction, which may have no listing text. -/
def Insn.encoderText (i : Insn) : Text :=
  match i.text?, i.operand with
  | some t, _ => t
  | none, .lookupSwitch _ _ targets =>
    let n := Text.ofNat targets.length
    "%!s(PANIC=String method: runtime error: index out of range [" ++ n ++ "] with length " ++ n
      ++ ")"
  | none, _ => []

namespace Code

/-! ### Constants of instructions -/

/-- Adds the constant of an instruction to the pool: its index, or zero without one. -/
def addConstant (p : Pool) (i : Insn) : Except Fault (UInt16 × Pool) :=
  match i.operand with
  | .constant v => p.addLoadable v
  | .field owner name desc => .ok (p.addMember Tag.fieldRef owner name desc)
  | .method owner name desc onInterface =>
    let tag := if onInterface || i.opcode = .invokeInterface then Tag.interfaceMethodRef
      else Tag.methodRef
    .ok (p.addMember tag owner name desc)
  | .dynamic name desc bootstrap => .ok (p.addInvokeDynamic bootstrap name desc)
  | .type desc => .ok (p.addClass desc)
  | .multiArray desc _ => .ok (p.addClass desc)
  | _ => .ok (0, p)

/-- Adds the constants of instructions in order, behind the items in `seen` (newest first). -/
def addConstants (seen : List Item) (p : Pool) : List Insn → Except Fault (List Item × Pool)
  | [] => .ok (seen.reverse, p)
  | i :: rest =>
    match addConstant p i with
    | .ok (n, p) => addConstants (⟨i, n, false⟩ :: seen) p rest
    | .error f => .error (f.under i.encoderText)

/-! ### Bytes of instructions -/

/-- The opcode byte. -/
def opcodeByte (op : Opcode) : UInt8 := (op.code % 256).toNat.toUInt8

/-- The compact form of an indexed load or store of one of the first four locals. -/
def compactOpcode (op : Opcode) (index : UInt16) : Opcode :=
  if op.code ≤ 0x19 then ⟨0x1A + (op.code - 0x15) * 4 + index.toNat⟩
  else ⟨0x3B + (op.code - 0x36) * 4 + index.toNat⟩

def u2 (n : UInt16) : List UInt8 := bigEndian 2 n.toNat

def slotBytes (op : Opcode) (index : UInt16) : List UInt8 :=
  if op.isIndexedLocal && index ≤ 3 then [opcodeByte (compactOpcode op index)]
  else if index ≤ 255 then [opcodeByte op, index.toUInt8]
  else opcodeByte .wide :: opcodeByte op :: u2 index

def incrementBytes (index : UInt16) (delta : Int16) : List UInt8 :=
  if isShortIncrement index delta then
    [opcodeByte .iinc, index.toUInt8] ++ signedBigEndian 1 delta.toInt
  else opcodeByte .wide :: opcodeByte .iinc :: u2 index ++ signedBigEndian 2 delta.toInt

def constantBytes (p : Pool) (n : UInt16) : List UInt8 :=
  if p.isWideConstant n then opcodeByte .ldc2W :: u2 n
  else if n ≤ 255 then [opcodeByte .ldc, n.toUInt8]
  else opcodeByte .ldcW :: u2 n

def jumpBytes (x : Item) (delta : Int) : List UInt8 :=
  let op := x.insn.opcode
  if x.isFar then
    opcodeByte (if op = .jsr || op = .jsrW then .jsrW else .gotoW) :: signedBigEndian 4 delta
  else opcodeByte op :: signedBigEndian 2 delta

/-- The opcode of a switch at `pc`, its padding, and its default displacement. -/
def switchHead (y : Layout) (op : Opcode) (pc : Nat) (dflt : Label) : Outcome (List UInt8) := do
  return opcodeByte op :: List.replicate (switchPadding pc) 0
    ++ signedBigEndian 4 (← y.displacement pc dflt)

/-- The displacements of a list of targets, behind those in `seen` (newest first). -/
def targetBytes (y : Layout) (pc : Nat) (seen : List (List UInt8)) :
    List Label → Outcome (List (List UInt8))
  | [] => .ok seen.reverse
  | t :: rest => do
    let delta ← y.displacement pc t
    targetBytes y pc (signedBigEndian 4 delta :: seen) rest

def tableBytes (y : Layout) (op : Opcode) (pc : Nat) (low high : Int32) (dflt : Label)
    (targets : List Label) : Outcome (List UInt8) :=
  if (high - low).toInt + 1 ≠ targets.length then
    Outcome.fail (.note ("tableswitch " ++ Text.ofInt low.toInt ++ ".." ++ Text.ofInt high.toInt
      ++ " has " ++ Text.ofNat targets.length ++ " targets"))
  else do
    let head ← switchHead y op pc dflt
    let deltas ← targetBytes y pc [] targets
    return head ++ signedBigEndian 4 low.toInt ++ signedBigEndian 4 high.toInt ++ deltas.flatten

def lookupBytes (y : Layout) (op : Opcode) (pc : Nat) (dflt : Label) (keys : List Int32)
    (targets : List Label) : Outcome (List UInt8) :=
  if keys.length ≠ targets.length then
    Outcome.fail (.note ("lookupswitch has " ++ Text.ofNat keys.length ++ " keys and "
      ++ Text.ofNat targets.length ++ " targets"))
  else do
    let head ← switchHead y op pc dflt
    let deltas ← targetBytes y pc [] targets
    let cases := (keys.zip deltas).flatMap fun (k, delta) => signedBigEndian 4 k.toInt ++ delta
    return head ++ bigEndian 4 keys.length ++ cases

/-- What an interface call carries behind its constant: the words of its arguments and its
receiver, and a zero. -/
def interfaceTail (desc : Text) : Except Fault (List UInt8) := do
  let t ← Descriptor.parse desc
  return [(t.paramSlots + 1).toUInt8, 0]

/-- The bytes of an item at offset `pc`. -/
def itemBytes (p : Pool) (y : Layout) (x : Item) (pc : Nat) : Outcome (List UInt8) :=
  let op := x.insn.opcode
  if op.isPseudo then .ok []
  else match x.insn.operand with
    | .int v =>
      .ok (opcodeByte op :: signedBigEndian (if op = .sipush then 2 else 1) v.toInt)
    | .slot index => .ok (slotBytes op index)
    | .increment index delta => .ok (incrementBytes index delta)
    | .constant _ => .ok (constantBytes p x.constant)
    | .jump target => do return jumpBytes x (← y.displacement pc target)
    | .tableSwitch low high dflt targets => tableBytes y op pc low high dflt targets
    | .lookupSwitch dflt keys targets => lookupBytes y op pc dflt keys targets
    | .field .. | .type _ => .ok (opcodeByte op :: u2 x.constant)
    | .method _ _ desc _ =>
      let head := opcodeByte op :: u2 x.constant
      if op = .invokeInterface then
        match interfaceTail desc with
        | .ok tail => .ok (head ++ tail)
        | .error f => Outcome.fail f
      else .ok head
    | .dynamic .. => .ok (opcodeByte op :: u2 x.constant ++ [0, 0])
    | .multiArray _ dims => .ok (opcodeByte op :: u2 x.constant ++ [dims])
    | _ =>
      if op.isValid then .ok [opcodeByte op]
      else Outcome.fail (.note ("invalid opcode " ++ Text.ofInt op.code))

/-- The bytes of all items, behind the parts in `seen` (newest first). -/
def codeBytes (p : Pool) (y : Layout) (seen : List (List UInt8)) :
    List (Item × Nat) → Outcome (List UInt8)
  | [] => .ok seen.reverse.flatten
  | (x, pc) :: rest => do
    let bytes ← (itemBytes p y x pc).under x.insn.encoderText
    codeBytes p y (bytes :: seen) rest

/-! ### Tables -/

/-- The low 16 bits of an offset. -/
def offset2 (y : Layout) (l : Label) : Outcome (List UInt8) := do
  return bigEndian 2 (← y.offset l)

/-- Bytes of table entries in order, with the pool after them. -/
def tableEntries (entry : Pool → Operand → Outcome (List UInt8 × Pool)) (p : Pool)
    (seen : List (List UInt8)) : List Insn → Outcome (List UInt8 × Pool)
  | [] => .ok (seen.reverse.flatten, p)
  | i :: rest => do
    let (bytes, p) ← entry p i.operand
    tableEntries entry p (bytes :: seen) rest

/-- The entries of a listing under an opcode, as a table with their number in front. -/
def tableOf (entry : Pool → Operand → Outcome (List UInt8 × Pool)) (p : Pool)
    (entries : List Insn) : Outcome (List UInt8 × Pool) := do
  let (bytes, p) ← tableEntries entry p [] entries
  return (bigEndian 2 entries.length ++ bytes, p)

def handlerEntry (y : Layout) (p : Pool) : Operand → Outcome (List UInt8 × Pool)
  | .tryCatch start stop handler caught => do
    let range := (← offset2 y start) ++ (← offset2 y stop) ++ (← offset2 y handler)
    let (n, p) := if caught.isEmpty then (0, p) else p.addClass caught
    return (range ++ u2 n, p)
  | _ => Outcome.undefined

def lineEntry (y : Layout) (p : Pool) : Operand → Outcome (List UInt8 × Pool)
  | .line number start => do return ((← offset2 y start) ++ u2 number, p)
  | _ => Outcome.undefined

def localEntry (y : Layout) (p : Pool) : Operand → Outcome (List UInt8 × Pool)
  | .localVariable name desc start stop index => do
    let first ← y.offset start
    let last ← y.offset stop
    let (n, p) := p.addText name
    let (d, p) := p.addText desc
    return (bigEndian 2 first ++ signedBigEndian 2 ((last : Int) - first) ++ u2 n ++ u2 d
      ++ u2 index, p)
  | _ => Outcome.undefined

/-- A table as an attribute, unless it has no entries. -/
def tableAttribute (name : Text) (entry : Pool → Operand → Outcome (List UInt8 × Pool))
    (p : Pool) (entries : List Insn) : Outcome (List Attribute × Pool) :=
  if entries.isEmpty then .ok ([], p)
  else do
    let (data, p) ← tableOf entry p entries
    return ([⟨name, data⟩], p)

/-- Writes attributes, whose names go to the pool, behind the parts in `seen` (newest
first). -/
def attributeBytes (p : Pool) (seen : List (List UInt8)) : List Attribute → List UInt8 × Pool
  | [] => (seen.reverse.flatten, p)
  | a :: rest =>
    let (n, p) := p.addText a.name
    attributeBytes p ((u2 n ++ bigEndian 4 a.data.length ++ a.data) :: seen) rest

/-- Writes attributes with their number in front. -/
def writeAttributes (p : Pool) (attributes : List Attribute) : List UInt8 × Pool :=
  let (bytes, p) := attributeBytes p [] attributes
  (bigEndian 2 attributes.length ++ bytes, p)

/-! ### Code attributes -/

/-- Turns faults of reading the pool into outcomes. -/
def lift {α : Type} : Except Fault α → Outcome α
  | .ok a => .ok a
  | .error f => Outcome.fail f

/-- The code attribute of a method with the listing, and the pool with its constants. -/
def write (p : Pool) (m : Method) (l : Listing) : Outcome (List UInt8 × Pool) := do
  l.resolve
  let insns := l.insns
  let (items, p) ← lift (addConstants [] p insns)
  let y ← Layout.settle p l.numLabels items.length items
  if y.size = 0 || 65535 < y.size then
    Outcome.fail (.note ("code length " ++ Text.ofNat y.size ++ " out of range"))
  else
    let code ← codeBytes p y [] y.placed
    let under (op : Opcode) : List Insn := insns.filter fun i => i.opcode = op
    let (handlers, p) ← tableOf (handlerEntry y) p (under .tryCatch)
    let (lines, p) ← tableAttribute Attribute.lineNumbers (lineEntry y) p (under .lineNumber)
    let (locals, p) ←
      tableAttribute Attribute.localVariables (localEntry y) p (under .localVariable)
    let (attributes, p) := writeAttributes p (lines ++ locals ++ m.codeAttributes)
    return (u2 m.maxStack ++ u2 m.maxLocals ++ bigEndian 4 y.size ++ code ++ handlers
      ++ attributes, p)

end Code

end ClassWeaver
