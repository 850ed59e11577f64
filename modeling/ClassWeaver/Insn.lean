import ClassWeaver.Decimal.General
import ClassWeaver.Descriptor

/-!
# Instructions

An instruction pairs an opcode with an operand. The two are independent: nothing forces the
operand to have the shape its opcode calls for, so that a listing can hold what a careless
producer put there. `Insn.WellShaped` singles out the instructions where they fit.
-/

namespace ClassWeaver

/-- A jump target, numbered within its listing. A negative number names no label. Labels are
signed 32-bit numbers; more than `2 ^ 31` of them are out of scope. -/
abbrev Label := Int

/-- The label as it is listed. -/
def Label.text (l : Label) : Text := if l < 0 then "L?" else 76 :: Text.ofNat l.toNat

/-- A constant that `ldc` can push. Floating-point constants are kept by their bits. -/
inductive Loadable where
  | int (value : Int32)
  | long (value : Int64)
  | float (bits : UInt32)
  | double (bits : UInt64)
  | string (text : Text)
  | classRef (name : Text)
  | methodType (desc : Text)
  /-- A method handle or dynamic constant, by its place in the constant pool. -/
  | pooled (index : UInt16)
  /-- A truth value, which no pool entry can hold. -/
  | truth (value : Bool)
  deriving DecidableEq, Repr

namespace Loadable

def text : Loadable → Text
  | int v => Text.ofInt v.toInt
  | long v => Text.ofInt v.toInt ++ [76]
  | float bits => Decimal.text Decimal.single bits.toNat ++ [102]
  | double bits => Decimal.text Decimal.double bits.toNat ++ [100]
  | string t => t.quote
  | classRef name => name ++ ".class"
  | methodType desc => desc
  | pooled index => 35 :: Text.ofNat index.toNat
  | truth b => if b then "true" else "false"

end Loadable

/-- The operand of an instruction or listing entry. -/
inductive Operand where
  | none
  | int (value : Int32)
  | slot (index : UInt16)
  | increment (index : UInt16) (delta : Int16)
  | type (desc : Text)
  | field (owner name desc : Text)
  | method (owner name desc : Text) (onInterface : Bool)
  | dynamic (name desc : Text) (bootstrap : UInt16)
  | jump (target : Label)
  | constant (value : Loadable)
  | tableSwitch (low high : Int32) (dflt : Label) (targets : List Label)
  | lookupSwitch (dflt : Label) (keys : List Int32) (targets : List Label)
  | multiArray (desc : Text) (dims : UInt8)
  | label (label : Label)
  | line (line : UInt16) (start : Label)
  | frame (raw : List UInt8)
  | tryCatch (start stop handler : Label) (caught : Text)
  | localVariable (name desc : Text) (start stop : Label) (index : UInt16)
  deriving DecidableEq, Repr, Inhabited

/-- One instruction, or an entry of a listing that occupies no code bytes. -/
structure Insn where
  opcode : Opcode
  operand : Operand := .none
  deriving DecidableEq, Repr, Inhabited

namespace Operand

/-- The shape of an operand. -/
def shape : Operand → Shape
  | none => .plain
  | int .. => .int
  | slot .. => .slot
  | increment .. => .increment
  | type .. => .type
  | field .. => .field
  | method .. => .method
  | dynamic .. => .dynamic
  | jump .. => .jump
  | constant .. => .constant
  | tableSwitch .. => .tableSwitch
  | lookupSwitch .. => .lookupSwitch
  | multiArray .. => .multiArray
  | label .. => .label
  | line .. => .line
  | frame .. => .frame
  | tryCatch .. => .tryCatch
  | localVariable .. => .localVariable

/-- How a message about a misfit names the operand's type. -/
def typeName : Operand → Text
  | none => "<nil>"
  | int .. => "classfile.IntImm"
  | slot .. => "classfile.VarImm"
  | increment .. => "classfile.IincImm"
  | type .. => "classfile.TypeImm"
  | field .. => "classfile.FieldImm"
  | method .. => "classfile.MethodImm"
  | dynamic .. => "classfile.InvokeDynamicImm"
  | jump .. => "classfile.JumpImm"
  | constant .. => "classfile.LdcImm"
  | tableSwitch .. => "classfile.TableSwitchImm"
  | lookupSwitch .. => "classfile.LookupSwitchImm"
  | multiArray .. => "classfile.MultiANewArrayImm"
  | label .. => "classfile.LabelImm"
  | line .. => "classfile.LineNumberImm"
  | frame .. => "classfile.FrameImm"
  | tryCatch .. => "classfile.TryCatchImm"
  | localVariable .. => "classfile.LocalVariableImm"

/-- The labels an operand refers to; a label entry places its label and refers to none. -/
def labels : Operand → List Label
  | jump target => [target]
  | tableSwitch _ _ dflt targets => dflt :: targets
  | lookupSwitch dflt _ targets => dflt :: targets
  | line _ start => [start]
  | tryCatch start stop handler _ => [start, stop, handler]
  | localVariable _ _ start stop _ => [start, stop]
  | _ => []

/-- Renames every label of an operand, the one that a label entry places included. -/
def mapLabels (f : Label → Label) : Operand → Operand
  | jump target => jump (f target)
  | tableSwitch low high dflt targets => tableSwitch low high (f dflt) (targets.map f)
  | lookupSwitch dflt keys targets => lookupSwitch (f dflt) keys (targets.map f)
  | label l => label (f l)
  | line number start => line number (f start)
  | tryCatch start stop handler caught => tryCatch (f start) (f stop) (f handler) caught
  | localVariable name desc start stop index =>
    localVariable name desc (f start) (f stop) index
  | other => other

end Operand

namespace Insn

/-! ### Building instructions -/

def plain (op : Opcode) : Insn := ⟨op, .none⟩

def load (op : Opcode) (index : UInt16) : Insn := ⟨op, .slot index⟩

def call (op : Opcode) (owner name desc : Text) : Insn := ⟨op, .method owner name desc false⟩

def access (op : Opcode) (owner name desc : Text) : Insn := ⟨op, .field owner name desc⟩

def jump (op : Opcode) (target : Label) : Insn := ⟨op, .jump target⟩

def place (l : Label) : Insn := ⟨.label, .label l⟩

def line (number : UInt16) (start : Label) : Insn := ⟨.lineNumber, .line number start⟩

/-- A table switch over the keys from `low` on, one for each target. -/
def table (low : Int32) (dflt : Label) (targets : List Label) : Insn :=
  ⟨.tableSwitch, .tableSwitch low (low + Int32.ofNat targets.length - 1) dflt targets⟩

/-! ### Reading instructions -/

/-- Whether the operand has the shape the opcode calls for; the compact loads and stores
need none. -/
def WellShaped (i : Insn) : Prop :=
  i.operand.shape = i.opcode.shape
    ∨ (i.operand = .none ∧ (i.opcode.isCompactLoad = true ∨ i.opcode.isCompactStore = true))

/-- Owner, name and descriptor of a field access or call; a dynamic call has no owner. -/
def member? (i : Insn) : Option (Text × Text × Text) :=
  match i.operand with
  | .method owner name desc _ => some (owner, name, desc)
  | .field owner name desc => some (owner, name, desc)
  | .dynamic name desc _ => some ([], name, desc)
  | _ => none

/-- The local an instruction addresses, the implicit local of a compact form included. -/
def slot? (i : Insn) : Option UInt16 :=
  match i.operand with
  | .slot index => some index
  | .increment index _ => some index
  | _ =>
    if i.opcode.isCompactLoad then some ((i.opcode.code - 0x1A).toNat % 4).toUInt16
    else if i.opcode.isCompactStore then some ((i.opcode.code - 0x3B).toNat % 4).toUInt16
    else none

/-- The label that a label entry places. -/
def placed? (i : Insn) : Option Label :=
  match i.operand with
  | .label l => if i.opcode = .label then some l else none
  | _ => none

/-- The labels the instruction refers to. -/
def labels (i : Insn) : List Label := i.operand.labels

/-! ### Listing text -/

/-- The cases of a lookup switch, if there is a target for each of its keys. -/
def casesText? (keys : List Int32) (targets : List Label) : Option (List Text) :=
  if keys.length ≤ targets.length then
    some ((keys.zip targets).map fun (k, t) => Text.ofInt k.toInt ++ ":" ++ Label.text t)
  else none

/-- The instruction as it is listed. A lookup switch with more keys than targets has no
listing text. -/
def text? (i : Insn) : Option Text :=
  let name := i.opcode.name
  match i.operand with
  | .none => some name
  | .label l => some (Label.text l ++ ":")
  | .int v => some (name ++ " " ++ Text.ofInt v.toInt)
  | .slot index => some (name ++ " " ++ Text.ofNat index.toNat)
  | .increment index delta =>
    some ("iinc " ++ Text.ofNat index.toNat ++ " " ++ Text.ofInt delta.toInt)
  | .type desc => some (name ++ " " ++ desc)
  | .field owner member desc => some (name ++ " " ++ owner ++ "." ++ member ++ ":" ++ desc)
  | .method owner member desc _ => some (name ++ " " ++ owner ++ "." ++ member ++ desc)
  | .dynamic member desc bootstrap =>
    some ("invokedynamic #" ++ Text.ofNat bootstrap.toNat ++ ":" ++ member ++ desc)
  | .jump target => some (name ++ " " ++ Label.text target)
  | .constant v => some ("ldc " ++ v.text)
  | .tableSwitch low high dflt targets =>
    some ("tableswitch " ++ Text.ofInt low.toInt ++ ".." ++ Text.ofInt high.toInt ++ " ["
      ++ Text.join " " (targets.map Label.text) ++ "] default " ++ Label.text dflt)
  | .lookupSwitch dflt keys targets =>
    (casesText? keys targets).map fun cases =>
      "lookupswitch [" ++ Text.join " " cases ++ "] default " ++ Label.text dflt
  | .multiArray desc dims => some ("multianewarray " ++ desc ++ " " ++ Text.ofNat dims.toNat)
  | .line number start => some ("line " ++ Text.ofNat number.toNat ++ " " ++ Label.text start)
  | .frame raw => some ("frame (" ++ Text.ofNat raw.length ++ " bytes)")
  | .tryCatch start stop handler caught =>
    some ("trycatch " ++ Label.text start ++ " " ++ Label.text stop ++ " "
      ++ Label.text handler ++ " " ++ (if caught.isEmpty then utf8 "any" else caught))
  | .localVariable member desc start stop index =>
    some ("localvar " ++ Text.ofNat index.toNat ++ " " ++ member ++ " " ++ desc ++ " "
      ++ Label.text start ++ " " ++ Label.text stop)

end Insn

end ClassWeaver
