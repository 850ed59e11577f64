import ClassWeaver.Text.Basic

/-!
# Opcodes

An opcode is a number. The codes `0` to `201` are the instructions of the virtual machine;
negative codes mark the entries of a listing that occupy no code bytes (labels, line entries,
frames, exception entries and local variable entries). Any other number can stand in a
listing too, and the encoder and the stack oracle reject it.
-/

namespace ClassWeaver

/-- An instruction or pseudo-instruction code. -/
structure Opcode where
  code : Int
  deriving DecidableEq, Repr, Inhabited

namespace Opcode

/-- The mnemonics of the codes from `0` on. -/
def mnemonics : Array String := #[
  "nop", "aconst_null", "iconst_m1", "iconst_0", "iconst_1", "iconst_2", "iconst_3", "iconst_4",
  "iconst_5", "lconst_0", "lconst_1", "fconst_0", "fconst_1", "fconst_2", "dconst_0", "dconst_1",
  "bipush", "sipush", "ldc", "ldc_w", "ldc2_w", "iload", "lload", "fload", "dload", "aload",
  "iload_0", "iload_1", "iload_2", "iload_3", "lload_0", "lload_1", "lload_2", "lload_3",
  "fload_0", "fload_1", "fload_2", "fload_3", "dload_0", "dload_1", "dload_2", "dload_3",
  "aload_0", "aload_1", "aload_2", "aload_3", "iaload", "laload", "faload", "daload", "aaload",
  "baload", "caload", "saload", "istore", "lstore", "fstore", "dstore", "astore", "istore_0",
  "istore_1", "istore_2", "istore_3", "lstore_0", "lstore_1", "lstore_2", "lstore_3", "fstore_0",
  "fstore_1", "fstore_2", "fstore_3", "dstore_0", "dstore_1", "dstore_2", "dstore_3", "astore_0",
  "astore_1", "astore_2", "astore_3", "iastore", "lastore", "fastore", "dastore", "aastore",
  "bastore", "castore", "sastore", "pop", "pop2", "dup", "dup_x1", "dup_x2", "dup2", "dup2_x1",
  "dup2_x2", "swap", "iadd", "ladd", "fadd", "dadd", "isub", "lsub", "fsub", "dsub", "imul",
  "lmul", "fmul", "dmul", "idiv", "ldiv", "fdiv", "ddiv", "irem", "lrem", "frem", "drem", "ineg",
  "lneg", "fneg", "dneg", "ishl", "lshl", "ishr", "lshr", "iushr", "lushr", "iand", "land", "ior",
  "lor", "ixor", "lxor", "iinc", "i2l", "i2f", "i2d", "l2i", "l2f", "l2d", "f2i", "f2l", "f2d",
  "d2i", "d2l", "d2f", "i2b", "i2c", "i2s", "lcmp", "fcmpl", "fcmpg", "dcmpl", "dcmpg", "ifeq",
  "ifne", "iflt", "ifge", "ifgt", "ifle", "if_icmpeq", "if_icmpne", "if_icmplt", "if_icmpge",
  "if_icmpgt", "if_icmple", "if_acmpeq", "if_acmpne", "goto", "jsr", "ret", "tableswitch",
  "lookupswitch", "ireturn", "lreturn", "freturn", "dreturn", "areturn", "return", "getstatic",
  "putstatic", "getfield", "putfield", "invokevirtual", "invokespecial", "invokestatic",
  "invokeinterface", "invokedynamic", "new", "newarray", "anewarray", "arraylength", "athrow",
  "checkcast", "instanceof", "monitorenter", "monitorexit", "wide", "multianewarray", "ifnull",
  "ifnonnull", "goto_w", "jsr_w"]

/-- The mnemonic; a number without one is shown in brackets. -/
def name (op : Opcode) : Text :=
  match op.code with
  | .ofNat n => match mnemonics[n]? with
    | some m => m
    | none => "op(" ++ Text.ofNat n ++ ")"
  | -1 => "label"
  | -2 => "line"
  | -3 => "frame"
  | -4 => "trycatch"
  | -5 => "localvar"
  | n => "op(" ++ Text.ofInt n ++ ")"

/-! ### Codes with a name of their own -/

def label : Opcode := ⟨-1⟩
def lineNumber : Opcode := ⟨-2⟩
def frame : Opcode := ⟨-3⟩
def tryCatch : Opcode := ⟨-4⟩
def localVariable : Opcode := ⟨-5⟩
def nop : Opcode := ⟨0x00⟩
def aconstNull : Opcode := ⟨0x01⟩
def iconst0 : Opcode := ⟨0x03⟩
def iconst1 : Opcode := ⟨0x04⟩
def lconst0 : Opcode := ⟨0x09⟩
def fconst0 : Opcode := ⟨0x0B⟩
def dconst0 : Opcode := ⟨0x0E⟩
def bipush : Opcode := ⟨0x10⟩
def sipush : Opcode := ⟨0x11⟩
def ldc : Opcode := ⟨0x12⟩
def ldcW : Opcode := ⟨0x13⟩
def ldc2W : Opcode := ⟨0x14⟩
def iload : Opcode := ⟨0x15⟩
def lload : Opcode := ⟨0x16⟩
def fload : Opcode := ⟨0x17⟩
def dload : Opcode := ⟨0x18⟩
def aload : Opcode := ⟨0x19⟩
def baload : Opcode := ⟨0x33⟩
def istore : Opcode := ⟨0x36⟩
def astore : Opcode := ⟨0x3A⟩
def iastore : Opcode := ⟨0x4F⟩
def bastore : Opcode := ⟨0x54⟩
def pop : Opcode := ⟨0x57⟩
def dupX1 : Opcode := ⟨0x5A⟩
def dupX2 : Opcode := ⟨0x5B⟩
def swap : Opcode := ⟨0x5F⟩
def iinc : Opcode := ⟨0x84⟩
def ifAcmpNe : Opcode := ⟨0xA6⟩
def goto : Opcode := ⟨0xA7⟩
def jsr : Opcode := ⟨0xA8⟩
def ret : Opcode := ⟨0xA9⟩
def tableSwitch : Opcode := ⟨0xAA⟩
def lookupSwitch : Opcode := ⟨0xAB⟩
def ireturn : Opcode := ⟨0xAC⟩
def voidReturn : Opcode := ⟨0xB1⟩
def getStatic : Opcode := ⟨0xB2⟩
def getField : Opcode := ⟨0xB4⟩
def putField : Opcode := ⟨0xB5⟩
def invokeVirtual : Opcode := ⟨0xB6⟩
def invokeSpecial : Opcode := ⟨0xB7⟩
def invokeStatic : Opcode := ⟨0xB8⟩
def invokeInterface : Opcode := ⟨0xB9⟩
def invokeDynamic : Opcode := ⟨0xBA⟩
def newObject : Opcode := ⟨0xBB⟩
def newArray : Opcode := ⟨0xBC⟩
def newRefArray : Opcode := ⟨0xBD⟩
def athrow : Opcode := ⟨0xBF⟩
def checkCast : Opcode := ⟨0xC0⟩
def instanceOf : Opcode := ⟨0xC1⟩
def monitorEnter : Opcode := ⟨0xC2⟩
def monitorExit : Opcode := ⟨0xC3⟩
def wide : Opcode := ⟨0xC4⟩
def multiNewArray : Opcode := ⟨0xC5⟩
def ifNull : Opcode := ⟨0xC6⟩
def ifNonNull : Opcode := ⟨0xC7⟩
def gotoW : Opcode := ⟨0xC8⟩
def jsrW : Opcode := ⟨0xC9⟩

/-! ### Families -/

/-- Whether the code lies in the inclusive range from `first` to `last`. -/
def within (first last : Int) (op : Opcode) : Bool := first ≤ op.code && op.code ≤ last

/-- Whether the code is an instruction of the virtual machine. -/
def isValid (op : Opcode) : Bool := op.within 0x00 0xC9

/-- Whether the code marks a listing entry without code bytes. -/
def isPseudo (op : Opcode) : Bool := op.code < 0

/-- The six typed method returns. -/
def isReturn (op : Opcode) : Bool := op.within 0xAC 0xB1

def isConditionalJump (op : Opcode) : Bool :=
  op.within 0x99 0xA6 || op = ifNull || op = ifNonNull

/-- The jumps that are always taken; only these have a form with a 32-bit displacement. -/
def isUnconditional (op : Opcode) : Bool := op = goto || op = jsr || op = gotoW || op = jsrW

/-- Whether the instruction transfers control to a label operand. -/
def isJump (op : Opcode) : Bool := op.isConditionalJump || op.isUnconditional

def isSwitch (op : Opcode) : Bool := op = tableSwitch || op = lookupSwitch

def isArrayStore (op : Opcode) : Bool := op.within 0x4F 0x56

def isArrayLoad (op : Opcode) : Bool := op.within 0x2E 0x35

/-- Whether the instruction reads a local variable, in its indexed or compact form. -/
def isLocalLoad (op : Opcode) : Bool := op.within 0x15 0x2D

/-- Whether the instruction writes a local variable, in its indexed or compact form. -/
def isLocalStore (op : Opcode) : Bool := op.within 0x36 0x4E

/-- The loads and stores that take their local as an operand. -/
def isIndexedLocal (op : Opcode) : Bool := op.within 0x15 0x19 || op.within 0x36 0x3A

/-- The loads that name their local in the opcode. -/
def isCompactLoad (op : Opcode) : Bool := op.within 0x1A 0x2D

/-- The stores that name their local in the opcode. -/
def isCompactStore (op : Opcode) : Bool := op.within 0x3B 0x4E

def isInvoke (op : Opcode) : Bool := op.within 0xB6 0xBA

def isFieldAccess (op : Opcode) : Bool := op.within 0xB2 0xB5

/-- The calls that name an owner: every call but the dynamic one. -/
def isMemberCall (op : Opcode) : Bool := op.within 0xB6 0xB9

/-- Instructions whose operand is a class: `new`, `anewarray`, `checkcast`, `instanceof`. -/
def takesClass (op : Opcode) : Bool :=
  op = newObject || op = newRefArray || op = checkCast || op = instanceOf

end Opcode

/-! ### Operand shapes -/

/-- The shape of the operands that an opcode calls for. -/
inductive Shape where
  | plain | int | slot | increment | type | field | method | dynamic | jump | constant
  | tableSwitch | lookupSwitch | multiArray | label | line | frame | tryCatch | localVariable
  deriving DecidableEq, Repr

namespace Shape

/-- All shapes in their numbering. -/
def all : List Shape :=
  [plain, int, slot, increment, type, field, method, dynamic, jump, constant,
    tableSwitch, lookupSwitch, multiArray, label, line, frame, tryCatch, localVariable]

def name : Shape → Text
  | plain => "insn"
  | int => "int"
  | slot => "var"
  | increment => "iinc"
  | type => "type"
  | field => "field"
  | method => "method"
  | dynamic => "invokedynamic"
  | jump => "jump"
  | constant => "ldc"
  | tableSwitch => "tableswitch"
  | lookupSwitch => "lookupswitch"
  | multiArray => "multianewarray"
  | label => "label"
  | line => "line"
  | frame => "frame"
  | tryCatch => "trycatch"
  | localVariable => "localvar"

/-- The name of the shape numbered `n`; a number without one is shown in brackets. -/
def nameAt (n : Nat) : Text :=
  match all[n]? with
  | some s => s.name
  | none => "kind(" ++ Text.ofNat n ++ ")"

end Shape

/-- The operand shape that an opcode calls for. -/
def Opcode.shape (op : Opcode) : Shape :=
  if op = label then .label
  else if op = lineNumber then .line
  else if op = frame then .frame
  else if op = tryCatch then .tryCatch
  else if op = localVariable then .localVariable
  else if op = bipush || op = sipush || op = newArray then .int
  else if op = ldc || op = ldcW || op = ldc2W then .constant
  else if op.isLocalLoad || op.isLocalStore || op = ret then .slot
  else if op = iinc then .increment
  else if op.isJump then .jump
  else if op = tableSwitch then .tableSwitch
  else if op = lookupSwitch then .lookupSwitch
  else if op.isFieldAccess then .field
  else if op.isMemberCall then .method
  else if op = invokeDynamic then .dynamic
  else if op.takesClass then .type
  else if op = multiNewArray then .multiArray
  else .plain

end ClassWeaver
