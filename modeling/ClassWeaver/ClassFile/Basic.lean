import ClassWeaver.Listing.Basic
import ClassWeaver.Pool.Basic

/-!
# Classes

The model of a class file. Exception handlers, line entries and local variable entries of a
method live in its listing; attributes that are not interpreted are kept as bytes.
-/

namespace ClassWeaver

/-- An attribute as bytes. -/
structure Attribute where
  name : Text
  data : List UInt8
  deriving DecidableEq, Repr

/-! ### Names and flags -/

namespace Attribute

def code : Text := "Code"
def lineNumbers : Text := "LineNumberTable"
def localVariables : Text := "LocalVariableTable"

end Attribute

namespace Access

def isPrivate : UInt16 := 0x0002
def isStatic : UInt16 := 0x0008
def isInterface : UInt16 := 0x0200

end Access

/-! ### Members -/

structure Field where
  access : UInt16 := 0
  name : Text
  desc : Text
  attributes : List Attribute := []
  deriving DecidableEq, Repr

/-- A method. An abstract or native one has no code. -/
structure Method where
  access : UInt16 := 0
  name : Text
  desc : Text
  code : Option Listing := none
  maxStack : UInt16 := 0
  maxLocals : UInt16 := 0
  /-- Attributes of the code that are not interpreted. -/
  codeAttributes : List Attribute := []
  attributes : List Attribute := []
  deriving DecidableEq

namespace Method

/-- Name and descriptor, which together identify a method of a class. -/
def key (m : Method) : Text := m.name ++ m.desc

def isStatic (m : Method) : Bool := m.access &&& Access.isStatic ≠ 0

end Method

/-! ### Classes -/

/-- A class. A class that was made rather than read has no pool yet. -/
structure ClassFile where
  pool : Option Pool := none
  major : UInt16 := 0
  minor : UInt16 := 0
  access : UInt16 := 0
  name : Text := []
  super : Text := []
  interfaces : List Text := []
  fields : List Field := []
  methods : List Method := []
  attributes : List Attribute := []

namespace ClassFile

/-- The place of the first method with the name and descriptor; an empty descriptor fits
any. -/
def findMethod? (c : ClassFile) (name desc : Text) : Option Nat :=
  c.methods.findIdx? fun m => m.name = name && (desc.isEmpty || m.desc = desc)

/-- The first field with the name. -/
def field? (c : ClassFile) (name : Text) : Option Field := c.fields.find? (·.name = name)

/-- Adds a field unless there is one with the name. -/
def addField (c : ClassFile) (access : UInt16) (name desc : Text) : ClassFile :=
  match c.field? name with
  | some _ => c
  | none => { c with fields := c.fields ++ [{ access, name, desc }] }

/-- Replaces the method at a place. -/
def setMethod (c : ClassFile) (n : Nat) (m : Method) : ClassFile :=
  { c with methods := c.methods.set n m }

end ClassFile

/-! ### Edits -/

/-- An operation that changes a state in place. When it fails, what it changed before stays
changed. -/
abbrev Edit (σ : Type) := ExceptT Failure (StateM σ)

/-- The outcome of an edit, and the state that it leaves behind. -/
def Edit.on {σ α : Type} (e : Edit σ α) (s : σ) : Outcome α × σ := e.run.run s

end ClassWeaver
