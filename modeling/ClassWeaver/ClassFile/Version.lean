import ClassWeaver.ClassFile.Basic

/-!
# Class file versions

From version 51 on a class must carry stack map frames; up to version 50 the machine infers
what it needs. A class whose code was changed can do without frames when it is lowered to
version 50, provided that it uses nothing younger.
-/

namespace ClassWeaver

/-- The last version that needs no frames. -/
def inferredMajor : UInt16 := 50

/-- Class attributes that no class up to version 50 has. -/
def youngAttributes : List Text :=
  ["BootstrapMethods", "Module", "NestHost", "NestMembers", "PermittedSubclasses", "Record"]

/-- Tags of constants that no class up to version 50 has. -/
def youngTags : List UInt8 :=
  [Tag.methodHandle, Tag.methodType, Tag.dynamic, Tag.invokeDynamic, Tag.module, Tag.package]

/-- Whether the instruction is a dynamic call or loads a method type or pooled constant. -/
def Insn.isDynamic (i : Insn) : Bool :=
  i.opcode = .invokeDynamic ||
    match i.operand with
    | .constant (.methodType _) => true
    | .constant (.pooled _) => true
    | _ => false

namespace ClassFile

/-- What a method uses that needs a version above 50. -/
def youngInMethod (c : ClassFile) (m : Method) : List Text :=
  match m.code with
  | none => []
  | some l =>
    (if c.access &&& Access.isInterface ≠ 0 && m.name ≠ utf8 "<clinit>" then
      ["interface method body " ++ m.key] else [])
    ++ if l.insns.any Insn.isDynamic then
      ["invokedynamic or method handle constant in " ++ m.key] else []

/-- What a class uses that needs a version above 50. -/
def youngFeatures (c : ClassFile) : List Text :=
  (if c.pool.any (·.hasTag youngTags) then [utf8 "method handle or dynamic constants"] else [])
  ++ (c.attributes.filter fun a => youngAttributes.contains a.name).map
    (fun a => a.name ++ utf8 " attribute")
  ++ c.methods.flatMap c.youngInMethod

/-- The class at version 50, if it is above that. -/
def lowered (c : ClassFile) : ClassFile :=
  if inferredMajor < c.major then { c with major := inferredMajor, minor := 0 } else c

end ClassFile

end ClassWeaver
