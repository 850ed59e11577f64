import ClassWeaver.Code.Encode
import ClassWeaver.Pool.Codec

/-!
# Class files

`ClassFile.parse` reads a class file and `ClassFile.encode` writes one. Writing keeps the
indices of the pool the class was read with and appends the constants it lacks: first those
of the method bodies, then those of names in the order in which they are written.
-/

namespace ClassWeaver.ClassFile

def magic : UInt32 := 0xCAFEBABE

/-- The versions that can be read. -/
def isKnownVersion (major : UInt16) : Bool := 45 ≤ major && major ≤ 69

/-! ### Reading -/

/-- Reads minor and major version behind the magic number. -/
def readHeader : Read (UInt16 × UInt16) := do
  if (← Read.u4.under "header") ≠ magic then throw .badMagic
  let minor ← Read.u2.under "header"
  let major ← Read.u2.under "header"
  if isKnownVersion major then return (minor, major)
  else throw (.context [] .badVersion
    (": " ++ Text.ofNat major.toNat ++ "." ++ Text.ofNat minor.toNat))

/-- Looks a class name up for the part of the file that `what` names. -/
def readClassName (p : Pool) (what : Text) (i : UInt16) : Read Text :=
  (show Read Text from p.className i).under what

/-- Access flags, name and descriptor of a field or method. -/
def readMember (p : Pool) : Read (UInt16 × Text × Text) := do
  let access ← Read.u2
  let nameIndex ← Read.u2
  let descIndex ← Read.u2
  return (access, ← p.textAt nameIndex, ← p.textAt descIndex)

def readField (p : Pool) (n : Nat) : Read Field := do
  let (access, name, desc) ← (readMember p).under ("field " ++ Text.ofNat n)
  let attributes ← (Code.readAttributes p).under ("field " ++ name)
  return { access, name, desc, attributes }

/-- Gives a method an attribute; a code attribute is read. -/
def addAttribute (p : Pool) (m : Method) (a : Attribute) : Except Fault Method :=
  if a.name = Attribute.code then (Code.readInto p m).run a.data
  else .ok { m with attributes := m.attributes ++ [a] }

def readMethod (p : Pool) (n : Nat) : Read Method := do
  let (access, name, desc) ← (readMember p).under ("method " ++ Text.ofNat n)
  let m : Method := { access, name, desc }
  Read.under ("method " ++ m.key) do
    let attributes ← Code.readAttributes p
    (attributes.foldlM (addAttribute p) m : Except Fault Method)

/-- Reads what stands behind the pool. -/
def readBody (pool : Pool) (minor major : UInt16) : Read ClassFile := do
  let access ← Read.u2
  let name ← readClassName pool "this_class" (← Read.u2)
  let superIndex ← Read.u2
  let super ← if superIndex = 0 then pure [] else readClassName pool "super_class" superIndex
  let interfaces ← Read.repeated
    (fun n => do readClassName pool ("interface " ++ Text.ofNat n) (← Read.u2)) (← Read.u2).toNat
  let fields ← Read.repeated (readField pool) (← Read.u2).toNat
  let methods ← Read.repeated (readMethod pool) (← Read.u2).toNat
  let attributes ← (Code.readAttributes pool).under "class attributes"
  return { pool := some pool, major, minor, access, name, super, interfaces, fields, methods,
           attributes }

/-- Reads a class file, up to the end of the bytes. -/
def read : Read ClassFile := do
  let (minor, major) ← readHeader
  let pool ← Pool.read.under "constant pool"
  let c ← readBody pool minor major
  let left := (← Read.here).left
  if left ≠ 0 then throw (.note (Text.ofNat left ++ " trailing bytes after class"))
  else return c

/-- Reads a class file. -/
def parse (data : List UInt8) : Except Fault ClassFile := read.run data

/-! ### Writing -/

/-- The code attributes of methods in order, behind those in `seen` (newest first). -/
def methodCodes (p : Pool) (seen : List (List Attribute)) :
    List Method → Outcome (List (List Attribute) × Pool)
  | [] => .ok (seen.reverse, p)
  | m :: rest =>
    match m.code with
    | none => methodCodes p ([] :: seen) rest
    | some l => do
      let (data, p) ← (Code.write p m l).under ("method " ++ m.key)
      methodCodes p ([⟨Attribute.code, data⟩] :: seen) rest

/-- Indices of class entries in order, behind those in `seen` (newest first). -/
def classIndices (p : Pool) (seen : List (List UInt8)) : List Text → List UInt8 × Pool
  | [] => (seen.reverse.flatten, p)
  | name :: rest =>
    let (n, p) := p.addClass name
    classIndices p (Code.u2 n :: seen) rest

/-- A field or method. -/
def memberBytes (p : Pool) (access : UInt16) (name desc : Text) (attributes : List Attribute) :
    List UInt8 × Pool :=
  let (n, p) := p.addText name
  let (d, p) := p.addText desc
  let (bytes, p) := Code.writeAttributes p attributes
  (Code.u2 access ++ Code.u2 n ++ Code.u2 d ++ bytes, p)

/-- Fields in order, behind the parts in `seen` (newest first). -/
def fieldBytes (p : Pool) (seen : List (List UInt8)) : List Field → List UInt8 × Pool
  | [] => (seen.reverse.flatten, p)
  | f :: rest =>
    let (bytes, p) := memberBytes p f.access f.name f.desc f.attributes
    fieldBytes p (bytes :: seen) rest

/-- Methods with their code attributes in order, behind the parts in `seen` (newest first). -/
def methodBytes (p : Pool) (seen : List (List UInt8)) :
    List (Method × List Attribute) → List UInt8 × Pool
  | [] => (seen.reverse.flatten, p)
  | (m, code) :: rest =>
    let (bytes, p) := memberBytes p m.access m.name m.desc (code ++ m.attributes)
    methodBytes p (bytes :: seen) rest

/-- The part of a class file behind the pool. -/
def bodyBytes (c : ClassFile) (p : Pool) : Outcome (List UInt8 × Pool) := do
  let (codes, p) ← methodCodes p [] c.methods
  let (this, p) := p.addClass c.name
  let (super, p) := if c.super.isEmpty then (0, p) else p.addClass c.super
  let (interfaces, p) := classIndices p [] c.interfaces
  let (fields, p) := fieldBytes p [] c.fields
  let (methods, p) := methodBytes p [] (c.methods.zip codes)
  let (attributes, p) := Code.writeAttributes p c.attributes
  return (Code.u2 c.access ++ Code.u2 this ++ Code.u2 super
    ++ bigEndian 2 c.interfaces.length ++ interfaces
    ++ bigEndian 2 c.fields.length ++ fields
    ++ bigEndian 2 c.methods.length ++ methods
    ++ attributes, p)

/-- Writes a class file: its bytes, and the class with the pool it was written with. -/
def encode (c : ClassFile) : Outcome (List UInt8 × ClassFile) := do
  let (body, p) ← c.bodyBytes (c.pool.getD .empty)
  let pool ← Code.lift p.write
  return (bigEndian 4 magic.toNat ++ Code.u2 c.minor ++ Code.u2 c.major ++ pool ++ body,
    { c with pool := some p })

end ClassWeaver.ClassFile
