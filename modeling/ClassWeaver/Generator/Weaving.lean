import Std.Data.HashSet
import ClassWeaver.ClassFile.Version
import ClassWeaver.Generator.Assembly
import ClassWeaver.Generator.Bench

/-!
# Weaving a method

A generator is an instance method that returns a boolean. Weaving replaces its code by a state
machine and gives the class the fields that the machine needs. The woven code carries no stack
map frames, so the class is lowered to a version that needs none; a class that uses something
younger cannot be woven.

Nothing changes unless all goes well: the work is done on copies, and the new code is checked
for consistent stack heights, for labels and for free field names before the class is touched. A
method without yield calls stays as it is.
-/

namespace ClassWeaver

/-- What weaving made of a method. -/
structure Woven where
  /-- Name and descriptor. -/
  method : Text
  stateField : Text
  /-- The number of resume states; zero when the method was left alone. -/
  states : Nat
  slots : List Slot
  maxStack : Nat := 0
  deriving DecidableEq, Repr

namespace Woven

/-- The fields that the class must declare: the state, then one for each captured slot. -/
def fields (w : Woven) : List Field :=
  { access := Access.isPrivate, name := w.stateField, desc := "I" }
    :: w.slots.map fun s => { access := Access.isPrivate, name := s.name, desc := s.desc }

end Woven

/-! ### Conditions -/

namespace Method

/-- The code of a method that can be a generator. -/
def generatorCode (m : Method) : Outcome Listing :=
  match m.code with
  | none => Outcome.fail (.usage .weave "method has no code")
  | some l =>
    if m.isStatic then Outcome.fail (.unsupported .weave "static generator methods")
    else
      match Descriptor.parse m.desc with
      | .error e => Outcome.fail (badMethodType m.desc e)
      | .ok t =>
        if t.result = [90] then .ok l
        else
          Outcome.fail (.about .weave .usage m.desc
            ("generator method must return boolean, returns " ++ t.result))

end Method

namespace Opcode

/-- Whether the opcode calls a subroutine or returns from one. -/
def isSubroutine (op : Opcode) : Bool := op = jsr || op = jsrW || op = ret

end Opcode

/-- Fails for the first instruction that belongs to a subroutine. -/
def Listing.checkSubroutines (l : Listing) : Outcome Unit :=
  match l.insns.find? (·.opcode.isSubroutine) with
  | some i => Outcome.fail (.unsupported .weave (i.opcode.name ++ " subroutines"))
  | none => .ok ()

namespace ClassFile

/-- Fails if the class cannot be lowered to a version without stack map frames. -/
def checkLowering (c : ClassFile) (key : Text) : Outcome Unit :=
  if inferredMajor < c.major && !c.youngFeatures.isEmpty then
    let major := Text.ofNat c.major.toNat
    Outcome.fail (.report .weave .unsupported key []
      ("class version " ++ major ++ " needs stack map frames: "
        ++ Text.join ", " c.youngFeatures)
      (some major) none)
  else .ok ()

/-- Fails for the first field that the class declares already. -/
def checkFields (c : ClassFile) (key : Text) (fields : List Field) : Outcome Unit :=
  match fields.findSome? fun f => c.field? f.name with
  | some taken =>
    Outcome.fail (.report .weave .usage key []
      ("field " ++ taken.name ++ " " ++ taken.desc ++ " already declared") (some taken.name)
      none)
  | none => .ok ()

end ClassFile

/-- The stack size of a woven method, not below the old one. Wide values count once in the
heights, so twice the greatest height is enough. -/
def wovenStack (key : Text) (old : UInt16) (heights : Heights) : Outcome Nat :=
  let size := Nat.max (2 * heights.max) old.toNat
  if 0xFFFF < size then
    Outcome.fail (.report .weave .outOfBounds key []
      ("max stack " ++ Text.ofNat size ++ " does not fit u2") (some (Text.ofNat size)) none)
  else .ok size

/-- Checks woven code for consistent stack heights, labels and resume states: the heights. -/
def checkWoven (key : Text) (states : States) (l : Listing) : Outcome Heights :=
  Outcome.inMethod key do
    let heights ← l.heights
    l.resolve
    match states.checkBound l with
    | .error f => Outcome.fail f
    | .ok () => return heights

/-! ### Weaving -/

namespace ClassFile

/-- Declares fields, unless fields with their names exist. -/
def addFields (c : ClassFile) (fields : List Field) : ClassFile :=
  fields.foldl (fun c f => c.addField f.access f.name f.desc) c

end ClassFile

namespace Work

/-- Builds the woven code of the body at a place: where it is kept, the states and the resume
labels. The labels that the code needs are handed out in the body first, whatever happens then. -/
def build (g : Generator) (body : Place) (states : States) : Work (Place × States × List Ref) := do
  let build := g.build (← read body) states
  write body build.body
  let (code, resumes) ← build.woven
  return (← keep code, build.states, resumes)

/-- Runs rules over the listing at a place. What they replace before a failure stays replaced. -/
def enhance (chain : Chain) (ctx : Context) (code : Place) : Work Unit := do
  let (l, result) := chain.run ctx (← read code)
  write code l
  result

/-- Builds the woven code of the body at a place, enhances and checks it: where it is kept, and
its heights. -/
def weaveBody (settings : Settings) (owner : Text) (m : Method) (body : Place) (states : States) :
    Work (Place × Heights) := do
  match Generator.create settings owner m.name m.desc with
  | .error f => throw (.fault f)
  | .ok g =>
    let (code, states, resumes) ← build g body states
    let boundary := (Std.HashSet.ofList resumes).contains
    enhance settings.chain { boundary, owner, method := m.key, states } code
    let heights ← checkWoven m.key states (← read code)
    return (code, heights)

/-- Does all of the weaving of a method that can fail: what happened, and where the new code is
kept unless the method stays as it is. -/
def prepare (settings : Settings) (n : Nat) : Work (Woven × Option Place) := do
  let m ← method n
  let _ ← m.generatorCode.inMethod m.key
  let body ← clone (.code n)
  (← read body).checkSubroutines.inMethod m.key
  let states ← (discover settings (← read body) m.name m.desc).inMethod m.key
  let w : Woven :=
    { method := m.key, stateField := settings.stateFieldName m.name, states := states.count
      slots := states.slots }
  if w.states = 0 then return (w, none)
  (← file).checkLowering m.key
  let (code, heights) ← weaveBody settings (← file).name m body states
  let maxStack ← wovenStack m.key m.maxStack heights
  (← file).checkFields m.key w.fields
  return ({ w with maxStack }, some code)

/-- Gives a method its new code, and the class the fields that the code needs. -/
def commit (n : Nat) (w : Woven) (code : Place) : Work Unit := do
  let m ← method n
  let l ← read code
  let m := { m with code := some l, maxStack := w.maxStack.toUInt16, codeAttributes := [] }
  modify fun b => { b with file := ((b.file.setMethod n m).addFields w.fields).lowered }

/-- Weaves the method at a place of the class. -/
def weave (settings : Settings) (n : Nat) : Work Woven := do
  let (w, code) ← prepare settings n
  match code with
  | none => return w
  | some code =>
    commit n w code
    return w

end Work

/-- Weaves the method at a place of the class. The listings that were made on the way are given
up. -/
def ClassFile.weave (settings : Settings) (n : Nat) : Edit ClassFile Woven := ExceptT.mk do
  let (result, b) := (Work.weave settings n).on { file := ← get }
  set b.file
  return result

end ClassWeaver
