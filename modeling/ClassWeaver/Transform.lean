import ClassWeaver.ClassFile.Codec
import ClassWeaver.Generator.Weaving

/-!
# Transforming classes

A transformation weaves the selected methods of a class one after the other. A method that
cannot be woven is either skipped, and listed in the report, or ends the transformation. A
class with a state field was woven before and is refused.
-/

namespace ClassWeaver

/-- What to do about a method that cannot be woven. -/
inductive OnError where
  | skip
  | abort
  deriving DecidableEq, Repr

/-- Which methods to weave, and how. -/
structure Plan where
  /-- Selects by owner, name and descriptor. Without it all instance methods that return a
  boolean are selected. -/
  selects : Option (Text → Text → Text → Bool) := none
  settings : Settings := {}
  onError : OnError := .skip

/-- What a transformation did. -/
structure Report where
  /-- The methods that were woven into at least one state. -/
  woven : List Woven := []
  skipped : List Skipped := []

namespace Plan

/-- Whether a method of a class is to be woven. -/
def isSelected (plan : Plan) (owner : Text) (m : Method) : Bool :=
  m.code.isSome &&
    match plan.selects with
    | some selects => selects owner m.name m.desc
    | none =>
      !m.isStatic &&
        match Descriptor.parseMethod m.desc with
        | .ok t => t.result = [90]
        | .error _ => false

end Plan

namespace Report

/-- The summary of the skipped methods, if there are any. -/
def summary? (r : Report) : Option Fault :=
  if r.skipped.isEmpty then none else some (.skipped r.skipped)

/-- Adds a woven method; one without states was left alone and is not listed. -/
def addWoven (r : Report) (w : Woven) : Report :=
  if 0 < w.states then { r with woven := r.woven ++ [w] } else r

/-- Adds a method that was skipped. -/
def addSkipped (r : Report) (owner key : Text) (cause : Fault) : Report :=
  { r with skipped := r.skipped ++ [.ofKey (owner ++ "." ++ key) (some cause)] }

end Report

namespace ClassFile

/-- Whether the class declares a state field. -/
def isWoven (settings : Settings) (c : ClassFile) : Bool :=
  c.fields.any fun f => f.desc = [73] && (settings.stateFieldName []).isPrefixOf f.name

/-- Weaves the methods at the given places in order, with the report so far. -/
def weaveAll (plan : Plan) :
    List (Nat × Method) → Report → ClassFile → Report × Outcome ClassFile
  | [], report, c => (report, .ok c)
  | (n, m) :: rest, report, c =>
    match (weave plan.settings n).on c with
    | (.ok w, c) => weaveAll plan rest (report.addWoven w) c
    | (.error .undefined, _) => (report, Outcome.undefined)
    | (.error (.fault f), c) =>
      if plan.onError = .abort then (report, Outcome.fail f)
      else weaveAll plan rest (report.addSkipped c.name m.key f) c

/-- The places of the selected methods. -/
def selection (plan : Plan) (c : ClassFile) : List (Nat × Method) :=
  (c.methods.zipIdx.filter fun (m, _) => plan.isSelected c.name m).map fun (m, n) => (n, m)

/-- The fault of a class that is to be woven twice. -/
def alreadyWoven (c : ClassFile) : Fault :=
  .about .weave .usage c.name
    ("class " ++ c.name ++ " is already woven; re-weaving is not supported")

/-- Weaves the selected methods of a class. A class that is refused has no report. -/
def transform (plan : Plan) (c : ClassFile) : Option Report × Outcome ClassFile :=
  if c.isWoven plan.settings then (none, Outcome.fail c.alreadyWoven)
  else
    let (report, result) := weaveAll plan (c.selection plan) {} c
    (some report, result)

end ClassFile

/-- Weaves the selected methods of a class file. -/
def transform (plan : Plan) (data : List UInt8) : Option Report × Outcome (List UInt8) :=
  match ClassFile.parse data with
  | .error f => (none, Outcome.fail (.wrap .decode .invalidData (some f) "parse class"))
  | .ok c =>
    match c.transform plan with
    | (report, .error e) => (report, .error e)
    | (report, .ok c) =>
      match c.encode with
      | .ok (bytes, _) => (report, .ok bytes)
      | .error e =>
        (report, .error (e.map fun f => .wrap .encode .invalidData (some f) "encode class"))

end ClassWeaver
