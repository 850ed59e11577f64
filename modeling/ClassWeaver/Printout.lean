import ClassWeaver.ClassFile.Basic
import ClassWeaver.Stack.Heights

/-!
# Printed listings

A method is printed under a heading, one instruction a line, each behind the height of the
stack on entry. Where control never comes stands a dash, and nothing where the heights could
not be found; the reason then stands at the end. How heading and reason are written is up to
the place where they are shown.
-/

namespace ClassWeaver

namespace Printout

/-- The column in front of an instruction. -/
def column (heights : Option Heights) (r : Ref) (i : Insn) : Text :=
  match heights with
  | none => "    "
  | some h =>
    match h.at? r with
    | some height => (Text.ofNat height).padLeft 4
    | none => if i.opcode.isPseudo then "    " else "   -"

/-- The line of a node; undefined for an instruction without listing text. -/
def line (l : Listing) (heights : Option Heights) (r : Ref) : Outcome Text := do
  let i ← l.fetch r
  match i.text? with
  | none => Outcome.undefined
  | some text =>
    let gap : Text := if i.opcode = .label then "  " else "      "
    return column heights r i ++ gap ++ text ++ "\n"

/-- The lines of a listing. -/
def ofListing (style : Text → Text) (l : Listing) : Outcome Text :=
  match l.heights with
  | .ok h => do return (← l.refs.mapM (line l (some h))).flatten
  | .error .undefined => Outcome.undefined
  | .error (.fault f) => do
    return (← l.refs.mapM (line l none)).flatten ++ style ("  stack: " ++ f.message) ++ "\n"

/-- A method of a class under its heading. -/
def ofMethod (style : Text → Text) (owner : Text) (m : Method) (l : Listing) : Outcome Text := do
  return style (owner ++ "." ++ m.key) ++ "  max_stack=" ++ Text.ofNat m.maxStack.toNat
    ++ " max_locals=" ++ Text.ofNat m.maxLocals.toNat ++ "\n" ++ (← ofListing style l)

/-- The method at a place of a class, with an empty line in front of all but the first. -/
def ofEntry (style : Text → Text) (owner : Text) (n : Nat) (m : Method) : Outcome Text :=
  match m.code with
  | none => .ok []
  | some l => do
    let text ← ofMethod style owner m l
    return if n = 0 then text else 10 :: text

end Printout

/-- All methods of a class that have code. Headings and reasons are written by `style`. -/
def ClassFile.printout (style : Text → Text) (c : ClassFile) : Outcome Text := do
  return (← c.methods.zipIdx.mapM fun (m, n) => Printout.ofEntry style c.name n m).flatten

end ClassWeaver
