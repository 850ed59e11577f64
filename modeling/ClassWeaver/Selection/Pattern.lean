import ClassWeaver.Fault
import ClassWeaver.Selection.Glob

/-!
# Method patterns

A pattern `[owner.]name[desc]` selects methods by globs on their class, name and descriptor.
The descriptor starts at the first opening bracket and the owner ends at the last point in
front of it. A part that is left out fits everything, and so does a lone star.
-/

namespace ClassWeaver

/-- Globs for the parts of a method's identity. -/
structure Pattern where
  owner : Text := []
  name : Text := []
  desc : Text := []
  deriving DecidableEq, Repr

/-- The fault behind a malformed glob. -/
def badGlob : Fault := .note "syntax error in pattern"

namespace Pattern

/-- Whether a part of a pattern fits a text. -/
def fits (glob t : Text) : Bool :=
  glob.isEmpty || glob = [42] ||
    match Glob.parse? glob with
    | some g => g.isMatch t
    | none => false

/-- Whether every part of the pattern fits. -/
def selects (p : Pattern) (owner name desc : Text) : Bool :=
  fits p.owner owner && fits p.name name && fits p.desc desc

/-- Splits a pattern into its parts. -/
def split (t : Text) : Pattern :=
  let (head, desc) := t.spanByte 40
  match head.splitLast? 46 with
  | some (owner, name) => ⟨owner, name, desc⟩
  | none => ⟨[], head, desc⟩

/-- Reads a pattern. It must have a name, and its globs must be well-formed. -/
def parse (t : Text) : Except Fault Pattern :=
  let p := split t
  if p.name.isEmpty then
    .error (.usage .config ("method pattern " ++ t.quote ++ " has no name"))
  else if [p.owner, p.name, p.desc].all fun g => (Glob.parse? g).isSome then .ok p
  else
    .error (.report .config .usage [] [] ("method pattern " ++ t.quote) (some t) (some badGlob))

/-- Reads patterns; the first that cannot be read fails all. -/
def parseAll (ts : List Text) : Except Fault (List Pattern) := ts.mapM parse

end Pattern

/-- Whether one of the patterns selects the method. -/
def selectedBy (ps : List Pattern) (owner name desc : Text) : Bool :=
  ps.any fun p => p.selects owner name desc

end ClassWeaver
