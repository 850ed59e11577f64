import ClassWeaver.ClassFile.Basic

/-!
# Working copies

Weaving a method edits listings: labels are handed out in the body, a new listing is built, and
rules run over it. A bench holds the class together with the listings that were made on the way,
and an edit names the place of the listing it is about. The code of a method is a place like any
other, so an edit that is not given a copy to work on changes the class.
-/

namespace ClassWeaver

/-- Where a listing is kept. -/
inductive Place where
  /-- The code of a method of the class. -/
  | code (n : Nat)
  /-- A listing that was made on the way. -/
  | copy (k : Nat)
  deriving DecidableEq, Repr

/-- A class at work. -/
structure Bench where
  file : ClassFile
  copies : Array Listing := #[]

namespace Bench

/-- The listing at a place. -/
def listing? (b : Bench) : Place → Option Listing
  | .code n => b.file.methods[n]?.bind (·.code)
  | .copy k => b.copies[k]?

/-- Puts a listing in place of the one that is there. -/
def put (b : Bench) (p : Place) (l : Listing) : Bench :=
  match p with
  | .code n =>
    match b.file.methods[n]? with
    | none => b
    | some m => { b with file := b.file.setMethod n { m with code := some l } }
  | .copy k => { b with copies := b.copies.setIfInBounds k l }

end Bench

/-- An operation on the class and the listings at work. -/
abbrev Work := Edit Bench

namespace Work

/-- The class as it is now. -/
def file : Work ClassFile := return (← get).file

/-- The method at a place of the class. -/
def method (n : Nat) : Work Method := do
  match (← file).methods[n]? with
  | none => throw .undefined
  | some m => return m

/-- The listing at a place. -/
def read (p : Place) : Work Listing := do
  match (← get).listing? p with
  | none => throw .undefined
  | some l => return l

/-- Changes the listing at a place. -/
def write (p : Place) (l : Listing) : Work Unit := modify (·.put p l)

/-- Makes room for a new listing. -/
def keep (l : Listing) : Work Place := do
  let b ← get
  set { b with copies := b.copies.push l }
  return .copy b.copies.size

/-- Makes a copy of the listing at a place. -/
def clone (p : Place) : Work Place := do keep (← read p)

end Work

end ClassWeaver
