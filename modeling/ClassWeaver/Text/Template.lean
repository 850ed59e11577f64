import ClassWeaver.Text.Basic

/-!
# Message templates

A template is a text in which `%d` and `%s` stand for the next argument, a number or a text.
What does not fit is shown in place rather than dropped: an argument of the other kind, a
verb without an argument, a lone percent sign, and arguments that are left over.
-/

namespace ClassWeaver.Text

/-- An argument of a template. -/
inductive Argument where
  | number (n : Int)
  | text (t : Text)

namespace Argument

def shown : Argument → Text
  | number n => ofInt n
  | text t => t

/-- The argument with the name of its kind. -/
def tagged : Argument → Text
  | number n => "int=" ++ ofInt n
  | text t => "string=" ++ t

/-- Whether a verb takes the argument: `d` a number, `s` a text. -/
def fits (verb : UInt8) : Argument → Bool
  | number _ => verb = 100
  | text _ => verb = 115

end Argument

/-- What a verb becomes, given the arguments that remain, and the arguments after it. -/
def fillVerb (verb : UInt8) (args : List Argument) : Text × List Argument :=
  if verb = 37 then ([37], args)
  else match args with
    | [] => ("%!" ++ [verb] ++ "(MISSING)", [])
    | a :: rest =>
      if a.fits verb then (a.shown, rest) else ("%!" ++ [verb] ++ "(" ++ a.tagged ++ ")", rest)

/-- Fills a template from left to right. -/
def fill : (template : Text) → (args : List Argument) → Text
  | [], [] => []
  | [], args => "%!(EXTRA " ++ join ", " (args.map Argument.tagged) ++ ")"
  | [37], args => "%!(NOVERB)" ++ fill [] args
  | 37 :: verb :: t, args =>
    let (filled, rest) := fillVerb verb args
    filled ++ fill t rest
  | b :: t, args => b :: fill t args

end ClassWeaver.Text
