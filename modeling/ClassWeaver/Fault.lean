import ClassWeaver.Insn
import ClassWeaver.Text.Template

/-!
# Faults

Every failure is a `Fault`. Most are reports: they say in which phase of the work something
went wrong and of what kind it is, and may name a method, an instruction, a value and a
cause. Around them stand notes without structure, contexts that add text to another fault,
four faults of the class-file reader, and the summary of methods that could not be woven.

`Failure` adds the one outcome that is no report: an operation applied to something it is not
defined on (a node that was never allocated, an entry whose operand belongs to another kind
of entry).
-/

namespace ClassWeaver

/-- The part of the work in which a report arose. -/
abbrev Phase := Text

namespace Phase

def decode : Phase := "decode"
def encode : Phase := "encode"
def analyze : Phase := "analyze"
def buffer : Phase := "buffer"
def enhance : Phase := "enhance"
def metadata : Phase := "metadata"
def weave : Phase := "weave"
def config : Phase := "config"

end Phase

/-- What sort of failure a report describes. -/
abbrev FaultKind := Text

namespace FaultKind

/-- A precondition that the caller broke. -/
def usage : FaultKind := "usage"
/-- Bookkeeping in a state that should not exist. -/
def invariant : FaultKind := "invariant"
def unsupported : FaultKind := "unsupported"
def invalidData : FaultKind := "invalid_data"
def outOfBounds : FaultKind := "out_of_bounds"
def notFound : FaultKind := "not_found"

end FaultKind

mutual

/-- A failure with everything a message says about it. -/
inductive Fault where
  /-- A report; empty texts are left out of its message, and `value` is never part of it. -/
  | report (phase : Phase) (kind : FaultKind) (method insn detail : Text) (value : Option Text)
      (cause : Option Fault)
  | note (text : Text)
  /-- Another fault with text in front of and behind its message. -/
  | context (before : Text) (cause : Fault) (after : Text)
  | badMagic
  | badVersion
  | truncated
  | endOfInput
  | skipped (methods : List Skipped)

/-- A method that was left as it is: its class, its name with descriptor, and why. -/
inductive Skipped where
  | mk (owner name : Text) (cause : Option Fault)

end

instance : Inhabited Fault := ⟨.truncated⟩

namespace Skipped

def owner : Skipped → Text
  | mk owner _ _ => owner

def name : Skipped → Text
  | mk _ name _ => name

def cause? : Skipped → Option Fault
  | mk _ _ cause => cause

/-- Splits `owner.name(desc)` at the last point in front of the descriptor. -/
def ofKey (key : Text) (cause : Option Fault) : Skipped :=
  let (head, desc) := key.spanByte 40
  match head.splitLast? 46 with
  | some (owner, name) => mk owner (name ++ desc) cause
  | none => mk [] key cause

end Skipped

/-! ### Messages -/

/-- Gathers lines under their owners, each owner where it first occurs. -/
def groupLines (lines : List (Text × Text)) : List (Text × List Text) :=
  (lines.map Prod.fst).eraseDups.map fun owner =>
    (owner, (lines.filter (·.1 = owner)).map Prod.snd)

/-- A class name with points between its parts. -/
def pointed (name : Text) : Text := name.map fun b => if b = 47 then 46 else b

/-- The lines of one owner, under a heading. -/
def ownerBlock (owner : Text) (entries : List Text) : Text :=
  let line (entry : Text) : Text := "    - " ++ entry ++ "\n"
  "\n  " ++ pointed owner ++ ":\n" ++ entries.flatMap line

/-- The summary of skipped methods, from the owner and the line of each. -/
def summary (lines : List (Text × Text)) : Text :=
  if lines.isEmpty then "[weave] usage: no methods specified"
  else
    let blocks : Text := (groupLines lines).flatMap fun (owner, entries) => ownerBlock owner entries
    let whole : Text := "skipped " ++ Text.ofNat lines.length ++ " method(s):\n" ++ blocks
    whole.dropSuffix "\n"

/-- `text` behind `lead`, or nothing at all when it is empty. -/
def unlessEmpty (lead text : Text) : Text := if text.isEmpty then [] else lead ++ text

mutual

/-- The message of a fault. -/
def Fault.message : Fault → Text
  | .report phase kind method insn detail _ cause =>
    "[" ++ phase ++ "] " ++ kind ++ unlessEmpty " in " method ++ unlessEmpty " at " insn
      ++ unlessEmpty ": " detail ++ causeMessage cause
  | .note text => text
  | .context before cause after => before ++ cause.message ++ after
  | .badMagic => "invalid class file magic"
  | .badVersion => "unsupported class file version"
  | .truncated => "truncated input"
  | .endOfInput => "EOF"
  | .skipped methods => summary (skippedLines methods)

/-- How a cause ends the message of its report. -/
def causeMessage : Option Fault → Text
  | none => []
  | some f => " (caused by: " ++ f.message ++ ")"

/-- The owner of each skipped method and its line. -/
def skippedLines : List Skipped → List (Text × Text)
  | [] => []
  | s :: rest => skippedLine s :: skippedLines rest

def skippedLine : Skipped → Text × Text
  | .mk owner name none => (owner, name)
  | .mk owner name (some f) => (owner, name ++ ": " ++ f.message)

end

namespace Fault

/-! ### Making faults -/

/-- A report with a detail and nothing else. -/
def plain (phase : Phase) (kind : FaultKind) (detail : Text) : Fault :=
  .report phase kind [] [] detail none none

def usage (phase : Phase) (detail : Text) : Fault := plain phase .usage detail

def invariant (phase : Phase) (detail : Text) : Fault := plain phase .invariant detail

def unsupported (phase : Phase) (what : Text) : Fault := plain phase .unsupported what

def invalidData (phase : Phase) (detail : Text) : Fault := plain phase .invalidData detail

def outOfBounds (phase : Phase) (what : Text) (index length : Int) : Fault :=
  .report phase .outOfBounds [] []
    (what ++ " index " ++ Text.ofInt index ++ " out of bounds (length " ++ Text.ofInt length
      ++ ")")
    (some (Text.ofInt index)) none

def notFound (phase : Phase) (what name : Text) : Fault :=
  plain phase .notFound (what ++ " " ++ name.quote ++ " not found")

/-- A report about another fault. -/
def wrap (phase : Phase) (kind : FaultKind) (cause : Option Fault) (detail : Text) : Fault :=
  .report phase kind [] [] detail none cause

/-- Another fault behind a text and a colon. -/
def under (text : Text) (cause : Fault) : Fault := .context (text ++ ": ") cause []

/-- What may be a fault behind a text and a colon; nothing there is shown as such. -/
def under? (text : Text) : Option Fault → Fault
  | some cause => under text cause
  | none => .note (text ++ ": %!w(<nil>)")

/-- A report with the value it is about. -/
def about (phase : Phase) (kind : FaultKind) (value detail : Text) : Fault :=
  .report phase kind [] [] detail (some value) none

/-- Names the method of a report that names none; any other fault becomes the cause of a
weaving report on the method. -/
def inMethod (method : Text) : Fault → Fault
  | .report phase kind [] insn detail value cause =>
    .report phase kind method insn detail value cause
  | f@(.report ..) => f
  | f => .report .weave .invalidData method [] [] none (some f)

/-- The summary of the methods with these keys; a method beyond the causes has none. -/
def skippedMethods (keys : List Text) (causes : List (Option Fault)) : Fault :=
  .skipped ((keys.zipIdx).map fun (key, n) => Skipped.ofKey key (causes[n]?.join))

/-! ### Reading faults -/

/-- The fault directly behind this one. -/
def cause? : Fault → Option Fault
  | .report _ _ _ _ _ _ cause => cause
  | .context _ cause _ => some cause
  | _ => none

/-- A fault and all faults behind it, outermost first. -/
def chain : Fault → List Fault
  | f@(.report _ _ _ _ _ _ (some cause)) => f :: cause.chain
  | f@(.context _ cause _) => f :: cause.chain
  | f => [f]

/-- Whether the chain holds a report of the kind. -/
def hasKind (kind : FaultKind) (f : Fault) : Bool :=
  f.chain.any fun
    | .report _ k .. => k = kind
    | _ => false

/-- Whether the chain holds a report of the phase and kind. -/
def isReport (phase : Phase) (kind : FaultKind) (f : Fault) : Bool :=
  f.chain.any fun
    | .report p k .. => p = phase && k = kind
    | _ => false

/-- The skipped methods of the first summary in the chain. -/
def skipped? (f : Fault) : Option (List Skipped) :=
  f.chain.findSome? fun
    | .skipped methods => some methods
    | _ => none

/-- The value of the outermost report. -/
def value? (f : Fault) : Option Text :=
  (f.chain.findSome? fun
    | .report _ _ _ _ _ value _ => some value
    | _ => none).join

/-- Phase, kind, method, instruction and detail of the outermost report. -/
def fields? (f : Fault) : Option (List Text) :=
  f.chain.findSome? fun
    | .report phase kind method insn detail _ _ => some [phase, kind, method, insn, detail]
    | _ => none

/-- The class of a fault: phase and kind of its outermost report, or what else the chain
holds. -/
def label (f : Fault) : Text :=
  let report := f.chain.findSome? fun
    | .report phase kind .. => some (phase ++ "/" ++ kind)
    | _ => none
  let other := f.chain.findSome? fun
    | .skipped _ => some (utf8 "skipped")
    | .badMagic => some (utf8 "invalid_magic")
    | .badVersion => some (utf8 "invalid_version")
    | .truncated => some (utf8 "truncated")
    | .endOfInput => some (utf8 "eof")
    | _ => none
  (report <|> other).getD "plain"

end Fault

/-! ### Outcomes -/

/-- How an operation can fail. -/
inductive Failure where
  /-- Applied to something it is not defined on. -/
  | undefined
  | fault (f : Fault)

namespace Failure

/-- Changes the fault of a failure; an undefined operation stays undefined. -/
def map (g : Fault → Fault) : Failure → Failure
  | undefined => undefined
  | fault f => fault (g f)

end Failure

/-- A result, or why there is none. -/
abbrev Outcome := Except Failure

namespace Outcome

/-- Fails with a fault. -/
def fail {α : Type _} (f : Fault) : Outcome α := .error (.fault f)

/-- The operation is not defined here. -/
def undefined {α : Type _} : Outcome α := .error .undefined

/-- Changes the fault of an outcome. -/
def mapFault {α : Type _} (g : Fault → Fault) : Outcome α → Outcome α
  | .ok a => .ok a
  | .error e => .error (e.map g)

/-- Names the method in the fault of an outcome. -/
def inMethod {α : Type _} (method : Text) (x : Outcome α) : Outcome α :=
  x.mapFault (Fault.inMethod method)

/-- Puts a text and a colon in front of the fault of an outcome. -/
def under {α : Type _} (text : Text) (x : Outcome α) : Outcome α :=
  x.mapFault (Fault.under text)

end Outcome

/-- The failure to report about an instruction: undefined when it has no listing text. -/
def Insn.blame (i : Insn) (phase : Phase) (kind : FaultKind) (detail : Text)
    (value : Option Text) (cause : Option Fault) : Failure :=
  match i.text? with
  | some text => .fault (.report phase kind [] text detail value cause)
  | none => .undefined

/-- Reads a method descriptor, with a note as the fault. -/
def Descriptor.parse (desc : Text) : Except Fault MethodType :=
  match Descriptor.parseMethod desc with
  | .ok t => .ok t
  | .error e => .error (.note e.message)

end ClassWeaver
