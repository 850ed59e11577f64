import ClassWeaver.Selection.Pattern
import ClassWeaver.Text.Lowercase
import ClassWeaver.Transform
import ClassWeaver.Yaml.Node

/-!
# Configuration

A configuration file says which calls and methods are meant and what to do about failures.
Keys that are not known are refused, so that a misspelt one cannot pass unnoticed. A key
without a value leaves its setting as it is.
-/

namespace ClassWeaver

/-- The settings of a configuration file, as they are written there. -/
structure Config where
  yieldCall : CallSite := {}
  breakCall : CallSite := {}
  stateField : Text := []
  slotField : Text := []
  onError : Text := []
  logLevel : Text := []
  methods : List Text := []
  strictClose : Bool := false

/-! ### Reading -/

namespace Config

/-- The fault of a file that is no configuration. -/
def unreadable : Fault := .wrap .config .invalidData none "parse config"

/-- What was read, or the fault that nothing was. -/
def orUnreadable {α : Type} : Option α → Outcome α
  | some a => .ok a
  | none => Outcome.fail unreadable

/-- The value of a node by `read`, or `dflt` if the node stands for none. -/
def value {α : Type} (read : Yaml.Node → Outcome α) (dflt : α) (n : Yaml.Node) : Outcome α :=
  if n.isNull then .ok dflt else read n

def text (dflt : Text) : Yaml.Node → Outcome Text := value (fun n => orUnreadable n.text?) dflt

/-- Reads a mapping field by field. -/
def mapping {α : Type} (set : α → Yaml.Node.Field → Outcome α) (a : α) (n : Yaml.Node) :
    Outcome α :=
  if n.isMuddled then Outcome.undefined
  else do (← orUnreadable n.fields?).foldlM set a

/-- Sets the part of a call site that a key names. -/
def setPart (c : CallSite) : Yaml.Node.Field → Outcome CallSite
  | (key, n) =>
    if key = utf8 "owner" then do return { c with owner := ← text c.owner n }
    else if key = utf8 "name" then do return { c with name := ← text c.name n }
    else if key = utf8 "desc" then do return { c with desc := ← text c.desc n }
    else Outcome.fail unreadable

/-- Reads a call site. -/
def callSite : Yaml.Node → Outcome CallSite := value (mapping setPart {}) {}

/-- Sets what a key names. -/
def setField (c : Config) : Yaml.Node.Field → Outcome Config
  | (key, n) =>
    if key = utf8 "yield" then do return { c with yieldCall := ← callSite n }
    else if key = utf8 "break" then do return { c with breakCall := ← callSite n }
    else if key = utf8 "state_field" then do return { c with stateField := ← text c.stateField n }
    else if key = utf8 "slot_prefix" then do return { c with slotField := ← text c.slotField n }
    else if key = utf8 "on_error" then do return { c with onError := ← text c.onError n }
    else if key = utf8 "log_level" then do return { c with logLevel := ← text c.logLevel n }
    else if key = utf8 "methods" then do
      return { c with methods := ← value (fun n => orUnreadable n.texts?) [] n }
    else if key = utf8 "strict_close" then do
      return { c with strictClose := ← value (fun n => orUnreadable n.flag?) c.strictClose n }
    else Outcome.fail unreadable

/-- Reads a configuration from a document. -/
def ofNode : Yaml.Node → Outcome Config := value (mapping setField {}) {}

/-- Reads a configuration file. -/
def parse (t : Text) : Outcome Config := do ofNode (← orUnreadable (Yaml.Node.ofText? t))

/-! ### Meaning -/

/-- The policy for methods that cannot be woven. -/
def policy (c : Config) : Except Fault OnError :=
  let word := c.onError.lower
  if word.isEmpty || word = utf8 "skip" then .ok .skip
  else if word = utf8 "abort" then .ok .abort
  else
    .error (.about .config .usage c.onError
      ("on_error: unknown policy " ++ c.onError.quote ++ " (want skip or abort)"))

/-- The settings for the weaver. -/
def settings (c : Config) : Settings where
  yieldCall := c.yieldCall
  breakCall := c.breakCall
  stateField := c.stateField
  slotField := c.slotField
  strictClose := c.strictClose

/-- What to transform, and how. -/
def plan (c : Config) : Except Fault Plan := do
  let onError ← c.policy
  let patterns ← Pattern.parseAll c.methods
  return {
    selects := if c.methods.isEmpty then none else some (selectedBy patterns)
    settings := c.settings
    onError }

end Config

/-! ### Log levels -/

/-- How much is logged. -/
inductive LogLevel where
  | debug | info | warn | error | dpanic | panic | fatal
  deriving DecidableEq, Repr

namespace LogLevel

def all : List LogLevel := [debug, info, warn, error, dpanic, panic, fatal]

def name : LogLevel → Text
  | debug => "debug"
  | info => "info"
  | warn => "warn"
  | error => "error"
  | dpanic => "dpanic"
  | panic => "panic"
  | fatal => "fatal"

/-- Reads a level in any case; warnings when there is none. -/
def parse (t : Text) : Except Fault LogLevel :=
  if t.isEmpty then .ok warn
  else
    match all.find? (·.name = t.lower) with
    | some level => .ok level
    | none =>
      .error (.wrap .config .usage (some (.note ("unrecognized level: " ++ t.quote))) "log_level")

end LogLevel

end ClassWeaver
