import ClassWeaver.Config
import ClassWeaver.Printout

/-!
# The command line

Options stand in front of everything else. One or two dashes begin an option; a text option
takes its value behind an equals sign or from the next argument, and a switch only behind an
equals sign. A lone `--`, and anything that is no option, ends the options.

`CommandLine.run` is the whole program but for two things that it leaves to its caller: how a
file is read, which it is given, and the writing of the woven class, which it asks for in its
answer. `Session.wrote` says what follows the attempt to write.
-/

namespace ClassWeaver

/-- The options of a call. -/
structure Options where
  input : Text := []
  output : Text := []
  config : Text := []
  methods : Text := []
  onError : Text := []
  logLevel : Text := []
  strict : Bool := false
  list : Bool := false
  unwoven : Bool := false
  interactive : Bool := false
  deriving DecidableEq, Repr

namespace Options

/-- What an option holds, and how to set it. -/
inductive Kind where
  | text (set : Options → Text → Options)
  | switch (set : Options → Bool → Options)

/-- The options by name. -/
def kind? (name : Text) : Option Kind :=
  let table : List (Text × Kind) := [
    ("in", .text fun o v => { o with input := v }),
    ("out", .text fun o v => { o with output := v }),
    ("config", .text fun o v => { o with config := v }),
    ("method", .text fun o v => { o with methods := v }),
    ("on-error", .text fun o v => { o with onError := v }),
    ("log-level", .text fun o v => { o with logLevel := v }),
    ("strict", .switch fun o v => { o with strict := v }),
    ("list", .switch fun o v => { o with list := v }),
    ("original", .switch fun o v => { o with unwoven := v }),
    ("i", .switch fun o v => { o with interactive := v })]
  (table.find? (·.1 = name)).map Prod.snd

/-- Reads the value of a switch. -/
def flag? (t : Text) : Option Bool :=
  if (["1", "t", "T", "TRUE", "true", "True"].map utf8).contains t then some true
  else if (["0", "f", "F", "FALSE", "false", "False"].map utf8).contains t then some false
  else none

/-- Why options cannot be read. -/
inductive Problem where
  /-- The description of the options was asked for. -/
  | help
  | malformed
  deriving DecidableEq, Repr

/-- The name of an option without its dashes. -/
def bare? : Text → Option Text
  | 45 :: 45 :: name => some name
  | 45 :: name => some name
  | _ => none

/-- Reads an argument: an option with the value behind its equals sign, or no option. -/
def readArgument (arg : Text) : Except Problem (Option (Kind × Option Text)) :=
  if arg.length < 2 || arg = [45, 45] then .ok none
  else
    match bare? arg with
    | none => .ok none
    | some body =>
      let (name, value) := body.spanByte 61
      if name.isEmpty || name.head? = some 45 then .error .malformed
      else
        match kind? name with
        | some kind => .ok (some (kind, value.tail?))
        | none => .error (if name = utf8 "help" || name = utf8 "h" then .help else .malformed)

/-- Reads options up to the first argument that is none. -/
def parse (o : Options) : List Text → Except Problem Options
  | [] => .ok o
  | arg :: rest =>
    match readArgument arg with
    | .error p => .error p
    | .ok none => .ok o
    | .ok (some (.switch set, none)) => parse (set o true) rest
    | .ok (some (.switch set, some v)) =>
      match flag? v with
      | some b => parse (set o b) rest
      | none => .error .malformed
    | .ok (some (.text set, some v)) => parse (set o v) rest
    | .ok (some (.text set, none)) =>
      match rest with
      | v :: rest => parse (set o v) rest
      | [] => .error .malformed

/-- The configuration with the options that stand above it. -/
def applyTo (o : Options) (c : Config) : Config :=
  { c with
    methods := if o.methods.isEmpty then c.methods else o.methods.splitAtByte 44
    onError := o.onError.orElse c.onError
    logLevel := o.logLevel.orElse c.logLevel
    strictClose := o.strict || c.strictClose }

end Options

/-! ### Sessions -/

/-- What a call has printed, and its exit status. -/
structure Session where
  out : Text := []
  err : Text := []
  status : Nat := 0

/-- A file to be written. -/
structure Output where
  path : Text
  data : List UInt8

/-- How a call ends. -/
inductive Ending where
  | done
  /-- A file is to be written. -/
  | writes (output : Output)
  /-- The class file is to be shown. -/
  | shows (path : Text) (plan : Plan)

namespace Session

def print (s : Session) (t : Text) : Session := { s with out := s.out ++ t }

/-- Ends with a fault. -/
def fail (s : Session) (f : Fault) : Session :=
  { s with err := s.err ++ "Error: " ++ f.message ++ "\n", status := 1 }

/-- What follows the attempt to write a file. -/
def wrote (s : Session) (output : Output) : Except Fault Unit → Session
  | .ok () =>
    s.print ("Wrote " ++ output.path ++ " (" ++ Text.ofNat output.data.length ++ " bytes)\n")
  | .error f => s.fail (.under "write file" f)

end Session

namespace CommandLine

/-- What is printed when there is nothing to do. -/
def usage : Text :=
  "Usage: weave -in <File.class> [-out <File.class>] [-config weave.yaml] [-method pattern,...]\n"
    ++ "       weave -in <File.class> -list [-original]\n"
    ++ "       weave -in <File.class> -i  (interactive mode)\n"

/-- The line about a woven method. -/
def wovenLine (w : Woven) : Text :=
  "  woven " ++ w.method ++ ": " ++ Text.ofNat w.states ++ " states, "
    ++ Text.ofNat w.slots.length ++ " slots, max stack " ++ Text.ofNat w.maxStack ++ "\n"

/-- The lines about a class. -/
def overview (c : ClassFile) (report : Report) : Text :=
  "Class: " ++ c.name ++ "\n"
    ++ if report.woven.isEmpty then utf8 "  no generator methods found\n"
      else report.woven.flatMap wovenLine

/-- Reports on a woven class and asks for it to be written. -/
def deliver (o : Options) (s : Session) (c : ClassFile) (report : Report) :
    Outcome (Session × Ending) :=
  let s := s.print (overview c report)
  if report.woven.isEmpty then .ok (s, .done)
  else
    match c.encode with
    | .ok (data, _) => .ok (s, .writes ⟨o.output.orElse o.input, data⟩)
    | .error .undefined => Outcome.undefined
    | .error (.fault f) => .ok (s.fail (.under "encode" f), .done)

/-- Transforms a class and lists or writes it. -/
def weave (o : Options) (plan : Plan) (c : ClassFile) : Outcome (Session × Ending) :=
  match c.transform plan with
  | (_, .error .undefined) => Outcome.undefined
  | (_, .error (.fault f)) => .ok (({} : Session).fail f, .done)
  | (report, .ok c) =>
    let report := report.getD {}
    let s : Session :=
      match report.summary? with
      | some f => { err := f.message ++ "\n" }
      | none => {}
    if o.list then do return (s.print (← c.printout id), .done) else deliver o s c report

/-- Works on the class file. -/
def process (read : Text → Except Fault (List UInt8)) (o : Options) (plan : Plan) :
    Outcome (Session × Ending) :=
  match read o.input with
  | .error f => .ok (({} : Session).fail (.under "read file" f), .done)
  | .ok data =>
    match ClassFile.parse data with
    | .error f => .ok (({} : Session).fail (.under ("parse " ++ o.input) f), .done)
    | .ok c =>
      if o.list && o.unwoven then do return (({} : Session).print (← c.printout id), .done)
      else weave o plan c

/-- Reads the configuration file, if one is named. -/
def readConfig (read : Text → Except Fault (List UInt8)) (lacks : Text → Bool) (path : Text) :
    Outcome Config :=
  if path.isEmpty then .ok {}
  else if lacks path then Outcome.fail (.notFound .config "config file" path)
  else
    match read path with
    | .ok data => Config.parse data
    | .error f => Outcome.fail (.wrap .config .invalidData (some f) "read config")

/-- What to do with the options: the plan, after the log level was checked. -/
def prepare (read : Text → Except Fault (List UInt8)) (lacks : Text → Bool) (o : Options) :
    Outcome Plan := do
  let c := o.applyTo (← readConfig read lacks o.config)
  match LogLevel.parse c.logLevel, c.plan with
  | .error f, _ => Outcome.fail f
  | .ok _, .error f => Outcome.fail f
  | .ok _, .ok plan => return plan

/-- Runs a call. Files are read by `read`, and `lacks` says where there is none. -/
def run (read : Text → Except Fault (List UInt8)) (lacks : Text → Bool) (args : List Text) :
    Outcome (Session × Ending) :=
  match Options.parse {} args with
  | .error .help => .ok ({}, .done)
  | .error .malformed => .ok ({ status := 2 }, .done)
  | .ok o =>
    if o.input.isEmpty then .ok ({ err := usage, status := 1 }, .done)
    else
      match prepare read lacks o with
      | .error .undefined => Outcome.undefined
      | .error (.fault f) => .ok (({} : Session).fail f, .done)
      | .ok plan =>
        if o.interactive then .ok ({}, .shows o.input plan) else process read o plan

end CommandLine

end ClassWeaver
