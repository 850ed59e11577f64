import ClassWeaver.Generator.Discovery
import ClassWeaver.Region
import ClassWeaver.Stack.Heights

/-!
# Assembling a state machine

The body of a generator becomes a method that can be called again and again. Its head sets
the captured locals to zero and jumps to where the method was suspended. Behind each yield
call the locals go into fields, the state is recorded and the method returns true; the resume
label follows, and the locals come back from the fields. Behind a break call the method
returns false.

The body passes through a buffer on its way. A region is opened where an expression starts on
an empty stack, and it is closed in front of the first instruction that may not wait, so code
is only ever spliced in between two complete expressions. This is why a yield call must leave
the stack empty.
-/

namespace ClassWeaver

/-- A method that is to be made resumable. -/
structure Generator where
  settings : Settings
  owner : Text
  name : Text
  desc : Text
  /-- The first local behind the parameters. -/
  paramEnd : UInt16

/-- What a call means to a generator. -/
inductive CallRole where
  | plain
  | yields
  | breaks
  deriving DecidableEq, Repr

namespace Generator

/-- The generator of a method, if its descriptor can be read. -/
def create (settings : Settings) (owner name desc : Text) : Except Fault Generator :=
  match Descriptor.parse desc with
  | .ok t => .ok { settings, owner, name, desc, paramEnd := (t.paramSlots + 1).toUInt16 }
  | .error e => .error (.report .weave .invalidData (name ++ desc) [] [] none (some e))

/-- Name and descriptor of the method. -/
def key (g : Generator) : Text := g.name ++ g.desc

def stateField (g : Generator) : Text := g.settings.stateFieldName g.name

/-- What the instruction means to the generator. -/
def role (g : Generator) (i : Insn) : CallRole :=
  if g.settings.yieldSite.isCall i then .yields
  else if g.settings.breakSite.isCall i then .breaks
  else .plain

/-! ### Spliced code -/

/-- Pushes the zero of a family. -/
def zero : Family → Insn
  | .int => .plain .iconst0
  | .long => .plain .lconst0
  | .float => .plain .fconst0
  | .double => .plain .dconst0
  | .reference => .plain .aconstNull

/-- Pushes an integer with the shortest instruction. -/
def push (v : Int32) : Insn :=
  if -1 ≤ v && v ≤ 5 then .plain ⟨Opcode.iconst0.code + v.toInt⟩
  else if -128 ≤ v && v ≤ 127 then ⟨.bipush, .int v⟩
  else if -32768 ≤ v && v ≤ 32767 then ⟨.sipush, .int v⟩
  else ⟨.ldc, .constant (.int v)⟩

/-- Gives a local the zero of its family. -/
def clear (s : Slot) : List Insn :=
  [zero (.ofDescriptor s.desc), .load s.store s.index]

/-- Puts a local into its field. -/
def save (g : Generator) (s : Slot) : List Insn :=
  [.load .aload 0, .load s.load s.index, .access .putField g.owner s.name s.desc]

/-- Takes a local out of its field. -/
def restore (g : Generator) (s : Slot) : List Insn :=
  [.load .aload 0, .access .getField g.owner s.name s.desc, .load s.store s.index]

/-- Jumps to the resume label of the recorded state, if there are states. -/
def resumption (g : Generator) (start : Label) (targets : List Label) : List Insn :=
  if targets.isEmpty then []
  else
    [.load .aload 0, .access .getField g.owner g.stateField "I", .table 1 start targets]

/-- What stands in front of the body. Parameters keep the values they are called with. -/
def head (g : Generator) (slots : List Slot) (start : Label) (targets : List Label) :
    List Insn :=
  (slots.filter fun s => !(s.index < g.paramEnd)).flatMap clear
    ++ g.resumption start targets ++ [.place start]

/-- What stands behind a yield call. -/
def suspension (g : Generator) (slots : List Slot) (id : Nat) (resume : Label) : List Insn :=
  slots.flatMap g.save
    ++ [.load .aload 0, push (Int32.ofNat id), .access .putField g.owner g.stateField "I",
        .plain .iconst1, .plain .ireturn, .place resume]
    ++ slots.flatMap g.restore

/-- What stands behind a break call. -/
def termination : List Insn := [.plain .iconst0, .plain .ireturn]

end Generator

/-! ### Passing the body through -/

/-- A woven body in the making. -/
structure Assembly where
  /-- In front of the woven instructions, which are newest first. -/
  buffer : Buffer (List Insn)
  states : States
  /-- The resume labels placed so far, newest first. -/
  resumes : List Label := []

namespace Assembly

/-- Woven instructions are never refused. -/
def output : Discipline (List Insn) where
  take sink i := .ok (i :: sink)

/-- Lets out what waits as soon as an expression is complete. -/
def discipline (g : Generator) : Discipline (List Insn) where
  take sink i := .ok (i :: sink)
  onNeutral b := b.emitAll output
  strict := g.settings.strictClose

/-- Goes on with the buffer after an operation on it. -/
def settle (a : Assembly) : Buffer (List Insn) × Except Failure Unit → Outcome Assembly
  | (buffer, .ok ()) => .ok { a with buffer }
  | (_, .error e) => .error e

/-- Adds instructions behind those that were woven so far, past the buffer. -/
def splice (a : Assembly) (is : List Insn) : Assembly :=
  { a with buffer := { a.buffer with sink := is.reverse ++ a.buffer.sink } }

/-- Lets out what waits and closes the region. -/
def close (g : Generator) (a : Assembly) : Outcome Assembly := do
  let a ← a.settle (a.buffer.emitAll output)
  let buffer ← a.buffer.close (discipline g)
  return { a with buffer }

/-- Splices in a suspension. -/
def suspend (g : Generator) (a : Assembly) : Outcome Assembly :=
  if 0 < a.buffer.pending then
    Outcome.fail (.invariant .weave
      ("suspending with " ++ Text.ofNat a.buffer.pending ++ " buffered instructions"))
  else
    match a.states.take with
    | .error f => Outcome.fail f
    | .ok (id, states) =>
      match states.label? id with
      | none => Outcome.undefined
      | some resume =>
        .ok { (a.splice (g.suspension states.slots id resume)) with
              states, resumes := resume :: a.resumes }

/-- Checks that a yield or break call that is entered at `height` leaves the stack empty. -/
def checkStatement (g : Generator) (i : Insn) (height : Nat) : Outcome Unit := do
  if g.role i = .plain then return
  let after := height + (← i.change)
  if after ≠ 0 then
    .error (i.blame .weave .usage
      ("call leaves " ++ Text.ofInt after
        ++ " values on the stack; it must be a statement of its own")
      (some (Text.ofInt after)) none)

/-- Splices in what a call asks for. -/
def answer (g : Generator) (i : Insn) (a : Assembly) : Outcome Assembly :=
  match g.role i with
  | .plain => .ok a
  | .yields => a.suspend g
  | .breaks => .ok (a.splice Generator.termination)

/-- Opens a region in front of an admissible instruction that is entered with an empty
stack. -/
def openAt (i : Insn) (height : Option Nat) (a : Assembly) : Assembly :=
  if i.isAdmissible && height = some 0 then { a with buffer := a.buffer.start 0 } else a

/-- Weaves one instruction. -/
def step (g : Generator) (i : Insn) (height : Option Nat) (a : Assembly) : Outcome Assembly := do
  let a ← if a.buffer.isOpen && !i.isAdmissible then a.close g else pure a
  match height with
  | none => a.settle (a.buffer.visit (discipline g) i)
  | some h =>
    checkStatement g i h
    let a := a.openAt i height
    let a ← a.settle (a.buffer.visit (discipline g) i)
    a.answer g i

/-- Weaves the instruction at a node of the body. -/
def visit (g : Generator) (body : Listing) (heights : Heights) (a : Assembly) (r : Ref) :
    Outcome Assembly := do
  a.step g (← body.fetch r) (heights.at? r)

/-- Closes the last region and checks that no state is left over. -/
def finish (g : Generator) (a : Assembly) : Outcome Assembly := do
  let a ← (a.close g).inMethod g.key
  if 0 < a.states.remaining then
    let left := Text.ofNat a.states.remaining
    Outcome.fail (.report .weave .invariant g.key []
      (left ++ " of " ++ Text.ofNat a.states.count ++ " yield calls were not woven") (some left)
      none)
  else return a

/-- The woven listing, in which all labels of the body can be placed, and the nodes of its
resume labels. -/
def listing (a : Assembly) (body : Listing) : Listing × List Ref :=
  let l := body.fork.appendAll a.buffer.sink.reverse
  (l, a.resumes.reverse.filterMap l.binding)

end Assembly

/-! ### Building -/

/-- What became of a body: its listing with the labels that were handed out in it, its states,
and the woven listing with the nodes that backward scans must not cross. -/
structure Build where
  body : Listing
  states : States
  woven : Outcome (Listing × List Ref)

namespace Generator

/-- Passes a body with known heights through an assembly. -/
def assemble (g : Generator) (heights : Heights) (body : Listing) (states : States) : Build :=
  let (start, body) := body.newLabel
  let (targets, states, body) := states.labelAll body
  let initial : Assembly :=
    { buffer := { sink := (g.head states.slots start targets).reverse }, states }
  match Listing.feed (Assembly.visit g body heights) initial body.refs with
  | (a, some e) => { body, states := a.states, woven := .error (e.map (Fault.inMethod g.key)) }
  | (a, none) =>
    { body, states := a.states, woven := (a.finish g).map fun a => a.listing body }

/-- Makes a body resumable. All labels that the head needs are handed out in the body's
listing first, so that none handed out later in the woven listing can be one of them. -/
def build (g : Generator) (body : Listing) (states : States) : Build :=
  match body.heights with
  | .error e => { body, states, woven := .error (e.map (Fault.inMethod g.key)) }
  | .ok heights => g.assemble heights body states

end Generator

end ClassWeaver
