import Mathlib.Logic.Function.Basic
import ClassWeaver.Proofs.Generator.Splices

/-!
# Running listings

What a listing does depends on what its instructions mean. A `Machine` is any meaning of the
instructions as transformers of a frame (operand stack, locals and heap) that honours their
stack effects, lets control go only where the instruction can send it, and changes a local only
by a write to it. The few instructions that are spliced into generators have their usual
meaning. Everything else is left open, exceptions included: `Machine.run` may throw wherever
it likes, and `Machine.catches` decides which exception entries apply.

The fields that weaving adds to a class are kept apart from the heap (`Machine.exec`), so that
no transformer can touch them.

A `Course` is how far a generator has got: the instructions it has executed, each with the
frame it was executed on, the values it has answered, and where it stands. There are two ways
to get on. `Generator.bodyStep` runs the body itself, once: a yield call answers true and the
run goes on, a break call answers false and ends it. `Machine.callStep` calls a method again
and again, each time on a fresh frame, and keeps nothing between two calls but the heap and
the added fields.
-/

namespace ClassWeaver

/-! ### Frames and transformers -/

/-- What instructions work on. The top of the stack comes first. -/
structure Frame (V Heap : Type) where
  stack : List V
  locals : UInt16 → V
  heap : Heap

/-- How an instruction ends. -/
inductive Completion (V Heap : Type) where
  | falls (after : Frame V Heap)
  | jumps (target : Label) (after : Frame V Heap)
  | returns (value : Option V) (heap : Heap)
  | throws (exception : V) (heap : Heap)

/-- The frame that an instruction leaves, if control stays in the method. -/
def Completion.after? {V Heap : Type} : Completion V Heap → Option (Frame V Heap)
  | falls f => some f
  | jumps _ f => some f
  | returns _ _ => none
  | throws _ _ => none

/-- Where a table switch goes for a key. -/
def tableTarget (low high : Int32) (dflt : Label) (targets : List Label) (key : Int32) : Label :=
  if low ≤ key ∧ key ≤ high then targets.getD (key.toInt - low.toInt).toNat dflt else dflt

/-- The local whose value an instruction replaces. -/
def Insn.overwrites (i : Insn) (n : UInt16) : Prop :=
  (Survey.writtenFamily? i.opcode).isSome = true ∧ i.slot? = some n

/-- A meaning of the instructions. -/
structure Machine (V Heap : Type) where
  run : Insn → Frame V Heap → Completion V Heap
  /-- Whether an exception entry for a class catches an exception. -/
  catches : (caught : Text) → (exception : V) → Heap → Bool
  /-- The value of an integer. -/
  int : Int32 → V
  /-- The value that locals of a family are cleared to. -/
  zero : Family → V
  fallsThrough_of_falls {i : Insn} {f f' : Frame V Heap} :
    run i f = .falls f' → i.fallsThrough = true
  mem_branches_of_jumps {i : Insn} {f f' : Frame V Heap} {target : Label} :
    run i f = .jumps target f' → target ∈ i.branches
  length_stack {i : Insn} {f f' : Frame V Heap} {e : Effect} : i.effect = .ok e →
    e.pops ≤ f.stack.length → (run i f).after? = some f' →
      f'.stack.length = f.stack.length - e.pops + e.pushes
  locals_eq {i : Insn} {f f' : Frame V Heap} {n : UInt16} : (run i f).after? = some f' →
    ¬i.overwrites n → f'.locals n = f.locals n
  run_pseudo {i : Insn} (f : Frame V Heap) : i.opcode.isPseudo = true → run i f = .falls f
  run_load (family : Family) (n : UInt16) (f : Frame V Heap) :
    run (.load family.load n) f = .falls { f with stack := f.locals n :: f.stack }
  run_store (family : Family) (n : UInt16) (v : V) (rest : List V) (f : Frame V Heap) :
    f.stack = v :: rest → run (.load family.store n) f =
      .falls { f with stack := rest, locals := Function.update f.locals n v }
  run_push (k : Int32) (f : Frame V Heap) :
    run (Generator.push k) f = .falls { f with stack := int k :: f.stack }
  run_zero (family : Family) (f : Frame V Heap) :
    run (Generator.zero family) f = .falls { f with stack := zero family :: f.stack }
  run_table (low high : Int32) (dflt : Label) (targets : List Label) (k : Int32) (rest : List V)
    (f : Frame V Heap) : f.stack = int k :: rest →
      run ⟨.tableSwitch, .tableSwitch low high dflt targets⟩ f =
        .jumps (tableTarget low high dflt targets k) { f with stack := rest }
  run_ireturn (v : V) (rest : List V) (f : Frame V Heap) : f.stack = v :: rest →
    run (.plain .ireturn) f = .returns (some v) f.heap

/-! ### Added fields -/

/-- Owner, name and descriptor of a field. -/
abbrev FieldKey := Text × Text × Text

/-- The values of added fields, for each object. -/
abbrev Fields (V : Type) := V → FieldKey → V

/-- The instance field that an instruction reads or writes. -/
def Insn.instanceField? (i : Insn) : Option FieldKey :=
  if i.opcode = .getField ∨ i.opcode = .putField then
    match i.operand with
    | .field owner name desc => some (owner, name, desc)
    | _ => none
  else none

namespace Fields

variable {V : Type} [DecidableEq V]

def put (fields : Fields V) (object : V) (key : FieldKey) (v : V) : Fields V :=
  Function.update fields object (Function.update (fields object) key v)

end Fields

/-! ### Exception entries -/

namespace Listing

/-- The place of a node in the sequence. -/
def position (l : Listing) (r : Ref) : Nat := l.refs.idxOf r

/-- Whether a node lies between the placements of two labels. -/
def covers (l : Listing) (start stop : Label) (r : Ref) : Bool :=
  match l.binding start, l.binding stop with
  | some a, some b => l.position a ≤ l.position r && l.position r < l.position b
  | _, _ => false

/-- The handler that an exception entry has for an exception at a node. -/
def entryHandler? (l : Listing) (catches : Text → Bool) (r : Ref) (i : Insn) : Option Ref :=
  match i.operand with
  | .tryCatch start stop handler caught =>
    if i.opcode = .tryCatch ∧ l.covers start stop r = true ∧ catches caught = true then
      l.binding handler
    else none
  | _ => none

/-- The handler of the first exception entry that applies at a node. -/
def handler? (l : Listing) (catches : Text → Bool) (r : Ref) : Option Ref :=
  l.insns.findSome? (l.entryHandler? catches r)

end Listing

/-! ### One instruction -/

/-- A method in execution. -/
structure Activation (V Heap : Type) where
  pc : Ref
  frame : Frame V Heap
  fields : Fields V

/-- Where control goes after an instruction: to another one, or out of the method. -/
inductive Transfer (V Heap : Type) where
  | goes (s : Activation V Heap)
  | returned (value : Option V) (heap : Heap) (fields : Fields V)
  | threw (exception : V) (heap : Heap)

namespace Machine

variable {V Heap : Type} [DecidableEq V] (M : Machine V Heap) (added : List FieldKey)

/-- Executes an instruction. Access to an added field is no matter of the machine. -/
def exec (i : Insn) (f : Frame V Heap) (fields : Fields V) :
    Option (Completion V Heap × Fields V) :=
  match i.instanceField?.filter (· ∈ added) with
  | none => some (M.run i f, fields)
  | some key =>
    if i.opcode = .getField then
      match f.stack with
      | object :: rest => some (.falls { f with stack := fields object key :: rest }, fields)
      | [] => none
    else
      match f.stack with
      | v :: object :: rest => some (.falls { f with stack := rest }, fields.put object key v)
      | _ => none

/-- Where control goes from an activation when its instruction ends. An exception leaves
nothing on the stack but itself. -/
def transfer (l : Listing) (s : Activation V Heap) (fields : Fields V) :
    Completion V Heap → Option (Transfer V Heap)
  | .falls f => (l.next (some s.pc)).map fun r => .goes ⟨r, f, fields⟩
  | .jumps target f => (l.binding target).map fun r => .goes ⟨r, f, fields⟩
  | .returns v heap => some (.returned v heap fields)
  | .throws e heap =>
    match l.handler? (fun caught => M.catches caught e heap) s.pc with
    | some r => some (.goes ⟨r, ⟨[e], s.frame.locals, heap⟩, fields⟩)
    | none => some (.threw e heap)

end Machine

/-! ### Courses -/

/-- Where a generator stands: in the method, at its end, or thrown out of it. -/
inductive Standing (V Heap : Type) where
  | running (s : Activation V Heap)
  | ended (heap : Heap)
  | failed (exception : V) (heap : Heap)

/-- How far a generator has got. -/
structure Course (V Heap : Type) where
  /-- The instructions executed so far, with the frames they were executed on. -/
  trace : List (Insn × Frame V Heap)
  answers : List (Option V)
  standing : Standing V Heap

namespace Course

variable {V Heap : Type}

/-- The course after some steps, if it goes on that long. -/
def after (step : Course V Heap → Option (Course V Heap)) :
    Nat → Course V Heap → Option (Course V Heap)
  | 0, c => some c
  | n + 1, c => (step c).bind (after step n)

end Course

section Steps

variable {V Heap : Type} [DecidableEq V]

/-- One step of a single run of the body. A yield call that comes to its end answers true, a
break call answers false and ends the run, and a return answers its value. -/
def Generator.bodyStep (g : Generator) (M : Machine V Heap) (added : List FieldKey)
    (body : Listing) (c : Course V Heap) : Option (Course V Heap) :=
  match c.standing with
  | .running s => do
    let i ← body.insn? s.pc
    let (ending, fields) ← M.exec added i s.frame s.fields
    let trace := c.trace ++ [(i, s.frame)]
    match g.role i, ending with
    | .breaks, .falls f => return ⟨trace, c.answers ++ [some (M.int 0)], .ended f.heap⟩
    | .yields, .falls f =>
      let r ← body.next (some s.pc)
      return ⟨trace, c.answers ++ [some (M.int 1)], .running ⟨r, f, fields⟩⟩
    | _, ending =>
      match ← M.transfer body s fields ending with
      | .goes s => return ⟨trace, c.answers, .running s⟩
      | .returned v heap _ => return ⟨trace, c.answers ++ [v], .ended heap⟩
      | .threw e heap => return ⟨trace, c.answers, .failed e heap⟩
  | _ => none

/-- One step of calling a method again and again, where call `k` gets the locals `locals k`.
Only the nodes in `own` are traced. -/
def Machine.callStep (M : Machine V Heap) (added : List FieldKey) (l : Listing)
    (own : List Ref) (locals : Nat → UInt16 → V) (c : Course V Heap) :
    Option (Course V Heap) :=
  match c.standing with
  | .running s => do
    let i ← l.insn? s.pc
    let (ending, fields) ← M.exec added i s.frame s.fields
    let trace := if s.pc ∈ own then c.trace ++ [(i, s.frame)] else c.trace
    match ← M.transfer l s fields ending with
    | .goes s => return ⟨trace, c.answers, .running s⟩
    | .returned v heap fields =>
      let entry ← l.first
      let frame := ⟨[], locals (c.answers.length + 1), heap⟩
      return ⟨trace, c.answers ++ [v], .running ⟨entry, frame, fields⟩⟩
    | .threw e heap => return ⟨trace, c.answers, .failed e heap⟩
  | _ => none

end Steps

end ClassWeaver
