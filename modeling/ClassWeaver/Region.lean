import ClassWeaver.Stack.Effect

/-!
# Regions of waiting instructions

A buffer stands in front of a consumer of instructions. While a region is open, admissible
instructions wait in a queue instead of going through, and the buffer follows the height of
the stack they would leave. Whenever that height returns to zero a hook runs, which may let
waiting instructions out: code that is spliced in at that moment lies between two complete
expressions.
-/

namespace ClassWeaver

/-- An open region. -/
structure Region where
  /-- The waiting instructions, newest first. -/
  queue : List Insn := []
  height : Int

/-- A buffer in front of a consumer whose state is a `σ`. -/
structure Buffer (σ : Type) where
  sink : σ
  region : Option Region := none

/-- How a buffer behaves: how its consumer takes an instruction, what to do when the height
of a region returns to zero, and whether a region must be closed at height zero. -/
structure Discipline (σ : Type) where
  take : σ → Insn → Except Failure σ
  onNeutral : Buffer σ → Buffer σ × Except Failure Unit := fun b => (b, .ok ())
  strict : Bool := false

namespace Buffer

variable {σ : Type}

/-- Opens a region, unless one is open. -/
def start (b : Buffer σ) (height : Int) : Buffer σ :=
  match b.region with
  | some _ => b
  | none => { b with region := some { height } }

def isOpen (b : Buffer σ) : Bool := b.region.isSome

/-- The height of the open region; zero when there is none. -/
def height (b : Buffer σ) : Int :=
  match b.region with
  | some g => g.height
  | none => 0

/-- The waiting instructions, oldest first. -/
def waiting (b : Buffer σ) : List Insn :=
  match b.region with
  | some g => g.queue.reverse
  | none => []

/-- The number of waiting instructions. -/
def pending (b : Buffer σ) : Nat :=
  match b.region with
  | some g => g.queue.length
  | none => 0

/-- Closes the open region. Waiting instructions would be lost, so there must be none. -/
def close (d : Discipline σ) (b : Buffer σ) : Except Failure (Buffer σ) :=
  match b.region with
  | none => .ok b
  | some g =>
    if 0 < g.queue.length then
      Outcome.fail (.usage .buffer
        ("closing region with " ++ Text.ofNat g.queue.length ++ " queued instructions"))
    else if d.strict && g.height ≠ 0 then
      Outcome.fail (.usage .buffer ("closing region at height " ++ Text.ofInt g.height))
    else .ok { b with region := none }

/-- Hands instructions to the consumer until it refuses one: the consumer, what was not
handed over, and the refusal. The refused instruction is gone. -/
def deliver (d : Discipline σ) : σ → List Insn → σ × List Insn × Except Failure Unit
  | sink, [] => (sink, [], .ok ())
  | sink, i :: rest =>
    match d.take sink i with
    | .ok sink => deliver d sink rest
    | .error e => (sink, rest, .error e)

/-- Lets the `n` oldest waiting instructions out. -/
def emit (d : Discipline σ) (b : Buffer σ) (n : Int) : Buffer σ × Except Failure Unit :=
  let refuse (detail : Text) : Buffer σ × Except Failure Unit :=
    (b, Outcome.fail (.about .buffer .usage (Text.ofInt n) detail))
  if n ≤ 0 then refuse ("emit count " ++ Text.ofInt n ++ " <= 0")
  else if b.pending < n then
    refuse ("emit count " ++ Text.ofInt n ++ " exceeds " ++ Text.ofNat b.pending ++ " queued")
  else
    match b.region with
    | none => (b, .ok ())
    | some g =>
      let (out, kept) := g.queue.reverse.splitAt n.toNat
      let (sink, left, result) := deliver d b.sink out
      ({ sink, region := some { g with queue := (left ++ kept).reverse } }, result)

/-- Lets all waiting instructions out; there need not be any. -/
def emitAll (d : Discipline σ) (b : Buffer σ) : Buffer σ × Except Failure Unit :=
  if 0 < b.pending then b.emit d b.pending else (b, .ok ())

/-- Takes an instruction into the open region `g` of `b`. -/
def enqueue (b : Buffer σ) (g : Region) (i : Insn) : Except Failure (Buffer σ) :=
  if i.isAdmissible then do
    let e ← i.effect
    let height := g.height + e.pushes - e.pops
    if height < 0 then
      .error (i.blame .buffer .invariant ("region height would drop to " ++ Text.ofInt height)
        (some (Text.ofInt height)) none)
    else return { b with region := some { queue := i :: g.queue, height } }
  else
    .error (i.blame .buffer .usage (i.opcode.shape.name ++ " is not allowed inside a region")
      none none)

/-- Passes an instruction on, or queues it while a region is open. -/
def visit (d : Discipline σ) (b : Buffer σ) (i : Insn) : Buffer σ × Except Failure Unit :=
  match b.region with
  | none =>
    match d.take b.sink i with
    | .ok sink => ({ b with sink }, .ok ())
    | .error e => (b, .error e)
  | some g =>
    match b.enqueue g i with
    | .error e => (b, .error e)
    | .ok b => if b.height = 0 then d.onNeutral b else (b, .ok ())

end Buffer

end ClassWeaver
