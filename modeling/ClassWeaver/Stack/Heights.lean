import ClassWeaver.Listing.Basic
import ClassWeaver.Stack.Effect

/-!
# Stack heights

`Listing.heights` finds the height of the operand stack in front of every node that control
can reach. The head is entered with an empty stack and an exception handler with one value.
Two paths that meet must agree on the height, no instruction may take more values than there
are, and no path may run off the end.
-/

namespace ClassWeaver

/-- The entry height of every node that control reaches, and the deepest stack seen. -/
structure Heights where
  entry : Array (Option Nat)
  max : Nat := 0

namespace Heights

/-- The height on entry to a node that control reaches. -/
def at? (h : Heights) (r : Ref) : Option Nat := (h.entry[r]?).join

/-- The number of nodes that control reaches. -/
def count (h : Heights) : Nat := (h.entry.toList.filter Option.isSome).length

end Heights

/-- How control leaves an instruction: to a label, or to the node behind. -/
inductive Exit where
  | branch (target : Label)
  | fall
  deriving DecidableEq, Repr

/-- The exits of an instruction that is entered at height `before` and leaves `after`, each
with the height it carries. Behind a subroutine call the height is that before the call, for
the subroutine consumes its return address. -/
def Insn.exits (i : Insn) (before after : Nat) : List (Exit × Nat) :=
  match i.operand with
  | .jump target =>
    (.branch target, after) ::
      if i.opcode = .goto || i.opcode = .gotoW then []
      else if i.opcode = .jsr || i.opcode = .jsrW then [(.fall, before)]
      else [(.fall, after)]
  | .tableSwitch _ _ dflt targets => (dflt :: targets).map fun t => (.branch t, after)
  | .lookupSwitch dflt _ targets => (dflt :: targets).map fun t => (.branch t, after)
  | _ => if i.opcode = .ret then [] else [(.fall, after)]

/-- The values an instruction that ends the method must find on the stack. -/
def Insn.finalNeed? (i : Insn) : Option Nat :=
  if i.opcode.isReturn then some (if i.opcode = .voidReturn then 0 else 1)
  else if i.opcode = .athrow then some 1
  else none

/-- A height analysis in progress: nodes with a height whose exits are still to be followed
are in `work`. -/
structure Flow where
  heights : Heights
  work : List Ref := []

namespace Flow

/-- Control reaches `target` from `source` with this height. -/
def reach (l : Listing) (source : Insn) (target : Option Ref) (height : Nat) (s : Flow) :
    Outcome Flow :=
  match target with
  | none =>
    .error (source.blame .analyze .invariant "control falls off the end of the code" none none)
  | some r =>
    match s.heights.at? r with
    | some known =>
      if known = height then .ok s
      else do
        let i ← l.fetch r
        .error (i.blame .analyze .invariant
          ("stack height " ++ Text.ofNat height ++ " meets height " ++ Text.ofNat known)
          (some (Text.ofNat height)) none)
    | none =>
      .ok { heights :=
              { entry := s.heights.entry.setIfInBounds r (some height)
                max := Nat.max s.heights.max height }
            work := r :: s.work }

/-- The node that places a label `source` refers to. -/
def target (l : Listing) (source : Insn) (lbl : Label) : Outcome Ref :=
  match l.binding lbl with
  | some r => .ok r
  | none =>
    .error (source.blame .analyze .usage ("label " ++ Label.text lbl ++ " is not bound") none none)

/-- Follows the exits of the instruction at `r` in order. -/
def follow (l : Listing) (r : Ref) (i : Insn) : List (Exit × Nat) → Flow → Outcome Flow
  | [], s => .ok s
  | (.branch lbl, height) :: rest, s => do
    let t ← target l i lbl
    let s ← s.reach l i (some t) height
    follow l r i rest s
  | (.fall, height) :: rest, s => do
    let s ← s.reach l i (l.next (some r)) height
    follow l r i rest s

/-- The failure of an instruction that finds too few values. -/
def underflow (i : Insn) (height : Nat) : Failure :=
  i.blame .analyze .invariant ("stack underflow at height " ++ Text.ofNat height)
    (some (Text.ofNat height)) none

/-- Records a height that a stack had. -/
def note (height : Nat) (s : Flow) : Flow :=
  { s with heights := { s.heights with max := Nat.max s.heights.max height } }

/-- Executes the node `r`, entered at `height`, and reaches its successors. -/
def step (l : Listing) (r : Ref) (height : Nat) (s : Flow) : Outcome Flow := do
  let i ← l.fetch r
  match i.finalNeed? with
  | some need => if height < need then .error (underflow i height) else .ok s
  | none =>
    let e ← i.effect
    if height < e.pops then .error (underflow i height)
    else
      let after := height - e.pops + e.pushes
      follow l r i (i.exits height after) (s.note after)

/-- Works until no node is left. Every node enters the work list at most once, so the number
of nodes is enough fuel. -/
def run (l : Listing) : (fuel : Nat) → Flow → Outcome Flow
  | 0, s => .ok s
  | fuel + 1, s =>
    match s.work with
    | [] => .ok s
    | r :: rest => do
      let s' ← step l r ((s.heights.at? r).getD 0) { s with work := rest }
      run l fuel s'

/-- Enters the handlers of exception entries, in the order of the entries. -/
def enterHandlers (l : Listing) : List Insn → Flow → Outcome Flow
  | [], s => .ok s
  | i :: rest, s =>
    if i.opcode = .tryCatch then
      match i.operand with
      | .tryCatch _ _ handler _ => do
        let t ← target l i handler
        let s ← s.reach l i (some t) 1
        enterHandlers l rest s
      | _ => Outcome.undefined
    else enterHandlers l rest s

end Flow

/-- The stack heights of a listing. -/
def Listing.heights (l : Listing) : Outcome Heights :=
  let blank : Array (Option Nat) := Array.replicate l.nodes.size none
  match l.first with
  | none => .ok { entry := blank }
  | some head => do
    let start : Flow :=
      { heights := { entry := blank.setIfInBounds head (some 0) }, work := [head] }
    let s ← Flow.enterHandlers l l.insns start
    let s ← Flow.run l (l.nodes.size + 1) s
    return s.heights

end ClassWeaver
