import ClassWeaver.Listing.Basic
import ClassWeaver.Stack.Effect

/-!
# Backward scans

Where was a value pushed that an instruction consumes? `Listing.backUntil` walks backwards
from the instruction and sums stack changes until the total reaches a target, and answers the
node behind which code runs with exactly the stack wanted. The walk never crosses a jump, a
switch or a boundary, and code inserted at its answer never lands in front of a label.
-/

namespace ClassWeaver.Listing

/-- Whether a scan must not go past the node. -/
def isBarrier (l : Listing) (boundary : Ref → Bool) (r : Ref) : Bool :=
  boundary r ||
    match l.insn? r with
    | some i => i.opcode.isJump || i.opcode.isSwitch
    | none => true

/-- Walks back from `r`, whose own change counts, until the changes since `total` was zero
sum to `target` or a barrier comes next. -/
def backToTarget (l : Listing) (boundary : Ref → Bool) (target : Int) :
    (fuel : Nat) → (r : Ref) → (total : Int) → Outcome (Option Ref)
  | 0, r, _ => .ok (some r)
  | fuel + 1, r, total => do
    let i ← l.fetch r
    let total := total + (← i.change)
    match l.prev (some r) with
    | none => return none
    | some q =>
      if l.isBarrier boundary q || total = target then return some q
      else backToTarget l boundary target fuel q total

/-- Walks back over instructions that leave the stack height as it is. -/
def backOverNeutral (l : Listing) (boundary : Ref → Bool) :
    (fuel : Nat) → Option Ref → Outcome (Option Ref)
  | 0, r => .ok r
  | _, none => .ok none
  | fuel + 1, some r =>
    if l.isBarrier boundary r then .ok (some r)
    else do
      let i ← l.fetch r
      if (← i.change) = 0 then backOverNeutral l boundary fuel (l.prev (some r))
      else return some r

/-- Whether the node is a label entry. -/
def isLabelEntry (l : Listing) (r : Ref) : Bool :=
  match l.insn? r with
  | some i => i.opcode = .label
  | none => false

/-- Moves forward over the label entries directly behind a node. -/
def overLabels (l : Listing) : (fuel : Nat) → Ref → Ref
  | 0, r => r
  | fuel + 1, r =>
    match l.next (some r) with
    | some q => if l.isLabelEntry q then overLabels l fuel q else r
    | none => r

/-- The node behind which code runs where the values consumed by `start` were already on the
stack: `target` is the change of the stack from there up to and including `start`. Without
such a node the scan ends at the last barrier, or runs past the head (`none`). With
`followNeutral` the answer moves on over instructions that leave the height as it is. -/
def backUntil (l : Listing) (boundary : Ref → Bool) (start : Ref) (target : Int)
    (followNeutral : Bool) : Outcome (Option Ref) := do
  let fuel := l.nodes.size + 1
  let found ← l.backToTarget boundary target fuel start 0
  let found ← if followNeutral then l.backOverNeutral boundary fuel found else pure found
  return found.map (l.overLabels fuel)

end ClassWeaver.Listing
