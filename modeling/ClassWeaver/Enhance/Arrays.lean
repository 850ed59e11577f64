import ClassWeaver.Enhance.Rule
import ClassWeaver.Stack.Scan

/-!
# Array access

After weaving, an array reference may come out of a captured local whose declared type is no
longer known. Stores into arrays of a known element type get a cast right behind the
instruction that pushed the array. Byte and boolean arrays share their instructions, so these
become a choice at run time between the two kinds of access, made on the component type.
-/

namespace ClassWeaver

namespace Enhance

/-- The array type that a store other than `bastore` narrows to. -/
def storedArray (op : Opcode) : Text :=
  match (op.code - 0x4F).toNat with
  | 0 => "[I"
  | 1 => "[J"
  | 2 => "[F"
  | 3 => "[D"
  | 4 => "[Ljava/lang/Object;"
  | 6 => "[C"
  | 7 => "[S"
  | _ => []

/-- A static accessor of the reflective array class. -/
def accessor (name desc : Text) : Insn :=
  .call .invokeStatic "java/lang/reflect/Array" name desc

/-- The instructions in place of a byte or boolean access. `arrange` leaves a copy of the
array on top of the operands; the component type of the copy decides between the calls. -/
def dispatchCode (arrange : List Insn) (onBoolean onByte : Insn) (byteLabel join : Label) :
    List Insn :=
  arrange ++ [
    .call .invokeVirtual "java/lang/Object" "getClass" "()Ljava/lang/Class;",
    .call .invokeVirtual "java/lang/Class" "getComponentType" "()Ljava/lang/Class;",
    .access .getStatic "java/lang/Boolean" "TYPE" "Ljava/lang/Class;",
    .jump .ifAcmpNe byteLabel,
    onBoolean,
    .jump .goto join,
    .place byteLabel,
    onByte,
    .place join]

/-- Replaces a node by a choice between two accesses; the scan goes on behind it. -/
def dispatch (arrange : List Insn) (onBoolean onByte : Insn) (l : Listing) (r : Ref) :
    Listing × Outcome (Option Ref) :=
  let (byteLabel, l) := l.newLabel
  let (join, l) := l.newLabel
  let (last, l) :=
    l.insertAllAfter (some r) (dispatchCode arrange onBoolean onByte byteLabel join)
  (l.remove r, .ok last)

/-- Whether the nodes from `r` on up to and including `stop` change the stack by `target`,
where the nodes before have changed it by `total`. -/
def changesBy (l : Listing) (stop : Ref) (target : Int) :
    (fuel : Nat) → (r : Option Ref) → (total : Int) → Outcome Bool
  | 0, _, _ => .ok false
  | _, none, _ => .ok false
  | fuel + 1, some r, total => do
    let i ← l.fetch r
    let total := total + (← i.change)
    if r = stop then return total = target
    else changesBy l stop target fuel (l.next (some r)) total

/-- The node behind which an array reference that `r` consumes lies on top of the stack, if
it can be found in the block of `r`. From there to behind a store the stack loses the array
itself, so the change is `-1`. -/
def producer? (boundary : Boundary) (l : Listing) (r : Ref) : Outcome (Option Ref) := do
  match ← l.backUntil boundary r (-1) false with
  | none => return none
  | some p =>
    if ← changesBy l r (-1) (l.nodes.size + 1) (l.next (some p)) 0 then return some p
    else return none

/-- Casts the array that the store at `r` consumes, unless it is cast already or its producer
is not found. -/
def narrow (boundary : Boundary) (desc : Text) (l : Listing) (r : Ref) :
    Listing × Outcome (Option Ref) :=
  match producer? boundary l r with
  | .error e => (l, .error e)
  | .ok none => (l, .ok (some r))
  | .ok (some p) =>
    let cast : Insn := ⟨.checkCast, .type desc⟩
    if l.insn? p = some cast then (l, .ok (some r))
    else ((l.insertAfter (some p) cast).2, .ok (some r))

end Enhance

open Enhance

/-- The rule for array stores. -/
def Rule.arrayStore : Rule where
  applies i := i.opcode.isArrayStore
  replace ctx l r :=
    match l.insn? r with
    | none => (l, Outcome.undefined)
    | some i =>
      if i.opcode = .bastore then
        -- array, index, value become array, index, value, array
        dispatch [.plain .dupX2, .plain .pop, .plain .dupX2, .plain .pop, .plain .dupX2]
          (accessor "setBoolean" "(Ljava/lang/Object;IZ)V")
          (accessor "setByte" "(Ljava/lang/Object;IB)V") l r
      else narrow ctx.boundary (storedArray i.opcode) l r

/-- The rule for `baload`. Other loads stay as they are: a cast of the array would forget what
the verifier knows about its elements. -/
def Rule.arrayLoad : Rule where
  applies i := i.opcode = .baload
  replace _ l r :=
    -- array, index become array, index, array
    dispatch [.plain .swap, .plain .dupX1]
      (accessor "getBoolean" "(Ljava/lang/Object;I)Z")
      (accessor "getByte" "(Ljava/lang/Object;I)B") l r

/-- The rules that run unless others are chosen. -/
def Chain.standard : Chain := [.arrayStore, .arrayLoad]

end ClassWeaver
