import ClassWeaver.Code.Decode

/-!
# Code layout

Before bytes are written every instruction gets an offset. Its size depends on its operand,
on the index of its constant, for switches on the offset itself, and for unconditional jumps
on whether the target is within reach of 16 bits. Layout starts with all jumps short and
widens those that do not reach, until all do; a conditional jump that does not reach has no
wide form.
-/

namespace ClassWeaver.Code

/-- An instruction to be laid out: with the index of its constant (zero without one), and
whether it is a jump in its wide form. -/
structure Item where
  insn : Insn
  constant : UInt16 := 0
  wide : Bool := false

/-- Whether an increment fits its short form. -/
def isShortIncrement (index : UInt16) (delta : Int16) : Bool :=
  index ≤ 255 && -128 ≤ delta.toInt && delta.toInt ≤ 127

namespace Item

/-- Whether the item is a jump with a 32-bit displacement. -/
def isFar (x : Item) : Bool := x.wide || x.insn.opcode = .gotoW || x.insn.opcode = .jsrW

/-- The number of bytes of an item at offset `pc`. -/
def size (p : Pool) (pc : Nat) (x : Item) : Nat :=
  if x.insn.opcode.isPseudo then 0
  else match x.insn.operand with
    | .int _ => if x.insn.opcode = .sipush then 3 else 2
    | .slot index =>
      if x.insn.opcode.isIndexedLocal && index ≤ 3 then 1
      else if index ≤ 255 then 2
      else 4
    | .increment index delta => if isShortIncrement index delta then 3 else 6
    | .constant _ => if x.constant ≤ 255 && !p.isWideConstant x.constant then 2 else 3
    | .jump _ => if x.isFar then 5 else 3
    | .tableSwitch _ _ _ targets => 1 + switchPadding pc + 12 + 4 * targets.length
    | .lookupSwitch _ keys _ => 1 + switchPadding pc + 8 + 8 * keys.length
    | .field .. | .type _ => 3
    | .method .. => if x.insn.opcode = .invokeInterface then 5 else 3
    | .dynamic .. => 5
    | .multiArray .. => 4
    | _ => 1

end Item

/-- Items with their offsets, the offset behind the last, and the offset of each label. -/
structure Layout where
  placed : List (Item × Nat)
  size : Nat
  labels : Array Nat

/-- Lays items out from `pc` on, behind those in `seen` (newest first). -/
def place (p : Pool) (seen : List (Item × Nat)) : (pc : Nat) → List Item → List (Item × Nat) × Nat
  | pc, [] => (seen.reverse, pc)
  | pc, x :: rest => place p ((x, pc) :: seen) (pc + x.size p pc) rest

/-- Records the offsets of placed labels. A label that was never numbered cannot be. -/
def recordLabels : Array Nat → List (Item × Nat) → Outcome (Array Nat)
  | labels, [] => .ok labels
  | labels, (x, pc) :: rest =>
    match x.insn.placed? with
    | none => recordLabels labels rest
    | some l =>
      if 0 ≤ l && l < labels.size then recordLabels (labels.setIfInBounds l.toNat pc) rest
      else Outcome.undefined

namespace Layout

/-- The layout of items, given the number of labels. -/
def ofItems (p : Pool) (labels : Nat) (items : List Item) : Outcome Layout := do
  let (placed, size) := place p [] 0 items
  return ⟨placed, size, ← recordLabels (Array.replicate labels 0) placed⟩

/-- The offset of a label. -/
def offset (y : Layout) (l : Label) : Outcome Nat :=
  if l < 0 then Outcome.undefined
  else match y.labels[l.toNat]? with
    | some pc => .ok pc
    | none => Outcome.undefined

/-- The displacement from an offset to a label. -/
def displacement (y : Layout) (pc : Nat) (l : Label) : Outcome Int := do
  return (← y.offset l) - pc

/-- Whether a displacement fits 16 bits. -/
def reaches (delta : Int) : Bool := -32768 ≤ delta && delta ≤ 32767

/-- Widens a jump that does not reach: the item afterwards, and whether it changed. -/
def widen (y : Layout) (x : Item) (pc : Nat) : Outcome (Item × Bool) :=
  match x.insn.operand with
  | .jump target =>
    if x.wide then .ok (x, false)
    else do
      let delta ← y.displacement pc target
      if reaches delta then return (x, false)
      else if x.insn.opcode.isUnconditional then return ({ x with wide := true }, true)
      else .error (x.insn.blame .encode .usage
        ("branch offset " ++ Text.ofInt delta ++ " does not fit 16 bits")
        (some (Text.ofInt delta)) none)
  | _ => .ok (x, false)

/-- Widens all jumps that do not reach, behind the items in `seen` (newest first). -/
def widenAll (y : Layout) :
    (seen : List Item) → (changed : Bool) → List (Item × Nat) → Outcome (List Item × Bool)
  | seen, changed, [] => .ok (seen.reverse, changed)
  | seen, changed, (x, pc) :: rest => do
    let (x, c) ← y.widen x pc
    widenAll y (x :: seen) (changed || c) rest

/-- Lays out and widens until every jump reaches. Each round but the last widens a jump, so
the number of items is enough fuel. -/
def settle (p : Pool) (labels : Nat) : (fuel : Nat) → List Item → Outcome Layout
  | 0, items => ofItems p labels items
  | fuel + 1, items => do
    let y ← ofItems p labels items
    let (items, changed) ← y.widenAll [] false y.placed
    if changed then settle p labels fuel items else return y

end Layout

end ClassWeaver.Code
