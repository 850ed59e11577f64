import Std.Data.HashMap
import ClassWeaver.Insn

/-!
# Canonical label numbers

Label numbers carry no meaning of their own. `canonicalLabels` numbers the labels of a
sequence from zero in the order in which they are first mentioned.
-/

namespace ClassWeaver

/-- The labels an instruction mentions, the one it places included. -/
def Insn.mentions (i : Insn) : List Label :=
  match i.operand with
  | .label l => [l]
  | _ => i.labels

/-- The number of each label in a list, by first occurrence. -/
def labelNumbers (labels : List Label) : Std.HashMap Label Nat :=
  labels.foldl (fun m l => m.insertIfNew l m.size) ∅

/-- The same sequence with its labels numbered by first mention. -/
def canonicalLabels (is : List Insn) : List Insn :=
  let numbers := labelNumbers (is.flatMap Insn.mentions)
  is.map fun i => ⟨i.opcode, i.operand.mapLabels fun l => numbers.getD l 0⟩

end ClassWeaver
