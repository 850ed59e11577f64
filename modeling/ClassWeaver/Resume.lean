import ClassWeaver.Listing.Basic

/-!
# Resume states

A woven method has a resume state for each of its suspension points, numbered from one. The
numbers are handed out from the highest down, and each state gets a label of its own when it
is first asked for. Along with them go the captured slots: the locals that survive a
suspension in fields.
-/

namespace ClassWeaver

/-- A local that is kept in a field while the method is suspended. -/
structure Slot where
  index : UInt16
  desc : Text
  name : Text
  deriving DecidableEq, Repr

namespace Slot

def load (s : Slot) : Opcode := Descriptor.loadOpcode s.desc

def store (s : Slot) : Opcode := Descriptor.storeOpcode s.desc

/-- Adds a slot to an ascending list; it replaces a slot of the same index. -/
def insert (s : Slot) : List Slot → List Slot
  | [] => [s]
  | t :: rest =>
    if s.index < t.index then s :: t :: rest
    else if s.index = t.index then s :: rest
    else t :: insert s rest

end Slot

/-- The resume states and captured slots of a method. -/
structure States where
  /-- The labels of the states from the first on. -/
  labels : Array (Option Label) := #[]
  /-- The states not handed out yet: all numbers up to this one. -/
  remaining : Nat := 0
  /-- In ascending order of their indices. -/
  slots : List Slot := []
  deriving DecidableEq, Repr

namespace States

/-- Unlabelled states in number `count`, none below zero. Of slots with the same index the
last counts. -/
def create (count : Int) (slots : List Slot) : States where
  labels := Array.replicate count.toNat none
  remaining := count.toNat
  slots := slots.foldl (fun sorted s => s.insert sorted) []

/-- The number of states. -/
def count (s : States) : Nat := s.labels.size

/-- Hands out the highest state that is left. -/
def take (s : States) : Except Fault (Nat × States) :=
  match s.remaining with
  | 0 =>
    .error (.about .metadata .usage (Text.ofNat s.count)
      ("state budget of " ++ Text.ofNat s.count ++ " exhausted"))
  | n + 1 => .ok (n + 1, { s with remaining := n })

/-- The place of a state in the label table. -/
def index (s : States) (id : Int) : Except Fault Nat :=
  if id < 1 || s.count < id then
    .error (.about .metadata .usage (Text.ofInt id)
      ("state " ++ Text.ofInt id ++ " outside [1, " ++ Text.ofNat s.count ++ "]"))
  else .ok (id - 1).toNat

/-- The label of a state. A state without one gets a new label of the listing. -/
def label (s : States) (l : Listing) (id : Int) : Except Fault (Label × States × Listing) := do
  let n ← s.index id
  match (s.labels[n]?).join with
  | some lbl => return (lbl, s, l)
  | none =>
    let (lbl, l) := l.newLabel
    return (lbl, { s with labels := s.labels.setIfInBounds n (some lbl) }, l)

/-- Gives new labels of the listing to the entries that have none, in order. -/
def fillLabels (l : Listing) : List (Option Label) → List Label × Listing
  | [] => ([], l)
  | some lbl :: rest =>
    let (labels, l) := fillLabels l rest
    (lbl :: labels, l)
  | none :: rest =>
    let (lbl, l) := l.newLabel
    let (labels, l) := fillLabels l rest
    (lbl :: labels, l)

/-- The labels of all states from the first on, each state getting one that has none. -/
def labelAll (s : States) (l : Listing) : List Label × States × Listing :=
  let (labels, l) := fillLabels l s.labels.toList
  (labels, { s with labels := (labels.map some).toArray }, l)

/-- Gives a state a label from elsewhere; `-1` withdraws its label. -/
def setLabel (s : States) (id : Int) (lbl : Label) : Except Fault States := do
  let n ← s.index id
  let entry := if lbl = -1 then none else some lbl
  return { s with labels := s.labels.setIfInBounds n entry }

/-- The label that a state has. -/
def label? (s : States) (id : Nat) : Option Label :=
  match id with
  | 0 => none
  | n + 1 => (s.labels[n]?).join

/-- The states with a label, ascending. -/
def labelled (s : States) : List (Nat × Label) :=
  s.labels.toList.zipIdx.filterMap fun (lbl, n) => lbl.map (n + 1, ·)

/-- The captured slot of a local. -/
def slot? (s : States) (index : UInt16) : Option Slot := s.slots.find? (·.index = index)

/-- Checks that the listing places every label handed out for a state. -/
def checkBound (s : States) (l : Listing) : Except Fault Unit :=
  match s.labelled.find? fun (_, lbl) => l.binding lbl = none with
  | some (id, lbl) =>
    .error (.about .metadata .usage (Text.ofNat id)
      ("resume label " ++ Label.text lbl ++ " of state " ++ Text.ofNat id ++ " is not placed"))
  | none => .ok ()

end States

end ClassWeaver
