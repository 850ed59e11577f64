import ClassWeaver.Fault

/-!
# Listings

A listing is a sequence of instructions that can be edited anywhere in constant time. Its
nodes live in an arena and are doubly linked; a node is named by its place in the arena, so a
handle stays valid for ever, and a removed node merely stops being part of the sequence.
`Listing.refs` and `Listing.insns` are the sequence itself.

A listing also numbers labels and knows for each of them the node that places it. A label can
be placed more than once: the binding then stays with the earlier placement until that one
goes, and passes to the first of the others.
-/

namespace ClassWeaver

/-- A handle to a node. Handles are signed 32-bit numbers; more than `2 ^ 31` nodes are out of
scope. -/
abbrev Ref := Nat

/-- A cell of the arena. -/
structure Node where
  insn : Insn
  prev : Option Ref := none
  next : Option Ref := none
  linked : Bool := false
  deriving DecidableEq, Inhabited

/-- A sequence of instructions with its label table. -/
structure Listing where
  nodes : Array Node := #[]
  /-- The node that places each label. -/
  bound : Array (Option Ref) := #[]
  /-- Labels that were placed while another placement stood, in that order. -/
  doubled : Array Label := #[]
  first : Option Ref := none
  last : Option Ref := none
  length : Nat := 0
  deriving DecidableEq, Inhabited

namespace Listing

/-! ### Reading -/

/-- A listing without nodes or labels. -/
def empty : Listing := {}

/-- The instruction at a node, linked or not. -/
def insn? (l : Listing) (r : Ref) : Option Insn := l.nodes[r]?.map Node.insn

/-- The instruction at a node; undefined for a handle that was never given out. -/
def fetch (l : Listing) (r : Ref) : Outcome Insn :=
  match l.insn? r with
  | some i => .ok i
  | none => Outcome.undefined

/-- Whether the handle was given out. -/
def isAllocated (l : Listing) (r : Ref) : Bool := r < l.nodes.size

/-- Whether the node is part of the sequence. -/
def isLinked (l : Listing) (r : Ref) : Bool :=
  match l.nodes[r]? with
  | some n => n.linked
  | none => false

/-- The node behind `r`; the head of the sequence without one. -/
def next (l : Listing) : Option Ref → Option Ref
  | none => l.first
  | some r => l.nodes[r]?.bind Node.next

/-- The node in front of `r`; the tail of the sequence without one. -/
def prev (l : Listing) : Option Ref → Option Ref
  | none => l.last
  | some r => l.nodes[r]?.bind Node.prev

/-- The number of labels handed out or placed so far: all are below it. -/
def numLabels (l : Listing) : Nat := l.bound.size

/-- The node that places a label. -/
def binding (l : Listing) (lbl : Label) : Option Ref :=
  if lbl < 0 then none else (l.bound[lbl.toNat]?).join

/-- Follows the links from a node, which are at most `fuel` in number; handles found so far
are in `seen`, newest first. -/
def walk (l : Listing) (seen : List Ref) : (fuel : Nat) → Option Ref → List Ref
  | 0, _ => seen.reverse
  | _, none => seen.reverse
  | fuel + 1, some r => walk l (r :: seen) fuel (l.next (some r))

/-- The nodes of the sequence in order. -/
def refs (l : Listing) : List Ref := l.walk [] l.nodes.size l.first

/-- The instructions of the sequence in order. -/
def insns (l : Listing) : List Insn := l.refs.filterMap l.insn?

/-- How many nodes of the sequence place the label. -/
def placements (l : Listing) (lbl : Label) : Nat :=
  (l.insns.filter fun i => i.placed? = some lbl).length

/-! ### Labels -/

/-- Hands out a label that is not placed yet. -/
def newLabel (l : Listing) : Label × Listing :=
  (l.bound.size, { l with bound := l.bound.push none })

/-- Hands out labels one after the other. -/
def newLabels (l : Listing) : (count : Nat) → Listing
  | 0 => l
  | count + 1 => newLabels l.newLabel.2 count

/-- Makes room in the label table for `size` labels. -/
def reserve (l : Listing) (size : Nat) : Listing :=
  { l with bound := l.bound ++ Array.replicate (size - l.bound.size) none }

/-- Records that the node places its label, if it is a label entry. -/
def bind (l : Listing) (r : Ref) : Listing :=
  match (l.insn? r).bind Insn.placed? with
  | none => l
  | some lbl =>
    if lbl < 0 then l
    else
      let l := l.reserve (lbl.toNat + 1)
      match l.binding lbl with
      | some other =>
        if other = r then l else { l with doubled := l.doubled.push lbl }
      | none => { l with bound := l.bound.setIfInBounds lbl.toNat (some r) }

/-- Withdraws the binding of the node's label; another placement takes it over. -/
def unbind (l : Listing) (r : Ref) : Listing :=
  match (l.insn? r).bind Insn.placed? with
  | none => l
  | some lbl =>
    if l.binding lbl ≠ some r then l
    else
      let heir :=
        if l.doubled.contains lbl then
          l.refs.find? fun q => q ≠ r && (l.insn? q).bind Insn.placed? = some lbl
        else none
      { l with bound := l.bound.setIfInBounds lbl.toNat heir }

/-! ### Editing -/

/-- Adds an unlinked node to the arena. -/
def alloc (l : Listing) (i : Insn) : Ref × Listing :=
  (l.nodes.size, { l with nodes := l.nodes.push ⟨i, none, none, false⟩ })

/-- Points the node in front (or the head) at `r`. -/
def setNext (l : Listing) (p : Option Ref) (target : Option Ref) : Listing :=
  match p with
  | none => { l with first := target }
  | some p => { l with nodes := l.nodes.modify p fun n => { n with next := target } }

/-- Points the node behind (or the tail) back at `r`. -/
def setPrev (l : Listing) (q : Option Ref) (target : Option Ref) : Listing :=
  match q with
  | none => { l with last := target }
  | some q => { l with nodes := l.nodes.modify q fun n => { n with prev := target } }

/-- Places an unlinked node between `p` and `q`. -/
def link (l : Listing) (r : Ref) (p q : Option Ref) : Listing :=
  let l := { l with nodes := l.nodes.modify r fun n => ⟨n.insn, p, q, true⟩ }
  let l := (l.setNext p (some r)).setPrev q (some r)
  { l with length := l.length + 1 }.bind r

/-- Adds an instruction at the end. -/
def append (l : Listing) (i : Insn) : Ref × Listing :=
  let (r, l) := l.alloc i
  (r, l.link r l.last none)

/-- Adds an instruction at the front. -/
def prepend (l : Listing) (i : Insn) : Ref × Listing :=
  let (r, l) := l.alloc i
  (r, l.link r none l.first)

/-- Adds an instruction right behind a node; at the front without one. -/
def insertAfter (l : Listing) (anchor : Option Ref) (i : Insn) : Ref × Listing :=
  match anchor with
  | none => l.prepend i
  | some a =>
    let (r, l) := l.alloc i
    (r, l.link r anchor (l.next (some a)))

/-- Adds an instruction right in front of a node; at the end without one. -/
def insertBefore (l : Listing) (anchor : Option Ref) (i : Insn) : Ref × Listing :=
  match anchor with
  | none => l.append i
  | some a =>
    let (r, l) := l.alloc i
    (r, l.link r (l.prev (some a)) anchor)

/-- Adds instructions in order behind a node: the last of them, or the anchor itself. -/
def insertAllAfter (l : Listing) (anchor : Option Ref) : List Insn → Option Ref × Listing
  | [] => (anchor, l)
  | i :: rest =>
    let (r, l) := l.insertAfter anchor i
    insertAllAfter l (some r) rest

/-- Adds instructions in order in front of a node: the first of them, or the anchor itself. -/
def insertAllBefore (l : Listing) (anchor : Option Ref) : List Insn → Option Ref × Listing
  | [] => (anchor, l)
  | i :: rest =>
    let (r, l) := l.insertBefore anchor i
    (some r, rest.foldl (fun l i => (l.insertBefore anchor i).2) l)

/-- Adds instructions in order at the end. -/
def appendAll (l : Listing) (is : List Insn) : Listing :=
  is.foldl (fun l i => (l.append i).2) l

/-- Takes a node out of the sequence. An unlinked node stays as it is. -/
def remove (l : Listing) (r : Ref) : Listing :=
  match l.nodes[r]? with
  | none => l
  | some node =>
    if node.linked then
      let l := (((l.unbind r).setNext node.prev node.next).setPrev node.next node.prev)
      { l with
        nodes := l.nodes.modify r fun n => ⟨n.insn, none, none, false⟩
        length := l.length - 1 }
    else l

/-- Replaces the instruction of a node and keeps the label table in step. -/
def set (l : Listing) (r : Ref) (i : Insn) : Listing :=
  let put (l : Listing) : Listing :=
    { l with nodes := l.nodes.modify r fun n => { n with insn := i } }
  if l.isLinked r then (put (l.unbind r)).bind r else put l

/-- A listing of the instructions, after `labels` labels were handed out. -/
def ofInsns (labels : Nat) (is : List Insn) : Listing := (empty.newLabels labels).appendAll is

/-- An empty listing in which the labels of this one can be placed again. -/
def fork (l : Listing) : Listing := { bound := Array.replicate l.bound.size none }

/-- Feeds items to a consumer until it fails. -/
def feed {α σ ε : Type} (visit : σ → α → Except ε σ) : σ → List α → σ × Option ε
  | state, [] => (state, none)
  | state, a :: rest =>
    match visit state a with
    | .ok state => feed visit state rest
    | .error e => (state, some e)

/-- Feeds the instructions of the sequence to a consumer until it fails. -/
def accept {σ ε : Type} (l : Listing) (visit : σ → Insn → Except ε σ) (start : σ) :
    σ × Option ε :=
  feed visit start l.insns

/-! ### Resolution -/

/-- Fails for the first label that is placed more than once. -/
def checkPlacements (l : Listing) : Outcome Unit :=
  match l.doubled.find? fun lbl => 1 < l.placements lbl with
  | some lbl =>
    Outcome.fail (.about .encode .usage (Label.text lbl)
      ("label " ++ Label.text lbl ++ " placed " ++ Text.ofNat (l.placements lbl) ++ " times"))
  | none => .ok ()

/-- The first label of an instruction that no node places. -/
def dangling? (l : Listing) (i : Insn) : Option Label :=
  i.labels.find? fun lbl => l.binding lbl = none

/-- Fails for the first instruction that refers to a label without a placement. -/
def checkReferences (l : Listing) : Outcome Unit :=
  match l.insns.findSome? fun i => (l.dangling? i).map (i, ·) with
  | some (i, lbl) =>
    .error (i.blame .encode .usage ("label " ++ Label.text lbl ++ " is not bound")
      (some (Label.text lbl)) none)
  | none => .ok ()

/-- Checks that each label is placed at most once and each label referred to is placed. -/
def resolve (l : Listing) : Outcome Unit := do
  l.checkPlacements
  l.checkReferences

end Listing

end ClassWeaver
