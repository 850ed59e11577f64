import ClassWeaver.Generator.Settings
import ClassWeaver.Resume

/-!
# What a generator needs

A survey of a method body counts its suspension points and collects the locals that the body
writes: these must survive a suspension, so each becomes a captured slot. Local 0 is the
receiver and never captured, and a parameter is captured only if the body assigns it. A
captured reference has the type that the local variable table declares, when all its entries
for the local agree.
-/

namespace ClassWeaver

/-- What was seen of a body so far. -/
structure Survey where
  yields : Nat := 0
  /-- The written locals with the family of their values. -/
  written : List (UInt16 × Family) := []
  /-- The descriptor that the local variable table gives for a local; none when its entries
  disagree. -/
  declared : List (UInt16 × Option Text) := []
  /-- The first write that does not fit an earlier write to the same local. -/
  conflict : Option Fault := none

namespace Survey

/-- The entry of a local in a table. -/
def find? {α : Type} (index : UInt16) (table : List (UInt16 × α)) : Option α :=
  (table.find? (·.1 = index)).map Prod.snd

/-- Takes account of a declaration of a local. -/
def declare (s : Survey) (index : UInt16) (desc : Text) : Survey :=
  match find? index s.declared with
  | none => { s with declared := (index, some desc) :: s.declared }
  | some known =>
    if known = some desc || known = none then s
    else
      { s with declared := s.declared.map fun (i, d) => (i, if i = index then none else d) }

/-- The fault of a local that holds values of two families. -/
def mixed (text : Text) (index : UInt16) (first second : Family) : Fault :=
  .report .weave .unsupported [] text
    ("local " ++ Text.ofNat index.toNat ++ " holds both " ++ first.descriptor ++ " and "
      ++ second.descriptor)
    (some (Text.ofNat index.toNat)) none

/-- Takes account of a write to a local by the instruction `i`. -/
def write (s : Survey) (i : Insn) (index : UInt16) (family : Family) : Outcome Survey :=
  match find? index s.written with
  | none => .ok { s with written := (index, family) :: s.written }
  | some known =>
    if known = family || s.conflict.isSome then .ok s
    else
      match i.text? with
      | some text => .ok { s with conflict := some (mixed text index known family) }
      | none => Outcome.undefined

/-- The family of the value that an instruction leaves in a local, if it writes one. -/
def writtenFamily? (op : Opcode) : Option Family :=
  if op = .iinc then some .int
  else if op.isLocalStore then op.family?
  else none

/-- Takes account of one instruction. -/
def visit (yieldSite : CallSite) (s : Survey) (i : Insn) : Outcome Survey :=
  if yieldSite.isCall i then .ok { s with yields := s.yields + 1 }
  else if i.opcode = .localVariable then
    match i.operand with
    | .localVariable _ desc _ _ index => .ok (s.declare index desc)
    | _ => Outcome.undefined
  else
    match writtenFamily? i.opcode, i.slot?.getD 0 with
    | none, _ => .ok s
    | some family, index => if index = 0 then .ok s else s.write i index family

/-- Surveys a whole body. -/
def ofInsns (yieldSite : CallSite) (is : List Insn) : Outcome Survey :=
  is.foldlM (visit yieldSite) {}

/-- The descriptor of a captured local. -/
def slotDescriptor (s : Survey) (index : UInt16) (family : Family) : Text :=
  match family, (find? index s.declared).join with
  | .reference, some desc => if Descriptor.isReference desc then desc else family.descriptor
  | _, _ => family.descriptor

/-- The captured slots, for a method with this name. -/
def slots (s : Survey) (settings : Settings) (method : Text) : List Slot :=
  s.written.map fun (index, family) =>
    { index, desc := s.slotDescriptor index family, name := settings.slotFieldName method index }

end Survey

/-- The fault of a method descriptor that cannot be read. -/
def badMethodType (desc : Text) (cause : Fault) : Fault :=
  .report .weave .invalidData [] [] [] (some desc) (some cause)

/-- The resume states and captured slots that a method body needs. Conflicting writes do not
matter to a body that never suspends. -/
def discover (settings : Settings) (l : Listing) (method desc : Text) : Outcome States := do
  match Descriptor.parse desc with
  | .error e => Outcome.fail (badMethodType desc e)
  | .ok _ =>
    let s ← Survey.ofInsns settings.yieldSite l.insns
    match s.conflict with
    | some f =>
      if 0 < s.yields then Outcome.fail f
      else return States.create s.yields (s.slots settings method)
    | none => return States.create s.yields (s.slots settings method)

end ClassWeaver
