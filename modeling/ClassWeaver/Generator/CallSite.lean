import ClassWeaver.Insn

/-!
# Call sites

A generator marks its suspension points by calling a method of its own. A call site says
which calls are meant.
-/

namespace ClassWeaver

/-- A method that is called on an instance. An empty owner or descriptor fits any. -/
structure CallSite where
  owner : Text := []
  name : Text := []
  desc : Text := []
  deriving DecidableEq, Repr

/-- Whether the instruction calls the method of the site, other than statically. -/
def CallSite.isCall (site : CallSite) (i : Insn) : Bool :=
  (i.opcode = .invokeVirtual || i.opcode = .invokeSpecial || i.opcode = .invokeInterface)
    && match i.member? with
      | some (owner, name, desc) =>
        name = site.name && (site.owner.isEmpty || site.owner = owner)
          && (site.desc.isEmpty || site.desc = desc)
      | none => false

end ClassWeaver
