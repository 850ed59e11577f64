import ClassWeaver.Fault

/-!
# Stack effects

How many values an instruction takes off the operand stack and how many it leaves there.
Every value counts once, `long` and `double` included. Calls depend on their descriptor and
`multianewarray` on its dimensions; returns have no effect to speak of, since nothing follows
them, and `athrow`, `wide` and unknown codes have none at all.
-/

namespace ClassWeaver

/-- Values taken from the stack, and values pushed after that. -/
structure Effect where
  pops : Nat
  pushes : Nat
  deriving DecidableEq, Repr

/-- The net change of the stack height. -/
def Effect.change (e : Effect) : Int := (e.pushes : Int) - e.pops

/-- The effect of an opcode that does not depend on its operand. -/
def Opcode.effect? (op : Opcode) : Option Effect :=
  if op = nop then some ⟨0, 0⟩
  -- constants and loads
  else if op.within 0x01 0x14 || op.isLocalLoad then some ⟨0, 1⟩
  else if op.isArrayLoad then some ⟨2, 1⟩
  else if op.isLocalStore then some ⟨1, 0⟩
  else if op.isArrayStore then some ⟨3, 0⟩
  -- stack manipulation: pop to swap
  else if op.code = 0x57 then some ⟨1, 0⟩
  else if op.code = 0x58 then some ⟨2, 0⟩
  else if op.code = 0x59 then some ⟨1, 2⟩
  else if op.code = 0x5A then some ⟨2, 3⟩
  else if op.code = 0x5B then some ⟨3, 4⟩
  else if op.code = 0x5C then some ⟨2, 4⟩
  else if op.code = 0x5D then some ⟨3, 5⟩
  else if op.code = 0x5E then some ⟨4, 6⟩
  else if op.code = 0x5F then some ⟨2, 2⟩
  -- arithmetic, negation, shifts and logic, increment
  else if op.within 0x60 0x73 then some ⟨2, 1⟩
  else if op.within 0x74 0x77 then some ⟨1, 1⟩
  else if op.within 0x78 0x83 then some ⟨2, 1⟩
  else if op = iinc then some ⟨0, 0⟩
  -- conversions and comparisons
  else if op.within 0x85 0x93 then some ⟨1, 1⟩
  else if op.within 0x94 0x98 then some ⟨2, 1⟩
  -- branches on one value and on two, jumps, switches
  else if op.within 0x99 0x9E then some ⟨1, 0⟩
  else if op.within 0x9F 0xA6 then some ⟨2, 0⟩
  else if op = ifNull || op = ifNonNull then some ⟨1, 0⟩
  else if op = goto || op = gotoW || op = ret then some ⟨0, 0⟩
  else if op = jsr || op = jsrW then some ⟨0, 1⟩
  else if op.isSwitch then some ⟨1, 0⟩
  -- fields: getstatic, putstatic, getfield, putfield
  else if op.code = 0xB2 then some ⟨0, 1⟩
  else if op.code = 0xB3 then some ⟨1, 0⟩
  else if op.code = 0xB4 then some ⟨1, 1⟩
  else if op.code = 0xB5 then some ⟨2, 0⟩
  -- objects and arrays
  else if op = newObject then some ⟨0, 1⟩
  else if op.within 0xBC 0xBE || op = checkCast || op = instanceOf then some ⟨1, 1⟩
  else if op = monitorEnter || op = monitorExit then some ⟨1, 0⟩
  else none

namespace Insn

/-- The failure of an instruction whose operand cannot give its effect. -/
def misfit (i : Insn) : Failure :=
  i.blame .analyze .invariant
    ("operand " ++ i.operand.typeName ++ " does not match " ++ i.opcode.name) none none

/-- The effect of a call: its parameters, and the receiver unless it is static or dynamic. -/
def callEffect (i : Insn) : Outcome Effect :=
  match i.member? with
  | none => .error i.misfit
  | some (_, _, desc) =>
    match Descriptor.parse desc with
    | .error cause => .error (i.blame .analyze .invalidData [] none (some cause))
    | .ok t =>
      let receiver := if i.opcode = .invokeStatic || i.opcode = .invokeDynamic then 0 else 1
      .ok ⟨t.params.length + receiver, if t.returnsValue then 1 else 0⟩

/-- The effect of an instruction. Entries without code bytes have none. -/
def effect (i : Insn) : Outcome Effect :=
  if i.opcode.isPseudo then .ok ⟨0, 0⟩
  else if i.opcode.isReturn then
    .error (i.blame .analyze .usage "return has no stack delta" none none)
  else if i.opcode.isInvoke then i.callEffect
  else if i.opcode = .multiNewArray then
    match i.operand with
    | .multiArray _ dims => .ok ⟨dims.toNat, 1⟩
    | _ => .error i.misfit
  else
    match i.opcode.effect? with
    | some e => .ok e
    | none =>
      .error (i.blame .analyze .invariant ("no stack delta for " ++ i.opcode.name)
        (some (Text.ofInt i.opcode.code)) none)

/-- The net change of the stack height. -/
def change (i : Insn) : Outcome Int := do return (← i.effect).change

/-- Whether an instruction may wait in an open region: calls, field access, constants, local
loads, table switches, and the instructions without operands that neither leave the method
nor take a monitor. -/
def isAdmissible (i : Insn) : Bool :=
  let op := i.opcode
  match op.shape with
  | .method | .dynamic | .field | .constant | .tableSwitch => true
  | .int => op = .bipush || op = .sipush
  | .slot => op.isLocalLoad
  | .plain =>
    !op.isReturn && op ≠ .athrow && op ≠ .wide && op ≠ .monitorEnter && op ≠ .monitorExit
      && op.isValid
  | _ => false

end Insn

end ClassWeaver
