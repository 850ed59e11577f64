import Mathlib.Tactic.Common
import ClassWeaver.Stack.Effect

/-!
# Opcodes, operands and outcomes

Small facts that the rest of the theory shares. What the families of opcodes have to do with
operand shapes is a finite matter: outside a short range of codes every family is empty
(`Opcode.ListedCode`), and inside it the codes can be gone through one by one.
`Except.bind_eq_ok_iff` takes a computation that succeeded apart, one step at a time.
-/

universe u v

/-- A computation in two steps succeeds exactly if both steps do. -/
theorem Except.bind_eq_ok_iff {ε : Type u} {α β : Type v} {x : Except ε α}
    {f : α → Except ε β} {b : β} :
    (x >>= f) = .ok b ↔ ∃ a, x = .ok a ∧ f a = .ok b := by
  cases x with
  | error e => simp [bind, Except.bind]
  | ok a => simp [bind, Except.bind]

namespace ClassWeaver

/-- An outcome whose result can be evaluated. -/
theorem Outcome.eq_ok_of_toOption {α : Type} {x : Outcome α} {a : α}
    (h : x.toOption = some a) : x = .ok a := by
  cases x with
  | error e => cases h
  | ok b => rw [Option.some.inj h]

namespace Opcode

/-- The codes with a mnemonic. -/
def ListedCode (n : Int) : Prop := -5 ≤ n ∧ n ≤ 201

instance (n : Int) : Decidable (ListedCode n) := inferInstanceAs (Decidable (_ ∧ _))

/-- A statement about all listed codes can be checked one by one. -/
theorem forall_listed {P : Opcode → Prop} (h : ∀ k : Fin 207, P ⟨(k : Nat) - 5⟩) {op : Opcode}
    (hop : ListedCode op.code) : P op := by
  obtain ⟨n⟩ := op
  obtain ⟨hlo, hhi⟩ : -5 ≤ n ∧ n ≤ 201 := hop
  have hk : (n + 5).toNat < 207 := by omega
  have hn : ((n + 5).toNat : Int) - 5 = n := by omega
  simpa only [hn] using h ⟨(n + 5).toNat, hk⟩

theorem listed_of_isValid {op : Opcode} (h : op.isValid = true) : ListedCode op.code := by
  simp only [isValid, within, Bool.and_eq_true, decide_eq_true_eq] at h
  unfold ListedCode
  omega

theorem within_of_unlisted {op : Opcode} (h : ¬ListedCode op.code) {a b : Int} (ha : -5 ≤ a)
    (hb : b ≤ 201) : op.within a b = false := by
  unfold ListedCode at h
  simp only [within, Bool.and_eq_false_iff, decide_eq_false_iff_not]
  omega

theorem ne_of_unlisted {op : Opcode} (h : ¬ListedCode op.code) {n : Int} (hn : ListedCode n) :
    op ≠ ⟨n⟩ := by
  rintro rfl
  exact h hn

/-- An opcode without mnemonic has no operand and is in no family. -/
theorem shape_of_unlisted {op : Opcode} (h : ¬ListedCode op.code) : op.shape = .plain := by
  have hne : ∀ {n : Int}, -5 ≤ n → n ≤ 201 → (op = ⟨n⟩) = False := fun h1 h2 =>
    eq_false (ne_of_unlisted h ⟨h1, h2⟩)
  have hw : ∀ {a b : Int}, -5 ≤ a → b ≤ 201 → op.within a b = false := within_of_unlisted h
  simp [shape, isJump, isConditionalJump, isUnconditional, isLocalLoad, isLocalStore,
    isFieldAccess, isMemberCall, takesClass, label, lineNumber, frame, tryCatch, localVariable,
    bipush, sipush, newArray, ldc, ldcW, ldc2W, ret, iinc, goto, jsr, gotoW, jsrW, ifNull,
    ifNonNull, tableSwitch, lookupSwitch, invokeDynamic, newObject, newRefArray, checkCast,
    instanceOf, multiNewArray, hne, hw]

theorem isJump_of_unlisted {op : Opcode} (h : ¬ListedCode op.code) : op.isJump = false := by
  have hne : ∀ {n : Int}, -5 ≤ n → n ≤ 201 → (op = ⟨n⟩) = False := fun h1 h2 =>
    eq_false (ne_of_unlisted h ⟨h1, h2⟩)
  have hw : ∀ {a b : Int}, -5 ≤ a → b ≤ 201 → op.within a b = false := within_of_unlisted h
  simp [isJump, isConditionalJump, isUnconditional, goto, jsr, gotoW, jsrW, ifNull, ifNonNull,
    hne, hw]

theorem listed_of_isJump {op : Opcode} (h : op.isJump = true) : ListedCode op.code := by
  by_contra hl
  rw [isJump_of_unlisted hl] at h
  cases h

/-- Which operands the families of opcodes have, gone through code by code. -/
theorem families_of_listed {op : Opcode} (h : ListedCode op.code) :
    (op.isJump = true → op.isValid = true ∧ op.isSwitch = false ∧ op ≠ ret ∧
      op.isReturn = false ∧ op ≠ athrow) ∧
    (op.shape = .jump ↔ op.isJump = true) ∧ (op.shape = .tableSwitch ↔ op = .tableSwitch) ∧
    (op.shape = .lookupSwitch ↔ op = .lookupSwitch) ∧
    (op.isCompactLoad = true ∨ op.isCompactStore = true → op.shape = .slot) ∧
    (op.isIndexedLocal = true ∨ op = ret → op.shape = .slot) ∧
    (op.isFieldAccess = true → op.shape = .field) ∧
    (op.isMemberCall = true → op.shape = .method) := by
  revert op
  refine @forall_listed _ ?_
  decide +kernel

/-- A jump neither switches nor leaves the method or a subroutine. -/
theorem not_final_of_isJump {op : Opcode} (h : op.isJump = true) :
    op.isSwitch = false ∧ op ≠ ret ∧ op.isReturn = false ∧ op ≠ athrow :=
  ((families_of_listed (listed_of_isJump h)).1 h).2

theorem isValid_of_isJump {op : Opcode} (h : op.isJump = true) : op.isValid = true :=
  ((families_of_listed (listed_of_isJump h)).1 h).1

/-- Operands that are jump targets belong to jumps. -/
theorem shape_eq_jump_iff {op : Opcode} : op.shape = .jump ↔ op.isJump = true := by
  by_cases h : ListedCode op.code
  · obtain ⟨-, hjump, -⟩ := families_of_listed h
    exact hjump
  · simp [shape_of_unlisted h, isJump_of_unlisted h]

theorem shape_eq_tableSwitch_iff {op : Opcode} :
    op.shape = .tableSwitch ↔ op = .tableSwitch := by
  by_cases h : ListedCode op.code
  · obtain ⟨-, -, htable, -⟩ := families_of_listed h
    exact htable
  · simp [shape_of_unlisted h, tableSwitch, ne_of_unlisted h (n := 0xAA) (by decide)]

theorem shape_eq_lookupSwitch_iff {op : Opcode} :
    op.shape = .lookupSwitch ↔ op = .lookupSwitch := by
  by_cases h : ListedCode op.code
  · obtain ⟨-, -, -, hlookup, -⟩ := families_of_listed h
    exact hlookup
  · simp [shape_of_unlisted h, lookupSwitch, ne_of_unlisted h (n := 0xAB) (by decide)]

theorem isSwitch_iff_shape {op : Opcode} :
    op.isSwitch = true ↔ op.shape = .tableSwitch ∨ op.shape = .lookupSwitch := by
  simp [isSwitch, shape_eq_tableSwitch_iff, shape_eq_lookupSwitch_iff]

theorem shape_tryCatch : tryCatch.shape = .tryCatch := by decide

/-- The compact loads and stores call for a local, which they name themselves. -/
theorem shape_of_compact {op : Opcode} (h : op.isCompactLoad = true ∨ op.isCompactStore = true) :
    op.shape = .slot := by
  have hl : ListedCode op.code := by
    simp only [isCompactLoad, isCompactStore, within, Bool.and_eq_true, decide_eq_true_eq] at h
    unfold ListedCode
    omega
  obtain ⟨-, -, -, -, hcompact, -⟩ := families_of_listed hl
  exact hcompact h

end Opcode

namespace Insn

instance (i : Insn) : Decidable i.WellShaped := inferInstanceAs (Decidable (_ ∨ _))

/-- An operand that is present has the shape its opcode calls for. -/
theorem WellShaped.shape_eq {i : Insn} (h : i.WellShaped) (hne : i.operand ≠ .none) :
    i.opcode.shape = i.operand.shape :=
  (h.resolve_right fun hc => hne hc.1).symm

/-- An opcode that calls for an operand has it, the compact loads and stores apart. -/
theorem WellShaped.shape_operand {i : Insn} (h : i.WellShaped) (hs : i.opcode.shape ≠ .slot) :
    i.operand.shape = i.opcode.shape :=
  h.resolve_right fun hc => hs (Opcode.shape_of_compact hc.2)

/-- Only label entries place a label. -/
theorem placed?_of_ne_label {i : Insn} (h : i.opcode ≠ .label) : i.placed? = none := by
  unfold placed?
  split
  · exact if_neg h
  · rfl

/-- By how much an instruction raises the stack. -/
def rise (i : Insn) : Int :=
  match i.effect with
  | .ok e => e.pushes - e.pops
  | .error _ => 0

theorem rise_eq {i : Insn} {e : Effect} (h : i.effect = .ok e) : i.rise = e.pushes - e.pops := by
  rw [rise, h]

end Insn

end ClassWeaver
