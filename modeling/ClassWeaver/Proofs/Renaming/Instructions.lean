import Mathlib.Logic.Equiv.Defs
import ClassWeaver.Proofs.Renaming.Agreement
import ClassWeaver.Stack.Heights

/-!
# Renaming the labels of instructions

The label numbers of an instruction are names: renaming them keeps the opcode and the kind of the
operand, and so everything that does not look at a label. What an instruction does to the stack, how
control leaves it and whether it has a text to be named by stay as they are.
-/

namespace ClassWeaver.Insn

variable {i : Insn} {f g : Label → Label}

/-- The instruction with its labels renamed. -/
def mapLabels (f : Label → Label) (i : Insn) : Insn := ⟨i.opcode, i.operand.mapLabels f⟩

@[simp] theorem opcode_mapLabels : (i.mapLabels f).opcode = i.opcode := rfl

@[simp] theorem operand_mapLabels : (i.mapLabels f).operand = i.operand.mapLabels f := rfl

theorem mapLabels_mapLabels (f g : Label → Label) (i : Insn) :
    (i.mapLabels g).mapLabels f = i.mapLabels fun l => f (g l) := by
  obtain ⟨op, x⟩ := i
  cases x <;> simp [mapLabels, Operand.mapLabels]

/-- Renaming by a permutation can be undone. -/
theorem mapLabels_injective (σ : Equiv.Perm Label) : (mapLabels σ).Injective := by
  refine Function.LeftInverse.injective (g := mapLabels σ.symm) fun i => ?_
  rw [mapLabels_mapLabels]
  obtain ⟨op, x⟩ := i
  cases x <;> simp [mapLabels, Operand.mapLabels]

theorem labels_mapLabels (f : Label → Label) (i : Insn) :
    (i.mapLabels f).labels = i.labels.map f := by
  obtain ⟨op, x⟩ := i
  cases x <;> simp [mapLabels, labels, Operand.mapLabels, Operand.labels]

/-- A label entry places the new name of its label. -/
theorem placed?_rename (f : Label → Label) (i : Insn) :
    (i.mapLabels f).placed? = i.placed?.map f := by
  obtain ⟨op, x⟩ := i
  cases x with
  | label l =>
    by_cases hop : op = .label
    · simp [mapLabels, placed?, Operand.mapLabels, hop]
    · simp [mapLabels, placed?, Operand.mapLabels, hop]
  | _ => rfl

/-! ### Builders -/

@[simp] theorem mapLabels_plain (f : Label → Label) (op : Opcode) :
    (plain op).mapLabels f = plain op := rfl

@[simp] theorem mapLabels_load (f : Label → Label) (op : Opcode) (index : UInt16) :
    (load op index).mapLabels f = load op index := rfl

@[simp] theorem mapLabels_access (f : Label → Label) (op : Opcode) (owner name desc : Text) :
    (access op owner name desc).mapLabels f = access op owner name desc := rfl

@[simp] theorem mapLabels_place (f : Label → Label) (l : Label) :
    (place l).mapLabels f = place (f l) := rfl

@[simp] theorem mapLabels_table (f : Label → Label) (low : Int32) (dflt : Label)
    (targets : List Label) :
    (table low dflt targets).mapLabels f = table low (f dflt) (targets.map f) := by
  simp [table, mapLabels, Operand.mapLabels]

/-! ### What does not depend on labels -/

theorem shape_mapLabels (f : Label → Label) (x : Operand) : (x.mapLabels f).shape = x.shape := by
  cases x <;> rfl

theorem WellShaped.mapLabels (f : Label → Label) (h : i.WellShaped) :
    (i.mapLabels f).WellShaped := by
  refine h.imp (fun hshape => ?_) fun ⟨hnone, hcompact⟩ => ⟨?_, hcompact⟩
  · rw [operand_mapLabels, shape_mapLabels, hshape, opcode_mapLabels]
  · rw [operand_mapLabels, hnone]
    rfl

theorem member?_mapLabels (f : Label → Label) (i : Insn) :
    (i.mapLabels f).member? = i.member? := by
  obtain ⟨op, x⟩ := i
  cases x <;> rfl

theorem slot?_mapLabels (f : Label → Label) (i : Insn) : (i.mapLabels f).slot? = i.slot? := by
  obtain ⟨op, x⟩ := i
  cases x <;> rfl

theorem isAdmissible_mapLabels (f : Label → Label) (i : Insn) :
    (i.mapLabels f).isAdmissible = i.isAdmissible := rfl

theorem finalNeed?_mapLabels (f : Label → Label) (i : Insn) :
    (i.mapLabels f).finalNeed? = i.finalNeed? := rfl

/-! ### Faults -/

/-- Whether an instruction has a text does not depend on its labels. -/
theorem text?_agree (f : Label → Label) (i : Insn) :
    Option.Rel (fun _ _ => True) i.text? (i.mapLabels f).text? := by
  obtain ⟨op, x⟩ := i
  cases x with
  | lookupSwitch dflt keys targets =>
    simp only [mapLabels, text?, Operand.mapLabels, casesText?, List.length_map]
    split
    · exact .some trivial
    · exact .none
  | _ => exact .some trivial

/-- Instructions that both have a text, or neither, are both reported or neither. -/
theorem blame_agree_of_text? {R : Text → Text → Prop} {i i' : Insn}
    (htext : Option.Rel R i.text? i'.text?) (phase phase' : Phase) (kind kind' : FaultKind)
    (detail detail' : Text) (value value' : Option Text) (cause cause' : Option Fault) :
    (i.blame phase kind detail value cause).Agree
      (i'.blame phase' kind' detail' value' cause') := by
  unfold blame
  generalize i.text? = text, i'.text? = text' at htext
  cases htext <;> trivial

theorem blame_agree (f : Label → Label) (i : Insn) (phase phase' : Phase) (kind kind' : FaultKind)
    (detail detail' : Text) (value value' : Option Text) (cause cause' : Option Fault) :
    (i.blame phase kind detail value cause).Agree
      ((i.mapLabels f).blame phase' kind' detail' value' cause') :=
  blame_agree_of_text? (text?_agree f i) ..

/-! ### The stack -/

/-- The effect of an instruction does not depend on its labels. -/
theorem effect_agree (f : Label → Label) (i : Insn) :
    Outcome.Agree (· = ·) i.effect (i.mapLabels f).effect := by
  have hmisfit : Outcome.Agree (· = ·) (.error i.misfit : Outcome Effect)
      (.error (i.mapLabels f).misfit) := blame_agree ..
  have hcall : Outcome.Agree (· = ·) i.callEffect (i.mapLabels f).callEffect := by
    unfold callEffect
    rw [member?_mapLabels]
    split
    · exact hmisfit
    · split
      · exact blame_agree ..
      · exact rfl
  -- the opcode chooses the case, and no case reads an operand that has labels
  unfold Insn.effect
  refine .ite Iff.rfl (fun _ => rfl) fun _ => .ite Iff.rfl (fun _ => blame_agree ..) fun _ =>
    .ite Iff.rfl (fun _ => hcall) fun _ => .ite Iff.rfl (fun _ => ?_) fun _ => ?_
  · obtain ⟨op, x⟩ := i
    cases x with
    | multiArray desc dims => exact rfl
    | _ => exact hmisfit
  · rw [opcode_mapLabels]
    split
    · exact rfl
    · exact blame_agree ..

theorem change_agree (f : Label → Label) (i : Insn) :
    Outcome.Agree (· = ·) i.change (i.mapLabels f).change :=
  (effect_agree f i).bind fun _ _ he => congrArg Effect.change he

theorem effect_mapLabels {e : Effect} (f : Label → Label) :
    (i.mapLabels f).effect = .ok e ↔ i.effect = .ok e := by
  constructor
  · intro h
    obtain ⟨e', he', rfl⟩ := (effect_agree f i).ok_eq h
    exact he'
  · intro h
    obtain ⟨e', he', rfl⟩ := (effect_agree f i).eq_ok h
    exact he'

end ClassWeaver.Insn
