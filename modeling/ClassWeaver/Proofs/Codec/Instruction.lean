import ClassWeaver.Code.Encode
import ClassWeaver.Proofs.Codec.Pool
import ClassWeaver.Proofs.Renaming.Instructions

/-!
# Instructions in bytes

An instruction has several forms in bytes: a local can be named in the opcode, behind it or
behind a `wide`, a constant by one byte or two, a displacement by two bytes or four. The reader
undoes the choice that the writer made, so that an instruction comes back in its general form
(`Insn.general`), with offsets in place of labels, whichever form was written.

Not every instruction can be written: `Insn.Encodable` says when opcode and operand fit and the
operand is in range. Some misfits are written all the same, but as bytes of another
instruction.
-/

namespace ClassWeaver

/-! ### General forms -/

namespace Insn

/-- Whether the entry takes code bytes. -/
def isReal (i : Insn) : Bool := !i.opcode.isPseudo

/-- The instruction in its general form: compact and wide forms are told apart no more, and an
interface call says that it is one. -/
def general (i : Insn) : Insn :=
  match i.operand with
  | .none =>
    if i.opcode.isCompactLoad then
      let n := (i.opcode.code - 0x1A).toNat
      ⟨⟨0x15 + (n / 4 : Nat)⟩, .slot (n % 4).toUInt16⟩
    else if i.opcode.isCompactStore then
      let n := (i.opcode.code - 0x3B).toNat
      ⟨⟨0x36 + (n / 4 : Nat)⟩, .slot (n % 4).toUInt16⟩
    else i
  | .constant v => ⟨.ldc, .constant v⟩
  | .jump target =>
    ⟨if i.opcode = .gotoW then .goto else if i.opcode = .jsrW then .jsr else i.opcode,
      .jump target⟩
  | .method owner name desc onInterface =>
    ⟨i.opcode, .method owner name desc (onInterface || i.opcode = .invokeInterface)⟩
  | _ => i

/-- The instruction as it is but for a call, which says whether it is one on an interface. -/
def flagged (i : Insn) : Insn :=
  match i.operand with
  | .method owner name desc onInterface =>
    ⟨i.opcode, .method owner name desc (onInterface || i.opcode = .invokeInterface)⟩
  | _ => i

/-- The instruction is in its general form, up to what a call says. -/
def Normal (i : Insn) : Prop := i.general = i.flagged

/-- Opcode and operand fit, and the operand is in the range that its bytes can hold. A table
switch may disagree with its bounds only if it has too many targets to be written. -/
def Encodable (p : Pool) (i : Insn) : Prop :=
  match i.operand with
  | .none =>
    i.opcode.isValid = true ∧ i.opcode.shape = .plain ∧ i.opcode ≠ .wide ∨
      i.opcode.isCompactLoad = true ∨ i.opcode.isCompactStore = true
  | .int v =>
    i.opcode = .bipush ∧ -128 ≤ v.toInt ∧ v.toInt ≤ 127 ∨
      i.opcode = .sipush ∧ -32768 ≤ v.toInt ∧ v.toInt ≤ 32767 ∨
      i.opcode = .newArray ∧ 0 ≤ v.toInt ∧ v.toInt ≤ 255
  | .slot _ => i.opcode.isIndexedLocal = true ∨ i.opcode = .ret
  | .increment _ _ => i.opcode = .iinc
  | .type _ => i.opcode.takesClass = true
  | .field _ _ _ => i.opcode.isFieldAccess = true
  | .method _ _ _ _ => i.opcode.isMemberCall = true
  | .dynamic _ _ _ => i.opcode = .invokeDynamic
  | .jump _ => i.opcode.isJump = true
  | .constant v => i.opcode.shape = .constant ∧ ∀ n, v = .pooled n → p.Pooled n
  | .tableSwitch low high _ targets =>
    i.opcode = .tableSwitch ∧ (targets.length < 65536 →
      low.toInt ≤ high.toInt ∧ high.toInt - low.toInt < 65536)
  | .lookupSwitch _ keys targets => i.opcode = .lookupSwitch ∧ keys.length = targets.length
  | .multiArray _ _ => i.opcode = .multiNewArray
  | .label _ => i.opcode = .label
  | .line _ _ => i.opcode = .lineNumber
  | .frame _ => i.opcode = .frame
  | .tryCatch _ _ _ _ => i.opcode = .tryCatch
  | .localVariable _ _ _ _ _ => i.opcode = .localVariable

/-- The pool holds the constant of the instruction at the index. -/
def Finds (q : Pool) (i : Insn) (n : UInt16) : Prop :=
  match i.operand with
  | .constant v => q.loadable n = .ok v
  | .field owner name desc => q.member n = .ok ⟨owner, name, desc, Tag.fieldRef⟩
  | .method owner name desc onInterface => q.member n = .ok ⟨owner, name, desc,
      if onInterface || i.opcode = .invokeInterface then Tag.interfaceMethodRef
      else Tag.methodRef⟩
  | .dynamic name desc bootstrap =>
    ∃ k, q.expect n Tag.invokeDynamic = .ok (.pair Tag.invokeDynamic bootstrap k) ∧
      q.nameAndType k = .ok (name, desc)
  | .type desc => q.className n = .ok desc
  | .multiArray desc _ => q.className n = .ok desc
  | _ => True

theorem Encodable.mono {p q : Pool} {i : Insn} (h : i.Encodable p) (hpq : p.Within q) :
    i.Encodable q := by
  obtain ⟨op, x⟩ := i
  cases x with
  | constant v => exact ⟨h.1, fun n hn => hpq.pooled (h.2 n hn)⟩
  | _ => exact h

end Insn

namespace Code

open Pool

/-- An instruction that can be written finds its constant in the pool that it was added to. -/
theorem adds_addConstant {p : Pool} (hp : p.Sound) {i : Insn} (hi : i.Encodable p)
    {out : UInt16 × Pool} (h : addConstant p i = .ok out) : Adds p out fun q n => i.Finds q n := by
  obtain ⟨op, x⟩ := i
  have hnone : ∀ {P : Pool → UInt16 → Prop}, (∀ q n, P q n) → Adds p (0, p) P := fun hP =>
    ⟨hp, .refl p, fun q _ _ => hP q 0⟩
  cases x with
  | constant v => exact adds_addLoadable hp hi.2 h
  | field owner name desc =>
    obtain rfl := Except.ok.inj h
    exact adds_addMember hp (by decide) owner name desc
  | method owner name desc onInterface =>
    obtain rfl := Except.ok.inj h
    refine adds_addMember hp ?_ owner name desc
    split <;> decide
  | dynamic name desc bootstrap =>
    obtain rfl := Except.ok.inj h
    exact adds_addInvokeDynamic hp bootstrap name desc
  | type desc =>
    obtain rfl := Except.ok.inj h
    exact adds_addClass hp desc
  | multiArray desc dims =>
    obtain rfl := Except.ok.inj h
    exact adds_addClass hp desc
  | _ =>
    obtain rfl := Except.ok.inj h
    exact hnone fun _ _ => trivial

/-! ### Which operands are read

The tests of `readOperands` go through the opcodes one family after the other. That an opcode of
a family passes all tests before that of its own is checked code by code. -/

section Operands

variable {p : Pool} {pc : Nat} {op : Opcode}

theorem ofByte_opcodeByte (h : op.isValid = true) :
    (⟨((opcodeByte op).toNat : Int)⟩ : Opcode) = op :=
  Opcode.forall_listed
    (P := fun op => op.isValid = true → (⟨((opcodeByte op).toNat : Int)⟩ : Opcode) = op)
    (by decide +kernel) (Opcode.listed_of_isValid h) h

/-- An instruction is read as its opcode and then its operands. -/
theorem reads_insn {bs : List UInt8} {i : Insn} (hop : op.isValid = true)
    (h : Reads (readOperands p pc op) (pc + 1) bs i) :
    Reads (readInsn p) pc (opcodeByte op :: bs) (pc, i) := by
  refine .here (f := fun pc => do
    let op : Opcode := ⟨(← Read.u1).toNat⟩
    let i ← (readOperands p pc op).under (op.name ++ " at offset " ++ Text.ofNat pc)
    return (pc, i)) ?_
  refine (Reads.u1 (opcodeByte op)).bind ?_
  rw [ofByte_opcodeByte hop]
  exact (h.under _).map fun i => (pc, i)

/-- Which tests an opcode does not meet, by the shape of its operand. -/
theorem tests_of_listed (h : Opcode.ListedCode op.code) :
    (op.shape ≠ .plain → op ≠ .wide) ∧
    (op.shape = .plain ∨ op.shape = .slot ∨ op.shape = .jump → op ≠ .bipush ∧ op ≠ .sipush ∧
      op ≠ .newArray ∧ op ≠ .ldc ∧ (op = .ldcW || op = .ldc2W) = false ∧ op ≠ .iinc) ∧
    (op.shape ≠ .slot → (op.isIndexedLocal || op = .ret) = false ∧ op.isCompactLoad = false ∧
      op.isCompactStore = false) ∧
    (op.isCompactLoad = true ∨ op.isCompactStore = true →
      (op.isIndexedLocal || op = .ret) = false) ∧
    (op.shape = .plain → op ≠ .gotoW ∧ op ≠ .jsrW ∧ op.isJump = false ∧ op ≠ .tableSwitch ∧
      op ≠ .lookupSwitch ∧ op.isFieldAccess = false ∧ op.isMemberCall = false ∧
      op ≠ .invokeDynamic ∧ op.takesClass = false ∧ op ≠ .multiNewArray) := by
  revert op
  refine @Opcode.forall_listed _ ?_
  decide +kernel

theorem readOperands_plain (hvalid : op.isValid = true) (hshape : op.shape = .plain)
    (hwide : op ≠ .wide) : readOperands p pc op = return .plain op := by
  obtain ⟨-, hearly, hlocal, -, hlate⟩ := tests_of_listed (Opcode.listed_of_isValid hvalid)
  obtain ⟨h1, h2, h3, h4, h5, h6⟩ := hearly (.inl hshape)
  obtain ⟨h7, h8, h9⟩ := hlocal (by simp [hshape])
  obtain ⟨h10, h11, h12, h13, h14, h15, h16, h17, h18, h19⟩ := hlate hshape
  simp only [readOperands, hvalid, hwide, h1, h2, h3, h4, h5, h6, h7, h8, h9, h10, h11, h12, h13,
    h14, h15, h16, h17, h18, h19, Bool.not_true, Bool.false_eq_true, if_false]

theorem isValid_of_indexed (h : op.isIndexedLocal = true ∨ op = .ret) : op.isValid = true := by
  rcases h with h | rfl
  · simp only [Opcode.isIndexedLocal, Opcode.isValid, Opcode.within, Bool.and_eq_true,
      Bool.or_eq_true, decide_eq_true_eq] at h ⊢
    omega
  · decide

theorem shape_of_indexed (h : op.isIndexedLocal = true ∨ op = .ret) : op.shape = .slot := by
  obtain ⟨-, -, -, -, -, hindexed, -⟩ :=
    Opcode.families_of_listed (Opcode.listed_of_isValid (isValid_of_indexed h))
  exact hindexed h

theorem readOperands_indexed (h : op.isIndexedLocal = true ∨ op = .ret) :
    readOperands p pc op = do return ⟨op, .slot (← Read.u1).toUInt16⟩ := by
  have hvalid := isValid_of_indexed h
  have hshape := shape_of_indexed h
  have hor : (op.isIndexedLocal || op = .ret) = true := by simpa using h
  obtain ⟨hwide, hearly, -⟩ := tests_of_listed (Opcode.listed_of_isValid hvalid)
  obtain ⟨h1, h2, h3, h4, h5, -⟩ := hearly (.inr (.inl hshape))
  simp only [readOperands, hvalid, hwide (by simp [hshape]), h1, h2, h3, h4, h5, hor,
    Bool.not_true, Bool.false_eq_true, if_false, if_true]

theorem isValid_of_compact (h : op.isCompactLoad = true ∨ op.isCompactStore = true) :
    op.isValid = true := by
  simp only [Opcode.isCompactLoad, Opcode.isCompactStore, Opcode.isValid, Opcode.within,
    Bool.and_eq_true, decide_eq_true_eq] at h ⊢
  omega

theorem general_of_plain (h : op.shape = .plain) : (⟨op, .none⟩ : Insn).general = .plain op := by
  have hload : ¬op.isCompactLoad = true := by
    intro hc
    rw [Opcode.shape_of_compact (.inl hc)] at h
    cases h
  have hstore : ¬op.isCompactStore = true := by
    intro hc
    rw [Opcode.shape_of_compact (.inr hc)] at h
    cases h
  exact (if_neg hload).trans (if_neg hstore)

theorem general_of_compact (h : op.isCompactLoad = true ∨ op.isCompactStore = true) :
    ∃ op' index, (Insn.plain op).general = ⟨op', .slot index⟩ := by
  by_cases hload : op.isCompactLoad = true
  · exact ⟨_, _, if_pos hload⟩
  · exact ⟨_, _, (if_neg hload).trans (if_pos (h.resolve_left hload))⟩

/-- The compact loads and stores are read in their general form. -/
theorem readOperands_compact (h : op.isCompactLoad = true ∨ op.isCompactStore = true) :
    readOperands p pc op = return (Insn.plain op).general := by
  have hvalid := isValid_of_compact h
  have hshape := Opcode.shape_of_compact h
  obtain ⟨hwide, hearly, -, hindexed, -⟩ := tests_of_listed (Opcode.listed_of_isValid hvalid)
  obtain ⟨h1, h2, h3, h4, h5, -⟩ := hearly (.inr (.inl hshape))
  simp only [readOperands, hvalid, hwide (by simp [hshape]), h1, h2, h3, h4, h5, hindexed h,
    Bool.not_true, Bool.false_eq_true, if_false]
  by_cases hload : op.isCompactLoad = true
  · have hgeneral : (Insn.plain op).general = _ := if_pos hload
    rw [hgeneral, if_pos hload]
    rfl
  · have hstore := h.resolve_left hload
    have hgeneral : (Insn.plain op).general = _ := (if_neg hload).trans (if_pos hstore)
    rw [hgeneral, if_neg hload, if_pos hstore]
    rfl

theorem readOperands_jump (h : op.isJump = true) (hgoto : op ≠ .gotoW) (hjsr : op ≠ .jsrW) :
    readOperands p pc op = do return ⟨op, .jump (pc + (← Read.i2).toInt)⟩ := by
  have hvalid := Opcode.isValid_of_isJump h
  have hshape := Opcode.shape_eq_jump_iff.mpr h
  obtain ⟨hwide, hearly, hlocal, -⟩ := tests_of_listed (Opcode.listed_of_isValid hvalid)
  obtain ⟨h1, h2, h3, h4, h5, h6⟩ := hearly (.inr (.inr hshape))
  obtain ⟨h7, h8, h9⟩ := hlocal (by simp [hshape])
  simp only [readOperands, hvalid, hwide (by simp [hshape]), hgoto, hjsr, h, h1, h2, h3, h4, h5,
    h6, h7, h8, h9, Bool.not_true, Bool.false_eq_true, if_false, if_true]

theorem readOperands_field (h : op.isFieldAccess = true) :
    op.isValid = true ∧ readOperands p pc op = do
      let m ← p.member (← Read.u2)
      return ⟨op, .field m.owner m.name m.desc⟩ := by
  obtain ⟨n⟩ := op
  simp only [Opcode.isFieldAccess, Opcode.within, Bool.and_eq_true, decide_eq_true_eq] at h
  obtain rfl | rfl | rfl | rfl : n = 178 ∨ n = 179 ∨ n = 180 ∨ n = 181 := by omega
  all_goals exact ⟨rfl, rfl⟩

theorem readOperands_call (h : op.isMemberCall = true) :
    op.isValid = true ∧ readOperands p pc op = readCall p op := by
  obtain ⟨n⟩ := op
  simp only [Opcode.isMemberCall, Opcode.within, Bool.and_eq_true, decide_eq_true_eq] at h
  obtain rfl | rfl | rfl | rfl : n = 182 ∨ n = 183 ∨ n = 184 ∨ n = 185 := by omega
  all_goals exact ⟨rfl, rfl⟩

theorem readOperands_class (h : op.takesClass = true) :
    op.isValid = true ∧
      readOperands p pc op = do return ⟨op, .type (← p.className (← Read.u2))⟩ := by
  simp only [Opcode.takesClass, Bool.or_eq_true, decide_eq_true_eq] at h
  rcases h with ((rfl | rfl) | rfl) | rfl
  all_goals exact ⟨rfl, rfl⟩

/-- What can be written has the operand that its opcode calls for. -/
theorem wellShaped_of_encodable {i : Insn} (h : i.Encodable p) : i.WellShaped := by
  obtain ⟨op, x⟩ := i
  cases x with
  | none => exact h.imp (fun h => h.2.1.symm) fun h => ⟨rfl, h⟩
  | int v =>
    refine .inl ?_
    rcases h with ⟨hop, -⟩ | ⟨hop, -⟩ | ⟨hop, -⟩
    all_goals
      obtain rfl : op = _ := hop
      rfl
  | slot index =>
    exact .inl (shape_of_indexed h).symm
  | type desc =>
    refine .inl ?_
    have hop : op.takesClass = true := h
    simp only [Opcode.takesClass, Bool.or_eq_true, decide_eq_true_eq] at hop
    rcases hop with ((rfl | rfl) | rfl) | rfl
    all_goals rfl
  | field owner name desc =>
    have hvalid : op.isValid = true := (@readOperands_field p 0 op h).1
    obtain ⟨-, -, -, -, -, -, hfield, -⟩ :=
      Opcode.families_of_listed (Opcode.listed_of_isValid hvalid)
    exact .inl (hfield h).symm
  | method owner name desc onInterface =>
    have hvalid : op.isValid = true := (@readOperands_call p 0 op h).1
    obtain ⟨-, -, -, -, -, -, -, hcall⟩ :=
      Opcode.families_of_listed (Opcode.listed_of_isValid hvalid)
    exact .inl (hcall h).symm
  | jump target => exact .inl (Opcode.shape_eq_jump_iff.mpr h).symm
  | constant v => exact .inl h.1.symm
  | tableSwitch low high dflt targets =>
    obtain rfl : op = _ := h.1
    exact .inl rfl
  | lookupSwitch dflt keys targets =>
    obtain rfl : op = _ := h.1
    exact .inl rfl
  | _ =>
    obtain rfl : op = _ := h
    exact .inl rfl

end Operands

/-! ### Locals and constants -/

section Forms

variable {p q : Pool} {pc : Nat} {op : Opcode}

theorem general_compactOpcode {index : UInt16} (hop : op.isIndexedLocal = true)
    (hindex : index ≤ 3) :
    ((compactOpcode op index).isCompactLoad = true ∨
      (compactOpcode op index).isCompactStore = true) ∧
      (Insn.plain (compactOpcode op index)).general = ⟨op, .slot index⟩ := by
  have hlt : index.toNat < 4 := Nat.lt_succ_of_le (UInt16.le_iff_toNat_le.mp hindex)
  have hall := Opcode.forall_listed
    (P := fun op => op.isIndexedLocal = true → ∀ k : Fin 4,
      ((compactOpcode op (k : Nat).toUInt16).isCompactLoad = true ∨
        (compactOpcode op (k : Nat).toUInt16).isCompactStore = true) ∧
        (Insn.plain (compactOpcode op (k : Nat).toUInt16)).general =
          ⟨op, .slot (k : Nat).toUInt16⟩)
    (by decide +kernel) (Opcode.listed_of_isValid (isValid_of_indexed (.inl hop))) hop
    ⟨index.toNat, hlt⟩
  rwa [Nat.toUInt16_eq, UInt16.ofNat_toNat] at hall

theorem toUInt16_toUInt8 {n : UInt16} (h : n ≤ 255) : n.toUInt8.toUInt16 = n := by
  have hle := UInt16.le_iff_toNat_le.mp h
  refine UInt16.toNat_inj.mp ?_
  rw [UInt8.toNat_toUInt16, UInt16.toNat_toUInt8]
  exact Nat.mod_eq_of_lt (Nat.lt_succ_of_le hle)

/-- What stands behind a `wide`. -/
theorem reads_wide {bs : List UInt8} {i : Insn} (h : Reads readWide (pc + 1) bs i) :
    Reads (readInsn q) pc (opcodeByte .wide :: bs) (pc, i) :=
  reads_insn (by decide) h

theorem reads_slot (h : op.isIndexedLocal = true ∨ op = .ret) (index : UInt16) :
    Reads (readInsn q) pc (slotBytes op index) (pc, ⟨op, .slot index⟩) := by
  have hvalid := isValid_of_indexed h
  unfold slotBytes
  split
  · next hshort =>
    obtain ⟨hindexed, hindex⟩ : op.isIndexedLocal = true ∧ index ≤ 3 := by simpa using hshort
    obtain ⟨hcompact, hgeneral⟩ := general_compactOpcode hindexed hindex
    refine reads_insn (isValid_of_compact hcompact) ?_
    rw [readOperands_compact hcompact, hgeneral]
    exact .pure _
  · split
    · next hbyte =>
      refine reads_insn hvalid ?_
      rw [readOperands_indexed h]
      have hread : Reads (do return (⟨op, .slot (← Read.u1).toUInt16⟩ : Insn)) (pc + 1)
          [index.toUInt8] ⟨op, .slot index.toUInt8.toUInt16⟩ := (Reads.u1 index.toUInt8).map _
      rwa [toUInt16_toUInt8 hbyte] at hread
    · refine reads_wide ((Reads.u1 (opcodeByte op)).bind ((Reads.word index).last ?_))
      have hne : op ≠ .iinc := by
        rintro rfl
        exact absurd h (by decide)
      have hor : (op.isIndexedLocal || op = .ret) = true := by simpa using h
      rw [ofByte_opcodeByte hvalid, if_neg hne, if_pos hor]
      exact .pure _

theorem reads_increment (index : UInt16) (delta : Int16) :
    Reads (readInsn q) pc (incrementBytes index delta) (pc, ⟨.iinc, .increment index delta⟩) := by
  unfold incrementBytes
  split
  · next hshort =>
    obtain ⟨⟨hindex, hlow⟩, hhigh⟩ :
        (index ≤ 255 ∧ -128 ≤ delta.toInt) ∧ delta.toInt ≤ 127 := by
      simpa [isShortIncrement] using hshort
    have hdelta : (Int8.ofInt delta.toInt).toInt16 = delta := by
      refine Int16.toInt_inj.mp ?_
      rw [Int8.toInt_toInt16, Int8.toInt_ofInt_of_le (by omega) (by omega)]
    have hread : Reads (do
        let index ← Read.u1
        return (⟨.iinc, .increment index.toUInt16 (← Read.i1).toInt16⟩ : Insn)) (pc + 1)
        ([index.toUInt8] ++ signedBigEndian 1 delta.toInt)
        ⟨.iinc, .increment index.toUInt8.toUInt16 (Int8.ofInt delta.toInt).toInt16⟩ :=
      (Reads.u1 index.toUInt8).bind ((Reads.i1 delta.toInt).map _)
    rw [toUInt16_toUInt8 hindex, hdelta] at hread
    exact reads_insn (by decide) hread
  · have hread : Reads Read.i2 (pc + 1 + [opcodeByte .iinc].length + (u2 index).length)
        (signedBigEndian 2 delta.toInt) delta := by
      have h := @Reads.i2 (pc + 1 + [opcodeByte .iinc].length + (u2 index).length) delta.toInt
      rwa [Int16.ofInt_toInt] at h
    have hrest : Reads readWide (pc + 1)
        ([opcodeByte .iinc] ++ (u2 index ++ signedBigEndian 2 delta.toInt))
        ⟨.iinc, .increment index delta⟩ :=
      (Reads.u1 (opcodeByte .iinc)).bind ((Reads.word index).bind (hread.map _))
    exact reads_wide hrest

theorem reads_int {v : Int32} (h : (⟨op, .int v⟩ : Insn).Encodable p) :
    Reads (readInsn q) pc
      (opcodeByte op :: signedBigEndian (if op = .sipush then 2 else 1) v.toInt)
      (pc, ⟨op, .int v⟩) := by
  rcases h with ⟨hop, hlow, hhigh⟩ | ⟨hop, hlow, hhigh⟩ | ⟨hop, hlow, hhigh⟩
  · obtain rfl : op = .bipush := hop
    have hv : (Int8.ofInt v.toInt).toInt32 = v := by
      refine Int32.toInt_inj.mp ?_
      rw [Int8.toInt_toInt32, Int8.toInt_ofInt_of_le (by omega) (by omega)]
    have hread : Reads (readOperands q pc .bipush) (pc + 1) (signedBigEndian 1 v.toInt)
        ⟨.bipush, .int (Int8.ofInt v.toInt).toInt32⟩ := (Reads.i1 v.toInt).map _
    rw [hv] at hread
    exact reads_insn (by decide) hread
  · obtain rfl : op = .sipush := hop
    have hv : (Int16.ofInt v.toInt).toInt32 = v := by
      refine Int32.toInt_inj.mp ?_
      rw [Int16.toInt_toInt32, Int16.toInt_ofInt_of_le (by omega) (by omega)]
    have hread : Reads (readOperands q pc .sipush) (pc + 1) (signedBigEndian 2 v.toInt)
        ⟨.sipush, .int (Int16.ofInt v.toInt).toInt32⟩ := (Reads.i2 v.toInt).map _
    rw [hv] at hread
    exact reads_insn (by decide) hread
  · obtain rfl : op = .newArray := hop
    obtain ⟨b, hb⟩ : ∃ b, signedBigEndian 1 v.toInt = [b] :=
      List.length_eq_one_iff.mp (length_signedBigEndian 1 v.toInt)
    have hv : Int32.ofNat b.toNat = v := by
      have hnat := ofBigEndian_signed 1 v.toInt
      rw [hb] at hnat
      have hbyte : b.toNat = v.toInt.toNat := by
        simp only [ofBigEndian, List.foldl_cons, List.foldl_nil] at hnat
        omega
      refine Int32.toInt_inj.mp ?_
      rw [Int32.toInt_ofNat_of_lt (by omega), hbyte]
      omega
    have hread : Reads (readOperands q pc .newArray) (pc + 1) [b]
        ⟨.newArray, .int (Int32.ofNat b.toNat)⟩ := (Reads.u1 b).map _
    rw [hv, ← hb] at hread
    exact reads_insn (by decide) hread

theorem reads_constant {v : Loadable} {n : UInt16} (h : q.loadable n = .ok v) :
    Reads (readInsn q) pc (constantBytes p n) (pc, ⟨.ldc, .constant v⟩) := by
  have hlong : ∀ pos, Reads (do
      let index ← Read.u2
      return (⟨.ldc, .constant (← q.loadable index)⟩ : Insn)) pos (u2 n)
      ⟨.ldc, .constant v⟩ := fun pos => (Reads.word n).last ((Reads.lift h).map _)
  unfold constantBytes
  split
  · exact reads_insn (by decide) (hlong _)
  · split
    · next hn =>
      refine reads_insn (by decide) ((Reads.u1 n.toUInt8).last ?_)
      rw [toUInt16_toUInt8 hn]
      exact (Reads.lift h).map _
    · exact reads_insn (by decide) (hlong _)

end Forms

/-! ### Jumps and switches -/

/-- The offset of a label, zero for one that has none. -/
def Layout.at (y : Layout) (l : Label) : Int := (y.labels.getD l.toNat 0 : Nat)

/-- Every offset of the layout fits 16 bits. -/
def Layout.Short (y : Layout) : Prop := ∀ l n, y.offset l = .ok n → n < 65536

section Targets

variable {q : Pool} {y : Layout} {pc pos : Nat} {l : Label} {delta : Int}

theorem offset_eq_ok {n : Nat} (h : y.offset l = .ok n) :
    0 ≤ l ∧ y.labels[l.toNat]? = some n ∧ y.at l = n := by
  unfold Layout.offset at h
  split at h
  · cases h
  · next hl =>
    split at h
    · next k hk =>
      obtain rfl := Except.ok.inj h
      refine ⟨Int.not_lt.mp hl, hk, ?_⟩
      rw [Layout.at, Array.getD_eq_getD_getElem?, hk, Option.getD_some]
    · cases h

theorem displacement_eq_ok (h : y.displacement pc l = .ok delta) :
    ∃ n, y.offset l = .ok n ∧ delta = y.at l - pc := by
  obtain ⟨n, hn, h⟩ := Except.bind_eq_ok_iff.mp h
  obtain rfl := Except.ok.inj h
  exact ⟨n, hn, by rw [(offset_eq_ok hn).2.2]⟩

theorem reads_target (hy : y.Short) (hpc : pc < 65536) (h : y.displacement pc l = .ok delta) :
    Reads (readTarget pc) pos (signedBigEndian 4 delta) (y.at l) := by
  obtain ⟨n, hn, rfl⟩ := displacement_eq_ok h
  have hlt := hy l n hn
  have hat := (offset_eq_ok hn).2.2
  have hread : Reads (readTarget pc) pos (signedBigEndian 4 (y.at l - pc))
      (pc + (Int32.ofInt (y.at l - pc)).toInt) := (Reads.i4 _).map _
  rw [Int32.toInt_ofInt_of_le (by omega) (by omega)] at hread
  have hsum : (pc : Int) + (y.at l - pc) = y.at l := by omega
  rwa [hsum] at hread

theorem isUnconditional_of_isFar {x : Item}
    (hwide : x.wide = true → x.insn.opcode.isUnconditional = true) (h : x.isFar = true) :
    x.insn.opcode.isUnconditional = true := by
  simp only [Item.isFar, Bool.or_eq_true, decide_eq_true_eq] at h
  rcases h with (h | h) | h
  · exact hwide h
  all_goals
    rw [h]
    decide

/-- A jump is read back from either form, if its short form is used for a target in reach
only. -/
theorem reads_jump {x : Item} (hop : x.insn.opcode.isJump = true) (hy : y.Short)
    (hpc : pc < 65536) (hwide : x.wide = true → x.insn.opcode.isUnconditional = true)
    (hnear : x.isFar = false → Layout.reaches delta = true)
    (h : y.displacement pc l = .ok delta) :
    Reads (readInsn q) pc (jumpBytes x delta)
      (pc, (⟨x.insn.opcode, .jump (y.at l)⟩ : Insn).general) := by
  have htarget : ∀ pos, Reads (readTarget pc) pos (signedBigEndian 4 delta) (y.at l) := fun pos =>
    reads_target hy hpc h
  unfold jumpBytes
  dsimp only
  split
  · next hfar =>
    -- the far form says the same of `goto` and `goto_w`, and of `jsr` and `jsr_w`
    have hun := isUnconditional_of_isFar hwide hfar
    generalize x.insn.opcode = op at hun ⊢
    simp only [Opcode.isUnconditional, Bool.or_eq_true, decide_eq_true_eq] at hun
    have hgoto : Reads (readInsn q) pc (opcodeByte .gotoW :: signedBigEndian 4 delta)
        (pc, ⟨.goto, .jump (y.at l)⟩) := reads_insn (by decide) ((htarget _).map _)
    have hjsr : Reads (readInsn q) pc (opcodeByte .jsrW :: signedBigEndian 4 delta)
        (pc, ⟨.jsr, .jump (y.at l)⟩) := reads_insn (by decide) ((htarget _).map _)
    rcases hun with ((rfl | rfl) | rfl) | rfl
    · exact hgoto
    · exact hjsr
    · exact hgoto
    · exact hjsr
  · next hfar =>
    have hfar : x.isFar = false := Bool.eq_false_iff.mpr hfar
    have hreach := hnear hfar
    simp only [Item.isFar, Bool.or_eq_false_iff, decide_eq_false_iff_not] at hfar
    obtain ⟨⟨-, hgoto⟩, hjsr⟩ := hfar
    simp only [Layout.reaches, Bool.and_eq_true, decide_eq_true_eq] at hreach
    obtain ⟨n, -, rfl⟩ := displacement_eq_ok h
    generalize x.insn.opcode = op at hop hgoto hjsr ⊢
    have hgeneral : (⟨op, .jump (y.at l)⟩ : Insn).general = ⟨op, .jump (y.at l)⟩ := by
      simp only [Insn.general, if_neg hgoto, if_neg hjsr]
    have hread : Reads (readOperands q pc op) (pc + 1) (signedBigEndian 2 (y.at l - pc))
        ⟨op, .jump (pc + (Int16.ofInt (y.at l - pc)).toInt)⟩ := by
      rw [readOperands_jump hop hgoto hjsr]
      exact (Reads.i2 _).map _
    -- a displacement in reach is not wrapped by two bytes
    have hsum : (pc : Int) + (y.at l - pc) = y.at l := by omega
    rw [Int16.toInt_ofInt_of_le (by omega) (by omega), hsum] at hread
    rw [hgeneral]
    exact reads_insn (Opcode.isValid_of_isJump hop) hread

/-- The displacements of targets are read back one by one. -/
theorem reads_targets (hy : y.Short) (hpc : pc < 65536) {seen : List (List UInt8)}
    {targets : List Label} {deltas : List (List UInt8)}
    (h : targetBytes y pc seen targets = .ok deltas) :
    ∃ new, deltas = seen.reverse ++ new ∧
      List.Forall₂ (fun bs a => bs.length = 4 ∧ ∀ pos, Reads (readTarget pc) pos bs a) new
        (targets.map y.at) := by
  induction targets generalizing seen with
  | nil =>
    obtain rfl := Except.ok.inj h
    exact ⟨[], (List.append_nil _).symm, .nil⟩
  | cons l rest ih =>
    obtain ⟨delta, hdelta, h⟩ := Except.bind_eq_ok_iff.mp h
    obtain ⟨new, rfl, hnew⟩ := ih h
    refine ⟨signedBigEndian 4 delta :: new, by simp, .cons ⟨?_, fun pos => ?_⟩ hnew⟩
    · exact length_signedBigEndian 4 delta
    · exact reads_target hy hpc hdelta

/-- Items of one width. -/
theorem length_flatten_of_width {width : Nat} {bss : List (List UInt8)} {α : Type} {as : List α}
    {P : List UInt8 → α → Prop}
    (h : List.Forall₂ (fun bs a => bs.length = width ∧ P bs a) bss as) :
    bss.flatten.length = width * as.length := by
  induction h with
  | nil => rfl
  | cons hb _ ih =>
    rw [List.flatten_cons, List.length_append, List.length_cons, ih, hb.1, Nat.mul_succ,
      Nat.add_comm]

/-- Padding, default and what follows them in a switch. -/
theorem reads_switchHead {f : Label → Read Insn} {bs : List UInt8} {i : Insn} (hy : y.Short)
    (hpc : pc < 65536) (hdelta : y.displacement pc l = .ok delta)
    (h : ∀ pos, Reads (f (y.at l)) pos bs i) (pos : Nat) :
    Reads (do
        Read.skip (switchPadding pc)
        let dflt ← readTarget pc
        f dflt) pos
      (List.replicate (switchPadding pc) 0 ++ (signedBigEndian 4 delta ++ bs)) i := by
  have hskip : Reads (Read.skip (switchPadding pc)) pos
      (List.replicate (switchPadding pc) 0) () := by
    have h := @Reads.skip pos (List.replicate (switchPadding pc) 0)
    rwa [List.length_replicate] at h
  exact hskip.bind ((reads_target hy hpc hdelta).bind (h _))

theorem reads_i4 (v : Int32) : Reads Read.i4 pos (signedBigEndian 4 v.toInt) v := by
  have h := @Reads.i4 pos v.toInt
  rwa [Int32.ofInt_toInt] at h

theorem reads_table {low high : Int32} {targets : List Label} {bs : List UInt8} (hy : y.Short)
    (hpc : pc < 65536) (hlow : low.toInt ≤ high.toInt) (hspan : high.toInt - low.toInt < 65536)
    (h : tableBytes y .tableSwitch pc low high l targets = .ok bs) :
    bs.length = 1 + switchPadding pc + 12 + 4 * targets.length ∧
      Reads (readInsn q) pc bs
        (pc, ⟨.tableSwitch, .tableSwitch low high (y.at l) (targets.map y.at)⟩) := by
  unfold tableBytes at h
  split at h
  · cases h
  · next hcount =>
    obtain ⟨head, hhead, h⟩ := Except.bind_eq_ok_iff.mp h
    obtain ⟨deltas, hdeltas, h⟩ := Except.bind_eq_ok_iff.mp h
    obtain ⟨delta, hdelta, hhead⟩ := Except.bind_eq_ok_iff.mp hhead
    obtain rfl := Except.ok.inj hhead
    obtain rfl := Except.ok.inj h
    obtain ⟨new, hnew, hreads⟩ := reads_targets hy hpc hdeltas
    obtain rfl : deltas = new := hnew
    have hlen := length_flatten_of_width hreads
    rw [List.length_map] at hlen
    -- the bounds span less than a word, so their difference does not wrap
    have hdiff : (high - low).toInt = high.toInt - low.toInt := by
      have h1 := high.toInt_lt
      have h2 := low.le_toInt
      rw [Int32.toInt_sub, Int.bmod_eq_of_le (by omega) (by omega)]
    have hlength : (high.toInt - low.toInt + 1).toNat = (targets.map y.at).length := by
      rw [List.length_map]
      omega
    refine ⟨by simp [hlen]; omega, ?_⟩
    have hcond : ¬(high < low || 65536 ≤ high.toInt - low.toInt) = true := by
      simp only [Bool.or_eq_true, decide_eq_true_eq, Int32.lt_iff_toInt_lt]
      omega
    -- what stands behind the default: the bounds and as many targets as they call for
    have hbody : ∀ pos, Reads (do
        let low ← Read.i4
        let high ← Read.i4
        if high < low || 65536 ≤ high.toInt - low.toInt then
          throw (.note ("bad tableswitch range " ++ Text.ofInt low.toInt ++ ".."
            ++ Text.ofInt high.toInt))
        else
          let targets ← Read.repeated (fun _ => readTarget pc) (high.toInt - low.toInt + 1).toNat
          return ⟨.tableSwitch, .tableSwitch low high (y.at l) targets⟩ : Read Insn) pos
        (signedBigEndian 4 low.toInt ++ (signedBigEndian 4 high.toInt ++ deltas.flatten))
        ⟨.tableSwitch, .tableSwitch low high (y.at l) (targets.map y.at)⟩ := by
      intro pos
      refine (reads_i4 low).bind ((reads_i4 high).bind ?_)
      rw [if_neg hcond, hlength]
      exact (Reads.repeated (hreads.imp fun _ _ hr _ => hr.2)).map _
    have hread := @reads_insn q pc .tableSwitch _ _ (by decide)
      (reads_switchHead hy hpc hdelta hbody (pc + 1))
    simpa using hread

/-- Keys and displacements of a lookup switch are read back in pairs. -/
theorem reads_cases {keys : List Int32} {deltas : List (List UInt8)} {targets : List Int}
    (h : List.Forall₂ (fun bs a => bs.length = 4 ∧ ∀ pos, Reads (readTarget pc) pos bs a) deltas
      targets) :
    List.Forall₂ (fun bs a => bs.length = 8 ∧
        ∀ pos, Reads (do return (← Read.i4, ← readTarget pc)) pos bs a)
      ((keys.zip deltas).map fun (k, delta) => signedBigEndian 4 k.toInt ++ delta)
      (keys.zip targets) := by
  induction h generalizing keys with
  | nil =>
    rw [List.zip_nil_right, List.zip_nil_right]
    exact .nil
  | cons hd _ ih =>
    cases keys with
    | nil => exact .nil
    | cons k keys =>
      refine .cons ⟨?_, fun pos => ?_⟩ ih
      · rw [List.length_append, length_signedBigEndian, hd.1]
      · exact (reads_i4 k).bind ((hd.2 _).map _)

theorem reads_lookup {keys : List Int32} {targets : List Label} {bs : List UInt8} (hy : y.Short)
    (hpc : pc < 65536) (hcount : keys.length < 65536)
    (h : lookupBytes y .lookupSwitch pc l keys targets = .ok bs) :
    bs.length = 1 + switchPadding pc + 8 + 8 * keys.length ∧
      Reads (readInsn q) pc bs
        (pc, ⟨.lookupSwitch, .lookupSwitch (y.at l) keys (targets.map y.at)⟩) := by
  unfold lookupBytes at h
  split at h
  · cases h
  · next hkeys =>
    obtain ⟨head, hhead, h⟩ := Except.bind_eq_ok_iff.mp h
    obtain ⟨deltas, hdeltas, h⟩ := Except.bind_eq_ok_iff.mp h
    obtain ⟨delta, hdelta, hhead⟩ := Except.bind_eq_ok_iff.mp hhead
    obtain rfl := Except.ok.inj hhead
    obtain rfl := Except.ok.inj h
    obtain ⟨new, hnew, hreads⟩ := reads_targets hy hpc hdeltas
    obtain rfl : deltas = new := hnew
    have hsame : keys.length = (targets.map y.at).length := by
      rw [List.length_map]
      exact Decidable.not_not.mp hkeys
    have hcases := @reads_cases pc keys _ _ hreads
    have hzip : (keys.zip (targets.map y.at)).length = keys.length := by
      rw [List.length_zip, ← hsame, Nat.min_self]
    have hlen := length_flatten_of_width hcases
    rw [hzip] at hlen
    refine ⟨by simp [List.flatMap_def, hlen]; omega, ?_⟩
    -- the count fits a signed word, so it is read back as it was
    have hint : (Int32.ofInt keys.length).toInt = keys.length :=
      Int32.toInt_ofInt_of_le (by omega) (by omega)
    have hcond : ¬(Int32.ofInt keys.length < 0 || 65536 < (Int32.ofInt keys.length).toInt) =
        true := by
      rw [hint]
      simp only [Bool.or_eq_true, decide_eq_true_eq, Int32.lt_iff_toInt_lt, hint, Int32.toInt_zero]
      omega
    have hbig : signedBigEndian 4 keys.length = bigEndian 4 keys.length :=
      signedBigEndian_natCast (by omega)
    -- what stands behind the default: the count and the pairs
    have hbody : ∀ pos, Reads (do
        let count ← Read.i4
        if count < 0 || 65536 < count.toInt then
          throw (.note ("bad lookupswitch pair count " ++ Text.ofInt count.toInt))
        else
          let cases ← Read.repeated
            (fun _ => do return (← Read.i4, ← readTarget pc)) count.toInt.toNat
          return ⟨.lookupSwitch, .lookupSwitch (y.at l) (cases.map Prod.fst)
            (cases.map Prod.snd)⟩ : Read Insn) pos
        (bigEndian 4 keys.length ++ ((keys.zip deltas).map fun (k, delta) =>
          signedBigEndian 4 k.toInt ++ delta).flatten)
        ⟨.lookupSwitch, .lookupSwitch (y.at l) keys (targets.map y.at)⟩ := by
      intro pos
      rw [← hbig]
      refine (Reads.i4 _).bind ?_
      rw [if_neg hcond, hint, Int.toNat_natCast]
      have hlast := (@Reads.repeated _ (pos + (signedBigEndian 4 keys.length).length) _ _ _
        (hcases.imp fun _ _ hr _ => hr.2)).map fun cases =>
          (⟨.lookupSwitch, .lookupSwitch (y.at l) (cases.map Prod.fst)
            (cases.map Prod.snd)⟩ : Insn)
      rw [List.map_fst_zip (by omega), List.map_snd_zip (by omega), hzip] at hlast
      exact hlast
    have hread := @reads_insn q pc .lookupSwitch _ _ (by decide)
      (reads_switchHead hy hpc hdelta hbody (pc + 1))
    simpa [List.flatMap_def] using hread

end Targets

/-! ### Items -/

/-- Only jumps that are always taken are widened, and all others reach their targets. -/
structure Item.Settled (y : Layout) (pc : Nat) (x : Item) : Prop where
  wide : x.wide = true → x.insn.opcode.isUnconditional = true
  near : ∀ target delta, x.insn.operand = .jump target → x.isFar = false →
    y.displacement pc target = .ok delta → Layout.reaches delta = true

section Items

variable {p q : Pool} {y : Layout} {pc : Nat} {x : Item} {bs : List UInt8}

theorem length_slotBytes (op : Opcode) (index : UInt16) :
    (slotBytes op index).length =
      if op.isIndexedLocal && index ≤ 3 then 1 else if index ≤ 255 then 2 else 4 := by
  unfold slotBytes
  split
  · rfl
  · split <;> rfl

theorem length_incrementBytes (index : UInt16) (delta : Int16) :
    (incrementBytes index delta).length = if isShortIncrement index delta then 3 else 6 := by
  unfold incrementBytes
  split
  · simp
  · simp [u2]

theorem length_constantBytes (p : Pool) (n : UInt16) :
    (constantBytes p n).length = if n ≤ 255 && !p.isWideConstant n then 2 else 3 := by
  unfold constantBytes
  cases p.isWideConstant n with
  | true => simp [u2]
  | false =>
    by_cases hn : n ≤ 255
    · simp [hn]
    · simp [hn, u2]

theorem length_jumpBytes (x : Item) (delta : Int) :
    (jumpBytes x delta).length = if x.isFar then 5 else 3 := by
  unfold jumpBytes
  dsimp only
  split <;> simp

theorem reads_method {op : Opcode} {owner name desc : Text} {onInterface : Bool} {n : UInt16}
    (hop : op.isMemberCall = true)
    (hfind : (⟨op, .method owner name desc onInterface⟩ : Insn).Finds q n)
    (h : (if op = .invokeInterface then
        match interfaceTail desc with
        | .ok tail => .ok (opcodeByte op :: u2 n ++ tail)
        | .error f => Outcome.fail f
      else .ok (opcodeByte op :: u2 n) : Outcome (List UInt8)) = .ok bs) :
    bs.length = (if op = .invokeInterface then 5 else 3) ∧
      Reads (readInsn q) pc bs
        (pc, ⟨op, .method owner name desc (onInterface || op = .invokeInterface)⟩) := by
  obtain ⟨hvalid, hoperands⟩ := @readOperands_call q pc op hop
  have hmember : q.member n = .ok ⟨owner, name, desc,
      if onInterface || op = .invokeInterface then Tag.interfaceMethodRef
      else Tag.methodRef⟩ := hfind
  have hflag : decide ((if onInterface || op = .invokeInterface then Tag.interfaceMethodRef
      else Tag.methodRef) = Tag.interfaceMethodRef) =
      (onInterface || op = .invokeInterface) := by
    split
    · next h => rw [h]; rfl
    · next h => rw [Bool.eq_false_iff.mpr h]; rfl
  have hlast : ∀ pos, Reads (do
      let m ← q.member n
      return (⟨op, .method m.owner m.name m.desc (m.tag = Tag.interfaceMethodRef)⟩ : Insn)) pos []
      ⟨op, .method owner name desc (onInterface || op = .invokeInterface)⟩ := by
    intro pos
    rw [← hflag]
    exact (Reads.lift hmember).map _
  by_cases hinterface : op = .invokeInterface
  · rw [if_pos hinterface] at h
    split at h
    · next tail htail =>
      obtain ⟨t, -, htail⟩ := Except.bind_eq_ok_iff.mp htail
      obtain rfl := Except.ok.inj htail
      obtain rfl := Except.ok.inj h
      refine ⟨by rw [if_pos hinterface]; rfl, reads_insn hvalid ?_⟩
      rw [hoperands, readCall]
      refine (Reads.word n).bind ?_
      rw [if_pos hinterface]
      exact (Reads.skip [(t.paramSlots + 1).toUInt8, 0]).last (hlast _)
    · cases h
  · rw [if_neg hinterface] at h
    obtain rfl := Except.ok.inj h
    refine ⟨by rw [if_neg hinterface]; rfl, reads_insn hvalid ?_⟩
    rw [hoperands, readCall]
    refine (Reads.word n).last ?_
    rw [if_neg hinterface]
    exact hlast _

/-- An instruction without an operand is read in its general form. -/
theorem reads_bare {op : Opcode} (h : op.isValid = true ∧ op.shape = .plain ∧ op ≠ .wide ∨
      op.isCompactLoad = true ∨ op.isCompactStore = true) :
    op.isValid = true ∧ Reads (readInsn q) pc [opcodeByte op]
      (pc, (⟨op, .none⟩ : Insn).general.mapLabels y.at) := by
  rcases h with ⟨hvalid, hshape, hwide⟩ | hcompact
  · refine ⟨hvalid, reads_insn hvalid ?_⟩
    rw [readOperands_plain hvalid hshape hwide, general_of_plain hshape]
    exact .pure _
  · have hvalid := isValid_of_compact hcompact
    refine ⟨hvalid, reads_insn hvalid ?_⟩
    obtain ⟨op', index, hgeneral⟩ := general_of_compact hcompact
    -- a local has no labels to rename
    have hslot : (⟨op, .none⟩ : Insn).general.mapLabels y.at = ⟨op', .slot index⟩ :=
      congrArg (Insn.mapLabels y.at) hgeneral
    rw [readOperands_compact hcompact, hgeneral, hslot]
    exact .pure _

theorem reads_class {op : Opcode} {desc : Text} {n : UInt16} (hop : op.takesClass = true)
    (hfind : q.className n = .ok desc) :
    Reads (readInsn q) pc (opcodeByte op :: u2 n) (pc, ⟨op, .type desc⟩) := by
  obtain ⟨hvalid, hoperands⟩ := @readOperands_class q pc op hop
  refine reads_insn hvalid ?_
  rw [hoperands]
  exact (Reads.word n).last ((Reads.lift hfind).map _)

theorem reads_field {op : Opcode} {owner name desc : Text} {n : UInt16}
    (hop : op.isFieldAccess = true) (hfind : q.member n = .ok ⟨owner, name, desc, Tag.fieldRef⟩) :
    Reads (readInsn q) pc (opcodeByte op :: u2 n) (pc, ⟨op, .field owner name desc⟩) := by
  obtain ⟨hvalid, hoperands⟩ := @readOperands_field q pc op hop
  refine reads_insn hvalid ?_
  rw [hoperands]
  exact (Reads.word n).last ((Reads.lift hfind).map _)

theorem itemBytes_pseudo (h : x.insn.opcode.isPseudo = true) :
    itemBytes p y x pc = .ok [] ∧ x.size p pc = 0 := by
  rw [itemBytes, Item.size, if_pos h, if_pos h]
  exact ⟨rfl, rfl⟩

/-- An item takes the bytes that the layout gave it, and is read back from them in its general
form, with offsets in place of labels. -/
theorem reads_of_itemBytes {r : Pool} (hi : x.insn.Encodable r)
    (hreal : x.insn.opcode.isPseudo = false) (hfind : x.insn.Finds q x.constant)
    (hy : y.Short) (hpc : pc < 65536) (hsize : x.size p pc < 65536) (hx : x.Settled y pc)
    (h : itemBytes p y x pc = .ok bs) :
    bs.length = x.size p pc ∧
      Reads (readInsn q) pc bs (pc, x.insn.general.mapLabels y.at) := by
  obtain ⟨⟨op, operand⟩, n, wide⟩ := x
  rw [itemBytes, if_neg (by rw [hreal]; decide)] at h
  rw [Item.size, if_neg (by rw [hreal]; decide)] at hsize ⊢
  dsimp only at hi hreal hfind h hsize ⊢
  cases operand with
  | none =>
    obtain ⟨hvalid, hread⟩ := @reads_bare q y pc op hi
    dsimp only at h
    rw [if_pos hvalid] at h
    obtain rfl := Except.ok.inj h
    exact ⟨rfl, hread⟩
  | int v =>
    obtain rfl := Except.ok.inj h
    refine ⟨?_, reads_int hi⟩
    rw [List.length_cons, length_signedBigEndian]
    dsimp only
    split <;> rfl
  | slot index =>
    obtain rfl := Except.ok.inj h
    exact ⟨length_slotBytes op index, reads_slot hi index⟩
  | increment index delta =>
    obtain rfl : op = .iinc := hi
    obtain rfl := Except.ok.inj h
    exact ⟨length_incrementBytes index delta, reads_increment index delta⟩
  | type desc =>
    obtain rfl := Except.ok.inj h
    exact ⟨rfl, reads_class hi hfind⟩
  | field owner name desc =>
    obtain rfl := Except.ok.inj h
    exact ⟨rfl, reads_field hi hfind⟩
  | method owner name desc onInterface => exact reads_method hi hfind h
  | dynamic name desc bootstrap =>
    obtain rfl : op = .invokeDynamic := hi
    obtain rfl := Except.ok.inj h
    obtain ⟨k, hentry, hname⟩ := hfind
    refine ⟨rfl, reads_insn (by decide) ?_⟩
    exact (Reads.word n).bind ((Reads.skip [0, 0]).last
      ((Reads.lift hentry).last ((Reads.lift hname).last (.pure _))))
  | jump target =>
    obtain ⟨delta, hdelta, h⟩ := Except.bind_eq_ok_iff.mp h
    obtain rfl := Except.ok.inj h
    refine ⟨length_jumpBytes _ delta, ?_⟩
    exact reads_jump hi hy hpc hx.wide (fun hfar => hx.near target delta rfl hfar hdelta) hdelta
  | constant v =>
    obtain rfl := Except.ok.inj h
    exact ⟨length_constantBytes p n, reads_constant hfind⟩
  | tableSwitch low high dflt targets =>
    obtain rfl : op = .tableSwitch := hi.1
    -- a switch with more targets would not fit its size
    have hcount : targets.length < 65536 := by
      dsimp only at hsize
      omega
    exact reads_table hy hpc (hi.2 hcount).1 (hi.2 hcount).2 h
  | lookupSwitch dflt keys targets =>
    obtain rfl : op = .lookupSwitch := hi.1
    have hcount : keys.length < 65536 := by
      dsimp only at hsize
      omega
    exact reads_lookup hy hpc hcount h
  | multiArray desc dims =>
    obtain rfl : op = .multiNewArray := hi
    obtain rfl := Except.ok.inj h
    refine ⟨rfl, reads_insn (by decide) ?_⟩
    exact (Reads.word n).bind ((Reads.u1 dims).last ((Reads.lift hfind).map _))
  | label _ | line _ _ | frame _ | tryCatch _ _ _ _ | localVariable _ _ _ _ _ =>
    -- entries without bytes are no items that are read
    obtain rfl : op = _ := hi
    exact absurd hreal (by decide)

end Items

end Code

end ClassWeaver
