import Mathlib.Data.List.Flatten
import ClassWeaver.Proofs.Codec.Alike
import ClassWeaver.Proofs.Codec.Class

/-!
# Classes that were read

Whatever the bytes are, what is read from them can be written as what it is: every instruction has
an operand that fits it, instructions follow each other up to the end of the code, the labels of
the listing stand at instructions, and local variable entries do not stop before they start
(`parsed_of_parse`). Only the second places of wide constants are not checked by the reader.
-/

namespace ClassWeaver

open Pool

/-! ### Instructions -/

namespace Code

variable {p : Pool} {pc : Nat} {op : Opcode} {i : Insn}

theorem pooled_of_loadable {k n : UInt16} (h : p.loadable k = .ok (.pooled n)) : p.Pooled n := by
  obtain ⟨c, hget, h⟩ := Except.bind_eq_ok_iff.mp h
  have htext : ∀ {j : UInt16} {f : Text → Loadable},
      (do return f (← p.textAt j) : Except Fault Loadable) = .ok (.pooled n) →
        ∃ t, f t = .pooled n := by
    intro j f h
    obtain ⟨t, -, h⟩ := Except.bind_eq_ok_iff.mp h
    exact ⟨t, Except.ok.inj h⟩
  -- only method handles and dynamic constants are kept as an index
  have hother : (if c.tag = Tag.integer then return .int 0
      else if c.tag = Tag.float then return .float 0
      else if c.tag = Tag.long then return .long 0
      else if c.tag = Tag.double then return .double 0
      else if c.tag = Tag.string then return .string (← p.textAt c.first)
      else if c.tag = Tag.classRef then return .classRef (← p.textAt c.first)
      else if c.tag = Tag.methodType then return .methodType (← p.textAt c.first)
      else if c.tag = Tag.methodHandle || c.tag = Tag.dynamic then return .pooled k
      else .error (.note (entryText k ++ ": tag " ++ Text.ofNat c.tag.toNat ++
        " is not loadable")) : Except Fault Loadable) = .ok (.pooled n) → p.Pooled n := by
    intro h
    split at h
    · cases h
    split at h
    · cases h
    split at h
    · cases h
    split at h
    · cases h
    split at h
    · obtain ⟨t, h⟩ := htext h
      cases h
    split at h
    · obtain ⟨t, h⟩ := htext h
      cases h
    split at h
    · obtain ⟨t, h⟩ := htext h
      cases h
    split at h
    · next htag =>
      obtain rfl := Loadable.pooled.inj (Except.ok.inj h)
      simp only [Bool.or_eq_true, decide_eq_true_eq] at htag
      exact ⟨c, hget, htag⟩
    · cases h
  split at h
  · cases h
  · cases h
  · cases h
  · cases h
  · exact hother h

theorem isReal_of_isValid {x : Operand} (h : op.isValid = true) :
    (⟨op, x⟩ : Insn).isReal = true := by
  simp only [Opcode.isValid, Opcode.within, Bool.and_eq_true, decide_eq_true_eq] at h
  simp only [Insn.isReal, Opcode.isPseudo, Bool.not_eq_true', decide_eq_false_iff_not]
  omega

/-- An instruction that can be written, takes bytes and is in its general form. -/
structure Coding (p : Pool) (i : Insn) : Prop where
  encodable : i.Encodable p
  real : i.isReal = true
  normal : i.Normal

theorem yields_readWide : Yields readWide (Coding p) := by
  refine .andThen fun b => .andThen fun index => ?_
  refine .ite (fun _ => .andThen fun delta => .pure ⟨rfl, rfl, rfl⟩) fun _ => ?_
  refine .ite (fun h => .pure ?_) fun _ => .throw _
  have h : (⟨b.toNat⟩ : Opcode).isIndexedLocal = true ∨ (⟨b.toNat⟩ : Opcode) = .ret := by
    simpa using h
  exact ⟨h, isReal_of_isValid (isValid_of_indexed h), rfl⟩

theorem yields_readTableSwitch : Yields (readTableSwitch pc) (Coding p) := by
  refine .andThen fun _ => .andThen fun dflt => .andThen fun low => .andThen fun high => ?_
  refine .ite (fun _ => .throw _) fun h => .andThen fun targets =>
    .pure ⟨⟨rfl, fun _ => ?_⟩, rfl, rfl⟩
  simp only [Bool.or_eq_true, decide_eq_true_eq, not_or, Int32.lt_iff_toInt_lt] at h
  omega

theorem yields_readLookupSwitch : Yields (readLookupSwitch pc) (Coding p) := by
  refine .andThen fun _ => .andThen fun dflt => .andThen fun count => ?_
  refine .ite (fun _ => .throw _) fun h => .andThen fun cases => .pure ⟨⟨rfl, ?_⟩, rfl, rfl⟩
  rw [List.length_map, List.length_map]

theorem yields_readCall (h : op.isMemberCall = true) : Yields (readCall p op) (Coding p) := by
  have hreal : ∀ {x : Operand}, (⟨op, x⟩ : Insn).isReal = true := fun {x} =>
    isReal_of_isValid (@readOperands_call p 0 op h).1
  refine .andThen fun index => ?_
  have hlast : Yields (do
      let m ← p.member index
      return (⟨op, .method m.owner m.name m.desc (m.tag = Tag.interfaceMethodRef)⟩ : Insn))
      (Coding p) := .andThen fun m => .pure ⟨h, hreal, rfl⟩
  split
  · exact .andThen fun _ => hlast
  · exact hlast

theorem encodable_int8 (n : Int8) : (⟨.bipush, .int n.toInt32⟩ : Insn).Encodable p := by
  have hlow := n.le_toInt
  have hhigh := n.toInt_lt
  refine .inl ⟨rfl, ?_, ?_⟩ <;> rw [Int8.toInt_toInt32] <;> omega

theorem encodable_int16 (n : Int16) : (⟨.sipush, .int n.toInt32⟩ : Insn).Encodable p := by
  have hlow := n.le_toInt
  have hhigh := n.toInt_lt
  refine .inr (.inl ⟨rfl, ?_, ?_⟩) <;> rw [Int16.toInt_toInt32] <;> omega

theorem encodable_uint8 (n : UInt8) :
    (⟨.newArray, .int (Int32.ofNat n.toNat)⟩ : Insn).Encodable p := by
  have hlt := n.toNat_lt
  refine .inr (.inr ⟨rfl, ?_, ?_⟩) <;> rw [Int32.toInt_ofNat_of_lt (by omega)] <;> omega

theorem encodable_constant {k : UInt16} {v : Loadable} (h : p.loadable k = .ok v) :
    Coding p ⟨.ldc, .constant v⟩ :=
  ⟨⟨rfl, fun _ hn => pooled_of_loadable (hn ▸ h)⟩, rfl, rfl⟩

theorem coding_compact {base n : Nat} (h : base = 0x15 ∨ base = 0x36) (hn : n < 20)
    (index : UInt16) : Coding p ⟨⟨base + (n / 4 : Nat)⟩, .slot index⟩ := by
  have hop : (⟨base + (n / 4 : Nat)⟩ : Opcode).isIndexedLocal = true := by
    simp only [Opcode.isIndexedLocal, Opcode.within, Bool.and_eq_true, Bool.or_eq_true,
      decide_eq_true_eq]
    omega
  exact ⟨.inl hop, isReal_of_isValid (isValid_of_indexed (.inl hop)), rfl⟩

theorem shape_of_unread (hvalid : op.isValid = true)
    (h : op ≠ .bipush ∧ op ≠ .sipush ∧ op ≠ .newArray ∧ op ≠ .ldc ∧ op ≠ .ldcW ∧ op ≠ .ldc2W ∧
      op.isIndexedLocal = false ∧ op ≠ .ret ∧ op.isCompactLoad = false ∧
      op.isCompactStore = false ∧ op ≠ .iinc ∧ op ≠ .gotoW ∧ op ≠ .jsrW ∧ op.isJump = false ∧
      op ≠ .tableSwitch ∧ op ≠ .lookupSwitch ∧ op.isFieldAccess = false ∧
      op.isMemberCall = false ∧ op ≠ .invokeDynamic ∧ op.takesClass = false ∧
      op ≠ .multiNewArray) : op.shape = .plain :=
  Opcode.forall_listed
    (P := fun op => op.isValid = true → (op ≠ .bipush ∧ op ≠ .sipush ∧ op ≠ .newArray ∧
      op ≠ .ldc ∧ op ≠ .ldcW ∧ op ≠ .ldc2W ∧ op.isIndexedLocal = false ∧ op ≠ .ret ∧
      op.isCompactLoad = false ∧
      op.isCompactStore = false ∧ op ≠ .iinc ∧ op ≠ .gotoW ∧ op ≠ .jsrW ∧ op.isJump = false ∧
      op ≠ .tableSwitch ∧ op ≠ .lookupSwitch ∧ op.isFieldAccess = false ∧
      op.isMemberCall = false ∧ op ≠ .invokeDynamic ∧ op.takesClass = false ∧
      op ≠ .multiNewArray) → op.shape = .plain)
    (by decide +kernel) (Opcode.listed_of_isValid hvalid) hvalid h

/-- Every instruction that is read can be written, whatever its opcode is. -/
theorem yields_readOperands : Yields (readOperands p pc op) (Coding p) := by
  refine .ite (fun _ => .throw _) fun hvalid => ?_
  have hvalid : op.isValid = true := by simpa using hvalid
  have hreal : ∀ {x : Operand}, (⟨op, x⟩ : Insn).isReal = true := isReal_of_isValid hvalid
  -- the cases stand in the order in which the reader tries them
  refine .ite (fun _ => yields_readWide) fun hwide => ?_
  refine .ite (fun h => .andThen fun n => .pure ⟨h ▸ encodable_int8 n, hreal, rfl⟩) fun h₁ => ?_
  refine .ite (fun h => .andThen fun n => .pure ⟨h ▸ encodable_int16 n, hreal, rfl⟩) fun h₂ => ?_
  refine .ite (fun h => .andThen fun n => .pure ⟨h ▸ encodable_uint8 n, hreal, rfl⟩) fun h₃ => ?_
  refine .ite (fun _ => .andThen fun k => (Yields.lift fun v hv => hv).bind fun v hv =>
    .pure (encodable_constant hv)) fun h₄ => ?_
  refine .ite (fun _ => .andThen fun k => (Yields.lift fun v hv => hv).bind fun v hv =>
    .pure (encodable_constant hv)) fun h₅ => ?_
  refine .ite (fun h => .andThen fun k => .pure ⟨?_, hreal, rfl⟩) fun h₆ => ?_
  · rwa [Bool.or_eq_true, decide_eq_true_eq] at h
  refine .ite (fun h => .pure (coding_compact (.inl rfl) ?_ _)) fun h₇ => ?_
  · simp only [Opcode.isCompactLoad, Opcode.within, Bool.and_eq_true, decide_eq_true_eq] at h
    omega
  refine .ite (fun h => .pure (coding_compact (.inr rfl) ?_ _)) fun h₈ => ?_
  · simp only [Opcode.isCompactStore, Opcode.within, Bool.and_eq_true, decide_eq_true_eq] at h
    omega
  refine .ite (fun _ => .andThen fun k => .andThen fun d => .pure ⟨rfl, rfl, rfl⟩) fun h₉ => ?_
  refine .ite (fun _ => .andThen fun t => .pure ⟨rfl, rfl, rfl⟩) fun h₁₀ => ?_
  refine .ite (fun _ => .andThen fun t => .pure ⟨rfl, rfl, rfl⟩) fun h₁₁ => ?_
  refine .ite (fun h => .andThen fun t => .pure ⟨h, hreal, ?_⟩) fun h₁₂ => ?_
  · rw [Insn.Normal, Insn.general]
    dsimp only
    rw [if_neg h₁₀, if_neg h₁₁]
    rfl
  refine .ite (fun _ => yields_readTableSwitch) fun h₁₃ => ?_
  refine .ite (fun _ => yields_readLookupSwitch) fun h₁₄ => ?_
  refine .ite (fun h => .andThen fun k => .andThen fun m => .pure ⟨h, hreal, rfl⟩) fun h₁₅ => ?_
  refine .ite (fun h => yields_readCall h) fun h₁₆ => ?_
  refine .ite (fun _ => .andThen fun k => .andThen fun _ => .andThen fun c => .andThen fun d =>
    .pure ⟨rfl, rfl, rfl⟩) fun h₁₇ => ?_
  refine .ite (fun h => .andThen fun k => .andThen fun t => .pure ⟨h, hreal, rfl⟩) fun h₁₈ => ?_
  refine .ite (fun h => .andThen fun k => .andThen fun d => .andThen fun t => .pure ⟨h, hreal, rfl⟩)
    fun h₁₉ => ?_
  -- what no case has taken is an opcode without an operand
  have hshape : op.shape = .plain := by
    simp only [Bool.or_eq_true, decide_eq_true_eq, not_or] at h₅ h₆
    simp only [Bool.not_eq_true] at h₅ h₆ h₇ h₈ h₁₂ h₁₅ h₁₆ h₁₈
    exact shape_of_unread hvalid ⟨h₁, h₂, h₃, h₄, h₅.1, h₅.2, h₆.1, h₆.2, h₇, h₈, h₉, h₁₀, h₁₁,
      h₁₂, h₁₃, h₁₄, h₁₅, h₁₆, h₁₇, h₁₈, h₁₉⟩
  exact .pure ⟨.inl ⟨hvalid, hshape, hwide⟩, hreal, general_of_plain hshape⟩

theorem advances_readTarget : Advances (readTarget pc) := .bind .i4 fun _ => .pure _

theorem advances_readWide : Advances readWide :=
  .bind .u1 fun _ => .bind .u2 fun _ =>
  .ite (.bind .i2 fun _ => .pure _) (.ite (.pure _) (.throw _))

theorem advances_readTableSwitch : Advances (readTableSwitch pc) :=
  .bind (.skip (Int.natCast_nonneg _)) fun _ => .bind advances_readTarget fun _ =>
    .bind .i4 fun _ => .bind .i4 fun _ => .ite (.throw _)
      (.bind (.repeated (fun _ => advances_readTarget) _) fun _ => .pure _)

theorem advances_readLookupSwitch : Advances (readLookupSwitch pc) :=
  .bind (.skip (Int.natCast_nonneg _)) fun _ => .bind advances_readTarget fun _ =>
    .bind .i4 fun _ => .ite (.throw _) (.bind (.repeated (fun _ =>
      .bind .i4 fun _ => .bind advances_readTarget fun _ => .pure _) _) fun _ => .pure _)

theorem advances_readCall : Advances (readCall p op) := by
  refine .bind .u2 fun index => ?_
  have hlast : Advances (do
      let m ← p.member index
      return (⟨op, .method m.owner m.name m.desc (m.tag = Tag.interfaceMethodRef)⟩ : Insn)) :=
    .bind (.lift _) fun _ => .pure _
  split
  · exact .bind (.skip (by decide)) fun _ => hlast
  · exact hlast

theorem advances_readDynamicCall : Advances (readDynamicCall p) :=
  .bind .u2 fun _ => .bind (.skip (by decide)) fun _ => .bind (.lift _) fun _ =>
    .bind (.lift _) fun _ => .pure _

theorem advances_readOperands : Advances (readOperands p pc op) :=
  .ite (.throw _) <| .ite advances_readWide <| .ite (.bind .i1 fun _ => .pure _) <|
  .ite (.bind .i2 fun _ => .pure _) <| .ite (.bind .u1 fun _ => .pure _) <|
  .ite (.bind .u1 fun _ => .bind (.lift _) fun _ => .pure _) <|
  .ite (.bind .u2 fun _ => .bind (.lift _) fun _ => .pure _) <|
  .ite (.bind .u1 fun _ => .pure _) <| .ite (.pure _) <| .ite (.pure _) <|
  .ite (.bind .u1 fun _ => .bind .i1 fun _ => .pure _) <|
  .ite (.bind advances_readTarget fun _ => .pure _) <|
  .ite (.bind advances_readTarget fun _ => .pure _) <| .ite (.bind .i2 fun _ => .pure _) <|
  .ite advances_readTableSwitch <| .ite advances_readLookupSwitch <|
  .ite (.bind .u2 fun _ => .bind (.lift _) fun _ => .pure _) <| .ite advances_readCall <|
  .ite advances_readDynamicCall <|
  .ite (.bind .u2 fun _ => .bind (.lift _) fun _ => .pure _) <|
  .ite (.bind .u2 fun _ => .bind .u1 fun _ => .bind (.lift _) fun _ => .pure _) (.pure _)

/-- An instruction is read at the place of the cursor, and takes a byte at least. -/
theorem readInsn_eq_ok {c c' : Cursor} {e : Nat × Insn} (h : readInsn p c = .ok (e, c')) :
    e.1 = c.position ∧ Coding p e.2 ∧ c.Before c' ∧ c.position < c'.position := by
  change ((do
    let op : Opcode := ⟨(← Read.u1).toNat⟩
    let i ← (readOperands p c.position op).under (op.name ++ " at offset " ++
      Text.ofNat c.position)
    return (c.position, i) : Read (Nat × Insn)) c) = .ok (e, c') at h
  obtain ⟨⟨b, c₁⟩, hb, h⟩ := Except.bind_eq_ok_iff.mp h
  obtain ⟨⟨i, c₂⟩, hi, h⟩ := Except.bind_eq_ok_iff.mp h
  obtain ⟨rfl, rfl⟩ := Prod.mk.inj (Except.ok.inj h)
  have hafter := advances_readOperands.under _ _ _ _ hi
  refine ⟨rfl, yields_readOperands.under _ _ _ _ hi, (Advances.u1 _ _ _ hb).trans hafter, ?_⟩
  have hbyte : c₁.position = c.position + 1 := by
    obtain ⟨⟨n, c₀⟩, hn, hb⟩ := Except.bind_eq_ok_iff.mp hb
    obtain ⟨-, rfl⟩ := Prod.mk.inj (Except.ok.inj hb)
    obtain ⟨⟨bs, c₀⟩, hbs, hn⟩ := Except.bind_eq_ok_iff.mp hn
    obtain ⟨-, rfl⟩ := Prod.mk.inj (Except.ok.inj hn)
    unfold Read.bytes at hbs
    dsimp only at hbs
    split at hbs
    · obtain ⟨-, rfl⟩ := Prod.mk.inj (Except.ok.inj hbs)
      rfl
    · cases hbs
  have hle := hafter.position
  omega

/-- Instructions one behind the other, in front of the end of the code. -/
structure Sequential (p : Pool) (size : Nat) (es : List (Nat × Insn)) : Prop where
  sorted : es.Pairwise fun e e' => e.1 < e'.1
  below : ∀ e ∈ es, e.1 < size
  coding : ∀ e ∈ es, Coding p e.2

theorem readInsns_eq_ok {fuel : Nat} {seen : Array (Nat × Insn)} {c c' : Cursor}
    {es : List (Nat × Insn)} (h : readInsns p fuel seen c = .ok (es, c'))
    (hc : c.rest = c.data.drop c.position) (hseen : Sequential p c.data.length seen.toList)
    (hfront : ∀ e ∈ seen.toList, e.1 < c.position) : Sequential p c.data.length es := by
  induction fuel generalizing seen c with
  | zero =>
    obtain ⟨rfl, -⟩ := Prod.mk.inj (Except.ok.inj h)
    exact hseen
  | succ fuel ih =>
    change ((if c.rest.isEmpty then return seen.toList
      else do
        let i ← readInsn p
        readInsns p fuel (seen.push i) : Read (List (Nat × Insn))) c) = .ok (es, c') at h
    split at h
    · obtain ⟨rfl, -⟩ := Prod.mk.inj (Except.ok.inj h)
      exact hseen
    · next hempty =>
      obtain ⟨⟨e, c₁⟩, he, h⟩ := Except.bind_eq_ok_iff.mp h
      obtain ⟨hpc, hcoding, hbefore, hlt⟩ := readInsn_eq_ok he
      have hinside : c.position < c.data.length := by
        by_contra hout
        rw [hc, List.drop_eq_nil_of_le (Nat.not_lt.mp hout)] at hempty
        exact hempty rfl
      rw [← hbefore.data]
      -- it starts where the reader was: behind all that were read, and inside the code
      refine ih h (hbefore.rest hc) ⟨?_, ?_, ?_⟩ ?_
      · rw [Array.toList_push, List.pairwise_append]
        refine ⟨hseen.sorted, List.pairwise_singleton .., fun d hd d' hd' => ?_⟩
        rw [List.mem_singleton.mp hd', hpc]
        exact hfront d hd
      · rw [Array.toList_push, List.forall_mem_append, List.forall_mem_singleton, hbefore.data, hpc]
        exact ⟨hseen.below, hinside⟩
      · rw [Array.toList_push, List.forall_mem_append, List.forall_mem_singleton]
        exact ⟨hseen.coding, hcoding⟩
      · rw [Array.toList_push, List.forall_mem_append, List.forall_mem_singleton, hpc]
        exact ⟨fun d hd => Nat.lt_trans (hfront d hd) hlt, hlt⟩

/-- The instructions of some code. -/
theorem sequential_of_run {code : List UInt8} {fuel : Nat} {es : List (Nat × Insn)}
    (h : (readInsns p fuel #[]).run code = .ok es) : Sequential p code.length es := by
  unfold Read.run at h
  split at h
  · next es' c hread =>
    obtain rfl := Except.ok.inj h
    refine readInsns_eq_ok hread rfl ⟨.nil, ?_, ?_⟩ ?_
    all_goals
      intro e he
      cases he
  · cases h

/-! ### Tables -/

/-- A local variable entry over a range of offsets. -/
def Ranged (i : Insn) : Prop :=
  ∃ (name desc : Text) (start length : Nat) (index : UInt16),
    i = ⟨.localVariable, .localVariable name desc start (start + length) index⟩

/-- An exception entry. -/
def Handles (i : Insn) : Prop :=
  ∃ (start stop handler : Label) (caught : Text),
    i = ⟨.tryCatch, .tryCatch start stop handler caught⟩

theorem yields_readHandler (n : Nat) : Yields (readHandler p n) Handles := by
  refine .andThen fun r => ?_
  have hlast : ∀ caught : Text, Yields (pure ⟨.tryCatch, .tryCatch r.1.toNat r.2.1.toNat
      r.2.2.1.toNat caught⟩) Handles := fun caught => .pure ⟨_, _, _, caught, rfl⟩
  exact .ite (fun _ => .andThen hlast) fun _ => .andThen hlast

theorem yields_readLocals : Yields (readLocals p) fun is => ∀ i ∈ is, Ranged i :=
  .andThen fun _ => .repeated (fun _ => .andThen fun start => .andThen fun length =>
    .andThen fun _ => .andThen fun _ => .andThen fun index => .andThen fun name =>
      .andThen fun desc => .pure ⟨name, desc, start.toNat, length.toNat, index, rfl⟩) _

/-- Tables whose offsets are listed, and attributes that are none of them. -/
structure Tables.Kept (t : Tables) : Prop where
  lines : ∀ e ∈ t.lines, (e.1 : Label) ∈ t.offsets
  locals : ∀ i ∈ t.locals, Ranged i ∧ ∀ o ∈ i.labels, o ∈ t.offsets
  others : ∀ a ∈ t.others, Uninterpreted a

theorem mem_appendList {α : Type} {xs : Array α} {ys : List α} {x : α} :
    x ∈ xs ++ ys ↔ x ∈ xs ∨ x ∈ ys := by
  rw [← Array.mem_toList_iff, Array.toList_appendList, List.mem_append, Array.mem_toList_iff]

theorem Tables.Kept.add {t t' : Tables} {a : Attribute} (ht : t.Kept) (h : t.add p a = .ok t') :
    t'.Kept := by
  unfold Tables.add at h
  dsimp only at h
  split at h
  · obtain ⟨lines, -, h⟩ := Except.bind_eq_ok_iff.mp h
    obtain rfl := Except.ok.inj h
    refine ⟨fun e he => mem_appendList.mpr ((mem_appendList.mp he).imp (ht.lines e) fun he => ?_),
      fun i hi => ⟨(ht.locals i hi).1, fun o ho => ?_⟩, ht.others⟩
    · exact List.mem_map.mpr ⟨e, he, rfl⟩
    · exact mem_appendList.mpr (.inl ((ht.locals i hi).2 o ho))
  · split at h
    · obtain ⟨locals, hlocals, h⟩ := Except.bind_eq_ok_iff.mp h
      obtain rfl := Except.ok.inj h
      have hranged := (yields_readLocals.under _).run hlocals
      refine ⟨fun e he => mem_appendList.mpr (.inl (ht.lines e he)), fun i hi => ?_, ht.others⟩
      rcases mem_appendList.mp hi with hi | hi
      · exact ⟨(ht.locals i hi).1, fun o ho =>
          mem_appendList.mpr (.inl ((ht.locals i hi).2 o ho))⟩
      · refine ⟨hranged i hi, fun o ho => mem_appendList.mpr (.inr ?_)⟩
        exact List.mem_flatMap.mpr ⟨i, hi, ho⟩
    · next hlines hlocals =>
      obtain rfl := Except.ok.inj h
      refine ⟨ht.lines, ht.locals, fun b hb => ?_⟩
      rcases Array.mem_push.mp hb with hb | rfl
      · exact ht.others b hb
      · exact ⟨hlines, hlocals⟩

/-- The length of an attribute that was read is one that can be written. -/
theorem yields_readAttributes : Yields (readAttributes p) fun as => ∀ a ∈ as, a.Short := by
  refine .andThen fun count => .repeated (fun n => ?_) _
  refine .andThen fun index => .andThen fun name => .andThen fun size => ?_
  refine ((Yields.bytes size.toNat).under _).bind fun data hdata => .pure ?_
  rw [Attribute.Short, hdata]
  exact size.toNat_lt

/-- What every step keeps holds in the end. -/
theorem foldlM_keeps {α β : Type} {step : β → α → Except Fault β} {P : β → Prop}
    {as : List α} (hstep : ∀ b, ∀ a ∈ as, ∀ b', P b → step b a = .ok b' → P b') {b b' : β}
    (hb : P b) (h : as.foldlM step b = .ok b') : P b' := by
  induction as generalizing b with
  | nil =>
    obtain rfl := Except.ok.inj h
    exact hb
  | cons a as ih =>
    rw [List.foldlM_cons] at h
    obtain ⟨b₁, hb₁, h⟩ := Except.bind_eq_ok_iff.mp h
    exact ih (fun b a ha => hstep b a (List.mem_cons_of_mem _ ha))
      (hstep b a List.mem_cons_self b₁ hb hb₁) h

/-! ### Bodies -/

namespace Body

variable {b : Body} {m : Std.HashMap Label Nat}

/-- A body as it is read. -/
structure Sound (p : Pool) (b : Body) : Prop where
  insns : Sequential p b.size b.insns
  handlers : ∀ i ∈ b.handlers, Handles i
  tables : b.tables.Kept

theorem Sound.orderly (h : b.Sound p) : b.Orderly where
  sorted := h.insns.sorted
  below := h.insns.below
  real := fun e he => ⟨(h.insns.coding e he).real, Insn.mentions_of_opcode
    (h.insns.coding e he).encodable (ne_of_isReal (h.insns.coding e he).real (by decide))⟩
  handler := fun i hi => by
    obtain ⟨start, stop, handler, caught, rfl⟩ := h.handlers i hi
    exact ⟨rfl, rfl⟩
  localVariable := fun i hi => by
    obtain ⟨name, desc, start, length, index, rfl⟩ := (h.tables.locals i hi).1
    exact ⟨rfl, rfl⟩
  localOffset := fun i hi => (h.tables.locals i hi).2
  lineOffset := h.tables.lines

theorem mem_sequence {i : Insn} (h : i ∈ b.sequence m) :
    (∃ j ∈ b.handlers, i = j.mapLabels (number m)) ∨ (∃ pc, i ∈ b.entriesAt m pc) ∨
      (∃ e ∈ b.insns, i = e.2.mapLabels (number m)) ∨
      ∃ j ∈ b.tables.locals, i = j.mapLabels (number m) := by
  rw [sequence_eq] at h
  rcases List.mem_append.mp h with h | h
  · obtain ⟨j, hj, rfl⟩ := List.mem_map.mp h
    exact .inl ⟨j, hj, rfl⟩
  rcases List.mem_append.mp h with h | h
  · obtain ⟨e, he, h⟩ := List.mem_flatMap.mp h
    rcases List.mem_append.mp h with h | h
    · exact .inr (.inl ⟨e.1, h⟩)
    · exact .inr (.inr (.inl ⟨e, he, List.mem_singleton.mp h⟩))
  rcases List.mem_append.mp h with h | h
  · exact .inr (.inl ⟨b.size, h⟩)
  · obtain ⟨j, hj, rfl⟩ := List.mem_map.mp h
    exact .inr (.inr (.inr ⟨j, Array.mem_toList_iff.mp hj, rfl⟩))

theorem mem_entriesAt {pc : Nat} {i : Insn} (h : i ∈ b.entriesAt m pc) :
    i = .place (number m pc) ∨ ∃ line, i = .line line (number m pc) := by
  cases hm : m[(pc : Label)]? with
  | none =>
    rw [entriesAt_of_none b m hm] at h
    cases h
  | some n =>
    rw [entriesAt_of_some b m hm, List.mem_cons, List.mem_map] at h
    exact h.imp_right fun ⟨line, _, heq⟩ => ⟨line, heq.symm⟩

end Body

end Code

/-- A method as it is read: it can be written, and its code is tidy. -/
structure Method.Parsed (p : Pool) (m : Method) : Prop where
  faithful : m.Faithful p
  tidy : ∀ l, m.code = some l → l.Tidy

theorem Insn.Encodable.mapLabels {p : Pool} {i : Insn} (h : i.Encodable p) (f : Label → Label) :
    (i.mapLabels f).Encodable p := by
  obtain ⟨op, x⟩ := i
  cases x with
  | tableSwitch low high dflt targets =>
    refine ⟨h.1, fun hcount => h.2 ?_⟩
    rwa [List.length_map] at hcount
  | lookupSwitch dflt keys targets => exact ⟨h.1, h.2.trans (List.length_map ..).symm⟩
  | _ => exact h

namespace Code

namespace Body

variable {p : Pool} {b : Body} {m : Std.HashMap Label Nat}

theorem Sound.encodable (h : b.Sound p) {i : Insn} (hi : i ∈ b.sequence m) : i.Encodable p := by
  rcases mem_sequence hi with ⟨j, hj, rfl⟩ | ⟨pc, hi⟩ | ⟨e, he, rfl⟩ | ⟨j, hj, rfl⟩
  · obtain ⟨start, stop, handler, caught, rfl⟩ := h.handlers j hj
    exact rfl
  · rcases mem_entriesAt hi with rfl | ⟨line, rfl⟩
    · exact rfl
    · exact rfl
  · exact (h.insns.coding e he).encodable.mapLabels _
  · obtain ⟨name, desc, start, length, index, rfl⟩ := (h.tables.locals j hj).1
    exact rfl

theorem pairwise_bounds (ho : b.Orderly) : b.bounds.Pairwise (· < ·) := by
  refine List.pairwise_append.mpr ⟨List.pairwise_map.mpr ho.sorted,
    List.pairwise_singleton .., fun d hd d' hd' => ?_⟩
  obtain ⟨e, he, rfl⟩ := List.mem_map.mp hd
  rw [List.mem_singleton.mp hd']
  exact ho.below e he

theorem pair_sublist_bounds (ho : b.Orderly) {pc pc' : Nat} (hlt : pc < pc')
    (hb : pc ∈ b.bounds) (hb' : pc' ∈ b.bounds) : [pc, pc'].Sublist b.bounds := by
  have hsorted := pairwise_bounds ho
  obtain ⟨xs, ys, hsplit⟩ := List.append_of_mem hb
  rw [hsplit, List.pairwise_append] at hsorted
  rw [hsplit] at hb' ⊢
  rcases List.mem_append.mp hb' with hmem | hmem
  · exact absurd (hsorted.2.2 pc' hmem pc List.mem_cons_self) (Nat.lt_asymm hlt)
  · have hys := (List.mem_cons.mp hmem).resolve_left (Nat.ne_of_gt hlt)
    exact ((List.singleton_sublist.mpr hys).cons_cons pc).trans (List.sublist_append_right ..)

theorem entries_sublist_stretch (es : List (Nat × Insn)) :
    ((es.map Prod.fst).flatMap (b.entriesAt m)).Sublist (b.stretch m es) := by
  induction es with
  | nil => exact .slnil
  | cons e es ih =>
    rw [stretch_cons, List.map_cons, List.flatMap_cons]
    exact (List.Sublist.refl _).append (ih.cons _)

/-- The entries of the boundaries are in the sequence one boundary after the other. -/
theorem entries_sublist : (b.bounds.flatMap (b.entriesAt m)).Sublist (b.sequence m) := by
  rw [sequence_eq, bounds, List.flatMap_append, List.flatMap_singleton]
  exact ((entries_sublist_stretch b.insns).append (List.sublist_append_left ..)).trans
    (List.sublist_append_right ..)

/-- Labels are placed in the order of their offsets. -/
theorem places_sublist (ho : b.Orderly) (hm : Numbers m (· ∈ b.offsets)) {pc pc' : Nat}
    (hlt : pc < pc') (hpc : (pc : Label) ∈ b.offsets) (hpc' : (pc' : Label) ∈ b.offsets)
    (hb : pc ∈ b.bounds) (hb' : pc' ∈ b.bounds) :
    [Insn.place (number m pc), Insn.place (number m pc')].Sublist (b.sequence m) := by
  have hplace : ∀ {pc : Nat}, (pc : Label) ∈ b.offsets →
      [Insn.place (number m pc)].Sublist (b.entriesAt m pc) := by
    intro pc hpc
    obtain ⟨n, hn⟩ := (hm.numbered pc).mpr hpc
    rw [entriesAt_of_some b m hn]
    exact List.singleton_sublist.mpr List.mem_cons_self
  have hpair := (pair_sublist_bounds ho hlt hb hb').flatMap (b.entriesAt m)
  rw [List.flatMap_cons, List.flatMap_singleton] at hpair
  exact ((hplace hpc).append (hplace hpc')).trans (hpair.trans entries_sublist)

theorem Boundary.mem_bounds {pc : Nat} (h : b.Boundary pc) : pc ∈ b.bounds := by
  rcases h with hsize | ⟨e, he, heq⟩
  · exact List.mem_append_right _ (List.mem_singleton.mpr (by exact_mod_cast hsize))
  · refine List.mem_append_left _ (List.mem_map.mpr ⟨e, he, ?_⟩)
    exact_mod_cast heq.symm

theorem Sound.spans (h : b.Sound p) (hm : Numbers m (· ∈ b.offsets))
    (hb : ∀ o ∈ b.offsets, b.Boundary o) {i : Insn} (hi : i ∈ b.sequence m) :
    i.Spans (b.sequence m) := by
  rcases mem_sequence hi with ⟨j, hj, rfl⟩ | ⟨pc, hi⟩ | ⟨e, he, rfl⟩ | ⟨j, hj, rfl⟩
  · obtain ⟨start, stop, handler, caught, rfl⟩ := h.handlers j hj
    trivial
  · rcases mem_entriesAt hi with rfl | ⟨line, rfl⟩
    · trivial
    · trivial
  · -- no instruction has the operand of a local variable entry
    obtain ⟨hencodable, hreal, -⟩ := h.insns.coding e he
    obtain ⟨pc, op, x⟩ := e
    cases x with
    | localVariable name desc start stop index =>
      obtain rfl : op = .localVariable := hencodable
      cases hreal
    | _ => trivial
  · obtain ⟨⟨name, desc, start, length, index, rfl⟩, hoffsets⟩ := h.tables.locals j hj
    have hmem : ∀ o ∈ [(start : Label), (start + length : Label)], o ∈ b.offsets := fun o ho =>
      List.mem_append_right _ (Array.mem_toList_iff.mpr (hoffsets o ho))
    have hstart := hmem start List.mem_cons_self
    have hstop := hmem (start + length) (List.mem_cons_of_mem _ List.mem_cons_self)
    rw [← Int.natCast_add] at hstop
    rcases Nat.eq_zero_or_pos length with rfl | hpos
    · exact .inl rfl
    · exact .inr (places_sublist h.orderly hm (Nat.lt_add_of_pos_right hpos) hstart hstop
        (hb _ hstart).mem_bounds (hb _ hstop).mem_bounds)

/-- The label of an offset, if it has one. -/
def labelAt (m : Std.HashMap Label Nat) (pc : Nat) : Option Label :=
  m[(pc : Label)]?.map Int.ofNat

theorem placed_entriesAt (pc : Nat) :
    (b.entriesAt m pc).filterMap Insn.placed? = (labelAt m pc).toList := by
  cases hpc : m[(pc : Label)]? with
  | none =>
    rw [entriesAt_of_none b m hpc, labelAt, hpc]
    rfl
  | some n =>
    have hlines : ∀ lines : List UInt16,
        (lines.map fun line => Insn.line line n).filterMap Insn.placed? = [] := by
      intro lines
      rw [List.filterMap_eq_nil_iff, List.forall_mem_map]
      exact fun _ _ => rfl
    have hplace : (Insn.place n).placed? = some (n : Label) := rfl
    rw [entriesAt, labelAt, hpc, List.filterMap_cons_some hplace, hlines]
    rfl

theorem placed_stretch {es : List (Nat × Insn)} (hes : ∀ e ∈ es, e.2.mentions = e.2.labels) :
    (b.stretch m es).filterMap Insn.placed? = (es.map Prod.fst).filterMap (labelAt m) := by
  induction es with
  | nil => rfl
  | cons e es ih =>
    rw [List.forall_mem_cons] at hes
    rw [stretch_cons, List.filterMap_append, placed_entriesAt,
      List.filterMap_cons_none (Insn.placed?_mapLabels hes.1 _), ih hes.2, List.map_cons]
    cases hlabel : labelAt m e.1 with
    | none => rw [List.filterMap_cons_none hlabel]; rfl
    | some k => rw [List.filterMap_cons_some hlabel]; rfl

theorem placed_locals (ho : b.Orderly) :
    (b.tables.locals.toList.map (Insn.mapLabels (number m))).filterMap Insn.placed? = [] := by
  rw [List.filterMap_eq_nil_iff, List.forall_mem_map]
  exact fun i hi => Insn.placed?_mapLabels (ho.localVariable i (Array.mem_toList_iff.mp hi)).2 _

/-- The labels that the sequence of a body places. -/
theorem placed_sequence (ho : b.Orderly) :
    (b.sequence m).filterMap Insn.placed? = b.bounds.filterMap (labelAt m) := by
  rw [sequence_eq, List.filterMap_append, placed_handlers ho, List.filterMap_append,
    placed_stretch fun e he => (ho.real e he).2, List.filterMap_append, placed_entriesAt,
    placed_locals ho, bounds, List.filterMap_append, List.nil_append, List.append_nil]
  congr 1

/-- The offsets that an entry of a sequence has as labels. -/
theorem Sound.exists_offset (h : b.Sound p) (hm : Numbers m (· ∈ b.offsets)) {i : Insn}
    (hi : i ∈ b.sequence m) {k : Label} (hk : k ∈ i.labels) :
    ∃ o ∈ b.offsets, k = number m o := by
  have hmap : ∀ {j : Insn}, (∀ o ∈ j.labels, o ∈ b.offsets) →
      k ∈ (j.mapLabels (number m)).labels → ∃ o ∈ b.offsets, k = number m o := by
    intro j hj hk
    rw [Insn.labels_mapLabels] at hk
    obtain ⟨o, ho, rfl⟩ := List.mem_map.mp hk
    exact ⟨o, hj o ho, rfl⟩
  rcases mem_sequence hi with ⟨j, hj, rfl⟩ | ⟨pc, hi⟩ | ⟨e, he, rfl⟩ | ⟨j, hj, rfl⟩
  · exact hmap (fun o ho => List.mem_append_left _ (List.mem_append_right _
      (List.mem_flatMap.mpr ⟨j, hj, ho⟩))) hk
  · rcases mem_entriesAt hi with rfl | ⟨line, rfl⟩
    · cases hk
    · obtain rfl := List.mem_singleton.mp hk
      refine ⟨pc, (hm.numbered pc).mp ?_, rfl⟩
      cases hpc : m[(pc : Label)]? with
      | none =>
        rw [entriesAt_of_none b m hpc] at hi
        cases hi
      | some n => exact ⟨n, rfl⟩
  · exact hmap (fun o ho => List.mem_append_left _ (List.mem_append_left _
      (List.mem_flatMap.mpr ⟨e, he, mem_offsetsOf.mpr ho⟩))) hk
  · exact hmap (fun o ho => List.mem_append_right _ (Array.mem_toList_iff.mpr
      ((h.tables.locals j hj).2 o ho))) hk

theorem Sound.normal (h : b.Sound p) {i : Insn} (hi : i ∈ b.sequence m) (hreal : i.isReal = true) :
    i.Normal := by
  rcases mem_sequence hi with ⟨j, hj, rfl⟩ | ⟨pc, hi⟩ | ⟨e, he, rfl⟩ | ⟨j, hj, rfl⟩
  · obtain ⟨start, stop, handler, caught, rfl⟩ := h.handlers j hj
    cases hreal
  · rcases mem_entriesAt hi with rfl | ⟨line, rfl⟩
    · cases hreal
    · cases hreal
  · rw [Insn.Normal, Insn.general_mapLabels, (h.insns.coding e he).normal]
    obtain ⟨pc, op, x⟩ := e
    cases x <;> rfl
  · obtain ⟨name, desc, start, length, index, rfl⟩ := (h.tables.locals j hj).1
    cases hreal

/-- More instructions are in front of a later offset. -/
theorem rank_le {o o' : Int} (h : o ≤ o') : b.rank o ≤ b.rank o' := by
  refine Int.ofNat_le.mpr (List.countP_mono_left fun e _ he => ?_)
  simp only [decide_eq_true_eq] at he ⊢
  omega

theorem Sound.lines_sorted (h : b.Sound p) (hm : Numbers m (· ∈ b.offsets))
    (hb : ∀ o ∈ b.offsets, b.Boundary o) :
    ((b.sequence m).filterMap Insn.line?).Pairwise fun e e' =>
      position (b.sequence m) e.1 ≤ position (b.sequence m) e'.1 := by
  have hlines : ∀ e ∈ b.tables.lines, (e.1 : Label) ∈ b.offsets := fun e he =>
    List.mem_append_right _ (Array.mem_toList_iff.mpr (h.tables.lines e he))
  have hmem : ∀ e ∈ b.bounds.flatMap b.lineEntries, (e.1 : Label) ∈ b.offsets := by
    intro e he
    obtain ⟨pc, -, he⟩ := List.mem_flatMap.mp he
    exact hlines e (Array.mem_toList_iff.mp (List.mem_filter.mp he).1)
  have hsorted : (b.bounds.flatMap b.lineEntries).Pairwise fun e e' => e.1 ≤ e'.1 := by
    have hpc : ∀ {pc : Nat} {e : Nat × UInt16}, e ∈ b.lineEntries pc → e.1 = pc := fun he =>
      of_decide_eq_true (List.mem_filter.mp he).2
    refine List.pairwise_flatMap.mpr ⟨fun pc _ => ?_, (pairwise_bounds h.orderly).imp ?_⟩
    · refine List.pairwise_of_forall_mem_list fun e he e' he' => ?_
      exact Nat.le_of_eq ((hpc he).trans (hpc he').symm)
    · intro pc pc' hlt e he e' he'
      rw [hpc he, hpc he']
      exact Nat.le_of_lt hlt
  rw [lines_sequence hm h.orderly hlines, List.pairwise_map]
  refine hsorted.imp_of_mem fun {e e'} he he' hle => ?_
  have hpos : ∀ o ∈ b.offsets, position (b.sequence m) (number m o) = b.rank o := fun o ho =>
    position_sequence hm h.orderly ho (hb o ho)
  change position _ (number m e.1) ≤ position _ (number m e'.1)
  rw [hpos _ (hmem e he), hpos _ (hmem e' he')]
  exact rank_le (by exact_mod_cast hle)

theorem Sound.mem_placed (h : b.Sound p) (hm : Numbers m (· ∈ b.offsets))
    (hb : ∀ o ∈ b.offsets, b.Boundary o) {i : Insn} (hi : i ∈ b.sequence m) {k : Label}
    (hk : k ∈ i.labels) : k ∈ (b.sequence m).filterMap Insn.placed? := by
  obtain ⟨o, ho, rfl⟩ := h.exists_offset hm hi hk
  by_contra hnot
  have hrank := position_sequence hm h.orderly ho (hb o ho)
  rw [position, if_neg hnot] at hrank
  have : 0 ≤ b.rank o := Int.natCast_nonneg _
  omega

/-- The listing of a body that was read can be written, and is tidy. -/
theorem Sound.faithful (h : b.Sound p) {l : Listing} (hl : b.listing = .ok l) :
    l.Faithful p ∧ l.Tidy := by
  obtain ⟨hb, rfl⟩ := listing_eq_ok hl
  have hm := numbers_labelNumbers b.offsets
  refine ⟨⟨(Listing.Built.ofInsns _ _).wellFormed, ?_, ?_⟩, ?_⟩
  · intro i hi
    rw [Listing.insns_ofInsns] at hi
    exact h.encodable hi
  · rw [Listing.insns_ofInsns]
    exact fun i hi => h.spans hm hb hi
  · constructor
    all_goals rw [Listing.insns_ofInsns]
    · rw [placed_sequence h.orderly]
      refine List.Nodup.filterMap (fun pc pc' k hk hk' => ?_)
        ((pairwise_bounds h.orderly).imp Nat.ne_of_lt)
      obtain ⟨n, hn, rfl⟩ := Option.map_eq_some_iff.mp hk
      obtain ⟨n', hn', heq⟩ := Option.map_eq_some_iff.mp hk'
      obtain rfl : n' = n := Int.ofNat.inj heq
      exact_mod_cast hm.injective hn hn'
    · rw [placed_sequence h.orderly]
      intro k hk
      obtain ⟨pc, -, hk⟩ := List.mem_filterMap.mp hk
      obtain ⟨n, -, rfl⟩ := Option.map_eq_some_iff.mp hk
      exact Int.natCast_nonneg n
    · exact fun i hi k hk => h.mem_placed hm hb hi hk
    · exact fun i hi => h.normal hi
    · exact h.lines_sorted hm hb

end Body

/-! ### Methods -/

variable {p : Pool}

/-- Reading a code attribute gives a method code that can be written. -/
theorem yields_readInto {m : Method} (hm : m.Parsed p) :
    Yields (readInto p m) (Method.Parsed p) := by
  refine .andThen fun maxStack => .andThen fun maxLocals => .andThen fun size =>
    .andThen fun code => ?_
  refine (Yields.lift fun es hes => sequential_of_run hes).bind fun insns hinsns => ?_
  refine .andThen fun count => (Yields.repeated yields_readHandler _).bind fun handlers hhandlers =>
    ?_
  refine .andThen fun attributes => ?_
  refine (Yields.lift fun t ht => foldlM_keeps (fun t a _ t' => Tables.Kept.add) ?_ ht).bind
    fun tables htables => ?_
  · constructor
    all_goals
      intro x hx
      exact absurd hx (Array.not_mem_empty x)
  refine (Yields.lift fun l hl =>
    Body.Sound.faithful ⟨hinsns, hhandlers, htables⟩ hl).bind fun l hl =>
      .pure ⟨⟨?_, ?_, ?_, hm.faithful.plain⟩, ?_⟩
  · intro k hk
    obtain rfl := Option.some.inj hk
    exact hl.1
  · intro a ha
    rcases List.mem_append.mp ha with ha | ha
    · exact hm.faithful.others a ha
    · exact htables.others a (Array.mem_toList_iff.mp ha)
  · intro hnone
    cases hnone
  · intro k hk
    obtain rfl := Option.some.inj hk
    exact hl.2

end Code

namespace ClassFile

variable {p : Pool}

theorem parsed_addAttribute {m m' : Method} {a : Attribute} (ha : a.Short) (hm : m.Parsed p)
    (h : addAttribute p m a = .ok m') : m'.Parsed p := by
  unfold addAttribute at h
  split at h
  · exact (Code.yields_readInto hm).run h
  · next hname =>
    obtain rfl := Except.ok.inj h
    refine ⟨⟨hm.faithful.code, hm.faithful.others, hm.faithful.bare, fun b hb => ?_⟩, hm.tidy⟩
    rcases List.mem_append.mp hb with hb | hb
    · exact hm.faithful.plain b hb
    · rw [List.mem_singleton.mp hb]
      exact ⟨hname, ha⟩

theorem yields_readMethod (n : Nat) : Yields (readMethod p n) (Method.Parsed p) := by
  refine .andThen fun head => Yields.under (Code.yields_readAttributes.bind
    fun attributes hattributes => .lift fun m hm => ?_) _
  refine Code.foldlM_keeps (fun m a ha m' => parsed_addAttribute (hattributes a ha))
    ⟨⟨?_, ?_, ?_, ?_⟩, ?_⟩ hm
  · intro l hl
    cases hl
  · intro a ha
    cases ha
  · intro _
    exact ⟨rfl, rfl, rfl⟩
  · intro a ha
    cases ha
  · intro l hl
    cases hl

theorem yields_readField (n : Nat) :
    Yields (readField p n) fun f => ∀ a ∈ f.attributes, a.Short :=
  .andThen fun _ => (Code.yields_readAttributes.under _).bind fun _ hattributes =>
    .pure hattributes

theorem yields_readHeader : Yields readHeader fun v => isKnownVersion v.2 = true := by
  have hversions : Yields (do
      let minor ← Read.u2.under "header"
      let major ← Read.u2.under "header"
      if isKnownVersion major then return (minor, major)
      else throw (.context [] .badVersion
        (": " ++ Text.ofNat major.toNat ++ "." ++ Text.ofNat minor.toNat)) :
        Read (UInt16 × UInt16)) fun v => isKnownVersion v.2 = true :=
    .andThen fun _ => .andThen fun _ => .ite (fun h => .pure h) fun _ => .throw _
  refine .andThen fun word => ?_
  split
  · exact .andThen fun _ => hversions
  · exact hversions

/-- What is read behind the pool. -/
structure Behind (p : Pool) (major : UInt16) (c : ClassFile) : Prop where
  pool : c.pool = some p
  major : c.major = major
  fields : ∀ f ∈ c.fields, ∀ a ∈ f.attributes, a.Short
  methods : ∀ m ∈ c.methods, m.Parsed p
  attributes : ∀ a ∈ c.attributes, a.Short

theorem yields_readBody (minor major : UInt16) :
    Yields (readBody p minor major) (Behind p major) := by
  refine .andThen fun access => .andThen fun thisIndex => .andThen fun name =>
    .andThen fun superIndex => ?_
  have hlast : ∀ super : Text, Yields (do
      let interfaces ← Read.repeated
        (fun n => do readClassName p ("interface " ++ Text.ofNat n) (← Read.u2)) (← Read.u2).toNat
      let fields ← Read.repeated (readField p) (← Read.u2).toNat
      let methods ← Read.repeated (readMethod p) (← Read.u2).toNat
      let attributes ← (Code.readAttributes p).under "class attributes"
      return { pool := some p, major, minor, access, name, super, interfaces, fields, methods,
               attributes }) (Behind p major) := fun super =>
    .andThen fun _ => .andThen fun interfaces => .andThen fun _ =>
      (Yields.repeated yields_readField _).bind fun fields hfields => .andThen fun _ =>
        (Yields.repeated yields_readMethod _).bind fun methods hmethods =>
          (Code.yields_readAttributes.under _).bind fun attributes hattributes =>
            .pure ⟨rfl, rfl, hfields, hmethods, hattributes⟩
  exact .ite (fun _ => .andThen hlast) fun _ => .andThen hlast

/-- A class as it is read, with its pool. -/
structure Parsed (p : Pool) (c : ClassFile) : Prop where
  pool : c.pool = some p
  sound : p.Paired → p.Sound
  version : isKnownVersion c.major = true
  fields : ∀ f ∈ c.fields, ∀ a ∈ f.attributes, a.Short
  methods : ∀ m ∈ c.methods, m.Parsed p
  attributes : ∀ a ∈ c.attributes, a.Short

theorem Parsed.faithful {c : ClassFile} (h : c.Parsed p) : c.Faithful p :=
  ⟨h.pool, h.version, h.fields, fun m hm => (h.methods m hm).faithful, h.attributes⟩

/-- A class that was read can be written, if the wide entries of its pool have their second
places. -/
theorem parsed_of_parse {data : List UInt8} {c : ClassFile} (h : parse data = .ok c) :
    ∃ p, c.Parsed p := by
  refine @Yields.run _ read (fun c => ∃ p, c.Parsed p) c ?_ data h
  refine yields_readHeader.bind fun v hv => (Pool.sound_of_read.under _).bind fun p hp => ?_
  refine (yields_readBody v.1 v.2).bind fun c hc => .andThen fun _ => ?_
  refine .ite (fun _ => .throw _) fun _ =>
    .pure ⟨p, hc.pool, hp, ?_, hc.fields, hc.methods, hc.attributes⟩
  rw [hc.major]
  exact hv

/-- The pool that a class was read with has the index of its entries. -/
theorem pool_of_parse {data : List UInt8} {c : ClassFile} (h : parse data = .ok c) :
    ∃ entries, c.pool = some (.ofEntries entries) := by
  refine @Yields.run _ read (fun c => ∃ entries, c.pool = some (.ofEntries entries)) c ?_ data h
  refine yields_readHeader.bind fun v _ => (Pool.yields_read.under _).bind fun p hp => ?_
  refine (yields_readBody v.1 v.2).bind fun c hc => .andThen fun _ => ?_
  refine .ite (fun _ => .throw _) fun _ => ?_
  obtain ⟨entries, cs, rfl, -⟩ := hp
  exact .pure ⟨entries, hc.pool⟩

end ClassFile

end ClassWeaver
