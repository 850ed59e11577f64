import ClassWeaver.Proofs.Codec.Covers
import ClassWeaver.Proofs.Codec.Parsed

/-!
# Offsets in the bytes of a code attribute

Which offsets the branches and the tables of a code attribute name, and where its instructions
start, can be told from the bytes alone: what stands at a place says where the next item is. `Raw`
tells it so, without a reader and for all bytes, also for those that no reader accepts.

The reader is tied to this by one lemma for each of its parts. They lead to `Raw.Found`: the body
that is read from a code attribute has its instructions at the starts that the bytes tell, and its
labels are the offsets that the bytes name (`Raw.Found.mem_offsets`).
-/

namespace ClassWeaver

/-! ### What the bytes say -/

namespace Code.Raw

section Instructions

variable (code : List UInt8) (pc : Nat)

/-- The opcode at an offset. -/
def opcode : Opcode := ⟨numberAt code 1 pc⟩

/-- Where the numbers of a switch begin: at the first multiple of four behind the opcode. -/
def switchBase : Nat := 4 * (pc / 4 + 1)

theorem switchBase_eq : switchBase pc = pc + 1 + switchPadding pc := by
  rw [switchBase, switchPadding]
  omega

/-- The number of cases of a table switch, from its lowest and its highest key. -/
def tableCases : Nat :=
  (signedAt code 4 (switchBase pc + 8) - signedAt code 4 (switchBase pc + 4) + 1).toNat

/-- The number of cases of a lookup switch. -/
def lookupCases : Nat := (signedAt code 4 (switchBase pc + 4)).toNat

/-- The number of bytes behind the opcode of the instruction at an offset. -/
def operands (op : Opcode) : Nat :=
  match op.shape with
  | .int => if op = .sipush then 2 else 1
  | .constant => if op = .ldc then 1 else 2
  | .slot => if op.isCompactLoad || op.isCompactStore then 0 else 1
  | .increment | .field | .type => 2
  | .jump => if op = .gotoW || op = .jsrW then 4 else 2
  | .method => if op = .invokeInterface then 4 else 2
  | .dynamic => 4
  | .multiArray => 3
  | .tableSwitch => switchBase pc + 12 + 4 * tableCases code pc - (pc + 1)
  | .lookupSwitch => switchBase pc + 8 + 8 * lookupCases code pc - (pc + 1)
  | _ => if op = .wide then (if opcode code (pc + 1) = .iinc then 5 else 3) else 0

/-- The number of bytes of the instruction at an offset. -/
def width : Nat := 1 + operands code pc (opcode code pc)

/-- The offsets that an instruction with the opcode branches to, the default of a switch first:
displacements are signed and count from the opcode. -/
def branches (op : Opcode) : List Int :=
  match op.shape with
  | .jump => [pc + signedAt code (if op = .gotoW || op = .jsrW then 4 else 2) (pc + 1)]
  | .tableSwitch => (pc + signedAt code 4 (switchBase pc)) ::
    (List.range' (switchBase pc + 12) (tableCases code pc) 4).map fun k => pc + signedAt code 4 k
  | .lookupSwitch => (pc + signedAt code 4 (switchBase pc)) ::
    (List.range' (switchBase pc + 8) (lookupCases code pc) 8).map
      fun k => pc + signedAt code 4 (k + 4)
  | _ => []

theorem operands_tableSwitch : operands code pc .tableSwitch =
    switchBase pc + 12 + 4 * tableCases code pc - (pc + 1) := rfl

theorem operands_lookupSwitch : operands code pc .lookupSwitch =
    switchBase pc + 8 + 8 * lookupCases code pc - (pc + 1) := rfl

theorem branches_tableSwitch : branches code pc .tableSwitch =
    (pc + signedAt code 4 (switchBase pc)) ::
      (List.range' (switchBase pc + 12) (tableCases code pc) 4).map
        fun k => pc + signedAt code 4 k := rfl

theorem branches_lookupSwitch : branches code pc .lookupSwitch =
    (pc + signedAt code 4 (switchBase pc)) ::
      (List.range' (switchBase pc + 8) (lookupCases code pc) 8).map
        fun k => pc + signedAt code 4 (k + 4) := rfl

/-- The offsets that the instruction at an offset branches to. -/
def targets : List Int := branches code pc (opcode code pc)

/-- Where instructions start, from an offset on. -/
def startsFrom (pc : Nat) : List Nat :=
  if pc < code.length then pc :: startsFrom (pc + width code pc) else []
termination_by code.length - pc
decreasing_by
  rw [width]
  omega

/-- Where instructions start. -/
def starts : List Nat := startsFrom code 0

variable {code pc}

theorem le_of_mem_startsFrom {q : Nat} (h : q ∈ startsFrom code pc) : pc ≤ q := by
  induction pc using startsFrom.induct code with
  | case1 pc hlt ih =>
    rw [startsFrom, if_pos hlt] at h
    rcases List.mem_cons.mp h with rfl | h
    · exact Nat.le_refl _
    · exact Nat.le_trans (Nat.le_add_right ..) (ih h)
  | case2 pc hlt =>
    rw [startsFrom, if_neg hlt] at h
    cases h

/-- No instruction starts in front of the end of an earlier one. -/
theorem end_le_of_lt {q q' : Nat} (h : q ∈ startsFrom code pc) (h' : q' ∈ startsFrom code pc)
    (hlt : q < q') : q + width code q ≤ q' := by
  induction pc using startsFrom.induct code with
  | case1 pc hpc ih =>
    rw [startsFrom, if_pos hpc] at h h'
    rcases List.mem_cons.mp h' with rfl | h'
    · rcases List.mem_cons.mp h with rfl | h
      · exact absurd hlt (Nat.lt_irrefl _)
      · have := le_of_mem_startsFrom h
        omega
    · rcases List.mem_cons.mp h with rfl | h
      · exact le_of_mem_startsFrom h'
      · exact ih h h'
  | case2 pc hpc =>
    rw [startsFrom, if_neg hpc] at h
    cases h

end Instructions

section Tables

variable (p : Pool) (data : List UInt8)

/-- The code of a code attribute. -/
def code : List UInt8 := (data.drop 8).take (numberAt data 4 4)

/-- Where the exception table begins, with its length. -/
def handlerPlace : Nat := 8 + numberAt data 4 4

/-- Start, end and handler of the exception entry at a place. -/
def handlerAt (k : Nat) : List Int :=
  [(numberAt data 2 k : Int), (numberAt data 2 (k + 2) : Int), (numberAt data 2 (k + 4) : Int)]

/-- Start, end and handler of each exception entry. -/
def handlers : List (List Int) :=
  (List.range' (handlerPlace data + 2) (numberAt data 2 (handlerPlace data)) 8).map
    (handlerAt data)

/-- Attributes one behind the other: the place of the name of each in the pool, and its data. -/
def attributesFrom : (count pos : Nat) → List (UInt16 × List UInt8)
  | 0, _ => []
  | count + 1, pos =>
    ((numberAt data 2 pos).toUInt16, (data.drop (pos + 6)).take (numberAt data 4 (pos + 2))) ::
      attributesFrom count (pos + 6 + numberAt data 4 (pos + 2))

/-- The attributes of a code attribute, which follow the exception table. -/
def attributes : List (UInt16 × List UInt8) :=
  let place := handlerPlace data + 2 + 8 * numberAt data 2 (handlerPlace data)
  attributesFrom data (numberAt data 2 place) (place + 2)

/-- The data of the attributes of a name. -/
def named (name : Text) (as : List (UInt16 × List UInt8)) : List (List UInt8) :=
  (as.filter fun a => (p.textAt a.1).toOption = some name).map Prod.snd

/-- Offset and line of each entry of a line table. -/
def lineTable (bs : List UInt8) : List (Nat × UInt16) :=
  (List.range' 2 (numberAt bs 2 0) 4).map fun k =>
    (numberAt bs 2 k, (numberAt bs 2 (k + 2)).toUInt16)

/-- Start and end of the local variable entry at a place, which has its length. -/
def localAt (bs : List UInt8) (k : Nat) : List Int :=
  [(numberAt bs 2 k : Int), (numberAt bs 2 k + numberAt bs 2 (k + 2) : Int)]

/-- Start and end of each entry of a table of local variables. -/
def localTable (bs : List UInt8) : List (List Int) :=
  (List.range' 2 (numberAt bs 2 0) 10).map (localAt bs)

/-- The line entries of a code attribute. -/
def lines : List (Nat × UInt16) :=
  (named p Attribute.lineNumbers (attributes data)).flatMap lineTable

/-- The ranges of the local variable entries of a code attribute. -/
def locals : List (List Int) :=
  (named p Attribute.localVariables (attributes data)).flatMap localTable

/-- An offset that is negative, past the end of the code or inside an instruction. -/
def Astray (o : Int) : Prop :=
  o < 0 ∨ (code data).length < o ∨
    ∃ pc ∈ starts (code data), (pc : Int) < o ∧ o < (pc + width (code data) pc : Nat)

/-- All offsets that a code attribute names. -/
def offsets : List Int :=
  (starts (code data)).flatMap (targets (code data)) ++ (handlers data).flatten ++
    (lines p data).map (fun e => (e.1 : Int)) ++ (locals p data).flatten

end Tables

end Code.Raw

/-! ### Instructions that are read -/

namespace Code

variable {p : Pool} {code : List UInt8} {pc pos : Nat} {op : Opcode}

/-- The instruction under an opcode at an offset, read to where its bytes end: the offsets that it
branches to stand in place of its labels. -/
structure Raw.Spells (code : List UInt8) (pc : Nat) (op : Opcode) (i : Insn) (stop : Nat) :
    Prop where
  labels : i.labels = Raw.branches code pc op
  stop : stop = pc + 1 + Raw.operands code pc op

/-- Opcodes under which nothing is read but operands of a fixed width without labels. -/
theorem Raw.Spells.of_shape {i : Insn} {stop n : Nat} {s : Shape} (hi : i.labels = [])
    (hshape : op.shape = s) (hs : s ≠ .jump ∧ s ≠ .tableSwitch ∧ s ≠ .lookupSwitch)
    (hn : Raw.operands code pc op = n) (hstop : stop = pc + 1 + n) :
    Raw.Spells code pc op i stop := by
  refine ⟨?_, by rw [hstop, hn]⟩
  rw [hi, Raw.branches, hshape]
  split
  · exact absurd rfl hs.1
  · exact absurd rfl hs.2.1
  · exact absurd rfl hs.2.2
  · rfl

theorem covers_readTarget : Covers (readTarget pc) code pos fun l stop =>
    l = pc + signedAt code 4 pos ∧ stop = pos + 4 :=
  Covers.i4.bind fun n stop h => .pure ⟨by rw [h.1], h.2⟩

theorem covers_readWide : Covers readWide code (pc + 1) (Raw.Spells code pc .wide) := by
  refine Covers.u1.bind fun b _ hb => ?_
  obtain ⟨-, hb, rfl⟩ := hb
  have hop : (⟨b.toNat⟩ : Opcode) = Raw.opcode code (pc + 1) := by rw [hb, Raw.opcode]
  refine Covers.u2.bind fun index _ hindex => ?_
  obtain ⟨-, -, rfl⟩ := hindex
  refine .ite (fun h => Covers.i2.bind fun delta _ hdelta => .pure ?_) fun h =>
    .ite (fun _ => .pure ?_) fun _ => .throw _
  · rw [hop] at h
    refine .of_shape rfl rfl (by decide) (n := 5) ?_ ?_
    · change (if Raw.opcode code (pc + 1) = .iinc then 5 else 3) = 5
      rw [if_pos h]
    · rw [hdelta.2]
  · rw [hop] at h
    refine .of_shape rfl rfl (by decide) (n := 3) ?_ ?_
    · change (if Raw.opcode code (pc + 1) = .iinc then 5 else 3) = 3
      rw [if_neg h]
    · rfl

theorem covers_readTableSwitch :
    Covers (readTableSwitch pc) code (pc + 1) (Raw.Spells code pc .tableSwitch) := by
  refine (Covers.skip _).bind fun _ _ h => ?_
  obtain rfl : _ = Raw.switchBase pc := h.trans (Raw.switchBase_eq pc).symm
  refine covers_readTarget.bind fun dflt _ hdflt => ?_
  obtain ⟨hdflt, hstop⟩ := hdflt
  subst hstop
  refine Covers.i4.bind fun low _ hlow => ?_
  obtain ⟨hlow, rfl⟩ := hlow
  refine Covers.i4.bind fun high _ hhigh => ?_
  obtain ⟨hhigh, rfl⟩ := hhigh
  have hcount : (high.toInt - low.toInt + 1).toNat = Raw.tableCases code pc := by
    rw [hlow, hhigh, Raw.tableCases]
  refine .ite (fun _ => .throw _) fun _ => ?_
  rw [hcount]
  refine (Covers.repeated_fixed (g := id) (fun _ _ => covers_readTarget) _).bind
    fun targets stop h => .pure ⟨?_, ?_⟩
  · rw [List.map_id] at h
    rw [Raw.branches_tableSwitch, ← hdflt, ← h.1]
    rfl
  · have hbase := Raw.switchBase_eq pc
    rw [h.2, Raw.operands_tableSwitch]
    omega

theorem covers_readLookupSwitch :
    Covers (readLookupSwitch pc) code (pc + 1) (Raw.Spells code pc .lookupSwitch) := by
  refine (Covers.skip _).bind fun _ _ h => ?_
  obtain rfl : _ = Raw.switchBase pc := h.trans (Raw.switchBase_eq pc).symm
  refine covers_readTarget.bind fun dflt _ hdflt => ?_
  obtain ⟨hdflt, hstop⟩ := hdflt
  subst hstop
  refine Covers.i4.bind fun count _ hcount => ?_
  obtain ⟨hcount, rfl⟩ := hcount
  have hcount : count.toInt.toNat = Raw.lookupCases code pc := by rw [hcount, Raw.lookupCases]
  refine .ite (fun _ => .throw _) fun _ => ?_
  rw [hcount]
  refine (Covers.repeated_fixed (g := Prod.snd) (w := 8)
    (f := fun k => (pc : Int) + signedAt code 4 (k + 4)) (fun _ pos => ?_) _).bind
      fun cases stop h => .pure ⟨?_, ?_⟩
  · refine Covers.i4.bind fun key _ hkey => ?_
    obtain ⟨-, rfl⟩ := hkey
    exact covers_readTarget.bind fun l stop hl => .pure ⟨hl.1, hl.2⟩
  · rw [Raw.branches_lookupSwitch, ← hdflt, ← h.1]
    rfl
  · have hbase := Raw.switchBase_eq pc
    rw [h.2, Raw.operands_lookupSwitch]
    omega

/-- The families of opcodes have operands of one shape. -/
theorem shape_of_family (h : op.isValid = true) :
    ((op.isIndexedLocal || op = .ret) = true →
      op.shape = .slot ∧ (op.isCompactLoad || op.isCompactStore) = false) ∧
      (op.isFieldAccess = true → op.shape = .field) ∧
      (op.isMemberCall = true → op.shape = .method) ∧ (op.takesClass = true → op.shape = .type) :=
  Opcode.forall_listed
    (P := fun op => ((op.isIndexedLocal || op = .ret) = true →
      op.shape = .slot ∧ (op.isCompactLoad || op.isCompactStore) = false) ∧
      (op.isFieldAccess = true → op.shape = .field) ∧
      (op.isMemberCall = true → op.shape = .method) ∧ (op.takesClass = true → op.shape = .type))
    (by decide +kernel) (Opcode.listed_of_isValid h)

theorem covers_readCall (h : op.isMemberCall = true) :
    Covers (readCall p op) code (pc + 1) (Raw.Spells code pc op) := by
  have hshape : op.shape = .method :=
    (shape_of_family (@readOperands_call p 0 op h).1).2.2.1 h
  have hlast : ∀ (index : UInt16) (stop : Nat), stop = pc + 1 + Raw.operands code pc op →
      Covers (do
        let m ← p.member index
        return (⟨op, .method m.owner m.name m.desc (m.tag = Tag.interfaceMethodRef)⟩ : Insn))
        code stop (Raw.Spells code pc op) := fun index stop hstop =>
    .lookup fun m _ => .pure (.of_shape rfl hshape (by decide) rfl hstop)
  refine Covers.u2.bind fun index _ hindex => ?_
  obtain ⟨-, -, rfl⟩ := hindex
  have hoperands : Raw.operands code pc op = if op = .invokeInterface then 4 else 2 := by
    rw [Raw.operands, hshape]
  split
  · next hop =>
    refine (Covers.skip 2).bind fun _ stop hstop => hlast index stop ?_
    rw [hstop, hoperands, if_pos hop]
  · next hop =>
    refine hlast index _ ?_
    rw [hoperands, if_neg hop]

theorem covers_readDynamicCall :
    Covers (readDynamicCall p) code (pc + 1) (Raw.Spells code pc .invokeDynamic) := by
  refine Covers.u2.bind fun index _ hindex => ?_
  obtain ⟨-, -, rfl⟩ := hindex
  refine (Covers.skip 2).bind fun _ stop hskip => .lookup fun c _ => .lookup fun nd _ => .pure ?_
  exact .of_shape rfl rfl (by decide) (n := 4) rfl hskip

/-- An instruction ends where its bytes end, and its labels are the offsets that it branches to,
whatever its opcode is. -/
theorem covers_readOperands :
    Covers (readOperands p pc op) code (pc + 1) (Raw.Spells code pc op) := by
  -- the cases of the reader one after the other: in each, the shape of its opcodes tells the width
  refine .ite (fun _ => .throw _) fun hvalid => ?_
  have hvalid : op.isValid = true := by simpa using hvalid
  obtain ⟨hindexed, hfield, -, htype⟩ := shape_of_family hvalid
  refine .ite (fun h => h ▸ covers_readWide) fun hwide => ?_
  refine .ite (fun h => Covers.i1.bind fun n stop hn => .pure ?_) fun h₁ => ?_
  · subst h
    exact .of_shape rfl rfl (by decide) (n := 1) rfl hn.2
  refine .ite (fun h => Covers.i2.bind fun n stop hn => .pure ?_) fun h₂ => ?_
  · subst h
    exact .of_shape rfl rfl (by decide) (n := 2) rfl hn.2
  refine .ite (fun h => Covers.u1.bind fun n stop hn => .pure ?_) fun h₃ => ?_
  · subst h
    exact .of_shape rfl rfl (by decide) (n := 1) rfl hn.2.2
  refine .ite (fun h => Covers.u1.bind fun n stop hn => .lookup fun v _ =>
    .pure ?_) fun h₄ => ?_
  · subst h
    exact .of_shape rfl rfl (by decide) (n := 1) rfl hn.2.2
  refine .ite (fun h => Covers.u2.bind fun n stop hn => .lookup fun v _ =>
    .pure ?_) fun h₅ => ?_
  · rw [Bool.or_eq_true, decide_eq_true_eq, decide_eq_true_eq] at h
    rcases h with rfl | rfl
    · exact .of_shape rfl rfl (by decide) (n := 2) rfl hn.2.2
    · exact .of_shape rfl rfl (by decide) (n := 2) rfl hn.2.2
  refine .ite (fun h => Covers.u1.bind fun n stop hn => .pure ?_) fun h₆ => ?_
  · obtain ⟨hshape, hcompact⟩ := hindexed h
    refine .of_shape rfl hshape (by decide) ?_ hn.2.2
    rw [Raw.operands, hshape, hcompact]
    rfl
  refine .ite (fun h => .pure ?_) fun h₇ => ?_
  · have hshape := Opcode.shape_of_compact (.inl h)
    refine .of_shape rfl hshape (by decide) (n := 0) ?_ rfl
    rw [Raw.operands, hshape, h]
    rfl
  refine .ite (fun h => .pure ?_) fun h₈ => ?_
  · have hshape := Opcode.shape_of_compact (.inr h)
    refine .of_shape rfl hshape (by decide) (n := 0) ?_ rfl
    rw [Raw.operands, hshape, h, Bool.or_true]
    rfl
  refine .ite (fun h => Covers.u1.bind fun k stop hk => Covers.i1.bind fun d _ hd => .pure ?_)
    fun h₉ => ?_
  · obtain ⟨-, -, rfl⟩ := hk
    subst h
    exact .of_shape rfl rfl (by decide) (n := 2) rfl hd.2
  refine .ite (fun h => covers_readTarget.bind fun l stop hl => .pure ?_) fun h₁₀ => ?_
  · subst h
    refine ⟨?_, hl.2⟩
    rw [hl.1]
    rfl
  refine .ite (fun h => covers_readTarget.bind fun l stop hl => .pure ?_) fun h₁₁ => ?_
  · subst h
    refine ⟨?_, hl.2⟩
    rw [hl.1]
    rfl
  refine .ite (fun h => Covers.i2.bind fun n stop hn => .pure ?_) fun h₁₂ => ?_
  · have hshape := Opcode.shape_eq_jump_iff.mpr h
    have hnear : (op = .gotoW || op = .jsrW) = false := by simp [h₁₀, h₁₁]
    constructor
    · rw [Raw.branches, hshape]
      dsimp only
      rw [hnear, if_neg Bool.false_ne_true, ← hn.1]
      rfl
    · rw [Raw.operands, hshape]
      dsimp only
      rw [hnear, if_neg Bool.false_ne_true, hn.2]
  refine .ite (fun h => h ▸ covers_readTableSwitch) fun h₁₃ => ?_
  refine .ite (fun h => h ▸ covers_readLookupSwitch) fun h₁₄ => ?_
  refine .ite (fun h => Covers.u2.bind fun k stop hk => .lookup fun m _ =>
    .pure ?_) fun h₁₅ => ?_
  · refine .of_shape rfl (hfield h) (by decide) ?_ hk.2.2
    rw [Raw.operands, hfield h]
  refine .ite (fun h => covers_readCall h) fun h₁₆ => ?_
  refine .ite (fun h => h ▸ covers_readDynamicCall) fun h₁₇ => ?_
  refine .ite (fun h => Covers.u2.bind fun k stop hk => .lookup fun m _ =>
    .pure ?_) fun h₁₈ => ?_
  · refine .of_shape rfl (htype h) (by decide) ?_ hk.2.2
    rw [Raw.operands, htype h]
  refine .ite (fun h => Covers.u2.bind fun k mid hk => Covers.u1.bind fun d stop hd =>
    .lookup fun t _ => .pure ?_) fun h₁₉ => ?_
  · obtain ⟨-, -, rfl⟩ := hk
    subst h
    exact .of_shape rfl rfl (by decide) (n := 3) rfl hd.2.2
  -- no case is left, so nothing is read behind the opcode
  have hshape : op.shape = .plain := by
    simp only [Bool.or_eq_true, decide_eq_true_eq, not_or] at h₅ h₆
    simp only [Bool.not_eq_true] at h₅ h₆ h₇ h₈ h₁₂ h₁₅ h₁₆ h₁₈
    exact shape_of_unread hvalid ⟨h₁, h₂, h₃, h₄, h₅.1, h₅.2, h₆.1, h₆.2, h₇, h₈, h₉, h₁₀, h₁₁,
      h₁₂, h₁₃, h₁₄, h₁₅, h₁₆, h₁₇, h₁₈, h₁₉⟩
  refine .pure (.of_shape rfl hshape (by decide) (n := 0) ?_ rfl)
  rw [Raw.operands, hshape]
  exact if_neg hwide

/-- The instruction is what is read at an offset, from bytes that are all there, and its labels are
the offsets that it branches to. -/
structure Raw.ReadAt (p : Pool) (code : List UInt8) (pc : Nat) (i : Insn) : Prop where
  read : ∃ c, readInsn p ⟨code, pc, code.drop pc⟩ = .ok ((pc, i), c)
  labels : i.labels = Raw.targets code pc
  complete : pc + Raw.width code pc ≤ code.length

theorem covers_readInsn : Covers (readInsn p) code pc fun e stop =>
    e.1 = pc ∧ Raw.ReadAt p code pc e.2 ∧ stop = pc + Raw.width code pc := by
  have hshape : Covers (readInsn p) code pc fun e stop =>
      e.1 = pc ∧ e.2.labels = Raw.targets code pc ∧ stop = pc + Raw.width code pc := by
    refine .here (Covers.u1.bind fun b _ hb => ?_)
    obtain ⟨-, hb, rfl⟩ := hb
    rw [hb]
    refine (covers_readOperands.under _).bind fun i stop hi => .pure ⟨rfl, hi.labels, ?_⟩
    rw [hi.stop, Raw.width, ← Nat.add_assoc]
    rfl
  intro hpos e c h
  obtain ⟨stop, hle, hc, hpc, hlabels, rfl⟩ := hshape hpos e c h
  exact ⟨_, hle, hc, hpc, ⟨⟨c, by rw [h, ← hpc]⟩, hlabels, hle⟩, rfl⟩

/-- Instructions are read at the starts that the bytes tell, up to the end of the code. -/
theorem covers_readInsns {fuel : Nat} {seen : Array (Nat × Insn)}
    (hfuel : code.length < fuel + pos) : Covers (readInsns p fuel seen) code pos fun es _ =>
      ∃ new, es = seen.toList ++ new ∧ List.Forall₂
        (fun pc e => e.1 = pc ∧ Raw.ReadAt p code pc e.2) (Raw.startsFrom code pos) new := by
  have hend : ∀ {seen : Array (Nat × Insn)} {pos : Nat}, code.length ≤ pos →
      Covers (pure seen.toList) code pos fun es _ => ∃ new, es = seen.toList ++ new ∧ List.Forall₂
        (fun pc e => e.1 = pc ∧ Raw.ReadAt p code pc e.2) (Raw.startsFrom code pos) new := by
    intro seen pos h
    refine .pure ⟨[], (List.append_nil _).symm, ?_⟩
    rw [Raw.startsFrom, if_neg (Nat.not_lt.mpr h)]
    exact .nil
  -- there is more fuel than bytes that are left, since every instruction takes some
  induction fuel generalizing seen pos with
  | zero => exact hend (by omega)
  | succ fuel ih =>
    refine .here (.ite (fun h => hend ?_) fun h => ?_)
    · exact List.drop_eq_nil_iff.mp (List.isEmpty_iff.mp h)
    · have hlt : pos < code.length := by
        by_contra hge
        exact h (List.isEmpty_iff.mpr (List.drop_eq_nil_iff.mpr (Nat.not_lt.mp hge)))
      refine covers_readInsn.bind fun e stop he => ?_
      have hstop : stop = pos + (1 + Raw.operands code pos (Raw.opcode code pos)) := he.2.2
      refine (ih (by omega)).imp fun es _ h => ?_
      obtain ⟨new, rfl, hnew⟩ := h
      refine ⟨e :: new, by rw [Array.toList_push, List.append_assoc]; rfl, ?_⟩
      rw [Raw.startsFrom, if_pos hlt, ← he.2.2]
      exact .cons ⟨he.1, he.2.1⟩ hnew

/-! ### Tables that are read -/

section Tables

variable {data : List UInt8} {n : Nat}

theorem covers_readHandler : Covers (readHandler p n) data pos fun i stop =>
    i.labels = Raw.handlerAt data pos ∧ stop = pos + 8 := by
  have hwords : Covers (do return (← Read.u2, ← Read.u2, ← Read.u2, ← Read.u2) :
      Read (UInt16 × UInt16 × UInt16 × UInt16)) data pos fun r stop =>
        [(r.1.toNat : Int), (r.2.1.toNat : Int), (r.2.2.1.toNat : Int)] =
          Raw.handlerAt data pos ∧ stop = pos + 8 := by
    refine Covers.u2.bind fun start _ hstart => ?_
    obtain ⟨-, hstart, rfl⟩ := hstart
    refine Covers.u2.bind fun stop _ hstop => ?_
    obtain ⟨-, hstop, rfl⟩ := hstop
    refine Covers.u2.bind fun handler _ hhandler => ?_
    obtain ⟨-, hhandler, rfl⟩ := hhandler
    refine Covers.u2.bind fun index _ hindex => .pure ⟨?_, hindex.2.2⟩
    rw [Raw.handlerAt, ← hstart, ← hstop, ← hhandler]
  refine (hwords.under _).bind fun r stop hr => ?_
  have hlast : ∀ caught : Text, Covers (pure ⟨.tryCatch, .tryCatch r.1.toNat r.2.1.toNat
      r.2.2.1.toNat caught⟩ : Read Insn) data stop fun i stop =>
        i.labels = Raw.handlerAt data pos ∧ stop = pos + 8 := fun caught => .pure hr
  refine .ite (fun _ => (Covers.pure (Q := fun _ end_ => end_ = stop) rfl).bind ?_) fun _ =>
    (Covers.under (Covers.lift (Q := fun _ end_ => end_ = stop) fun _ _ => rfl) _).bind ?_
  all_goals
    rintro caught _ rfl
    exact hlast caught

theorem covers_readLines : Covers readLines data 0 fun es _ => es = Raw.lineTable data := by
  refine Covers.u2.bind fun count _ hcount => ?_
  obtain ⟨-, hcount, rfl⟩ := hcount
  rw [hcount]
  refine (Covers.repeated_fixed (g := id) (w := 4) (f := fun k =>
    (numberAt data 2 k, (numberAt data 2 (k + 2)).toUInt16)) (fun _ pos => ?_) _).imp
      fun es _ h => ?_
  · refine Covers.u2.bind fun at_ _ hat => ?_
    obtain ⟨-, hat, rfl⟩ := hat
    refine Covers.u2.bind fun line _ hline => .pure ⟨?_, hline.2.2⟩
    rw [hat, hline.1]
    rfl
  · rw [← List.map_id es, h.1]
    rfl

theorem covers_readLocals : Covers (readLocals p) data 0 fun is _ =>
    is.map Insn.labels = Raw.localTable data := by
  refine Covers.u2.bind fun count _ hcount => ?_
  obtain ⟨-, hcount, rfl⟩ := hcount
  rw [hcount]
  refine (Covers.repeated_fixed (w := 10) (f := Raw.localAt data) (fun _ pos => ?_) _).imp
    fun is _ h => h.1
  refine Covers.u2.bind fun start _ hstart => ?_
  obtain ⟨-, hstart, rfl⟩ := hstart
  refine Covers.u2.bind fun length _ hlength => ?_
  obtain ⟨-, hlength, rfl⟩ := hlength
  refine Covers.u2.bind fun _ _ h => ?_
  obtain ⟨-, -, rfl⟩ := h
  refine Covers.u2.bind fun _ _ h => ?_
  obtain ⟨-, -, rfl⟩ := h
  refine Covers.u2.bind fun index _ hindex => .lookup fun name _ => .lookup fun desc _ =>
    .pure ⟨?_, hindex.2.2⟩
  rw [Raw.localAt, ← hstart, ← hlength]
  rfl

/-- The name of the attribute stands at a place of the pool, and its data is that of the bytes. -/
def Raw.IsAttribute (p : Pool) (a : Attribute) (r : UInt16 × List UInt8) : Prop :=
  p.textAt r.1 = .ok a.name ∧ a.data = r.2

theorem covers_readAttributes : Covers (readAttributes p) data pos fun as _ =>
    List.Forall₂ (Raw.IsAttribute p) as
      (Raw.attributesFrom data (numberAt data 2 pos) (pos + 2)) := by
  refine Covers.u2.bind fun count _ hcount => ?_
  obtain ⟨-, hcount, rfl⟩ := hcount
  rw [hcount]
  refine Covers.repeated (S := fun left pos as _ =>
    List.Forall₂ (Raw.IsAttribute p) as (Raw.attributesFrom data left pos)) (fun _ => .nil)
      (fun n left pos => ?_) _
  refine Covers.u2.bind fun index _ hindex => ?_
  obtain ⟨hindex, -, rfl⟩ := hindex
  refine (Covers.under (Covers.lift (Q := fun name stop => p.textAt index = .ok name ∧
    stop = pos + 2) fun _ hname => ⟨hname, rfl⟩) _).bind fun name _ hname => ?_
  obtain ⟨hname, rfl⟩ := hname
  refine Covers.u4.bind fun size _ hsize => ?_
  obtain ⟨hsize, rfl⟩ := hsize
  refine ((Covers.bytes _).under _).bind fun bs mid hbs => .pure fun as stop has => ?_
  rw [hbs.2, hsize] at has
  refine .cons ⟨hindex ▸ hname, ?_⟩ has
  change bs = _
  rw [hbs.1, hsize]

/-- The tables hold what the bytes of the attributes encode. -/
structure Raw.Holds (p : Pool) (t : Tables) (rs : List (UInt16 × List UInt8)) : Prop where
  lines : t.lines.toList = (Raw.named p Attribute.lineNumbers rs).flatMap Raw.lineTable
  locals : t.locals.toList.map Insn.labels =
    (Raw.named p Attribute.localVariables rs).flatMap Raw.localTable
  offsets : ∀ o ∈ t.offsets, (∃ e ∈ t.lines, o = (e.1 : Label)) ∨ ∃ i ∈ t.locals, o ∈ i.labels

theorem Raw.named_concat (name : Text) {a : Attribute} {r : UInt16 × List UInt8}
    (ha : Raw.IsAttribute p a r) (rs : List (UInt16 × List UInt8)) :
    Raw.named p name (rs ++ [r]) =
      Raw.named p name rs ++ if a.name = name then [a.data] else [] := by
  have hname : (p.textAt r.1).toOption = some a.name := by
    rw [ha.1]
    rfl
  rw [Raw.named, List.filter_append, List.map_append, ← Raw.named, List.filter_singleton, hname,
    ha.2]
  by_cases h : a.name = name
  · rw [if_pos h, decide_eq_true (congrArg some h)]
    rfl
  · rw [if_neg h, decide_eq_false fun heq => h (Option.some.inj heq)]
    rfl

theorem Raw.Holds.add {t t' : Tables} {rs : List (UInt16 × List UInt8)} {a : Attribute}
    {r : UInt16 × List UInt8} (ht : Raw.Holds p t rs) (ha : Raw.IsAttribute p a r)
    (h : t.add p a = .ok t') : Raw.Holds p t' (rs ++ [r]) := by
  have hne : Attribute.localVariables ≠ Attribute.lineNumbers := by decide
  have hskip : ∀ {α : Type} (f : List UInt8 → List α) {name : Text}, a.name ≠ name →
      (Raw.named p name (rs ++ [r])).flatMap f = (Raw.named p name rs).flatMap f := by
    intro α f name h
    rw [Raw.named_concat _ ha, if_neg h, List.append_nil]
  have htake : ∀ {α : Type} (f : List UInt8 → List α) {name : Text}, a.name = name →
      (Raw.named p name (rs ++ [r])).flatMap f = (Raw.named p name rs).flatMap f ++ f a.data := by
    intro α f name h
    rw [Raw.named_concat _ ha, if_pos h, List.flatMap_append, List.flatMap_singleton]
  unfold Tables.add at h
  dsimp only at h
  split at h
  · -- line numbers: the locals stay
    next hname =>
    obtain ⟨lines, hlines, h⟩ := Except.bind_eq_ok_iff.mp h
    obtain rfl := Except.ok.inj h
    have hlines := (covers_readLines.under _).run hlines
    refine ⟨?_, ?_, fun o ho => ?_⟩
    · rw [htake _ hname, Array.toList_appendList, ht.lines, hlines]
    · rw [hskip _ (hname ▸ hne.symm), ht.locals]
    · rcases mem_appendList.mp ho with ho | ho
      · exact (ht.offsets o ho).imp_left fun ⟨e, he, heq⟩ => ⟨e, mem_appendList.mpr (.inl he), heq⟩
      · obtain ⟨e, he, rfl⟩ := List.mem_map.mp ho
        exact .inl ⟨e, mem_appendList.mpr (.inr he), rfl⟩
  · next hlines =>
    split at h
    · -- local variables: the lines stay
      next hname =>
      obtain ⟨locals, hlocals, h⟩ := Except.bind_eq_ok_iff.mp h
      obtain rfl := Except.ok.inj h
      have hlocals := (covers_readLocals.under _).run hlocals
      refine ⟨?_, ?_, fun o ho => ?_⟩
      · rw [hskip _ hlines, ht.lines]
      · rw [htake _ hname, Array.toList_appendList, List.map_append, ht.locals, hlocals]
      · rcases mem_appendList.mp ho with ho | ho
        · exact (ht.offsets o ho).imp_right fun ⟨i, hi, hmem⟩ =>
            ⟨i, mem_appendList.mpr (.inl hi), hmem⟩
        · obtain ⟨i, hi, hmem⟩ := List.mem_flatMap.mp ho
          exact .inr ⟨i, mem_appendList.mpr (.inr hi), hmem⟩
    · -- neither table reads any other attribute
      next hlocals =>
      obtain rfl := Except.ok.inj h
      refine ⟨?_, ?_, ht.offsets⟩
      · rw [hskip _ hlines, ht.lines]
      · rw [hskip _ hlocals, ht.locals]

/-- Attributes are interpreted one after the other. -/
theorem Raw.Holds.foldlM {t t' : Tables} {rs rs' : List (UInt16 × List UInt8)}
    {as : List Attribute} (ht : Raw.Holds p t rs) (has : List.Forall₂ (Raw.IsAttribute p) as rs')
    (h : as.foldlM (Tables.add p) t = .ok t') : Raw.Holds p t' (rs ++ rs') := by
  induction has generalizing t rs with
  | nil =>
    obtain rfl := Except.ok.inj h
    rwa [List.append_nil]
  | @cons a r as rs' ha _ ih =>
    rw [List.foldlM_cons] at h
    obtain ⟨t₁, ht₁, h⟩ := Except.bind_eq_ok_iff.mp h
    have hrest := ih (ht.add ha ht₁) h
    rwa [List.append_assoc] at hrest

end Tables

end Code

/-! ### Code attributes that are read -/

namespace Code

variable {p : Pool} {data : List UInt8}

/-- The body was read from the bytes of a code attribute. -/
structure Raw.Found (p : Pool) (data : List UInt8) (b : Body) : Prop where
  size : b.size = (Raw.code data).length
  insns : List.Forall₂ (fun pc e => e.1 = pc ∧ Raw.ReadAt p (Raw.code data) pc e.2)
    (Raw.starts (Raw.code data)) b.insns
  handlers : b.handlers.map Insn.labels = Raw.handlers data
  tables : Raw.Holds p b.tables (Raw.attributes data)

/-- A method whose code was read has the listing of the body that the bytes tell. -/
theorem exists_found {m m' : Method}
    (h : (readInto p m).run data = .ok m') :
    ∃ b l, Raw.Found p data b ∧ b.Sound p ∧ b.listing = .ok l ∧ m'.code = some l := by
  refine Covers.run (T := fun m' => ∃ b l, Raw.Found p data b ∧ b.Sound p ∧ b.listing = .ok l ∧
    m'.code = some l) ?_ h
  -- each part of the attribute is told by the bytes that it is read from
  refine Covers.u2.bind fun maxStack _ hstack => ?_
  obtain ⟨-, -, rfl⟩ := hstack
  refine Covers.u2.bind fun maxLocals _ hmax => ?_
  obtain ⟨-, -, rfl⟩ := hmax
  refine Covers.u4.bind fun size _ hsize => ?_
  obtain ⟨hsize, rfl⟩ := hsize
  refine ((Covers.bytes _).under _).bind fun code _ hcode => ?_
  obtain ⟨hcode, rfl⟩ := hcode
  rw [hsize] at hcode ⊢
  obtain rfl : code = Raw.code data := hcode
  refine .lookup fun insns hinsns => ?_
  obtain ⟨new, rfl, hread⟩ := (covers_readInsns (Nat.lt_succ_self _)).run hinsns
  refine Covers.u2.bind fun count _ hcount => ?_
  obtain ⟨-, hcount, rfl⟩ := hcount
  rw [hcount]
  refine ((Covers.repeated_fixed (fun _ _ => covers_readHandler) _).and
    (Yields.repeated yields_readHandler _)).bind fun handlers _ hhandlers => ?_
  obtain ⟨⟨hlabels, rfl⟩, hhandlers⟩ := hhandlers
  refine covers_readAttributes.bind fun attributes _ hattributes => ?_
  refine .lookup fun tables htables => .lookup fun l hl => .pure
    ⟨⟨(Raw.code data).length, insns, handlers, tables⟩, l, ⟨rfl, hread, hlabels, ?_⟩,
      ⟨sequential_of_run hinsns, hhandlers, ?_⟩, hl, rfl⟩
  · -- the tables are those of the attributes of the code, one after the other
    have hempty : Raw.Holds p {} [] := ⟨rfl, rfl, fun o ho => absurd ho (Array.not_mem_empty o)⟩
    exact hempty.foldlM hattributes htables
  · refine foldlM_keeps (fun t a _ t' => Tables.Kept.add) ?_ htables
    constructor
    all_goals
      intro x hx
      exact absurd hx (Array.not_mem_empty x)

namespace Raw.Found

variable {b : Body}

theorem starts_eq (h : Found p data b) : starts (code data) = b.insns.map Prod.fst := by
  rw [← @List.forall₂_eq_eq_eq Nat]
  exact List.forall₂_map_right_iff.mpr (h.insns.imp fun pc e he => he.1.symm)

theorem readAt (h : Found p data b) : ∀ e ∈ b.insns, ReadAt p (code data) e.1 e.2 := by
  have hinsns := h.insns
  rw [h.starts_eq, List.forall₂_map_left_iff, List.forall₂_same] at hinsns
  exact fun e he => (hinsns e he).2

theorem labels_eq (h : Found p data b) :
    (starts (code data)).map (targets (code data)) = b.insns.map fun e => e.2.labels := by
  rw [h.starts_eq, List.map_map]
  exact List.map_congr_left fun e he => (h.readAt e he).labels.symm

/-- The offsets that the labels of the body stand for are those that the bytes name. -/
theorem mem_offsets (h : Found p data b) (hs : b.Sound p) {o : Label} :
    o ∈ b.offsets ↔ o ∈ offsets p data := by
  have hinsns : o ∈ b.insns.flatMap (fun e => offsetsOf e.2) ↔
      o ∈ (starts (code data)).flatMap (targets (code data)) := by
    rw [List.flatMap_def (f := targets (code data)), h.labels_eq, ← List.flatMap_def]
    simp only [List.mem_flatMap, Body.mem_offsetsOf]
  have hhandlers : o ∈ b.handlers.flatMap Insn.labels ↔ o ∈ (Raw.handlers data).flatten := by
    rw [List.flatMap_def, h.handlers]
  have htables : o ∈ b.tables.offsets ↔
      o ∈ (lines p data).map (fun e => (e.1 : Int)) ∨ o ∈ (locals p data).flatten := by
    rw [lines, locals, ← h.tables.lines, ← h.tables.locals, ← List.flatMap_def]
    constructor
    · intro ho
      refine (h.tables.offsets o ho).imp (fun ⟨e, he, heq⟩ => ?_) fun ⟨i, hi, ho⟩ => ?_
      · exact List.mem_map.mpr ⟨e, Array.mem_toList_iff.mpr he, heq.symm⟩
      · exact List.mem_flatMap.mpr ⟨i, Array.mem_toList_iff.mpr hi, ho⟩
    · rintro (ho | ho)
      · obtain ⟨e, he, rfl⟩ := List.mem_map.mp ho
        exact hs.tables.lines e (Array.mem_toList_iff.mp he)
      · obtain ⟨i, hi, ho⟩ := List.mem_flatMap.mp ho
        exact (hs.tables.locals i (Array.mem_toList_iff.mp hi)).2 o ho
  simp only [Body.offsets, offsets, List.mem_append, Array.mem_toList_iff, hinsns, hhandlers,
    htables, or_assoc]

end Raw.Found

end Code

end ClassWeaver
