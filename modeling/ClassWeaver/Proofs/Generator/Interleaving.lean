import ClassWeaver.Proofs.Generator.Failures

/-!
# The woven listing, written out

What weaving makes of a body is told here without the functions that emit it: opcodes are numbers,
a state is pushed by whatever instruction has it for its constant (`Insn.constant?`), and what
stands behind an instruction of the body is one of the cases of `Splice`. The woven listing is the
head, and then every instruction of the body with its splice behind it
(`Generator.insns_of_build`).
-/

namespace ClassWeaver

/-! ### Instructions by their numbers -/

/-- The integer that an instruction pushes, if it is always the same and the operand has room for
it. -/
def Insn.constant? (i : Insn) : Option Int32 :=
  match i.operand with
  | .none => if i.opcode.within 0x02 0x08 then some (Int32.ofInt (i.opcode.code - 3)) else none
  | .int v =>
    if i.opcode = .bipush ∧ -128 ≤ v ∧ v ≤ 127 ∨ i.opcode = .sipush ∧ -32768 ≤ v ∧ v ≤ 32767 then
      some v
    else none
  | .constant (.int v) => if i.opcode = .ldc then some v else none
  | _ => none

namespace Slot

/-- `iconst_0`, `lconst_0`, `fconst_0`, `dconst_0` or `aconst_null`. -/
def zeroOpcode (s : Slot) : Opcode :=
  match Family.ofDescriptor s.desc with
  | .int => ⟨0x03⟩
  | .long => ⟨0x09⟩
  | .float => ⟨0x0B⟩
  | .double => ⟨0x0E⟩
  | .reference => ⟨0x01⟩

/-- `iload`, `lload`, `fload`, `dload` or `aload`. -/
def loadOpcode (s : Slot) : Opcode :=
  match Family.ofDescriptor s.desc with
  | .int => ⟨0x15⟩
  | .long => ⟨0x16⟩
  | .float => ⟨0x17⟩
  | .double => ⟨0x18⟩
  | .reference => ⟨0x19⟩

/-- `istore`, `lstore`, `fstore`, `dstore` or `astore`. -/
def storeOpcode (s : Slot) : Opcode :=
  match Family.ofDescriptor s.desc with
  | .int => ⟨0x36⟩
  | .long => ⟨0x37⟩
  | .float => ⟨0x38⟩
  | .double => ⟨0x39⟩
  | .reference => ⟨0x3A⟩

theorem load_eq (s : Slot) : s.load = s.loadOpcode := by
  unfold load loadOpcode Descriptor.loadOpcode
  cases Family.ofDescriptor s.desc <;> rfl

theorem store_eq (s : Slot) : s.store = s.storeOpcode := by
  unfold store storeOpcode Descriptor.storeOpcode
  cases Family.ofDescriptor s.desc <;> rfl

end Slot

namespace Generator

theorem zero_eq (s : Slot) : zero (.ofDescriptor s.desc) = .plain s.zeroOpcode := by
  unfold Slot.zeroOpcode
  cases Family.ofDescriptor s.desc <;> rfl

theorem save_eq (g : Generator) (s : Slot) :
    g.save s = [.load ⟨0x19⟩ 0, .load s.loadOpcode s.index,
      .access ⟨0xB5⟩ g.owner s.name s.desc] := by
  rw [save, s.load_eq]
  rfl

theorem restore_eq (g : Generator) (s : Slot) :
    g.restore s = [.load ⟨0x19⟩ 0, .access ⟨0xB4⟩ g.owner s.name s.desc,
      .load s.storeOpcode s.index] := by
  rw [restore, s.store_eq]
  rfl

theorem clear_eq (s : Slot) : clear s = [.plain s.zeroOpcode, .load s.storeOpcode s.index] := by
  rw [clear, zero_eq, s.store_eq]

theorem constant?_push (v : Int32) : (push v).constant? = some v := by
  unfold push
  split
  · next hsmall =>
    simp only [Bool.and_eq_true, decide_eq_true_eq, Int32.le_iff_toInt_le] at hsmall
    have hlow : (2 : Int) ≤ 3 + v.toInt := by
      have h : -1 ≤ v.toInt := hsmall.1
      omega
    have hhigh : 3 + v.toInt ≤ (8 : Int) := by
      have h : v.toInt ≤ 5 := hsmall.2
      omega
    have hwithin : (⟨Opcode.iconst0.code + v.toInt⟩ : Opcode).within 0x02 0x08 = true := by
      simp [Opcode.within, Opcode.iconst0, hlow, hhigh]
    have hvalue : Opcode.iconst0.code + v.toInt - 3 = v.toInt := by
      change 3 + v.toInt - 3 = v.toInt
      omega
    simp only [Insn.constant?, Insn.plain, hwithin, if_true, hvalue, Int32.ofInt_toInt]
  · split
    · next hbyte =>
      have h : -128 ≤ v ∧ v ≤ 127 := by simpa using hbyte
      simp [Insn.constant?, h]
    · split
      · next hshort =>
        have h : -32768 ≤ v ∧ v ≤ 32767 := by simpa using hshort
        simp [Insn.constant?, h]
      · rfl

/-! ### What stands behind an instruction -/

/-- What may stand behind an instruction of the body, which control reaches or not: `id` is the
state to resume in behind a yield call, and `targets` are the labels of the states from 1 on. -/
inductive Splice (settings : Settings) (owner name : Text) (slots : List Slot)
    (targets : List Label) (id : Nat) (reached : Prop) (i : Insn) : List Insn → Prop
  | unreached : ¬reached → Splice settings owner name slots targets id reached i []
  | plain : settings.yieldSite.isCall i = false → settings.breakSite.isCall i = false →
      Splice settings owner name slots targets id reached i []
  /-- A break call: `iconst_0`, `ireturn`. -/
  | breaks : reached → settings.yieldSite.isCall i = false → settings.breakSite.isCall i = true →
      Splice settings owner name slots targets id reached i [.plain ⟨0x03⟩, .plain ⟨0xAC⟩]
  /-- A yield call: every slot goes into its field, the state is stored, `iconst_1` and `ireturn`
  follow, and behind the label that the switch has for the state every slot comes back. -/
  | yields {push : Insn} {resume : Label} : reached → settings.yieldSite.isCall i = true →
      push.constant? = some (Int32.ofNat id) → targets[id - 1]? = some resume →
      Splice settings owner name slots targets id reached i
        (slots.flatMap (fun s => [.load ⟨0x19⟩ 0, .load s.loadOpcode s.index,
            .access ⟨0xB5⟩ owner s.name s.desc]) ++
          [.load ⟨0x19⟩ 0, push, .access ⟨0xB5⟩ owner (settings.stateFieldName name) "I",
            .plain ⟨0x04⟩, .plain ⟨0xAC⟩, .place resume] ++
          slots.flatMap (fun s => [.load ⟨0x19⟩ 0, .access ⟨0xB4⟩ owner s.name s.desc,
            .load s.storeOpcode s.index]))

section Interleaving

variable {settings : Settings} {owner name desc method methodDesc : Text} {g : Generator}
variable {body woven : Listing} {H : Heights} {states : States} {slots : List Slot}
variable {left count id k : Nat} {r : Ref} {i : Insn} {resumes : List Ref}

/-- The splice of each node stands behind its instruction. -/
theorem exists_splices (g : Generator) (slots : List Slot) {rs : List Ref}
    (hrs : ∀ r ∈ rs, ∃ i, body.insn? r = some i) (left : Nat) :
    ∃ splices, splices.length = rs.length ∧
      g.wovenNodes body H slots left rs =
        (List.zipWith List.cons (rs.filterMap body.insn?) splices).flatten ∧
      ∀ k r, rs[k]? = some r → splices[k]? = some
        (g.spliceAt body H slots (left - (rs.take k).countP (g.suspendsAt body H)) r) := by
  induction rs generalizing left with
  | nil => exact ⟨[], rfl, rfl, nofun⟩
  | cons r rs ih =>
    rw [List.forall_mem_cons] at hrs
    obtain ⟨⟨i, hi⟩, hrs⟩ := hrs
    obtain ⟨splices, hlen, heq, hat⟩ :=
      ih hrs (if g.suspendsAt body H r then left - 1 else left)
    refine ⟨g.spliceAt body H slots left r :: splices, by simp [hlen], ?_, fun k t ht => ?_⟩
    · rw [wovenNodes, heq, hi, List.filterMap_cons_some hi, List.zipWith_cons_cons,
        List.flatten_cons]
      rfl
    · cases k with
      | zero =>
        obtain rfl := Option.some.inj ht
        rfl
      | succ k =>
        rw [List.getElem?_cons_succ, hat k t ht, List.take_succ_cons, List.countP_cons]
        split
        · rw [Nat.sub_sub, Nat.add_comm 1]
        · rw [Nat.add_zero]

/-- What is spliced in behind a node is one of the cases. -/
theorem splice_spliceAt (g : Generator) (slots : List Slot) {reached : Prop}
    (hi : body.insn? r = some i) (hreached : (H.at? r).isSome = true ↔ reached)
    (hid : g.settings.yieldSite.isCall i = true → 1 ≤ id ∧ id ≤ count) :
    Splice g.settings g.owner g.name slots (resumeLabels body count) id reached i
      (g.spliceAt body H slots id r) := by
  cases hn : H.at? r with
  | none =>
    have hnot : ¬reached := fun h => by simpa [hn] using hreached.mpr h
    have hnil : g.spliceAt body H slots id r = [] := by simp [spliceAt, hn]
    exact hnil ▸ .unreached hnot
  | some n =>
    have hyes : reached := hreached.mp (by simp [hn])
    cases hyield : g.settings.yieldSite.isCall i with
    | true =>
      have hrole : g.role i = .yields := (g.role_eq_yields_iff i).mpr hyield
      obtain ⟨h1, hle⟩ := hid hyield
      have htarget : (resumeLabels body count)[id - 1]? = some (resumeLabel body id) := by
        have hlt : id - 1 < count := by omega
        simp [resumeLabels, hlt, Nat.sub_add_cancel h1]
      have hsuspension : g.spliceAt body H slots id r =
          g.suspension slots id (resumeLabel body id) := by simp [spliceAt, hn, hi, hrole]
      rw [hsuspension, suspension, funext (g.save_eq ·), funext (g.restore_eq ·)]
      exact .yields hyes hyield (constant?_push _) htarget
    | false =>
      cases hbreak : g.settings.breakSite.isCall i with
      | true =>
        have hrole : g.role i = .breaks := by simp [role, hyield, hbreak]
        have htermination : g.spliceAt body H slots id r = termination := by
          simp [spliceAt, hn, hi, hrole]
        exact htermination ▸ .breaks hyes hyield hbreak
      | false =>
        have hrole : g.role i = .plain := by simp [role, hyield, hbreak]
        have hnil : g.spliceAt body H slots id r = [] := by simp [spliceAt, hn, hi, hrole]
        exact hnil ▸ .plain hyield hbreak

/-- The entries among the first instructions, counted at their nodes. -/
theorem countP_take_filterMap {p : Insn → Bool} {rs : List Ref}
    (hrs : ∀ r ∈ rs, ∃ i, body.insn? r = some i) (k : Nat) :
    ((rs.filterMap body.insn?).take k).countP p =
      (rs.take k).countP fun r => (body.insn? r).any p := by
  induction rs generalizing k with
  | nil => simp
  | cons r rs ih =>
    rw [List.forall_mem_cons] at hrs
    obtain ⟨⟨i, hi⟩, hrs⟩ := hrs
    cases k with
    | zero => rfl
    | succ k =>
      rw [List.filterMap_cons_some hi, List.take_succ_cons, List.take_succ_cons, List.countP_cons,
        List.countP_cons, ih hrs, hi]
      rfl

/-- An entry that counts is not counted in front of itself. -/
theorem countP_take_lt {p : Insn → Bool} {is : List Insn} (hk : is[k]? = some i)
    (hi : p i = true) : (is.take k).countP p < is.countP p :=
  calc (is.take k).countP p < (is.take (k + 1)).countP p := by
        rw [List.take_add_one, hk, List.countP_append]
        simp [hi]
    _ ≤ is.countP p := (List.take_sublist (k + 1) is).countP_le

/-- If every yield call is reached, then as many are used up in front of a node as there are. -/
theorem countP_take_insns (g : Generator) (hrs : ∀ r ∈ body.refs, ∃ i, body.insn? r = some i)
    (hall : ∀ r ∈ body.refs, g.yieldsAt body r = true → H.at? r ≠ none) (k : Nat) :
    (body.insns.take k).countP g.settings.yieldSite.isCall =
      (body.refs.take k).countP (g.suspendsAt body H) := by
  rw [Listing.insns, countP_take_filterMap hrs]
  refine List.countP_congr fun r hr => ?_
  have hreached := hall r (List.mem_of_mem_take hr)
  obtain ⟨i, hi⟩ := hrs r (List.mem_of_mem_take hr)
  simp only [yieldsAt, hi, Option.any_some, decide_eq_true_eq, role_eq_yields_iff] at hreached
  simp only [suspendsAt, hi, Option.any_some, Bool.and_eq_true, decide_eq_true_eq,
    role_eq_yields_iff, Option.isSome_iff_ne_none]
  exact ⟨fun h => ⟨hreached h, h⟩, And.right⟩

/-- The head, written out. -/
theorem head_eq (g : Generator) (slots : List Slot) (start : Label) (targets : List Label) :
    g.head slots start targets =
      (slots.filter fun s => g.paramEnd ≤ s.index).flatMap
          (fun s => [.plain s.zeroOpcode, .load s.storeOpcode s.index]) ++
        (if targets.length = 0 then [] else
          [.load ⟨0x19⟩ 0, .access ⟨0xB4⟩ g.owner (g.settings.stateFieldName g.name) "I",
            ⟨⟨0xAA⟩, .tableSwitch 1 (Int32.ofNat targets.length) start targets⟩]) ++
        [.place start] := by
  rw [head, resumption, table_one, funext clear_eq]
  simp only [List.isEmpty_iff_length_eq_zero, UInt16.not_lt, ← decide_not]
  rfl

end Interleaving

/-- Yields twice in each round of a loop that counts the parameter down, and breaks in the end.
Behind the end there is another break call, which nothing reaches. -/
def pacing : Listing :=
  Listing.ofInsns 1 [.plain ⟨0x09⟩, .load ⟨0x37⟩ 2, .place 0, .load .aload 0,
    .call .invokeVirtual "Seq" "yieldReturn" "()V", ⟨.iinc, .increment 1 (-1)⟩, .load .aload 0,
    .call .invokeVirtual "Seq" "yieldReturn" "()V", .load .iload 1, .jump ⟨0x9A⟩ 0,
    .load .aload 0, .call .invokeVirtual "Seq" "yieldBreak" "()V", .plain .iconst0,
    .plain .ireturn, .load .aload 0, .call .invokeVirtual "Seq" "yieldBreak" "()V",
    .plain .iconst0, .plain .ireturn]

/-- What is made of it: the parameter and the long behind it are captured, and only the long is
cleared. -/
def pacingWoven : List Insn :=
  [.plain ⟨0x09⟩, .load ⟨0x37⟩ 2,
    .load .aload 0, .access .getField "Seq" "$state$next" "I",
    ⟨.tableSwitch, .tableSwitch 1 2 1 [2, 3]⟩, .place 1,
    -- the body as far as the first yield call
    .plain ⟨0x09⟩, .load ⟨0x37⟩ 2, .place 0, .load .aload 0,
    .call .invokeVirtual "Seq" "yieldReturn" "()V",
    .load .aload 0, .load .iload 1, .access .putField "Seq" "$slot$next$1" "I",
    .load .aload 0, .load ⟨0x16⟩ 2, .access .putField "Seq" "$slot$next$2" "J",
    .load .aload 0, .plain ⟨0x05⟩, .access .putField "Seq" "$state$next" "I",
    .plain .iconst1, .plain .ireturn, .place 3,
    .load .aload 0, .access .getField "Seq" "$slot$next$1" "I", .load .istore 1,
    .load .aload 0, .access .getField "Seq" "$slot$next$2" "J", .load ⟨0x37⟩ 2,
    -- as far as the second
    ⟨.iinc, .increment 1 (-1)⟩, .load .aload 0,
    .call .invokeVirtual "Seq" "yieldReturn" "()V",
    .load .aload 0, .load .iload 1, .access .putField "Seq" "$slot$next$1" "I",
    .load .aload 0, .load ⟨0x16⟩ 2, .access .putField "Seq" "$slot$next$2" "J",
    .load .aload 0, .plain .iconst1, .access .putField "Seq" "$state$next" "I",
    .plain .iconst1, .plain .ireturn, .place 2,
    .load .aload 0, .access .getField "Seq" "$slot$next$1" "I", .load .istore 1,
    .load .aload 0, .access .getField "Seq" "$slot$next$2" "J", .load ⟨0x37⟩ 2,
    -- as far as the break call that is reached
    .load .iload 1, .jump ⟨0x9A⟩ 0, .load .aload 0,
    .call .invokeVirtual "Seq" "yieldBreak" "()V", .plain .iconst0, .plain .ireturn,
    .plain .iconst0, .plain .ireturn, .load .aload 0,
    .call .invokeVirtual "Seq" "yieldBreak" "()V", .plain .iconst0, .plain .ireturn]

end Generator

end ClassWeaver
