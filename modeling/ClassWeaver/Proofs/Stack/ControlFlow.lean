import ClassWeaver.Proofs.Instructions
import ClassWeaver.Proofs.Listing.Labels
import ClassWeaver.Stack.Heights

/-!
# The control-flow graph of a listing

The graph of a listing has the nodes of the sequence, an edge to the node behind for every
instruction that control can fall through, and an edge to the placement of every label an
instruction branches to. `Listing.FlowHeights l h` says that `h` assigns a height to exactly
the nodes that control reaches, that the entries of the method have their heights, and that
every reached instruction satisfies its flow equation.
-/

namespace ClassWeaver

/-! ### The control-flow graph -/

namespace Insn

/-- The labels an instruction can branch to. -/
def branches (i : Insn) : List Label :=
  if i.opcode.isJump || i.opcode.isSwitch then i.labels else []

theorem mem_labels_of_mem_branches {i : Insn} {lbl : Label} (h : lbl ∈ i.branches) :
    lbl ∈ i.labels := by
  unfold branches at h
  split at h
  · exact h
  · cases h

/-- Whether control can pass on to the node behind the instruction. -/
def fallsThrough (i : Insn) : Bool :=
  !(i.opcode = .goto || i.opcode = .gotoW || i.opcode.isSwitch || i.opcode = .ret
    || i.opcode.isReturn || i.opcode = .athrow)

/-- Whether the instruction calls a subroutine, which takes its return address off again. -/
def callsSubroutine (i : Insn) : Bool := i.opcode = .jsr || i.opcode = .jsrW

end Insn

namespace Listing

/-- Control can pass from one node to another. -/
inductive Edge (l : Listing) : Ref → Ref → Prop
  | branch {r t : Ref} {i : Insn} {lbl : Label} : l.insn? r = some i → lbl ∈ i.branches →
      l.binding lbl = some t → Edge l r t
  | fall {r t : Ref} {i : Insn} : l.insn? r = some i → i.fallsThrough = true →
      l.next (some r) = some t → Edge l r t

/-- The entries of a method with their heights: the head, and the handlers of exception
entries. -/
inductive Entry (l : Listing) : Ref → Nat → Prop
  | head {r : Ref} : l.first = some r → Entry l r 0
  | handler {start stop handler : Label} {caught : Text} {r : Ref} :
      (⟨.tryCatch, .tryCatch start stop handler caught⟩ : Insn) ∈ l.insns →
      l.binding handler = some r → Entry l r 1

/-- Control reaches a node. -/
inductive Reached (l : Listing) : Ref → Prop
  | entry {r : Ref} {n : Nat} : l.Entry r n → Reached l r
  | edge {r t : Ref} : Reached l r → l.Edge r t → Reached l t

/-- The flow equation of the instruction `i` at `r`, entered at height `n`. A return or throw
finds the value it needs. Any other instruction has an effect and finds its operands; each
label it branches to is placed at a node of the height it leaves, and so is the node behind
it, which must exist if control falls through. Behind a subroutine call the height is that in
front of it. -/
def FlowEquation (l : Listing) (h : Ref → Option Nat) (r : Ref) (n : Nat) (i : Insn) : Prop :=
  match i.finalNeed? with
  | some need => need ≤ n
  | none => ∃ e, i.effect = .ok e ∧ e.pops ≤ n ∧
      (∀ lbl ∈ i.branches, ∃ t, l.binding lbl = some t ∧ h t = some (n - e.pops + e.pushes)) ∧
      (i.fallsThrough = true → ∃ t, l.next (some r) = some t ∧
        h t = some (if i.callsSubroutine then n else n - e.pops + e.pushes))

/-- The heights `h` solve the flow equations on exactly the nodes that control reaches. -/
structure FlowHeights (l : Listing) (h : Ref → Option Nat) : Prop where
  domain : ∀ r, (∃ n, h r = some n) ↔ l.Reached r
  head : ∀ r, l.first = some r → h r = some 0
  handlers : ∀ start stop handler caught,
    (⟨.tryCatch, .tryCatch start stop handler caught⟩ : Insn) ∈ l.insns →
      ∃ t, l.binding handler = some t ∧ h t = some 1
  equation : ∀ r n, h r = some n → ∃ i, l.insn? r = some i ∧ l.FlowEquation h r n i

/-- The height a node is left with: after an instruction that does not end the method. -/
def exitHeight? (l : Listing) (h : Ref → Option Nat) (r : Ref) : Option Nat := do
  let n ← h r
  let i ← l.insn? r
  match i.finalNeed?, i.effect with
  | none, .ok e => some (n - e.pops + e.pushes)
  | _, _ => none

end Listing

/-! ### The exits of a well-shaped instruction -/

namespace Insn

variable {i : Insn}

/-- Only jumps and switches leave other than to the node behind. -/
theorem exits_of_straight (hj : i.opcode.isJump = false) (hs : i.opcode.isSwitch = false)
    (hf : i.finalNeed? = none) (hop : ∀ t, i.operand ≠ .jump t)
    (htab : ∀ a b d ts, i.operand ≠ .tableSwitch a b d ts)
    (hlook : ∀ d ks ts, i.operand ≠ .lookupSwitch d ks ts) (before after : Nat) :
    i.exits before after = i.branches.map (fun lbl => (.branch lbl, after)) ++
      if i.fallsThrough then [(.fall, if i.callsSubroutine then before else after)] else [] := by
  have hb : i.branches = [] := by simp [branches, hj, hs]
  have hg : i.opcode ≠ .goto ∧ i.opcode ≠ .gotoW ∧ i.opcode ≠ .jsr ∧ i.opcode ≠ .jsrW := by
    simp only [Opcode.isJump, Opcode.isUnconditional, Bool.or_eq_false_iff,
      decide_eq_false_iff_not] at hj
    tauto
  have hfin : i.opcode.isReturn = false ∧ i.opcode ≠ .athrow := by
    unfold finalNeed? at hf
    split at hf
    · cases hf
    · split at hf
      · cases hf
      · exact ⟨by simpa using ‹¬i.opcode.isReturn = true›, ‹_›⟩
  have he : i.exits before after = if i.opcode = .ret then [] else [(.fall, after)] := by
    unfold exits
    split
    · exact absurd ‹_› (hop _)
    · exact absurd ‹_› (htab _ _ _ _)
    · exact absurd ‹_› (hlook _ _ _)
    · rfl
  rw [he, hb]
  simp [fallsThrough, callsSubroutine, hg, hs, hfin]

/-- Control does not leave an instruction that ends the method. -/
theorem no_exit_of_final {need : Nat} (hf : i.finalNeed? = some need) :
    i.branches = [] ∧ i.fallsThrough = false := by
  have hfin : i.opcode.isReturn = true ∨ i.opcode = .athrow := by
    unfold finalNeed? at hf
    split at hf
    · exact .inl ‹_›
    · split at hf
      · exact .inr ‹_›
      · cases hf
  have hj : i.opcode.isJump = false := by
    rw [Bool.eq_false_iff]
    intro hj
    obtain ⟨-, -, hr, ht⟩ := Opcode.not_final_of_isJump hj
    rcases hfin with h | h
    · rw [hr] at h; cases h
    · exact ht h
  have hs : i.opcode.isSwitch = false := by
    rw [Bool.eq_false_iff]
    intro hs
    simp only [Opcode.isSwitch, Bool.or_eq_true, decide_eq_true_eq] at hs
    rcases hs with e | e <;> rcases hfin with h | h <;> rw [e] at h <;> revert h <;> decide
  refine ⟨by simp [branches, hj, hs], ?_⟩
  rcases hfin with h | h <;> simp [fallsThrough, h]

/-- A well-shaped instruction leaves through its branches, then to the node behind it. -/
theorem exits_eq (hi : i.WellShaped) (hf : i.finalNeed? = none) (before after : Nat) :
    i.exits before after = i.branches.map (fun lbl => (.branch lbl, after)) ++
      if i.fallsThrough then [(.fall, if i.callsSubroutine then before else after)] else [] := by
  -- only three shapes of operands name labels to go to
  have hshape : i.operand.shape = .jump ∨ i.operand.shape = .tableSwitch ∨
      i.operand.shape = .lookupSwitch ∨ (i.opcode.shape ≠ .jump ∧
        i.opcode.shape ≠ .tableSwitch ∧ i.opcode.shape ≠ .lookupSwitch) := by
    by_cases hs : i.opcode.shape = .slot
    · simp [hs]
    · rw [hi.shape_operand hs]
      tauto
  obtain ⟨op, operand⟩ := i
  rcases hshape with hs | hs | hs | ⟨hj, ht, hl⟩
  · cases operand <;> simp only [Operand.shape, reduceCtorEq] at hs
    have hjump : op.isJump = true := Opcode.shape_eq_jump_iff.mp (hi.shape_eq (by simp))
    obtain ⟨hsw, hret, hrt, hthrow⟩ := Opcode.not_final_of_isJump hjump
    by_cases hgoto : op = .goto ∨ op = .gotoW
    · rcases hgoto with rfl | rfl <;>
        simp [exits, branches, fallsThrough, labels, Operand.labels, hjump]
    · rw [not_or] at hgoto
      by_cases hjsr : op = .jsr ∨ op = .jsrW
      · simp [exits, branches, fallsThrough, callsSubroutine, labels, Operand.labels, hjump, hsw,
          hret, hrt, hthrow, hgoto, hjsr]
      · simp [exits, branches, fallsThrough, callsSubroutine, labels, Operand.labels, hjump, hsw,
          hret, hrt, hthrow, hgoto, hjsr]
  · cases operand <;> simp only [Operand.shape, reduceCtorEq] at hs
    obtain rfl : op = .tableSwitch := Opcode.shape_eq_tableSwitch_iff.mp (hi.shape_eq (by simp))
    simp [exits, branches, fallsThrough, Opcode.isSwitch, labels, Operand.labels]
  · cases operand <;> simp only [Operand.shape, reduceCtorEq] at hs
    obtain rfl : op = .lookupSwitch := Opcode.shape_eq_lookupSwitch_iff.mp (hi.shape_eq (by simp))
    simp [exits, branches, fallsThrough, Opcode.isSwitch, labels, Operand.labels]
  · have hsw : op.isSwitch = false := by
      rw [Bool.eq_false_iff, ne_eq, Opcode.isSwitch_iff_shape]
      tauto
    have hjf : op.isJump = false := by
      rw [Bool.eq_false_iff, ne_eq, ← Opcode.shape_eq_jump_iff]
      exact hj
    refine exits_of_straight hjf hsw hf (fun t e => ?_) (fun a b d ts e => ?_)
      (fun d ks ts e => ?_) before after
    · exact hj (by rw [hi.shape_eq (by rw [e]; simp), e]; rfl)
    · exact ht (by rw [hi.shape_eq (by rw [e]; simp), e]; rfl)
    · exact hl (by rw [hi.shape_eq (by rw [e]; simp), e]; rfl)

end Insn

/-! ### Reached nodes are linked -/

namespace Listing

variable {l : Listing} {h : Ref → Option Nat} {r t : Ref}

theorem WellFormed.mem_refs_of_next (hl : l.WellFormed) (hr : r ∈ l.refs)
    (ht : l.next (some r) = some t) : t ∈ l.refs := by
  obtain ⟨xs, ys, hsplit⟩ := List.append_of_mem hr
  have hs : l.Spells (xs ++ r :: ys) := hsplit ▸ hl.spells
  rw [hs.next_eq] at ht
  rw [hsplit]
  have := List.mem_of_head? ht
  simp [this]

theorem WellFormed.mem_refs_of_entry (hl : l.WellFormed) {n : Nat} (he : l.Entry r n) :
    r ∈ l.refs := by
  cases he with
  | head hf => exact List.mem_of_head? (hl.spells.first_eq ▸ hf)
  | handler _ hb => exact (hl.labelled.sound hb).1

theorem WellFormed.mem_refs_of_reached (hl : l.WellFormed) (hr : l.Reached r) : r ∈ l.refs := by
  induction hr with
  | entry he => exact hl.mem_refs_of_entry he
  | edge _ he ih =>
    cases he with
    | branch _ _ hb => exact (hl.labelled.sound hb).1
    | fall _ _ hn => exact hl.mem_refs_of_next ih hn

/-- The instruction of a reached node is one of the listing. -/
theorem WellFormed.insn_of_reached (hl : l.WellFormed) (hr : l.Reached r) :
    ∃ i, l.insn? r = some i ∧ i ∈ l.insns := by
  have hmem := hl.mem_refs_of_reached hr
  obtain ⟨i, hi⟩ := hl.spells.exists_insn hmem
  exact ⟨i, hi, List.mem_filterMap.mpr ⟨r, hmem, hi⟩⟩

/-- Control reaches a node other than the head through a label it places or from the node in
front of it. -/
theorem WellFormed.fall_of_reached (hl : l.WellFormed) (ht : l.Reached t)
    (hp : l.placedAt t = none) (hprev : l.prev (some t) = some r) :
    ∃ i, l.Reached r ∧ l.insn? r = some i ∧ i.fallsThrough = true := by
  cases ht with
  | entry he =>
    cases he with
    | head hf =>
      rw [hl.spells.prev_first hf] at hprev
      cases hprev
    | handler _ hb =>
      rw [(hl.labelled.sound hb).2] at hp
      cases hp
  | edge hq he =>
    cases he with
    | branch _ _ hb =>
      rw [(hl.labelled.sound hb).2] at hp
      cases hp
    | fall hi hft hn =>
      rw [hl.spells.prev_of_next (hl.mem_refs_of_reached hq) hn, Option.some.injEq] at hprev
      subst hprev
      exact ⟨_, hq, hi, hft⟩

/-- A flow equation that holds of some heights holds of all heights that extend them. -/
theorem FlowEquation.mono {h' : Ref → Option Nat} {n : Nat} {i : Insn}
    (he : l.FlowEquation h r n i) (hext : ∀ t k, h t = some k → h' t = some k) :
    l.FlowEquation h' r n i := by
  unfold FlowEquation at he ⊢
  split
  · next need hneed => rw [hneed] at he; exact he
  · next hnone =>
    rw [hnone] at he
    obtain ⟨e, heff, hpop, hbr, hfall⟩ := he
    refine ⟨e, heff, hpop, fun lbl hlbl => ?_, fun hft => ?_⟩
    · obtain ⟨t, ht, hk⟩ := hbr lbl hlbl
      exact ⟨t, ht, hext _ _ hk⟩
    · obtain ⟨t, ht, hk⟩ := hfall hft
      exact ⟨t, ht, hext _ _ hk⟩

theorem exitHeight?_eq_some_iff {k : Nat} : l.exitHeight? h r = some k ↔
    ∃ n i e, h r = some n ∧ l.insn? r = some i ∧ i.finalNeed? = none ∧ i.effect = .ok e ∧
      k = n - e.pops + e.pushes := by
  unfold exitHeight?
  cases hn : h r with
  | none => simp
  | some n =>
    cases hi : l.insn? r with
    | none => simp
    | some i =>
      cases hf : i.finalNeed? with
      | some need => simp [hf]
      | none =>
        cases he : i.effect with
        | error e => simp [hf, he]
        | ok e => simp [hf, he, eq_comm]

end Listing

end ClassWeaver
