import ClassWeaver.Enhance.Arrays
import ClassWeaver.Proofs.Stack.Heights
import ClassWeaver.Proofs.Stack.Scan

/-!
# Heights along a stretch of code

A backward scan and the check behind it look at instructions one by one and add up what each does to
the stack (`rise_of_changesBy`). Between the node that they answer and the store that they started
from lies a `Stretch`: control runs straight through it, it changes the stack as a store does that
finds its array below, and no shorter one does. On code that control runs through from end to end
the sum is the difference of the heights at its ends (`height_of_straight`). This is what lets a
cast find a value: a store takes three, so where its array was pushed there is at least one
(`Stretch.one_le_height`). -/

namespace ClassWeaver

/-! ### Straight instructions -/

namespace Insn

/-- The instruction has the effect, and control passes from it to the node behind it only. -/
structure Straight (i : Insn) (e : Effect) : Prop where
  effect : i.effect = .ok e
  finalNeed : i.finalNeed? = none
  branches : i.branches = []
  fallsThrough : i.fallsThrough = true
  callsSubroutine : i.callsSubroutine = false

variable {i : Insn} {e : Effect}

/-- An instruction with an effect does not end the method. -/
theorem finalNeed?_of_effect (h : i.effect = .ok e) : i.finalNeed? = none := by
  obtain ⟨op, x⟩ := i
  unfold finalNeed?
  split
  · next hr =>
    have hp : op.isPseudo = false := by
      simp only [Opcode.isReturn, Opcode.within, Bool.and_eq_true, decide_eq_true_eq] at hr
      simp only [Opcode.isPseudo, decide_eq_false_iff_not]
      omega
    simp [Insn.effect, hp, show op.isReturn = true from hr] at h
  · split
    · next ht =>
      obtain rfl : op = .athrow := ht
      cases h
    · rfl

/-- What is neither a jump nor a switch nor a `ret` is straight, if it has an effect. -/
theorem straight_of_effect (h : i.effect = .ok e) (hj : i.opcode.isJump = false)
    (hs : i.opcode.isSwitch = false) (hret : i.opcode ≠ .ret) : i.Straight e := by
  have hfin := finalNeed?_of_effect h
  have hgoto : i.opcode ≠ .goto ∧ i.opcode ≠ .gotoW ∧ i.opcode ≠ .jsr ∧ i.opcode ≠ .jsrW := by
    simp only [Opcode.isJump, Opcode.isUnconditional, Bool.or_eq_false_iff,
      decide_eq_false_iff_not] at hj
    tauto
  have hends : i.opcode.isReturn = false ∧ i.opcode ≠ .athrow := by
    unfold finalNeed? at hfin
    split at hfin
    · cases hfin
    · split at hfin
      · cases hfin
      · exact ⟨by simpa using ‹¬i.opcode.isReturn = true›, ‹_›⟩
  refine ⟨h, hfin, by simp [Insn.branches, hj, hs], ?_, ?_⟩
  · simp [Insn.fallsThrough, hgoto, hs, hret, hends]
  · simp [Insn.callsSubroutine, hgoto]

/-- Array stores take array, index and value. -/
theorem straight_arrayStore (h : i.opcode.isArrayStore = true) : i.Straight ⟨3, 0⟩ := by
  have hlisted : Opcode.ListedCode i.opcode.code := by
    simp only [Opcode.isArrayStore, Opcode.within, Bool.and_eq_true, decide_eq_true_eq] at h
    unfold Opcode.ListedCode
    omega
  have hop := Opcode.forall_listed
    (P := fun op => op.isArrayStore = true → op.isPseudo = false ∧ op.isReturn = false ∧
      op.isInvoke = false ∧ op ≠ .multiNewArray ∧ op.effect? = some ⟨3, 0⟩ ∧
      op.isJump = false ∧ op.isSwitch = false ∧ op ≠ .ret)
    (by decide +kernel) hlisted h
  obtain ⟨hp, hr, hinv, hmulti, heff, hj, hs, hret⟩ := hop
  refine straight_of_effect ?_ hj hs hret
  simp [Insn.effect, hp, hr, hinv, hmulti, heff]

/-- Loading a byte takes array and index and leaves the byte. -/
theorem straight_baload (h : i.opcode = .baload) : i.Straight ⟨2, 1⟩ := by
  obtain ⟨op, x⟩ := i
  obtain rfl : op = .baload := h
  exact straight_of_effect rfl rfl rfl nofun

end Insn

/-! ### Stretches -/

namespace Enhance

open Listing

variable {l : Listing} {h : Ref → Option Nat} {boundary : Boundary} {xs bs zs : List Ref}
variable {p r t : Ref} {n : Nat} {target total : Int}

theorem next_stretch {b : Ref} (hl : l.Spells (xs ++ (b :: bs ++ r :: zs))) :
    l.next (some b) = (bs ++ [r]).head? := by
  rw [List.cons_append] at hl
  rw [hl.next_eq]
  cases bs <;> rfl

/-- A straight instruction that control reaches finds its operands and passes its height on. -/
theorem straight_height {i : Insn} {e : Effect} (hh : l.FlowHeights h) (hi : l.insn? r = some i)
    (he : i.Straight e) (hn : h r = some n) : e.pops ≤ n ∧
      ∃ q, l.next (some r) = some q ∧ h q = some (n - e.pops + e.pushes) := by
  obtain ⟨j, hj, heq⟩ := hh.equation r n hn
  obtain rfl : i = j := Option.some.inj (hi.symm.trans hj)
  unfold FlowEquation at heq
  rw [he.finalNeed] at heq
  obtain ⟨e', he', hpop, -, hfall⟩ := heq
  obtain rfl : e = e' := Except.ok.inj (he.effect.symm.trans he')
  obtain ⟨q, hq, hk⟩ := hfall he.fallsThrough
  rw [he.callsSubroutine] at hk
  exact ⟨hpop, q, hq, hk⟩

/-- Straight instructions one behind the other pass the height on and add to it. -/
theorem height_of_straight (hl : l.Spells (xs ++ (bs ++ r :: zs))) (hh : l.FlowHeights h)
    (hstraight : ∀ b ∈ bs, ∃ i e, l.insn? b = some i ∧ i.Straight e)
    (ht : (bs ++ [r]).head? = some t) (hn : h t = some n) :
    ∃ m, h r = some m ∧ (m : Int) = n + l.rise bs := by
  induction bs generalizing xs t n with
  | nil =>
    obtain rfl : r = t := Option.some.inj ht
    exact ⟨n, hn, (Int.add_zero _).symm⟩
  | cons b bs ih =>
    obtain rfl : b = t := Option.some.inj ht
    obtain ⟨i, e, hi, he⟩ := hstraight b List.mem_cons_self
    obtain ⟨hpop, q, hq, hk⟩ := straight_height hh hi he hn
    rw [next_stretch hl] at hq
    have hl' : l.Spells ((xs ++ [b]) ++ (bs ++ r :: zs)) := by simpa using hl
    obtain ⟨m, hm, hsum⟩ := ih hl' (fun b hb => hstraight b (List.mem_cons_of_mem _ hb)) hq hk
    have hrise : l.rise (b :: bs) = e.pushes - e.pops + l.rise bs := by
      simp [rise, hi, Insn.rise_eq he.effect]
    refine ⟨m, hm, ?_⟩
    omega

/-- The check ends with the last node of a stretch. -/
theorem changesBy_last (fuel : Nat) : changesBy l r target (fuel + 1) (some r) total =
    l.changeAt r >>= fun c => .ok (decide (total + c = target)) := by
  rw [changesBy, changeAt, bind_assoc]
  simp only [if_true]
  rfl

/-- The check goes on behind any other node. -/
theorem changesBy_cons {b : Ref} (hl : l.Spells (xs ++ (b :: bs ++ r :: zs))) (fuel : Nat) :
    changesBy l r target (fuel + 1) (some b) total =
      l.changeAt b >>= fun c => changesBy l r target fuel (bs ++ [r]).head? (total + c) := by
  have hbr : b ≠ r := by
    rintro rfl
    have hnd := (List.nodup_append.mp hl.nodup).2.1
    exact (List.nodup_cons.mp hnd).1 (by simp)
  rw [changesBy, changeAt, bind_assoc, next_stretch hl]
  simp only [hbr, if_false]

/-- The check of a stretch adds up what its nodes do, all of which have an effect. -/
theorem rise_of_changesBy {fuel : Nat} (hl : l.Spells (xs ++ (bs ++ r :: zs)))
    (hc : changesBy l r target fuel (bs ++ [r]).head? total = .ok true) :
    total + l.rise (bs ++ [r]) = target ∧
      ∀ b ∈ bs, ∃ i e, l.insn? b = some i ∧ i.effect = .ok e := by
  induction bs generalizing xs fuel total with
  | nil =>
    cases fuel with
    | zero => cases hc
    | succ fuel =>
      rw [List.nil_append, List.head?_cons, changesBy_last] at hc
      obtain ⟨c, hchange, hc⟩ := Except.bind_eq_ok_iff.mp hc
      rw [List.nil_append, rise_of_changeAt hchange]
      exact ⟨of_decide_eq_true (Except.ok.inj hc), nofun⟩
  | cons b bs ih =>
    cases fuel with
    | zero => cases hc
    | succ fuel =>
      rw [List.cons_append, List.head?_cons, changesBy_cons hl] at hc
      obtain ⟨c, hchange, hc⟩ := Except.bind_eq_ok_iff.mp hc
      have hl' : l.Spells ((xs ++ [b]) ++ (bs ++ r :: zs)) := by simpa using hl
      obtain ⟨hsum, heffects⟩ := ih hl' hc
      rw [List.cons_append, rise_cons_of_changeAt hchange, ← Int.add_assoc]
      refine ⟨hsum, fun d hd => ?_⟩
      rcases List.mem_cons.mp hd with rfl | hd
      · obtain ⟨i, hi, hchange⟩ := Except.bind_eq_ok_iff.mp hchange
        obtain ⟨e, he, -⟩ := Except.bind_eq_ok_iff.mp hchange
        exact ⟨i, e, Flow.fetch_eq_ok_iff.mp hi, he⟩
      · exact heffects d hd

/-- A store begins no block. -/
theorem isLabelEntry_of_arrayStore {i : Insn} (hi : l.insn? r = some i)
    (hstore : i.opcode.isArrayStore = true) : l.isLabelEntry r = false := by
  have hne : i.opcode ≠ .label := by
    intro e
    rw [e] at hstore
    revert hstore
    decide
  simp [isLabelEntry, hi, hne]

/-- A store leaves the stack by three values lower. -/
theorem changeAt_arrayStore {i : Insn} (hi : l.insn? r = some i)
    (hstore : i.opcode.isArrayStore = true) : l.changeAt r = .ok (-3) := by
  rw [changeAt_eq hi, Insn.change, (Insn.straight_arrayStore hstore).effect]
  rfl

/-- The nodes between the node that pushed the array of a store and the store. From behind that node
to behind the store the stack loses the array, and from nowhere nearer to the store. -/
structure Stretch (l : Listing) (bs : List Ref) (r : Ref) : Prop where
  straight : ∀ b ∈ bs, ∃ i e, l.insn? b = some i ∧ i.Straight e
  placed : ∀ t, (bs ++ [r]).head? = some t → l.placedAt t = none
  rise : l.rise (bs ++ [r]) = -1
  short : ∀ ds, ds <:+ bs → ds ≠ bs → l.rise (ds ++ [r]) ≠ -1

/-- Between the producer that is found and the store lies code without barriers. It changes the
stack as wanted, and no shorter code up to the store does. -/
theorem split_of_producer? {i : Insn} (hl : l.Spells (xs ++ r :: zs)) (hi : l.insn? r = some i)
    (hstore : i.opcode.isArrayStore = true) (hp : producer? boundary l r = .ok (some p)) :
    ∃ as bs, xs = as ++ p :: bs ∧ (∀ b ∈ bs, l.isBarrier boundary b = false) ∧
      (∀ b ∈ bs, ∃ j e, l.insn? b = some j ∧ j.effect = .ok e) ∧
      (∀ t, (bs ++ [r]).head? = some t → l.isLabelEntry t = false) ∧ l.rise (bs ++ [r]) = -1 ∧
      ∀ ds, ds <:+ bs → ds ≠ bs → l.rise (ds ++ [r]) ≠ -1 := by
  have hlabel := isLabelEntry_of_arrayStore hi hstore
  obtain ⟨o, hback, hp⟩ := Except.bind_eq_ok_iff.mp hp
  cases o with
  | none => cases hp
  | some q =>
    obtain ⟨found, hchanges, hp⟩ := Except.bind_eq_ok_iff.mp hp
    cases found with
    | false => cases hp
    | true =>
      obtain rfl : q = p := Option.some.inj (Except.ok.inj hp)
      obtain ⟨as, bs, rfl, hbar, hhead, hshort⟩ := backUntil_split hl hlabel hback
      have hl' : l.Spells ((as ++ [q]) ++ (bs ++ r :: zs)) := by simpa using hl
      have hnext : l.next (some q) = (bs ++ [r]).head? := by
        have hl'' : l.Spells (as ++ q :: (bs ++ r :: zs)) := by simpa using hl
        rw [hl''.next_eq]
        cases bs <;> rfl
      rw [hnext] at hchanges
      obtain ⟨hsum, heffects⟩ := rise_of_changesBy hl' hchanges
      rw [Int.zero_add] at hsum
      exact ⟨as, bs, rfl, hbar, heffects, hhead, hsum, hshort⟩

/-- Between the producer that is found and the store lies a stretch. -/
theorem stretch_of_producer? {i : Insn} (hl : l.Spells (xs ++ r :: zs))
    (hret : ∀ b ∈ l.refs, ∀ i, l.insn? b = some i → i.opcode ≠ .ret) (hi : l.insn? r = some i)
    (hstore : i.opcode.isArrayStore = true) (hp : producer? boundary l r = .ok (some p)) :
    ∃ as bs, xs = as ++ p :: bs ∧ Stretch l bs r := by
  obtain ⟨as, bs, rfl, hbar, heffects, hhead, hsum, hshort⟩ := split_of_producer? hl hi hstore hp
  refine ⟨as, bs, rfl, fun b hb => ?_, fun t ht => ?_, hsum, hshort⟩
  · -- no barrier and no return from a subroutine: control falls through
    obtain ⟨j, e, hj, he⟩ := heffects b hb
    have hplain : j.opcode.isJump = false ∧ j.opcode.isSwitch = false := by
      have hb := hbar b hb
      simp only [isBarrier, hj, Bool.or_eq_false_iff] at hb
      exact hb.2
    have hmem : b ∈ l.refs := by
      rw [hl.refs_eq]
      simp [hb]
    exact ⟨j, e, hj, Insn.straight_of_effect he hplain.1 hplain.2 (hret b hmem j hj)⟩
  · have hentry := hhead t ht
    unfold isLabelEntry at hentry
    unfold placedAt
    cases hj : l.insn? t with
    | none => rfl
    | some j =>
      rw [hj] at hentry
      have hop : j.opcode ≠ .label := by simpa using hentry
      exact Insn.placed?_of_ne_label hop

/-- Wherever control gets to the beginning of a stretch, a value is on the stack. -/
theorem Stretch.one_le_height {i : Insn} (hs : Stretch l bs r)
    (hl : l.Spells (xs ++ (bs ++ r :: zs)))
    (hh : l.FlowHeights h) (hi : l.insn? r = some i) (hstore : i.opcode.isArrayStore = true)
    (ht : (bs ++ [r]).head? = some t) (hn : h t = some n) : 1 ≤ n := by
  obtain ⟨m, hm, hsum⟩ := height_of_straight hl hh hs.straight ht hn
  -- the store takes three values and leaves one less than there was in front of the stretch
  have hstraight := Insn.straight_arrayStore hstore
  have hthree : 3 ≤ m := (straight_height hh hi hstraight hm).1
  have hrise := hs.rise
  have hlast := rise_of_changeAt (changeAt_arrayStore hi hstore)
  rw [rise_append, hlast] at hrise
  omega

end Enhance

end ClassWeaver
