import ClassWeaver.Generator.Assembly
import ClassWeaver.Proofs.Generator.Discovery
import ClassWeaver.Proofs.Stack.Heights

/-!
# The woven listing, instruction by instruction

The body of a generator passes through a buffer while the spliced code goes past it, so the
order of the woven listing depends on what waits at each splice. This file says what that
order is: the head, then every instruction of the body followed by its splice
(`Generator.wovenNodes`).

The invariant that carries it through the loop is `Assembly.Progress`. Besides the text woven
so far it says that an open region stands at the analysed height of the next instruction. The
region of a call that leaves the stack empty is then back at height zero right behind the
call, where the buffer lets everything out. A region may outlive a table switch, behind which
control does not go on; but an instruction that is reached in spite of that carries a label in
front of it, and a label closes the region.
-/

namespace ClassWeaver

/-! ### What is woven -/

namespace Generator

/-- The label of the place where the body starts: the first that the body has not used. -/
def startLabel (body : Listing) : Label := body.numLabels

/-- The label of the place where a state resumes. -/
def resumeLabel (body : Listing) (id : Nat) : Label := (body.numLabels + id : Nat)

/-- The labels of the states from the first on. -/
def resumeLabels (body : Listing) (count : Nat) : List Label :=
  (List.range count).map fun k => resumeLabel body (k + 1)

section Woven

variable (g : Generator) (body : Listing) (H : Heights) (slots : List Slot)

/-- Whether the node is a yield call that control reaches. -/
def suspendsAt (r : Ref) : Bool :=
  (H.at? r).isSome && (body.insn? r).any fun i => g.role i = .yields

/-- What is spliced in behind a node that `left` states are left for. -/
def spliceAt (left : Nat) (r : Ref) : List Insn :=
  match H.at? r, (body.insn? r).map g.role with
  | some _, some .yields => g.suspension slots left (resumeLabel body left)
  | some _, some .breaks => termination
  | _, _ => []

/-- The woven form of some nodes of the body: the instruction of each, and behind it what is
spliced in. The states are used up from the highest on. -/
def wovenNodes : (left : Nat) → List Ref → List Insn
  | _, [] => []
  | left, r :: rs =>
    (body.insn? r).toList ++ g.spliceAt body H slots left r ++
      wovenNodes (if g.suspendsAt body H r then left - 1 else left) rs

/-- A yield or break call that control reaches leaves the stack empty. -/
def IsStatement (r : Ref) : Prop :=
  ∀ n i, H.at? r = some n → body.insn? r = some i → g.role i ≠ .plain →
    ∃ e, i.effect = .ok e ∧ (n : Int) + e.pushes - e.pops = 0

theorem wovenNodes_append (left : Nat) (xs ys : List Ref) :
    g.wovenNodes body H slots left (xs ++ ys) = g.wovenNodes body H slots left xs ++
      g.wovenNodes body H slots (left - xs.countP (g.suspendsAt body H)) ys := by
  induction xs generalizing left with
  | nil => simp [wovenNodes]
  | cons r xs ih =>
    rw [List.cons_append, wovenNodes, ih, wovenNodes, List.append_assoc _ _ (wovenNodes ..),
      List.countP_cons]
    split
    · rw [Nat.sub_sub, Nat.add_comm 1]
    · rw [Nat.add_zero]

theorem wovenNodes_concat (left : Nat) (xs : List Ref) (r : Ref) :
    g.wovenNodes body H slots left (xs ++ [r]) = g.wovenNodes body H slots left xs ++
      ((body.insn? r).toList ++
        g.spliceAt body H slots (left - xs.countP (g.suspendsAt body H)) r) := by
  rw [wovenNodes_append, wovenNodes, wovenNodes, List.append_nil]

end Woven

end Generator

/-! ### Letting instructions out -/

namespace Assembly

variable {g : Generator} {b b' : Buffer (List Insn)} {i : Insn}

/-- The text that passed a buffer, what still waits included. -/
def passed (b : Buffer (List Insn)) : List Insn := b.sink.reverse ++ b.waiting

theorem deliver_output (sink is : List Insn) :
    Buffer.deliver output sink is = (is.reverse ++ sink, [], .ok ()) := by
  induction is generalizing sink with
  | nil => rfl
  | cons i is ih =>
    change Buffer.deliver output (i :: sink) is = _
    rw [ih, List.reverse_cons, List.append_assoc]
    rfl

/-- All that waits goes out, in order. -/
theorem emitAll_output (b : Buffer (List Insn)) :
    b.emitAll output = (⟨b.waiting.reverse ++ b.sink,
      b.region.map fun reg => { reg with queue := [] }⟩, .ok ()) := by
  obtain ⟨sink, region⟩ := b
  cases region with
  | none => rfl
  | some reg =>
    obtain ⟨queue, height⟩ := reg
    by_cases hq : 0 < queue.length
    · have hpos : ¬(queue.length : Int) ≤ 0 := by omega
      have hall : queue.length = queue.reverse.length := List.length_reverse.symm
      simp only [Buffer.emitAll, Buffer.emit, Buffer.pending, Buffer.waiting, if_pos hq,
        if_neg hpos, Int.lt_irrefl, if_false, Int.toNat_natCast, List.splitAt_eq, deliver_output]
      rw [hall, List.take_length, List.drop_length]
      rfl
    · obtain rfl : queue = [] := by simpa using hq
      rfl

theorem passed_emitAll (b : Buffer (List Insn)) : passed (b.emitAll output).1 = passed b := by
  rw [emitAll_output]
  obtain ⟨sink, region⟩ := b
  cases region <;> simp [passed, Buffer.waiting]

/-- Without a region an instruction goes straight through. -/
theorem visit_of_closed (h : b.region = none) (i : Insn) :
    b.visit (discipline g) i = ({ b with sink := i :: b.sink }, .ok ()) := by
  unfold Buffer.visit
  rw [h]
  rfl

theorem enqueue_eq_ok {reg : Region} (h : b.enqueue reg i = .ok b') :
    i.isAdmissible = true ∧ ∃ e, i.effect = .ok e ∧
      b' = { b with region := some ⟨i :: reg.queue, reg.height + e.pushes - e.pops⟩ } := by
  unfold Buffer.enqueue at h
  split at h
  · next hadm =>
    obtain ⟨e, he, h⟩ := Except.bind_eq_ok_iff.mp h
    dsimp only at h
    split at h
    · cases h
    · exact ⟨hadm, e, he, (Except.ok.inj h).symm⟩
  · cases h

/-- A region takes an admissible instruction in and follows its effect. At height zero nothing
is left waiting. -/
theorem visit_of_open {reg : Region} (h : b.region = some reg)
    (hv : b.visit (discipline g) i = (b', .ok ())) :
    i.isAdmissible = true ∧ passed b' = passed b ++ [i] ∧
      ∃ e reg', i.effect = .ok e ∧ b'.region = some reg' ∧
        reg'.height = reg.height + e.pushes - e.pops ∧ (reg'.height = 0 → reg'.queue = []) := by
  unfold Buffer.visit at hv
  rw [h] at hv
  dsimp only at hv
  cases hq : b.enqueue reg i with
  | error f => rw [hq] at hv; cases hv
  | ok m =>
    obtain ⟨hadm, e, he, rfl⟩ := enqueue_eq_ok hq
    simp only [hq] at hv
    have hpassed : passed { b with
        region := some ⟨i :: reg.queue, reg.height + e.pushes - e.pops⟩ } = passed b ++ [i] := by
      simp [passed, Buffer.waiting, h]
    refine ⟨hadm, ?_⟩
    split at hv
    · have hall : b' = (Buffer.emitAll output _).1 := (congrArg Prod.fst hv).symm
      refine ⟨?_, e, ⟨[], reg.height + e.pushes - e.pops⟩, he, ?_, rfl, fun _ => rfl⟩
      · rw [hall, ← hpassed]
        exact passed_emitAll _
      · rw [hall, emitAll_output]
        rfl
    · next hne =>
      obtain rfl := (congrArg Prod.fst hv).symm
      exact ⟨hpassed, e, _, he, rfl, rfl, fun h0 => absurd h0 hne⟩

/-- What passing an instruction to the buffer does, whether a region is open or not. -/
theorem visit_eq_ok (hv : b.visit (discipline g) i = (b', .ok ())) :
    passed b' = passed b ++ [i] ∧ ∀ reg', b'.region = some reg' →
      i.isAdmissible = true ∧ ∃ e reg, i.effect = .ok e ∧ b.region = some reg ∧
        reg'.height = reg.height + e.pushes - e.pops ∧ (reg'.height = 0 → reg'.queue = []) := by
  cases hr : b.region with
  | none =>
    rw [visit_of_closed hr] at hv
    obtain rfl := (congrArg Prod.fst hv).symm
    refine ⟨by simp [passed, Buffer.waiting, hr], fun reg' h => ?_⟩
    rw [hr] at h
    cases h
  | some reg =>
    obtain ⟨hadm, hpass, e, reg₁, he, hreg₁, hheight, hzero⟩ := visit_of_open hr hv
    refine ⟨hpass, fun reg' h => ?_⟩
    obtain rfl := Option.some.inj (hreg₁.symm.trans h)
    exact ⟨hadm, e, reg, he, rfl, hheight, hzero⟩

theorem settle_eq_ok {a a' : Assembly} {x : Buffer (List Insn) × Except Failure Unit}
    (h : a.settle x = .ok a') : x.2 = .ok () ∧ a' = { a with buffer := x.1 } := by
  obtain ⟨buffer, result⟩ := x
  cases result with
  | error f => cases h
  | ok u => exact ⟨rfl, (Except.ok.inj h).symm⟩

/-- Closing lets everything out and changes nothing else. -/
theorem close_eq_ok {a a' : Assembly} (h : a.close g = .ok a') :
    a'.buffer.region = none ∧ passed a'.buffer = passed a.buffer ∧ a'.states = a.states := by
  obtain ⟨m, hm, h⟩ := Except.bind_eq_ok_iff.mp h
  obtain ⟨-, rfl⟩ := settle_eq_ok hm
  obtain ⟨buffer, hc, h⟩ := Except.bind_eq_ok_iff.mp h
  obtain rfl := (Except.ok.inj h).symm
  have hpass := passed_emitAll a.buffer
  rw [emitAll_output] at hc hpass
  simp only [Buffer.close] at hc
  cases hr : a.buffer.region with
  | none =>
    rw [hr] at hc hpass
    obtain rfl := (Except.ok.inj hc).symm
    exact ⟨rfl, hpass, rfl⟩
  | some reg =>
    rw [hr] at hc hpass
    simp only [Option.map_some, List.length_nil, Nat.lt_irrefl, if_false] at hc
    split at hc
    · cases hc
    · obtain rfl := (Except.ok.inj hc).symm
      exact ⟨rfl, hpass, rfl⟩

end Assembly

namespace Insn

variable {i : Insn}

/-- An instruction that may wait places no label and calls no subroutine. -/
theorem placed?_of_isAdmissible (h : i.isAdmissible = true) : i.placed? = none := by
  unfold placed?
  split
  · next lbl _ =>
    have hop : i.opcode ≠ .label := by
      intro e
      rw [isAdmissible, e] at h
      revert h
      decide
    rw [if_neg hop]
  · rfl

theorem callsSubroutine_of_isAdmissible (h : i.isAdmissible = true) :
    i.callsSubroutine = false := by
  rw [Bool.eq_false_iff]
  intro hs
  simp only [callsSubroutine, Bool.or_eq_true, decide_eq_true_eq] at hs
  rcases hs with e | e <;> (rw [isAdmissible, e] at h; revert h; decide)

end Insn

/-! ### One instruction after the other -/

namespace Assembly

section Progress

variable {g : Generator} {body : Listing} {H : Heights} {labelled : States} {top : List Insn}
variable {xs ys : List Ref} {r : Ref} {a a' : Assembly} {i : Insn}

/-- The nodes `xs` of the body are woven behind `top`, and `next` is the node behind them.
An open region stands at the height of the next instruction, if control reaches it. -/
structure Progress (g : Generator) (body : Listing) (H : Heights) (labelled : States)
    (top : List Insn) (xs : List Ref) (next : Option Ref) (a : Assembly) : Prop where
  passed_eq : passed a.buffer = top ++ g.wovenNodes body H labelled.slots labelled.count xs
  left_eq : a.states.remaining + xs.countP (g.suspendsAt body H) = labelled.count
  states_eq : a.states = { labelled with remaining := a.states.remaining }
  level : ∀ reg r i n, a.buffer.region = some reg → next = some r → body.insn? r = some i →
    i.isAdmissible = true → H.at? r = some n → reg.height = n
  statements : ∀ r ∈ xs, g.IsStatement body H r

/-- Control falls from an instruction that may wait to the next one that may wait, with the
height that its effect gives. -/
theorem fall_height (hl : body.WellFormed) (hh : body.FlowHeights H.at?)
    (hs : body.refs = xs ++ r :: ys) {t : Ref} {j : Insn} {n : Nat} {e : Effect}
    (ht : ys.head? = some t) (hj : body.insn? t = some j) (hadm : j.isAdmissible = true)
    (hn : H.at? t = some n) (hi : body.insn? r = some i) (hadm' : i.isAdmissible = true)
    (he : i.effect = .ok e) :
    ∃ m, H.at? r = some m ∧ (n : Int) = m + e.pushes - e.pops := by
  have hspell : body.Spells (xs ++ r :: ys) := hs ▸ hl.spells
  have hnext : body.next (some r) = some t := hspell.next_eq.trans ht
  have hprev := hspell.prev_of_next (by simp) hnext
  -- no label stands there, so control can only have fallen from the node in front
  have hplaced : body.placedAt t = none := by
    rw [Listing.placedAt, hj]
    exact j.placed?_of_isAdmissible hadm
  obtain ⟨i', hreach, hi', hft⟩ :=
    hl.fall_of_reached ((hh.domain t).mp ⟨n, hn⟩) hplaced hprev
  obtain rfl := Option.some.inj (hi.symm.trans hi')
  obtain ⟨m, hm⟩ := (hh.domain r).mpr hreach
  obtain ⟨i', hi', heq⟩ := hh.equation r m hm
  obtain rfl := Option.some.inj (hi.symm.trans hi')
  have hfinal : i.finalNeed? = none := by
    cases hf : i.finalNeed? with
    | none => rfl
    | some need =>
      rw [(Insn.no_exit_of_final hf).2] at hft
      cases hft
  rw [Listing.FlowEquation, hfinal] at heq
  obtain ⟨e', he', hpops, -, hfall⟩ := heq
  obtain rfl := Except.ok.inj (he.symm.trans he')
  obtain ⟨t', ht', hn'⟩ := hfall hft
  obtain rfl := Option.some.inj (hnext.symm.trans ht')
  rw [Insn.callsSubroutine_of_isAdmissible hadm', hn, Option.some.injEq] at hn'
  refine ⟨m, hm, ?_⟩
  simp only [Bool.false_eq_true, if_false] at hn'
  omega

theorem Progress.close {next : Option Ref} (hp : Progress g body H labelled top xs next a)
    (hc : a.close g = .ok a') :
    Progress g body H labelled top xs next a' ∧ a'.buffer.region = none := by
  obtain ⟨hregion, hpass, hstates⟩ := close_eq_ok hc
  refine ⟨⟨hpass ▸ hp.passed_eq, hstates ▸ hp.left_eq, hstates ▸ hp.states_eq, ?_,
    hp.statements⟩, hregion⟩
  intro reg _ _ _ hreg
  rw [hregion] at hreg
  cases hreg

/-- A region is opened only at height zero. -/
theorem Progress.openAt (hp : Progress g body H labelled top xs (some r) a) :
    Progress g body H labelled top xs (some r) (a.openAt i (H.at? r)) := by
  unfold Assembly.openAt
  split
  · next hopen =>
    simp only [Bool.and_eq_true, decide_eq_true_eq] at hopen
    cases hreg : a.buffer.region with
    | some reg =>
      have hsame : a.buffer.start 0 = a.buffer := by simp [Buffer.start, hreg]
      rw [hsame]
      exact hp
    | none =>
      have hstart : a.buffer.start 0 = { a.buffer with region := some { height := 0 } } := by
        simp [Buffer.start, hreg]
      rw [hstart]
      refine ⟨?_, hp.left_eq, hp.states_eq, ?_, hp.statements⟩
      · rw [← hp.passed_eq]
        simp [passed, Buffer.waiting, hreg]
      · intro reg r' j n hr hr' _ _ hn
        obtain rfl := Option.some.inj hr'
        obtain rfl := Option.some.inj hr
        rw [hopen.2, Option.some.injEq] at hn
        rw [← hn]
        rfl
  · exact hp

/-- A yield or break call that passed its check leaves the stack empty. -/
theorem checkStatement_eq_ok {height : Nat} (h : checkStatement g i height = .ok ())
    (hrole : g.role i ≠ .plain) :
    ∃ e, i.effect = .ok e ∧ (height : Int) + e.pushes - e.pops = 0 := by
  unfold checkStatement at h
  rw [if_neg hrole] at h
  obtain ⟨c, hc, h⟩ := Except.bind_eq_ok_iff.mp h
  obtain ⟨e, he, hc⟩ := Except.bind_eq_ok_iff.mp hc
  obtain rfl := Except.ok.inj hc
  refine ⟨e, he, ?_⟩
  dsimp only at h
  split at h
  · cases h
  · next hz =>
    simp only [Effect.change, Decidable.not_not] at hz
    omega

section Visit

variable (hl : body.WellFormed) (hh : body.FlowHeights H.at?) (hs : body.refs = xs ++ r :: ys)
variable (hi : body.insn? r = some i) (hp : Progress g body H labelled top xs (some r) a)
variable {b : Buffer (List Insn)} (hv : a.buffer.visit (discipline g) i = (b, .ok ()))

include hl hh hs hi hp hv

/-- Behind an instruction the region stands at the height of the next one again. -/
theorem Progress.level_visit (reg : Region) (t : Ref) (j : Insn) (n : Nat)
    (hreg : b.region = some reg) (ht : ys.head? = some t) (hj : body.insn? t = some j)
    (hadm : j.isAdmissible = true) (hn : H.at? t = some n) : reg.height = n := by
  obtain ⟨hadm', e, reg₀, he, hreg₀, hheight, -⟩ := (visit_eq_ok hv).2 reg hreg
  obtain ⟨m, hm, hnm⟩ := fall_height hl hh hs ht hj hadm hn hi hadm' he
  have hlevel := hp.level reg₀ r i m hreg₀ rfl hi hadm' hm
  omega

omit hl hh hs in
/-- Nothing waits behind a call that leaves the stack empty. -/
theorem Progress.waiting_visit {n : Nat} (hn : H.at? r = some n)
    (hcheck : checkStatement g i n = .ok ()) (hrole : g.role i ≠ .plain) : b.waiting = [] := by
  cases hreg : b.region with
  | none => simp [Buffer.waiting, hreg]
  | some reg =>
    obtain ⟨hadm, e, reg₀, he, hreg₀, hheight, hzero⟩ := (visit_eq_ok hv).2 reg hreg
    have hlevel := hp.level reg₀ r i n hreg₀ rfl hi hadm hn
    obtain ⟨e', he', hnet⟩ := checkStatement_eq_ok hcheck hrole
    obtain rfl := Except.ok.inj (he.symm.trans he')
    have hqueue : reg.queue = [] := hzero (by omega)
    simp [Buffer.waiting, hreg, hqueue]

end Visit

/-- One more node is woven: its instruction and its splice are added. -/
theorem Progress.extend {next next' : Option Ref} (hp : Progress g body H labelled top xs next a)
    (hi : body.insn? r = some i)
    (hpass : passed a'.buffer =
      passed a.buffer ++ i :: g.spliceAt body H labelled.slots a.states.remaining r)
    (hleft : a'.states.remaining + (if g.suspendsAt body H r then 1 else 0) = a.states.remaining)
    (hstates : a'.states = { labelled with remaining := a'.states.remaining })
    (hlevel : ∀ reg t j n, a'.buffer.region = some reg → next' = some t →
      body.insn? t = some j → j.isAdmissible = true → H.at? t = some n → reg.height = n)
    (hstatement : g.IsStatement body H r) :
    Progress g body H labelled top (xs ++ [r]) next' a' := by
  have hcount := hp.left_eq
  refine ⟨?_, ?_, hstates, hlevel, ?_⟩
  · have hrest : labelled.count - xs.countP (g.suspendsAt body H) = a.states.remaining := by
      omega
    rw [Generator.wovenNodes_concat, hrest, hpass, hp.passed_eq, hi]
    simp
  · rw [List.countP_append, List.countP_singleton]
    omega
  · intro q hq
    rcases List.mem_append.mp hq with hq | hq
    · exact hp.statements q hq
    · rw [List.mem_singleton.mp hq]
      exact hstatement

/-- A suspension takes the highest state that is left and splices its code in. -/
theorem suspend_eq_ok (h : a.suspend g = .ok a') :
    ∃ n resume, a.states.remaining = n + 1 ∧ a.states.label? (n + 1) = some resume ∧
      a'.buffer = (a.splice (g.suspension a.states.slots (n + 1) resume)).buffer ∧
      a'.states = { a.states with remaining := n } := by
  unfold Assembly.suspend at h
  split at h
  · cases h
  · cases hn : a.states.remaining with
    | zero =>
      simp only [States.take, hn] at h
      cases h
    | succ n =>
      simp only [States.take, hn] at h
      split at h
      · cases h
      · next resume hlabel =>
        obtain rfl := (Except.ok.inj h).symm
        exact ⟨n, resume, rfl, hlabel, rfl, rfl⟩

theorem passed_splice (h : a.buffer.waiting = []) (is : List Insn) :
    passed (a.splice is).buffer = passed a.buffer ++ is := by
  have hw : (a.splice is).buffer.waiting = [] := h
  rw [passed, hw, passed, h]
  simp [splice]

/-- What a call asks for is spliced in right behind it. -/
theorem answer_eq_ok {n : Nat} (hn : H.at? r = some n) (hi : body.insn? r = some i)
    (hstates : a.states = { labelled with remaining := a.states.remaining })
    (hlabels : ∀ id, 1 ≤ id → id ≤ labelled.count →
      labelled.label? id = some (Generator.resumeLabel body id))
    (hle : a.states.remaining ≤ labelled.count)
    (hw : g.role i ≠ .plain → a.buffer.waiting = []) (h : a.answer g i = .ok a') :
    passed a'.buffer =
        passed a.buffer ++ g.spliceAt body H labelled.slots a.states.remaining r ∧
      a'.buffer.region = a.buffer.region ∧
      a'.states.remaining + (if g.suspendsAt body H r then 1 else 0) = a.states.remaining ∧
      a'.states = { labelled with remaining := a'.states.remaining } := by
  unfold Assembly.answer at h
  cases hrole : g.role i with
  | plain =>
    rw [hrole] at h
    obtain rfl := (Except.ok.inj h).symm
    simp [Generator.spliceAt, Generator.suspendsAt, hn, hi, hrole, ← hstates]
  | breaks =>
    rw [hrole] at h
    obtain rfl := (Except.ok.inj h).symm
    have hw := hw (by rw [hrole]; exact nofun)
    refine ⟨?_, rfl, ?_, hstates⟩
    · rw [passed_splice hw]
      simp [Generator.spliceAt, hn, hi, hrole]
    · simp [Generator.suspendsAt, hn, hi, hrole, splice]
  -- the highest state that is left is used, and its label is the one of the body
  | yields =>
    rw [hrole] at h
    obtain ⟨m, resume, hm, hlabel, hbuf, hst⟩ := suspend_eq_ok h
    have hw := hw (by rw [hrole]; exact nofun)
    have hslots : a.states.slots = labelled.slots := by rw [hstates]
    have hres : a.states.label? (m + 1) = some (Generator.resumeLabel body (m + 1)) := by
      rw [hstates]
      exact hlabels (m + 1) (Nat.le_add_left _ _) (by omega)
    obtain rfl := Option.some.inj (hlabel.symm.trans hres)
    refine ⟨?_, by rw [hbuf]; rfl, ?_, ?_⟩
    · rw [hbuf, passed_splice hw, hslots]
      simp [Generator.spliceAt, hn, hi, hrole, hm]
    · rw [hst, hm]
      simp [Generator.suspendsAt, hn, hi, hrole]
    · rw [hst, hstates]

/-- Weaving an instruction may close the region first. Then the instruction is passed on and
answered, unless control does not reach it. -/
theorem step_eq_ok {height : Option Nat} : a.step g i height = .ok a' →
    ∃ a₁, (a.close g = .ok a₁ ∨ a₁ = a) ∧
      match height with
      | none => a₁.settle (a₁.buffer.visit (discipline g) i) = .ok a'
      | some n => checkStatement g i n = .ok () ∧
          ∃ a₂, (a₁.openAt i (some n)).settle
            ((a₁.openAt i (some n)).buffer.visit (discipline g) i) = .ok a₂ ∧
            a₂.answer g i = .ok a' := by
  intro h
  have hrest : ∃ a₁, (a.close g = .ok a₁ ∨ a₁ = a) ∧
      (match height with
        | none => a₁.settle (a₁.buffer.visit (discipline g) i)
        | some n => do
          checkStatement g i n
          let a ← (a₁.openAt i height).settle
            ((a₁.openAt i height).buffer.visit (discipline g) i)
          a.answer g i) = .ok a' := by
    unfold Assembly.step at h
    dsimp only at h
    split at h
    · obtain ⟨a₁, h₁, h⟩ := Except.bind_eq_ok_iff.mp h
      exact ⟨a₁, .inl h₁, h⟩
    · exact ⟨a, .inr rfl, h⟩
  obtain ⟨a₁, h₁, h⟩ := hrest
  refine ⟨a₁, h₁, ?_⟩
  cases height with
  | none => exact h
  | some n =>
    obtain ⟨⟨⟩, hcheck, h⟩ := Except.bind_eq_ok_iff.mp h
    exact ⟨hcheck, Except.bind_eq_ok_iff.mp h⟩

section Step

variable (hl : body.WellFormed) (hh : body.FlowHeights H.at?)
variable (hlabels : ∀ id, 1 ≤ id → id ≤ labelled.count →
  labelled.label? id = some (Generator.resumeLabel body id))

include hl hh hlabels

theorem step_progress (hs : body.refs = xs ++ r :: ys) (hi : body.insn? r = some i)
    (hp : Progress g body H labelled top xs (some r) a)
    (hstep : a.step g i (H.at? r) = .ok a') :
    Progress g body H labelled top (xs ++ [r]) ys.head? a' := by
  obtain ⟨a₁, h₁, hstep⟩ := step_eq_ok hstep
  have hp₁ : Progress g body H labelled top xs (some r) a₁ := by
    rcases h₁ with h₁ | rfl
    · exact (hp.close h₁).1
    · exact hp
  cases hn : H.at? r with
  -- dead code is passed on, and nothing is spliced in behind it
  | none =>
    rw [hn] at hstep
    obtain ⟨hok, rfl⟩ := settle_eq_ok hstep
    have hv : a₁.buffer.visit (discipline g) i = (_, .ok ()) := Prod.ext rfl hok
    refine hp₁.extend hi ?_ ?_ hp₁.states_eq (hp₁.level_visit hl hh hs hi hv) ?_
    · rw [(visit_eq_ok hv).1]
      simp [Generator.spliceAt, hn]
    · simp [Generator.suspendsAt, hn]
    · intro n i hn'
      rw [hn] at hn'
      cases hn'
  | some n =>
    rw [hn] at hstep
    obtain ⟨hcheck, a₂, h₂, hans⟩ := hstep
    rw [← hn] at h₂
    have hp₂ := hp₁.openAt (i := i)
    obtain ⟨hok, rfl⟩ := settle_eq_ok h₂
    obtain ⟨b, hb⟩ : ∃ b, (a₁.openAt i (H.at? r)).buffer.visit (discipline g) i = b := ⟨_, rfl⟩
    rw [hb] at hok hans
    have hv : (a₁.openAt i (H.at? r)).buffer.visit (discipline g) i = (b.1, .ok ()) :=
      hb.trans (Prod.ext rfl hok)
    have hle : (a₁.openAt i (H.at? r)).states.remaining ≤ labelled.count := by
      have := hp₂.left_eq
      omega
    obtain ⟨hpass, hregion, hleft, hstates⟩ :=
      answer_eq_ok (a := { a₁.openAt i (H.at? r) with buffer := b.1 }) hn hi hp₂.states_eq
        hlabels hle (hp₂.waiting_visit hi hv hn hcheck) hans
    refine hp₂.extend hi ?_ hleft hstates ?_ ?_
    · rw [hpass, (visit_eq_ok hv).1, List.append_assoc]
      rfl
    · intro reg t j m hreg
      rw [hregion] at hreg
      exact hp₂.level_visit hl hh hs hi hv reg t j m hreg
    · intro m j hm hj hrole
      obtain rfl := Option.some.inj (hn.symm.trans hm)
      obtain rfl := Option.some.inj (hi.symm.trans hj)
      exact checkStatement_eq_ok hcheck hrole

theorem feed_progress {body' : Listing} (hsame : ∀ r, body'.insn? r = body.insn? r)
    (hs : body.refs = xs ++ ys) (hp : Progress g body H labelled top xs ys.head? a)
    (hfeed : Listing.feed (visit g body' H) a ys = (a', none)) :
    Progress g body H labelled top body.refs none a' := by
  induction ys generalizing xs a with
  | nil =>
    obtain rfl := congrArg Prod.fst hfeed
    rw [hs, List.append_nil]
    exact hp
  | cons r ys ih =>
    rw [Listing.feed] at hfeed
    cases hv : visit g body' H a r with
    | error f =>
      rw [hv] at hfeed
      cases congrArg Prod.snd hfeed
    | ok m =>
      rw [hv] at hfeed
      obtain ⟨i, hi, hstep⟩ := Except.bind_eq_ok_iff.mp hv
      rw [Flow.fetch_eq_ok_iff, hsame] at hi
      exact ih (by simp [hs]) (step_progress hl hh hlabels hs hi hp hstep) hfeed

end Step

end Progress

end Assembly

/-! ### The labels of the head -/

namespace States

/-- Labels are handed out one after the other. -/
theorem fillLabels_replicate (l : Listing) (n : Nat) :
    fillLabels l (List.replicate n none) =
      ((List.range n).map fun k => ((l.numLabels + k : Nat) : Label), l.newLabels n) := by
  induction n generalizing l with
  | zero => rfl
  | succ n ih =>
    have hsize : l.newLabel.2.numLabels = l.numLabels + 1 := by
      simp [Listing.numLabels, Listing.newLabel]
    rw [List.replicate_succ, fillLabels]
    simp only [ih, hsize]
    rw [List.range_succ_eq_map, List.map_cons, List.map_map]
    refine Prod.ext (List.cons_eq_cons.mpr ⟨rfl, ?_⟩) rfl
    refine List.map_congr_left fun k _ => ?_
    simp [Nat.add_assoc, Nat.add_comm 1 k]

end States

namespace Listing

theorem newLabels_frame (l : Listing) (n : Nat) :
    (l.newLabels n).nodes = l.nodes ∧ (l.newLabels n).first = l.first := by
  rw [newLabels_eq]
  exact ⟨rfl, rfl⟩

theorem walk_congr {l l' : Listing} (hn : l'.nodes = l.nodes) (seen : List Ref) (fuel : Nat)
    (r : Option Ref) : l'.walk seen fuel r = l.walk seen fuel r := by
  induction fuel generalizing seen r with
  | zero => rfl
  | succ fuel ih =>
    cases r with
    | none => rfl
    | some r =>
      rw [walk, walk, ih]
      simp [next, hn]

/-- Handing out labels does not touch the sequence. -/
theorem refs_newLabels (l : Listing) (n : Nat) : (l.newLabels n).refs = l.refs := by
  obtain ⟨hn, hf⟩ := l.newLabels_frame n
  rw [refs, walk_congr hn, hn, hf, refs]

theorem insn?_newLabels (l : Listing) (n : Nat) (r : Ref) :
    (l.newLabels n).insn? r = l.insn? r := by
  rw [insn?, (l.newLabels_frame n).1, insn?]

theorem insns_newLabels (l : Listing) (n : Nat) : (l.newLabels n).insns = l.insns := by
  rw [insns, refs_newLabels, funext (l.insn?_newLabels n), insns]

end Listing

/-! ### The whole listing -/

namespace Generator

section Assemble

variable {g : Generator} {body woven : Listing} {H : Heights} {states : States} {count : Nat}
variable {resumes : List Ref}

/-- The woven text of a body with known heights. -/
def wovenText (g : Generator) (body : Listing) (H : Heights) (slots : List Slot)
    (count : Nat) : List Insn :=
  g.head slots (startLabel body) (resumeLabels body count) ++
    g.wovenNodes body H slots count body.refs

/-- The states of a body with the labels that their resumptions get. -/
def labelledStates (body : Listing) (states : States) (count : Nat) : States :=
  { states with labels := ((resumeLabels body count).map some).toArray }

theorem labelAll_fresh (hfresh : states.labels = Array.replicate count none) :
    states.labelAll body.newLabel.2 =
      (resumeLabels body count, labelledStates body states count, body.newLabels (count + 1)) := by
  have hlabels : resumeLabels body count =
      (List.range count).map fun k => ((body.newLabel.2.numLabels + k : Nat) : Label) := by
    refine List.map_congr_left fun k _ => ?_
    simp [resumeLabel, Listing.numLabels, Listing.newLabel, Nat.add_assoc, Nat.add_comm 1 k]
  rw [States.labelAll, hfresh, Array.toList_replicate, States.fillLabels_replicate, ← hlabels]
  rfl

theorem label?_labelledStates {id : Nat} (h1 : 1 ≤ id) (hle : id ≤ count) :
    (labelledStates body states count).label? id = some (resumeLabel body id) := by
  obtain ⟨k, rfl⟩ : ∃ k, id = k + 1 := ⟨id - 1, by omega⟩
  have hk : k < count := by omega
  simp [States.label?, labelledStates, resumeLabels, hk]

/-- An assembly that succeeds has passed all nodes of the body and is finished then. -/
theorem progress_of_assemble (hl : body.WellFormed) (hh : body.FlowHeights H.at?)
    (hfresh : states.labels = Array.replicate count none) (hleft : states.remaining = count)
    (hw : (g.assemble H body states).woven = .ok (woven, resumes)) :
    ∃ a a', Assembly.Progress g body H (labelledStates body states count)
        (g.head states.slots (startLabel body) (resumeLabels body count)) body.refs none a ∧
      a.finish g = .ok a' ∧ a'.listing (body.newLabels (count + 1)) = (woven, resumes) ∧
      (g.assemble H body states).states = a.states := by
  have hcount : (labelledStates body states count).count = count := by
    simp [labelledStates, States.count, resumeLabels]
  have hstart : Assembly.Progress g body H (labelledStates body states count)
      (g.head states.slots (startLabel body) (resumeLabels body count)) [] body.refs.head?
      { buffer := { sink := (g.head states.slots (startLabel body)
          (resumeLabels body count)).reverse }
        states := labelledStates body states count } := by
    refine ⟨?_, ?_, rfl, (fun reg _ _ _ hreg => nomatch hreg), by simp⟩
    · simp [Assembly.passed, Buffer.waiting, wovenNodes]
    · rw [hcount]
      simpa [labelledStates] using hleft
  simp only [assemble, labelAll_fresh hfresh] at hw ⊢
  split at hw
  · cases hw
  · next a hfeed =>
    rw [Listing.refs_newLabels] at hfeed
    have hprog := Assembly.feed_progress hl hh
      (fun id h1 hle => label?_labelledStates h1 (hcount ▸ hle))
      (Listing.insn?_newLabels body (count + 1)) (List.nil_append _).symm hstart hfeed
    cases hf : a.finish g with
    | error f => rw [hf] at hw; cases hw
    | ok a' => rw [hf] at hw; exact ⟨a, a', hprog, hf, Except.ok.inj hw, rfl⟩

/-- The woven listing holds the woven text, and all states are used up. -/
theorem woven_assemble (hl : body.WellFormed) (hh : body.FlowHeights H.at?)
    (hfresh : states.labels = Array.replicate count none) (hleft : states.remaining = count)
    (hw : (g.assemble H body states).woven = .ok (woven, resumes)) :
    woven = (body.newLabels (count + 1)).fork.appendAll
        (g.wovenText body H states.slots count) ∧
      body.refs.countP (g.suspendsAt body H) = count ∧
      ∀ r ∈ body.refs, g.IsStatement body H r := by
  have hcount : (labelledStates body states count).count = count := by
    simp [labelledStates, States.count, resumeLabels]
  obtain ⟨a, a', hprog, hfin, hlist, -⟩ := progress_of_assemble hl hh hfresh hleft hw
  obtain ⟨a₁, h₁, hfin⟩ := Except.bind_eq_ok_iff.mp hfin
  have hclose : a.close g = .ok a₁ := by
    cases hc : a.close g with
    | error f => rw [hc] at h₁; cases h₁
    | ok m => rw [hc] at h₁; exact h₁
  obtain ⟨hprog₁, hregion⟩ := hprog.close hclose
  obtain ⟨hdone, rfl⟩ : a₁.states.remaining = 0 ∧ a' = a₁ := by
    dsimp only at hfin
    split at hfin
    · cases hfin
    · next hz => exact ⟨by omega, (Except.ok.inj hfin).symm⟩
  have hsink : a'.buffer.sink.reverse = g.wovenText body H states.slots count := by
    have hpassed := hprog₁.passed_eq
    rwa [Assembly.passed, Buffer.waiting, hregion, List.append_nil, hcount] at hpassed
  refine ⟨?_, ?_, hprog₁.statements⟩
  · rw [← hsink]
    exact (congrArg Prod.fst hlist).symm
  · have hsum := hprog₁.left_eq
    omega

/-- The states of an assembly that succeeds have the labels that were handed out. -/
theorem labels_assemble (hl : body.WellFormed) (hh : body.FlowHeights H.at?)
    (hfresh : states.labels = Array.replicate count none) (hleft : states.remaining = count)
    (hw : (g.assemble H body states).woven = .ok (woven, resumes)) :
    (g.assemble H body states).states.labels = ((resumeLabels body count).map some).toArray := by
  obtain ⟨a, -, hprog, -, -, hstates⟩ := progress_of_assemble hl hh hfresh hleft hw
  rw [hstates, hprog.states_eq]
  rfl

theorem body_assemble (hfresh : states.labels = Array.replicate count none) :
    (g.assemble H body states).body = body.newLabels (count + 1) := by
  simp only [assemble, labelAll_fresh hfresh]
  split <;> rfl

end Assemble

/-- The generator of a method knows where its parameters end. -/
theorem create_eq_ok {settings : Settings} {owner name desc : Text} {g : Generator}
    (h : create settings owner name desc = .ok g) :
    ∃ t, Descriptor.parse desc = .ok t ∧
      g = ⟨settings, owner, name, desc, (t.paramSlots + 1).toUInt16⟩ := by
  unfold create at h
  split at h
  · next t ht => exact ⟨t, ht, (Except.ok.inj h).symm⟩
  · cases h

/-- A body that is built has heights, and is assembled with them. -/
theorem build_eq_ok {g : Generator} {body woven : Listing} {states : States}
    {resumes : List Ref} (h : (g.build body states).woven = .ok (woven, resumes)) :
    ∃ H, body.heights = .ok H ∧ g.build body states = g.assemble H body states := by
  unfold build at h ⊢
  split at h
  · cases h
  · next H hH => exact ⟨H, hH, by simp only⟩

theorem table_one (dflt : Label) (targets : List Label) :
    Insn.table 1 dflt targets =
      ⟨.tableSwitch, .tableSwitch 1 (Int32.ofNat targets.length) dflt targets⟩ := by
  rw [Insn.table, Int32.add_comm, Int32.add_sub_cancel]

theorem insns_fork_appendAll (l : Listing) (is : List Insn) : (l.fork.appendAll is).insns = is :=
  (Listing.spells_fork l).insns_appendAll is

/-- A body that counts a local down, yielding each time, and breaks in the end. -/
def countdown : Listing :=
  Listing.ofInsns 1 [⟨.bipush, .int 3⟩, .load .istore 1, .place 0, .load .aload 0,
    .call .invokeVirtual "Seq" "yieldReturn" "()V", ⟨.iinc, .increment 1 (-1)⟩,
    .load .iload 1, .jump ⟨0x9A⟩ 0, .load .aload 0,
    .call .invokeVirtual "Seq" "yieldBreak" "()V", .plain .iconst0, .plain .ireturn]

end Generator

end ClassWeaver
