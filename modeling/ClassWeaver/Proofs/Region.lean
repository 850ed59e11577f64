import Mathlib.Algebra.Order.Ring.Int
import ClassWeaver.Generator.Assembly
import ClassWeaver.Proofs.Instructions

/-!
# What goes through a buffer

A buffer neither loses instructions nor makes them up. What has come out of it, followed by what
waits in it, is what it has accepted, whatever regions were opened and closed meanwhile and whenever
instructions were let out, by its owner or by the hook (`conserves`).

What a buffer has accepted is said without looking into it: a `History` holds the accepted
instructions and, while a region is open, what has been accepted since it was opened. It tells the
height of the region, and so which instructions will be accepted, which of them run the hook, and
which calls will be rejected. One call keeps a buffer to its history (`Follows.advance`), and so
does every sequence of calls. -/

namespace ClassWeaver

/-- The same discipline without a hook. -/
def Discipline.quiet {σ : Type} (d : Discipline σ) : Discipline σ :=
  { d with onNeutral := fun b => (b, .ok ()) }

namespace Buffer

variable {σ : Type}

/-! ### Calls -/

/-- A call of a buffer. -/
inductive Call where
  | start (height : Nat)
  | visit (i : Insn)
  | emit (count : Int)
  | emitAll
  | close

/-- The buffer after a call, and the answer. -/
def perform (d : Discipline σ) (b : Buffer σ) : Call → Buffer σ × Except Failure Unit
  | .start height => (b.start height, .ok ())
  | .visit i => b.visit d i
  | .emit count => b.emit d count
  | .emitAll => b.emitAll d
  | .close =>
    match b.close d with
    | .ok b' => (b', .ok ())
    | .error e => (b, .error e)

/-! ### Histories -/

/-- What a buffer has accepted: all of it, and, while a region is open, the height at which it was
opened and what has been accepted since. -/
structure History where
  accepted : List Insn := []
  opened : Option (Nat × List Insn) := none

namespace History

/-- The height of the open region: the height at which it was opened, and all that was pushed less
all that was popped since. -/
def height? (H : History) : Option Int :=
  H.opened.map fun (initial, since) => initial + (since.map Insn.rise).sum

/-- A closed buffer accepts everything, an open region the admissible instructions whose effect is
known and does not take the height below zero. -/
def accepts (H : History) (i : Insn) : Bool :=
  H.height?.all fun height => i.isAdmissible && i.effect.isOk && 0 ≤ height + i.rise

/-- An instruction that is accepted into an open region and brings its height to zero. -/
def neutral (H : History) : Call → Bool
  | .visit i => H.accepts i && H.height?.any fun height => height + i.rise = 0
  | _ => false

/-- Calls that must be rejected while so many instructions wait. -/
def rejects (H : History) (strict : Bool) (pending : Nat) : Call → Bool
  | .start _ | .emitAll => false
  | .visit i => !H.accepts i
  | .emit count => count ≤ 0 || pending < count
  | .close => H.height?.any fun height => 0 < pending || strict && height ≠ 0

/-- The history after a call. -/
def record (H : History) (strict : Bool) (pending : Nat) (call : Call) : History :=
  if H.rejects strict pending call then H
  else
    match call with
    | .start height => { H with opened := H.opened.or (some (height, [])) }
    | .visit i => ⟨H.accepted ++ [i], H.opened.map fun (initial, since) => (initial, since ++ [i])⟩
    | .emit _ | .emitAll => H
    | .close => { H with opened := none }

end History

/-- A buffer and its history after one more call. -/
def advance (d : Discipline σ) (x : Buffer σ × History) (call : Call) : Buffer σ × History :=
  ((x.1.perform d call).1, x.2.record d.strict x.1.pending call)

/-- A new buffer in front of a consumer and its history after calls. -/
def after (d : Discipline σ) (sink : σ) (calls : List Call) : Buffer σ × History :=
  calls.foldl (advance d) ({ sink }, {})

/-! ### Consumers that take everything -/

variable {d d' : Discipline σ} {log : σ → List Insn}

/-- The consumer takes every instruction. -/
def Lossless (d : Discipline σ) (log : σ → List Insn) : Prop :=
  ∀ sink i, ∃ sink', d.take sink i = .ok sink' ∧ log sink' = log sink ++ [i]

/-- What a hook can do that lets instructions out to the consumer: any number of them at a time, any
number of times. Meanwhile it may change what it knows itself, but not what the consumer has got. -/
inductive Flushes (d : Discipline σ) (log : σ → List Insn) : Buffer σ → Buffer σ → Prop where
  | done {b} : Flushes d log b b
  | think {b b' sink} : log sink = log b.sink → Flushes d log { b with sink } b' →
    Flushes d log b b'
  | emit {b b' d'} (count) : d'.take = d.take → Flushes d log (b.emit d' count).1 b' →
      Flushes d log b b'
  | emitAll {b b' d'} : d'.take = d.take → Flushes d log (b.emitAll d').1 b' → Flushes d log b b'

/-- The consumer takes every instruction, and the hook does nothing but let instructions out to
it. -/
structure Transparent (d : Discipline σ) (log : σ → List Insn) : Prop where
  lossless : Lossless d log
  flushes : ∀ b, Flushes d log b (d.onNeutral b).1

variable {b b' b'' : Buffer σ} {H : History} {before : List Insn} {i : Insn} {reg : Region}
variable {call : Call}

theorem waiting_of_closed (h : b.region = none) : b.waiting = [] := by
  rw [waiting, h]

theorem waiting_of_open (h : b.region = some reg) : b.waiting = reg.queue.reverse := by
  rw [waiting, h]

/-- The same instructions went in, and the region stands at the same height. -/
structure Same (log : σ → List Insn) (b b' : Buffer σ) : Prop where
  contents : log b'.sink ++ b'.waiting = log b.sink ++ b.waiting
  height : b'.region.map Region.height = b.region.map Region.height

theorem Same.trans (h : Same log b b') (h' : Same log b' b'') : Same log b b'' :=
  ⟨h'.contents.trans h.contents, h'.height.trans h.height⟩

/-- What is let out depends on the consumer only. -/
theorem deliver_congr (htake : d'.take = d.take) (is : List Insn) (sink : σ) :
    deliver d' sink is = deliver d sink is := by
  induction is generalizing sink with
  | nil => rfl
  | cons i is ih =>
    rw [deliver, deliver, htake]
    cases d.take sink i with
    | error e => rfl
    | ok sink => exact ih sink

theorem emit_congr (htake : d'.take = d.take) (count : Int) : b.emit d' count = b.emit d count := by
  simp only [emit, deliver_congr htake]

theorem emitAll_congr (htake : d'.take = d.take) : b.emitAll d' = b.emitAll d := by
  rw [emitAll, emitAll, emit_congr htake]

namespace Lossless

theorem deliver (h : Lossless d log) (is : List Insn) (sink : σ) :
    ∃ sink', Buffer.deliver d sink is = (sink', [], .ok ()) ∧ log sink' = log sink ++ is := by
  induction is generalizing sink with
  | nil => exact ⟨sink, rfl, (List.append_nil _).symm⟩
  | cons i is ih =>
    obtain ⟨next, hnext, hlog⟩ := h sink i
    obtain ⟨sink', hsink', hlog'⟩ := ih next
    refine ⟨sink', ?_, ?_⟩
    · rw [Buffer.deliver, hnext]
      exact hsink'
    · rw [hlog', hlog, List.append_assoc, List.singleton_append]

/-- As many instructions as wait can be let out. -/
theorem emit (h : Lossless d log) {count : Int} (hpos : 0 < count) (hle : count ≤ b.pending) :
    ∃ b', b.emit d count = (b', .ok ()) ∧ Same log b b' := by
  obtain ⟨sink, region⟩ := b
  cases region with
  | none =>
    have hnone : count ≤ 0 := hle
    omega
  | some reg =>
    obtain ⟨sink', hdeliver, hlog⟩ := h.deliver (reg.queue.reverse.take count.toNat) sink
    refine ⟨⟨sink', some { reg with queue :=
      (reg.queue.reverse.drop count.toNat).reverse }⟩, ?_, ?_,
      rfl⟩
    · rw [Buffer.emit, if_neg (by omega), if_neg (by omega)]
      simp only [List.splitAt_eq, hdeliver, List.nil_append]
    · simp only [waiting, hlog, List.reverse_reverse, List.append_assoc, List.take_append_drop]

theorem emitAll (h : Lossless d log) (b : Buffer σ) :
    ∃ b', b.emitAll d = (b', .ok ()) ∧ Same log b b' := by
  unfold Buffer.emitAll
  split
  · next hpos => exact h.emit (by omega) (Int.le_refl _)
  · exact ⟨b, rfl, rfl, rfl⟩

end Lossless

/-- No other number of instructions is let out. -/
theorem emit_refused {count : Int} (h : count ≤ 0 ∨ b.pending < count) :
    ∃ e, b.emit d count = (b, .error e) := by
  unfold Buffer.emit
  split
  · exact ⟨_, rfl⟩
  · next hpos => exact ⟨_, if_pos (h.resolve_left hpos)⟩

/-- Whatever a hook does, it keeps the instructions and their order. -/
theorem Flushes.same (h : Lossless d log) (hb : Flushes d log b b') : Same log b b' := by
  induction hb with
  | done => exact ⟨rfl, rfl⟩
  | think hlog _ ih =>
    refine Same.trans ?_ ih
    exact ⟨congrArg (· ++ _) hlog, rfl⟩
  | @emit b b' d' count htake _ ih =>
    refine Same.trans ?_ ih
    -- the hook may ask for more than there is, and is refused
    by_cases hcount : count ≤ 0 ∨ b.pending < count
    · obtain ⟨e, he⟩ := emit_refused (d := d') hcount
      rw [he]
      exact ⟨rfl, rfl⟩
    · rw [not_or, Int.not_le, Int.not_lt] at hcount
      obtain ⟨b', hb', hsame⟩ := h.emit hcount.1 hcount.2
      rwa [emit_congr htake, hb']
  | @emitAll b b' d' htake _ ih =>
    obtain ⟨b', hb', hsame⟩ := h.emitAll b
    rw [emitAll_congr htake, hb'] at ih
    exact hsame.trans ih

/-! ### One call -/

/-- A buffer stands where its history says. -/
structure Follows (log : σ → List Insn) (before : List Insn) (b : Buffer σ)
    (H : History) : Prop where
  contents : log b.sink ++ b.waiting = before ++ H.accepted
  height : b.region.map Region.height = H.height?
  nonneg : ∀ height ∈ H.height?, 0 ≤ height

theorem Follows.of_same (h : Follows log before b H) (hs : Same log b b') :
    Follows log before b' H :=
  ⟨hs.contents.trans h.contents, hs.height.trans h.height, h.nonneg⟩

theorem History.accepts_of_closed (h : H.height? = none) (i : Insn) : H.accepts i = true := by
  rw [accepts, h]
  rfl

/-- An open region accepts what it has an effect for and can pay for. -/
theorem History.accepts_iff {height : Int} (hopen : H.height? = some height) :
    H.accepts i = true ↔ i.isAdmissible = true ∧
      ∃ e, i.effect = .ok e ∧ 0 ≤ height + e.pushes - e.pops := by
  rw [accepts, hopen, Option.all_some, Bool.and_eq_true, Bool.and_eq_true, decide_eq_true_iff,
    and_assoc]
  refine and_congr_right fun _ => ?_
  cases he : i.effect with
  | error e => simp [Except.isOk, Except.toBool]
  | ok e => simp [Except.isOk, Except.toBool, Insn.rise_eq he, Int.add_sub_assoc]

theorem enqueue_of_accepts (hopen : H.height? = some reg.height) (h : H.accepts i = true) :
    b.enqueue reg i = .ok { b with region := some ⟨i :: reg.queue, reg.height + i.rise⟩ } ∧
      0 ≤ reg.height + i.rise := by
  obtain ⟨hadm, e, he, hnonneg⟩ := (History.accepts_iff hopen).mp h
  rw [Insn.rise_eq he, ← Int.add_sub_assoc]
  refine ⟨?_, hnonneg⟩
  rw [enqueue, if_pos hadm, he]
  exact if_neg (Int.not_lt.mpr hnonneg)

theorem enqueue_refused (hopen : H.height? = some reg.height) (h : H.accepts i = false) :
    ∃ e, b.enqueue reg i = .error e := by
  unfold enqueue
  split
  · next hadm =>
    cases he : i.effect with
    | error e => exact ⟨e, rfl⟩
    | ok e =>
      have hneg : reg.height + e.pushes - e.pops < 0 := by
        refine Int.not_le.mp fun hnonneg => ?_
        have haccepts := (History.accepts_iff hopen).mpr ⟨hadm, e, he, hnonneg⟩
        rw [h] at haccepts
        cases haccepts
      exact ⟨_, if_pos hneg⟩
  · exact ⟨_, rfl⟩

/-- The region after an instruction that it accepts. -/
def queued (b : Buffer σ) (reg : Region) (i : Insn) : Buffer σ :=
  { b with region := some ⟨i :: reg.queue, reg.height + i.rise⟩ }

theorem visit_of_accepts (d : Discipline σ) (hb : b.region = some reg)
    (hopen : H.height? = some reg.height) (h : H.accepts i = true) :
    b.visit d i =
      if reg.height + i.rise = 0 then d.onNeutral (b.queued reg i)
      else (b.queued reg i, .ok ()) := by
  obtain ⟨henqueue, -⟩ := enqueue_of_accepts (b := b) hopen h
  rw [visit, hb]
  simp only [henqueue]
  rfl

theorem visit_refused (d : Discipline σ) (hb : b.region = some reg)
    (hopen : H.height? = some reg.height) (h : H.accepts i = false) :
    ∃ e, b.visit d i = (b, .error e) ∧ b.visit d.quiet i = (b, .error e) := by
  obtain ⟨e, he⟩ := enqueue_refused (b := b) hopen h
  refine ⟨e, ?_, ?_⟩ <;> rw [visit, hb] <;> simp only [he]

/-! ### Every call -/

/-- With a hook a call does what it does without one, and then, if it was an accepted instruction
that brought the region to height zero, what the hook does. -/
theorem perform_eq (d : Discipline σ) (h : Follows log before b H) (call : Call) :
    b.perform d call =
      if H.neutral call then d.onNeutral (b.perform d.quiet call).1
      else b.perform d.quiet call := by
  cases call with
  | start height => rfl
  | emit count =>
    have htake : d.take = d.quiet.take := rfl
    exact emit_congr htake count
  | emitAll =>
    have htake : d.take = d.quiet.take := rfl
    exact emitAll_congr htake
  | close => rfl
  | visit i =>
    have hheight := h.height
    cases hb : b.region with
    | none =>
      -- no region, no neutral height
      have hneutral : H.neutral (.visit i) = false := by
        rw [History.neutral, ← hheight, hb]
        exact Bool.and_false _
      rw [hneutral]
      simp only [perform, visit, hb]
      rfl
    | some reg =>
      have hopen : H.height? = some reg.height := by rw [← hheight, hb, Option.map_some]
      rw [History.neutral, hopen, Option.any_some, perform, perform]
      cases haccepts : H.accepts i with
      | false =>
        obtain ⟨e, he, he'⟩ := visit_refused d hb hopen haccepts
        rw [he, he']
        rfl
      | true =>
        rw [visit_of_accepts d hb hopen haccepts, visit_of_accepts d.quiet hb hopen haccepts,
          Bool.true_and]
        -- the hook asks for the height that the instruction leaves
        by_cases hzero : reg.height + i.rise = 0
        · simp only [if_pos hzero, decide_eq_true hzero]
          rfl
        · simp only [if_neg hzero, decide_eq_false hzero]
          rfl

theorem History.height?_visit (H : History) (accepted : List Insn) (i : Insn) :
    height? ⟨accepted, H.opened.map fun (initial, since) => (initial, since ++ [i])⟩ =
      H.height?.map (· + i.rise) := by
  rw [height?, height?]
  cases H.opened with
  | none => rfl
  | some region =>
    obtain ⟨initial, since⟩ := region
    simp [Int.add_assoc]

theorem History.opened_eq_none (h : H.height? = none) : H.opened = none :=
  Option.map_eq_none_iff.mp h

namespace Follows

theorem start (h : Follows log before b H) (height : Nat) :
    Follows log before (b.start height) { H with opened := H.opened.or (some (height, [])) } := by
  have hheight := h.height
  cases hb : b.region with
  | none =>
    rw [hb] at hheight
    have hopened := History.opened_eq_none hheight.symm
    have hcontents := h.contents
    rw [waiting_of_closed hb] at hcontents
    rw [Buffer.start, hb, hopened]
    refine ⟨hcontents, by simp [History.height?], fun n hn => ?_⟩
    obtain rfl : (height : Int) = n := by simpa [History.height?] using hn
    exact Int.natCast_nonneg height
  | some reg =>
    rw [hb] at hheight
    obtain ⟨region, hregion, -⟩ := Option.map_eq_some_iff.mp hheight.symm
    rw [Buffer.start, hb, hregion, Option.some_or, ← hregion]
    exact h

/-- An instruction that goes straight through. -/
theorem pass (h : Follows log before b H) (hb : b.region = none) {sink : σ}
    (hsink : log sink = log b.sink ++ [i]) :
    Follows log before { b with sink }
      ⟨H.accepted ++ [i], H.opened.map fun (initial, since) => (initial, since ++ [i])⟩ := by
  have hheight := h.height
  have hcontents := h.contents
  rw [hb] at hheight
  rw [waiting_of_closed hb, List.append_nil] at hcontents
  refine ⟨?_, ?_, fun n hn => ?_⟩
  · have hnone : ({ b with sink } : Buffer σ).waiting = [] := waiting_of_closed hb
    rw [hnone, hsink, hcontents, List.append_nil, List.append_assoc]
  · rw [History.height?_visit, ← hheight, hb]
    rfl
  · rw [History.height?_visit, ← hheight] at hn
    cases hn

/-- An instruction that waits. -/
theorem queue (h : Follows log before b H) (hb : b.region = some reg)
    (hnonneg : 0 ≤ reg.height + i.rise) :
    Follows log before (b.queued reg i)
      ⟨H.accepted ++ [i], H.opened.map fun (initial, since) => (initial, since ++ [i])⟩ := by
  have hheight := h.height
  have hcontents := h.contents
  rw [hb] at hheight
  rw [waiting_of_open hb] at hcontents
  refine ⟨?_, ?_, fun n hn => ?_⟩
  · rw [waiting_of_open rfl, List.reverse_cons, ← List.append_assoc, ← List.append_assoc,
      ← hcontents]
    rfl
  · rw [History.height?_visit, ← hheight]
    rfl
  · rw [History.height?_visit, ← hheight] at hn
    obtain rfl := Option.some.inj hn
    exact hnonneg

theorem close (h : Follows log before b H) (hb : b.waiting = []) :
    Follows log before { b with region := none } { H with opened := none } := by
  have hcontents := h.contents
  rw [hb] at hcontents
  exact ⟨hcontents, rfl, nofun⟩

end Follows

/-- Without a hook a buffer rejects a call that it must reject, and stays as it is; another one it
performs, and follows its history. -/
structure Obeys (log : σ → List Insn) (before : List Insn) (d : Discipline σ) (b : Buffer σ)
    (H : History) (call : Call) : Prop where
  rejected : H.rejects d.strict b.pending call = true → ∃ e, b.perform d.quiet call = (b, .error e)
  performed : H.rejects d.strict b.pending call = false →
    ∃ b', b.perform d.quiet call = (b', .ok ()) ∧
      Follows log before b' (H.record d.strict b.pending call)

namespace Obeys

theorem of_error {e : Failure} (hrejects : H.rejects d.strict b.pending call = true)
    (he : b.perform d.quiet call = (b, .error e)) : Obeys log before d b H call where
  rejected _ := ⟨e, he⟩
  performed h := nomatch hrejects.symm.trans h

theorem of_ok (hrejects : H.rejects d.strict b.pending call = false)
    (hb' : b.perform d.quiet call = (b', .ok ()))
    (hfollows : Follows log before b' (H.record d.strict b.pending call)) :
    Obeys log before d b H call where
  rejected h := nomatch hrejects.symm.trans h
  performed _ := ⟨b', hb', hfollows⟩

theorem visit (hd : Lossless d log) (h : Follows log before b H) (i : Insn) :
    Obeys log before d b H (.visit i) := by
  have hheight := h.height
  have hrejects : H.rejects d.strict b.pending (.visit i) = !H.accepts i := rfl
  cases hb : b.region with
  | none =>
    rw [hb] at hheight
    obtain ⟨sink, htake, hsink⟩ := hd b.sink i
    rw [History.accepts_of_closed hheight.symm] at hrejects
    have hperform : b.perform d.quiet (.visit i) = ({ b with sink }, .ok ()) := by
      simp only [perform, Buffer.visit, hb, Discipline.quiet, htake]
    refine .of_ok hrejects hperform ?_
    rw [History.record, hrejects]
    exact h.pass hb hsink
  | some reg =>
    have hopen : H.height? = some reg.height := by rw [← hheight, hb, Option.map_some]
    cases haccepts : H.accepts i with
    | false =>
      rw [haccepts] at hrejects
      obtain ⟨e, -, he⟩ := visit_refused d hb hopen haccepts
      exact .of_error hrejects he
    | true =>
      rw [haccepts] at hrejects
      have hperform : b.perform d.quiet (.visit i) = (b.queued reg i, .ok ()) := by
        rw [perform, visit_of_accepts d.quiet hb hopen haccepts]
        exact ite_self _
      refine .of_ok hrejects hperform ?_
      rw [History.record, hrejects]
      exact h.queue hb (enqueue_of_accepts (b := b) hopen haccepts).2

theorem emit (hd : Lossless d log) (h : Follows log before b H) (count : Int) :
    Obeys log before d b H (.emit count) := by
  have htake : d.quiet.take = d.take := rfl
  have hperform : b.perform d.quiet (.emit count) = b.emit d count := emit_congr htake count
  cases hrejects : H.rejects d.strict b.pending (.emit count) with
  | false =>
    have hcount : 0 < count ∧ count ≤ b.pending := by simpa [History.rejects] using hrejects
    obtain ⟨b', hb', hsame⟩ := hd.emit hcount.1 hcount.2
    refine .of_ok hrejects (hperform.trans hb') ?_
    rw [History.record, hrejects]
    exact h.of_same hsame
  | true =>
    have hcount : count ≤ 0 ∨ b.pending < count := by simpa [History.rejects] using hrejects
    obtain ⟨e, he⟩ := emit_refused (d := d) hcount
    exact .of_error hrejects (hperform.trans he)

theorem close (h : Follows log before b H) : Obeys log before d b H .close := by
  have hheight := h.height
  have hclose : b.perform d.quiet .close =
      match b.close d.quiet with
      | .ok b' => (b', .ok ())
      | .error e => (b, .error e) := rfl
  cases hb : b.region with
  | none =>
    have hrejects : H.rejects d.strict b.pending .close = false := by
      rw [History.rejects, ← hheight, hb]
      rfl
    have hfollows := h.close (waiting_of_closed hb)
    rw [← hb] at hfollows
    rw [Buffer.close, hb] at hclose
    refine .of_ok hrejects hclose ?_
    rw [History.record, hrejects]
    exact hfollows
  | some reg =>
    have hrejects : H.rejects d.strict b.pending .close =
        (decide (0 < reg.queue.length) || d.strict && decide (reg.height ≠ 0)) := by
      rw [History.rejects, ← hheight, pending, hb]
      rfl
    have hstrict : d.quiet.strict = d.strict := rfl
    -- what waits has to be let out first, and a strict buffer closes at height zero only
    rw [Buffer.close, hb, hstrict] at hclose
    by_cases hqueue : 0 < reg.queue.length
    · rw [decide_eq_true hqueue, Bool.true_or] at hrejects
      simp only [if_pos hqueue] at hclose
      exact .of_error hrejects hclose
    rw [decide_eq_false hqueue, Bool.false_or] at hrejects
    simp only [if_neg hqueue] at hclose
    cases hheld : d.strict && decide (reg.height ≠ 0) with
    | true =>
      rw [hheld] at hrejects hclose
      exact .of_error hrejects hclose
    | false =>
      rw [hheld] at hrejects hclose
      have hwaiting : b.waiting = [] := by
        rw [waiting_of_open hb]
        simpa using hqueue
      refine .of_ok hrejects hclose ?_
      rw [History.record, hrejects]
      exact h.close hwaiting

end Obeys

theorem Follows.obeys (hd : Lossless d log) (h : Follows log before b H) (call : Call) :
    Obeys log before d b H call := by
  cases call with
  | start height => exact .of_ok rfl rfl (h.start height)
  | visit i => exact .visit hd h i
  | emit count => exact .emit hd h count
  | emitAll =>
    have htake : d.quiet.take = d.take := rfl
    obtain ⟨b', hb', hsame⟩ := hd.emitAll b
    exact .of_ok rfl ((emitAll_congr htake).trans hb') (h.of_same hsame)
  | close => exact .close h

theorem History.not_neutral_of_rejects {strict : Bool} {pending : Nat} {call : Call}
    (h : H.rejects strict pending call = true) : H.neutral call = false := by
  cases call with
  | visit i =>
    have haccepts : H.accepts i = false := by simpa [rejects] using h
    rw [neutral, haccepts, Bool.false_and]
  | _ => rfl

/-! ### Every sequence of calls -/

/-- One call keeps a buffer to its history, with the hook or without. -/
theorem Follows.advance (hd : Transparent d log) (h : Follows log before b H) (call : Call) :
    Follows log before (b.perform d call).1 (H.record d.strict b.pending call) := by
  have hquiet : Follows log before (b.perform d.quiet call).1
      (H.record d.strict b.pending call) := by
    have hobeys := h.obeys hd.lossless call
    cases hrejects : H.rejects d.strict b.pending call with
    | false =>
      obtain ⟨b', hb', hfollows⟩ := hobeys.performed hrejects
      rwa [hb']
    | true =>
      obtain ⟨e, he⟩ := hobeys.rejected hrejects
      have hsame : H.record d.strict b.pending call = H := if_pos hrejects
      rwa [he, hsame]
  -- the hook runs behind the call, and takes nothing from what the call has done
  rw [perform_eq d h call]
  split
  · exact hquiet.of_same ((hd.flushes _).same hd.lossless)
  · exact hquiet

theorem follows_after (hd : Transparent d log) (sink : σ) (calls : List Call) :
    Follows log (log sink) (after d sink calls).1 (after d sink calls).2 := by
  -- on the calls, from any buffer that follows its history
  have hall : ∀ x : Buffer σ × History, Follows log (log sink) x.1 x.2 →
      Follows log (log sink) (calls.foldl (advance d) x).1 (calls.foldl (advance d) x).2 := by
    induction calls with
    | nil => exact fun x hx => hx
    | cons call calls ih => exact fun x hx => ih (advance d x call) (hx.advance hd call)
  exact hall _ ⟨rfl, rfl, nofun⟩

/-- **A buffer keeps the instructions it accepts, in order.** This is what holds after any calls of
a new buffer whose consumer takes every instruction and whose hook lets instructions out and does
nothing else. What came out and what waits is what was accepted; a region is open if the history has
one, stands at the height that the history tells, and never below zero. Of the next call: if it must
be rejected, it fails and nothing changes; otherwise it is performed, and only if it was an accepted
instruction that brings the region to height zero, the hook runs behind it. -/
theorem conserves (hd : Transparent d log) (sink : σ) (calls : List Call)
    (hafter : after d sink calls = (b, H)) :
    log b.sink ++ b.waiting = log sink ++ H.accepted ∧
    b.isOpen = H.opened.isSome ∧
    (∀ height, H.height? = some height → b.height = height ∧ 0 ≤ height) ∧
    ∀ call,
      (H.rejects d.strict b.pending call = true → ∃ e, b.perform d call = (b, .error e)) ∧
      (H.rejects d.strict b.pending call = false → (b.perform d.quiet call).2 = .ok ()) ∧
      b.perform d call =
        if H.neutral call then d.onNeutral (b.perform d.quiet call).1
        else b.perform d.quiet call := by
  have h := follows_after hd sink calls
  rw [hafter] at h
  refine ⟨h.contents, ?_, fun height hheight => ⟨?_, h.nonneg height hheight⟩,
    fun call => ⟨?_, ?_, ?_⟩⟩
  · rw [isOpen, ← Option.isSome_map, h.height, History.height?, Option.isSome_map]
  · have hopen := h.height.trans hheight
    obtain ⟨reg, hreg, rfl⟩ := Option.map_eq_some_iff.mp hopen
    rw [Buffer.height, hreg]
  · -- no hook runs for a call that is rejected
    intro hrejects
    obtain ⟨e, he⟩ := (h.obeys hd.lossless call).rejected hrejects
    refine ⟨e, ?_⟩
    rw [perform_eq d h call, History.not_neutral_of_rejects hrejects]
    exact he
  · intro hrejects
    obtain ⟨b', hb', -⟩ := (h.obeys hd.lossless call).performed hrejects
    rw [hb']
  · exact perform_eq d h call

/-- The weaver lets an expression out as soon as it is complete. -/
theorem transparent_discipline (g : Generator) :
    Transparent (Assembly.discipline g) List.reverse where
  lossless sink i := ⟨i :: sink, rfl, List.reverse_cons⟩
  flushes _ :=
    have htake : Assembly.output.take = (Assembly.discipline g).take := rfl
    .emitAll htake .done

/-- An expression that ends in a yield call. -/
def expression : List Insn :=
  [.load .aload 0, .load .aload 0, .load .iload 1,
    .call .invokeVirtual "com/acme/Numbers" "compute" "(I)I",
    .call .invokeVirtual "com/acme/Numbers" "yieldReturn" "(I)V"]

theorem conserves_expression :
    let d := Assembly.discipline ⟨{}, "com/acme/Numbers", "next", "(I)Z", 2⟩
    ∃ b H, after d [] (.start 0 :: expression.map .visit) = (b, H) ∧
      b.sink.reverse ++ b.waiting = H.accepted ∧ H.accepted = expression ∧ b.waiting = [] ∧
      b.isOpen = true ∧ b.height = 0 ∧ ∃ e, b.perform d (.visit (.plain .pop)) = (b, .error e) := by
  intro d
  obtain ⟨hcontents, hopen, hheight, hcalls⟩ := conserves (transparent_discipline _) []
    (.start 0 :: expression.map .visit) (b := (after d [] (.start 0 :: expression.map .visit)).1)
    (H := (after d [] (.start 0 :: expression.map .visit)).2) rfl
  refine ⟨_, _, rfl, hcontents, ?_, ?_, ?_, ?_, ?_⟩
  · decide +kernel
  · decide +kernel
  · decide +kernel
  · decide +kernel
  · exact (hcalls _).1 (by decide +kernel)

end Buffer

end ClassWeaver
