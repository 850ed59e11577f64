import ClassWeaver.Proofs.Generator.Splices
import ClassWeaver.Proofs.Stack.Scan

/-!
# When a body cannot be made resumable

Building fails for a yield or break call that does not leave the stack empty and for a yield call
that control does not reach. There is one more way to fail (`Listing.Sinks`). The buffer follows the
height of the stack from instruction to instruction, and where control gets through, its height is
the analysed one (`Assembly.Progress.level`), so that nothing is missing. But a table switch may
wait in a region, and what stands behind it need not be reached by anything. Such dead code goes
into the open region all the same, and there it is asked for values that nobody pushed.

When the region of the buffer is open and how high it stands can be told from the body
(`Listing.Standing`): the instructions in front may all wait, since one of them that was entered on
an empty stack. The invariant `Assembly.Follows` says so along the run, next to the text that is
woven. -/

namespace ClassWeaver

namespace Insn

variable {i : Insn} {height : Int} {f : Failure}

/-- What is wrong with an instruction in a region of some height: its effect is not known, or it
pops more than there is. -/
def shortfall? (i : Insn) (height : Int) : Option Failure :=
  match i.effect with
  | .error e => some e
  | .ok e =>
    let after := height + e.pushes - e.pops
    if after < 0 then
      some (i.blame .buffer .invariant ("region height would drop to " ++ Text.ofInt after)
        (some (Text.ofInt after)) none)
    else none

theorem shortfall?_eq_none_iff :
    i.shortfall? height = none ↔ ∃ e, i.effect = .ok e ∧ 0 ≤ height + e.pushes - e.pops := by
  unfold shortfall?
  cases he : i.effect with
  | error e => simp
  | ok e => simp

/-- A statement about the opcodes that may wait can be checked one by one. -/
theorem of_isAdmissible {P : Opcode → Prop} (h : i.isAdmissible = true)
    (hP : ∀ k : Fin 207, (⟨⟨(k : Nat) - 5⟩, .none⟩ : Insn).isAdmissible = true →
    P ⟨(k : Nat) - 5⟩) :
    P i.opcode := by
  have hlisted : Opcode.ListedCode i.opcode.code := by
    by_contra hunlisted
    rw [isAdmissible, Opcode.shape_of_unlisted hunlisted] at h
    simp only [Bool.and_eq_true] at h
    exact hunlisted (Opcode.listed_of_isValid h.2)
  exact Opcode.forall_listed
    (P := fun op => (⟨op, .none⟩ : Insn).isAdmissible = true → P op) hP hlisted h

/-- Control falls through what may wait, a table switch apart. -/
theorem fallsThrough_of_isAdmissible (h : i.isAdmissible = true) (ht : i.opcode ≠ .tableSwitch) :
    i.fallsThrough = true :=
  of_isAdmissible (P := fun op => op ≠ .tableSwitch → (⟨op, .none⟩ : Insn).fallsThrough = true) h
    (by decide +kernel) ht

/-- An instruction that may wait does not end the method. -/
theorem finalNeed?_of_isAdmissible (h : i.isAdmissible = true) : i.finalNeed? = none :=
  of_isAdmissible (P := fun op => (⟨op, .none⟩ : Insn).finalNeed? = none) h (by decide +kernel)

end Insn

namespace Listing

variable {body : Listing} {H : Heights} {xs : List Ref} {r : Ref} {k : Int} {f : Failure} {i : Insn}

/-- An open region stands at height `k` behind the nodes `xs`: they end in instructions that may
wait, the first of which is entered on an empty stack, and which raise it to `k` together. -/
def Standing (body : Listing) (H : Heights) (xs : List Ref) (k : Int) : Prop :=
  ∃ as o bs, xs = as ++ o :: bs ∧ H.at? o = some 0 ∧
    (∀ q ∈ o :: bs, ∃ j, body.insn? q = some j ∧ j.isAdmissible = true) ∧ k = body.rise (o :: bs)

/-- Control does not reach the node, but its instruction may wait, and the region it comes into
lacks what it pops, or its effect is not known. -/
def Sinks (body : Listing) (H : Heights) (r : Ref) (f : Failure) : Prop :=
  ∃ xs ys k i, body.refs = xs ++ r :: ys ∧ body.Standing H xs k ∧ H.at? r = none ∧
    body.insn? r = some i ∧ i.isAdmissible = true ∧ i.shortfall? k = some f

/-- Behind one more node a region stands if its instruction may wait, at the height that it raises
the region in front of it to, or that it raises an empty stack to. -/
theorem standing_concat : body.Standing H (xs ++ [r]) k ↔
    (∃ i, body.insn? r = some i ∧ i.isAdmissible = true) ∧
      ((∃ k₀, body.Standing H xs k₀ ∧ k = k₀ + body.rise [r]) ∨
        (H.at? r = some 0 ∧ k = body.rise [r])) := by
  constructor
  · rintro ⟨as, o, bs, heq, ho, hadm, rfl⟩
    cases bs using List.reverseRecOn with
    | nil =>
      obtain ⟨rfl, hr⟩ := List.append_inj' heq rfl
      obtain rfl : r = o := by simpa using hr
      exact ⟨hadm r List.mem_cons_self, .inr ⟨ho, rfl⟩⟩
    | append_singleton bs t =>
      have heq' : xs ++ [r] = (as ++ o :: bs) ++ [t] := by simpa using heq
      obtain ⟨rfl, hr⟩ := List.append_inj' heq' rfl
      obtain rfl : r = t := by simpa using hr
      refine ⟨hadm r (by simp), .inl ⟨_, ⟨as, o, bs, rfl, ho, fun q hq => hadm q ?_, rfl⟩, ?_⟩⟩
      · simp only [List.mem_cons, List.mem_append] at hq ⊢
        tauto
      · rw [← List.cons_append, rise_append]
  · rintro ⟨hr, ⟨k₀, ⟨as, o, bs, rfl, ho, hadm, rfl⟩, rfl⟩ | ⟨hzero, rfl⟩⟩
    · refine ⟨as, o, bs ++ [r], by simp, ho, fun q hq => ?_, ?_⟩
      · rw [← List.cons_append, List.mem_append, List.mem_singleton] at hq
        rcases hq with hq | rfl
        · exact hadm q hq
        · exact hr
      · rw [← List.cons_append, rise_append]
    · exact ⟨xs, r, [], rfl, hzero, by simpa using hr, rfl⟩

/-- Of nodes the first of which has a height, one is the last that has. -/
theorem exists_last_reached {o : Ref} (bs : List Ref) (ho : (H.at? o).isSome = true) :
    ∃ cs q ds, o :: bs = cs ++ q :: ds ∧ (H.at? q).isSome = true ∧ ∀ d ∈ ds, H.at? d = none := by
  induction bs using List.reverseRecOn with
  | nil => exact ⟨[], o, [], rfl, ho, nofun⟩
  | append_singleton bs t ih =>
    by_cases ht : (H.at? t).isSome = true
    · exact ⟨o :: bs, t, [], rfl, ht, nofun⟩
    · obtain ⟨cs, q, ds, heq, hq, hds⟩ := ih
      refine ⟨cs, q, ds ++ [t], by rw [← List.cons_append, heq]; simp, hq, fun d hd => ?_⟩
      rcases List.mem_append.mp hd with hd | hd
      · exact hds d hd
      · rw [List.mem_singleton.mp hd]
        simpa using ht

/-- What sinks stands in dead code behind a table switch that control reaches, and all that is in
between may wait. -/
theorem Sinks.behind_tableSwitch (hl : body.WellFormed) (hh : body.FlowHeights H.at?)
    (hs : body.Sinks H r f) : ∃ as q bs ys i, body.refs = as ++ q :: (bs ++ r :: ys) ∧
      body.insn? q = some i ∧ i.opcode = .tableSwitch ∧ (∃ n, H.at? q = some n) ∧
      ∀ t ∈ bs ++ [r], H.at? t = none ∧ ∃ j, body.insn? t = some j ∧ j.isAdmissible = true := by
  obtain ⟨xs, ys, k, i, hrefs, ⟨as, o, bs, rfl, ho, hadm, -⟩, hr, hi, hir, -⟩ := hs
  obtain ⟨cs, q, ds, heq, hq, hds⟩ := exists_last_reached bs (by rw [ho]; rfl)
  obtain ⟨j, hj, hjadm⟩ := hadm q (by simp [heq])
  have hrefs' : body.refs = (as ++ cs) ++ q :: (ds ++ r :: ys) := by rw [hrefs, heq]; simp
  refine ⟨as ++ cs, q, ds, ys, j, hrefs', hj, ?_, Option.isSome_iff_exists.mp hq, fun t ht => ?_⟩
  · -- otherwise control would fall from it to the next node
    by_contra hne
    have hspells : body.Spells ((as ++ cs) ++ q :: (ds ++ r :: ys)) := hrefs' ▸ hl.spells
    obtain ⟨t, ht, hdead⟩ : ∃ t, (ds ++ r :: ys).head? = some t ∧ H.at? t = none := by
      cases ds with
      | nil => exact ⟨r, rfl, hr⟩
      | cons d ds => exact ⟨d, rfl, hds d List.mem_cons_self⟩
    have hreach := (hh.domain q).mp (Option.isSome_iff_exists.mp hq)
    have hfall := Edge.fall hj (Insn.fallsThrough_of_isAdmissible hjadm hne)
      (hspells.next_eq.trans ht)
    obtain ⟨n, hn⟩ := (hh.domain t).mpr (.edge hreach hfall)
    rw [hdead] at hn
    cases hn
  · rcases List.mem_append.mp ht with ht | ht
    · exact ⟨hds t ht, hadm t (by simp [heq, ht])⟩
    · rw [List.mem_singleton.mp ht]
      exact ⟨hr, i, hi, hir⟩

end Listing

/-! ### What a buffer refuses -/

namespace Assembly

variable {g : Generator} {b : Buffer (List Insn)} {a : Assembly} {i : Insn} {reg : Region}
    {f : Failure}

/-- The height of the open region. -/
def standing (a : Assembly) : Option Int := a.buffer.region.map Region.height

theorem enqueue_of_isAdmissible (h : i.isAdmissible = true) : b.enqueue reg i =
    match i.shortfall? reg.height with
    | some f => .error f
    | none => .ok { b with region := some ⟨i :: reg.queue, reg.height + i.rise⟩ } := by
  rw [Buffer.enqueue, if_pos h, Insn.shortfall?]
  cases he : i.effect with
  | error e => rfl
  | ok e =>
    rw [Insn.rise_eq he, ← Int.add_sub_assoc]
    change (if _ then _ else _) = _
    dsimp only
    split <;> rfl

theorem visit_of_shortfall (h : b.region = some reg) (hadm : i.isAdmissible = true)
    (hf : i.shortfall? reg.height = some f) : b.visit (discipline g) i = (b, .error f) := by
  rw [Buffer.visit, h]
  simp only [enqueue_of_isAdmissible hadm, hf]

/-- A region that has what the instruction pops follows it. -/
theorem visit_of_enough (h : b.region = some reg) (hadm : i.isAdmissible = true)
    (hf : i.shortfall? reg.height = none) : ∃ b', b.visit (discipline g) i = (b', .ok ()) ∧
      b'.region.map Region.height = some (reg.height + i.rise) := by
  rw [Buffer.visit, h]
  simp only [enqueue_of_isAdmissible hadm, hf]
  split
  · exact ⟨_, emitAll_output { b with region := some ⟨i :: reg.queue, reg.height + i.rise⟩ }, rfl⟩
  · exact ⟨_, rfl, rfl⟩

/-- A region can be closed at any height, unless that is forbidden. -/
theorem exists_close (hlax : g.settings.strictClose = false) (a : Assembly) :
    ∃ a', a.close g = .ok a' ∧ a'.buffer.region = none := by
  have hstrict : (discipline g).strict = false := hlax
  obtain ⟨sink, hsink⟩ : ∃ sink, sink = a.buffer.waiting.reverse ++ a.buffer.sink := ⟨_, rfl⟩
  obtain ⟨region, hregion⟩ : ∃ region,
      region = a.buffer.region.map fun reg => { reg with queue := [] } := ⟨_, rfl⟩
  have hclose : Buffer.close (discipline g) ⟨sink, region⟩ = .ok ⟨sink, none⟩ := by
    rw [hregion]
    cases a.buffer.region with
    | none => rfl
    | some reg => simp [Buffer.close, hstrict]
  refine ⟨{ a with buffer := ⟨sink, none⟩ }, ?_, rfl⟩
  rw [close, emitAll_output, ← hsink, ← hregion]
  exact Except.bind_eq_ok_iff.mpr ⟨_, rfl, Except.bind_eq_ok_iff.mpr ⟨_, hclose, rfl⟩⟩

/-- A call is answered as soon as nothing waits and a state is left. -/
theorem exists_answer (hwaiting : g.role i ≠ .plain → a.buffer.waiting = [])
    (hleft : g.role i = .yields → 0 < a.states.remaining)
    (hlabels : ∀ id, 1 ≤ id → id ≤ a.states.remaining → ∃ lbl, a.states.label? id = some lbl) :
    ∃ a', a.answer g i = .ok a' ∧ a'.buffer.region = a.buffer.region := by
  rw [answer]
  cases hrole : g.role i with
  | plain => exact ⟨a, rfl, rfl⟩
  | breaks => exact ⟨_, rfl, rfl⟩
  | yields =>
    have hnone : a.buffer.pending = 0 := by
      have hempty := hwaiting (by rw [hrole]; exact nofun)
      rw [Buffer.waiting] at hempty
      rw [Buffer.pending]
      split at hempty <;> simp_all
    obtain ⟨n, hn⟩ := Nat.exists_eq_add_one_of_ne_zero (hleft hrole).ne'
    obtain ⟨lbl, hlbl⟩ := hlabels (n + 1) (Nat.le_add_left ..) hn.ge
    dsimp only
    rw [suspend, hnone, if_neg (Nat.lt_irrefl 0), States.take, hn]
    dsimp only
    have hlbl' : ({ a.states with remaining := n } : States).label? (n + 1) = some lbl := hlbl
    rw [hlbl']
    exact ⟨_, rfl, rfl⟩

/-! ### One step after the other -/

section Follows

variable {body : Listing} {H : Heights} {labelled : States} {top : List Insn} {xs ys : List Ref}
variable {r : Ref} {next : Option Ref} {a' : Assembly}

/-- Weaving an instruction closes the region first unless the instruction may wait. Then it is
passed on and answered, or passed on only where control does not reach it. -/
theorem step_eq (hlax : g.settings.strictClose = false)
    (hp : Progress g body H labelled top xs next a) :
    ∃ a₁, Progress g body H labelled top xs next a₁ ∧
      a₁.buffer.region = (if i.isAdmissible then a.buffer.region else none) ∧
      ∀ height, a.step g i height = match height with
        | none => a₁.settle (a₁.buffer.visit (discipline g) i)
        | some n => (do
          checkStatement g i n
          let a ← (a₁.openAt i (some n)).settle
            ((a₁.openAt i (some n)).buffer.visit (discipline g) i)
          a.answer g i) := by
  by_cases hadm : i.isAdmissible = true
  · refine ⟨a, hp, by rw [if_pos hadm], fun height => ?_⟩
    rw [step, hadm, Bool.not_true, Bool.and_false]
    cases height <;> rfl
  · obtain ⟨a₁, hclose, hregion⟩ := exists_close hlax a
    cases hopen : a.buffer.isOpen with
    | true =>
      refine ⟨a₁, (hp.close hclose).1, by rw [if_neg hadm, hregion], fun height => ?_⟩
      rw [step, hopen, Bool.eq_false_iff.mpr hadm, Bool.not_false, Bool.and_true,
        if_pos rfl, hclose]
      cases height <;> rfl
    | false =>
      have hnone : a.buffer.region = none := by simpa [Buffer.isOpen] using hopen
      refine ⟨a, hp, by rw [if_neg hadm, hnone], fun height => ?_⟩
      rw [step, hopen, Bool.false_and]
      cases height <;> rfl

/-- What fails at a node: the check of a call that control reaches, or an instruction that control
does not reach, in an open region. -/
def Refuses (g : Generator) (H : Heights) (a : Assembly) (r : Ref) (i : Insn)
    (f : Failure) : Prop :=
  (∃ n, H.at? r = some n ∧ checkStatement g i n = .error f) ∨
    (H.at? r = none ∧ i.isAdmissible = true ∧ ∃ k, a.standing = some k ∧ i.shortfall? k = some f)

/-- Where the region stands behind a node: if the instruction may wait, it has been raised from
where it stood, or from zero where it was opened. -/
def Raises (H : Heights) (a : Assembly) (r : Ref) (i : Insn) (a' : Assembly) : Prop :=
  ∀ k, a'.standing = some k ↔ i.isAdmissible = true ∧
    ((∃ k₀, a.standing = some k₀ ∧ k = k₀ + i.rise) ∨ (H.at? r = some 0 ∧ k = i.rise))

/-- An instruction that control does not reach fails in a region that it takes below zero. -/
theorem step_unreached (hlax : g.settings.strictClose = false)
    (hp : Progress g body H labelled top xs next a) (hn : H.at? r = none) :
    (∃ f, a.step g i (H.at? r) = .error f ∧ a.Refuses g H r i f) ∨
      (∃ a', a.step g i (H.at? r) = .ok a' ∧ a.Raises H r i a' ∧ ∀ f, ¬a.Refuses g H r i f) := by
  obtain ⟨a₁, -, hregion, hstep⟩ := step_eq (i := i) hlax hp
  have hnoheight : ∀ f n, H.at? r = some n → checkStatement g i n ≠ .error f := by
    intro f n hn'
    rw [hn] at hn'
    cases hn'
  rw [hstep, hn]
  dsimp only
  cases hreg : a₁.buffer.region with
  | none =>
    -- without a region nothing stands that could sink
    have hstanding : i.isAdmissible = true → a.standing = none := by
      intro hadm
      rw [hreg, if_pos hadm] at hregion
      rw [standing, ← hregion, Option.map_none]
    refine .inr ⟨_, by rw [visit_of_closed hreg]; rfl, fun k => ?_, fun f hf => ?_⟩
    · rw [standing, hreg, hn]
      refine ⟨nofun, fun ⟨hadm, hk⟩ => ?_⟩
      rcases hk with ⟨k₀, hk₀, -⟩ | ⟨hzero, -⟩
      · rw [hstanding hadm] at hk₀
        cases hk₀
      · cases hzero
    · rcases hf with ⟨n, hn', hf⟩ | ⟨-, hadm, k, hk, -⟩
      · exact hnoheight f n hn' hf
      · rw [hstanding hadm] at hk
        cases hk
  | some reg =>
    -- a region that is still open holds what may wait, so the instruction may
    have hadm : i.isAdmissible = true := by
      by_contra hadm
      rw [hreg, if_neg hadm] at hregion
      cases hregion
    rw [hreg, if_pos hadm] at hregion
    have hstanding : a.standing = some reg.height := by rw [standing, ← hregion, Option.map_some]
    cases hf : i.shortfall? reg.height with
    | some f =>
      refine .inl ⟨f, ?_, .inr ⟨hn, hadm, reg.height, hstanding, hf⟩⟩
      rw [visit_of_shortfall hreg hadm hf]
      rfl
    | none =>
      obtain ⟨b', hv, hheight⟩ := visit_of_enough (g := g) hreg hadm hf
      refine .inr ⟨_, by rw [hv]; rfl, fun k => ?_, fun f hf' => ?_⟩
      · have hafter : standing { a₁ with buffer := b' } = some (reg.height + i.rise) := hheight
        rw [hafter, hn, hstanding]
        simp [hadm, eq_comm]
      · rcases hf' with ⟨n, hn', hf'⟩ | ⟨-, -, k, hk, hf'⟩
        · exact hnoheight f n hn' hf'
        · obtain rfl := Option.some.inj (hstanding.symm.trans hk)
          rw [hf] at hf'
          cases hf'

/-- A region is opened in front of what may wait on an empty stack, unless one is open. -/
theorem region_openAt (a : Assembly) (i : Insn) (n : Nat) :
    (a.openAt i (some n)).buffer.region =
      if i.isAdmissible && n = 0 then a.buffer.region.or (some { height := 0 })
      else a.buffer.region := by
  have hzero : (some n = some 0) = (n = 0) := by simp
  rw [openAt]
  simp only [hzero]
  split
  · cases hr : a.buffer.region <;> simp [Buffer.start, hr]
  · rfl

/-- Where control gets through, there is always enough on the stack. -/
theorem shortfall?_of_reached {n : Nat} (hh : body.FlowHeights H.at?) (hi : body.insn? r = some i)
    (hadm : i.isAdmissible = true) (hn : H.at? r = some n) : i.shortfall? n = none := by
  obtain ⟨j, hj, heq⟩ := hh.equation r n hn
  obtain rfl := Option.some.inj (hi.symm.trans hj)
  rw [Listing.FlowEquation, Insn.finalNeed?_of_isAdmissible hadm] at heq
  obtain ⟨e, he, hpops, -⟩ := heq
  exact Insn.shortfall?_eq_none_iff.mpr ⟨e, he, by omega⟩

section Reached

variable {n : Nat} (hi : body.insn? r = some i) (hn : H.at? r = some n)
variable (hp : Progress g body H labelled top xs (some r) a)

include hi hn hp

/-- The buffer takes an instruction that control reaches, and its region stays open if it was. -/
theorem exists_visit (hh : body.FlowHeights H.at?)
    (hadm : ∀ reg, a.buffer.region = some reg → i.isAdmissible = true) :
    ∃ b, a.buffer.visit (discipline g) i = (b, .ok ()) ∧
      b.region.map Region.height = a.standing.map fun _ => (n : Int) + i.rise := by
  cases hreg : a.buffer.region with
  | none =>
    refine ⟨_, visit_of_closed hreg i, ?_⟩
    rw [standing, hreg]
    rfl
  | some reg =>
    have hheight : reg.height = n := hp.level reg r i n hreg rfl hi (hadm reg hreg) hn
    have henough := shortfall?_of_reached hh hi (hadm reg hreg) hn
    rw [← hheight] at henough
    obtain ⟨b, hv, hb⟩ := visit_of_enough (g := g) hreg (hadm reg hreg) henough
    refine ⟨b, hv, ?_⟩
    rw [hb, standing, hreg, hheight]
    rfl

/-- A call that passes its check is answered. -/
theorem exists_answer_of_check {b : Buffer (List Insn)} (hs : body.refs = xs ++ r :: ys)
    (hlabels : ∀ id, 1 ≤ id → id ≤ labelled.count →
      labelled.label? id = some (Generator.resumeLabel body id))
    (hroom : body.refs.countP (g.suspendsAt body H) ≤ labelled.count)
    (hv : a.buffer.visit (discipline g) i = (b, .ok ())) (hcheck : checkStatement g i n = .ok ()) :
    ∃ a', answer g i { a with buffer := b } = .ok a' ∧ a'.buffer.region = b.region := by
  have hleft := hp.left_eq
  refine exists_answer (hp.waiting_visit hi hv hn hcheck) (fun hyields => ?_) fun id h1 hle => ?_
  · -- the state of the call itself is left
    have hsuspends : g.suspendsAt body H r = true := by simp [Generator.suspendsAt, hn, hi, hyields]
    rw [hs, List.countP_append, List.countP_cons_of_pos hsuspends] at hroom
    dsimp only
    omega
  · dsimp only at hle ⊢
    rw [hp.states_eq]
    exact ⟨_, hlabels id h1 (by omega)⟩

end Reached

section Step

variable (hlax : g.settings.strictClose = false) (hl : body.WellFormed)
    (hh : body.FlowHeights H.at?)
variable (hlabels : ∀ id, 1 ≤ id → id ≤ labelled.count →
  labelled.label? id = some (Generator.resumeLabel body id))
variable (hroom : body.refs.countP (g.suspendsAt body H) ≤ labelled.count)
variable (hs : body.refs = xs ++ r :: ys) (hi : body.insn? r = some i)
variable (hp : Progress g body H labelled top xs (some r) a)

include hlax hh hlabels hroom hs hi hp

/-- An instruction that control reaches finds its operands in the region, and a call that passes its
check is answered. -/
theorem step_reached {n : Nat} (hn : H.at? r = some n) :
    (∃ f, a.step g i (H.at? r) = .error f ∧ a.Refuses g H r i f) ∨
      (∃ a', a.step g i (H.at? r) = .ok a' ∧ a.Raises H r i a' ∧ ∀ f, ¬a.Refuses g H r i f) := by
  obtain ⟨a₁, hp₁, hregion, hstep⟩ := step_eq (i := i) hlax hp
  rw [hstep, hn]
  dsimp only
  cases hcheck : checkStatement g i n with
  | error f => exact .inl ⟨f, rfl, .inl ⟨n, hn, hcheck⟩⟩
  | ok u =>
    have hp₂ : Progress g body H labelled top xs (some r) (a₁.openAt i (some n)) := by
      rw [← hn]
      exact hp₁.openAt
    have hopened := region_openAt a₁ i n
    rw [hregion] at hopened
    have hadm : ∀ reg, (a₁.openAt i (some n)).buffer.region = some reg → i.isAdmissible = true := by
      intro reg hreg
      by_contra hadm
      rw [hopened, Bool.eq_false_iff.mpr hadm] at hreg
      cases hreg
    obtain ⟨b, hv, hb⟩ := exists_visit hi hn hp₂ hh hadm
    obtain ⟨a', ha', hregion'⟩ := exists_answer_of_check hi hn hp₂ hs hlabels hroom hv hcheck
    refine .inr ⟨a', ?_, fun k => ?_, ?_⟩
    · rw [hv]
      exact ha'
    · rw [standing, hregion', hb, hn, standing, standing, hopened]
      -- where control gets, what stands in the region is the height of the node
      by_cases hwait : i.isAdmissible = true
      · cases hreg : a.buffer.region with
        | none => by_cases hzero : n = 0 <;> simp [hwait, hzero, eq_comm]
        | some reg =>
          have hheight : reg.height = n := hp.level reg r i n hreg rfl hi hwait hn
          by_cases hzero : n = 0 <;> simp [hwait, hzero, hheight, eq_comm]
      · simp [hwait]
    · rintro f (⟨m, hm, hf⟩ | ⟨hnone, -⟩)
      · obtain rfl := Option.some.inj (hn.symm.trans hm)
        rw [hcheck] at hf
        cases hf
      · rw [hn] at hnone
        cases hnone

end Step

/-- The nodes `xs` of the body are woven, the region stands where they leave it, and none of them
sinks. -/
structure Follows (g : Generator) (body : Listing) (H : Heights) (labelled : States)
    (top : List Insn)
    (xs : List Ref) (next : Option Ref) (a : Assembly) : Prop
    extends Progress g body H labelled top xs next a where
  standing_iff : ∀ k, a.standing = some k ↔ body.Standing H xs k
  clear : ∀ r ∈ xs, ∀ f, ¬body.Sinks H r f

/-- Why weaving a node fails, told by the body. -/
def Fails (g : Generator) (body : Listing) (H : Heights) (r : Ref) (f : Failure) : Prop :=
  (∃ i n, body.insn? r = some i ∧ H.at? r = some n ∧ checkStatement g i n = .error f) ∨
    body.Sinks H r f

section Run

variable (hlax : g.settings.strictClose = false) (hl : body.WellFormed)
    (hh : body.FlowHeights H.at?)
variable (hlabels : ∀ id, 1 ≤ id → id ≤ labelled.count →
  labelled.label? id = some (Generator.resumeLabel body id))
variable (hroom : body.refs.countP (g.suspendsAt body H) ≤ labelled.count)

include hlax hl hh hlabels hroom

/-- Weaving a node fails as the body says, or goes on. -/
theorem step_follows (hs : body.refs = xs ++ r :: ys) (hi : body.insn? r = some i)
    (hf : Follows g body H labelled top xs (some r) a) :
    (∃ f, a.step g i (H.at? r) = .error f ∧ Fails g body H r f) ∨
      ∃ a', a.step g i (H.at? r) = .ok a' ∧
      Follows g body H labelled top (xs ++ [r]) ys.head? a' := by
  have hsinks : ∀ f, a.Refuses g H r i f ↔
      (∃ n, H.at? r = some n ∧ checkStatement g i n = .error f) ∨ body.Sinks H r f := by
    intro f
    refine or_congr_right ⟨?_, ?_⟩
    · rintro ⟨hn, hadm, k, hk, hshort⟩
      exact ⟨xs, ys, k, i, hs, (hf.standing_iff k).mp hk, hn, hi, hadm, hshort⟩
    · rintro ⟨xs', ys', k, j, hs', hk, hn, hj, hadm, hshort⟩
      obtain rfl := Option.some.inj (hi.symm.trans hj)
      -- a node stands at one place of the body, so both descriptions mean the same front
      have hsame : xs' = xs :=
        Listing.front_unique (hs' ▸ hl.spells.nodup) (hs'.symm.trans hs)
      exact ⟨hn, hadm, k, (hf.standing_iff k).mpr (hsame ▸ hk), hshort⟩
  have hcases : (∃ f, a.step g i (H.at? r) = .error f ∧ a.Refuses g H r i f) ∨
      (∃ a', a.step g i (H.at? r) = .ok a' ∧ a.Raises H r i a' ∧ ∀ f, ¬a.Refuses g H r i f) := by
    cases hn : H.at? r with
    | none =>
      rw [← hn]
      exact step_unreached hlax hf.toProgress hn
    | some n =>
      rw [← hn]
      exact step_reached hlax hh hlabels hroom hs hi hf.toProgress hn
  rcases hcases with ⟨f, hstep, href⟩ | ⟨a', hstep, hraises, hnever⟩
  · refine .inl ⟨f, hstep, ((hsinks f).mp href).imp ?_ id⟩
    rintro ⟨n, hn, hcheck⟩
    exact ⟨i, n, hi, hn, hcheck⟩
  · refine .inr ⟨a', hstep, step_progress hl hh hlabels hs hi hf.toProgress hstep, fun k => ?_, ?_⟩
    · have hrise : body.rise [r] = i.rise := by simp [Listing.rise, hi]
      rw [hraises k, Listing.standing_concat, hrise]
      simp only [hf.standing_iff, hi, Option.some.injEq, exists_eq_left']
    · intro q hq f hsink
      rcases List.mem_append.mp hq with hq | hq
      · exact hf.clear q hq f hsink
      · rw [List.mem_singleton.mp hq] at hsink
        exact hnever f ((hsinks f).mpr (.inr hsink))

/-- Weaving all nodes fails at one of them, or comes to the end. -/
theorem feed_follows {body' : Listing} (hsame : ∀ r, body'.insn? r = body.insn? r)
    (hs : body.refs = xs ++ ys) (hf : Follows g body H labelled top xs ys.head? a) :
    (∃ a' f, Listing.feed (visit g body' H) a ys = (a', some f) ∧
      ∃ r ∈ body.refs, Fails g body H r f) ∨
    ∃ a', Listing.feed (visit g body' H) a ys = (a', none) ∧
      Follows g body H labelled top body.refs none a' := by
  induction ys generalizing xs a with
  | nil =>
    rw [List.append_nil] at hs
    exact .inr ⟨a, rfl, hs ▸ hf⟩
  | cons r ys ih =>
    have hspells : body.Spells (xs ++ r :: ys) := hs ▸ hl.spells
    obtain ⟨i, hi⟩ := hspells.exists_insn (r := r) (by simp)
    have hvisit : visit g body' H a r = a.step g i (H.at? r) := by
      have hfetch : body'.fetch r = .ok i := Flow.fetch_eq_ok_iff.mpr ((hsame r).trans hi)
      rw [visit, hfetch]
      rfl
    rw [Listing.feed, hvisit]
    rcases step_follows hlax hl hh hlabels hroom hs hi hf with ⟨f, hstep, hfails⟩ | ⟨a', hstep, hf'⟩
    · rw [hstep]
      exact .inl ⟨a, f, rfl, r, by simp [hs], hfails⟩
    · rw [hstep]
      exact ih (by simp [hs]) hf'

end Run

end Follows

end Assembly

/-! ### Building -/

namespace Generator

open Listing

variable {g : Generator} {body : Listing} {H : Heights} {states : States} {method desc : Text}

/-- The fault of a woven body with states left over. -/
def leftOver (g : Generator) (left count : Nat) : Failure :=
  .fault (.report .weave .invariant g.key []
    (Text.ofNat left ++ " of " ++ Text.ofNat count ++ " yield calls were not woven")
    (some (Text.ofNat left)) none)

/-- Finishing fails if states are left. -/
theorem finish_eq (hlax : g.settings.strictClose = false) (a : Assembly) : ∃ a',
    a.finish g = if 0 < a.states.remaining then .error
    (g.leftOver a.states.remaining a.states.count)
      else .ok a' := by
  obtain ⟨a', hclose, -⟩ := Assembly.exists_close hlax a
  obtain ⟨-, -, hstates⟩ := Assembly.close_eq_ok hclose
  refine ⟨a', ?_⟩
  rw [Assembly.finish, hclose, ← hstates]
  rfl

/-- An assembly weaves the nodes of the body one after the other, behind the head. -/
theorem woven_assemble_eq {count : Nat} (hfresh : states.labels = Array.replicate count none) :
    (g.assemble H body states).woven =
      match Listing.feed (Assembly.visit g (body.newLabels (count + 1)) H)
        { buffer := { sink := (g.head states.slots (startLabel body)
            (resumeLabels body count)).reverse }
          states := labelledStates body states count } body.refs with
      | (_, some e) => .error (e.map (Fault.inMethod g.key))
      | (a, none) => (a.finish g).map fun a => a.listing (body.newLabels (count + 1)) := by
  have hlabel : body.newLabel.1 = startLabel body := rfl
  have hslots : (labelledStates body states count).slots = states.slots := rfl
  simp only [assemble, labelAll_fresh hfresh, Listing.refs_newLabels, hlabel, hslots]
  generalize Listing.feed _ _ body.refs = x
  obtain ⟨a, _ | e⟩ := x <;> rfl

/-- An assembly fails at a node, or for states that are left over, or has woven all nodes. -/
theorem assemble_cases (hlax : g.settings.strictClose = false) (hl : body.WellFormed)
    (hh : body.FlowHeights H.at?) {count : Nat}
    (hfresh : states.labels = Array.replicate count none)
    (hleft : states.remaining = count) (hroom : body.refs.countP (g.suspendsAt body H) ≤ count) :
    (∃ r ∈ body.refs, ∃ f, Assembly.Fails g body H r f ∧
      (g.assemble H body states).woven = .error (f.map (Fault.inMethod g.key))) ∨
    (body.refs.countP (g.suspendsAt body H) < count ∧ (g.assemble H body states).woven =
      .error (g.leftOver (count - body.refs.countP (g.suspendsAt body H)) count)) ∨
    (body.refs.countP (g.suspendsAt body H) = count ∧ (∀ r ∈ body.refs, ∀ f, ¬body.Sinks H r f) ∧
      ∃ woven, (g.assemble H body states).woven = .ok woven) := by
  have hcount : (labelledStates body states count).count = count := by
    simp [labelledStates, States.count, resumeLabels]
  -- the head is woven, no node yet, and all states are left
  have hstart : Assembly.Follows g body H (labelledStates body states count)
      (g.head states.slots (startLabel body) (resumeLabels body count)) [] body.refs.head?
      { buffer := { sink := (g.head states.slots (startLabel body)
          (resumeLabels body count)).reverse }
        states := labelledStates body states count } := by
    refine ⟨⟨?_, ?_, rfl, by simp, by simp⟩, fun k => ?_, by simp⟩
    · simp [Assembly.passed, Buffer.waiting, wovenNodes]
    · rw [hcount]
      simpa [labelledStates] using hleft
    · constructor
      · rintro ⟨⟩
      · rintro ⟨as, o, bs, heq, -⟩
        simp at heq
  rw [woven_assemble_eq hfresh]
  rcases Assembly.feed_follows hlax hl hh
      (fun id h1 hle => label?_labelledStates h1 (hcount ▸ hle)) (hcount.symm ▸ hroom)
      (Listing.insn?_newLabels body (count + 1)) (List.nil_append _).symm hstart with
    ⟨a, f, hfeed, r, hr, hfails⟩ | ⟨a, hfeed, hend⟩
  · rw [hfeed]
    exact .inl ⟨r, hr, f, hfails, rfl⟩
  · rw [hfeed]
    refine .inr ?_
    obtain ⟨a', hfinish⟩ := finish_eq hlax a
    have hused := hend.left_eq
    rw [hcount] at hused
    have hall : a.states.count = count := by
      rw [hend.states_eq]
      exact hcount
    dsimp only
    rw [hfinish, hall]
    by_cases hsome : 0 < a.states.remaining
    · refine .inl ⟨by omega, ?_⟩
      rw [if_pos hsome]
      have hrest : count - body.refs.countP (g.suspendsAt body H) = a.states.remaining := by omega
      rw [hrest]
      rfl
    · rw [if_neg hsome]
      exact .inr ⟨by omega, hend.clear, _, rfl⟩

/-- A call that fails its check does not leave the stack empty. -/
theorem not_isStatement_of_check {r : Ref} {i : Insn} {n : Nat} {f : Failure}
    (hi : body.insn? r = some i) (hn : H.at? r = some n)
    (hcheck : Assembly.checkStatement g i n = .error f) : ¬g.IsStatement body H r := by
  intro hstatement
  unfold Assembly.checkStatement at hcheck
  by_cases hrole : g.role i = .plain
  · rw [if_pos hrole] at hcheck
    cases hcheck
  · obtain ⟨e, he, hnet⟩ := hstatement n i hn hi hrole
    have hzero : (n : Int) + e.change = 0 := by
      rw [Effect.change]
      omega
    rw [if_neg hrole, Insn.change, he] at hcheck
    change (if _ then _ else _) = _ at hcheck
    rw [if_neg (by simpa using hzero)] at hcheck
    cases hcheck

/-- Whether the node is a yield call. -/
def yieldsAt (g : Generator) (body : Listing) (r : Ref) : Bool :=
  (body.insn? r).any fun i => g.role i = .yields

theorem role_eq_yields_iff (g : Generator) (i : Insn) :
    g.role i = .yields ↔ g.settings.yieldSite.isCall i = true := by
  rw [role]
  split
  · next hcall => simp [hcall]
  · next hcall => split <;> simp [hcall]

theorem yieldCount_eq (g : Generator) (body : Listing) :
    body.yieldCount g.settings = body.refs.countP (g.yieldsAt body) := by
  rw [Listing.yieldCount, Listing.insns, List.countP_filterMap]
  refine List.countP_congr fun r _ => ?_
  cases hi : body.insn? r <;> simp [yieldsAt, hi, role_eq_yields_iff]

/-- Every yield call is reached if as many are reached as there are. -/
theorem countP_suspendsAt (g : Generator) (body : Listing) (H : Heights) :
    body.refs.countP (g.suspendsAt body H) ≤ body.yieldCount g.settings ∧
    (body.refs.countP (g.suspendsAt body H) = body.yieldCount g.settings ↔
      ∀ r ∈ body.refs, g.yieldsAt body r = true → H.at? r ≠ none) := by
  have hsome : ∀ r, g.suspendsAt body H r = true ↔ H.at? r ≠ none ∧ g.yieldsAt body r = true := by
    intro r
    rw [suspendsAt, yieldsAt, Bool.and_eq_true, Option.isSome_iff_ne_none]
  have hle : ∀ rs : List Ref, rs.countP (g.suspendsAt body H) ≤ rs.countP (g.yieldsAt body) :=
    fun rs =>
    List.countP_mono_left fun r _ h => ((hsome r).mp h).2
  rw [yieldCount_eq]
  refine ⟨hle _, fun heq r hr hyields hnone => ?_, fun hall => List.countP_congr fun r hr => ?_⟩
  · obtain ⟨xs, ys, hrefs⟩ := List.append_of_mem hr
    have hnot : ¬g.suspendsAt body H r = true := fun h => ((hsome r).mp h).1 hnone
    rw [hrefs, List.countP_append, List.countP_append, List.countP_cons_of_neg hnot,
      List.countP_cons_of_pos hyields] at heq
    have hfront := hle xs
    have hback := hle ys
    omega
  · rw [hsome]
    exact ⟨And.right, fun h => ⟨hall r hr h, h⟩⟩

/-- **Why a body cannot be made resumable.** A body with heights, and the states that are discovered
in it, can be built unless a yield or break call that control reaches does not leave the stack
empty, or control does not reach some yield call, or an instruction sinks. The fault says which: it
is that of the call, the number of the states that are left over, or what the instruction that sinks
lacks. So nothing that waits is ever lost, and nothing goes into a region that may not wait. What
sinks is dead code that may wait, behind a table switch. -/
theorem build_fails_iff (hb : body.Built) (hshape : ∀ i ∈ body.insns, i.WellShaped)
    (hH : body.heights = .ok H) (hlax : g.settings.strictClose = false)
    (hd : discover g.settings body method desc = .ok states) :
    ((∃ f, (g.build body states).woven = .error f) ↔
      (∃ r ∈ body.refs, ¬g.IsStatement body H r) ∨
      (∃ r ∈ body.refs, g.yieldsAt body r = true ∧ H.at? r = none) ∨
      ∃ r ∈ body.refs, ∃ f, body.Sinks H r f) ∧
    (∀ f, (g.build body states).woven = .error f →
      (∃ r ∈ body.refs, ∃ i n e, body.insn? r = some i ∧ H.at? r = some n ∧
        Assembly.checkStatement g i n = .error e ∧ f = e.map (Fault.inMethod g.key)) ∨
      (∃ left, 0 < left ∧ f = g.leftOver left (body.yieldCount g.settings)) ∨
      ∃ r ∈ body.refs, ∃ e, body.Sinks H r e ∧ f = e.map (Fault.inMethod g.key)) ∧
    ∀ r f, body.Sinks H r f → ∃ as q bs ys i, body.refs = as ++ q :: (bs ++ r :: ys) ∧
      body.insn? q = some i ∧ i.opcode = .tableSwitch ∧ (∃ n, H.at? q = some n) ∧
      ∀ t ∈ bs ++ [r], H.at? t = none ∧ ∃ j, body.insn? t = some j ∧ j.isAdmissible = true := by
  have hl := hb.wellFormed
  have hh := flowHeights_heights hl hshape hH
  obtain ⟨hfresh, hleft⟩ := fresh_of_discover hd
  obtain ⟨hroom, hall⟩ := countP_suspendsAt g body H
  have hbuild : g.build body states = g.assemble H body states := by rw [build, hH]
  rw [hbuild]
  have hcases := assemble_cases hlax hl hh hfresh hleft hroom
  refine ⟨⟨?_, ?_⟩, fun f hf => ?_, fun r f hs => hs.behind_tableSwitch hl hh⟩
  · rintro ⟨f, hf⟩
    rcases hcases with ⟨r, hr, e, ⟨i, n, hi, hn, hcheck⟩ | hs, -⟩ | ⟨hlt, -⟩ | ⟨-, -, woven, hok⟩
    · exact .inl ⟨r, hr, not_isStatement_of_check hi hn hcheck⟩
    · exact .inr (.inr ⟨r, hr, e, hs⟩)
    · refine .inr (.inl ?_)
      by_contra hno
      refine hlt.ne (hall.mpr fun r hr hyields hnone => hno ⟨r, hr, hyields, hnone⟩)
    · rw [hok] at hf
      cases hf
  · intro hbad
    rcases hcases with ⟨r, hr, e, -, hwoven⟩ | ⟨-, hwoven⟩ | ⟨heq, hclear, ⟨woven, resumes⟩, hok⟩
    · exact ⟨_, hwoven⟩
    · exact ⟨_, hwoven⟩
    · -- nothing of the kind is in a body that is built
      obtain ⟨-, -, hstatements⟩ := woven_assemble hl hh hfresh hleft hok
      rcases hbad with ⟨r, hr, hno⟩ | ⟨r, hr, hyields, hnone⟩ | ⟨r, hr, f, hs⟩
      · exact absurd (hstatements r hr) hno
      · exact absurd hnone (hall.mp heq r hr hyields)
      · exact absurd hs (hclear r hr f)
  · rcases hcases with ⟨r, hr, e, ⟨i, n, hi, hn, hcheck⟩ | hs, hwoven⟩ | ⟨hlt, hwoven⟩ |
      ⟨-, -, w, hok⟩
    · exact .inl ⟨r, hr, i, n, e, hi, hn, hcheck, Except.error.inj (hf.symm.trans hwoven)⟩
    · exact .inr (.inr ⟨r, hr, e, hs, Except.error.inj (hf.symm.trans hwoven)⟩)
    · exact .inr (.inl ⟨_, Nat.sub_pos_of_lt hlt, Except.error.inj (hf.symm.trans hwoven)⟩)
    · rw [hok] at hf
      cases hf

/-- Chooses between two places that are the same, with a `pop` in between that nothing reaches. -/
def switching : Listing :=
  Listing.ofInsns 1 [.plain .iconst0, .table 1 0 [0], .plain .pop, .place 0, .plain .iconst0,
    .plain .ireturn]

theorem build_fails_switching : ∃ (g : Generator) (H : Heights) (states : States), switching.Built ∧
    (∀ i ∈ switching.insns, i.WellShaped) ∧ switching.heights = .ok H ∧
    g.settings.strictClose = false ∧ discover g.settings switching "next" "()Z" = .ok states ∧
    (∃ f, switching.Sinks H 2 f) ∧ ∃ f, (g.build switching states).woven = .error f := by
  have hb : switching.Built := .ofInsns _ _
  have hshape : ∀ i ∈ switching.insns, i.WellShaped := by decide +kernel
  have hd : discover {} switching "next" "()Z" = .ok ⟨#[], 0, []⟩ := by rfl
  have hheights : switching.heights.toOption.map (fun H => switching.refs.map H.at?) =
      some [some 0, some 1, none, some 0, some 0, some 1] := by decide +kernel
  obtain ⟨H, hH, hat⟩ := Option.map_eq_some_iff.mp hheights
  have hrefs : switching.refs = [0, 1, 2, 3, 4, 5] := by decide +kernel
  rw [hrefs] at hat
  simp only [List.map_cons, List.map_nil, List.cons.injEq, and_true] at hat
  -- the region stands at zero in front of the `pop`
  obtain ⟨f, hf⟩ : ∃ f, Insn.shortfall? (.plain .pop) (switching.rise [0, 1]) = some f :=
    Option.isSome_iff_exists.mp (by decide +kernel)
  have hstanding : switching.Standing H [0, 1] (switching.rise [0, 1]) := by
    refine ⟨[], 0, [1], rfl, hat.1, fun q hq => ?_, rfl⟩
    simp only [List.mem_cons, List.not_mem_nil, or_false] at hq
    rcases hq with rfl | rfl <;> exact ⟨_, rfl, by decide⟩
  have hsinks : switching.Sinks H 2 f :=
    ⟨[0, 1], [3, 4, 5], _, .plain .pop, hrefs, hstanding, hat.2.2.1, rfl, by decide, hf⟩
  have hmem : 2 ∈ switching.refs := by rw [hrefs]; decide
  obtain ⟨hfails, -, -⟩ := build_fails_iff (g := ⟨{}, "Seq", "next", "()Z", 1⟩) hb hshape
    (Outcome.eq_ok_of_toOption hH) rfl hd
  exact ⟨⟨{}, "Seq", "next", "()Z", 1⟩, H, ⟨#[], 0, []⟩, hb, hshape,
    Outcome.eq_ok_of_toOption hH, rfl,
    hd, ⟨f, hsinks⟩, hfails.mpr (.inr (.inr ⟨2, hmem, f, hsinks⟩))⟩

/-- There is no yield or break call in this body, its heights are consistent, and its states are
those that are discovered. Still it cannot be built: the `pop` that nothing reaches goes into the
region that the switch waits in. -/
theorem switching_astray : ∃ (g : Generator) (H : Heights) (states : States), switching.Built ∧
    (∀ i ∈ switching.insns, i.WellShaped) ∧ switching.heights = .ok H ∧
    create {} "Seq" "next" "()Z" = .ok g ∧ g.settings.strictClose = false ∧
    discover g.settings switching "next" "()Z" = .ok states ∧
    (∀ r ∈ switching.refs, g.IsStatement switching H r) ∧
    (∀ r ∈ switching.refs, g.yieldsAt switching r = false) ∧
    ∃ f, (g.build switching states).woven = .error f := by
  obtain ⟨H, hH⟩ : ∃ H, switching.heights.toOption = some H :=
    Option.isSome_iff_exists.mp (by decide +kernel)
  have hplain : ∀ r ∈ switching.refs, ∀ i, switching.insn? r = some i →
      role ⟨{}, "Seq", "next", "()Z", 1⟩ i = .plain := by
    have hall : ∀ i ∈ switching.insns, role ⟨{}, "Seq", "next", "()Z", 1⟩ i = .plain := by
      decide +kernel
    exact fun r hr i hi => hall i (List.mem_filterMap.mpr ⟨r, hr, hi⟩)
  refine ⟨⟨{}, "Seq", "next", "()Z", 1⟩, H, ⟨#[], 0, []⟩, .ofInsns _ _, by decide +kernel,
    Outcome.eq_ok_of_toOption hH, by rfl, rfl, by rfl, fun r hr n i _ hi hrole => ?_,
    fun r hr => ?_, ?_⟩
  · exact absurd (hplain r hr i hi) hrole
  · cases hi : switching.insn? r with
    | none => simp [yieldsAt, hi]
    | some i => simp [yieldsAt, hi, hplain r hr i hi]
  · have hnone : (build ⟨{}, "Seq", "next", "()Z", 1⟩ switching
      ⟨#[], 0, []⟩).woven.toOption.isNone := by
      decide +kernel
    cases hw : (build ⟨{}, "Seq", "next", "()Z", 1⟩ switching ⟨#[], 0, []⟩).woven with
    | error f => exact ⟨f, rfl⟩
    | ok w =>
      rw [hw] at hnone
      cases hnone

end Generator

end ClassWeaver
