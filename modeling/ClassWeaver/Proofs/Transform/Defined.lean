import ClassWeaver.Proofs.Codec.Transformed
import ClassWeaver.Proofs.Enhance.Arrays

/-!
# Weaving is defined

Nothing that weaving does to a body of regular instructions is undefined: every node it looks at is
part of a sequence, every entry has the operand that its opcode calls for, and every instruction
that a fault is about can be named. So a method is woven or it fails with a fault
(`gives_weaveMethod`), if the rules that are to run are defined as well, keep instructions regular
and come to an end (`Settings.Regular`), as the standard rules do. Each operation has a lemma of its
own, which says what it keeps. -/

namespace ClassWeaver

open Listing

variable {l : Listing} {r : Ref} {i : Insn}

/-! ### Stack heights -/

namespace Flow

variable {s : Flow}

/-- The nodes that wait are part of the sequence. -/
def Inside (l : Listing) (s : Flow) : Prop := ∀ r ∈ s.work, r ∈ l.refs

theorem gives_reach (hl : l.Regular) {source : Insn} (hi : source.Printable)
    {target : Option Ref} (ht : ∀ r, target = some r → r ∈ l.refs) (height : Nat)
    (hs : s.Inside l) : (s.reach l source target height).Gives (Inside l) := by
  unfold reach
  split
  · exact hi.blame ..
  · next r =>
    split
    · exact .ite (fun _ => hs) fun _ => (hl.fetch (ht r rfl)).bind fun j _ hj =>
        hj.printable.blame ..
    · exact List.forall_mem_cons.mpr ⟨ht r rfl, hs⟩

theorem gives_target (hl : l.Regular) (hi : i.Printable) (lbl : Label) :
    (target l i lbl).Gives (· ∈ l.refs) := by
  unfold target
  split
  · next r hr => exact (hl.wellFormed.labelled.sound hr).1
  · exact hi.blame ..

theorem gives_follow (hl : l.Regular) (hi : i.Printable) (hr : r ∈ l.refs)
    {exits : List (Exit × Nat)} (hs : s.Inside l) : (follow l r i exits s).Gives (Inside l) := by
  induction exits generalizing s with
  | nil => exact hs
  | cons x exits ih =>
    obtain ⟨exit, height⟩ := x
    cases exit with
    | branch lbl =>
      refine (gives_target hl hi lbl).bind fun t _ ht => ?_
      exact (gives_reach hl hi (fun q hq => Option.some.inj hq ▸ ht) height hs).bind
        fun s' _ hs' => ih hs'
    | fall =>
      exact (gives_reach hl hi (fun q hq => hl.wellFormed.mem_refs_of_next hr hq) height hs).bind
        fun s' _ hs' => ih hs'

theorem gives_step (hl : l.Regular) (hr : r ∈ l.refs) (height : Nat) (hs : s.Inside l) :
    (step l r height s).Gives (Inside l) := by
  refine (hl.fetch hr).bind fun i _ hi => ?_
  split
  · exact .ite (fun _ => hi.printable.blame ..) fun _ => hs
  · exact hi.printable.effect.bind fun e _ _ => .ite (fun _ => hi.printable.blame ..) fun _ =>
      gives_follow hl hi.printable hr hs

theorem gives_run (hl : l.Regular) {fuel : Nat} (hs : s.Inside l) :
    (run l fuel s).Gives (Inside l) := by
  induction fuel generalizing s with
  | zero => exact hs
  | succ fuel ih =>
    rw [run]
    split
    · exact hs
    · next r rest hwork =>
      rw [Inside, hwork, List.forall_mem_cons] at hs
      have hrest : Inside l { s with work := rest } := hs.2
      exact (gives_step hl hs.1 _ hrest).bind fun s' _ hs' => ih hs'

theorem gives_enterHandlers (hl : l.Regular) {is : List Insn} (his : ∀ i ∈ is, i.Regular)
    (hs : s.Inside l) : (enterHandlers l is s).Gives (Inside l) := by
  induction is generalizing s with
  | nil => exact hs
  | cons i is ih =>
    rw [List.forall_mem_cons] at his
    rw [enterHandlers]
    refine .ite (fun hop => ?_) fun _ => ih his.2 hs
    split
    · refine (gives_target hl his.1.printable _).bind fun t _ ht => ?_
      exact (gives_reach hl his.1.printable (fun q hq => Option.some.inj hq ▸ ht) 1 hs).bind
        fun s' _ hs' => ih his.2 hs'
    · next hother =>
      have hshape : i.operand.shape = .tryCatch := by
        rw [his.1.wellShaped.shape_operand (by rw [hop]; decide), hop]
        rfl
      obtain ⟨op, x⟩ := i
      cases x with
      | tryCatch start stop handler caught => exact absurd rfl (hother start stop handler caught)
      | _ => cases hshape

end Flow

theorem Listing.Regular.heights (hl : l.Regular) : l.heights.Gives fun _ => True := by
  unfold Listing.heights
  dsimp only
  split
  · trivial
  · next head hhead =>
    have hmem : head ∈ l.refs := List.mem_of_head? (hl.wellFormed.spells.first_eq ▸ hhead)
    have hstart : ∀ H : Heights, Flow.Inside l { heights := H, work := [head] } := fun H =>
      List.forall_mem_singleton.mpr hmem
    exact (Flow.gives_enterHandlers hl hl.entries (hstart _)).bind fun s _ hs =>
      (Flow.gives_run hl hs).bind fun _ _ _ => trivial

theorem Listing.Regular.resolve (hl : l.Regular) : l.resolve.Gives fun _ => True := by
  have hplacements : l.checkPlacements.Gives fun _ => True := by
    unfold checkPlacements
    split <;> trivial
  refine hplacements.bind fun _ _ _ => ?_
  unfold checkReferences
  split
  · next i lbl hi =>
    obtain ⟨j, hj, hdangling⟩ := List.exists_of_findSome?_eq_some hi
    obtain ⟨k, -, heq⟩ := Option.map_eq_some_iff.mp hdangling
    obtain ⟨rfl, -⟩ := Prod.mk.inj heq
    exact (hl.entries j hj).printable.blame ..
  · trivial

/-! ### What a generator needs -/

theorem Survey.gives_visit (site : CallSite) (s : Survey) (hi : i.Regular) :
    (visit site s i).Gives fun _ => True := by
  unfold visit
  refine .ite (fun _ => trivial) fun _ => .ite (fun hop => ?_) fun _ => ?_
  · split
    · trivial
    · next hother =>
      have hshape : i.operand.shape = .localVariable := by
        rw [hi.wellShaped.shape_operand (by rw [hop]; decide), hop]
        rfl
      obtain ⟨op, x⟩ := i
      cases x with
      | localVariable name desc start stop index =>
        exact absurd rfl (hother name desc start stop index)
      | _ => cases hshape
  · split
    · trivial
    · refine .ite (fun _ => trivial) fun _ => ?_
      obtain ⟨t, ht⟩ := hi.printable
      unfold write
      split
      · trivial
      · rw [ht]
        exact .ite (fun _ => trivial) fun _ => trivial

theorem gives_discover (hl : l.Regular) (settings : Settings) (method desc : Text) :
    (discover settings l method desc).Gives fun _ => True := by
  unfold discover
  split
  · trivial
  · refine (Outcome.Gives.foldlM (fun s i hi _ => Survey.gives_visit _ s (hl.entries i hi))
      trivial).bind fun s _ _ => ?_
    split
    · exact .ite (fun _ => trivial) fun _ => trivial
    · trivial

/-! ### Assembling -/

namespace Assembly

variable {g : Generator} {a : Assembly}

/-- Every state that is left has its label. -/
def Ready (a : Assembly) : Prop :=
  ∀ id, 1 ≤ id → id ≤ a.states.remaining → ∃ k, a.states.label? id = some k

theorem gives_close (ha : a.Ready) : (a.close g).Gives Ready := by
  unfold close
  rw [emitAll_output]
  refine Outcome.Gives.bind (P := Ready) ha fun a' _ ha' => ?_
  have hbuffer : ∀ b : Buffer (List Insn),
      Outcome.Gives (b.close (discipline g)) fun _ => True := by
    intro b
    unfold Buffer.close
    split
    · trivial
    · exact .ite (fun _ => trivial) fun _ => .ite (fun _ => trivial) fun _ => trivial
  exact (hbuffer _).bind fun _ _ _ => ha'

theorem gives_visitBuffer (hi : i.Printable) (ha : a.Ready) :
    (a.settle (a.buffer.visit (discipline g) i)).Gives Ready := by
  have hqueue : ∀ reg : Region, Outcome.Gives (a.buffer.enqueue reg i) fun _ => True := by
    intro reg
    unfold Buffer.enqueue
    exact .ite (fun _ => hi.effect.bind fun _ _ _ => .ite (fun _ => hi.blame ..) fun _ => trivial)
      fun _ => hi.blame ..
  unfold Buffer.visit
  split
  · exact ha
  · next reg _ =>
    split
    · next e he => exact (hqueue reg).error he
    · split
      · change (a.settle (Buffer.emitAll output _)).Gives Ready
        rw [emitAll_output]
        exact ha
      · exact ha

theorem gives_checkStatement (hi : i.Printable) (height : Nat) :
    (checkStatement g i height).Gives fun _ => True := by
  unfold checkStatement
  refine .ite (fun _ => trivial) fun _ => hi.change.bind fun _ _ _ => .ite (fun _ => hi.blame ..)
    fun _ => trivial

theorem gives_suspend (ha : a.Ready) : (a.suspend g).Gives Ready := by
  unfold suspend
  refine .ite (fun _ => trivial) fun _ => ?_
  cases hleft : a.states.remaining with
  | zero =>
    rw [States.take, hleft]
    trivial
  | succ n =>
    obtain ⟨k, hk⟩ := ha (n + 1) (Nat.le_add_left ..) (Nat.le_of_eq hleft.symm)
    rw [States.take, hleft]
    dsimp only
    have hlabel : States.label? { a.states with remaining := n } (n + 1) = some k := hk
    rw [hlabel]
    intro id h1 hle
    have hmore : n ≤ a.states.remaining := by omega
    exact ha id h1 (Nat.le_trans hle hmore)

theorem gives_answer (ha : a.Ready) : (a.answer g i).Gives Ready := by
  unfold answer
  split
  · exact ha
  · exact gives_suspend ha
  · exact ha

theorem gives_step (hi : i.Printable) (height : Option Nat) (ha : a.Ready) :
    (a.step g i height).Gives Ready := by
  unfold step
  cases height with
  | none =>
    exact .ite (fun _ => (gives_close ha).bind fun _ _ hclosed => gives_visitBuffer hi hclosed)
      fun _ => gives_visitBuffer hi ha
  | some h =>
    have hrest : ∀ {a : Assembly}, a.Ready → Outcome.Gives (do
        checkStatement g i h
        let a ← (a.openAt i (some h)).settle ((a.openAt i (some h)).buffer.visit (discipline g) i)
        a.answer g i) Ready := by
      intro a ha
      have hopen : (a.openAt i (some h)).Ready := by
        unfold openAt
        split <;> exact ha
      exact (gives_checkStatement hi h).bind fun _ _ _ =>
        (gives_visitBuffer hi hopen).bind fun a₁ _ ha₁ => gives_answer ha₁
    exact .ite (fun _ => (gives_close ha).bind fun _ _ hclosed => hrest hclosed) fun _ => hrest ha

theorem gives_finish (ha : a.Ready) : (a.finish g).Gives fun _ => True :=
  ((gives_close ha).inMethod _).bind fun _ _ _ => .ite (fun _ => trivial) fun _ => trivial

end Assembly

/-- A consumer that is defined on everything it is fed fails with a fault. -/
theorem Listing.feed_defined {α σ : Type} {visit : σ → α → Outcome σ} {P : σ → Prop} {as : List α}
    (h : ∀ s, ∀ a ∈ as, P s → (visit s a).Gives P) {s s' : σ} {e : Option Failure} (hs : P s)
    (hfeed : feed visit s as = (s', e)) : P s' ∧ e ≠ some .undefined := by
  induction as generalizing s with
  | nil =>
    obtain ⟨rfl, rfl⟩ := Prod.mk.inj hfeed
    exact ⟨hs, nofun⟩
  | cons a as ih =>
    have hfirst := h s a List.mem_cons_self hs
    rw [feed] at hfeed
    split at hfeed
    · next s₁ h₁ =>
      exact ih (fun s a ha => h s a (List.mem_cons_of_mem _ ha)) (hfirst.result h₁) hfeed
    · next f hf =>
      obtain ⟨rfl, rfl⟩ := Prod.mk.inj hfeed
      refine ⟨hs, fun heq => ?_⟩
      rw [hf, Option.some.inj heq] at hfirst
      exact hfirst

namespace Generator

variable {g : Generator} {body : Listing} {H : Heights} {states : States} {count : Nat}

theorem gives_assemble (hbody : body.Regular)
    (hfresh : states.labels = Array.replicate count none) (hleft : states.remaining = count) :
    (g.assemble H body states).woven.Gives fun _ => True := by
  simp only [assemble, labelAll_fresh hfresh]
  have hready : Assembly.Ready
      { buffer := { sink := (g.head states.slots body.newLabel.1
          (resumeLabels body count)).reverse }
        states := labelledStates body states count } := fun id h1 hle =>
    ⟨_, label?_labelledStates h1 (hleft ▸ hle)⟩
  have hvisit : ∀ a, ∀ r ∈ (body.newLabels (count + 1)).refs, Assembly.Ready a →
      (Assembly.visit g (body.newLabels (count + 1)) H a r).Gives Assembly.Ready := by
    intro a r hr ha
    rw [refs_newLabels] at hr
    refine Outcome.Gives.bind (P := Insn.Regular) ?_ fun i _ hi =>
      Assembly.gives_step hi.printable _ ha
    rw [fetch, insn?_newLabels]
    exact hbody.fetch hr
  split
  · next a e hfeed =>
    cases e with
    | fault f => trivial
    | undefined => exact absurd rfl (feed_defined hvisit hready hfeed).2
  · next a hfeed =>
    exact (Assembly.gives_finish (feed_defined hvisit hready hfeed).1).map fun _ _ => trivial

theorem gives_build (hbody : body.Regular)
    (hfresh : states.labels = Array.replicate count none) (hleft : states.remaining = count) :
    (g.build body states).woven.Gives fun _ => True := by
  unfold build
  split
  · next e he => exact (hbody.heights.error he).mapFault _
  · exact gives_assemble hbody hfresh hleft

end Generator

/-! ### Rules -/

/-- The rule is defined wherever it applies to a listing with the property. -/
def Rule.Defined (rule : Rule) (P : Listing → Prop) : Prop :=
  ∀ ctx l r i, P l → r ∈ l.refs → l.insn? r = some i → rule.applies i = true →
    (rule.replace ctx l r).2.Gives fun _ => True

namespace Chain

variable {chain : Chain} {ctx : Context}

theorem gives_visit (hchain : ∀ rule ∈ chain, rule.Defined (Listing.Regular))
    (hl : l.Regular) (hr : r ∈ l.refs) :
    Outcome.Gives (chain.visit ctx l r).2 fun _ => True := by
  obtain ⟨i, hi⟩ := hl.wellFormed.spells.exists_insn hr
  have hprintable := (hl.entries i (List.mem_filterMap.mpr ⟨r, hr, hi⟩)).printable
  unfold visit
  rw [hi]
  dsimp only
  split
  · trivial
  · next rule hrule =>
    have happlies := List.find?_some hrule
    have hdefined := hchain rule (List.mem_of_find?_eq_some hrule) ctx l r i hl hr hi happlies
    split
    · next e he => exact (hdefined.error (congrArg Prod.snd he)).mapFault _
    · trivial
    · next l' resume _ =>
      split
      · trivial
      · exact (hprintable.blame (P := fun _ : Option Ref => True) ..).mapFault _

/-- A scan that comes to an end has no undefined one. -/
theorem Ends.gives (hkeeps : ∀ rule ∈ chain, rule.Keeps (Listing.Regular))
    (hchain : ∀ rule ∈ chain, rule.Defined (Listing.Regular)) {next : Option Ref}
    {out : Listing × Except Failure Unit} (h : chain.Ends ctx next l out) (hl : l.Regular)
    (hnext : ∀ r, next = some r → r ∈ l.refs) : Outcome.Gives out.2 fun _ => True := by
  induction h with
  | done => trivial
  | fails hvisit =>
    exact (gives_visit hchain hl (hnext _ rfl)).error (congrArg Prod.snd hvisit)
  | visit hvisit _ ih =>
    obtain ⟨hl₁, hresume⟩ := visit_keeps (fun l hl => hl.wellFormed) hkeeps hl (hnext _ rfl) hvisit
    exact ih hl₁ fun q hq => hl₁.wellFormed.mem_refs_of_resume hresume hq

/-- The standard rules are defined. -/
theorem standard_defined : ∀ rule ∈ Chain.standard, rule.Defined Listing.Regular := by
  intro rule hrule ctx l r i hl hr hi happlies
  rcases standard_cases hrule ctx hi happlies with ⟨arrange, onBoolean, onByte, hreplace, -⟩ |
    ⟨desc, hreplace⟩
  · rw [hreplace]
    trivial
  · rw [hreplace]
    unfold Enhance.narrow
    split
    · next e he => exact (Enhance.gives_producer? hl ctx.boundary hr).error he
    · trivial
    · dsimp only
      split <;> trivial

end Chain

/-- The rules that are to run are defined on regular instructions and keep them regular, and a
scan with them comes to an end in time. -/
structure Settings.Regular (settings : Settings) : Prop where
  keeps : ∀ rule ∈ settings.chain, rule.Keeps Listing.Regular
  defined : ∀ rule ∈ settings.chain, rule.Defined Listing.Regular
  ends : ∀ ctx l, l.Regular →
    ∃ out, settings.chain.scan ctx (Chain.patience + l.length) l.first l = some out

theorem Settings.regular_of_standard {settings : Settings} (h : settings.enhancers = none) :
    settings.Regular := by
  have hchain : settings.chain = Chain.standard := by rw [chain, h]; rfl
  refine ⟨hchain ▸ Chain.standard_keeps_regular, hchain ▸ Chain.standard_defined, ?_⟩
  intro ctx l hl
  rw [hchain]
  exact ⟨_, (Chain.standard_advances ctx).scan_eq_run hl.wellFormed.spells⟩

/-- A run of rules that come to an end is defined. -/
theorem Settings.Regular.gives_run {settings : Settings} (h : settings.Regular) (ctx : Context)
    (hl : l.Regular) : Outcome.Gives (settings.chain.run ctx l).2 fun _ => True := by
  obtain ⟨out, hscan⟩ := h.ends ctx l hl
  rw [Chain.run, hscan, Option.getD_some]
  exact (Chain.ends_of_scan hscan).gives h.keeps h.defined hl fun _ hr =>
    List.mem_of_head? (hl.wellFormed.spells.first_eq ▸ hr)

/-! ### Methods -/

variable {settings : Settings} {body : Listing} {states : States}

theorem Listing.Regular.checkWoven (hl : l.Regular) (key : Text) (states : States) :
    (checkWoven key states l).Gives fun _ => True := by
  refine (hl.heights.bind fun H _ _ => hl.resolve.bind fun _ _ _ => ?_).inMethod _
  split <;> trivial

theorem gives_wovenCode (hsettings : settings.Regular) {owner : Text} {m : Method}
    (hbody : body.Regular) (hd : discover settings body m.name m.desc = .ok states) :
    (wovenCode settings owner m body states).Gives fun _ => True := by
  unfold wovenCode
  split
  · trivial
  · next g hg =>
    obtain ⟨hfresh, hleft⟩ := fresh_of_discover hd
    refine (Generator.gives_build hbody hfresh hleft).bind fun out hbuild _ => ?_
    have hbuilt : out.1.Regular := Generator.regular_build hbody hd hbuild
    dsimp only
    split
    · next l e hrun =>
      exact (hsettings.gives_run _ hbuilt).error (congrArg Prod.snd hrun)
    · next l hrun =>
      have hl := Chain.run_keeps (fun l hl => hl.wellFormed) hsettings.keeps hbuilt hrun
      exact (hl.checkWoven ..).bind fun _ _ _ => trivial

/-- The instructions of the method are regular, if it has any. -/
def Method.Regular (m : Method) : Prop := ∀ l, m.code = some l → l.Regular

/-- The instructions of all methods are regular. -/
def ClassFile.Regular (c : ClassFile) : Prop := ∀ m ∈ c.methods, m.Regular

/-- What is woven of regular instructions is regular. -/
theorem regular_weaveMethod {c : ClassFile} {m m' : Method} {w : Woven}
    (hsettings : settings.Regular) (hm : m.Regular) (h : weaveMethod settings c m = .ok (w, m')) :
    m'.Regular := by
  obtain ⟨body, states, hgenerates, -, -, -, hcases⟩ := weaveMethod_cases h
  rcases hcases with ⟨-, rfl⟩ | ⟨code, heights, maxStack, hreplaces, rfl⟩
  · exact hm
  · intro l hl
    obtain rfl := Option.some.inj hl
    exact wovenCode_keeps (fun l hl => hl.wellFormed) hsettings.keeps
      (fun g out => Generator.regular_build (hm body hgenerates.code) hgenerates.discovered)
      hreplaces.code

/-- **A method is woven or fails with a fault.** -/
theorem gives_weaveMethod (hsettings : settings.Regular) (c : ClassFile) {m : Method}
    (hm : m.Regular) : (weaveMethod settings c m).Gives fun _ => True := by
  -- one stage after the other: the code is found, surveyed, checked, and woven
  have hcode : m.generatorCode.Gives fun body => body.Regular := by
    unfold Method.generatorCode
    split
    · trivial
    · next l hl =>
      refine .ite (fun _ => trivial) fun _ => ?_
      split
      · trivial
      · exact .ite (fun _ => hm l hl) fun _ => trivial
  refine (hcode.inMethod _).bind fun body _ hbody => ?_
  have hsub : body.checkSubroutines.Gives fun _ => True := by
    unfold checkSubroutines
    split <;> trivial
  refine (hsub.inMethod _).bind fun _ _ _ => ?_
  refine ((gives_discover hbody settings m.name m.desc).inMethod _).bind fun states hstates _ => ?_
  refine .ite (fun _ => trivial) fun _ => ?_
  have hlowering : (c.checkLowering m.key).Gives fun _ => True :=
    .ite (fun _ => trivial) fun _ => trivial
  refine hlowering.bind fun _ _ _ => ?_
  refine (gives_wovenCode hsettings hbody (Outcome.inMethod_eq_ok.mp hstates)).bind fun out _ _ =>
    ?_
  have hstack : (wovenStack m.key m.maxStack out.2).Gives fun _ => True :=
    .ite (fun _ => trivial) fun _ => trivial
  refine hstack.bind fun maxStack _ _ => ?_
  have hfields : ∀ fields, (c.checkFields m.key fields).Gives fun _ => True := by
    intro fields
    unfold ClassFile.checkFields
    split <;> trivial
  exact (hfields _).bind fun _ _ _ => trivial

end ClassWeaver
