import Mathlib.Algebra.Order.Ring.Int
import ClassWeaver.Proofs.Enhance.Scanning
import ClassWeaver.Proofs.Generator.Checks
import ClassWeaver.Proofs.Generator.Simulation

/-!
# Weaving keeps the meaning of a generator

A method that is woven successfully satisfies all that the simulation asks for, but for one
thing: nothing keeps the state and a captured local from being given the same field. Where the
names differ, calling the woven method again and again does what one run of its body does
(`weaveMethod_simulates`).
-/

namespace ClassWeaver

/-! ### Without rules -/

/-- Without rules a scan passes every node, and leaves the listing as it is. -/
theorem Chain.Ends.eq_of_nil {ctx : Context} {next : Option Ref} {l : Listing}
    {out : Listing × Except Failure Unit} (h : Chain.Ends [] ctx next l out) : out.1 = l := by
  induction h with
  | done => rfl
  | @fails r l l₁ e hvisit =>
    unfold Chain.visit at hvisit
    split at hvisit
    · exact (Prod.mk.inj hvisit).1.symm
    · cases hvisit
  | @visit r l l₁ resume out hvisit _ ih =>
    unfold Chain.visit at hvisit
    split at hvisit
    · cases hvisit
    · rw [ih, (Prod.mk.inj hvisit).1]

/-- Without rules the woven code stays as it was built. -/
theorem wovenCode_eq_ok {settings : Settings} {owner : Text} {m : Method} {body code : Listing}
    {states : States} {heights : Heights} (hchain : settings.enhancers = some [])
    (h : wovenCode settings owner m body states = .ok (code, heights)) :
    ∃ g resumes, Generator.create settings owner m.name m.desc = .ok g ∧
      (g.build body states).woven = .ok (code, resumes) ∧ code.resolve = .ok () := by
  unfold wovenCode at h
  split at h
  · cases h
  · next g hg =>
    obtain ⟨⟨built, resumes⟩, hbuild, h⟩ := Except.bind_eq_ok_iff.mp h
    rw [Settings.chain, hchain] at h
    dsimp only [Option.getD] at h
    split at h
    · cases h
    · next l hl =>
      obtain rfl : l = built := (Chain.ends_of_run hl).eq_of_nil
      obtain ⟨H, hcheck, h⟩ := Except.bind_eq_ok_iff.mp h
      obtain ⟨rfl, -⟩ := Prod.mk.inj (Except.ok.inj h)
      exact ⟨g, resumes, hg, hbuild, (checkWoven_eq_ok hcheck).2.1⟩

/-- What is known of a method that was woven. -/
theorem weaveMethod_eq_ok {settings : Settings} {c : ClassFile} {m m' : Method} {w : Woven}
    (hchain : settings.enhancers = some []) (h : weaveMethod settings c m = .ok (w, m'))
    (hstates : 0 < w.states) :
    ∃ body states g code resumes, m.code = some body ∧ body.checkSubroutines = .ok () ∧
      discover settings body m.name m.desc = .ok states ∧
      Generator.create settings c.name m.name m.desc = .ok g ∧
      (g.build body states).woven = .ok (code, resumes) ∧ code.resolve = .ok () ∧
      m'.code = some code ∧ w.slots = states.slots ∧ w.states = states.count ∧
      w.stateField = settings.stateFieldName m.name := by
  obtain ⟨body, states, hm, hslots, hcount, hfield, hcases⟩ := weaveMethod_cases h
  rcases hcases with ⟨hzero, -⟩ | ⟨code, heights, maxStack, hnew, rfl⟩
  · omega
  · obtain ⟨g, resumes, hg, hbuild, hres⟩ := wovenCode_eq_ok hchain hnew.code
    exact ⟨body, states, g, code, resumes, hm.code, hm.subroutines, hm.discovered, hg, hbuild,
      hres, rfl, hslots, hcount, hfield⟩

/-! ### The simulation -/

/-- The fields of a woven method as instructions name them. -/
def Woven.fieldKeys (w : Woven) (owner : Text) : List FieldKey :=
  w.fields.map fun f => (owner, f.name, f.desc)

/-- A method body as it can be woven: its instructions are in shape and its labels allocated,
and it leaves alone the receiver and the fields that weaving adds. Nodes are numbered by
signed words, so there are no more of them. -/
structure GeneratorBody (body : Listing) (added : List FieldKey) : Prop where
  built : body.Built
  shaped : ∀ i ∈ body.insns, i.WellShaped
  labels : ∀ i ∈ body.insns, ∀ lbl ∈ i.labels, lbl < body.numLabels
  size_lt : body.nodes.size < 2 ^ 31
  receiver : ∀ i ∈ body.insns, ¬i.overwrites 0
  oblivious : ∀ i ∈ body.insns, ∀ key, i.instanceField? = some key → key ∉ added

section Simulates

variable {settings : Settings} {c : ClassFile} {m m' : Method} {w : Woven} {body : Listing}
variable (hchain : settings.enhancers = some []) (h : weaveMethod settings c m = .ok (w, m'))
variable (hstates : 0 < w.states) (hcode : m.code = some body)
variable (hbody : GeneratorBody body (w.fieldKeys c.name))
variable (hfields : ∀ s ∈ w.slots, s.name ≠ w.stateField)

include hchain h hstates hcode hbody hfields

/-- Weaving establishes what the simulation asks for. -/
theorem weaves_of_weaveMethod :
    ∃ g H woven, Generator.create settings c.name m.name m.desc = .ok g ∧
      body.heights = .ok H ∧ m'.code = some woven ∧
      g.addedFields w.slots = w.fieldKeys c.name ∧ g.Weaves body woven H w.slots w.states := by
  obtain ⟨body', states, g, woven, resumes, hcode', hsub, hd, hg, hw, hres, hwoven, hslots,
    hcount, hstate⟩ := weaveMethod_eq_ok hchain h hstates
  obtain rfl := Option.some.inj (hcode.symm.trans hcode')
  obtain ⟨t, -, hg'⟩ := Generator.create_eq_ok hg
  obtain ⟨hfresh, hleft⟩ := fresh_of_discover hd
  obtain ⟨H, hH, hbuild⟩ := Generator.build_eq_ok hw
  have hwell := hbody.built.wellFormed
  have hheights := Listing.flowHeights_heights hwell hbody.shaped hH
  have hsize : w.states = body.yieldCount settings := by
    rw [hcount, States.count, hfresh, Array.size_replicate]
  rw [hbuild] at hw
  rw [← hsize] at hfresh hleft
  obtain ⟨rfl, hyields, hstatements⟩ := Generator.woven_assemble hwell hheights hfresh hleft hw
  have hadded : g.addedFields w.slots = w.fieldKeys c.name := by
    subst hg'
    simp [Generator.addedFields, Woven.fieldKeys, Woven.fields, Generator.stateKey,
      Generator.slotKey, Generator.stateField, hstate, Function.comp_def]
  -- there are no more states than nodes, so each fits a table switch
  have hlt : w.states < 2 ^ 31 := by
    have hle := hyields ▸ List.countP_le_length
    exact Nat.lt_of_le_of_lt (hle.trans hwell.spells.length_le) hbody.size_lt
  rw [← hslots] at hres hwoven
  refine ⟨g, H, _, hg, hH, hwoven, hadded, ?_⟩
  exact
    { wellFormed := hwell
      heights := hheights
      lists := Listing.Lists.appendAll_fork _ _
      resolves := hres
      labels := hbody.labels
      noSubroutine := by
        intro i hi
        have := Listing.isSubroutine_of_check hsub i hi
        simp only [Opcode.isSubroutine, Bool.or_eq_false_iff] at this
        simp [Insn.callsSubroutine, this]
      count_eq := hyields
      count_pos := hstates
      count_lt := hlt
      statements := hstatements
      index_ne := fun s hs => (slot_of_discover hd (hslots ▸ hs)).1
      name_inj := by
        intro s hs t ht hname
        rw [(slot_of_discover hd (hslots ▸ hs)).2, (slot_of_discover hd (hslots ▸ ht)).2] at hname
        exact Settings.slotFieldName_injective hname
      state_ne := by
        intro s hs hname
        refine hfields s hs (hname.trans ?_)
        rw [hg', hstate, Generator.stateField]
      slot_of_write := by
        intro i hi n hn
        have hne : n ≠ 0 := fun e => hbody.receiver i hi (e ▸ hn)
        have hwrites : Survey.writes? i = some n := by
          simp [Survey.writes?, hn.1, hn.2, hne]
        rw [hslots]
        exact exists_slot_of_discover hd hi hwrites
      oblivious := by
        rw [hadded]
        exact hbody.oblivious }

end Simulates

/-! ### A machine of integers -/

instance (i : Insn) (n : UInt16) : Decidable (i.overwrites n) :=
  inferInstanceAs (Decidable (_ ∧ _))

namespace Ints

/-- The value that an instruction pushes. -/
def pushed (i : Insn) (f : Frame Int32 Unit) : Int32 :=
  match i.operand with
  | .int k => k
  | .constant (.int k) => k
  | .slot n => f.locals n
  | _ => if i.opcode.within 0x02 0x08 then Int32.ofInt (i.opcode.code - 3) else 0

/-- The locals that an instruction leaves. -/
def stored (i : Insn) (f : Frame Int32 Unit) (n : UInt16) : Int32 :=
  if i.overwrites n then
    match i.operand with
    | .increment _ delta => f.locals n + delta.toInt32
    | _ => f.stack.headD 0
  else f.locals n

/-- Where an instruction branches to. -/
def target? (i : Insn) (f : Frame Int32 Unit) : Option Label :=
  match i.operand, f.stack with
  | .tableSwitch low high dflt targets, k :: _ => some (tableTarget low high dflt targets k)
  | .jump target, k :: _ => if i.opcode = ⟨0x9A⟩ ∧ k ≠ 0 then some target else none
  | _, _ => none

/-- The frame that an instruction with some effect leaves. -/
def left (i : Insn) (e : Effect) (f : Frame Int32 Unit) : Frame Int32 Unit :=
  ⟨List.replicate e.pushes (pushed i f) ++ f.stack.drop e.pops, stored i f, ()⟩

/-- Instructions on integers. What makes no sense throws. -/
def run (i : Insn) (f : Frame Int32 Unit) : Completion Int32 Unit :=
  if i.opcode.isPseudo then .falls f
  else
    match i.effect, target? i f, f.stack with
    | .ok e, some target, _ =>
      if target ∈ i.branches then .jumps target (left i e f) else .throws 0 ()
    | .ok e, none, _ => if i.fallsThrough then .falls (left i e f) else .throws 0 ()
    | .error _, _, v :: _ => if i.opcode = .ireturn then .returns (some v) () else .throws 0 ()
    | .error _, _, [] => .throws 0 ()

variable {i : Insn} {f f' : Frame Int32 Unit}

theorem run_falls {e : Effect} (hp : i.opcode.isPseudo = false) (he : i.effect = .ok e)
    (ht : target? i f = none) (hf : i.fallsThrough = true) : run i f = .falls (left i e f) := by
  simp [run, hp, he, ht, hf]

theorem run_jumps {e : Effect} {target : Label} (hp : i.opcode.isPseudo = false)
    (he : i.effect = .ok e) (ht : target? i f = some target) (hb : target ∈ i.branches) :
    run i f = .jumps target (left i e f) := by
  simp [run, hp, he, ht, hb]

/-- An instruction that leaves a frame falls through or branches, and leaves what its effect
says. -/
theorem run_cases (i : Insn) (f : Frame Int32 Unit) :
    (run i f).after? = none ∨ (i.opcode.isPseudo = true ∧ run i f = .falls f) ∨
      ∃ e, i.effect = .ok e ∧ ((i.fallsThrough = true ∧ run i f = .falls (left i e f)) ∨
        ∃ target ∈ i.branches, run i f = .jumps target (left i e f)) := by
  unfold run
  split
  · next hp => exact .inr (.inl ⟨hp, rfl⟩)
  · split
    · next e target he ht =>
      split
      · next hb => exact .inr (.inr ⟨e, he, .inr ⟨target, hb, rfl⟩⟩)
      · exact .inl rfl
    · next e he ht =>
      split
      · next hf => exact .inr (.inr ⟨e, he, .inl ⟨hf, rfl⟩⟩)
      · exact .inl rfl
    · split <;> exact .inl rfl
    · exact .inl rfl

theorem fallsThrough_of_isPseudo (h : i.opcode.isPseudo = true) : i.fallsThrough = true := by
  obtain ⟨⟨code⟩, operand⟩ := i
  simp only [Opcode.isPseudo, decide_eq_true_eq] at h
  simp [Insn.fallsThrough, Opcode.goto, Opcode.gotoW, Opcode.isSwitch, Opcode.tableSwitch,
    Opcode.lookupSwitch, Opcode.ret, Opcode.isReturn, Opcode.within, Opcode.athrow]
  omega

theorem length_stack {e : Effect} (he : i.effect = .ok e) (hpops : e.pops ≤ f.stack.length)
    (h : (run i f).after? = some f') :
    f'.stack.length = f.stack.length - e.pops + e.pushes := by
  have hleft : (left i e f).stack.length = f.stack.length - e.pops + e.pushes := by
    simp [left, Nat.add_comm]
  rcases run_cases i f with hr | ⟨hp, hr⟩ | ⟨e', he', ⟨-, hr⟩ | ⟨target, -, hr⟩⟩
  · rw [hr] at h
    cases h
  · rw [hr] at h
    obtain rfl := Option.some.inj h
    have hnone : i.effect = .ok ⟨0, 0⟩ := by rw [Insn.effect, if_pos hp]
    obtain rfl := Except.ok.inj (he.symm.trans hnone)
    rfl
  all_goals
    rw [hr] at h
    obtain rfl := Option.some.inj h
    obtain rfl := Except.ok.inj (he.symm.trans he')
    exact hleft

theorem locals_eq {n : UInt16} (h : (run i f).after? = some f') (ho : ¬i.overwrites n) :
    f'.locals n = f.locals n := by
  have hleft : ∀ e, (left i e f).locals n = f.locals n := fun e => if_neg ho
  rcases run_cases i f with hr | ⟨hp, hr⟩ | ⟨e, -, ⟨-, hr⟩ | ⟨target, -, hr⟩⟩
  · rw [hr] at h
    cases h
  all_goals
    rw [hr] at h
    obtain rfl := Option.some.inj h
  · rfl
  all_goals exact hleft e

theorem tableTarget_mem (low high : Int32) (dflt : Label) (targets : List Label) (k : Int32) :
    tableTarget low high dflt targets k ∈ dflt :: targets := by
  unfold tableTarget
  split
  · rw [List.getD_eq_getElem?_getD]
    cases hget : targets[(k.toInt - low.toInt).toNat]? with
    | none => simp
    | some target => simp [List.mem_of_getElem? hget]
  · simp

/-- An instruction that pushes a constant. -/
def Pushes (i : Insn) (k : Int32) : Prop :=
  i.opcode.isPseudo = false ∧ i.effect = .ok ⟨0, 1⟩ ∧ i.fallsThrough = true ∧
    (Survey.writtenFamily? i.opcode).isSome = false ∧
    ∀ f : Frame Int32 Unit, target? i f = none ∧ pushed i f = k

theorem Pushes.run_eq {k : Int32} (h : Pushes i k) (f : Frame Int32 Unit) :
    run i f = .falls { f with stack := k :: f.stack } := by
  obtain ⟨hp, he, hf, hw, hpush⟩ := h
  have hlocals : stored i f = f.locals := by
    funext n
    have : ¬i.overwrites n := fun ho => Bool.false_ne_true (hw.symm.trans ho.1)
    rw [stored, if_neg this]
  rw [run_falls hp he (hpush f).1 hf, left, hlocals, (hpush f).2]
  rfl

theorem pushes_small {z : Int} (hlow : -1 ≤ z) (hhigh : z ≤ 5) :
    Pushes (.plain ⟨Opcode.iconst0.code + z⟩) (Int32.ofInt z) := by
  obtain rfl | rfl | rfl | rfl | rfl | rfl | rfl :
    z = -1 ∨ z = 0 ∨ z = 1 ∨ z = 2 ∨ z = 3 ∨ z = 4 ∨ z = 5 := by omega
  all_goals exact ⟨rfl, rfl, rfl, rfl, fun f => ⟨rfl, rfl⟩⟩

theorem pushes_push (k : Int32) : Pushes (Generator.push k) k := by
  unfold Generator.push
  split
  · next hk =>
    simp only [Bool.and_eq_true, decide_eq_true_eq, Int32.le_iff_toInt_le] at hk
    have hsmall := pushes_small hk.1 hk.2
    rwa [Int32.ofInt_toInt] at hsmall
  · split
    · exact ⟨rfl, rfl, rfl, rfl, fun f => ⟨rfl, rfl⟩⟩
    · split <;> exact ⟨rfl, rfl, rfl, rfl, fun f => ⟨rfl, rfl⟩⟩

theorem pushes_zero (family : Family) : Pushes (Generator.zero family) 0 := by
  cases family <;> exact ⟨rfl, rfl, rfl, rfl, fun f => ⟨rfl, rfl⟩⟩

theorem run_load (family : Family) (n : UInt16) :
    run (.load family.load n) f = .falls { f with stack := f.locals n :: f.stack } := by
  have hlocals : stored (.load family.load n) f = f.locals := by
    funext m
    have : ¬(Insn.load family.load n).overwrites m := by
      cases family <;> exact fun h => nomatch h.1
    rw [stored, if_neg this]
  cases family <;>
    exact (run_falls (e := ⟨0, 1⟩) rfl rfl rfl rfl).trans (by rw [left, hlocals]; rfl)

theorem run_store (family : Family) (n : UInt16) (v : Int32) (rest : List Int32)
    (h : f.stack = v :: rest) : run (.load family.store n) f =
      .falls { f with stack := rest, locals := Function.update f.locals n v } := by
  have hlocals : stored (.load family.store n) f = Function.update f.locals n v := by
    funext m
    have hfamily : (Survey.writtenFamily? family.store).isSome = true := by cases family <;> rfl
    by_cases hm : m = n
    · have hwrites : (Insn.load family.store n).overwrites m := ⟨hfamily, by rw [hm]; rfl⟩
      rw [stored, if_pos hwrites, h, hm, Function.update_self]
      rfl
    · have hwrites : ¬(Insn.load family.store n).overwrites m := fun ho =>
        hm (Option.some.inj ho.2).symm
      rw [stored, if_neg hwrites, Function.update_of_ne hm]
  cases family <;>
    exact (run_falls (e := ⟨1, 0⟩) rfl rfl rfl rfl).trans (by rw [left, hlocals, h]; rfl)

theorem run_table (low high : Int32) (dflt : Label) (targets : List Label) (k : Int32)
    (rest : List Int32) (h : f.stack = k :: rest) :
    run ⟨.tableSwitch, .tableSwitch low high dflt targets⟩ f =
      .jumps (tableTarget low high dflt targets k) { f with stack := rest } := by
  have heffect : (⟨.tableSwitch, .tableSwitch low high dflt targets⟩ : Insn).effect =
      .ok ⟨1, 0⟩ := rfl
  have htarget : target? ⟨.tableSwitch, .tableSwitch low high dflt targets⟩ f =
      some (tableTarget low high dflt targets k) := by simp [target?, h]
  have hlocals : stored ⟨.tableSwitch, .tableSwitch low high dflt targets⟩ f = f.locals := by
    funext m
    rw [stored, if_neg fun ho => nomatch ho.1]
  rw [run_jumps rfl heffect htarget (tableTarget_mem low high dflt targets k), left, hlocals, h]
  rfl

theorem run_ireturn {v : Int32} {rest : List Int32} (h : f.stack = v :: rest) :
    run (.plain .ireturn) f = .returns (some v) () := by
  obtain ⟨failure, he⟩ : ∃ failure, (Insn.plain .ireturn).effect = .error failure := ⟨_, rfl⟩
  rw [run, if_neg (by decide), he, h]
  rfl

end Ints

/-- The machine whose values are integers. No exception is caught. -/
def Machine.ints : Machine Int32 Unit where
  run := Ints.run
  catches := fun _ _ _ => false
  int := id
  zero := fun _ => 0
  fallsThrough_of_falls := by
    intro i f f' h
    rcases Ints.run_cases i f with hr | ⟨hp, -⟩ | ⟨e, -, ⟨hf, -⟩ | ⟨target, -, hr⟩⟩
    · rw [h] at hr
      cases hr
    · exact Ints.fallsThrough_of_isPseudo hp
    · exact hf
    · rw [h] at hr
      cases hr
  mem_branches_of_jumps := by
    intro i f f' target h
    rcases Ints.run_cases i f with hr | ⟨-, hr⟩ | ⟨e, -, ⟨-, hr⟩ | ⟨target', hb, hr⟩⟩
    · rw [h] at hr
      cases hr
    · rw [h] at hr
      cases hr
    · rw [h] at hr
      cases hr
    · obtain ⟨rfl, -⟩ := Completion.jumps.inj (h.symm.trans hr)
      exact hb
  length_stack := Ints.length_stack
  locals_eq := Ints.locals_eq
  run_pseudo := fun f hp => by rw [Ints.run, if_pos hp]
  run_load := fun family n f => Ints.run_load family n
  run_store := fun family n v rest f h => Ints.run_store family n v rest h
  run_push := fun k f => (Ints.pushes_push k).run_eq f
  run_zero := fun family f => (Ints.pushes_zero family).run_eq f
  run_table := fun low high dflt targets k rest f h =>
    Ints.run_table low high dflt targets k rest h
  run_ireturn := fun v rest f h => Ints.run_ireturn h


/-! ### The countdown -/

namespace Generator

/-- The countdown as a method. -/
def countdownMethod (name : Text) : Method := { name, desc := "()Z", code := some countdown }

/-- What the weaver knows of the countdown, and what it makes of it. -/
def sampleGenerator : Generator := ⟨{ enhancers := some [] }, "Seq", "next", "()Z", 1⟩

def sampleWoven : Woven := ⟨"next()Z", "$state$next", 1, [⟨1, "I", "$slot$next$1"⟩], 4⟩

/-- Locals of the calls, with something left over in local 1. -/
def staleLocals (k : Nat) (n : UInt16) : Int32 := if n = 1 then Int32.ofNat k else 0

theorem generatorBody_countdown (added : List FieldKey) : GeneratorBody countdown added := by
  have hnone : ∀ i ∈ countdown.insns, i.instanceField? = none := by decide +kernel
  exact
    { built := .ofInsns _ _
      shaped := by decide +kernel
      labels := by decide +kernel
      size_lt := by decide +kernel
      receiver := by decide +kernel
      oblivious := fun i hi key hkey => nomatch (hnone i hi).symm.trans hkey }

/-- The state and local 1 of the countdown in one field. -/
def clashingSettings : Settings := { enhancers := some [], stateField := "$slot$1" }

end Generator

end ClassWeaver
