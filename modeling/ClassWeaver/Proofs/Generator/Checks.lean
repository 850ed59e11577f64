import ClassWeaver.Generator.Weaving
import ClassWeaver.Proofs.Generator.Discovery

/-!
# What a woven method has been checked for

But for the listings that are edited on the way, weaving a method is a row of checks
(`weaveMethod`). `weaveMethod_cases` says all that is known of a method that passed them: what every
generator is checked for (`Generates`), and, unless the method has no yield call and stays as it is,
what was made of it (`Replaces`).
-/

namespace ClassWeaver

/-! ### Weaving without a bench -/

/-- Builds the woven code of a body, enhances and checks it: the code and its heights. -/
def wovenCode (settings : Settings) (owner : Text) (m : Method) (body : Listing)
    (states : States) : Outcome (Listing × Heights) := do
  match Generator.create settings owner m.name m.desc with
  | .error f => Outcome.fail f
  | .ok g =>
    let build := g.build body states
    let (l, resumes) ← build.woven
    let boundary := (Std.HashSet.ofList resumes).contains
    match settings.chain.run { boundary, owner, method := m.key, states := build.states } l with
    | (_, .error e) => .error e
    | (l, .ok ()) =>
      let heights ← checkWoven m.key build.states l
      return (l, heights)

/-- What weaving a method of a class comes to: what happened, and the method afterwards. -/
def weaveMethod (settings : Settings) (c : ClassFile) (m : Method) : Outcome (Woven × Method) := do
  let body ← m.generatorCode.inMethod m.key
  body.checkSubroutines.inMethod m.key
  let states ← (discover settings body m.name m.desc).inMethod m.key
  let w : Woven :=
    { method := m.key, stateField := settings.stateFieldName m.name, states := states.count
      slots := states.slots }
  if w.states = 0 then return (w, m)
  c.checkLowering m.key
  let (code, heights) ← wovenCode settings c.name m body states
  let maxStack ← wovenStack m.key m.maxStack heights
  c.checkFields m.key w.fields
  return ({ w with maxStack },
    { m with code := some code, maxStack := maxStack.toUInt16, codeAttributes := [] })

/-! ### Checks that were passed -/

theorem Outcome.inMethod_eq_ok {α : Type} {key : Text} {x : Outcome α} {a : α} :
    x.inMethod key = .ok a ↔ x = .ok a := by
  cases x with
  | error e => simp [Outcome.inMethod, Outcome.mapFault]
  | ok b => rfl

/-- What woven code has been checked for. -/
theorem checkWoven_eq_ok {key : Text} {states : States} {l : Listing} {heights : Heights}
    (h : checkWoven key states l = .ok heights) :
    l.heights = .ok heights ∧ l.resolve = .ok () ∧ states.checkBound l = .ok () := by
  obtain ⟨H, hheights, h⟩ := Except.bind_eq_ok_iff.mp (Outcome.inMethod_eq_ok.mp h)
  obtain ⟨⟨⟩, hres, h⟩ := Except.bind_eq_ok_iff.mp h
  split at h
  · cases h
  · next hbound => exact ⟨Except.ok.inj h ▸ hheights, hres, hbound⟩

theorem Listing.isSubroutine_of_check {l : Listing} (h : l.checkSubroutines = .ok ()) :
    ∀ i ∈ l.insns, i.opcode.isSubroutine = false := by
  unfold checkSubroutines at h
  split at h
  · cases h
  · next hnone =>
    intro i hi
    simpa using List.find?_eq_none.mp hnone i hi

variable {settings : Settings} {c : ClassFile} {m m' : Method} {w : Woven} {body : Listing}

/-- Only an instance method with code that returns a boolean is a generator. -/
theorem Method.generatorCode_eq_ok (h : m.generatorCode = .ok body) :
    m.code = some body ∧ m.isStatic = false ∧
      ∃ t, Descriptor.parse m.desc = .ok t ∧ t.result = [90] := by
  unfold generatorCode at h
  split at h
  · cases h
  · next l hl =>
    split at h
    · cases h
    · next hstatic =>
      split at h
      · cases h
      · next t ht =>
        split at h
        · next hresult =>
          rw [← Except.ok.inj h]
          exact ⟨hl, Bool.eq_false_iff.mpr hstatic, t, ht, hresult⟩
        · cases h

/-- What every method is checked for, and its states. -/
structure Generates (settings : Settings) (m : Method) (body : Listing) (states : States) :
    Prop where
  code : m.code = some body
  instanceMethod : m.isStatic = false
  descriptor : ∃ t, Descriptor.parse m.desc = .ok t ∧ t.result = [90]
  subroutines : body.checkSubroutines = .ok ()
  discovered : discover settings body m.name m.desc = .ok states

/-- What the new code of a method is checked for. -/
structure Replaces (settings : Settings) (c : ClassFile) (m : Method) (w : Woven)
    (body : Listing) (states : States) (new : Listing) (heights : Heights) (maxStack : Nat) :
    Prop where
  lowering : c.checkLowering m.key = .ok ()
  code : wovenCode settings c.name m body states = .ok (new, heights)
  stack : wovenStack m.key m.maxStack heights = .ok maxStack
  fields : c.checkFields m.key w.fields = .ok ()

/-- The ways in which a method can be woven. -/
theorem weaveMethod_cases (h : weaveMethod settings c m = .ok (w, m')) :
    ∃ body states, Generates settings m body states ∧ w.slots = states.slots ∧
      w.states = states.count ∧ w.stateField = settings.stateFieldName m.name ∧
      (w.states = 0 ∧ m' = m ∨
        ∃ new heights maxStack, Replaces settings c m w body states new heights maxStack ∧
          m' = { m with
            code := some new, maxStack := maxStack.toUInt16, codeAttributes := [] }) := by
  obtain ⟨body, hbody, h⟩ := Except.bind_eq_ok_iff.mp h
  obtain ⟨⟨⟩, hsub, h⟩ := Except.bind_eq_ok_iff.mp h
  obtain ⟨states, hd, h⟩ := Except.bind_eq_ok_iff.mp h
  rw [Outcome.inMethod_eq_ok] at hbody hsub hd
  obtain ⟨hcode, hinstance, hdesc⟩ := Method.generatorCode_eq_ok hbody
  refine ⟨body, states, ⟨hcode, hinstance, hdesc, hsub, hd⟩, ?_⟩
  dsimp only at h
  split at h
  · next hzero =>
    obtain ⟨rfl, rfl⟩ := Prod.mk.inj (Except.ok.inj h)
    exact ⟨rfl, rfl, rfl, .inl ⟨hzero, rfl⟩⟩
  · obtain ⟨⟨⟩, hlowering, h⟩ := Except.bind_eq_ok_iff.mp h
    obtain ⟨⟨new, heights⟩, hnew, h⟩ := Except.bind_eq_ok_iff.mp h
    obtain ⟨maxStack, hstack, h⟩ := Except.bind_eq_ok_iff.mp h
    obtain ⟨⟨⟩, hfields, h⟩ := Except.bind_eq_ok_iff.mp h
    obtain ⟨rfl, rfl⟩ := Prod.mk.inj (Except.ok.inj h)
    exact ⟨rfl, rfl, rfl, .inr ⟨new, heights, maxStack, ⟨hlowering, hnew, hstack, hfields⟩, rfl⟩⟩

end ClassWeaver
