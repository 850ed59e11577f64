import Mathlib.Data.List.Forall2
import ClassWeaver.Proofs.Generator.Commit
import ClassWeaver.Proofs.Renaming.Enhance
import ClassWeaver.Proofs.Renaming.Generator

/-!
# Weaving does not look at label numbers

Two classes are the same but for label numbers (`ClassFile.Renamed`) if each method's listing
differs from the other by a permutation of its labels, and nothing else differs. With equivariant
rules a method is woven in both or in neither, with the same result, and the classes afterwards are
the same but for label numbers again (`ClassFile.weave_agree`). -/

namespace ClassWeaver

/-- The methods differ by the label numbers of their code only. -/
structure Method.Renamed (m m' : Method) : Prop where
  code : Option.Rel (fun l l' => ∃ σ, Listing.Renamed σ l l') m.code m'.code
  rest : m' = { m with code := m'.code }

/-- The classes differ by the label numbers in their methods only. -/
structure ClassFile.Renamed (c c' : ClassFile) : Prop where
  methods : List.Forall₂ Method.Renamed c.methods c'.methods
  rest : c' = { c with methods := c'.methods }

variable {σ : Equiv.Perm Label} {settings : Settings} {l l' : Listing} {m m' : Method}
variable {c c' : ClassFile}

/-! ### Conditions -/

namespace Method.Renamed

variable (h : m.Renamed m')

include h

theorem access_eq : m'.access = m.access := by rw [h.rest]

theorem name_eq : m'.name = m.name := by rw [h.rest]

theorem desc_eq : m'.desc = m.desc := by rw [h.rest]

theorem key_eq : m'.key = m.key := by rw [key, key, h.name_eq, h.desc_eq]

theorem isStatic_eq : m'.isStatic = m.isStatic := by rw [isStatic, isStatic, h.access_eq]

theorem generatorCode_agree :
    Outcome.Agree (fun l l' => ∃ σ, Listing.Renamed σ l l') m.generatorCode m'.generatorCode := by
  have hcode := h.code
  unfold generatorCode
  rw [h.isStatic_eq, h.desc_eq]
  generalize m.code = code, m'.code = code' at hcode
  cases hcode with
  | none => exact .fail _ _
  | some hl =>
    dsimp only
    refine .ite Iff.rfl (fun _ => .fail _ _) fun _ => ?_
    cases Descriptor.parse m.desc with
    | error e => exact .fail _ _
    | ok t => exact .ite Iff.rfl (fun _ => hl) fun _ => .fail _ _

end Method.Renamed

theorem Insn.isDynamic_mapLabels (f : Label → Label) (i : Insn) :
    (i.mapLabels f).isDynamic = i.isDynamic := by
  obtain ⟨op, x⟩ := i
  cases x <;> rfl

theorem Listing.Renamed.checkSubroutines_agree (h : Listing.Renamed σ l l') :
    Outcome.Agree (· = ·) l.checkSubroutines l'.checkSubroutines := by
  unfold checkSubroutines
  rw [h.insns_eq, List.find?_map]
  have hopcode : ((fun i : Insn => i.opcode.isSubroutine) ∘ Insn.mapLabels σ) =
      fun i => i.opcode.isSubroutine := rfl
  rw [hopcode]
  cases l.insns.find? fun i => i.opcode.isSubroutine with
  | none => exact rfl
  | some i => exact .fail _ _

namespace ClassFile.Renamed

variable (h : c.Renamed c')

include h

theorem fields_eq : c'.fields = c.fields := by rw [h.rest]

theorem name_eq : c'.name = c.name := by rw [h.rest]

theorem youngFeatures_eq : c'.youngFeatures = c.youngFeatures := by
  have hmethod (m m' : Method) (hm : m.Renamed m') : c'.youngInMethod m' = c.youngInMethod m := by
    have hcode := hm.code
    have haccess : c'.access = c.access := by rw [h.rest]
    unfold youngInMethod
    rw [haccess, hm.name_eq, hm.key_eq]
    generalize m.code = code, m'.code = code' at hcode
    cases hcode with
    | none => rfl
    | some hl =>
      obtain ⟨σ, hl⟩ := hl
      dsimp only
      rw [hl.insns_eq, List.any_map]
      congr 2
      exact congrArg (· = true) (congrArg _ (funext fun i => Insn.isDynamic_mapLabels σ i))
  have hall : c'.methods.flatMap c'.youngInMethod = c.methods.flatMap c.youngInMethod := by
    have hmethods := h.methods
    generalize c.methods = ms, c'.methods = ms' at hmethods
    induction hmethods with
    | nil => rfl
    | cons hm _ ih => rw [List.flatMap_cons, List.flatMap_cons, hmethod _ _ hm, ih]
  have hpool : c'.pool = c.pool := by rw [h.rest]
  have hattributes : c'.attributes = c.attributes := by rw [h.rest]
  rw [youngFeatures, youngFeatures, hall, hpool, hattributes]

theorem checkLowering_agree (key : Text) :
    Outcome.Agree (· = ·) (c.checkLowering key) (c'.checkLowering key) := by
  have hmajor : c'.major = c.major := by rw [h.rest]
  unfold checkLowering
  rw [h.youngFeatures_eq, hmajor]
  exact .of_eq rfl

theorem field?_eq (name : Text) : c'.field? name = c.field? name := by
  rw [field?, field?, h.fields_eq]

theorem checkFields_agree (key : Text) (fields : List Field) :
    Outcome.Agree (· = ·) (c.checkFields key fields) (c'.checkFields key fields) := by
  have hfield : (fun f : Field => c'.field? f.name) = fun f => c.field? f.name :=
    funext fun f => h.field?_eq f.name
  unfold checkFields
  rw [hfield]
  exact .of_eq rfl

end ClassFile.Renamed

/-! ### One method -/

/-- The labels of the states are looked for in what the rules made of the code. -/
theorem Listing.Renamed.checkWoven_agree (h : Listing.Renamed σ l l') (key : Text)
    (states : States) : Outcome.Agree (· = ·) (checkWoven key states l)
      (checkWoven key (states.mapLabels σ) l') := by
  refine Outcome.Agree.mapFault (h.heights_agree.bind ?_) _ _
  rintro heights _ rfl
  refine h.resolve_agree.bind fun _ _ _ => ?_
  have hbound := h.checkBound_iff states
  match hb : states.checkBound l, hb' : (states.mapLabels σ).checkBound l' with
  | .ok (), .ok () => exact rfl
  | .error _, .error _ => exact .fail _ _
  | .ok (), .error _ => rw [hbound.mpr hb] at hb'; cases hb'
  | .error _, .ok () => rw [hbound.mp hb'] at hb; cases hb

theorem wovenCode_agree (hchain : ∀ rule ∈ settings.chain, rule.Equivariant) (owner : Text)
    (hm : m.Renamed m') (h : Listing.Renamed σ l l') (states : States) :
    Outcome.Agree (fun x x' => Listing.Renamed σ x.1 x'.1 ∧ x'.2 = x.2)
      (wovenCode settings owner m l states)
      (wovenCode settings owner m' l' (states.mapLabels σ)) := by
  unfold wovenCode
  rw [hm.name_eq, hm.desc_eq, hm.key_eq]
  cases Generator.create settings owner m.name m.desc with
  | error e => exact .fail _ _
  | ok g =>
    have hbuild := g.build_renamed h states
    refine hbuild.woven.bind ?_
    rintro ⟨code, resumes⟩ ⟨code', resumes'⟩ ⟨hcode, hresumes⟩
    obtain rfl : resumes' = resumes := hresumes
    have hsame := Chain.run_sameEdit hchain
      { boundary := (Std.HashSet.ofList resumes').contains, owner, method := m.key
        states := (g.build l states).states } hcode
    rw [hbuild.states]
    dsimp only [Context.mapLabels] at hsame ⊢
    generalize settings.chain.run _ code = x at hsame ⊢
    generalize settings.chain.run _ code' = x' at hsame ⊢
    obtain ⟨henhanced, hresult⟩ := hsame
    match x, x' with
    | (_, .error e), (_, .error e') => exact hresult
    | (code, .ok ()), (code', .ok ()) =>
      refine (henhanced.checkWoven_agree m.key (g.build l states).states).bind ?_
      rintro heights _ rfl
      exact ⟨henhanced, rfl⟩

/-- Methods that are the same but for label numbers are woven with the same result, or neither can
be woven. -/
theorem weaveMethod_agree (hchain : ∀ rule ∈ settings.chain, rule.Equivariant) (h : c.Renamed c')
    (hm : m.Renamed m') :
    Outcome.Agree (fun x x' => x'.1 = x.1 ∧ x.2.Renamed x'.2) (weaveMethod settings c m)
      (weaveMethod settings c' m') := by
  have hstack : m'.maxStack = m.maxStack := by rw [hm.rest]
  unfold weaveMethod
  rw [hm.key_eq, hm.name_eq, hm.desc_eq, h.name_eq, hstack]
  refine (hm.generatorCode_agree.mapFault _ _).bind ?_
  rintro body body' ⟨σ, hbody⟩
  refine (hbody.checkSubroutines_agree.mapFault _ _).bind fun _ _ _ => ?_
  refine ((hbody.discover_agree settings m.name m.desc).mapFault _ _).bind ?_
  rintro states _ rfl
  have hslots : (states.mapLabels σ).slots = states.slots := rfl
  rw [States.count_mapLabels, hslots]
  -- without states both methods stay as they are
  refine .ite Iff.rfl (fun _ => ⟨rfl, hm⟩) fun _ => ?_
  refine (h.checkLowering_agree m.key).bind fun _ _ _ => ?_
  refine (wovenCode_agree hchain c.name hm hbody states).bind ?_
  rintro ⟨code, heights⟩ ⟨code', heights'⟩ ⟨hcode, hheights⟩
  obtain rfl : heights' = heights := hheights
  refine (Outcome.Agree.of_eq rfl).bind ?_
  rintro maxStack _ rfl
  refine (h.checkFields_agree m.key _).bind fun _ _ _ => ⟨rfl, ⟨.some ⟨σ, hcode⟩, ?_⟩⟩
  rw [hm.rest]

/-! ### The class -/

section Lists

variable {α β : Type} {R : α → β → Prop} {as : List α} {bs : List β}

theorem forall₂_set (h : List.Forall₂ R as bs) (n : Nat) {a : α} {b : β} (hab : R a b) :
    List.Forall₂ R (as.set n a) (bs.set n b) := by
  induction h generalizing n with
  | nil => exact .nil
  | cons h hs ih =>
    cases n with
    | zero => exact .cons hab hs
    | succ n => exact .cons h (ih n)

theorem forall₂_getElem? (h : List.Forall₂ R as bs) (n : Nat) : Option.Rel R as[n]? bs[n]? := by
  induction h generalizing n with
  | nil => exact .none
  | cons h _ ih =>
    cases n with
    | zero => exact .some h
    | succ n => exact ih n

end Lists

namespace ClassFile

theorem Renamed.setMethod (h : c.Renamed c') (n : Nat) (hm : m.Renamed m') :
    (c.setMethod n m).Renamed (c'.setMethod n m') where
  methods := forall₂_set h.methods n hm
  rest := by
    rw [h.rest]
    rfl

theorem Renamed.addField (h : c.Renamed c') (access : UInt16) (name desc : Text) :
    (c.addField access name desc).Renamed (c'.addField access name desc) := by
  unfold ClassFile.addField
  rw [h.field?_eq]
  cases c.field? name with
  | none => exact ⟨h.methods, by rw [h.rest]⟩
  | some _ => exact h

theorem Renamed.addFields (h : c.Renamed c') (fields : List Field) :
    (c.addFields fields).Renamed (c'.addFields fields) := by
  unfold ClassFile.addFields
  induction fields generalizing c c' with
  | nil => exact h
  | cons f fields ih => exact ih (h.addField f.access f.name f.desc)

theorem Renamed.lowered (h : c.Renamed c') : c.lowered.Renamed c'.lowered := by
  have hmajor : c'.major = c.major := by rw [h.rest]
  unfold ClassFile.lowered
  rw [hmajor]
  split
  · exact ⟨h.methods, by rw [h.rest]⟩
  · exact h

/-- Weaving a method has the same result in both classes, and leaves classes behind that are the
same but for label numbers. -/
theorem weave_agree (hchain : ∀ rule ∈ settings.chain, rule.Equivariant) (h : c.Renamed c')
    (n : Nat) :
    Outcome.Agree (· = ·) ((weave settings n).on c).1 ((weave settings n).on c').1 ∧
      ((weave settings n).on c).2.Renamed ((weave settings n).on c').2 := by
  rw [weave_on, weave_on]
  have hmethod := forall₂_getElem? h.methods n
  generalize c.methods[n]? = o, c'.methods[n]? = o' at hmethod
  cases hmethod with
  | none => exact ⟨.undefined, h⟩
  | @some m m' hm =>
    have hweave := weaveMethod_agree hchain h hm
    dsimp only
    match weaveMethod settings c m, weaveMethod settings c' m', hweave with
    | .error e, .error e', he => exact ⟨he, h⟩
    | .ok (w, m), .ok (w', m'), ⟨hw, hm⟩ =>
      obtain rfl : w' = w := hw
      refine ⟨rfl, ?_⟩
      dsimp only
      split
      · exact h
      · exact ((h.setMethod n hm).addFields w'.fields).lowered

end ClassFile

end ClassWeaver
