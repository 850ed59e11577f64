import ClassWeaver.Proofs.Enhance.Scanning
import ClassWeaver.Proofs.Generator.Bench

/-!
# Weaving happens at once or not at all

An edit can fail halfway and leave a class that was changed in part. Weaving does not: all its
checks look at the class as it was, and the changes come behind the last of them. So a class in
which a method could not be woven is still the same class, and one in which it could differs in
what `Commits` lists and in nothing else.
-/

namespace ClassWeaver

variable {settings : Settings} {c c' : ClassFile} {m m' : Method} {w : Woven} {n : Nat}

/-! ### Fields -/

namespace ClassFile

/-- Declaring a field appends it, unless its name is taken. -/
theorem addField_eq (c : ClassFile) (f : Field) :
    (c.addField f.access f.name f.desc = c ∧ ∃ g ∈ c.fields, g.name = f.name) ∨
      c.addField f.access f.name f.desc =
        { c with fields := c.fields ++ [{ f with attributes := [] }] } := by
  unfold addField field?
  split
  · next g hg =>
    have hname := List.find?_some hg
    exact .inl ⟨rfl, g, List.mem_of_find?_eq_some hg, by simpa using hname⟩
  · exact .inr rfl

/-- Declaring fields appends some of them, at least one for each name that is new. -/
theorem addFields_eq (c : ClassFile) {fields : List Field}
    (h : ∀ f ∈ fields, f.attributes = []) :
    ∃ added, added.Sublist fields ∧ c.addFields fields = { c with fields := c.fields ++ added } ∧
      ∀ f ∈ fields, ∃ g ∈ c.fields ++ added, g.name = f.name := by
  induction fields generalizing c with
  | nil => exact ⟨[], .slnil, by rw [List.append_nil]; rfl, fun f hf => nomatch hf⟩
  | cons f fields ih =>
    have hrest := fun g hg => h g (List.mem_cons_of_mem f hg)
    have hplain : { f with attributes := [] } = f := by
      rw [← h f List.mem_cons_self]
    have hstep : c.addFields (f :: fields) =
        (c.addField f.access f.name f.desc).addFields fields := rfl
    rw [hstep]
    rcases addField_eq c f with ⟨hsame, g, hg, hname⟩ | hnew
    · obtain ⟨added, hsub, heq, hnames⟩ := ih c hrest
      rw [hsame]
      refine ⟨added, hsub.cons f, heq, fun d hd => ?_⟩
      rcases List.mem_cons.mp hd with rfl | hd
      · exact ⟨g, List.mem_append_left _ hg, hname⟩
      · exact hnames d hd
    · rw [hplain] at hnew
      obtain ⟨added, hsub, heq, hnames⟩ := ih { c with fields := c.fields ++ [f] } hrest
      rw [List.append_assoc, List.singleton_append] at heq hnames
      rw [hnew]
      refine ⟨f :: added, hsub.cons_cons f, heq, fun d hd => ?_⟩
      rcases List.mem_cons.mp hd with rfl | hd
      · exact ⟨d, List.mem_append_right _ List.mem_cons_self, rfl⟩
      · exact hnames d hd

/-- The first of the fields is declared as it is if its name is new. -/
theorem mem_addFields_cons {f : Field} {fields : List Field}
    (h : ∀ g ∈ f :: fields, g.attributes = []) (hnew : ∀ g ∈ c.fields, g.name ≠ f.name) :
    f ∈ (c.addFields (f :: fields)).fields := by
  rw [List.forall_mem_cons] at h
  have hplain : { f with attributes := [] } = f := by rw [← h.1]
  have hstep : c.addFields (f :: fields) =
      (c.addField f.access f.name f.desc).addFields fields := rfl
  rcases addField_eq c f with ⟨-, g, hg, hname⟩ | heq
  · exact absurd hname (hnew g hg)
  · obtain ⟨added, -, hadded, -⟩ := addFields_eq { c with fields := c.fields ++ [f] } h.2
    rw [hstep, heq, hplain, hadded]
    simp

/-- None of the fields is declared in a class that passed the check. -/
theorem name_ne_of_checkFields {key : Text} {fields : List Field}
    (h : c.checkFields key fields = .ok ()) :
    ∀ f ∈ fields, ∀ g ∈ c.fields, g.name ≠ f.name := by
  unfold checkFields at h
  split at h
  · cases h
  · next hnone =>
    intro f hf g hg hname
    have hfind := List.findSome?_eq_none_iff.mp hnone f hf
    exact absurd hname (by simpa using List.find?_eq_none.mp hfind g hg)

end ClassFile

theorem Woven.attributes_of_mem_fields {f : Field} (hf : f ∈ w.fields) : f.attributes = [] := by
  rcases List.mem_cons.mp hf with rfl | hf
  · rfl
  · obtain ⟨s, -, rfl⟩ := List.mem_map.mp hf
    rfl

/-! ### The commit -/

theorem wovenStack_eq_ok {key : Text} {old : UInt16} {heights : Heights} {size : Nat}
    (h : wovenStack key old heights = .ok size) :
    old.toNat ≤ size ∧ size ≤ 0xFFFF ∧ 2 * heights.max ≤ size := by
  unfold wovenStack at h
  dsimp only at h
  split at h
  · cases h
  · next hfits =>
    obtain rfl := Except.ok.inj h
    exact ⟨Nat.le_max_right .., Nat.not_lt.mp hfits, Nat.le_max_left ..⟩

/-- All that differs between a class and what it is after its `n`-th method `m` was woven: code,
stack size and code attributes of the method, the fields at the end, and the version if it was
above the last one without frames. -/
structure Commits (n : Nat) (m : Method) (w : Woven) (c c' : ClassFile) : Prop where
  changes : ∃ code maxStack added,
    m.maxStack ≤ maxStack ∧ added.Sublist w.fields ∧
    (∀ f ∈ w.fields, ∃ g ∈ added, g.name = f.name) ∧
    c' = { c with
      methods := c.methods.set n { m with code := some code, maxStack, codeAttributes := [] }
      fields := c.fields ++ added
      major := if inferredMajor < c.major then inferredMajor else c.major
      minor := if inferredMajor < c.major then 0 else c.minor }

namespace ClassFile

theorem weave_eq_ok (h : (weave settings n).on c = (.ok w, c')) :
    ∃ m m', c.methods[n]? = some m ∧ weaveMethod settings c m = .ok (w, m') := by
  rw [weave_on] at h
  split at h
  · cases h
  · next m hm =>
    split at h
    · cases h
    · next w' m' hw =>
      obtain rfl := Except.ok.inj (Prod.mk.inj h).1
      exact ⟨m, m', hm, hw⟩

theorem lowered_eq (c : ClassFile) :
    c.lowered = { c with
      major := if inferredMajor < c.major then inferredMajor else c.major
      minor := if inferredMajor < c.major then 0 else c.minor } := by
  unfold lowered
  split <;> rfl

/-- What weaving did to a class: nothing, or a method with states was replaced and fields were
declared behind the others, so that there is one for the state. -/
theorem weave_changes {out : Outcome Woven} (h : (weave settings n).on c = (out, c')) :
    (c' = c ∧ ∀ w, out = .ok w → w.states = 0) ∨
      ∃ w m m' added, out = .ok w ∧ 0 < w.states ∧ c.methods[n]? = some m ∧
        weaveMethod settings c m = .ok (w, m') ∧ added.Sublist w.fields ∧
        { access := Access.isPrivate, name := w.stateField, desc := "I" } ∈ c.fields ++ added ∧
        c' = { c with
          methods := c.methods.set n m'
          fields := c.fields ++ added
          major := if inferredMajor < c.major then inferredMajor else c.major
          minor := if inferredMajor < c.major then 0 else c.minor } := by
  rw [weave_on] at h
  split at h
  · obtain ⟨rfl, rfl⟩ := Prod.mk.inj h
    exact .inl ⟨rfl, nofun⟩
  · next m hm =>
    split at h
    · obtain ⟨rfl, rfl⟩ := Prod.mk.inj h
      exact .inl ⟨rfl, nofun⟩
    · next w m' hw =>
      obtain ⟨rfl, rfl⟩ := Prod.mk.inj h
      by_cases hzero : w.states = 0
      · exact .inl ⟨if_pos hzero, fun _ hok => Except.ok.inj hok ▸ hzero⟩
      · rw [if_neg hzero]
        obtain ⟨body, states, -, -, -, -, hcases⟩ := weaveMethod_cases hw
        obtain ⟨new, heights, maxStack, hreplaces, -⟩ :=
          hcases.resolve_left fun h => hzero h.1
        -- no field of the class has the name, so the one for the state is added
        have hfree := name_ne_of_checkFields hreplaces.fields _ List.mem_cons_self
        obtain ⟨added, hsub, heq, -⟩ := addFields_eq (c.setMethod n m')
          fun f hf => Woven.attributes_of_mem_fields hf
        have hstate := @mem_addFields_cons (c.setMethod n m') _ _
          (fun f hf => Woven.attributes_of_mem_fields hf) hfree
        change _ ∈ ((c.setMethod n m').addFields w.fields).fields at hstate
        rw [heq] at hstate
        exact .inr ⟨w, m, m', added, rfl, Nat.pos_of_ne_zero hzero, hm, hw, hsub, hstate,
          by rw [heq, lowered_eq]; rfl⟩

/-- The changes of a method that was replaced. -/
theorem commits_of_replaces {body code : Listing} {states : States} {heights : Heights}
    {maxStack : Nat} (h : Replaces settings c m w body states code heights maxStack) :
    Commits n m w c
      ((c.setMethod n { m with
        code := some code, maxStack := maxStack.toUInt16,
        codeAttributes := [] }).addFields w.fields).lowered := by
  obtain ⟨hold, hfits, -⟩ := wovenStack_eq_ok h.stack
  have hstack : m.maxStack ≤ maxStack.toUInt16 := by
    rw [UInt16.le_iff_toNat_le, Nat.toUInt16_eq, UInt16.toNat_ofNat', Nat.mod_eq_of_lt (by omega)]
    exact hold
  obtain ⟨added, hsub, heq, hnames⟩ := addFields_eq (c.setMethod n { m with
    code := some code, maxStack := maxStack.toUInt16, codeAttributes := [] })
    fun f hf => Woven.attributes_of_mem_fields hf
  refine ⟨⟨code, maxStack.toUInt16, added, hstack, hsub, fun f hf => ?_, ?_⟩⟩
  · obtain ⟨g, hg, hname⟩ := hnames f hf
    rcases List.mem_append.mp hg with hg | hg
    · exact absurd hname (name_ne_of_checkFields h.fields f hf g hg)
    · exact ⟨g, hg, hname⟩
  · rw [heq, lowered_eq]
    rfl

/-- **Weaving happens at once or not at all.** A class in which a method cannot be woven, or in
which the method has no yield call, stays as it is; otherwise the class is changed as `Commits`
says. -/
theorem weave_atomic (settings : Settings) (c : ClassFile) (n : Nat) :
    match (weave settings n).on c with
    | (.error _, c') => c' = c
    | (.ok w, c') => ∃ m body, c.methods[n]? = some m ∧ m.code = some body ∧
        w.states = body.yieldCount settings ∧
        if body.yieldCount settings = 0 then c' = c else Commits n m w c c' := by
  rw [weave_on]
  cases hm : c.methods[n]? with
  | none => rfl
  | some m =>
    dsimp only
    cases hw : weaveMethod settings c m with
    | error e => rfl
    | ok out =>
      obtain ⟨w, m'⟩ := out
      obtain ⟨body, states, hgen, -, hcount, -, hcases⟩ := weaveMethod_cases hw
      have hyields : w.states = body.yieldCount settings := by
        rw [hcount, States.count, (fresh_of_discover hgen.discovered).1, Array.size_replicate]
      refine ⟨m, body, rfl, hgen.code, hyields, ?_⟩
      rw [← hyields]
      by_cases hzero : w.states = 0
      · rw [if_pos hzero, if_pos hzero]
      · rw [if_neg hzero, if_neg hzero]
        rcases hcases with ⟨habsurd, -⟩ | ⟨code, heights, maxStack, hnew, rfl⟩
        · exact absurd habsurd hzero
        · exact commits_of_replaces hnew

/-- A generator that suspends once. -/
def pausing (desc : Text) : Method where
  name := "next"
  desc := desc
  code := some (Listing.ofInsns 0 [.load .aload 0,
    .call .invokeVirtual "Seq" "yieldReturn" "()V", .plain .iconst0, .plain .ireturn])

/-- Two overloads of a generator, which ask for the same field. -/
def overloads : ClassFile where
  name := "Seq"
  methods := [pausing "()Z", pausing "(I)Z"]

/-- The first overload is woven. So is the second, with two labels handed out in a copy of its body
and the code built from it, when its field turns out to be taken: the class keeps its listing
without labels. -/
theorem weave_atomic_overloads : ∃ w c₁ e b,
    (weave {} 0).on overloads = (.ok w, c₁) ∧ w.states = 1 ∧
    Commits 0 (pausing "()Z") w overloads c₁ ∧
    (Work.weave {} 1).on { file := c₁ } = (.error e, b) ∧
    b.copies.toList.map (fun l => (l.numLabels, l.insns.length)) = [(2, 4), (2, 14)] ∧
    (weave {} 1).on c₁ = (.error e, c₁) ∧
    c₁.methods[1]?.map (fun m => m.code.map (·.numLabels)) = some (some 0) := by
  obtain ⟨hstates, hfailed, hcopies, hkept⟩ :
      ((weave {} 0).on overloads).1.toOption.map Woven.states = some 1 ∧
      ((Work.weave {} 1).on { file := ((weave {} 0).on overloads).2 }).1.toOption = none ∧
      ((Work.weave {} 1).on { file := ((weave {} 0).on overloads).2 }).2.copies.toList.map
        (fun l => (l.numLabels, l.insns.length)) = [(2, 4), (2, 14)] ∧
      ((weave {} 0).on overloads).2.methods[1]?.map (fun m => m.code.map (·.numLabels)) =
        some (some 0) := by
    delta weave Work.weave Work.prepare Work.weaveBody Work.enhance
    decide +kernel
  have hfirst := weave_atomic {} overloads 0
  generalize (weave {} 0).on overloads = out at hstates hfailed hcopies hkept hfirst
  obtain ⟨out, c₁⟩ := out
  dsimp only at hfailed hcopies hkept hfirst
  cases out with
  | error e => cases hstates
  | ok w =>
    obtain ⟨m, body, hm, hbody, -, hcommits⟩ := hfirst
    obtain rfl := Option.some.inj hm
    obtain rfl := Option.some.inj hbody
    rw [if_neg (by decide +kernel)] at hcommits
    have hbench := weave_on_bench {} c₁ 1
    have hsecond := weave_atomic {} c₁ 1
    cases hwork : (Work.weave {} 1).on { file := c₁ } with
    | mk result b =>
      rw [hwork] at hfailed hcopies hbench
      rw [hbench] at hsecond
      cases result with
      | ok w => cases hfailed
      | error e =>
        exact ⟨w, c₁, e, b, rfl, Option.some.inj hstates, hcommits, hwork, hcopies,
          hbench.trans (congrArg _ hsecond), hkept⟩

end ClassFile

end ClassWeaver
