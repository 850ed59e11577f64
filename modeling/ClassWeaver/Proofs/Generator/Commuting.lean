import ClassWeaver.Proofs.Generator.Commit
import ClassWeaver.Proofs.Generator.Weaving

/-!
# The order of weaving

Two generators of a class can be woven in either order. Weaving a method looks at three things of
the class besides the method: its name, whether it can be lowered, and which fields it declares.
Weaving another method before does not change what is found there (`weaveMethod_settled`). A class
that was lowered needs no check, but then it passed the check before as well; and the fields that
were added are not in the way, as long as no field of the one method has the name of a field of the
other (`Settings.Apart`), which holds for the standard names.

So each method comes out the same, whatever became of the other (`weave_comm`). Only the fields
stand in another order. -/

namespace ClassWeaver

/-! ### Names of fields -/

namespace Settings

variable {settings : Settings} {m m' : Method}

/-- A method keeps its state, or a local that the weaver finds in it, in a field of the name. -/
def Owns (settings : Settings) (m : Method) (name : Text) : Prop :=
  name = settings.stateFieldName m.name ∨
    ∃ body states, m.code = some body ∧ discover settings body m.name m.desc = .ok states ∧
      ∃ s ∈ states.slots, name = s.name

/-- No field belongs to both methods. -/
def Apart (settings : Settings) (m m' : Method) : Prop :=
  ∀ name, settings.Owns m name → ¬settings.Owns m' name

theorem Apart.symm (h : settings.Apart m m') : settings.Apart m' m :=
  fun name h' hn => h name hn h'

/-- The name of a field tells the name of the method and the local. -/
theorem Owns.named {name : Text} (h : settings.Owns m name) :
    name = settings.stateFieldName m.name ∨
      ∃ index, name = settings.slotFieldName m.name index := by
  refine h.imp_right ?_
  rintro ⟨body, states, -, hd, s, hs, rfl⟩
  exact ⟨s.index, (slot_of_discover hd hs).2⟩

/-- A numeral has no dollar sign. -/
theorem dollar_notMem_ofNat (n : Nat) : (36 : UInt8) ∉ Text.ofNat n := by
  intro hmem
  obtain ⟨c, hc, heq⟩ := List.mem_map.mp hmem
  have hdigit := Nat.isDigit_of_mem_toDigits (by decide) (by decide) hc
  have hbounds : 48 ≤ c.toNat ∧ c.toNat ≤ 57 := by
    simp only [Char.isDigit, Bool.and_eq_true, decide_eq_true_eq] at hdigit
    exact ⟨hdigit.1, hdigit.2⟩
  have hbyte : c.toNat % 2 ^ 8 = 36 := by
    rw [← UInt8.toNat_ofNat', ← Nat.toUInt8_eq, heq]
    rfl
  omega

/-- What stands in front of a last dollar sign is found again. -/
theorem front_of_last_dollar {xs ys ds es : Text} (hds : (36 : UInt8) ∉ ds)
    (hes : (36 : UInt8) ∉ es)
    (h : xs ++ utf8 "$" ++ ds = ys ++ utf8 "$" ++ es) : xs = ys := by
  rw [show utf8 "$" = [36] by decide, List.append_assoc, List.append_assoc] at h
  rcases List.append_eq_append_iff.mp h with ⟨as, rfl, has⟩ | ⟨as, rfl, has⟩
  · cases as with
    | nil => exact (List.append_nil xs).symm
    | cons a as =>
      obtain ⟨-, rfl⟩ := List.cons.inj has
      exact absurd (by simp) hds
  · cases as with
    | nil => exact List.append_nil ys
    | cons a as =>
      obtain ⟨-, rfl⟩ := List.cons.inj has
      exact absurd (by simp) hes

/-- Methods with different names own different fields, unless a state field looks like a slot field;
the standard names begin with different letters. -/
theorem apart_of_standard (hstate : settings.stateStem = defaultStateStem)
    (hslot : settings.slotStem = defaultSlotStem) (hne : m.name ≠ m'.name) :
    settings.Apart m m' := by
  have hdiffers : ∀ a b index, settings.stateFieldName a ≠ settings.slotFieldName b index := by
    intro a b index heq
    have hfront : defaultStateStem = [36, 115, 116, 97, 116, 101] := by decide
    have hfront' : defaultSlotStem = [36, 115, 108, 111, 116] := by decide
    rw [stateFieldName, slotFieldName, hstate, hslot, hfront, hfront'] at heq
    simp at heq
  intro name h h'
  rcases h.named with rfl | ⟨index, rfl⟩ <;> rcases h'.named with heq | ⟨index', heq⟩
  · exact hne (List.append_cancel_left heq)
  · exact hdiffers _ _ _ heq
  · exact hdiffers _ _ _ heq.symm
  · have hfront := front_of_last_dollar (dollar_notMem_ofNat _) (dollar_notMem_ofNat _) heq
    exact hne (List.append_cancel_left hfront)

end Settings

/-! ### Fields that are declared -/

variable {settings : Settings} {c c' : ClassFile} {m m' : Method} {w : Woven} {n : Nat}
variable {fields : List Field}

/-- A method owns the fields that are declared for it. -/
theorem owns_of_mem_fields (h : weaveMethod settings c m = .ok (w, m')) {f : Field}
    (hf : f ∈ w.fields) : settings.Owns m f.name := by
  obtain ⟨body, states, hgen, hslots, -, hstate, -⟩ := weaveMethod_cases h
  rcases List.mem_cons.mp hf with rfl | hf
  · exact .inl hstate
  · obtain ⟨s, hs, rfl⟩ := List.mem_map.mp hf
    rw [hslots] at hs
    exact .inr ⟨body, states, hgen.code, hgen.discovered, s, hs, rfl⟩

namespace ClassFile

/-- The fields that a class without any would have of these. -/
def declared (fields : List Field) : List Field := (({} : ClassFile).addFields fields).fields

theorem exists_of_mem_declared (h : ∀ f ∈ fields, f.attributes = []) {f : Field}
    (hf : f ∈ declared fields) : f ∈ fields := by
  obtain ⟨added, hsub, heq, -⟩ := addFields_eq {} h
  rw [declared, heq] at hf
  exact hsub.mem hf

/-- Fields with names that are free are declared as in a class without fields. -/
theorem addFields_of_free (c : ClassFile) (hfree : ∀ f ∈ fields, ∀ g ∈ c.fields, g.name ≠ f.name) :
    c.addFields fields = { c with fields := c.fields ++ declared fields } := by
  -- beside `acc`, which both classes have got already
  have hall : ∀ acc, ({ c with fields := c.fields ++ acc } : ClassFile).addFields fields =
      { c with fields := c.fields ++
        (({ fields := acc } : ClassFile).addFields fields).fields } := by
    induction fields with
    | nil => exact fun acc => rfl
    | cons f rest ih =>
      intro acc
      have hfield : ({ c with fields := c.fields ++ acc } : ClassFile).field? f.name =
          ({ fields := acc } : ClassFile).field? f.name := by
        have hnone : c.fields.find? (·.name = f.name) = none := by
          simpa using hfree f List.mem_cons_self
        rw [field?, field?, List.find?_append, hnone, Option.none_or]
      have hrest := ih fun g hg => hfree g (List.mem_cons_of_mem f hg)
      change (ClassFile.addField _ f.access f.name f.desc).addFields rest = { c with
        fields := c.fields ++
          ((ClassFile.addField _ f.access f.name f.desc).addFields rest).fields }
      unfold addField
      rw [hfield]
      split
      · exact hrest acc
      · dsimp only
        rw [List.append_assoc]
        exact hrest _
  have hnil := hall []
  rwa [List.append_nil] at hnil

/-! ### What weaving looks at -/

theorem checkLowering_eq_ok_iff {key : Text} :
    c.checkLowering key = .ok () ↔
    ¬(inferredMajor < c.major ∧ c.youngFeatures.isEmpty = false) := by
  unfold checkLowering
  split
  · next h => exact ⟨nofun, fun h' => absurd (by simpa using h) h'⟩
  · next h => exact ⟨fun _ => by simpa using h, fun _ => rfl⟩

theorem checkFields_congr {key : Text} (h : ∀ f ∈ fields, c'.field? f.name = c.field? f.name) :
    c'.checkFields key fields = c.checkFields key fields := by
  have hfind : (fields.findSome? fun f => c'.field? f.name) =
      fields.findSome? fun f => c.field? f.name := by
    induction fields with
    | nil => rfl
    | cons f rest ih =>
      rw [List.findSome?_cons, List.findSome?_cons, h f List.mem_cons_self,
        ih fun g hg => h g (List.mem_cons_of_mem f hg)]
  rw [checkFields, checkFields, hfind]

end ClassFile

open ClassFile

/-- Classes in which the same is found of what weaving a method looks at. -/
theorem weaveMethod_congr (hname : c'.name = c.name)
    (hlowering : c'.checkLowering m.key = c.checkLowering m.key)
    (hfields : ∀ name, settings.Owns m name → c'.field? name = c.field? name) :
    weaveMethod settings c' m = weaveMethod settings c m := by
  unfold weaveMethod
  cases hbody : m.generatorCode.inMethod m.key with
  | error e => rfl
  | ok body =>
    cases hsub : body.checkSubroutines.inMethod m.key with
    | error e => simp only [hsub, bind, Except.bind]
    | ok u =>
      cases hd : (discover settings body m.name m.desc).inMethod m.key with
      | error e => simp only [hsub, hd, bind, Except.bind]
      | ok states =>
        have hcheck : ∀ {w : Woven}, w.stateField = settings.stateFieldName m.name →
            w.slots = states.slots → c'.checkFields m.key w.fields =
            c.checkFields m.key w.fields := by
          intro w hstate hslots
          refine checkFields_congr fun f hf => hfields _ ?_
          rcases List.mem_cons.mp hf with rfl | hf
          · exact .inl hstate
          · obtain ⟨s, hs, rfl⟩ := List.mem_map.mp hf
            rw [hslots] at hs
            have hcode := (Method.generatorCode_eq_ok (Outcome.inMethod_eq_ok.mp hbody)).1
            exact .inr ⟨body, states, hcode, Outcome.inMethod_eq_ok.mp hd, s, hs, rfl⟩
        simp only [hsub, hd, bind, Except.bind]
        rw [hname, hlowering, hcheck rfl rfl]

/-! ### One method after the other -/

namespace ClassFile

/-- The class with a woven method in the place of an old one. -/
def replaced (c : ClassFile) (n : Nat) (m : Method) (w : Woven) : ClassFile :=
  ((c.setMethod n m).addFields w.fields).lowered

/-- The class with what came of weaving a method. -/
def settled (c : ClassFile) (n : Nat) : Outcome (Woven × Method) → ClassFile
  | .ok (w, m) => if w.states = 0 then c else c.replaced n m w
  | .error _ => c

/-- Weaving a method is making the new one and settling what came of it. -/
theorem weave_settled (hm : c.methods[n]? = some m) :
    (weave settings n).on c =
      ((weaveMethod settings c m).map Prod.fst, c.settled n (weaveMethod settings c m)) := by
  rw [weave_on, hm]
  dsimp only
  cases weaveMethod settings c m with
  | error e => rfl
  | ok out => rfl

/-- A replaced method leaves the class at a version without frames. -/
theorem replaced_eq (c : ClassFile) (n : Nat) (m : Method)
    (hfree : ∀ f ∈ w.fields, ∀ g ∈ c.fields, g.name ≠ f.name) :
    c.replaced n m w = { c with
      methods := c.methods.set n m
      fields := c.fields ++ declared w.fields
      major := if inferredMajor < c.major then inferredMajor else c.major
      minor := if inferredMajor < c.major then 0 else c.minor } := by
  rw [replaced, addFields_of_free (c.setMethod n m) hfree, lowered_eq]
  rfl

theorem methods_replaced (c : ClassFile) (n : Nat) (m : Method) (w : Woven) :
    (c.replaced n m w).methods = c.methods.set n m := by
  obtain ⟨added, -, heq, -⟩ := addFields_eq (c.setMethod n m) fun f hf =>
    Woven.attributes_of_mem_fields (w := w) hf
  rw [replaced, heq, lowered_eq]
  rfl

/-- Two replaced methods whose fields have different names. -/
theorem replaced_replaced (c : ClassFile) (n n' : Nat) (m m' : Method) {w w' : Woven}
    (hfree : ∀ f ∈ w.fields, ∀ g ∈ c.fields, g.name ≠ f.name)
    (hfree' : ∀ f ∈ w'.fields, ∀ g ∈ c.fields, g.name ≠ f.name)
    (hapart : ∀ f ∈ w'.fields, ∀ g ∈ w.fields, g.name ≠ f.name) :
    (c.replaced n m w).replaced n' m' w' = { c with
      methods := (c.methods.set n m).set n' m'
      fields := c.fields ++ declared w.fields ++ declared w'.fields
      major := if inferredMajor < c.major then inferredMajor else c.major
      minor := if inferredMajor < c.major then 0 else c.minor } := by
  have hboth : ∀ f ∈ w'.fields, ∀ g ∈ c.fields ++ declared w.fields, g.name ≠ f.name := by
    intro f hf g hg
    rcases List.mem_append.mp hg with hg | hg
    · exact hfree' f hf g hg
    · exact hapart f hf g
        (exists_of_mem_declared (fun g hg => Woven.attributes_of_mem_fields hg) hg)
  rw [replaced_eq c n m hfree, replaced_eq _ n' m' hboth]
  dsimp only
  by_cases hmajor : inferredMajor < c.major
  · simp only [if_pos hmajor, if_neg (UInt16.lt_irrefl inferredMajor)]
  · simp only [if_neg hmajor]

/-- A method that comes out new has passed the checks against its class. -/
theorem checks_of_replaced (h : weaveMethod settings c m = .ok (w, m')) (hzero : w.states ≠ 0) :
    c.checkLowering m.key = .ok () ∧ ∀ f ∈ w.fields, ∀ g ∈ c.fields, g.name ≠ f.name := by
  obtain ⟨body, states, -, -, -, -, hcases⟩ := weaveMethod_cases h
  rcases hcases with ⟨habsurd, -⟩ | ⟨new, heights, maxStack, hnew, -⟩
  · exact absurd habsurd hzero
  · exact ⟨hnew.lowering, name_ne_of_checkFields hnew.fields⟩

/-- What a method comes to does not depend on whether another one was woven before. -/
theorem weaveMethod_settled {other : Method} (hapart : settings.Apart m other) :
    weaveMethod settings (c.settled n (weaveMethod settings c m)) other =
      weaveMethod settings c other := by
  cases hw : weaveMethod settings c m with
  | error e => rfl
  | ok out =>
    obtain ⟨w, m'⟩ := out
    by_cases hzero : w.states = 0
    · rw [settled, if_pos hzero]
    · obtain ⟨hlower, hfree⟩ := checks_of_replaced hw hzero
      rw [settled, if_neg hzero, replaced_eq c n m' hfree]
      refine weaveMethod_congr rfl ?_ fun name hname => ?_
      · -- the class is lowered now, and could be lowered before
        have hbefore : c.checkLowering other.key = .ok () :=
          checkLowering_eq_ok_iff.mpr (checkLowering_eq_ok_iff.mp hlower)
        rw [hbefore, checkLowering_eq_ok_iff]
        rintro ⟨hmajor, -⟩
        dsimp only at hmajor
        split at hmajor
        · exact absurd hmajor (UInt16.lt_irrefl _)
        · next hlow => exact hlow hmajor
      · -- no field that was added has the name
        have hnone : (declared w.fields).find? (·.name = name) = none := by
          rw [List.find?_eq_none]
          intro f hf
          have hmem := exists_of_mem_declared (fun g hg => Woven.attributes_of_mem_fields hg) hf
          have hne : f.name ≠ name := fun heq =>
            hapart name (heq ▸ owns_of_mem_fields hw hmem) hname
          simpa using hne
        rw [field?, field?, List.find?_append, hnone, Option.or_none]

/-- The other methods of the class stay. -/
theorem getElem?_settled {n' : Nat} {other : Method} {out : Outcome (Woven × Method)} (hne : n ≠ n')
    (h : c.methods[n']? = some other) : (c.settled n out).methods[n']? = some other := by
  match out with
  | .error e => exact h
  | .ok (w, m) =>
    by_cases hzero : w.states = 0
    · rw [settled, if_pos hzero]
      exact h
    · rw [settled, if_neg hzero, methods_replaced, List.getElem?_set_ne hne, h]

/-- Classes that differ in the order of their fields only. -/
structure Reordered (c c' : ClassFile) : Prop where
  fields : c.fields.Perm c'.fields
  rest : c = { c' with fields := c.fields }

theorem Reordered.refl (c : ClassFile) : c.Reordered c := ⟨.refl _, rfl⟩

theorem settled_comm {n₁ n₂ : Nat} {m₁ m₂ : Method} (hne : n₁ ≠ n₂)
    (hapart : settings.Apart m₁ m₂) :
    ((c.settled n₁ (weaveMethod settings c m₁)).settled n₂ (weaveMethod settings c m₂)).Reordered
      ((c.settled n₂ (weaveMethod settings c m₂)).settled n₁ (weaveMethod settings c m₁)) := by
  cases h₁ : weaveMethod settings c m₁ with
  | error e => exact .refl _
  | ok out₁ =>
    cases h₂ : weaveMethod settings c m₂ with
    | error e => exact .refl _
    | ok out₂ =>
      obtain ⟨w₁, m₁'⟩ := out₁
      obtain ⟨w₂, m₂'⟩ := out₂
      by_cases hzero₁ : w₁.states = 0
      · simp only [settled, if_pos hzero₁]
        exact .refl _
      by_cases hzero₂ : w₂.states = 0
      · simp only [settled, if_pos hzero₂]
        exact .refl _
      -- both methods are replaced
      obtain ⟨-, hfree₁⟩ := checks_of_replaced h₁ hzero₁
      obtain ⟨-, hfree₂⟩ := checks_of_replaced h₂ hzero₂
      have hcross : ∀ f ∈ w₂.fields, ∀ g ∈ w₁.fields, g.name ≠ f.name := fun f hf g hg heq =>
        hapart f.name (heq ▸ owns_of_mem_fields h₁ hg) (owns_of_mem_fields h₂ hf)
      simp only [settled, if_neg hzero₁, if_neg hzero₂]
      rw [replaced_replaced c n₁ n₂ m₁' m₂' hfree₁ hfree₂ hcross,
        replaced_replaced c n₂ n₁ m₂' m₁' hfree₂ hfree₁ fun f hf g hg heq =>
        hcross g hg f hf heq.symm,
        List.set_comm m₂' m₁' hne.symm]
      refine ⟨?_, rfl⟩
      dsimp only
      rw [List.append_assoc, List.append_assoc]
      exact List.Perm.append_left _ List.perm_append_comm

/-- **Different generators of a class can be woven in either order.** With the standard names of
fields, and with any others under which no field of the one method has the name of a field of the
other, each of two methods comes to the same result or the same fault whether it is woven first or
second, and the class comes out the same up to the order of its fields. -/
theorem weave_comm (settings : Settings) {c : ClassFile} {n₁ n₂ : Nat} {m₁ m₂ : Method}
    (h₁ : c.methods[n₁]? = some m₁) (h₂ : c.methods[n₂]? = some m₂) (hne : m₁.name ≠ m₂.name) :
    (settings.stateStem = Settings.defaultStateStem →
      settings.slotStem = Settings.defaultSlotStem → settings.Apart m₁ m₂) ∧
    (settings.Apart m₁ m₂ →
      ∃ out₁ out₂ c₁ c₂ c₁₂ c₂₁,
        (weave settings n₁).on c = (out₁, c₁) ∧ (weave settings n₂).on c₁ = (out₂, c₁₂) ∧
        (weave settings n₂).on c = (out₂, c₂) ∧ (weave settings n₁).on c₂ = (out₁, c₂₁) ∧
        c₁₂.Reordered c₂₁) := by
  refine ⟨fun hstate hslot => Settings.apart_of_standard hstate hslot hne, fun hapart => ?_⟩
  have hplaces : n₁ ≠ n₂ := by
    rintro rfl
    exact hne (congrArg Method.name (Option.some.inj (h₁.symm.trans h₂)))
  refine ⟨_, _, _, _, _, _, weave_settled h₁, ?_, weave_settled h₂, ?_,
    settled_comm (c := c) hplaces hapart⟩
  · rw [weave_settled (getElem?_settled hplaces h₂), weaveMethod_settled hapart]
  · rw [weave_settled (getElem?_settled hplaces.symm h₁), weaveMethod_settled hapart.symm]

/-- A class with two generators. -/
def countdowns : ClassFile :=
  { name := "Seq"
    methods := [Generator.countdownMethod "next", Generator.countdownMethod "back"] }

theorem weave_comm_countdowns : ∃ w₁ w₂ c₁ c₂ c₁₂ c₂₁,
    (weave { enhancers := some [] } 0).on countdowns = (.ok w₁, c₁) ∧
    (weave { enhancers := some [] } 1).on c₁ = (.ok w₂, c₁₂) ∧
    (weave { enhancers := some [] } 1).on countdowns = (.ok w₂, c₂) ∧
    (weave { enhancers := some [] } 0).on c₂ = (.ok w₁, c₂₁) ∧
    w₁.states = 1 ∧ w₂.states = 1 ∧ c₁₂.Reordered c₂₁ := by
  have hnext : countdowns.methods[0]? = some (Generator.countdownMethod "next") := rfl
  have hback : countdowns.methods[1]? = some (Generator.countdownMethod "back") := rfl
  have hcomm := weave_comm { enhancers := some [] } hnext hback (by decide)
  obtain ⟨out₁, out₂, c₁, c₂, c₁₂, c₂₁, h₁, h₁₂, h₂, h₂₁, hsame⟩ := hcomm.2 (hcomm.1 rfl rfl)
  obtain ⟨hout₁, hout₂⟩ :
      ((weave { enhancers := some [] } 0).on countdowns).1.toOption.map Woven.states = some 1 ∧
      ((weave { enhancers := some [] } 1).on countdowns).1.toOption.map Woven.states = some 1 := by
    simp only [weave_on]
    delta weaveMethod wovenCode
    decide +kernel
  rw [h₁] at hout₁
  rw [h₂] at hout₂
  obtain ⟨w₁, hw₁, hstates₁⟩ := Option.map_eq_some_iff.mp hout₁
  obtain ⟨w₂, hw₂, hstates₂⟩ := Option.map_eq_some_iff.mp hout₂
  obtain rfl := Outcome.eq_ok_of_toOption hw₁
  obtain rfl := Outcome.eq_ok_of_toOption hw₂
  exact ⟨w₁, w₂, c₁, c₂, c₁₂, c₂₁, h₁, h₁₂, h₂, h₂₁, hstates₁, hstates₂, hsame⟩

end ClassFile

end ClassWeaver
