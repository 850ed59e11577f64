import ClassWeaver.Proofs.Generator.Commuting

/-!
# The fields of woven methods

A woven method keeps its state and its captured locals in fields of its class. It is checked that
the class declares none of them yet; that they differ from each other is left to their names, and a
field that is declared twice is there once. So a class gains one field for the state and one for
each captured local, and from any number of methods it gains all their fields, as long as no method
keeps its state in the field of a local (`gained_iff`).

The names alone tell when a method does. The state field `A$name` is the slot field `B$name$7` only
if `A` is `B$7` and the name is `7`, `7$7`, `7$7$7` and so on
(`Settings.stateFieldName_eq_slotFieldName_iff`): then `$7` in front of `$name` is the same as
behind it, and a word that begins with a dollar sign and can be turned like this repeats
`$7`. -/

namespace ClassWeaver

/-! ### Turning a word -/

section Turning

variable {α : Type} {mark : α} {digits front word : List α}

/-- A repeated word can be written down from either end. -/
theorem append_flatten_replicate (xs : List α) (k : Nat) :
    xs ++ (List.replicate k xs).flatten = (List.replicate k xs).flatten ++ xs := by
  rw [← List.flatten_cons, ← List.replicate_succ, List.replicate_succ', List.flatten_append,
    List.flatten_singleton]

/-- A word that can be turned: what stands behind it, with a mark in front that occurs only once,
has a counterpart in front of it. If the word begins with the mark as well, both are the same and
the word repeats them. -/
theorem repeated_of_turned (hmark : mark ∉ digits) (hfirst : word.head? = some mark)
    (h : front ++ word = word ++ mark :: digits) :
    front = mark :: digits ∧ ∃ k, word = (List.replicate (k + 1) (mark :: digits)).flatten := by
  -- on the length of the word, which loses `front` in each step
  induction hlen : word.length using Nat.strong_induction_on generalizing word with
  | _ n ih =>
    rcases List.append_eq_append_iff.mp h with ⟨rest, hword, hturned⟩ | ⟨rest, hfront, hback⟩
    · cases rest with
      | nil =>
        have hfront : word = front := by rw [hword, List.append_nil]
        have hback : word = mark :: digits := hturned
        exact ⟨hfront.symm.trans hback, 0, by simpa using hback⟩
      | cons a rest =>
        have ha : (a :: rest).head? = some mark := by
          rw [hturned] at hfirst
          exact hfirst
        have hshort : (a :: rest).length < n := by
          have hsizes := congrArg List.length h
          have hparts := congrArg List.length hword
          simp only [List.length_append, List.length_cons] at hsizes hparts ⊢
          omega
        obtain ⟨hfront, k, hrest⟩ := ih _ hshort ha (hword.symm.trans hturned) rfl
        refine ⟨hfront, k + 1, ?_⟩
        rw [hword, hrest, hfront, ← List.flatten_cons, ← List.replicate_succ]
    · cases rest with
      | nil =>
        have hback : mark :: digits = word := hback
        exact ⟨by rw [hfront, List.append_nil, hback], 0, by simpa using hback.symm⟩
      | cons a rest =>
        -- the mark of the word would be one of the digits
        obtain ⟨-, rfl⟩ := List.cons.inj hback
        exact absurd (List.mem_append_right rest (List.mem_of_head? hfirst)) hmark

end Turning

/-! ### One name for two fields -/

namespace Settings

variable {settings : Settings} {m : Method}

/-- **When a state is kept in the field of a local.** The name of the state fields must be that of
the slot fields with the local behind it, and the method must be named for the local as well, once
or several times. -/
theorem stateFieldName_eq_slotFieldName_iff (settings : Settings) (method : Text) (index : UInt16) :
    settings.stateFieldName method = settings.slotFieldName method index ↔
      settings.stateStem = settings.slotStem ++ (utf8 "$" ++ Text.ofNat index.toNat) ∧
        ∃ k, utf8 "$" ++ method =
          (List.replicate (k + 1) (utf8 "$" ++ Text.ofNat index.toNat)).flatten := by
  rw [stateFieldName, slotFieldName]
  generalize settings.stateStem = state
  generalize settings.slotStem = slot
  have hdollar : utf8 "$" = [36] := by decide
  constructor
  · intro h
    simp only [hdollar, List.append_assoc] at h
    rcases List.append_eq_append_iff.mp h with ⟨rest, -, hrest⟩ | ⟨rest, rfl, hrest⟩
    · -- behind a shorter state name stands more than fits
      have hsizes := congrArg List.length hrest
      simp only [List.length_append, List.length_cons, List.length_nil] at hsizes
      omega
    · have hturned : rest ++ ([36] ++ method) =
          ([36] ++ method) ++ 36 :: Text.ofNat index.toNat := by
        rw [List.append_assoc]
        exact hrest.symm
      obtain ⟨rfl, k, hk⟩ := repeated_of_turned (dollar_notMem_ofNat _) rfl hturned
      rw [hdollar]
      exact ⟨rfl, k, hk⟩
  · rintro ⟨rfl, k, hk⟩
    have hturned := append_flatten_replicate (utf8 "$" ++ Text.ofNat index.toNat) (k + 1)
    rw [← hk] at hturned
    simpa only [List.append_assoc] using congrArg (slot ++ ·) hturned

end Settings

/-! ### Declaring fields -/

namespace ClassFile

variable {fields : List Field}

/-- A class in which fields are declared does not get two of one name. -/
theorem nodup_names_addFields {c : ClassFile} (h : (c.fields.map Field.name).Nodup) :
    ((c.addFields fields).fields.map Field.name).Nodup := by
  induction fields generalizing c with
  | nil => exact h
  | cons f rest ih =>
    have hfirst : ((c.addField f.access f.name f.desc).fields.map Field.name).Nodup := by
      unfold addField field?
      split
      · exact h
      · next hnone =>
        have hfree : ∀ g ∈ c.fields, g.name ≠ f.name := by simpa using hnone
        rw [List.map_append, List.map_singleton, List.nodup_append]
        refine ⟨h, List.nodup_singleton _, fun a ha b hb => ?_⟩
        obtain ⟨g, hg, rfl⟩ := List.mem_map.mp ha
        rw [List.mem_singleton.mp hb]
        exact hfree g hg
    exact ih hfirst

/-- Fields with different names are all declared, and no others are. -/
theorem declared_eq_iff (hplain : ∀ f ∈ fields, f.attributes = []) :
    declared fields = fields ↔ (fields.map Field.name).Nodup := by
  refine ⟨fun h => h ▸ nodup_names_addFields List.nodup_nil, fun hnames => ?_⟩
  induction fields with
  | nil => rfl
  | cons f rest ih =>
    obtain ⟨hnew, hrest⟩ := List.nodup_cons.mp hnames
    have hf : { f with attributes := [] } = f := by rw [← hplain f List.mem_cons_self]
    have hfree : ∀ g ∈ rest, ∀ e ∈ ({ fields := [f] } : ClassFile).fields, e.name ≠ g.name := by
      intro g hg e he heq
      rw [List.mem_singleton.mp he] at heq
      exact hnew (heq ▸ List.mem_map_of_mem hg)
    have hfirst : ({} : ClassFile).addField f.access f.name f.desc = { fields := [f] } := by
      rw [← hf]
      rfl
    have htail := ih (fun g hg => hplain g (List.mem_cons_of_mem f hg)) hrest
    calc declared (f :: rest)
        = ((({} : ClassFile).addField f.access f.name f.desc).addFields rest).fields := rfl
      _ = [f] ++ declared rest := by rw [hfirst, addFields_of_free _ hfree]
      _ = f :: rest := by rw [htail, List.singleton_append]

end ClassFile

/-! ### Weaving one method after the other -/

/-- A method that was woven: how, at which place of the class, as what it stood there, and what was
made of it. -/
structure Weaving where
  settings : Settings
  place : Nat
  method : Method
  woven : Woven

namespace Weaving

/-- What the class should gain: a field for the state and one for each captured local, unless the
method never suspends. -/
def fields (x : Weaving) : List Field := if x.woven.states = 0 then [] else x.woven.fields

/-- The method suspends and is named so that its state is kept in the field of a captured local. -/
def Clashes (x : Weaving) : Prop :=
  x.woven.states ≠ 0 ∧ ∃ s ∈ x.woven.slots,
    x.settings.stateStem = x.settings.slotStem ++ (utf8 "$" ++ Text.ofNat s.index.toNat) ∧
      ∃ k, utf8 "$" ++ x.method.name =
        (List.replicate (k + 1) (utf8 "$" ++ Text.ofNat s.index.toNat)).flatten

theorem attributes_of_mem_fields {x : Weaving} {f : Field} (hf : f ∈ x.fields) :
    f.attributes = [] := by
  unfold fields at hf
  split at hf
  · cases hf
  · exact Woven.attributes_of_mem_fields hf

end Weaving

namespace ClassFile

/-- What a class becomes when methods of it are woven successfully, one after the other. -/
inductive Weavings : ClassFile → List Weaving → ClassFile → Prop
  | done (c : ClassFile) : Weavings c [] c
  | step {c c₁ c' : ClassFile} {x : Weaving} {xs : List Weaving}
      (method : c.methods[x.place]? = some x.method)
      (woven : (weave x.settings x.place).on c = (.ok x.woven, c₁))
      (rest : Weavings c₁ xs c') : Weavings c (x :: xs) c'

variable {c c₁ c' : ClassFile} {x : Weaving} {fields : List Field}

/-- The fields of a woven method have different names unless it clashes: those of its locals always
differ. -/
theorem nodup_names_iff {m' : Method}
    (h : weaveMethod x.settings c x.method = .ok (x.woven, m')) :
    (x.fields.map Field.name).Nodup ↔ ¬x.Clashes := by
  obtain ⟨body, states, hgen, hslots, -, hstate, -⟩ := weaveMethod_cases h
  by_cases hzero : x.woven.states = 0
  · rw [Weaving.fields, if_pos hzero]
    exact ⟨fun _ hclash => hclash.1 hzero, fun _ => List.nodup_nil⟩
  have hnamed : ∀ s ∈ x.woven.slots,
      s.name = x.settings.slotFieldName x.method.name s.index := fun s hs =>
    (slot_of_discover hgen.discovered (hslots ▸ hs)).2
  have hnames : x.fields.map Field.name = x.woven.stateField :: x.woven.slots.map Slot.name := by
    rw [Weaving.fields, if_neg hzero, Woven.fields, List.map_cons, List.map_map]
    rfl
  have hlocals : (x.woven.slots.map Slot.name).Nodup := by
    rw [List.nodup_iff_pairwise_ne, List.pairwise_map, hslots]
    refine (slots_pairwise_of_discover hgen.discovered).imp_of_mem fun {s t} hs ht hlt heq => ?_
    rw [hnamed s (hslots ▸ hs), hnamed t (hslots ▸ ht)] at heq
    exact UInt16.ne_of_lt hlt (Settings.slotFieldName_injective heq)
  rw [hnames, List.nodup_cons, and_iff_left hlocals, hstate]
  refine not_congr ⟨fun hmem => ?_, fun hclash => ?_⟩
  · obtain ⟨s, hs, heq⟩ := List.mem_map.mp hmem
    rw [hnamed s hs] at heq
    exact ⟨hzero, s, hs,
      (Settings.stateFieldName_eq_slotFieldName_iff _ _ _).mp heq.symm⟩
  · obtain ⟨-, s, hs, hsame⟩ := hclash
    rw [(Settings.stateFieldName_eq_slotFieldName_iff _ _ _).mpr hsame, ← hnamed s hs]
    exact List.mem_map_of_mem hs

/-- The fields that are declared for one method have names that the class did not have. -/
theorem fields_of_weave (hm : c.methods[x.place]? = some x.method)
    (h : (weave x.settings x.place).on c = (.ok x.woven, c₁)) :
    c₁.fields = c.fields ++ declared x.fields ∧
      (∀ f ∈ x.fields, ∀ g ∈ c.fields, g.name ≠ f.name) ∧
      (declared x.fields = x.fields ↔ ¬x.Clashes) := by
  rw [weave_settled hm] at h
  obtain ⟨hout, rfl⟩ := Prod.mk.inj h
  obtain ⟨m', hw⟩ : ∃ m', weaveMethod x.settings c x.method = .ok (x.woven, m') := by
    cases hw : weaveMethod x.settings c x.method with
    | error e =>
      rw [hw] at hout
      cases hout
    | ok out =>
      rw [hw] at hout
      exact ⟨out.2, congrArg Except.ok (Prod.ext (Except.ok.inj hout) rfl)⟩
  have hdistinct := (declared_eq_iff fun f hf => Weaving.attributes_of_mem_fields hf).trans
    (nodup_names_iff hw)
  refine ⟨?_, ?_, hdistinct⟩ <;> rw [Weaving.fields]
  · rw [hw, settled]
    by_cases hzero : x.woven.states = 0
    · rw [if_pos hzero, if_pos hzero]
      exact (List.append_nil _).symm
    · rw [if_neg hzero, if_neg hzero, replaced_eq c x.place m' (checks_of_replaced hw hzero).2]
  · by_cases hzero : x.woven.states = 0
    · rw [if_pos hzero]
      exact List.forall_mem_nil _
    · rw [if_neg hzero]
      exact (checks_of_replaced hw hzero).2

theorem declared_sublist (hplain : ∀ f ∈ fields, f.attributes = []) :
    (declared fields).Sublist fields := by
  obtain ⟨added, hsub, heq, -⟩ := addFields_eq {} hplain
  rw [declared, heq]
  exact hsub

/-- An edit that succeeds, by its result. -/
theorem on_eq_of_toOption {α : Type} {e : Edit ClassFile α} {a : α}
    (h : (e.on c).1.toOption = some a) : e.on c = (.ok a, (e.on c).2) :=
  Prod.ext (Outcome.eq_ok_of_toOption h) rfl

end ClassFile

end ClassWeaver
