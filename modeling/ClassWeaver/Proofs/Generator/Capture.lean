import Mathlib.Data.List.Lattice
import Mathlib.Data.List.Pairwise
import ClassWeaver.Proofs.Generator.Commit
import ClassWeaver.Proofs.Generator.Weaving

/-!
# Captured locals

The survey of a body looks at one local at a time, and at the instructions that write it. So the
slots of a woven method are exactly the locals that its body writes, each with the family of all its
writes (`writes_of_mem_slots`, `exists_slot_of_writes`). Two things escape it. A wide value takes
the next local too, and the survey does not see that another slot starts there. And a parameter
comes with the type that the descriptor gives it, which the survey never compares with a write. A
woven method can save and restore its slots if and only if its body avoids both
(`restorable_iff`). -/

namespace ClassWeaver

/-! ### Families -/

namespace Family

/-- The locals that a value of the family takes. -/
def size : Family → Nat
  | long | double => 2
  | _ => 1

theorem ofDescriptor_of_isReference {desc : Text} (h : Descriptor.isReference desc = true) :
    ofDescriptor desc = reference := by
  cases desc with
  | nil => rfl
  | cons b desc =>
    simp only [Descriptor.isReference, Bool.or_eq_true, decide_eq_true_eq] at h
    rcases h with rfl | rfl <;> rfl

theorem slotSize_of_isReference {desc : Text} (h : Descriptor.isReference desc = true) :
    Descriptor.slotSize desc = 1 := by
  unfold Descriptor.slotSize
  split
  · next hwide =>
    simp only [Bool.or_eq_true, decide_eq_true_eq] at hwide
    rcases hwide with rfl | rfl <;> cases h
  · rfl

end Family

/-- A slot has the family of the writes that it was made for, and takes the locals that these
do. -/
theorem Survey.slotDescriptor_family (s : Survey) (index : UInt16) (f : Family) :
    Family.ofDescriptor (s.slotDescriptor index f) = f ∧
      Descriptor.slotSize (s.slotDescriptor index f) = f.size := by
  have hplain : Family.ofDescriptor f.descriptor = f ∧
      Descriptor.slotSize f.descriptor = f.size := by
    cases f <;> decide
  unfold slotDescriptor
  split
  · next desc hdesc =>
    split
    · next href =>
      exact ⟨Family.ofDescriptor_of_isReference href, Family.slotSize_of_isReference href⟩
    · exact hplain
  · exact hplain

/-! ### Writes -/

/-- The instruction leaves a value of the family in a local other than the receiver. -/
def Insn.Writes (i : Insn) (n : UInt16) (f : Family) : Prop :=
  Survey.writes? i = some n ∧ Survey.writtenFamily? i.opcode = some f

/-- The locals that a listing writes, with the families of the values. -/
def Listing.writes (l : Listing) : List (UInt16 × Family) :=
  l.insns.filterMap fun i =>
    (Survey.writes? i).bind fun n => (Survey.writtenFamily? i.opcode).map fun f => (n, f)

theorem Listing.mem_writes {l : Listing} {p : UInt16 × Family} :
    p ∈ l.writes ↔ ∃ i ∈ l.insns, i.Writes p.1 p.2 := by
  simp [writes, Insn.Writes, Option.bind_eq_some_iff, Prod.ext_iff]

namespace Survey

variable {site : CallSite} {s s' : Survey} {i : Insn} {is : List Insn} {n : UInt16} {f : Family}

/-- A write is new, or agrees with what is on record, or is a conflict. -/
theorem write_cases (h : s.write i n f = .ok s') :
    (∀ p ∈ s.written, p.1 ≠ n) ∧ s'.written = (n, f) :: s.written ∧ s'.conflict = s.conflict ∨
      s'.written = s.written ∧ (s'.conflict = none → s.conflict = none ∧ (n, f) ∈ s.written) := by
  unfold write find? at h
  split at h
  · next hnone =>
    obtain rfl := Except.ok.inj h
    rw [Option.map_eq_none_iff, List.find?_eq_none] at hnone
    exact .inl ⟨fun p hp => by simpa using hnone p hp, rfl, rfl⟩
  · next known hknown =>
    obtain ⟨⟨k, known'⟩, hfind, rfl⟩ := Option.map_eq_some_iff.mp hknown
    have hmem := List.mem_of_find?_eq_some hfind
    obtain rfl : k = n := by simpa using List.find?_some hfind
    refine .inr ?_
    split at h
    · next hagree =>
      obtain rfl := Except.ok.inj h
      refine ⟨rfl, fun hnone => ⟨hnone, ?_⟩⟩
      rw [hnone, Option.isSome_none, Bool.or_false, decide_eq_true_eq] at hagree
      obtain rfl : known' = f := hagree
      exact hmem
    · split at h
      · obtain rfl := Except.ok.inj h
        exact ⟨rfl, fun hnone => nomatch hnone⟩
      · cases h

/-- What a survey of some instructions has on record: each local once, from an instruction that
writes it, and if nothing is in conflict every write. -/
structure Records (is : List Insn) (s : Survey) : Prop where
  once : s.written.Pairwise fun p q => p.1 ≠ q.1
  written : ∀ p ∈ s.written, ∃ i ∈ is, i.Writes p.1 p.2
  complete : s.conflict = none → ∀ i ∈ is, ∀ n f, i.Writes n f → (n, f) ∈ s.written

theorem records_empty : Records [] {} where
  once := .nil
  written := fun _ hp => nomatch hp
  complete := fun _ _ hi => nomatch hi

theorem Records.visit (hs : Records is s) (h : visit site s i = .ok s') :
    Records (is ++ [i]) s' := by
  have hkept : ∀ p ∈ s.written, ∃ j ∈ is ++ [i], j.Writes p.1 p.2 := fun p hp => by
    obtain ⟨j, hj, hw⟩ := hs.written p hp
    exact ⟨j, List.mem_append_left _ hj, hw⟩
  -- The writes of `i` itself are all there is to show about completeness.
  have hcomplete : (s'.conflict = none → s.conflict = none) →
      (∀ p ∈ s.written, p ∈ s'.written) →
      (s'.conflict = none → ∀ n f, i.Writes n f → (n, f) ∈ s'.written) →
      s'.conflict = none → ∀ j ∈ is ++ [i], ∀ n f, j.Writes n f → (n, f) ∈ s'.written := by
    intro hnone hold hnew hc j hj n f hw
    rcases List.mem_append.mp hj with hj | hj
    · exact hold _ (hs.complete (hnone hc) j hj n f hw)
    · obtain rfl := List.mem_singleton.mp hj
      exact hnew hc n f hw
  rcases visit_cases h with ⟨n, f, hn, hf, -, hwrite⟩ | ⟨hnone, -, hwritten, hconflict⟩
  · have hw : i.Writes n f := ⟨hn, hf⟩
    have hself : ∀ k g, i.Writes k g → (k, g) = (n, f) := fun k g hk => by
      rw [Option.some.inj (hk.1.symm.trans hw.1), Option.some.inj (hk.2.symm.trans hw.2)]
    rcases write_cases hwrite with ⟨hfresh, hwritten, hconflict⟩ | ⟨hwritten, hagree⟩
    · refine ⟨?_, ?_, hcomplete (fun hc => hconflict ▸ hc) ?_ ?_⟩
      · rw [hwritten]
        exact .cons (fun p hp => (hfresh p hp).symm) hs.once
      · rw [hwritten]
        intro p hp
        rcases List.mem_cons.mp hp with rfl | hp
        · exact ⟨i, List.mem_append_right _ (List.mem_singleton.mpr rfl), hw⟩
        · exact hkept p hp
      · rw [hwritten]
        exact fun p hp => List.mem_cons_of_mem _ hp
      · rw [hwritten]
        intro _ k g hk
        rw [hself k g hk]
        exact List.mem_cons_self
    · refine ⟨hwritten ▸ hs.once, hwritten ▸ hkept, hcomplete (fun hc => (hagree hc).1) ?_ ?_⟩
      · rw [hwritten]
        exact fun p hp => hp
      · rw [hwritten]
        intro hc k g hk
        rw [hself k g hk]
        exact (hagree hc).2
  · refine ⟨hwritten ▸ hs.once, hwritten ▸ hkept, hcomplete (fun hc => hconflict ▸ hc) ?_ ?_⟩
    · rw [hwritten]
      exact fun p hp => hp
    · exact fun _ k g hk => nomatch hnone.symm.trans hk.1

theorem records_ofInsns (h : ofInsns site is = .ok s) : Records is s := by
  have hrun : ∀ (js : List Insn) {seen : List Insn} {s₀ : Survey}, Records seen s₀ →
      js.foldlM (Survey.visit site) s₀ = .ok s → Records (seen ++ js) s := by
    intro js
    induction js with
    | nil =>
      intro seen s₀ hs h
      obtain rfl := Except.ok.inj h
      rwa [List.append_nil]
    | cons j js ih =>
      intro seen s₀ hs h
      rw [List.foldlM_cons] at h
      obtain ⟨s₁, hvisit, h⟩ := Except.bind_eq_ok_iff.mp h
      have hrest := ih (hs.visit hvisit) h
      rwa [List.append_assoc, List.singleton_append] at hrest
  exact hrun is records_empty h

end Survey

/-! ### Slots -/

section Slots

variable {settings : Settings} {l : Listing} {method desc : Text} {states : States}

/-- A body that suspends has no writes in conflict. -/
theorem conflict_of_discover (h : discover settings l method desc = .ok states)
    (hcount : 0 < states.count) :
    ∃ s, Survey.ofInsns settings.yieldSite l.insns = .ok s ∧ s.conflict = none ∧
      states = States.create s.yields (s.slots settings method) := by
  unfold discover at h
  split at h
  · cases h
  · obtain ⟨s, hs, h⟩ := Except.bind_eq_ok_iff.mp h
    refine ⟨s, hs, ?_⟩
    split at h
    · next f hf =>
      split at h
      · cases h
      · next hyields =>
        obtain rfl := Except.ok.inj h
        have hzero : (States.create s.yields (s.slots settings method)).count = s.yields :=
          Array.size_replicate
        omega
    · next hnone => exact ⟨hnone, (Except.ok.inj h).symm⟩

/-- Every slot is a local that the body writes, with the family of the write and its size. -/
theorem writes_of_mem_slots (h : discover settings l method desc = .ok states)
    (hcount : 0 < states.count) {t : Slot} (ht : t ∈ states.slots) :
    (t.index, Family.ofDescriptor t.desc) ∈ l.writes ∧
      Descriptor.slotSize t.desc = (Family.ofDescriptor t.desc).size := by
  obtain ⟨s, hs, -, rfl⟩ := conflict_of_discover h hcount
  rcases Slot.mem_of_mem_foldl_insert ht with ht | ht
  · obtain ⟨p, hp, rfl⟩ := List.mem_map.mp ht
    obtain ⟨hfamily, hsize⟩ := s.slotDescriptor_family p.1 p.2
    dsimp only
    rw [hfamily, hsize]
    exact ⟨Listing.mem_writes.mpr ((Survey.records_ofInsns hs).written p hp), rfl⟩
  · cases ht

/-- Every write has a slot of its family. -/
theorem exists_slot_of_writes (h : discover settings l method desc = .ok states)
    (hcount : 0 < states.count) {p : UInt16 × Family} (hp : p ∈ l.writes) :
    ∃ t ∈ states.slots, t.index = p.1 ∧ Family.ofDescriptor t.desc = p.2 := by
  obtain ⟨i, hi, hw⟩ := Listing.mem_writes.mp hp
  obtain ⟨t, ht, hindex⟩ := exists_slot_of_discover h hi hw.1
  refine ⟨t, ht, hindex, ?_⟩
  obtain ⟨s, hs, hconflict, rfl⟩ := conflict_of_discover h hcount
  have hrecords := Survey.records_ofInsns hs
  rcases Slot.mem_of_mem_foldl_insert ht with ht | ht
  · obtain ⟨q, hq, rfl⟩ := List.mem_map.mp ht
    -- A local is on record once, so the slot was made for this very write.
    have hsame : q = p := by
      have : Std.Symm fun p q : UInt16 × Family => p.1 ≠ q.1 := ⟨fun _ _ => Ne.symm⟩
      by_contra hne
      exact hrecords.once.forall hq (hrecords.complete hconflict i hi p.1 p.2 hw) hne hindex
    subst hsame
    exact (s.slotDescriptor_family q.1 q.2).1
  · cases ht

end Slots

/-! ### Saving and restoring -/

/-- The locals that the value of a slot takes. -/
def Slot.locals (s : Slot) : List Nat := List.range' s.index.toNat (Descriptor.slotSize s.desc)

namespace MethodType

/-- Parameter types with their first locals, from a local on. -/
def localsFrom : Nat → List Text → List (Nat × Text)
  | _, [] => []
  | n, desc :: rest => (n, desc) :: localsFrom (n + Descriptor.slotSize desc) rest

/-- The parameters of an instance method with their first locals. -/
def paramLocals (t : MethodType) : List (Nat × Text) := localsFrom 1 t.params

/-- A parameter of the family starts at the local. -/
def ParamAt (t : MethodType) (n : Nat) (f : Family) : Prop :=
  ∃ p ∈ t.paramLocals, p.1 = n ∧ Family.ofDescriptor p.2 = f

instance (t : MethodType) (n : Nat) (f : Family) : Decidable (t.ParamAt n f) :=
  inferInstanceAs (Decidable (∃ _ ∈ _, _))

end MethodType

/-- No slot reaches into another, and a slot among the parameters is one of them. -/
structure Restorable (t : MethodType) (slots : List Slot) : Prop where
  disjoint : slots.Pairwise fun r s => r.locals.Disjoint s.locals
  typed : ∀ s ∈ slots, s.index.toNat ≤ t.paramSlots →
    t.ParamAt s.index.toNat (Family.ofDescriptor s.desc)

/-- No write reaches into a local that is written too, and a write among the parameters is to
one of them. -/
structure Listing.KeepsApart (t : MethodType) (l : Listing) : Prop where
  disjoint : ∀ p ∈ l.writes, ∀ q ∈ l.writes, p.2.size = 2 → q.1.toNat ≠ p.1.toNat + 1
  typed : ∀ p ∈ l.writes, p.1.toNat ≤ t.paramSlots → t.ParamAt p.1.toNat p.2

theorem Slot.mem_locals {s : Slot} {k : Nat} :
    k ∈ s.locals ↔ s.index.toNat ≤ k ∧ k < s.index.toNat + Descriptor.slotSize s.desc := by
  rw [locals, List.mem_range'_1]

theorem restorable_iff_of_discover {settings : Settings} {l : Listing} {method desc : Text}
    {states : States} (t : MethodType) (h : discover settings l method desc = .ok states)
    (hcount : 0 < states.count) : Restorable t states.slots ↔ l.KeepsApart t := by
  constructor
  · rintro ⟨hdisjoint, htyped⟩
    refine ⟨fun p hp q hq hwide hnext => ?_, fun p hp hle => ?_⟩
    · obtain ⟨r, hr, hrp, hfamily⟩ := exists_slot_of_writes h hcount hp
      obtain ⟨s, hs, hsq, -⟩ := exists_slot_of_writes h hcount hq
      have hsize := (writes_of_mem_slots h hcount hr).2
      rw [← hrp, ← hsq] at hnext
      rw [hfamily, hwide] at hsize
      have hpos : 0 < Descriptor.slotSize s.desc := by
        unfold Descriptor.slotSize
        split <;> decide
      have hne : r ≠ s := by
        rintro rfl
        omega
      have : Std.Symm fun r s : Slot => r.locals.Disjoint s.locals :=
        ⟨fun _ _ => List.Disjoint.symm⟩
      -- the slot behind a wide one lies in the locals of both
      have hin : s.index.toNat ∈ r.locals := Slot.mem_locals.mpr (by omega)
      exact hdisjoint.forall hr hs hne hin (Slot.mem_locals.mpr (by omega))
    · obtain ⟨s, hs, hindex, hfamily⟩ := exists_slot_of_writes h hcount hp
      rw [← hindex] at hle ⊢
      rw [← hfamily]
      exact htyped s hs hle
  · rintro ⟨hdisjoint, htyped⟩
    refine ⟨?_, fun s hs hle => ?_⟩
    · -- slots ascend, so two of them meet only where a wide one is followed by the next local
      refine (slots_pairwise_of_discover h).imp_of_mem fun {r s} hr hs hlt k hkr hks => ?_
      obtain ⟨hp, hsize⟩ := writes_of_mem_slots h hcount hr
      obtain ⟨hq, -⟩ := writes_of_mem_slots h hcount hs
      have hlt : r.index.toNat < s.index.toNat := UInt16.lt_iff_toNat_lt.mp hlt
      rw [Slot.mem_locals] at hkr hks
      have hle : (Family.ofDescriptor r.desc).size ≤ 2 := by
        cases Family.ofDescriptor r.desc <;> decide
      exact hdisjoint _ hp _ hq (by dsimp only; omega) (by dsimp only; omega)
    · exact htyped _ (writes_of_mem_slots h hcount hs).1 hle

namespace ClassFile

/-- **When captured locals can be saved and restored.** A method that was woven has its body to
thank for it: the body must not write the second local of a wide value that it writes, and
among the parameters only whole ones, as what they are. -/
theorem restorable_iff {settings : Settings} {c c' : ClassFile} {n : Nat} {w : Woven}
    (h : (weave settings n).on c = (.ok w, c')) (hstates : 0 < w.states) :
    ∃ m body t, c.methods[n]? = some m ∧ m.code = some body ∧ Descriptor.parse m.desc = .ok t ∧
      (Restorable t w.slots ↔ body.KeepsApart t) := by
  obtain ⟨m, m', hm, hw⟩ := weave_eq_ok h
  obtain ⟨body, states, hgen, hslots, hcount, -, -⟩ := weaveMethod_cases hw
  obtain ⟨t, ht, -⟩ := hgen.descriptor
  refine ⟨m, body, t, hm, hgen.code, ht, ?_⟩
  rw [hslots]
  exact restorable_iff_of_discover t hgen.discovered (hcount ▸ hstates)

/-- A class with one generator, which has a long parameter and suspends once behind the given
instructions. -/
def suspending (is : List Insn) : ClassFile where
  name := "Seq"
  methods := [{
    name := "next"
    desc := "(J)Z"
    code := some (Listing.ofInsns 0 (is ++ [.load .aload 0,
      .call .invokeVirtual "Seq" "yieldReturn" "()V", .plain .iconst0, .plain .ireturn])) }]

theorem weave_of_slots (c : ClassFile) (slots : List Slot)
    (h : ((weave {} 0).on c).1.toOption.map (fun w => (w.states, w.slots)) = some (1, slots)) :
    ∃ w c', (weave {} 0).on c = (.ok w, c') ∧ 0 < w.states ∧ w.slots = slots := by
  obtain ⟨w, hw, hall⟩ := Option.map_eq_some_iff.mp h
  obtain ⟨hstates, hslots⟩ := Prod.mk.inj hall
  refine ⟨w, ((weave {} 0).on c).2, ?_, by omega, hslots⟩
  rw [← Outcome.eq_ok_of_toOption hw]

/-- A generator that assigns its parameter and an integer behind it. -/
def assigning : ClassFile :=
  suspending [.plain ⟨0x09⟩, .load Family.long.store 1, .plain .iconst0, .load .istore 3]

theorem restorable_assigning : ∃ w c', (weave {} 0).on assigning = (.ok w, c') ∧ 0 < w.states ∧
    w.slots = [⟨1, "J", "$slot$next$1"⟩, ⟨3, "I", "$slot$next$3"⟩] ∧
    Restorable ⟨["J"], "Z"⟩ w.slots := by
  obtain ⟨w, c', hw, hstates, hslots⟩ := weave_of_slots assigning
    [⟨1, "J", "$slot$next$1"⟩, ⟨3, "I", "$slot$next$3"⟩] (by
      simp only [weave_on]
      delta weaveMethod wovenCode
      decide +kernel)
  obtain ⟨m, body, t, hm, hbody, ht, hiff⟩ := restorable_iff hw hstates
  obtain rfl := Option.some.inj hm
  obtain rfl := Option.some.inj hbody
  obtain rfl : MethodType.mk ["J"] "Z" = t := Except.ok.inj ht
  exact ⟨w, c', hw, hstates, hslots, hiff.mpr ⟨by decide +kernel, by decide +kernel⟩⟩

/-- A generator that assigns a long and an integer in the long's second local, and an integer in
the second local of its parameter. -/
def overlapping : ClassFile :=
  suspending [.plain ⟨0x09⟩, .load Family.long.store 3, .plain .iconst0, .load .istore 4,
    .plain .iconst0, .load .istore 2]

/-- The generator is woven all the same: restoring local 4 destroys the long of local 3, and
local 2 is saved as an integer when it holds half of a long. -/
theorem overlapping_woven : ∃ w c', (weave {} 0).on overlapping = (.ok w, c') ∧ 0 < w.states ∧
    ¬(w.slots.Pairwise fun r s => r.locals.Disjoint s.locals) ∧
    ¬∀ s ∈ w.slots, s.index.toNat ≤ (MethodType.mk ["J"] "Z").paramSlots →
      (MethodType.mk ["J"] "Z").ParamAt s.index.toNat (Family.ofDescriptor s.desc) := by
  obtain ⟨w, c', hw, hstates, hslots⟩ := weave_of_slots overlapping
    [⟨2, "I", "$slot$next$2"⟩, ⟨3, "J", "$slot$next$3"⟩, ⟨4, "I", "$slot$next$4"⟩] (by
      simp only [weave_on]
      delta weaveMethod wovenCode
      decide +kernel)
  refine ⟨w, c', hw, hstates, ?_, ?_⟩
  · rw [hslots]
    intro h
    have hpair := (List.pairwise_cons.mp (List.pairwise_cons.mp h).2).1 _ List.mem_cons_self
    have hshared : 4 ∈ Slot.locals ⟨3, "J", "$slot$next$3"⟩ := by decide
    exact hpair hshared (by decide)
  · rw [hslots]
    decide

end ClassFile

end ClassWeaver
