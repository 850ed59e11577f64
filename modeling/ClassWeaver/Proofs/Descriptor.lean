import Mathlib.Algebra.GroupWithZero.Nat
import Mathlib.Data.List.TakeWhile
import ClassWeaver.Proofs.Instructions

/-!
# The grammar of descriptors

`FieldType` says what a field descriptor is, and `MethodType.Spells` what a method descriptor is
and into which types it falls apart, both without a reader. The readers take exactly these texts
apart. No field descriptor is the beginning of another, so that a list of them can be cut in one
way only. The reader finds this cut because it takes from the front what is a field descriptor
(`takeField_eq_ok_iff`) for as long as no bracket closes the list.
-/

namespace ClassWeaver

/-! ### The grammar -/

/-- A byte that a class name may hold: none of `(`, `)`, `;` and `[`. -/
def NameByte (b : UInt8) : Prop := b ≠ 40 ∧ b ≠ 41 ∧ b ≠ 59 ∧ b ≠ 91

/-- The field descriptors: a primitive letter, a class name between `L` and `;`, or `[` in front
of a field descriptor. -/
inductive FieldType : Text → Prop
  | primitive {b : UInt8} : b ∈ utf8 "BCDFIJSZ" → FieldType [b]
  | object {name : Text} : name ≠ [] → (∀ b ∈ name, NameByte b) → FieldType (76 :: name ++ [59])
  | array {element : Text} : FieldType element → FieldType (91 :: element)

theorem FieldType.nested {t brackets : Text} (ht : FieldType t) (h : ∀ b ∈ brackets, b = 91) :
    FieldType (brackets ++ t) := by
  induction brackets with
  | nil => exact ht
  | cons b brackets ih =>
    obtain ⟨rfl, hrest⟩ := List.forall_mem_cons.mp h
    exact .array (ih hrest)

namespace MethodType

/-- The parameters in brackets, and the result. -/
def text (t : MethodType) : Text := "(" ++ t.params.flatten ++ ")" ++ t.result

/-- The text is the method descriptor with these parameters and this result, which is `V` for a
method that returns nothing. -/
structure Spells (t : MethodType) (desc : Text) : Prop where
  params : ∀ d ∈ t.params, FieldType d
  result : FieldType t.result ∨ t.result = "V"
  text_eq : t.text = desc

theorem text_eq_cons (t : MethodType) : t.text = 40 :: (t.params.flatten ++ 41 :: t.result) := by
  rw [text, show utf8 "(" = [40] by decide, show utf8 ")" = [41] by decide]
  simp

end MethodType

namespace Descriptor

variable {whole name rest field after : Text} {position : Nat}

/-- A field descriptor starts with a letter or a bracket that opens, never with one that
closes. -/
theorem exists_head_of_fieldType (h : FieldType field) : ∃ b tail, field = b :: tail ∧ b ≠ 41 := by
  cases h with
  | @primitive b hb =>
    refine ⟨b, [], rfl, ?_⟩
    rintro rfl
    exact absurd hb (by decide)
  | object _ _ => exact ⟨76, _, rfl, by decide⟩
  | array _ => exact ⟨91, _, rfl, by decide⟩

theorem not_fieldType_void : ¬FieldType "V" := by
  intro h
  change FieldType [86] at h
  cases h with
  | primitive hb => exact absurd hb (by decide)

/-! ### Reading one field descriptor -/

theorem not_nameByte_iff {b : UInt8} (h : b ≠ 59) :
    (b = 40 || b = 41 || b = 91) = true ↔ ¬NameByte b := by
  simp only [Bool.or_eq_true, decide_eq_true_eq, NameByte]
  tauto

/-- A class name goes up to the first `;`, which is part of what is taken. -/
theorem classTail_eq_ok_iff {taken : Text} :
    classTail whole position taken rest = .ok (name, after) ↔
      ∃ more, (∀ b ∈ more, NameByte b) ∧ rest = more ++ 59 :: after ∧
        taken.reverse ++ more ≠ [] ∧ name = taken.reverse ++ more ++ [59] := by
  -- along the bytes that are left, with what was taken on the left
  induction rest generalizing position taken with
  | nil => simp [classTail]
  | cons b rest ih =>
    unfold classTail
    by_cases hb : b = 59
    · subst hb
      rw [if_pos rfl]
      constructor
      · intro h
        split at h
        · cases h
        · next hne =>
          obtain ⟨rfl, rfl⟩ := Prod.mk.inj (Except.ok.inj h)
          exact ⟨[], by simp, rfl, by simpa using hne, by simp⟩
      · rintro ⟨more, hmore, hrest, hne, rfl⟩
        -- the first `;` ends the name, since no byte of the name is one
        cases more with
        | cons c more =>
          exact absurd (List.cons.inj hrest).1.symm (hmore c List.mem_cons_self).2.2.1
        | nil =>
          obtain rfl := (List.cons.inj hrest).2
          rw [List.append_nil] at hne
          rw [if_neg (by simpa using hne)]
          simp
    · rw [if_neg hb]
      by_cases hname : NameByte b
      · rw [if_neg (mt (not_nameByte_iff hb).mp (not_not.mpr hname)), ih]
        constructor
        · rintro ⟨more, hmore, rfl, -, rfl⟩
          exact ⟨b :: more, List.forall_mem_cons.mpr ⟨hname, hmore⟩, rfl, by simp, by simp⟩
        · rintro ⟨more, hmore, hrest, -, rfl⟩
          cases more with
          | nil => exact absurd (List.cons.inj hrest).1 hb
          | cons c more =>
            obtain ⟨rfl, rfl⟩ := List.cons.inj hrest
            exact ⟨more, (List.forall_mem_cons.mp hmore).2, rfl, by simp, by simp⟩
      · rw [if_pos ((not_nameByte_iff hb).mpr hname)]
        refine iff_of_false (by simp) ?_
        rintro ⟨more, hmore, hrest, -, -⟩
        cases more with
        | nil => exact hb (List.cons.inj hrest).1
        | cons c more =>
          obtain ⟨rfl, -⟩ := List.cons.inj hrest
          exact hname (hmore b List.mem_cons_self)

/-- Reading a field descriptor that has a bracket in front is reading it without, whatever its
place. -/
theorem takeField_bracket {position' : Nat}
    (h : takeField whole position rest = .ok (field, after)) :
    takeField whole position' (91 :: rest) = .ok (91 :: field, after) := by
  unfold takeField at h ⊢
  rw [List.takeWhile_cons_of_pos (by decide), List.dropWhile_cons_of_pos (by decide)]
  dsimp only at h ⊢
  cases hdrop : rest.dropWhile (· = 91) with
  | nil =>
    rw [hdrop] at h
    cases h
  | cons b tail =>
    rw [hdrop] at h
    dsimp only at h ⊢
    split at h
    · next hprim =>
      obtain ⟨rfl, rfl⟩ := Prod.mk.inj (Except.ok.inj h)
      rw [if_pos hprim]
      rfl
    · next hprim =>
      rw [if_neg hprim]
      split at h
      · next hclass =>
        obtain ⟨⟨name, after'⟩, hname, h⟩ := Except.bind_eq_ok_iff.mp h
        obtain ⟨rfl, rfl⟩ := Prod.mk.inj (Except.ok.inj h)
        rw [if_pos hclass, classTail_eq_ok_iff.mpr (classTail_eq_ok_iff.mp hname)]
        rfl
      · cases h

/-- What is read from the front is a field descriptor, and nothing is lost. -/
theorem fieldType_of_takeField (h : takeField whole position rest = .ok (field, after)) :
    FieldType field ∧ rest = field ++ after := by
  have hsplit : rest.takeWhile (· = 91) ++ rest.dropWhile (· = 91) = rest :=
    List.takeWhile_append_dropWhile
  have hnest : ∀ t, FieldType t → FieldType (rest.takeWhile (· = 91) ++ t) := fun t ht =>
    ht.nested fun b hb => by simpa using List.mem_takeWhile_imp hb
  unfold takeField at h
  dsimp only at h
  split at h
  · cases h
  · next b tail hdrop =>
    rw [hdrop] at hsplit
    split at h
    · next hprim =>
      obtain ⟨rfl, rfl⟩ := Prod.mk.inj (Except.ok.inj h)
      exact ⟨hnest [b] (.primitive (List.contains_iff_mem.mp hprim)), by simpa using hsplit.symm⟩
    · split at h
      · next hclass =>
        subst hclass
        obtain ⟨⟨name, after'⟩, hname, h⟩ := Except.bind_eq_ok_iff.mp h
        obtain ⟨rfl, rfl⟩ := Prod.mk.inj (Except.ok.inj h)
        obtain ⟨more, hmore, rfl, hne, rfl⟩ := classTail_eq_ok_iff.mp hname
        refine ⟨hnest _ (.object (by simpa using hne) hmore), ?_⟩
        simpa using hsplit.symm
      · cases h

theorem takeField_of_fieldType (h : FieldType field) (position : Nat) (after : Text) :
    takeField whole position (field ++ after) = .ok (field, after) := by
  induction h generalizing position with
  | @primitive b hb =>
    have hne : b ≠ 91 := by
      rintro rfl
      exact absurd hb (by decide)
    unfold takeField
    simp [hne, isPrimitive, hb]
  | @object name hne hname =>
    have hclass : classTail whole (position + 0 + 1) [] (name ++ 59 :: after) =
        .ok (name ++ [59], after) :=
      classTail_eq_ok_iff.mpr ⟨name, hname, rfl, by simpa using hne, by simp⟩
    have hprim : isPrimitive 76 = false := by decide
    unfold takeField
    simp [hprim, hclass, bind, Except.bind]
    rfl
  | array _ ih => exact takeField_bracket (ih position)

/-- **Reading one field descriptor.** It takes from the front what is a field descriptor and
leaves the rest, and fails if there is none. -/
theorem takeField_eq_ok_iff :
    takeField whole position rest = .ok (field, after) ↔
      FieldType field ∧ rest = field ++ after := by
  refine ⟨fieldType_of_takeField, ?_⟩
  rintro ⟨hfield, rfl⟩
  exact takeField_of_fieldType hfield position after

theorem isField_iff {desc : Text} : isField desc = true ↔ FieldType desc := by
  constructor
  · intro h
    unfold isField at h
    split at h
    · next field hfield =>
      obtain ⟨hfield, hdesc⟩ := takeField_eq_ok_iff.mp hfield
      rwa [hdesc, List.append_nil]
    · cases h
  · intro h
    have htake : takeField desc 0 (desc ++ []) = .ok (desc, []) := takeField_of_fieldType h 0 []
    rw [List.append_nil] at htake
    rw [isField, htake]

/-! ### Reading a method descriptor -/

/-- The parameters go up to the bracket that closes them. -/
theorem takeParams_eq_ok_iff {fuel : Nat} {taken params : List Text} (hfuel : rest.length < fuel) :
    takeParams whole fuel position taken rest = .ok (params, after) ↔
      ∃ new, (∀ d ∈ new, FieldType d) ∧ rest = new.flatten ++ 41 :: after ∧
        params = taken.reverse ++ new := by
  induction fuel generalizing position taken rest with
  | zero => exact absurd hfuel (Nat.not_lt_zero _)
  | succ fuel ih =>
    unfold takeParams
    cases rest with
    | nil =>
      refine iff_of_false (by simp) ?_
      rintro ⟨new, -, hnil, -⟩
      exact absurd hnil.symm (by simp)
    | cons b tail =>
      dsimp only
      by_cases hb : b = 41
      · subst hb
        rw [if_pos rfl]
        constructor
        · intro h
          obtain ⟨rfl, rfl⟩ := Prod.mk.inj (Except.ok.inj h)
          exact ⟨[], by simp, rfl, by simp⟩
        · rintro ⟨new, hnew, hrest, rfl⟩
          cases new with
          | nil =>
            obtain rfl := (List.cons.inj hrest).2
            simp
          | cons d new =>
            -- a parameter does not start with the bracket
            obtain ⟨c, d', rfl, hc⟩ := exists_head_of_fieldType (hnew d List.mem_cons_self)
            exact absurd (List.cons.inj hrest).1.symm hc
      · rw [if_neg hb, Except.bind_eq_ok_iff]
        have hless : ∀ {d after' : Text}, FieldType d → b :: tail = d ++ after' →
            after'.length < fuel := by
          intro d after' hd heq
          obtain ⟨c, d', rfl, -⟩ := exists_head_of_fieldType hd
          have hlen := congrArg List.length heq
          simp only [List.length_cons, List.length_append] at hlen hfuel
          omega
        constructor
        · rintro ⟨⟨d, after'⟩, htake, h⟩
          obtain ⟨hd, heq⟩ := takeField_eq_ok_iff.mp htake
          obtain ⟨new, hnew, rfl, rfl⟩ := (ih (hless hd heq)).mp h
          exact ⟨d :: new, List.forall_mem_cons.mpr ⟨hd, hnew⟩, by simp [heq], by simp⟩
        · rintro ⟨new, hnew, hrest, rfl⟩
          cases new with
          | nil => exact absurd (List.cons.inj hrest).1 hb
          | cons d new =>
            obtain ⟨hd, hnew⟩ := List.forall_mem_cons.mp hnew
            rw [List.flatten_cons, List.append_assoc] at hrest
            refine ⟨(d, new.flatten ++ 41 :: after), takeField_eq_ok_iff.mpr ⟨hd, hrest⟩, ?_⟩
            exact (ih (hless hd hrest)).mpr ⟨new, hnew, rfl, by simp⟩

theorem takeResult_eq_ok_iff {result : Text} :
    takeResult whole rest = .ok result ↔
      rest = result ∧ (FieldType result ∨ result = "V") := by
  change _ ↔ _ ∧ (_ ∨ result = [86])
  unfold takeResult
  split
  · next hvoid =>
    constructor
    · intro h
      obtain rfl := Except.ok.inj h
      exact ⟨rfl, .inr hvoid⟩
    · rintro ⟨rfl, -⟩
      rfl
  · next hvoid =>
    rw [Except.bind_eq_ok_iff]
    constructor
    · -- the one field word has to be all of it
      rintro ⟨⟨field, after⟩, hfield, h⟩
      obtain ⟨htype, rfl⟩ := takeField_eq_ok_iff.mp hfield
      dsimp only at h
      split at h
      · next hempty =>
        obtain rfl := Except.ok.inj h
        obtain rfl := List.isEmpty_iff.mp hempty
        exact ⟨List.append_nil _, .inl htype⟩
      · cases h
    · rintro ⟨rfl, hresult⟩
      refine ⟨(rest, []), takeField_eq_ok_iff.mpr ⟨hresult.resolve_right hvoid, ?_⟩, rfl⟩
      rw [List.append_nil]

/-- **Reading a method descriptor.** It succeeds on the texts that are one, with the types that
they are made of. -/
theorem parseMethod_eq_ok_iff {desc : Text} {t : MethodType} :
    parseMethod desc = .ok t ↔ t.Spells desc := by
  unfold parseMethod
  split
  · next b rest =>
    split
    · next hopen =>
      obtain rfl : b = 40 := by simpa using (Bool.and_eq_true_iff.mp hopen).1
      rw [Except.bind_eq_ok_iff]
      constructor
      · rintro ⟨⟨params, after⟩, hparams, h⟩
        obtain ⟨result, hresult, h⟩ := Except.bind_eq_ok_iff.mp h
        obtain rfl := Except.ok.inj h
        obtain ⟨new, hnew, rfl, rfl⟩ := (takeParams_eq_ok_iff (Nat.lt_succ_self _)).mp hparams
        obtain ⟨rfl, hresult⟩ := takeResult_eq_ok_iff.mp hresult
        exact ⟨hnew, hresult, MethodType.text_eq_cons _⟩
      · intro h
        obtain rfl := (List.cons.inj (h.text_eq.symm.trans t.text_eq_cons)).2
        refine ⟨(t.params, t.result), (takeParams_eq_ok_iff (Nat.lt_succ_self _)).mpr
          ⟨t.params, h.params, rfl, rfl⟩, ?_⟩
        dsimp only
        rw [takeResult_eq_ok_iff.mpr ⟨rfl, h.result⟩]
        rfl
    · -- the shortest descriptor has two brackets and a result
      next hshort =>
      refine iff_of_false (by simp) fun h => hshort ?_
      obtain ⟨rfl, rfl⟩ := List.cons.inj (h.text_eq.symm.trans t.text_eq_cons)
      have hpos : 0 < t.result.length := by
        rcases h.result with hfield | hvoid
        · obtain ⟨c, tail, heq, -⟩ := exists_head_of_fieldType hfield
          simp [heq]
        · rw [hvoid]
          decide
      simp only [List.length_cons, List.length_append, Bool.and_eq_true, decide_eq_true_eq]
      exact ⟨trivial, by omega⟩
  · refine iff_of_false (by simp) fun h => ?_
    exact absurd (h.text_eq.symm.trans t.text_eq_cons) (by simp)

theorem parse_eq_ok_iff {desc : Text} {t : MethodType} : parse desc = .ok t ↔ t.Spells desc := by
  rw [← parseMethod_eq_ok_iff, parse]
  cases parseMethod desc <;> simp

/-- What is told from a descriptor is told from the types that it is made of. -/
theorem map_parse_eq_ok_iff {α : Type} {f : MethodType → α} {desc : Text} {a : α} :
    (parse desc).map f = .ok a ↔ ∃ t : MethodType, t.Spells desc ∧ f t = a := by
  rw [← exists_congr fun t => and_congr_left' parse_eq_ok_iff]
  cases parse desc with
  | error e => simp [Except.map]
  | ok t => simp [Except.map]

/-- Every parameter takes a slot, and those that are exactly a `long` or a `double` take two. -/
theorem paramSlots_eq (t : MethodType) :
    t.paramSlots = (t.params.map fun d : Text => if d = "J" ∨ d = "D" then 2 else 1).sum := by
  have hsize : slotSize = fun d : Text => if d = "J" ∨ d = "D" then 2 else 1 := by
    funext d
    rw [show utf8 "J" = [74] by decide, show utf8 "D" = [68] by decide]
    simp [slotSize]
  rw [MethodType.paramSlots, hsize, List.sum_eq_foldl, List.foldl_map]

/-- Only a method whose result is a field type returns a value. -/
theorem returnsValue_iff {desc : Text} {t : MethodType} (h : t.Spells desc) :
    t.returnsValue = true ↔ FieldType t.result := by
  have hvoid : t.returnsValue = true ↔ t.result ≠ "V" := decide_eq_true_iff
  rw [hvoid]
  constructor
  · exact h.result.resolve_right
  · intro hfield hresult
    exact not_fieldType_void (hresult ▸ hfield)

/-- **The grammar is what is read.** A text is taken apart as a method descriptor exactly if it is
one, into the one list of types that it is made of; the tests and counts agree with the grammar. -/
theorem parse_iff_spells (desc : Text) :
    (∀ t, parse desc = .ok t ↔ t.Spells desc) ∧
      (∀ t t' : MethodType, t.Spells desc → t'.Spells desc → t = t') ∧
      (isField desc = true ↔ FieldType desc) ∧
      (∀ n, (parse desc).map (·.params.length) = .ok n ↔
        ∃ t : MethodType, t.Spells desc ∧ t.params.length = n) ∧
      (∀ n, (parse desc).map (·.paramSlots) = .ok n ↔ ∃ t : MethodType, t.Spells desc ∧
        (t.params.map fun d : Text => if d = "J" ∨ d = "D" then 2 else 1).sum = n) ∧
      ∀ b, (parse desc).map (·.returnsValue) = .ok b ↔ ∃ t : MethodType, t.Spells desc ∧
        (b = true ↔ FieldType t.result) := by
  refine ⟨fun t => parse_eq_ok_iff, fun t t' h h' => ?_, isField_iff, fun n => map_parse_eq_ok_iff,
    fun n => ?_, fun b => ?_⟩
  · have hparse := parse_eq_ok_iff.mpr h
    rw [parse_eq_ok_iff.mpr h'] at hparse
    exact (Except.ok.inj hparse).symm
  · rw [map_parse_eq_ok_iff]
    exact exists_congr fun t => and_congr_right fun _ => by rw [paramSlots_eq]
  · rw [map_parse_eq_ok_iff]
    refine exists_congr fun t => and_congr_right fun h => ?_
    rw [← returnsValue_iff h, Bool.eq_iff_iff]
    exact Iff.comm

theorem parse_spelled_mixed :
    (⟨["I", "J", "Lp/Q;", "[D"], "V"⟩ : MethodType).Spells "(IJLp/Q;[D)V" ∧
      (parse "(IJLp/Q;[D)V").map (·.paramSlots) = .ok 5 ∧ ¬FieldType "[V" :=
  ⟨((parse_iff_spells _).1 _).mp rfl, rfl, fun h => by
    have hfield := (parse_iff_spells _).2.2.1.mpr h
    exact absurd hfield (by decide)⟩

end Descriptor

end ClassWeaver
