import ClassWeaver.Proofs.Codec.Transformed
import ClassWeaver.Proofs.Renaming.Code
import ClassWeaver.Proofs.Renaming.Weaving

/-!
# Transformations do not look at label numbers

Two decodings of one class file may number labels differently. That must not show: with the standard
rules a transformation answers the same for classes that are the same but for label numbers, and
what it makes of them is written as the same bytes (`ClassFile.transform_renamed`). -/

namespace ClassWeaver

variable {plan : Plan} {c c' : ClassFile} {m m' : Method}

/-! ### Reports -/

/-- The reports list the same woven methods, and the same skipped ones in the same order. Why a
method was skipped is left open, for a fault can name a label. -/
structure Report.Same (r r' : Report) : Prop where
  woven : r'.woven = r.woven
  skipped : r'.skipped.map (fun s => (s.owner, s.name)) = r.skipped.map fun s => (s.owner, s.name)

namespace Report

variable {r r' : Report}

theorem Same.addWoven (h : r.Same r') (w : Woven) : (r.addWoven w).Same (r'.addWoven w) := by
  unfold Report.addWoven
  split
  · exact { h with woven := by rw [h.woven] }
  · exact h

/-- What a key names does not depend on the cause. -/
theorem skipped_ofKey (key : Text) (cause cause' : Option Fault) :
    ((Skipped.ofKey key cause').owner, (Skipped.ofKey key cause').name) =
      ((Skipped.ofKey key cause).owner, (Skipped.ofKey key cause).name) := by
  unfold Skipped.ofKey
  dsimp only
  split <;> rfl

theorem Same.addSkipped (h : r.Same r') (owner key : Text) (cause cause' : Fault) :
    (r.addSkipped owner key cause).Same (r'.addSkipped owner key cause') where
  woven := h.woven
  skipped := by
    simp only [Report.addSkipped, List.map_append, h.skipped, List.map_cons, List.map_nil]
    rw [skipped_ofKey]

end Report

namespace ClassFile

/-! ### All methods -/

theorem Renamed.isWoven_eq (h : c.Renamed c') (settings : Settings) :
    c'.isWoven settings = c.isWoven settings := by
  rw [isWoven, isWoven, h.fields_eq]

/-- The same places are selected. -/
theorem Renamed.selection (h : c.Renamed c') (plan : Plan) :
    List.Forall₂ (fun k k' => k'.1 = k.1 ∧ Method.Renamed k.2 k'.2) (c.selection plan)
      (c'.selection plan) := by
  have hzip (ms ms' : List Method) (n : Nat) (hms : List.Forall₂ Method.Renamed ms ms') :
      List.Forall₂ (fun k k' => k'.2 = k.2 ∧ Method.Renamed k.1 k'.1) (ms.zipIdx n)
        (ms'.zipIdx n) := by
    induction hms generalizing n with
    | nil => exact .nil
    | cons hm _ ih => exact .cons ⟨rfl, hm⟩ (ih (n + 1))
  have hselected (m m' : Method) (hm : m.Renamed m') :
      plan.isSelected c'.name m' = plan.isSelected c.name m := by
    have hcode : m'.code.isSome = m.code.isSome := by
      have hcode := hm.code
      generalize m.code = code, m'.code = code' at hcode
      cases hcode <;> rfl
    unfold Plan.isSelected
    rw [hcode, hm.name_eq, hm.desc_eq, hm.isStatic_eq, h.name_eq]
  refine List.rel_map (R := fun k k' => k'.2 = k.2 ∧ Method.Renamed k.1 k'.1) (fun k k' hk => hk)
    (List.rel_filter (fun k k' hk => ?_) (hzip _ _ 0 h.methods))
  exact Bool.eq_iff_iff.mp (hselected _ _ hk.2).symm

theorem weaveAll_agree (hchain : ∀ rule ∈ plan.settings.chain, rule.Equivariant) (h : c.Renamed c')
    {ks ks' : List (Nat × Method)} {r r' : Report}
    (hks : List.Forall₂ (fun k k' => k'.1 = k.1 ∧ Method.Renamed k.2 k'.2) ks ks')
    (hr : r.Same r') :
    (weaveAll plan ks r c).1.Same (weaveAll plan ks' r' c').1 ∧
      Outcome.Agree Renamed (weaveAll plan ks r c).2 (weaveAll plan ks' r' c').2 := by
  induction hks generalizing c c' r r' with
  | nil => exact ⟨hr, h⟩
  | @cons k k' ks ks' hk _ ih =>
    obtain ⟨n, m⟩ := k
    obtain ⟨n', m'⟩ := k'
    obtain ⟨rfl, hm⟩ := hk
    obtain ⟨hresult, hafter⟩ := weave_agree hchain h n'
    rw [weaveAll, weaveAll]
    generalize (weave plan.settings n').on c = x, (weave plan.settings n').on c' = x'
      at hresult hafter
    obtain ⟨o, c₁⟩ := x
    obtain ⟨o', c₁'⟩ := x'
    cases o with
    | ok w =>
      obtain ⟨w', rfl, hw⟩ := hresult.eq_ok rfl
      obtain rfl : w' = w := hw.symm
      exact ih hafter (hr.addWoven w')
    | error e =>
      obtain ⟨e', rfl, hagree⟩ := hresult.error
      cases e with
      | undefined =>
        cases e' with
        | fault f' => exact False.elim hagree
        | undefined => exact ⟨hr, .undefined⟩
      | fault f =>
        obtain ⟨f', rfl⟩ : ∃ f', e' = .fault f' := by
          cases e' with
          | fault f' => exact ⟨f', rfl⟩
          | undefined => exact False.elim hagree
        -- the faults may differ in their texts; both runs skip the method or both stop
        dsimp only at hafter ⊢
        rw [hm.key_eq, hafter.name_eq]
        by_cases habort : plan.onError = .abort
        · rw [if_pos habort, if_pos habort]
          exact ⟨hr, .fail _ _⟩
        · rw [if_neg habort, if_neg habort]
          exact ih hafter (hr.addSkipped c₁.name m.key f f')

theorem transform_agree (hchain : ∀ rule ∈ plan.settings.chain, rule.Equivariant)
    (h : c.Renamed c') :
    Option.Rel Report.Same (c.transform plan).1 (c'.transform plan).1 ∧
      Outcome.Agree Renamed (c.transform plan).2 (c'.transform plan).2 := by
  unfold transform
  rw [h.isWoven_eq]
  split
  · exact ⟨.none, .fail _ _⟩
  · obtain ⟨hreport, hresult⟩ := weaveAll_agree hchain h (h.selection plan)
      (⟨rfl, rfl⟩ : Report.Same {} {})
    exact ⟨.some hreport, hresult⟩

/-! ### Bytes -/

theorem methodCodes_agree {ms ms' : List Method} (h : List.Forall₂ Method.Renamed ms ms') (p : Pool)
    (seen : List (List Attribute)) :
    Outcome.Agree (· = ·) (methodCodes p seen ms) (methodCodes p seen ms') := by
  induction h generalizing p seen with
  | nil => exact rfl
  | @cons m m' ms ms' hm _ ih =>
    have hcode := hm.code
    have hwrite (l l' : Listing) (hl : ∃ σ, Listing.Renamed σ l l') :
        Outcome.Agree (· = ·) (Code.write p m l) (Code.write p m' l') := by
      obtain ⟨σ, hl⟩ := hl
      exact Code.write_agree hl p (by rw [hm.rest]) (by rw [hm.rest]) (by rw [hm.rest])
    unfold methodCodes
    generalize m.code = code, m'.code = code' at hcode
    cases hcode with
    | none => exact ih p ([] :: seen)
    | @some l l' hl =>
      refine ((hwrite l l' hl).mapFault _ _).bind ?_
      rintro ⟨data, q⟩ _ rfl
      exact ih q _

theorem methodBytes_of_renamed {ms ms' : List Method} (h : List.Forall₂ Method.Renamed ms ms')
    (p : Pool) (seen : List (List UInt8)) (codes : List (List Attribute)) :
    methodBytes p seen (ms'.zip codes) = methodBytes p seen (ms.zip codes) := by
  induction h generalizing p seen codes with
  | nil => rfl
  | @cons m m' ms ms' hm _ ih =>
    cases codes with
    | nil => rfl
    | cons code codes =>
      have hattributes : m'.attributes = m.attributes := by rw [hm.rest]
      rw [List.zip_cons_cons, List.zip_cons_cons, methodBytes, methodBytes, hm.access_eq,
        hm.name_eq, hm.desc_eq, hattributes]
      exact ih _ _ codes

theorem bodyBytes_agree (h : c.Renamed c') (p : Pool) :
    Outcome.Agree (· = ·) (c.bodyBytes p) (c'.bodyBytes p) := by
  obtain ⟨hmethods, hrest⟩ := h
  generalize c'.methods = ms' at hmethods hrest
  subst hrest
  refine (methodCodes_agree hmethods p []).bind ?_
  rintro ⟨codes, q⟩ _ rfl
  dsimp only
  rw [methodBytes_of_renamed hmethods, hmethods.length_eq]
  exact .of_eq rfl

/-- Classes that are the same but for label numbers are written as the same bytes, or neither can
be written. -/
theorem encode_agree (h : c.Renamed c') :
    Outcome.Agree (fun x x' => x'.1 = x.1) c.encode c'.encode := by
  have hpool : c'.pool = c.pool := by rw [h.rest]
  have hminor : c'.minor = c.minor := by rw [h.rest]
  have hmajor : c'.major = c.major := by rw [h.rest]
  unfold encode
  rw [hpool, hminor, hmajor]
  refine (bodyBytes_agree h _).bind ?_
  rintro ⟨body, p⟩ _ rfl
  refine (Outcome.Agree.of_eq rfl).bind ?_
  rintro pool _ rfl
  exact rfl

/-- **The result of a transformation does not depend on label numbers.** With the standard rules,
two classes that are the same but for the numbers of the labels in each method have the same methods
woven with the same results and the same methods skipped in the same order; and the bytes that one
is written as afterwards are those of the other, if there are any. -/
theorem transform_renamed (h : c.Renamed c') (hchain : plan.settings.chain = Chain.standard) :
    Option.Rel Report.Same (c.transform plan).1 (c'.transform plan).1 ∧
      ∀ bytes, (∃ d e, (c.transform plan).2 = .ok d ∧ d.encode = .ok (bytes, e)) ↔
        ∃ d e, (c'.transform plan).2 = .ok d ∧ d.encode = .ok (bytes, e) := by
  have hequivariant : ∀ rule ∈ plan.settings.chain, rule.Equivariant := by
    rw [hchain]
    exact Chain.equivariant_standard
  obtain ⟨hreport, hresult⟩ := transform_agree hequivariant h
  refine ⟨hreport, fun bytes => ⟨?_, ?_⟩⟩
  · rintro ⟨d, e, hd, he⟩
    obtain ⟨d', hd', hrenamed⟩ := hresult.eq_ok hd
    obtain ⟨⟨_, e'⟩, he', rfl⟩ := (encode_agree hrenamed).eq_ok he
    exact ⟨d', e', hd', he'⟩
  · rintro ⟨d', e', hd', he'⟩
    obtain ⟨d, hd, hrenamed⟩ := hresult.ok_eq hd'
    obtain ⟨⟨_, e⟩, he, rfl⟩ := (encode_agree hrenamed).ok_eq he'
    exact ⟨d, e, hd, he⟩

open Code Pool

/-- A generator that counts down, with the numbers of its two labels left open. -/
def sequenceCode (start loop : Label) : List Insn :=
  [.place start, .line 7 start, ⟨.bipush, .int 3⟩, .load .istore 1, .place loop, .load .aload 0,
    .call .invokeVirtual "Seq" "yieldReturn" "()V", ⟨.iinc, .increment 1 (-1)⟩, .load .iload 1,
    .jump ⟨0x9A⟩ loop, .plain .iconst0, .plain .ireturn]

/-- The method with this code. -/
def sequenceMethod (start loop : Label) : Method where
  name := "next"
  desc := "()Z"
  maxStack := 2
  maxLocals := 2
  code := some (.ofInsns 2 (sequenceCode start loop))

/-- A pool with the constants of its class, and of what is woven. -/
def sequencePool : Pool :=
  .ofEntries #[.unused, .utf8 "Seq", .single Tag.classRef 1, .utf8 "java/lang/Object",
    .single Tag.classRef 3, .utf8 "next", .utf8 "()Z", .utf8 "Code", .utf8 "LineNumberTable",
    .utf8 "yieldReturn", .utf8 "()V", .pair Tag.nameAndType 9 10, .pair Tag.methodRef 2 11,
    .utf8 "$state$next", .utf8 "I", .pair Tag.nameAndType 13 14, .pair Tag.fieldRef 2 15,
    .utf8 "$slot$next$1", .pair Tag.nameAndType 17 14, .pair Tag.fieldRef 2 18]

/-- A class with that generator. -/
def sequence (start loop : Label) : ClassFile where
  pool := some sequencePool
  major := 50
  name := "Seq"
  super := "java/lang/Object"
  methods := [sequenceMethod start loop]

/-- The code as it is woven if the label in front comes first. -/
def sequenceWoven : List Insn :=
  [.plain .iconst0, .load .istore 1, .load .aload 0, .access .getField "Seq" "$state$next" "I",
    ⟨.tableSwitch, .tableSwitch 1 1 2 [3]⟩, .place 2] ++ (sequenceCode 0 1).take 7 ++
  [.load .aload 0, .load .iload 1, .access .putField "Seq" "$slot$next$1" "I", .load .aload 0,
    .plain .iconst1, .access .putField "Seq" "$state$next" "I", .plain .iconst1, .plain .ireturn,
    .place 3, .load .aload 0, .access .getField "Seq" "$slot$next$1" "I", .load .istore 1] ++
  (sequenceCode 0 1).drop 7

/-- The method with the woven code. -/
def sequenceWovenMethod : Method :=
  { sequenceMethod 0 1 with maxStack := 4, code := some (.ofInsns 4 sequenceWoven) }

/-- The class with this method. -/
def sequenceWovenClass : ClassFile :=
  { sequence 0 1 with
    fields := [{ access := Access.isPrivate, name := "$state$next", desc := "I" },
      { access := Access.isPrivate, name := "$slot$next$1", desc := "I" }]
    methods := [sequenceWovenMethod] }

/-- What becomes of the method. -/
def sequenceResult : Woven where
  method := "next()Z"
  stateField := "$state$next"
  states := 1
  slots := [⟨1, "I", "$slot$next$1"⟩]
  maxStack := 4

theorem sound_sequencePool : sequencePool.Sound :=
  sound_ofEntries rfl (.of_narrow (by decide) : Regular (sequencePool.entries.toList.drop 1))

theorem weave_sequence :
    (weave {} 0).on (sequence 0 1) = (.ok sequenceResult, sequenceWovenClass) := by
  have hwoven : (weaveMethod {} (sequence 0 1) (sequenceMethod 0 1)).toOption =
      some (sequenceResult, sequenceWovenMethod) := by
    delta weaveMethod wovenCode
    decide +kernel
  exact weave_of_weaveMethod_ok rfl (Outcome.eq_ok_of_toOption hwoven) (by decide)

/-- The constants of the woven code are in the pool. -/
theorem held_sequenceWoven : ∀ i ∈ sequenceWoven, ∃ n, addConstant sequencePool i =
    .ok (n, sequencePool) := by
  have hstate : ∀ op, addConstant sequencePool (.access op "Seq" "$state$next" "I") =
      .ok (16, sequencePool) := fun op => congrArg Except.ok (by
    simp (disch := decide) only [addMember, addClass, addSingle, addNameAndType, addText,
      sound_sequencePool.add_held]
    rfl)
  have hslot : ∀ op, addConstant sequencePool (.access op "Seq" "$slot$next$1" "I") =
      .ok (19, sequencePool) := fun op => congrArg Except.ok (by
    simp (disch := decide) only [addMember, addClass, addSingle, addNameAndType, addText,
      sound_sequencePool.add_held]
    rfl)
  have hcall : addConstant sequencePool (.call .invokeVirtual "Seq" "yieldReturn" "()V") =
      .ok (12, sequencePool) := congrArg Except.ok (by
    simp (disch := decide) only [addMember, addClass, addSingle, addNameAndType, addText,
      sound_sequencePool.add_held]
    rfl)
  simp (disch := decide) [sequenceWoven, sequenceCode, hstate, hslot, hcall,
    addConstant_of_not_isNamed]

theorem encode_sequence : ∃ d, sequenceWovenClass.encode = .ok (d, sequenceWovenClass) := by
  have hinsns : (Listing.ofInsns 4 sequenceWoven).insns = sequenceWoven :=
    Listing.insns_ofInsns _ _
  have hlines : (sequencePool.addText Attribute.lineNumbers).2 = sequencePool := by
    simp (disch := decide) only [addText, sound_sequencePool.add_held]
  have hlength : (Code.write sequencePool sequenceWovenMethod
      (.ofInsns 4 sequenceWoven)).toOption.map (fun out => out.1.length) = some 81 := by
    decide +kernel
  obtain ⟨data, -, hwrite⟩ := write_of_held (hinsns.symm ▸ held_sequenceWoven)
    (hinsns.symm ▸ rfl) (hinsns.symm ▸ rfl) (.inr hlines) rfl hlength
  have hsuper : addNamed sequencePool "java/lang/Object" = (4, sequencePool) := by
    rw [addNamed, if_neg (by decide)]
    simp (disch := decide) only [addClass, addSingle, addText, sound_sequencePool.add_held]
    rfl
  refine encode_of_codes rfl (.code rfl hwrite (.nil _)) ?_ rfl
  simp (disch := decide) only [framed, sequenceWovenClass, sequenceWovenMethod, sequenceMethod,
    sequence, hsuper, classIndices, fieldBytes, methodBytes, memberBytes, writeAttributes,
    attributeBytes, addClass, addSingle, addText, sound_sequencePool.add_held, List.zip_cons_cons,
    List.zip_nil_right, List.append_nil]

/-- The generator is woven with the same result and written as the same bytes, whichever of its
labels comes first. -/
theorem transform_renamed_sequence : (sequence 0 1).Renamed (sequence 1 0) ∧
    ({} : Plan).settings.chain = Chain.standard ∧
    ∃ r r' bytes, ((sequence 0 1).transform {}).1 = some r ∧
      ((sequence 1 0).transform {}).1 = some r' ∧ r.Same r' ∧
      r.woven = [⟨"next()Z", "$state$next", 1, [⟨1, "I", "$slot$next$1"⟩], 4⟩] ∧
      (∃ d e, ((sequence 0 1).transform {}).2 = .ok d ∧ d.encode = .ok (bytes, e)) ∧
      ∃ d e, ((sequence 1 0).transform {}).2 = .ok d ∧ d.encode = .ok (bytes, e) := by
  have hcode : Listing.Renamed (Equiv.swap 0 1) (Listing.ofInsns 2 (sequenceCode 0 1))
      (Listing.ofInsns 2 (sequenceCode 1 0)) := by
    refine .ofInsns ?_ (sequenceCode 0 1)
    rintro lbl (hneg | hle)
    · exact Equiv.swap_apply_of_ne_of_ne hneg.ne (hneg.trans (by decide)).ne
    · exact Equiv.swap_apply_of_ne_of_ne (lt_of_lt_of_le (by decide) hle).ne'
        (lt_of_lt_of_le (by decide) hle).ne'
  have hrenamed : (sequence 0 1).Renamed (sequence 1 0) :=
    ⟨.cons ⟨.some ⟨_, hcode⟩, rfl⟩ .nil, rfl⟩
  obtain ⟨hreport, hbytes⟩ := @transform_renamed {} _ _ hrenamed rfl
  have hselection : (sequence 0 1).selection {} = [(0, sequenceMethod 0 1)] := rfl
  have htransform := transform_single rfl hselection weave_sequence
  rw [htransform] at hreport
  obtain ⟨r', hr', hsame⟩ : ∃ r', ((sequence 1 0).transform {}).1 = some r' ∧
      (Report.addWoven {} sequenceResult).Same r' := by
    generalize ((sequence 1 0).transform {}).1 = o at hreport
    cases hreport with
    | some h => exact ⟨_, rfl, h⟩
  -- one of them can be written, and so can the other
  obtain ⟨bytes, hencode⟩ := encode_sequence
  have hfirst : ∃ d e, ((sequence 0 1).transform {}).2 = .ok d ∧ d.encode = .ok (bytes, e) :=
    ⟨_, _, congrArg Prod.snd htransform, hencode⟩
  exact ⟨hrenamed, rfl, _, r', bytes, congrArg Prod.fst htransform, hr', hsame, rfl, hfirst,
    (hbytes bytes).mp hfirst⟩

end ClassFile

end ClassWeaver
