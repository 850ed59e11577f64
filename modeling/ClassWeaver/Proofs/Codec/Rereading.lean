import ClassWeaver.Proofs.Codec.Transformed

/-!
# Classes that were transformed are read back

A class that was read, and transformed or not, is read back from what is written for it
(`ClassFile.parse_encode`). Rules that are to run have to leave instructions that can be written:
a rule may put a number into a `bipush` that does not fit it, and then something else is read back
(`ClassFile.parse_encode_astray`).

Both are shown of a file whose pool holds all that weaving adds, so that writing it leaves the pool
as it is.
-/

namespace ClassWeaver

/-! ### Reading by evaluation -/

namespace Code.Body

/-- The listing of a body in which nothing needs a label. -/
def unlabelled (b : Body) : Listing :=
  .ofInsns 0 ((b.handlers ++ b.insns.map Prod.snd ++ b.tables.locals.toList).map
    (Insn.mapLabels fun _ => 0))

theorem listing_of_offsets {b : Body} (h : b.offsets = []) : b.listing = .ok b.unlabelled := by
  have hnumbers : labelNumbers b.offsets = ∅ := by rw [h]; rfl
  have hmisplaced : b.misplaced? = none := by rw [misplaced?, h]; rfl
  have hrename : ∀ i : Insn, (⟨i.opcode,
      i.operand.mapLabels fun pc => ((∅ : Std.HashMap Label Nat).getD pc 0 : Nat)⟩ : Insn) =
        i.mapLabels fun _ => 0 := fun i => by
    simp only [Std.HashMap.getD_empty]
    rfl
  have hsequence : b.sequence ∅ = (b.handlers ++ b.insns.map Prod.snd ++
      b.tables.locals.toList).map (Insn.mapLabels fun _ => 0) := by
    simp only [sequence, Std.HashMap.getElem?_empty, List.nil_append, List.append_nil, hrename,
      List.map_append, List.map_map]
    rw [List.map_eq_flatMap (f := _ ∘ Prod.snd)]
    rfl
  rw [listing, hmisplaced]
  dsimp only
  rw [hnumbers, hsequence]
  rfl

/-- The listing, with no labels numbered where there are none. Labels are numbered in a hash map,
which does not compute here. -/
def computed (b : Body) : Except Fault Listing :=
  if b.offsets = [] then .ok b.unlabelled else b.listing

theorem listing_eq_computed : listing = computed := by
  funext b
  unfold computed
  split
  · next h => exact listing_of_offsets h
  · rfl

end Code.Body

namespace ClassFile

open Code Pool

/-! ### A file that is woven -/

/-- A generator that pushes a number and drops it, and suspends once. -/
def pausedMethod : Method where
  access := 1
  name := "next"
  desc := "()Z"
  code := some (.ofInsns 0 [⟨.bipush, .int 100⟩, .plain .pop, .load .aload 0,
    .call .invokeVirtual "A" "yieldReturn" "()V", .plain .iconst0, .plain .ireturn])
  maxStack := 1
  maxLocals := 1

/-- The method that it calls to suspend. -/
def pauseMethod : Method where
  access := 1
  name := "yieldReturn"
  desc := "()V"
  code := some (.ofInsns 0 [.plain .voidReturn])
  maxLocals := 1

/-- The constants of the file of their class, with those of the woven code. -/
def pausedPool : Pool :=
  .ofEntries #[.unused, .utf8 "A", .single Tag.classRef 1, .utf8 "next", .utf8 "()Z", .utf8 "Code",
    .utf8 "yieldReturn", .utf8 "()V", .pair Tag.nameAndType 6 7, .pair Tag.methodRef 2 8,
    .utf8 "$state$next", .utf8 "I", .pair Tag.nameAndType 10 11, .pair Tag.fieldRef 2 12]

/-- A class with the two. -/
def paused : ClassFile where
  pool := some pausedPool
  major := 50
  name := "A"
  methods := [pausedMethod, pauseMethod]

/-- The file. -/
def pausedFile : List UInt8 :=
  [0xCA, 0xFE, 0xBA, 0xBE, 0, 0, 0, 50, 0, 14, 1, 0, 1, 0x41, 7, 0, 1,
    1, 0, 4, 0x6E, 0x65, 0x78, 0x74, 1, 0, 3, 0x28, 0x29, 0x5A, 1, 0, 4, 0x43, 0x6F, 0x64, 0x65,
    1, 0, 11, 0x79, 0x69, 0x65, 0x6C, 0x64, 0x52, 0x65, 0x74, 0x75, 0x72, 0x6E,
    1, 0, 3, 0x28, 0x29, 0x56, 12, 0, 6, 0, 7, 10, 0, 2, 0, 8,
    1, 0, 11, 0x24, 0x73, 0x74, 0x61, 0x74, 0x65, 0x24, 0x6E, 0x65, 0x78, 0x74,
    1, 0, 1, 0x49, 12, 0, 10, 0, 11, 9, 0, 2, 0, 12,
    0, 0, 0, 2, 0, 0, 0, 0, 0, 0, 0, 2, 0, 1, 0, 3, 0, 4, 0, 1, 0, 5, 0, 0, 0, 21,
    0, 1, 0, 1, 0, 0, 0, 9, 0x10, 100, 0x57, 0x2A, 0xB6, 0, 9, 3, 0xAC, 0, 0, 0, 0,
    0, 1, 0, 6, 0, 7, 0, 1, 0, 5, 0, 0, 0, 13, 0, 0, 0, 1, 0, 0, 0, 1, 0xB1, 0, 0, 0, 0, 0, 0]

theorem regular_pausedPool : Regular (pausedPool.entries.toList.drop 1) :=
  .of_narrow (by decide)

theorem sound_pausedPool : pausedPool.Sound := sound_ofEntries rfl regular_pausedPool

theorem paired_pausedPool : pausedPool.Paired := paired_of_regular rfl regular_pausedPool

/-- What the file tells about the class itself. -/
theorem parse_paused_head : (parse pausedFile).toOption.map (fun c =>
    ([c.major, c.minor, c.access], c.name :: c.super :: c.interfaces, c.fields, c.attributes)) =
      some ([50, 0, 0], [utf8 "A", []], [], []) := by
  delta parse ClassFile.read readBody readMethod addAttribute readInto
  rw [Body.listing_eq_computed]
  decide +kernel

/-- What it tells about the methods, and the pool. -/
theorem parse_paused_body : (parse pausedFile).toOption.map (fun c =>
    (c.pool.map Pool.entries, c.methods)) =
      some (some pausedPool.entries, [pausedMethod, pauseMethod]) := by
  delta parse ClassFile.read readBody readMethod addAttribute readInto
  rw [Body.listing_eq_computed]
  decide +kernel

/-- The file is read as the class. -/
theorem parse_paused : parse pausedFile = .ok paused := by
  have hhead := parse_paused_head
  have hbody := parse_paused_body
  cases hparse : parse pausedFile with
  | error f =>
    rw [hparse] at hbody
    cases hbody
  | ok c =>
    obtain ⟨entries, hpool⟩ := pool_of_parse hparse
    rw [hparse] at hhead hbody
    obtain ⟨pool, major, minor, access, name, super, interfaces, fields, methods, attributes⟩ := c
    obtain rfl : pool = some (.ofEntries entries) := hpool
    cases hhead
    simp only [Except.toOption, Option.map_some, Option.some.injEq, Prod.mk.injEq] at hbody
    obtain ⟨hentries, rfl⟩ := hbody
    obtain rfl : entries = pausedPool.entries := hentries
    rfl

/-- The code as it is woven, with a number in place of the one that it pushes. -/
def wovenInsns (n : Int32) : List Insn :=
  [.load .aload 0, .access .getField "A" "$state$next" "I", ⟨.tableSwitch, .tableSwitch 1 1 0 [1]⟩,
    .place 0, ⟨.bipush, .int n⟩, .plain .pop, .load .aload 0,
    .call .invokeVirtual "A" "yieldReturn" "()V", .load .aload 0, .plain .iconst1,
    .access .putField "A" "$state$next" "I", .plain .iconst1, .plain .ireturn, .place 1,
    .plain .iconst0, .plain .ireturn]

/-- The generator with this code. -/
def wovenMethod (n : Int32) : Method where
  access := 1
  name := "next"
  desc := "()Z"
  code := some (.ofInsns 2 (wovenInsns n))
  maxStack := 4
  maxLocals := 1

/-- The class with this generator. -/
def woven (n : Int32) : ClassFile where
  pool := some pausedPool
  major := 50
  name := "A"
  fields := [{ access := Access.isPrivate, name := "$state$next", desc := "I" }]
  methods := [wovenMethod n, pauseMethod]

/-- A rule that puts a number into an instruction that has no room for it. -/
def enlarging : Rule where
  applies i := i.opcode = .bipush
  replace _ l r := (l.set r ⟨.bipush, .int 300⟩, .ok (some r))

/-- What becomes of the generator. -/
def pausedWoven : Woven where
  method := "next()Z"
  stateField := "$state$next"
  states := 1
  slots := []
  maxStack := 4

/-- The report of both transformations. -/
def pausedReport : Report where
  woven := [pausedWoven]

/-- The generator is woven with rules that make the number what it is to be. -/
theorem weave_paused {settings : Settings} {n : Int32}
    (h : (weaveMethod settings paused pausedMethod).toOption = some (pausedWoven, wovenMethod n)) :
    (weave settings 0).on paused = (.ok pausedWoven, woven n) :=
  weave_of_weaveMethod_ok rfl (Outcome.eq_ok_of_toOption h) (by decide)

section Written

variable {n : Int32}

/-- The constants of the woven code are in the pool. -/
theorem held_woven : ∀ i ∈ wovenInsns n, ∃ k, addConstant pausedPool i = .ok (k, pausedPool) := by
  have hfield : ∀ op, addConstant pausedPool (.access op "A" "$state$next" "I") =
      .ok (13, pausedPool) := fun op => congrArg Except.ok (by
    simp (disch := decide) only [addMember, addClass, addSingle, addNameAndType, addText,
      sound_pausedPool.add_held]
    rfl)
  have hcall : addConstant pausedPool (.call .invokeVirtual "A" "yieldReturn" "()V") =
      .ok (9, pausedPool) := congrArg Except.ok (by
    simp (disch := decide) only [addMember, addClass, addSingle, addNameAndType, addText,
      sound_pausedPool.add_held]
    rfl)
  have hpush : addConstant pausedPool ⟨.bipush, .int n⟩ = .ok (0, pausedPool) := rfl
  simp (disch := decide) [wovenInsns, hfield, hcall, hpush, addConstant_of_not_isNamed]

theorem tables_woven (op : Opcode)
    (hop : op = .tryCatch ∨ op = .lineNumber ∨ op = .localVariable) :
    entriesUnder op (Listing.ofInsns 2 (wovenInsns n)).insns = [] := by
  rw [Listing.insns_ofInsns]
  rcases hop with rfl | rfl | rfl
  all_goals rfl

theorem write_pause : ∃ data, data.length = 13 ∧ Code.write pausedPool pauseMethod
    (.ofInsns 0 [.plain .voidReturn]) = .ok (data, pausedPool) := by
  refine write_of_held ?_ rfl rfl (.inl rfl) rfl (by decide +kernel)
  rw [Listing.insns_ofInsns]
  exact List.forall_mem_singleton.mpr ⟨0, rfl⟩

variable (hwritten : (Code.write pausedPool (wovenMethod n)
  (.ofInsns 2 (wovenInsns n))).toOption.map (fun out => out.1.length) = some 52)

include hwritten

theorem write_woven : ∃ data, data.length = 52 ∧ Code.write pausedPool (wovenMethod n)
    (.ofInsns 2 (wovenInsns n)) = .ok (data, pausedPool) := by
  refine write_of_held ?_ (tables_woven _ (.inl rfl)) (tables_woven _ (.inr (.inr rfl)))
    (.inl (tables_woven _ (.inr (.inl rfl)))) rfl hwritten
  rw [Listing.insns_ofInsns]
  exact held_woven

theorem codes_woven : ∃ data pause, data.length = 52 ∧ pause.length = 13 ∧
    Codes pausedPool (woven n).methods [[⟨Attribute.code, data⟩], [⟨Attribute.code, pause⟩]]
      pausedPool := by
  obtain ⟨data, hdata, hwoven⟩ := write_woven hwritten
  obtain ⟨pause, hpause, hwrite⟩ := write_pause
  exact ⟨data, pause, hdata, hpause, .code rfl hwoven (.code rfl hwrite (.nil _))⟩

theorem encode_woven : ∃ d, (woven n).encode = .ok (d, woven n) := by
  obtain ⟨data, pause, -, -, hcodes⟩ := codes_woven hwritten
  refine encode_of_codes rfl hcodes ?_ rfl
  simp (disch := decide) only [framed, woven, wovenMethod, pauseMethod, addNamed, classIndices,
    fieldBytes, methodBytes, memberBytes, writeAttributes, attributeBytes, addClass, addSingle,
    addText, sound_pausedPool.add_held, List.zip_cons_cons, List.zip_nil_right, List.append_nil,
    List.isEmpty_nil, if_true]

theorem fits_woven : (woven n).Fits := by
  have hmethod : (wovenMethod n).Fits := by
    refine ⟨fun l hl => ?_, Nat.le_of_ble_eq_true rfl⟩
    obtain rfl := Option.some.inj hl
    have hhandlers := tables_woven (n := n) _ (.inl rfl)
    have hlines := tables_woven (n := n) _ (.inr (.inl rfl))
    have hlocals := tables_woven (n := n) _ (.inr (.inr rfl))
    refine ⟨⟨?_, ?_, ?_⟩, ?_⟩
    all_goals simp only [Listing.tableCount, hhandlers, hlines, hlocals]
    all_goals exact Nat.le_of_ble_eq_true rfl
  have hpause : pauseMethod.Fits := by
    refine ⟨fun l hl => ?_, Nat.le_of_ble_eq_true rfl⟩
    obtain rfl := Option.some.inj hl
    exact ⟨⟨by decide +kernel, by decide +kernel, by decide +kernel⟩, by decide +kernel⟩
  refine ⟨Nat.zero_le _, Nat.le_of_ble_eq_true rfl, List.forall_mem_singleton.mpr (Nat.zero_le _),
    Nat.le_of_ble_eq_true rfl, List.forall_mem_cons.mpr ⟨hmethod, List.forall_mem_singleton.mpr
      hpause⟩, Nat.zero_le _, fun codes q hcodes => ?_⟩
  obtain ⟨data, pause, hdata, hlength, hall⟩ := codes_woven hwritten
  have heq := (hall.methodCodes_eq []).symm.trans hcodes
  obtain ⟨rfl, -⟩ := Prod.mk.inj (Except.ok.inj heq)
  refine List.forall_mem_cons.mpr ⟨List.forall_mem_singleton.mpr ?_,
    List.forall_mem_singleton.mpr (List.forall_mem_singleton.mpr ?_)⟩
  all_goals simp only [Attribute.Short, hdata, hlength]
  all_goals decide

end Written

/-- No class that was read is like this one. -/
theorem not_alike_woven {d : List UInt8} {c₁ : ClassFile} (hparse : parse d = .ok c₁) :
    ¬(woven 300).Alike c₁ := by
  intro halike
  obtain ⟨p, hc₁⟩ := parsed_of_parse hparse
  obtain ⟨m, hm, hlike⟩ := exists_of_forall₂ halike.methods.flip (b := wovenMethod 300)
    List.mem_cons_self
  obtain ⟨l, hl, houtline⟩ := Option.map_eq_some_iff.mp hlike.code
  have hmem : ⟨.bipush, .int 300⟩ ∈ (Listing.ofInsns 2 (wovenInsns 300)).insns := by
    rw [Listing.insns_ofInsns]
    decide
  obtain ⟨i, hi, heq⟩ := Listing.exists_of_outline houtline.symm hmem rfl
  have hencodable := ((hc₁.methods m hm).faithful.code l hl).encodable i hi
  change i.general.mapLabels (position l.insns) = ⟨.bipush, .int 300⟩ at heq
  have hoperand : (i.general.mapLabels (position l.insns)).operand = .int 300 :=
    congrArg Insn.operand heq
  obtain ⟨op, x⟩ := i
  cases x with
  | int v =>
    obtain ⟨rfl, rfl⟩ : op = .bipush ∧ v = 300 :=
      ⟨congrArg Insn.opcode heq, Operand.int.inj hoperand⟩
    rcases hencodable with ⟨-, -, h⟩ | ⟨h, -⟩ | ⟨h, -⟩
    all_goals exact absurd h (by decide)
  | none =>
    rcases Insn.general_none op with ⟨op', index, h⟩ | h
    all_goals
      rw [h] at hoperand
      cases hoperand
  | _ => cases hoperand

/-! ### Reading what was written -/

/-- **Reading undoes writing.** A class that was read, and transformed or not, is read back from
what is written for it: equal but for its pool, the forms of its instructions and the numbers of
its labels. The tables of the class must have no more entries, and its code attributes no more
bytes, than can be counted. -/
theorem parse_encode {plan : Plan} {report : Option Report} {data d : List UInt8}
    {c₀ c c' : ClassFile} (hparse : parse data = .ok c₀) (hpool : ∀ p, c₀.pool = some p → p.Paired)
    (hc : c = c₀ ∨ (∀ p, c₀.pool = some p → plan.settings.Faithful p) ∧
      c₀.transform plan = (report, .ok c))
    (hfits : c.Fits) (hencode : c.encode = .ok (d, c')) :
    ∃ c₁, parse d = .ok c₁ ∧ c.Alike c₁ := by
  obtain ⟨p, hc₀⟩ := parsed_of_parse hparse
  have hp := hc₀.sound (hpool p hc₀.pool)
  have hfaithful : c.Faithful p := by
    rcases hc with rfl | ⟨hsettings, htransform⟩
    · exact hc₀.faithful
    · exact hc₀.faithful.transform (hsettings p hc₀.pool) htransform
  obtain ⟨q, ms, -, -, -, -, hread, halike⟩ := parse_of_encode hfaithful hp hfits hencode
  exact ⟨_, hread, rfl, rfl, rfl, rfl, rfl, rfl, rfl, halike, rfl⟩

theorem weave_standard : (weave {} 0).on paused = (.ok pausedWoven, woven 100) := by
  refine weave_paused ?_
  delta weaveMethod wovenCode
  decide +kernel

theorem write_standard : (Code.write pausedPool (wovenMethod 100)
    (.ofInsns 2 (wovenInsns 100))).toOption.map (fun out => out.1.length) = some 52 := by
  decide +kernel

theorem parse_encode_paused : ∃ c₀ c c' d, parse pausedFile = .ok c₀ ∧
    c₀.transform {} = (some pausedReport, .ok c) ∧ c.encode = .ok (d, c') ∧
    ∃ c₁, parse d = .ok c₁ ∧ c.Alike c₁ := by
  have hselection : paused.selection {} = [(0, pausedMethod)] := rfl
  have htransform : paused.transform {} = (some pausedReport, .ok (woven 100)) :=
    transform_single rfl hselection weave_standard
  obtain ⟨d, hencode⟩ := encode_woven write_standard
  have hstandard : ∀ p, Settings.Faithful p {} := fun p rules hrules => by cases hrules
  refine ⟨_, _, _, _, parse_paused, htransform, hencode, ?_⟩
  refine parse_encode parse_paused (fun p hp => ?_) (.inr ⟨fun p _ => hstandard p, htransform⟩)
    (fits_woven write_standard) hencode
  obtain rfl := Option.some.inj hp
  exact paired_pausedPool

theorem weave_enlarging :
    (weave { enhancers := some [enlarging] } 0).on paused = (.ok pausedWoven, woven 300) := by
  refine weave_paused ?_
  delta weaveMethod wovenCode
  decide +kernel

/-- **A rule may put in what cannot be read back.** Here it puts a number into an instruction that
has no room for it, and another number is read. -/
theorem parse_encode_astray : ∃ c₀ c c' d, parse pausedFile = .ok c₀ ∧
    (∀ p, c₀.pool = some p → p.Paired) ∧
    c₀.transform { settings := { enhancers := some [enlarging] } } = (some pausedReport, .ok c) ∧
    c.Fits ∧ c.encode = .ok (d, c') ∧ ¬∃ c₁, parse d = .ok c₁ ∧ c.Alike c₁ := by
  have hwritten : (Code.write pausedPool (wovenMethod 300)
      (.ofInsns 2 (wovenInsns 300))).toOption.map (fun out => out.1.length) = some 52 := by
    decide +kernel
  obtain ⟨d, hencode⟩ := encode_woven hwritten
  have hselection : paused.selection { settings := { enhancers := some [enlarging] } } =
    [(0, pausedMethod)] := rfl
  refine ⟨_, _, _, d, parse_paused, fun p hp => ?_, transform_single rfl hselection weave_enlarging,
    fits_woven hwritten, hencode, ?_⟩
  · obtain rfl := Option.some.inj hp
    exact paired_pausedPool
  · rintro ⟨c₁, hparse, halike⟩
    exact not_alike_woven hparse halike

end ClassFile

end ClassWeaver
