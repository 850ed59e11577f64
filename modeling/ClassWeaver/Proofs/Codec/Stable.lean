import ClassWeaver.Proofs.Codec.Again
import ClassWeaver.Proofs.Codec.Parsed

/-!
# Class files that stay as they are

A class that is read, written, read and written once more comes out as the same bytes the second
time, unless its code loads a floating-point constant that is not a number: such a constant is
never found in the pool and is added once more on every writing (`encode_encode_iff`).
-/

namespace ClassWeaver

open Pool Code

/-- The code of the method loads nothing that is not a number. -/
def Method.Numeric (m : Method) : Prop := ∀ l, m.code = some l → ∀ i ∈ l.insns, i.Numeric

/-- The dynamic constants that the code of the method loads have names and types. -/
def Method.Linked (p : Pool) (m : Method) : Prop :=
  ∀ l, m.code = some l → ∀ i ∈ l.insns, i.Linked p

/-- The code of the class loads nothing that is not a number. -/
def ClassFile.Numeric (c : ClassFile) : Prop := ∀ m ∈ c.methods, m.Numeric

theorem Insn.Linked.mono {p q : Pool} {i : Insn} (h : i.Linked p) (hi : i.Encodable p)
    (hpq : p.Within q) : i.Linked q := by
  intro n hn c hc htag
  rw [Encodable, hn] at hi
  obtain ⟨d, hd, -⟩ := hi.2 n rfl
  obtain rfl : d = c := Except.ok.inj ((hpq.get hd).symm.trans hc)
  obtain ⟨nt, hnt⟩ := h n hn d hd htag
  exact ⟨nt, hpq.nameAndType hnt⟩

theorem Method.Linked.mono {p q : Pool} {m : Method} (h : m.Linked p) (hm : m.Faithful p)
    (hpq : p.Within q) : m.Linked q :=
  fun l hl i hi => (h l hl i hi).mono ((hm.code l hl).encodable i hi) hpq

/-- Listings with the same outline load the same constants. -/
theorem Listing.exists_constant_of_outline {l l' : Listing} (h : l'.outline = l.outline) {i' : Insn}
    (hi' : i' ∈ l'.insns) (hreal : i'.isReal = true) {v : Loadable}
    (hv : i'.operand = .constant v) : ∃ i ∈ l.insns, i.operand = .constant v := by
  obtain ⟨i, hi, heq⟩ := Listing.exists_of_outline h hi' hreal
  have hgeneral : i'.general.mapLabels (position l'.insns) = ⟨.ldc, .constant v⟩ := by
    rw [Insn.general, hv]
    rfl
  rw [hgeneral] at heq
  refine ⟨i, hi, ?_⟩
  have hoperand : (i.general.mapLabels (position l.insns)).operand = .constant v :=
    congrArg Insn.operand heq
  obtain ⟨op, x⟩ := i
  cases x with
  | constant w => exact hoperand
  | none =>
    unfold Insn.general at hoperand
    dsimp only at hoperand
    split at hoperand
    · cases hoperand
    · split at hoperand <;> cases hoperand
  | _ => cases hoperand

theorem Method.Linked.of_alike {p : Pool} {m m' : Method} (h : m.Linked p) (ha : m.Alike m')
    {q : Pool} (hm' : m'.Faithful q) : m'.Linked p := by
  intro l' hl' i' hi' n hn
  have hsame := ha.code
  rw [hl', Option.map_some] at hsame
  obtain ⟨l, hl, houtline⟩ := Option.map_eq_some_iff.mp hsame.symm
  have hreal : i'.isReal = true := by
    by_contra hpseudo
    have hbare := ((hm'.code l' hl').encodable i' hi').isBare (Bool.not_eq_true _ ▸ hpseudo)
    rw [hn] at hbare
    cases hbare
  obtain ⟨i, hi, hload⟩ := Listing.exists_constant_of_outline houtline.symm hi' hreal hn
  exact h l hl i hi n hload

/-- Methods that are alike have tables of the same sizes. -/
theorem Method.Fits.of_alike {p p' : Pool} {m m' : Method} (h : m.Fits) (ha : m.Alike m')
    (hm : m.Parsed p) (hm' : m'.Parsed p') : m'.Fits := by
  have hsame := ha.code
  refine ⟨fun l' hl' => ?_, ?_⟩
  · rw [hl', Option.map_some] at hsame
    obtain ⟨l, hl, houtline⟩ := Option.map_eq_some_iff.mp hsame.symm
    have hhandlers := congrArg (List.length ∘ Outline.handlers) houtline
    have hlocals := congrArg (List.length ∘ Outline.locals) houtline
    have hlines := congrArg List.length (lines_of_outline (hm.faithful.code l hl)
      (hm'.faithful.code l' hl') (hm.tidy l hl) (hm'.tidy l' hl') houtline.symm)
    simp only [Function.comp, Listing.outline, outlineOf, List.length_map] at hhandlers hlocals
    rw [List.length_map, List.length_map] at hlines
    obtain ⟨hfit, hcount⟩ := h.tables l hl
    refine ⟨⟨hhandlers ▸ hfit.handlers, hlines ▸ hfit.lines, hlocals ▸ hfit.locals⟩, ?_⟩
    rw [Listing.tableCount] at hcount ⊢
    simpa only [List.isEmpty_iff_length_eq_zero, hlines, hlocals, ha.codeAttributes] using hcount
  · have hlength : m'.code.toList.length = m.code.toList.length := by
      have hlength := congrArg (List.length ∘ Option.toList) hsame
      simpa only [Function.comp, Option.toList_map, List.length_map] using hlength
    rw [ha.attributes, hlength]
    exact h.attributes

/-- The first place of a constant is its index. -/
theorem Pool.Sound.add_of_idxOf? {p : Pool} (hp : p.Sound) {c : Constant} {n : Nat}
    (hc : (c.tag = 0 || c.isNaN) = false) (hn : p.entries.toList.idxOf? c = some n) :
    p.add c = (n.toUInt16, p) := by
  have hindex : p.index[c]? = some n := by rw [hp.indexed, hc, if_neg Bool.false_ne_true, hn]
  rw [add, (Bool.or_eq_false_iff.mp hc).2, if_neg Bool.false_ne_true, hindex]

/-- A constant that the pool has is found at its first place. -/
theorem Pool.Sound.add_held {p : Pool} (hp : p.Sound) {c : Constant}
    (hc : (c.tag = 0 || c.isNaN || (p.entries.toList.idxOf? c).isNone) = false) :
    p.add c = (((p.entries.toList.idxOf? c).getD 0).toUInt16, p) := by
  obtain ⟨hc, hnone⟩ := Bool.or_eq_false_iff.mp hc
  obtain ⟨n, hn⟩ := Option.isSome_iff_exists.mp (Option.isNone_eq_false_iff.mp hnone)
  rw [hn]
  exact hp.add_of_idxOf? hc hn

namespace ClassFile

variable {p q : Pool}

/-! ### Writing again -/

theorem again_member (hp : p.Sound) (access : UInt16) (name desc : Text)
    (attributes : List Attribute) : Again (memberBytes · access name desc attributes) p := by
  have hname := again_addText hp name
  have hdesc := again_addText hname.sound desc
  have hattributes := again_writeAttributes hdesc.sound attributes
  have hall := Adds.andThen hname (Adds.andThen hdesc hattributes)
  refine ⟨hall.sound, hall.within, fun q hq hfits hs => ?_⟩
  obtain ⟨hn, hd, ha⟩ := hall.found q hq hfits
  have hn : q.addText name = _ := hn hs
  have hd : q.addText desc = _ := hd hs
  have ha : writeAttributes q attributes = _ := ha hs
  simp only [memberBytes, hn, hd, ha]

theorem again_framed (hp : p.Sound) (c : ClassFile) (codes : List (List Attribute)) :
    Again (c.framed codes) p := by
  have hthis := again_addClass hp c.name
  have hsuper := again_addNamed hthis.sound c.super
  have hinterfaces := AgainOk.total (classIndices_eq · [] c.interfaces)
    (again_writeAll hsuper.sound fun p name hp _ => ((again_addClass hp name).map u2).ok)
  have hfields := AgainOk.total (fieldBytes_eq · [] c.fields)
    (again_writeAll hinterfaces.sound fun p f hp _ => (again_member hp ..).ok)
  have hmethods := AgainOk.total (methodBytes_eq · [] (c.methods.zip codes))
    (again_writeAll hfields.sound fun p k hp _ => (again_member hp ..).ok)
  have hattributes := again_writeAttributes hmethods.sound c.attributes
  have hall := Adds.andThen hthis (Adds.andThen hsuper (Adds.andThen hinterfaces
    (Adds.andThen hfields (Adds.andThen hmethods hattributes))))
  refine ⟨hall.sound, hall.within, fun q hq hfits hs => ?_⟩
  obtain ⟨h₁, h₂, h₃, h₄, h₅, h₆⟩ := hall.found q hq hfits
  have h₁ : q.addClass c.name = _ := h₁ hs
  have h₂ : addNamed q c.super = _ := h₂ hs
  have h₃ : classIndices q [] c.interfaces = _ := h₃ hs
  have h₄ : fieldBytes q [] c.fields = _ := h₄ hs
  have h₅ : methodBytes q [] (c.methods.zip codes) = _ := h₅ hs
  have h₆ : writeAttributes q c.attributes = _ := h₆ hs
  simp only [framed, h₁, h₂, h₃, h₄, h₅, h₆]

theorem Codes.again {ms : List Method} {codes : List (List Attribute)} (h : Codes p ms codes q)
    (hp : p.Sound) (hms : ∀ m ∈ ms, m.Faithful p) (hnum : ∀ m ∈ ms, m.Numeric)
    (hlinked : ∀ m ∈ ms, m.Linked p) :
    Adds p (codes, q) fun q codes => q.Sound → Codes q ms codes q := by
  induction h with
  | nil p => exact ⟨hp, .refl p, fun q _ _ _ => .nil q⟩
  | bare hcode _ ih =>
    rw [List.forall_mem_cons] at hms hnum hlinked
    have hrest := ih hp hms.2 hnum.2 hlinked.2
    exact ⟨hrest.sound, hrest.within, fun q hq hfits hs =>
      .bare hcode (hrest.found q hq hfits hs)⟩
  | @code p p₁ q m l data ms codes hcode hwrite _ ih =>
    rw [List.forall_mem_cons] at hms hnum hlinked
    obtain ⟨d, hd, hdata⟩ := write_eq_ok_iff.mp hwrite
    have hfirst := hd.again hp (hms.1.code l hcode) (hnum.1 l hcode) (hlinked.1 l hcode) m
    rw [← hdata] at hfirst
    have hrest := ih hfirst.sound (fun k hk => (hms.2 k hk).mono hfirst.within) hnum.2
      fun k hk => (hlinked.2 k hk).mono (hms.2 k hk) hfirst.within
    have hboth := hfirst.andThen hrest
    refine ⟨hboth.sound, hboth.within, fun q hq hfits hs => ?_⟩
    obtain ⟨hhead, htail⟩ := hboth.found q hq hfits
    exact .code hcode (hhead hs) (htail hs)

/-! ### Classes that are alike -/

theorem Codes.of_alike {p₀ p' : Pool} {ms ms' : List Method} {codes : List (List Attribute)}
    (h : Codes p ms codes q) (halike : List.Forall₂ Method.Alike ms ms')
    (hms : ∀ m ∈ ms, m.Parsed p₀) (hms' : ∀ m ∈ ms', m.Parsed p') : Codes p ms' codes q := by
  induction h generalizing ms' with
  | nil p =>
    cases halike
    exact .nil p
  | bare hcode _ ih =>
    cases halike with
    | cons hm halike =>
      rw [List.forall_mem_cons] at hms hms'
      have hnone := hm.code
      rw [hcode, Option.map_none, Option.map_eq_none_iff] at hnone
      exact .bare hnone (ih halike hms.2 hms'.2)
  | code hcode hwrite _ ih =>
    cases halike with
    | cons hm halike =>
      rw [List.forall_mem_cons] at hms hms'
      have hsome := hm.code
      rw [hcode, Option.map_some] at hsome
      obtain ⟨l', hl', houtline⟩ := Option.map_eq_some_iff.mp hsome
      refine .code hl' ?_ (ih halike hms.2 hms'.2)
      exact write_of_outline_eq (hms.1.faithful.code _ hcode) (hms'.1.faithful.code l' hl')
        (hms.1.tidy _ hcode) (hms'.1.tidy l' hl') houtline hm.maxStack hm.maxLocals
        hm.codeAttributes hwrite

theorem framed_of_alike {c c' : ClassFile} (h : c.Alike c') (codes : List (List Attribute))
    (q : Pool) : c'.framed codes q = c.framed codes q := by
  have hmethods : ∀ {ms ms' : List Method}, List.Forall₂ Method.Alike ms ms' →
      ∀ (q : Pool) (seen : List (List UInt8)) (codes : List (List Attribute)),
      methodBytes q seen (ms'.zip codes) = methodBytes q seen (ms.zip codes) := by
    intro ms ms' hms
    induction hms with
    | nil => exact fun q seen codes => rfl
    | @cons m m' ms ms' hm _ ih =>
      intro q seen codes
      cases codes with
      | nil => rfl
      | cons code codes =>
        rw [List.zip_cons_cons, List.zip_cons_cons, methodBytes, methodBytes, hm.access, hm.name,
          hm.desc, hm.attributes]
        exact ih _ _ _
  simp only [framed, h.name, h.super, h.interfaces, h.fields, h.access, h.attributes,
    hmethods h.methods, h.methods.length_eq]

theorem Alike.symm {c c' : ClassFile} (h : c.Alike c') : c'.Alike c where
  major := h.major.symm
  minor := h.minor.symm
  access := h.access.symm
  name := h.name.symm
  super := h.super.symm
  interfaces := h.interfaces.symm
  fields := h.fields.symm
  methods := (h.methods.imp fun _ _ hm => ⟨hm.access.symm, hm.name.symm, hm.desc.symm, hm.code.symm,
    hm.maxStack.symm, hm.maxLocals.symm, hm.codeAttributes.symm, hm.attributes.symm⟩).flip
  attributes := h.attributes.symm

/-! ### Bytes and pools -/

/-- The class is written as the bytes, starting with one pool and ending with another. -/
structure Emits (c : ClassFile) (q : Pool) (d : List UInt8) (r : Pool) : Prop where
  parts : ∃ codes p pool body, methodCodes q [] c.methods = .ok (codes, p) ∧
    c.framed codes p = (body, r) ∧ r.write = .ok pool ∧
    d = bigEndian 4 magic.toNat ++ u2 c.minor ++ u2 c.major ++ pool ++ body

theorem encode_iff_emits {c : ClassFile} (hpool : c.pool = some q) {d : List UInt8}
    {c' : ClassFile} :
    c.encode = .ok (d, c') ↔ ∃ r, c.Emits q d r ∧ c' = { c with pool := some r } := by
  rw [encode_eq_ok_iff, hpool, Option.getD_some]
  constructor
  · rintro ⟨codes, p, pool, hcodes, hwrite, hout⟩
    obtain ⟨hd, hc'⟩ := Prod.mk.inj hout
    exact ⟨_, ⟨codes, p, pool, _, hcodes, rfl, hwrite, hd⟩, hc'⟩
  · rintro ⟨r, ⟨codes, p, pool, body, hcodes, hframed, hwrite, rfl⟩, rfl⟩
    refine ⟨codes, p, pool, hcodes, ?_, ?_⟩
    · rw [hframed]
      exact hwrite
    · rw [hframed]

theorem Emits.of_alike {p' : Pool} {c c' : ClassFile} {d : List UInt8} {r : Pool}
    (h : c.Emits q d r) (halike : c.Alike c') (hc : ∀ m ∈ c.methods, m.Parsed p)
    (hc' : ∀ m ∈ c'.methods, m.Parsed p') : c'.Emits q d r := by
  obtain ⟨codes, p₁, pool, body, hcodes, hframed, hwrite, hd⟩ := h.parts
  have hcodes' := (methodCodes_eq_ok_iff.mp hcodes).of_alike halike.methods hc hc'
  exact ⟨codes, p₁, pool, body, hcodes'.methodCodes_eq [],
    (framed_of_alike halike codes p₁).trans hframed, hwrite,
    by rw [halike.minor, halike.major]; exact hd⟩

/-- The class is written again with the pool that was left, which stays as it is. -/
theorem Emits.again {c : ClassFile} {d : List UInt8} {r : Pool} (h : c.Emits p d r) (hp : p.Sound)
    (hc : ∀ m ∈ c.methods, m.Faithful p) (hnum : c.Numeric) (hlinked : ∀ m ∈ c.methods, m.Linked p)
    (hfits : r.Fits) : c.Emits (ofEntries r.entries) d (ofEntries r.entries) := by
  obtain ⟨codes, p₁, pool, body, hcodes, hframed, hwrite, hd⟩ := h.parts
  have hadds := (methodCodes_eq_ok_iff.mp hcodes).again hp hc hnum hlinked
  have hall := hadds.andThen (again_framed hadds.sound c codes)
  have hr : (c.framed codes p₁).2 = r := congrArg Prod.snd hframed
  obtain ⟨cs, hcs, hregular⟩ := hall.sound.regular
  have hsound : (ofEntries r.entries).Sound := sound_ofEntries (hr ▸ hcs) hregular
  obtain ⟨hmethods, hframe⟩ := hall.found (ofEntries r.entries) (hr ▸ .refl r) hfits
  refine ⟨codes, ofEntries r.entries, pool, body, (hmethods hsound).methodCodes_eq [], ?_,
    hwrite, hd⟩
  rw [hframe hsound]
  dsimp only
  rw [hframed]

theorem Codes.grows {ms : List Method} {codes : List (List Attribute)} (h : Codes p ms codes q)
    (hp : p.Sound) (hms : ∀ m ∈ ms, m.Faithful p) :
    q.Sound ∧ p.Within q ∧ ((∃ m ∈ ms, ¬m.Numeric) → p.count < q.count) := by
  induction h with
  | nil p => exact ⟨hp, .refl p, fun ⟨m, hm, _⟩ => nomatch hm⟩
  | bare hcode _ ih =>
    rw [List.forall_mem_cons] at hms
    obtain ⟨hsound, hwithin, hgrows⟩ := ih hp hms.2
    refine ⟨hsound, hwithin, ?_⟩
    rintro ⟨k, hk, hnum⟩
    refine hgrows ⟨k, (List.mem_cons.mp hk).resolve_left ?_, hnum⟩
    rintro rfl
    exact hnum fun l hl => by rw [hcode] at hl; cases hl
  | @code p p₁ q m l data ms codes hcode hwrite _ ih =>
    rw [List.forall_mem_cons] at hms
    obtain ⟨d, hd, hdata⟩ := write_eq_ok_iff.mp hwrite
    obtain ⟨hs₁, hw₁, hg₁⟩ := hd.grows hp (hms.1.code l hcode) m
    rw [← hdata] at hs₁ hw₁ hg₁
    obtain ⟨hsound, hwithin, hgrows⟩ := ih hs₁ fun k hk => (hms.2 k hk).mono hw₁
    refine ⟨hsound, hw₁.trans hwithin, ?_⟩
    rintro ⟨k, hk, hnum⟩
    rcases List.mem_cons.mp hk with rfl | hk
    · simp only [Method.Numeric, not_forall] at hnum
      obtain ⟨l', hl', i, hi, hnan⟩ := hnum
      obtain rfl := Option.some.inj (hcode.symm.trans hl')
      exact Nat.lt_of_lt_of_le (hg₁ ⟨i, hi, hnan⟩) hwithin.count_le
    · exact Nat.lt_of_le_of_lt hw₁.count_le (hgrows ⟨k, hk, hnum⟩)

theorem Emits.grows {c : ClassFile} {d : List UInt8} {r : Pool} (h : c.Emits p d r) (hp : p.Sound)
    (hc : ∀ m ∈ c.methods, m.Faithful p) (hnum : ¬c.Numeric) : p.count < r.count := by
  obtain ⟨codes, p₁, pool, body, hcodes, hframed, -⟩ := h.parts
  obtain ⟨hsound, hwithin, hgrows⟩ := (methodCodes_eq_ok_iff.mp hcodes).grows hp hc
  have hframe := (again_framed hsound c codes).within
  rw [hframed] at hframe
  simp only [ClassFile.Numeric, not_forall] at hnum
  obtain ⟨m, hm, hnum⟩ := hnum
  exact Nat.lt_of_lt_of_le (hgrows ⟨m, hm, hnum⟩) hframe.count_le

/-- The bytes tell how many entries the pool has. -/
theorem Emits.count_eq {c c' : ClassFile} {d : List UInt8} {q' r r' : Pool} (h : c.Emits q d r)
    (h' : c'.Emits q' d r') : r.count = r'.count := by
  have hcount : ∀ {c : ClassFile} {q r : Pool}, c.Emits q d r →
      r.count ≤ 65535 ∧ (d.drop 8).take 2 = bigEndian 2 r.count := by
    intro c q r h
    obtain ⟨codes, p, pool, body, -, -, hwrite, rfl⟩ := h.parts
    unfold Pool.write at hwrite
    split at hwrite
    · cases hwrite
    · next hfits =>
      obtain ⟨entries, -, hpool⟩ := Except.bind_eq_ok_iff.mp hwrite
      obtain rfl := Except.ok.inj hpool
      refine ⟨Nat.not_lt.mp hfits, ?_⟩
      have hhead : (bigEndian 4 magic.toNat ++ u2 c.minor ++ u2 c.major).length = 8 := by
        simp only [u2, List.length_append, length_bigEndian]
      generalize bigEndian 4 magic.toNat ++ u2 c.minor ++ u2 c.major = head at hhead ⊢
      rw [List.append_assoc, List.append_assoc, List.drop_left' hhead,
        List.take_left' (length_bigEndian 2 r.count)]
  obtain ⟨hle, hbytes⟩ := hcount h
  obtain ⟨hle', hbytes'⟩ := hcount h'
  have heq := congrArg ofBigEndian (hbytes.symm.trans hbytes')
  rwa [ofBigEndian_of_lt (by omega), ofBigEndian_of_lt (by omega)] at heq

theorem exists_of_forall₂ {α β : Type} {R : α → β → Prop} {as : List α} {bs : List β}
    (h : List.Forall₂ R as bs) {b : β} (hb : b ∈ bs) : ∃ a ∈ as, R a b := by
  induction h with
  | nil => cases hb
  | @cons a b' as bs hab _ ih =>
    rcases List.mem_cons.mp hb with rfl | hb
    · exact ⟨a, List.mem_cons_self, hab⟩
    · obtain ⟨a', ha', hrel⟩ := ih hb
      exact ⟨a', List.mem_cons_of_mem _ ha', hrel⟩

/-- Classes that are alike and have the same pool have tables of the same sizes. -/
theorem Fits.of_alike {p p' : Pool} {c c' : ClassFile} (h : c.Fits) (ha : c.Alike c')
    (hpool : c'.pool = c.pool) (hc : ∀ m ∈ c.methods, m.Parsed p)
    (hc' : ∀ m ∈ c'.methods, m.Parsed p') : c'.Fits where
  interfaces := ha.interfaces ▸ h.interfaces
  fields := ha.fields ▸ h.fields
  fieldAttributes := ha.fields ▸ h.fieldAttributes
  methods := ha.methods.length_eq ▸ h.methods
  method := fun m' hm' => by
    obtain ⟨m, hm, halike⟩ := exists_of_forall₂ ha.methods hm'
    exact (h.method m hm).of_alike halike (hc m hm) (hc' m' hm')
  attributes := ha.attributes ▸ h.attributes
  codes := fun codes q hcodes => h.codes codes q (by
    rw [← hpool]
    exact ((methodCodes_eq_ok_iff.mp hcodes).of_alike ha.symm.methods hc' hc).methodCodes_eq [])

/-- A file that was written for a class with the pool it has is read as a class that is written
as the same bytes. -/
theorem parse_of_encode_self {c : ClassFile} {entries : Array Constant} {d : List UInt8}
    (hc : c.Parsed (ofEntries entries)) (hsound : (ofEntries entries).Sound) (hfits : c.Fits)
    (h : c.encode = .ok (d, c)) :
    ∃ c₁, parse d = .ok c₁ ∧ c.Alike c₁ ∧ c₁.pool = c.pool ∧ c₁.Fits ∧ c₁.encode = .ok (d, c₁) := by
  obtain ⟨q, ms, hself, -, -, -, hread, hmethods⟩ := parse_of_encode hc.faithful hsound hfits h
  have hq : ofEntries entries = q :=
    Option.some.inj (hc.pool.symm.trans (congrArg ClassFile.pool hself))
  subst hq
  obtain ⟨p₁, hc₁⟩ := parsed_of_parse hread
  have ha : c.Alike { c with pool := some (ofEntries entries), methods := ms } :=
    ⟨rfl, rfl, rfl, rfl, rfl, rfl, rfl, hmethods, rfl⟩
  obtain ⟨r, hemits, hr⟩ := (encode_iff_emits hc.pool).mp h
  obtain rfl : ofEntries entries = r :=
    Option.some.inj (hc.pool.symm.trans (congrArg ClassFile.pool hr))
  refine ⟨_, hread, ha, hc.pool.symm, hfits.of_alike ha hc.pool.symm hc.methods hc₁.methods,
    (encode_iff_emits rfl).mpr ⟨_, hemits.of_alike ha hc.methods hc₁.methods, rfl⟩⟩

/-! ### A class that is written as it is -/

/-- A pool with what the class below needs. -/
def spinningPool : Pool :=
  .ofEntries #[.unused, .utf8 "A", .single Tag.classRef 1, .utf8 "f", .utf8 "()V", .utf8 "Code",
    .float 0x3F800000]

/-- A method that loads a number and drops it, for ever. -/
def spin : Method where
  access := 9
  name := "f"
  desc := "()V"
  code := some (.ofInsns 1 [.place 0, ⟨.ldc, .constant (.float 0x3F800000)⟩, .plain .pop,
    .jump .goto 0])
  maxStack := 1

/-- A class with that method. -/
def spinning : ClassFile where
  pool := some spinningPool
  major := 50
  name := "A"
  methods := [spin]

/-- The code attribute of the method. -/
def spinData : List UInt8 := [0, 1, 0, 0, 0, 0, 0, 6, 0x12, 6, 0x57, 0xA7, 0xFF, 0xFD, 0, 0, 0, 0]

/-- The method in the file of its class. -/
def spinBytes : List UInt8 := [0, 9, 0, 3, 0, 4, 0, 1, 0, 5, 0, 0, 0, 18] ++ spinData

/-- The file of the class. -/
def spinningFile : List UInt8 :=
  [0xCA, 0xFE, 0xBA, 0xBE, 0, 0, 0, 50, 0, 7, 1, 0, 1, 0x41, 7, 0, 1, 1, 0, 1, 0x66,
    1, 0, 3, 0x28, 0x29, 0x56, 1, 0, 4, 0x43, 0x6F, 0x64, 0x65, 4, 0x3F, 0x80, 0, 0,
    0, 0, 0, 2, 0, 0, 0, 0, 0, 0, 0, 1] ++ spinBytes ++ [0, 0]

theorem regular_spinningPool : Regular (spinningPool.entries.toList.drop 1) :=
  .of_narrow (by decide)

theorem sound_spinningPool : spinningPool.Sound := sound_ofEntries rfl regular_spinningPool

theorem paired_spinningPool : spinningPool.Paired := paired_of_regular rfl regular_spinningPool

-- The index of a pool is a hash map, which does not compute here: what it finds follows from
-- soundness, and the rest of the encoding computes.
theorem add_spinningPool (c : Constant) (n : Nat) (hc : (c.tag = 0 || c.isNaN) = false)
    (hn : spinningPool.entries.toList.idxOf? c = some n) :
    spinningPool.add c = (n.toUInt16, spinningPool) :=
  sound_spinningPool.add_of_idxOf? hc hn

/-- The items of the method, with the offsets that they are written at. -/
def spinPlaced : List (Item × Nat) :=
  [(⟨.place 0, 0, false⟩, 0), (⟨⟨.ldc, .constant (.float 0x3F800000)⟩, 6, false⟩, 0),
    (⟨.plain .pop, 0, false⟩, 2), (⟨.jump .goto 0, 0, false⟩, 3)]

theorem draft_spin : Draft.Of spinningPool (spin.code.getD .empty)
    { items := spinPlaced.map Prod.fst, coded := spinningPool, layout := ⟨spinPlaced, 6, #[0]⟩
      code := [0x12, 6, 0x57, 0xA7, 0xFF, 0xFD], handlers := [0, 0], handled := spinningPool
      lines := [], lined := spinningPool, locals := [], last := spinningPool } where
  resolved := by rfl
  constants := by
    have hload : addConstant spinningPool ⟨.ldc, .constant (.float 0x3F800000)⟩ =
        .ok (6, spinningPool) :=
      congrArg Except.ok (add_spinningPool _ 6 (by decide +kernel) (by decide))
    refine @addConstants_of_held spinningPool (spinPlaced.map Prod.fst) [] (by decide) ?_
    simp only [spinPlaced, List.map_cons, List.map_nil, List.forall_mem_cons]
    exact ⟨rfl, hload, rfl, rfl, fun x hx => nomatch hx⟩
  settled := by rfl
  size_ne := by decide
  size_le := by decide
  bytes := by rfl
  handlersOf := by rfl
  linesOf := by rfl
  localsOf := by rfl

theorem methodCodes_spinning : methodCodes spinningPool [] spinning.methods =
    .ok ([[⟨Attribute.code, spinData⟩]], spinningPool) := by
  have hwrite : Code.write spinningPool spin (spin.code.getD .empty) =
      .ok (spinData, spinningPool) := write_eq_ok_iff.mpr ⟨_, draft_spin, rfl⟩
  have hcode : spin.code = some (spin.code.getD .empty) := rfl
  exact (Codes.code hcode hwrite (.nil _)).methodCodes_eq []

/-- The file of a class that has one method in place of that one, with no attributes but its code,
if the pool has all that it needs. -/
theorem encode_single {m : Method} {l : Listing} {data : List UInt8} (hcode : m.code = some l)
    (hname : m.name = spin.name) (hdesc : m.desc = spin.desc) (hattributes : m.attributes = [])
    (hwrite : Code.write spinningPool m l = .ok (data, spinningPool)) :
    ({ spinning with methods := [m] } : ClassFile).encode =
      .ok (spinningFile.take 51 ++ (u2 m.access ++ [0, 3, 0, 4, 0, 1, 0, 5] ++
        bigEndian 4 data.length ++ data) ++ [0, 0], { spinning with methods := [m] }) := by
  have hcodes : methodCodes spinningPool [] [m] = .ok ([[⟨Attribute.code, data⟩]], spinningPool) :=
    (Codes.code hcode hwrite (.nil _)).methodCodes_eq []
  have hclass : spinningPool.addClass spinning.name = (2, spinningPool) := by
    rw [addClass, addSingle, addText,
      add_spinningPool (.utf8 spinning.name) 1 (by decide) (by decide)]
    exact add_spinningPool (.single Tag.classRef 1) 2 (by decide) (by decide)
  have hn := add_spinningPool (.utf8 spin.name) 3 (by decide) (by decide)
  have hd := add_spinningPool (.utf8 spin.desc) 4 (by decide) (by decide)
  have hc := add_spinningPool (.utf8 Attribute.code) 5 (by decide) (by decide)
  have hwritten : writeAttributes spinningPool [⟨Attribute.code, data⟩] =
      ([0, 1] ++ ([0, 5] ++ bigEndian 4 data.length ++ data), spinningPool) := by
    rw [writeAttributes, attributeBytes, addText, hc]
    simp [attributeBytes]
    rfl
  have hall : [⟨Attribute.code, data⟩] ++ m.attributes = [⟨Attribute.code, data⟩] := by
    rw [hattributes, List.append_nil]
  have hbytes : methodBytes spinningPool [] [(m, [⟨Attribute.code, data⟩])] =
      (u2 m.access ++ [0, 3] ++ [0, 4] ++ ([0, 1] ++ ([0, 5] ++ bigEndian 4 data.length ++ data)),
        spinningPool) := by
    simp only [methodBytes, memberBytes, addText, hname, hdesc, hn, hd, hall, hwritten,
      List.reverse_cons, List.reverse_nil, List.nil_append, List.flatten_cons, List.flatten_nil,
      List.append_nil]
    rfl
  have hframed : ({ spinning with methods := [m] } : ClassFile).framed
      [[⟨Attribute.code, data⟩]] spinningPool =
      ([0, 0, 0, 2, 0, 0, 0, 0, 0, 0, 0, 1] ++ (u2 m.access ++ [0, 3] ++ [0, 4] ++
        ([0, 1] ++ ([0, 5] ++ bigEndian 4 data.length ++ data))) ++ [0, 0], spinningPool) := by
    rw [framed, hclass]
    -- what is in front of the method does not depend on it
    change (u2 0 ++ u2 2 ++ u2 0 ++ bigEndian 2 0 ++ [] ++ bigEndian 2 0 ++ [] ++ bigEndian 2 1 ++
      (methodBytes spinningPool [] [(m, [⟨Attribute.code, data⟩])]).1 ++
      (writeAttributes (methodBytes spinningPool [] [(m, [⟨Attribute.code, data⟩])]).2 []).1,
      (writeAttributes (methodBytes spinningPool [] [(m, [⟨Attribute.code, data⟩])]).2
        []).2) = _
    rw [hbytes]
    rfl
  have hpool : spinningPool.write = .ok ((spinningFile.drop 8).take 31) := by rfl
  have hfront : bigEndian 4 magic.toNat ++ u2 0 ++ u2 50 ++ (spinningFile.drop 8).take 31 ++
      [0, 0, 0, 2, 0, 0, 0, 0, 0, 0, 0, 1] = spinningFile.take 51 := by rfl
  refine encode_eq_ok_iff.mpr ⟨_, _, (spinningFile.drop 8).take 31, hcodes, ?_, ?_⟩
  all_goals rw [hframed]
  · exact hpool
  · refine Prod.ext ?_ rfl
    change _ = bigEndian 4 magic.toNat ++ u2 0 ++ u2 50 ++ _ ++ _
    rw [← hfront]
    simp only [List.append_assoc]
    rfl

theorem encode_spinning : spinning.encode = .ok (spinningFile, spinning) := by
  have hwrite : Code.write spinningPool spin (spin.code.getD .empty) =
      .ok (spinData, spinningPool) := write_eq_ok_iff.mpr ⟨_, draft_spin, rfl⟩
  have hself : ({ spinning with methods := [spin] } : ClassFile) = spinning := rfl
  have hfile : spinningFile.take 51 ++ (u2 spin.access ++ [0, 3, 0, 4, 0, 1, 0, 5] ++
      bigEndian 4 spinData.length ++ spinData) ++ [0, 0] = spinningFile := by rfl
  have hsingle := @encode_single spin _ spinData rfl rfl rfl rfl hwrite
  rwa [hfile, hself] at hsingle

theorem parsed_spin : spin.Parsed spinningPool := by
  have hcode : ∀ {l : Listing}, spin.code = some l → l.Built ∧ l.insns = [.place 0,
      ⟨.ldc, .constant (.float 0x3F800000)⟩, .plain .pop, .jump .goto 0] := by
    rintro l hl
    obtain rfl := Option.some.inj hl
    exact ⟨.ofInsns _ _, rfl⟩
  have hall : ∀ {P : Insn → Prop}, P (.place 0) → P ⟨.ldc, .constant (.float 0x3F800000)⟩ →
      P (.plain .pop) → P (.jump .goto 0) → ∀ {l : Listing}, spin.code = some l →
      ∀ i ∈ l.insns, P i := by
    intro P h₀ h₁ h₂ h₃ l hl
    rw [(hcode hl).2]
    simp only [List.forall_mem_cons]
    exact ⟨h₀, h₁, h₂, h₃, fun i hi => nomatch hi⟩
  have hplaced : ∀ {l : Listing}, spin.code = some l → l.insns.filterMap Insn.placed? = [0] := by
    intro l hl
    rw [(hcode hl).2]
    rfl
  refine ⟨⟨fun l hl => ⟨(hcode hl).1.wellFormed, ?_, ?_⟩, nofun, nofun, nofun⟩,
    fun l hl => ⟨?_, ?_, ?_, ?_, ?_⟩⟩
  · exact hall (P := Insn.Encodable spinningPool) rfl ⟨rfl, fun n hn => nomatch hn⟩
      (.inl (by decide)) rfl hl
  · exact hall trivial trivial trivial trivial hl
  · rw [hplaced hl]
    decide
  · rw [hplaced hl]
    decide
  · rw [hplaced hl]
    refine hall ?_ ?_ ?_ ?_ hl
    all_goals decide
  · refine hall ?_ ?_ ?_ ?_ hl
    all_goals exact fun _ => rfl
  · rw [(hcode hl).2]
    exact .nil

theorem parsed_spinning : spinning.Parsed spinningPool :=
  ⟨rfl, fun _ => sound_spinningPool, rfl, nofun, List.forall_mem_singleton.mpr parsed_spin, nofun⟩

theorem linked_spinning : ∀ m ∈ spinning.methods, m.Linked spinningPool := by
  intro m hm l hl i hi n hn
  obtain rfl := List.mem_singleton.mp hm
  obtain rfl := Option.some.inj hl
  have hnone : ∀ i ∈ (spin.code.getD .empty).insns, ∀ n, i.operand ≠ .constant (.pooled n) := by
    change ∀ i ∈ [_, _, _, _], _
    simp only [List.forall_mem_cons]
    exact ⟨nofun, nofun, nofun, nofun, nofun⟩
  exact absurd hn (hnone i hi n)

theorem fits_spinning : spinning.Fits := by
  refine ⟨by decide, by decide, by decide, by decide, ?_, by decide, ?_⟩
  · intro m hm
    obtain rfl := List.mem_singleton.mp hm
    refine ⟨fun l hl => ?_, by decide⟩
    obtain rfl := Option.some.inj hl
    exact ⟨⟨by decide, by decide, by decide⟩, by decide⟩
  · intro codes q hcodes
    obtain ⟨rfl, -⟩ := Prod.mk.inj (Except.ok.inj (methodCodes_spinning.symm.trans hcodes))
    exact List.forall_mem_singleton.mpr (List.forall_mem_singleton.mpr
      (Nat.lt_of_sub_pos (by decide)))

/-- The file of the class is read as it, and written as itself. -/
theorem parse_spinning : ∃ c, parse spinningFile = .ok c ∧ spinning.Alike c ∧
    c.pool = some spinningPool ∧ c.Fits ∧ c.encode = .ok (spinningFile, c) :=
  parse_of_encode_self parsed_spinning sound_spinningPool fits_spinning encode_spinning

/-! ### Writing twice -/

/-- A class that is read, written and read again is written as the same bytes if and only if its
code loads nothing that is not a number. -/
theorem encode_encode_iff {data d : List UInt8} {c c' : ClassFile} (hparse : parse data = .ok c)
    (hpool : ∀ p, c.pool = some p → p.Paired ∧ ∀ m ∈ c.methods, m.Linked p) (hfits : c.Fits)
    (hencode : c.encode = .ok (d, c')) :
    ∃ c₁, parse d = .ok c₁ ∧ ((∃ c₂, c₁.encode = .ok (d, c₂)) ↔ c.Numeric) := by
  obtain ⟨p, hc⟩ := parsed_of_parse hparse
  obtain ⟨hpaired, hlinked⟩ := hpool p hc.pool
  have hp := hc.sound hpaired
  obtain ⟨q, ms, hc', hq, hqfits, hwithin, hread, hmethods⟩ :=
    parse_of_encode hc.faithful hp hfits hencode
  refine ⟨_, hread, ?_⟩
  obtain ⟨r, hemits, hr⟩ := (encode_iff_emits hc.pool).mp hencode
  obtain rfl : r = q := Option.some.inj (congrArg ClassFile.pool (hr.symm.trans hc'))
  obtain ⟨p₁, hc₁⟩ := parsed_of_parse hread
  have halike : c.Alike { c with pool := some (ofEntries r.entries), methods := ms } :=
    ⟨rfl, rfl, rfl, rfl, rfl, rfl, rfl, hmethods, rfl⟩
  rw [exists_congr fun c₂ => @encode_iff_emits _ _ rfl d c₂]
  constructor
  · rintro ⟨c₂, r₂, hemits₂, -⟩
    by_contra hnum
    have hback := hemits₂.of_alike halike.symm hc₁.methods hc.methods
    have hsound : (ofEntries r.entries).Sound := ⟨hq.regular, getElem?_indexOf r.entries⟩
    have hlt := hback.grows hsound
      (fun m hm => ((hc.methods m hm).faithful.mono hwithin)) hnum
    exact Nat.lt_irrefl _ (Nat.lt_of_lt_of_eq hlt (hemits.count_eq hback).symm)
  · intro hnum
    have hagain := hemits.again hp hc.faithful.methods hnum hlinked hqfits
    exact ⟨_, _, hagain.of_alike halike hc.methods hc₁.methods, rfl⟩

theorem encode_encode_spinning : ∃ c, parse spinningFile = .ok c ∧
    c.encode = .ok (spinningFile, c) ∧ ∃ c₁, parse spinningFile = .ok c₁ ∧
      ((∃ c₂, c₁.encode = .ok (spinningFile, c₂)) ↔ c.Numeric) := by
  obtain ⟨c, hparse, halike, hpool, hfits, hencode⟩ := parse_spinning
  refine ⟨c, hparse, hencode, encode_encode_iff hparse (fun p hp => ?_) hfits hencode⟩
  obtain rfl : spinningPool = p := Option.some.inj (hpool.symm.trans hp)
  refine ⟨paired_spinningPool, fun m' hm' => ?_⟩
  obtain ⟨q, hc⟩ := parsed_of_parse hparse
  obtain ⟨m, hm, hlike⟩ := exists_of_forall₂ halike.methods hm'
  exact (linked_spinning m hm).of_alike hlike (hc.methods m' hm').faithful

end ClassFile

end ClassWeaver
