import ClassWeaver.ClassFile.Codec
import ClassWeaver.Proofs.Codec.Code

/-!
# Class files

A class is written in two goes: first the code attributes of all methods, then everything in the
order of the file. Whatever is written is read back with the pool that was left in the end, since
that is around every pool on the way. What comes back is the class up to the forms of its
instructions (`ClassFile.Alike`).
-/

namespace ClassWeaver

open Pool Code

/-! ### Classes that are alike -/

/-- The same method, but for what the outlines of listings leave open. -/
structure Method.Alike (m m' : Method) : Prop where
  access : m'.access = m.access
  name : m'.name = m.name
  desc : m'.desc = m.desc
  code : m'.code.map Listing.outline = m.code.map Listing.outline
  maxStack : m'.maxStack = m.maxStack
  maxLocals : m'.maxLocals = m.maxLocals
  codeAttributes : m'.codeAttributes = m.codeAttributes
  attributes : m'.attributes = m.attributes

/-- The same class, but for its pool and for what the outlines of listings leave open. -/
structure ClassFile.Alike (c c' : ClassFile) : Prop where
  major : c'.major = c.major
  minor : c'.minor = c.minor
  access : c'.access = c.access
  name : c'.name = c.name
  super : c'.super = c.super
  interfaces : c'.interfaces = c.interfaces
  fields : c'.fields = c.fields
  methods : List.Forall₂ Method.Alike c.methods c'.methods
  attributes : c'.attributes = c.attributes

/-! ### Classes that can be written -/

/-- The length of the attribute can be written. -/
def Attribute.Short (a : Attribute) : Prop := a.data.length < 2 ^ 32

/-- A method that is written as what it is: its attributes do not look like others that are
interpreted, and a method without code has nothing that belongs to code. -/
structure Method.Faithful (p : Pool) (m : Method) : Prop where
  code : ∀ l, m.code = some l → l.Faithful p
  others : ∀ a ∈ m.codeAttributes, Uninterpreted a
  bare : m.code = none → m.maxStack = 0 ∧ m.maxLocals = 0 ∧ m.codeAttributes = []
  plain : ∀ a ∈ m.attributes, a.name ≠ Attribute.code ∧ a.Short

theorem Method.Faithful.mono {p q : Pool} {m : Method} (h : m.Faithful p) (hpq : p.Within q) :
    m.Faithful q where
  code := fun l hl => ⟨(h.code l hl).wellFormed,
    fun i hi => ((h.code l hl).encodable i hi).mono hpq, (h.code l hl).spans⟩
  others := h.others
  bare := h.bare
  plain := h.plain

/-- The attributes that the line and local variable entries of a listing make. -/
def Listing.tableCount (l : Listing) : Nat :=
  (if (entriesUnder .lineNumber l.insns).isEmpty then 0 else 1) +
    if (entriesUnder .localVariable l.insns).isEmpty then 0 else 1

/-- The tables of a method have no more entries than can be counted. -/
structure Method.Fits (m : Method) : Prop where
  tables : ∀ l, m.code = some l → l.TablesFit ∧ l.tableCount + m.codeAttributes.length ≤ 65535
  attributes : m.code.toList.length + m.attributes.length ≤ 65535

/-- The tables of a class have no more entries than can be counted, and the code attributes that
are written for it have no more bytes. -/
structure ClassFile.Fits (c : ClassFile) : Prop where
  interfaces : c.interfaces.length ≤ 65535
  fields : c.fields.length ≤ 65535
  fieldAttributes : ∀ f ∈ c.fields, f.attributes.length ≤ 65535
  methods : c.methods.length ≤ 65535
  method : ∀ m ∈ c.methods, m.Fits
  attributes : c.attributes.length ≤ 65535
  codes : ∀ codes q, ClassFile.methodCodes (c.pool.getD .empty) [] c.methods = .ok (codes, q) →
    ∀ as ∈ codes, ∀ a ∈ as, a.Short

/-- A class with a pool that is written as what it is, and can be read again. -/
structure ClassFile.Faithful (p : Pool) (c : ClassFile) : Prop where
  pool : c.pool = some p
  version : ClassFile.isKnownVersion c.major = true
  fields : ∀ f ∈ c.fields, ∀ a ∈ f.attributes, a.Short
  methods : ∀ m ∈ c.methods, m.Faithful p
  attributes : ∀ a ∈ c.attributes, a.Short

namespace ClassFile

variable {p : Pool}

/-! ### Code attributes of methods -/

/-- A method as it is read before its attributes. -/
def blank (m : Method) : Method := { access := m.access, name := m.name, desc := m.desc }

/-- Reading the attributes that were written for the code of a method gives back its code. -/
structure Recovers (q : Pool) (m : Method) (as : List Attribute) (code : Option Listing) :
    Prop where
  outline : code.map Listing.outline = m.code.map Listing.outline
  read : as.foldlM (addAttribute q) (blank m) = .ok { m with code, attributes := [] }

/-- The number of attributes of a draft. -/
theorem length_attributes {d : Draft} {l : Listing} {m : Method} (hd : d.Of p l) :
    (d.attributes m).length = l.tableCount + m.codeAttributes.length := by
  have hcount : ∀ {name : Text} {entry : Pool → Operand → Outcome (List UInt8 × Pool)} {p : Pool}
      {entries : List Insn} {out : List Attribute × Pool},
      tableAttribute name entry p entries = .ok out →
      out.1.length = if entries.isEmpty then 0 else 1 := by
    intro name entry p entries out h
    rcases tableAttribute_eq_ok h with ⟨rfl, rfl⟩ | ⟨data, hdata, hout⟩
    · rfl
    · unfold tableAttribute at h
      split at h
      · next hempty =>
        rw [← Except.ok.inj h] at hout
        cases hout
      · next hempty => rw [hout, if_neg hempty, List.length_singleton]
  rw [Draft.attributes, List.length_append, List.length_append, hcount hd.linesOf,
    hcount hd.localsOf, Listing.tableCount]

/-- The code attributes of methods, written one after the other: those of `ms` are `codes`, and
writing them takes the pool `p` to `q`. -/
inductive Codes : Pool → List Method → List (List Attribute) → Pool → Prop
  | nil (p : Pool) : Codes p [] [] p
  | bare {p q : Pool} {m : Method} {ms : List Method} {codes : List (List Attribute)}
      (hcode : m.code = none) (h : Codes p ms codes q) : Codes p (m :: ms) ([] :: codes) q
  | code {p p₁ q : Pool} {m : Method} {l : Listing} {data : List UInt8} {ms : List Method}
      {codes : List (List Attribute)} (hcode : m.code = some l)
      (hwrite : write p m l = .ok (data, p₁)) (h : Codes p₁ ms codes q) :
      Codes p (m :: ms) ([⟨Attribute.code, data⟩] :: codes) q

theorem methodCodes_bare {m : Method} (hcode : m.code = none) (seen : List (List Attribute))
    (ms : List Method) : methodCodes p seen (m :: ms) = methodCodes p ([] :: seen) ms := by
  rw [methodCodes, hcode]

theorem methodCodes_code {m : Method} {l : Listing} (hcode : m.code = some l)
    (seen : List (List Attribute)) (ms : List Method) :
    methodCodes p seen (m :: ms) = (write p m l).under ("method " ++ m.key) >>= fun out =>
      methodCodes out.2 ([⟨Attribute.code, out.1⟩] :: seen) ms := by
  rw [methodCodes, hcode]

theorem Codes.methodCodes_eq {ms : List Method} {codes : List (List Attribute)} {q : Pool}
    (h : Codes p ms codes q) (seen : List (List Attribute)) :
    methodCodes p seen ms = .ok (seen.reverse ++ codes, q) := by
  induction h generalizing seen with
  | nil p => rw [methodCodes, List.append_nil]
  | bare hcode _ ih => rw [methodCodes_bare hcode, ih, List.reverse_cons, List.append_assoc]; rfl
  | code hcode hwrite _ ih =>
    rw [methodCodes_code hcode, hwrite]
    refine (ih _).trans ?_
    rw [List.reverse_cons, List.append_assoc]
    rfl

theorem codes_of_methodCodes {ms : List Method} {seen : List (List Attribute)}
    {out : List (List Attribute) × Pool} (h : methodCodes p seen ms = .ok out) :
    ∃ codes, out.1 = seen.reverse ++ codes ∧ Codes p ms codes out.2 := by
  induction ms generalizing p seen with
  | nil =>
    obtain rfl := Except.ok.inj h
    exact ⟨[], (List.append_nil _).symm, .nil p⟩
  | cons m ms ih =>
    cases hcode : m.code with
    | none =>
      rw [methodCodes_bare hcode] at h
      obtain ⟨codes, hout, hcodes⟩ := ih h
      exact ⟨[] :: codes, by rw [hout]; simp, .bare hcode hcodes⟩
    | some l =>
      rw [methodCodes_code hcode] at h
      obtain ⟨⟨data, p₁⟩, hwrite, h⟩ := Except.bind_eq_ok_iff.mp h
      obtain ⟨codes, hout, hcodes⟩ := ih h
      exact ⟨_ :: codes, by rw [hout]; simp, .code hcode (under_eq_ok.mp hwrite) hcodes⟩

/-- What the writer returns for the methods of a class, without its accumulator. -/
theorem methodCodes_eq_ok_iff {ms : List Method} {codes : List (List Attribute)} {q : Pool} :
    methodCodes p [] ms = .ok (codes, q) ↔ Codes p ms codes q := by
  refine ⟨fun h => ?_, fun h => h.methodCodes_eq []⟩
  obtain ⟨codes', rfl, h⟩ := codes_of_methodCodes h
  exact h

/-- What is written for the code of a method is read back. -/
theorem adds_code (hp : p.Sound) {m : Method} (hm : m.Faithful p) (hfits : m.Fits) {l : Listing}
    (hcode : m.code = some l) {out : List UInt8 × Pool} (h : write p m l = .ok out)
    (hsmall : out.1.length < 2 ^ 32) :
    Adds p out fun q bs => ∃ code, Recovers q m [⟨Attribute.code, bs⟩] code := by
  obtain ⟨d, hd, rfl⟩ := write_eq_ok_iff.mp h
  obtain ⟨hfit, hcount⟩ := hfits.tables l hcode
  obtain ⟨l', -, houtline, hadds⟩ := hd.reads_out hp (hm.code l hcode) hfit hm.others
    (by rw [length_attributes hd]; exact hcount) hsmall
  refine ⟨hadds.sound, hadds.within, fun q hq hfits => ⟨some l', ?_, ?_⟩⟩
  · rw [hcode, Option.map_some, Option.map_some, houtline]
  · have hread := (hadds.found q hq hfits (blank m) 0).run
    rw [List.foldlM_cons, addAttribute]
    dsimp only
    rw [if_pos rfl, hread]
    rfl

theorem recovers_bare {q : Pool} {m : Method} (hm : m.Faithful p) (hcode : m.code = none) :
    Recovers q m [] none := by
  -- a method without code is blank but for its name, type and access
  obtain ⟨hstack, hlocals, hothers⟩ := hm.bare hcode
  obtain ⟨access, name, desc, code, maxStack, maxLocals, codeAttributes, attributes⟩ := m
  dsimp only at hcode hstack hlocals hothers
  subst hcode hstack hlocals hothers
  exact ⟨rfl, rfl⟩

/-- The code of all methods is read back with every pool around the one that writing it left. -/
theorem Codes.adds {ms : List Method} {codes : List (List Attribute)} {q : Pool}
    (h : Codes p ms codes q) (hp : p.Sound) (hms : ∀ m ∈ ms, m.Faithful p)
    (hfits : ∀ m ∈ ms, m.Fits) (hshort : ∀ as ∈ codes, ∀ a ∈ as, a.Short) :
    Adds p (codes, q) fun q codes =>
      List.Forall₂ (fun m as => ∃ code, Recovers q m as code) ms codes := by
  induction h with
  | nil p => exact ⟨hp, .refl p, fun q _ _ => .nil⟩
  | bare hcode _ ih =>
    rw [List.forall_mem_cons] at hms hfits hshort
    have hrest := ih hp hms.2 hfits.2 hshort.2
    exact ⟨hrest.sound, hrest.within, fun q hq hfits =>
      .cons ⟨none, recovers_bare hms.1 hcode⟩ (hrest.found q hq hfits)⟩
  | code hcode hwrite _ ih =>
    rw [List.forall_mem_cons] at hms hfits hshort
    have hdata := hshort.1 _ (List.mem_singleton.mpr rfl)
    have hfirst := adds_code hp hms.1 hfits.1 hcode hwrite hdata
    -- the pool of the methods behind is around that of this one
    have hboth := hfirst.andThen (ih hfirst.sound (fun k hk => (hms.2 k hk).mono hfirst.within)
      hfits.2 hshort.2)
    refine ⟨hboth.sound, hboth.within, fun q hq hfits => ?_⟩
    exact .cons (hboth.found q hq hfits).1 (hboth.found q hq hfits).2

/-! ### Members -/

/-- A field or method as it is read: what it is, then its attributes. -/
structure ReadsMember (q : Pool) (access : UInt16) (name desc : Text) (attributes : List Attribute)
    (bs : List UInt8) : Prop where
  parts : ∃ head tail, bs = head ++ tail ∧
    (∀ pos, Reads (readMember q) pos head (access, name, desc)) ∧
    ∀ pos, Reads (readAttributes q) pos tail attributes

theorem adds_member (hp : p.Sound) (access : UInt16) (name desc : Text)
    {attributes : List Attribute} (hcount : attributes.length ≤ 65535)
    (hshort : ∀ a ∈ attributes, a.Short) :
    Adds p (memberBytes p access name desc attributes) fun q bs =>
      ReadsMember q access name desc attributes bs := by
  have hname := adds_addText hp name
  have hdesc := adds_addText hname.sound desc
  have hattributes := writes_attributes hdesc.sound (Nat.lt_succ_of_le hcount) hshort
  have hall := hname.andThen (hdesc.andThen hattributes)
  refine ⟨hall.sound, hall.within, fun q hq hfits => ⟨?_⟩⟩
  obtain ⟨hn, hd, ha⟩ := hall.found q hq hfits
  refine ⟨_, _, rfl, fun pos => ?_, ha⟩
  rw [List.append_assoc]
  exact (Reads.word access).bind ((Reads.word _).bind ((Reads.word _).last
    ((Reads.lift hn).last ((Reads.lift hd).map _))))

theorem ReadsMember.field {q : Pool} {f : Field} {bs : List UInt8}
    (h : ReadsMember q f.access f.name f.desc f.attributes bs) (n pos : Nat) :
    Reads (readField q n) pos bs f := by
  obtain ⟨head, tail, rfl, hhead, htail⟩ := h.parts
  exact ((hhead pos).under _).bind (((htail _).under _).map _)

theorem ReadsMember.method {q : Pool} {m : Method} {as : List Attribute} {bs : List UInt8}
    {code : Option Listing} (h : ReadsMember q m.access m.name m.desc (as ++ m.attributes) bs)
    (hcode : Recovers q m as code) (hplain : ∀ a ∈ m.attributes, a.name ≠ Attribute.code ∧ a.Short)
    (n pos : Nat) : Reads (readMethod q n) pos bs { m with code } := by
  obtain ⟨head, tail, rfl, hhead, htail⟩ := h.parts
  have hothers : ∀ (as : List Attribute) (k : Method), (∀ a ∈ as, a.name ≠ Attribute.code) →
      as.foldlM (addAttribute q) k = .ok { k with attributes := k.attributes ++ as } := by
    intro as
    induction as with
    | nil =>
      intro k _
      rw [List.append_nil]
      rfl
    | cons a as ih =>
      intro k has
      rw [List.foldlM_cons, addAttribute, if_neg (has a List.mem_cons_self)]
      refine (ih { k with attributes := k.attributes ++ [a] }
        fun b hb => has b (List.mem_cons_of_mem _ hb)).trans ?_
      rw [List.append_assoc, List.singleton_append]
  have hfold : (as ++ m.attributes).foldlM (addAttribute q) (blank m) = .ok { m with code } := by
    rw [List.foldlM_append, hcode.read]
    exact hothers m.attributes _ fun a ha => (hplain a ha).1
  exact ((hhead pos).under _).bind (((htail _).last (Reads.lift hfold)).under _)

/-! ### Tables of a class -/

theorem classIndices_eq (p : Pool) (seen : List (List UInt8)) (names : List Text) :
    writeAll (fun p name => .ok (u2 (p.addClass name).1, (p.addClass name).2)) p seen names =
      .ok (classIndices p seen names) := by
  induction names generalizing p seen with
  | nil => rfl
  | cons name rest ih => exact ih (p.addClass name).2 (u2 (p.addClass name).1 :: seen)

theorem fieldBytes_eq (p : Pool) (seen : List (List UInt8)) (fields : List Field) :
    writeAll (fun p f => .ok (memberBytes p f.access f.name f.desc f.attributes)) p seen fields =
      .ok (fieldBytes p seen fields) := by
  induction fields generalizing p seen with
  | nil => rfl
  | cons f rest ih =>
    exact ih (memberBytes p f.access f.name f.desc f.attributes).2
      ((memberBytes p f.access f.name f.desc f.attributes).1 :: seen)

theorem methodBytes_eq (p : Pool) (seen : List (List UInt8))
    (methods : List (Method × List Attribute)) :
    writeAll (fun p (k : Method × List Attribute) =>
      .ok (memberBytes p k.1.access k.1.name k.1.desc (k.2 ++ k.1.attributes))) p seen methods =
      .ok (methodBytes p seen methods) := by
  induction methods generalizing p seen with
  | nil => rfl
  | cons k rest ih =>
    exact ih (memberBytes p k.1.access k.1.name k.1.desc (k.2 ++ k.1.attributes)).2
      ((memberBytes p k.1.access k.1.name k.1.desc (k.2 ++ k.1.attributes)).1 :: seen)

/-! ### The body of a class file -/

/-- What is written behind the pool once the code of the methods is. -/
def framed (c : ClassFile) (codes : List (List Attribute)) (p : Pool) : List UInt8 × Pool :=
  let this := p.addClass c.name
  let super := addNamed this.2 c.super
  let interfaces := classIndices super.2 [] c.interfaces
  let fields := fieldBytes interfaces.2 [] c.fields
  let methods := methodBytes fields.2 [] (c.methods.zip codes)
  let attributes := writeAttributes methods.2 c.attributes
  (u2 c.access ++ u2 this.1 ++ u2 super.1 ++ bigEndian 2 c.interfaces.length ++ interfaces.1
    ++ bigEndian 2 c.fields.length ++ fields.1 ++ bigEndian 2 c.methods.length ++ methods.1
    ++ attributes.1, attributes.2)

theorem bodyBytes_eq (c : ClassFile) (p : Pool) :
    c.bodyBytes p = (do
      let out ← methodCodes p [] c.methods
      return c.framed out.1 out.2) := rfl

/-- A method as it is read back: the code comes from what was written for it. -/
def Returns (q : Pool) (k : Method × List Attribute) (m' : Method) : Prop :=
  ∃ code, Recovers q k.1 k.2 code ∧ m' = { k.1 with code }

theorem exists_returns {q : Pool} {ks : List (Method × List Attribute)}
    {bss : List (List UInt8)}
    (hread : List.Forall₂ (fun k bs =>
      ReadsMember q k.1.access k.1.name k.1.desc (k.2 ++ k.1.attributes) bs) ks bss)
    (hks : ∀ k ∈ ks, (∃ code, Recovers q k.1 k.2 code) ∧
      ∀ a ∈ k.1.attributes, a.name ≠ Attribute.code ∧ a.Short) :
    ∃ ms, List.Forall₂ (Returns q) ks ms ∧
      List.Forall₂ (fun bs m => ∀ n pos, Reads (readMethod q n) pos bs m) bss ms := by
  induction hread with
  | nil => exact ⟨[], .nil, .nil⟩
  | @cons k bs ks bss hk _ ih =>
    obtain ⟨ms, hms, hreads⟩ := ih fun k hk => hks k (List.mem_cons_of_mem _ hk)
    obtain ⟨⟨code, hrecovers⟩, hplain⟩ := hks k List.mem_cons_self
    exact ⟨{ k.1 with code } :: ms, .cons ⟨code, hrecovers, rfl⟩ hms,
      .cons (hk.method hrecovers hplain) hreads⟩

theorem writes_interfaces (hp : p.Sound) (names : List Text) :
    Writes p (classIndices p [] names) (fun q => Read.repeated (fun n => do
      readClassName q ("interface " ++ Text.ofNat n) (← Read.u2)) names.length) names := by
  have h := @writes_writeAll _ _ _ p names _
    (fun q n => do readClassName q ("interface " ++ Text.ofNat n) (← Read.u2)) id hp
    (fun p name out hp _ h => by
      obtain rfl := Except.ok.inj h
      have hname := adds_addClass hp name
      exact ⟨hname.sound, hname.within, fun q hq hfits n pos =>
        (Reads.word _).last ((Reads.lift (hname.found q hq hfits)).under _)⟩)
    (classIndices_eq p [] names)
  rwa [List.map_id] at h

theorem writes_fields (hp : p.Sound) {fields : List Field}
    (hfields : ∀ f ∈ fields, f.attributes.length ≤ 65535 ∧ ∀ a ∈ f.attributes, a.Short) :
    Writes p (fieldBytes p [] fields) (fun q => Read.repeated (readField q) fields.length)
      fields := by
  have h := @writes_writeAll _ _ _ p fields _ readField id hp
    (fun p f out hp hf h => by
      obtain rfl := Except.ok.inj h
      exact (adds_member hp f.access f.name f.desc (hfields f hf).1 (hfields f hf).2).imp
        fun q bs hread n pos => hread.field n pos)
    (fieldBytes_eq p [] fields)
  rwa [List.map_id] at h

theorem adds_methods (hp : p.Sound) {ks : List (Method × List Attribute)}
    (hks : ∀ k ∈ ks, (k.2 ++ k.1.attributes).length ≤ 65535 ∧
      ∀ a ∈ k.2 ++ k.1.attributes, a.Short) :
    ∃ bss : List (List UInt8), (methodBytes p [] ks).1 = bss.flatten ∧
      Adds p (bss, (methodBytes p [] ks).2) fun q bss => List.Forall₂ (fun k bs =>
        ReadsMember q k.1.access k.1.name k.1.desc (k.2 ++ k.1.attributes) bs) ks bss := by
  refine adds_writeAll hp (fun p k out hp hk h => ?_) (methodBytes_eq p [] ks)
  obtain rfl := Except.ok.inj h
  exact adds_member hp k.1.access k.1.name k.1.desc (hks k hk).1 (hks k hk).2

/-- What is written behind the pool is read back. -/
theorem adds_framed {p₀ : Pool} {c : ClassFile} {codes : List (List Attribute)} (hp : p.Sound)
    (hc : c.Faithful p₀) (hfits : c.Fits)
    (hcodes : ∀ k ∈ c.methods.zip codes, (k.2 ++ k.1.attributes).length ≤ 65535 ∧
      ∀ a ∈ k.2, a.Short)
    (hlen : codes.length = c.methods.length) :
    Adds p (c.framed codes p) fun q bs =>
      (∀ k ∈ c.methods.zip codes, ∃ code, Recovers q k.1 k.2 code) →
      ∃ ms, List.Forall₂ (Returns q) (c.methods.zip codes) ms ∧ ∀ minor major pos,
        Reads (readBody q minor major) pos bs
          { c with pool := some q, minor, major, methods := ms } := by
  have hplain : ∀ k ∈ c.methods.zip codes, ∀ a ∈ k.1.attributes,
      a.name ≠ Attribute.code ∧ a.Short := fun k hk =>
    (hc.methods _ (List.of_mem_zip hk).1).plain
  have hthis := adds_addClass hp c.name
  have hsuper := adds_addNamed hthis.sound c.super
  have hinterfaces := writes_interfaces hsuper.sound c.interfaces
  have hfields := writes_fields hinterfaces.sound fun f hf =>
    ⟨hfits.fieldAttributes f hf, hc.fields f hf⟩
  obtain ⟨bss, hbss, hmethod⟩ := adds_methods hfields.sound fun k hk => ⟨(hcodes k hk).1,
    List.forall_mem_append.mpr ⟨(hcodes k hk).2, fun a ha => (hplain k hk a ha).2⟩⟩
  have hattributes := writes_attributes hmethod.sound (Nat.lt_succ_of_le hfits.attributes)
    hc.attributes
  -- the pools grow in the order of the file, so what holds with the last one holds throughout
  have hall := hthis.andThen (hsuper.andThen (hinterfaces.andThen (hfields.andThen
    (hmethod.andThen hattributes))))
  refine ⟨hall.sound, hall.within, fun q hq hfit hrecovers => ?_⟩
  obtain ⟨hname, hsup, hinterface, hfield, hmember, hattribute⟩ := hall.found q hq hfit
  obtain ⟨ms, hreturns, hread⟩ := exists_returns hmember fun k hk =>
    ⟨hrecovers k hk, hplain k hk⟩
  refine ⟨ms, hreturns, fun minor major pos => ?_⟩
  have hmethodsRead : ∀ pos, Reads (Read.repeated (readMethod q) c.methods.length) pos
      bss.flatten ms := by
    intro pos
    have hzip := hreturns.length_eq
    rw [List.length_zip, hlen, Nat.min_self] at hzip
    rw [hzip]
    exact Reads.repeated hread
  -- the index of a missing superclass is zero, and no name is looked up for it
  have hsuperRead : ∀ pos, Reads (if (addNamed (p.addClass c.name).2 c.super).1 = 0 then pure []
      else readClassName q "super_class" (addNamed (p.addClass c.name).2 c.super).1) pos []
      c.super := by
    intro pos
    rcases hsup with ⟨hzero, hnil⟩ | ⟨hne, hsup⟩
    · rw [if_pos hzero, hnil]
      exact .pure _
    · rw [if_neg hne]
      exact (Reads.lift hsup).under _
  simp only [framed, List.append_assoc, hbss]
  refine (Reads.word c.access).bind ((Reads.word _).bind (((Reads.lift hname).under _).first
    ((Reads.word _).bind ((hsuperRead _).first_ite ((Reads.u2 (Nat.lt_succ_of_le
      hfits.interfaces)).bind ?_)))))
  rw [toNat_toUInt16 (Nat.lt_succ_of_le hfits.interfaces)]
  refine (hinterface _).bind ((Reads.u2 (Nat.lt_succ_of_le hfits.fields)).bind ?_)
  rw [toNat_toUInt16 (Nat.lt_succ_of_le hfits.fields)]
  refine (hfield _).bind ((Reads.u2 (Nat.lt_succ_of_le hfits.methods)).bind ?_)
  rw [toNat_toUInt16 (Nat.lt_succ_of_le hfits.methods)]
  exact (hmethodsRead _).bind (((hattribute _).under _).map _)

/-! ### Whole files -/

theorem reads_header {major : UInt16} (hversion : isKnownVersion major = true) (minor : UInt16)
    (pos : Nat) :
    Reads readHeader pos (bigEndian 4 magic.toNat ++ (u2 minor ++ u2 major)) (minor, major) := by
  refine ((Reads.u4_bits magic).under _).bind ?_
  rw [if_neg (not_not.mpr rfl)]
  refine ((Reads.word minor).under _).bind (((Reads.word major).under _).last ?_)
  rw [if_pos hversion]
  exact .pure _

/-- Fails if bytes are left. -/
def atEnd (c : ClassFile) : Read ClassFile := do
  let left := (← Read.here).left
  if left ≠ 0 then throw (.note (Text.ofNat left ++ " trailing bytes after class"))
  else return c

/-- A reading that reads all bytes leaves none. -/
theorem run_to_end {r : Read ClassFile} {data : List UInt8} {c : ClassFile}
    (h : Reads r 0 data c) : (r >>= atEnd).run data = .ok c := by
  have hrun := h data [] (List.append_nil data).symm (Nat.zero_le _)
  rw [List.append_nil] at hrun
  have hend : (r >>= atEnd) ⟨data, 0, data⟩ = .ok (c, ⟨data, 0 + data.length, []⟩) := by
    change Bind.bind (r ⟨data, 0, data⟩) (fun x => atEnd x.1 x.2) = _
    rw [hrun]
    rfl
  rw [Read.run, Cursor.start, hend]

/-- A file is read to its end: the versions, the pool and what stands behind it. -/
theorem parse_of_reads {q : Pool} {minor major : UInt16} {pool body : List UInt8} {c : ClassFile}
    (hversion : isKnownVersion major = true) (hpool : ∀ pos, Reads Pool.read pos pool q)
    (hbody : ∀ pos, Reads (readBody q minor major) pos body c) :
    parse (bigEndian 4 magic.toNat ++ u2 minor ++ u2 major ++ pool ++ body) = .ok c := by
  have hrest : ∀ pos, Reads (do
      let pool ← Pool.read.under "constant pool"
      readBody pool minor major) pos (pool ++ body) c := fun pos =>
    Reads.bind ((hpool pos).under _) (hbody _)
  have hall : Reads (readHeader >>= fun v => do
      let pool ← Pool.read.under "constant pool"
      readBody pool v.1 v.2) 0
      (bigEndian 4 magic.toNat ++ (u2 minor ++ u2 major) ++ (pool ++ body)) c :=
    (reads_header hversion minor 0).bind (hrest _)
  have hrun := run_to_end hall
  rw [bind_assoc] at hrun
  simp only [bind_assoc, List.append_assoc] at hrun ⊢
  exact hrun

/-- What a class file is made of. -/
theorem encode_eq_ok_iff {c : ClassFile} {out : List UInt8 × ClassFile} :
    c.encode = .ok out ↔ ∃ codes p pool,
      methodCodes (c.pool.getD .empty) [] c.methods = .ok (codes, p) ∧
      (c.framed codes p).2.write = .ok pool ∧
      out = (bigEndian 4 magic.toNat ++ u2 c.minor ++ u2 c.major ++ pool ++ (c.framed codes p).1,
        { c with pool := some (c.framed codes p).2 }) := by
  rw [encode, bodyBytes_eq]
  constructor
  · intro h
    obtain ⟨framed, hframed, h⟩ := Except.bind_eq_ok_iff.mp h
    obtain ⟨⟨codes, p⟩, hcodes, hframed⟩ := Except.bind_eq_ok_iff.mp hframed
    obtain rfl := Except.ok.inj hframed
    obtain ⟨pool, hpool, h⟩ := Except.bind_eq_ok_iff.mp h
    exact ⟨codes, p, pool, hcodes, lift_eq_ok.mp hpool, (Except.ok.inj h).symm⟩
  · rintro ⟨codes, p, pool, hcodes, hpool, rfl⟩
    rw [hcodes]
    change (Code.lift (c.framed codes p).2.write >>= _) = _
    rw [hpool]
    rfl

/-- A class whose pool has all that is written stays as it is. -/
theorem encode_of_codes {c : ClassFile} {p : Pool} {codes : List (List Attribute)}
    {pool : List UInt8} (hpool : c.pool = some p) (hcodes : Codes p c.methods codes p)
    (hframed : (c.framed codes p).2 = p) (hwrite : p.write = .ok pool) :
    ∃ d, c.encode = .ok (d, c) := by
  have hmethods : methodCodes (c.pool.getD .empty) [] c.methods = .ok (codes, p) := by
    rw [hpool]
    exact hcodes.methodCodes_eq []
  have hencode := encode_eq_ok_iff.mpr ⟨_, _, _, hmethods, hframed.symm ▸ hwrite, rfl⟩
  rw [hframed, ← hpool] at hencode
  exact ⟨_, hencode⟩

/-- Each method has one attribute for its code, and none without. -/
theorem Codes.lengths {ms : List Method} {codes : List (List Attribute)} {q : Pool}
    (h : Codes p ms codes q) :
    List.Forall₂ (fun m as => as.length = m.code.toList.length) ms codes := by
  induction h with
  | nil p => exact .nil
  | bare hcode _ ih => exact .cons (by rw [hcode]; rfl) ih
  | code hcode _ _ ih => exact .cons (by rw [hcode]; rfl) ih

theorem Returns.alike {q : Pool} {k : Method × List Attribute} {m' : Method}
    (h : Returns q k m') : k.1.Alike m' := by
  obtain ⟨code, hrecovers, rfl⟩ := h
  exact ⟨rfl, rfl, rfl, hrecovers.outline, rfl, rfl, rfl, rfl⟩

/-- A class file that was written is read back: the class, with the pool that it was written with
and the code of its methods as it is read. -/
theorem parse_of_encode {c c' : ClassFile} {d : List UInt8} {p₀ : Pool} (hc : c.Faithful p₀)
    (hsound : p₀.Sound) (hfits : c.Fits) (h : c.encode = .ok (d, c')) :
    ∃ q ms, c' = { c with pool := some q } ∧ q.Sound ∧ q.Fits ∧ p₀.Within q ∧
      parse d = .ok { c with pool := some (ofEntries q.entries), methods := ms } ∧
      List.Forall₂ Method.Alike c.methods ms := by
  obtain ⟨codes, p, pool, hcodes, hwrite, hout⟩ := encode_eq_ok_iff.mp h
  obtain ⟨rfl, rfl⟩ := Prod.mk.inj hout
  have hshort := hfits.codes codes p hcodes
  rw [hc.pool, Option.getD_some] at hcodes
  have hcodes := methodCodes_eq_ok_iff.mp hcodes
  have hlengths := hcodes.lengths
  have hlen : codes.length = c.methods.length := hlengths.length_eq.symm
  have hcoded := hcodes.adds hsound hc.methods hfits.method hshort
  have hcount : ∀ k ∈ c.methods.zip codes,
      (k.2 ++ k.1.attributes).length ≤ 65535 ∧ ∀ a ∈ k.2, a.Short := by
    intro k hk
    refine ⟨?_, hshort _ (List.of_mem_zip hk).2⟩
    rw [List.length_append, (List.forall₂_iff_zip.mp hlengths).2 hk]
    exact (hfits.method _ (List.of_mem_zip hk).1).attributes
  -- the code attributes are written first, but the file holds the pool that all of it left
  have hframed := adds_framed hcoded.sound hc hfits hcount hlen
  have hfile := Pool.reads_of_write hframed.sound hwrite
  have hwithin : (c.framed codes p).2.Within (ofEntries (c.framed codes p).2.entries) := .refl _
  have hall := (hcoded.andThen hframed).found _ hwithin (hfile 0).1
  obtain ⟨ms, hreturns, hread⟩ := hall.2 fun k hk => (List.forall₂_iff_zip.mp hall.1).2 hk
  refine ⟨_, ms, rfl, hframed.sound, (hfile 0).1, hcoded.within.trans hframed.within,
    parse_of_reads hc.version (fun pos => (hfile pos).2) fun pos => hread c.minor c.major pos, ?_⟩
  rw [← List.map_fst_zip (Nat.le_of_eq hlen.symm), List.forall₂_map_left_iff]
  exact hreturns.imp fun k m h => h.alike

end ClassFile

end ClassWeaver
