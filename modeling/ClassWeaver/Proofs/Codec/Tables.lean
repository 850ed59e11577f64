import ClassWeaver.Proofs.Codec.Instruction

/-!
# Tables

The tables of a class file are written entry by entry, and each entry may add to the pool.
`Writes` says that something was written to a sound pool and is read back with every pool around
the one that it left. It is enough to know this of the entries of a table (`writes_writeAll`).
-/

namespace ClassWeaver

open Pool

/-- What was written is read back, with every pool around the one it left. -/
def Writes {α : Type} (p : Pool) (out : List UInt8 × Pool) (r : Pool → Read α) (a : α) : Prop :=
  Adds p out fun q bs => ∀ pos, Reads (r q) pos bs a

section Entries

variable {α β γ : Type}

/-- Writes entries in order, behind the parts in `seen` (newest first). -/
def writeAll (one : Pool → α → Outcome (List UInt8 × Pool)) (p : Pool) (seen : List (List UInt8)) :
    List α → Outcome (List UInt8 × Pool)
  | [] => .ok (seen.reverse.flatten, p)
  | a :: rest => do
    let (bytes, p) ← one p a
    writeAll one p (bytes :: seen) rest

variable {one : Pool → α → Outcome (List UInt8 × Pool)} {p : Pool} {seen : List (List UInt8)}
variable {entries : List α} {out : List UInt8 × Pool} {item : Pool → Nat → Read β} {f : α → β}

/-- What holds of every entry when it is written holds of all in the end. -/
theorem adds_writeAll {P : Pool → α → List UInt8 → Prop} (hp : p.Sound)
    (hone : ∀ p a out, p.Sound → a ∈ entries → one p a = .ok out →
      Adds p out fun q bs => P q a bs)
    (h : writeAll one p seen entries = .ok out) :
    ∃ bss : List (List UInt8), out.1 = seen.reverse.flatten ++ bss.flatten ∧
      Adds p (bss, out.2) fun q bss => List.Forall₂ (P q) entries bss := by
  induction entries generalizing p seen with
  | nil =>
    obtain rfl := Except.ok.inj h
    exact ⟨[], (List.append_nil _).symm, hp, .refl p, fun q _ _ => .nil⟩
  | cons a rest ih =>
    obtain ⟨⟨bytes, p₁⟩, hbytes, h⟩ := Except.bind_eq_ok_iff.mp h
    have hfirst := hone p a (bytes, p₁) hp List.mem_cons_self hbytes
    obtain ⟨bss, hout, hrest⟩ := ih hfirst.sound
      (fun p a out hp ha => hone p a out hp (List.mem_cons_of_mem _ ha)) h
    refine ⟨bytes :: bss, ?_, ?_⟩
    · rw [hout]
      simp
    · have hboth := hfirst.andThen hrest
      exact ⟨hboth.sound, hboth.within, fun q hq hfits =>
        .cons (hboth.found q hq hfits).1 (hboth.found q hq hfits).2⟩

theorem length_seen_le (h : writeAll one p seen entries = .ok out) :
    seen.reverse.flatten.length ≤ out.1.length := by
  induction entries generalizing p seen with
  | nil =>
    obtain rfl := Except.ok.inj h
    exact Nat.le_refl _
  | cons a rest ih =>
    obtain ⟨⟨bytes, p₁⟩, -, h⟩ := Except.bind_eq_ok_iff.mp h
    refine Nat.le_trans ?_ (ih h)
    simp only [List.reverse_cons, List.flatten_append, List.length_append]
    exact Nat.le_add_right ..

/-- What is written for an entry is no longer than the whole. -/
theorem length_le_writeAll (h : writeAll one p seen entries = .ok out) {a : α} (ha : a ∈ entries) :
    ∃ p₁ part, one p₁ a = .ok part ∧ part.1.length ≤ out.1.length := by
  induction entries generalizing p seen with
  | nil => cases ha
  | cons b rest ih =>
    obtain ⟨⟨bytes, p₁⟩, hbytes, hrest⟩ := Except.bind_eq_ok_iff.mp h
    rcases List.mem_cons.mp ha with rfl | ha
    · have hle : (bytes :: seen).reverse.flatten.length ≤ out.1.length := length_seen_le hrest
      rw [List.reverse_cons, List.flatten_append, List.flatten_singleton,
        List.length_append] at hle
      exact ⟨p, (bytes, p₁), hbytes, Nat.le_trans (Nat.le_add_left ..) hle⟩
    · exact ih hrest ha

/-- A table is read back if its entries are. -/
theorem writes_writeAll (hp : p.Sound)
    (hone : ∀ p a out, p.Sound → a ∈ entries → one p a = .ok out →
      Adds p out fun q bs => ∀ n pos, Reads (item q n) pos bs (f a))
    (h : writeAll one p [] entries = .ok out) :
    Writes p out (fun q => Read.repeated (item q) entries.length) (entries.map f) := by
  obtain ⟨bss, hout, hadds⟩ := adds_writeAll hp hone h
  refine ⟨hadds.sound, hadds.within, fun q hq hfits pos => ?_⟩
  have hall : List.Forall₂ (fun bs b => ∀ n pos, Reads (item q n) pos bs b) bss
      (entries.map f) := by
    rw [List.forall₂_map_right_iff]
    exact (hadds.found q hq hfits).flip
  have hread : Reads (Read.repeated (item q) (entries.map f).length) pos bss.flatten
      (entries.map f) := Reads.repeated hall
  rw [List.length_map] at hread
  rw [hout]
  exact hread

/-- A table with the number of its entries in front. -/
theorem writes_counted {bs : List UInt8} {p' : Pool} {n : Nat} {r : Pool → Nat → Read β} {b : β}
    (hn : n < 65536) (h : Writes p (bs, p') (fun q => r q n) b) :
    Writes p (bigEndian 2 n ++ bs, p')
      (fun q => do
        let count ← Read.u2
        r q count.toNat) b := by
  refine ⟨h.sound, h.within, fun q hq hfits pos => (Reads.u2 hn).bind ?_⟩
  rw [toNat_toUInt16 hn]
  exact h.found q hq hfits _

end Entries

/-! ### Attributes -/

namespace Code

variable {p : Pool} {seen : List (List UInt8)} {attributes : List Attribute}

/-- Writes an attribute. -/
def attributeEntry (p : Pool) (a : Attribute) : List UInt8 × Pool :=
  (u2 (p.addText a.name).1 ++ bigEndian 4 a.data.length ++ a.data, (p.addText a.name).2)

theorem attributeBytes_eq (p : Pool) (seen : List (List UInt8)) (attributes : List Attribute) :
    writeAll (fun p a => .ok (attributeEntry p a)) p seen attributes =
      .ok (attributeBytes p seen attributes) := by
  induction attributes generalizing p seen with
  | nil => rfl
  | cons a rest ih =>
    rw [attributeBytes]
    generalize hadd : p.addText a.name = added
    obtain ⟨n, p'⟩ := added
    have hone : attributeEntry p a = (u2 n ++ bigEndian 4 a.data.length ++ a.data, p') := by
      rw [attributeEntry, hadd]
    rw [writeAll]
    dsimp only
    rw [hone]
    exact ih p' _

/-- Reads one attribute. -/
def readAttribute (q : Pool) (n : Nat) : Read Attribute := do
  let index ← Read.u2
  let name ← (show Read Text from q.textAt index).under ("attribute " ++ Text.ofNat n)
  let size ← Read.u4
  let data ← (Read.bytes size.toNat).under ("attribute " ++ name)
  return ⟨name, data⟩

theorem adds_attributeEntry (hp : p.Sound) {a : Attribute} (ha : a.data.length < 2 ^ 32) :
    Adds p (attributeEntry p a) fun q bs => ∀ n pos, Reads (readAttribute q n) pos bs a := by
  have hname := adds_addText hp a.name
  refine ⟨hname.sound, hname.within, fun q hq hfits n pos => ?_⟩
  have hindex := hname.found q hq hfits
  rw [attributeEntry, List.append_assoc]
  refine (Reads.word _).bind (@Reads.bind _ _ _ _ _ [] _ _ _ ((Reads.lift hindex).under _)
    ((Reads.u4 ha).bind ?_))
  rw [toNat_toUInt32 ha]
  exact ((Reads.bytes a.data).under _).map _

/-- Attributes are read back, if their number and their lengths can be written. -/
theorem writes_attributes (hp : p.Sound) (hcount : attributes.length < 65536)
    (hdata : ∀ a ∈ attributes, a.data.length < 2 ^ 32) :
    Writes p (writeAttributes p attributes) readAttributes attributes := by
  have hall := @writes_writeAll _ _ _ p attributes _ readAttribute id hp
    (fun p a out hp ha h => by
      obtain rfl := Except.ok.inj h
      exact adds_attributeEntry hp (hdata a ha))
    (attributeBytes_eq p [] attributes)
  rw [List.map_id] at hall
  rw [writeAttributes]
  exact writes_counted (r := fun q => Read.repeated (readAttribute q)) hcount hall

/-- The data of an attribute is no longer than all that is written. -/
theorem length_le_writeAttributes {a : Attribute} (ha : a ∈ attributes) (p : Pool) :
    a.data.length ≤ (writeAttributes p attributes).1.length := by
  obtain ⟨p₁, part, hpart, hle⟩ := length_le_writeAll (attributeBytes_eq p [] attributes) ha
  obtain rfl := Except.ok.inj hpart
  rw [attributeEntry] at hle
  rw [writeAttributes]
  simp only [List.length_append] at hle ⊢
  omega

/-! ### Tables of a code attribute -/

section Listed

variable {y : Layout} {i : Insn} {out : List UInt8 × Pool}

theorem tableEntries_eq (entry : Pool → Operand → Outcome (List UInt8 × Pool)) (p : Pool)
    (seen : List (List UInt8)) (entries : List Insn) :
    tableEntries entry p seen entries =
      writeAll (fun p i => entry p i.operand) p seen entries := by
  induction entries generalizing p seen with
  | nil => rfl
  | cons i rest ih =>
    rw [tableEntries, writeAll]
    congr 1
    funext out
    exact ih out.2 (out.1 :: seen)

/-- A table of listing entries is read back if its entries are. -/
theorem writes_tableOf {β : Type} {entry : Pool → Operand → Outcome (List UInt8 × Pool)}
    {entries : List Insn} {item : Pool → Nat → Read β} {f : Insn → β} (hp : p.Sound)
    (hcount : entries.length < 65536)
    (hone : ∀ p i out, p.Sound → i ∈ entries → entry p i.operand = .ok out →
      Adds p out fun q bs => ∀ n pos, Reads (item q n) pos bs (f i))
    (h : tableOf entry p entries = .ok out) :
    Writes p out (fun q => do
      let count ← Read.u2
      Read.repeated (item q) count.toNat) (entries.map f) := by
  obtain ⟨⟨bytes, p'⟩, hbytes, h⟩ := Except.bind_eq_ok_iff.mp h
  obtain rfl := Except.ok.inj h
  rw [tableEntries_eq] at hbytes
  exact writes_counted (r := fun q => Read.repeated (item q)) hcount
    (writes_writeAll hp hone hbytes)

/-- An offset is read back as the number that the layout gives its label. -/
theorem reads_offset (hy : y.Short) {l : Label} {n : Nat} (h : y.offset l = .ok n) :
    (∀ pos, Reads Read.u2 pos (bigEndian 2 n) n.toUInt16) ∧
      (n.toUInt16.toNat : Int) = y.at l := by
  refine ⟨fun pos => Reads.u2 (hy l n h), ?_⟩
  rw [toNat_toUInt16 (hy l n h), (offset_eq_ok h).2.2]

theorem offset2_eq_ok {l : Label} {bs : List UInt8} (h : offset2 y l = .ok bs) :
    ∃ n, y.offset l = .ok n ∧ bs = bigEndian 2 n := by
  obtain ⟨n, hn, h⟩ := Except.bind_eq_ok_iff.mp h
  exact ⟨n, hn, (Except.ok.inj h).symm⟩

theorem ne_zero_of_className {q : Pool} {n : UInt16} {name : Text} (h : q.className n = .ok name) :
    n ≠ 0 := by
  rintro rfl
  obtain ⟨c, hc, -⟩ := Except.bind_eq_ok_iff.mp h
  obtain ⟨d, hd, -⟩ := Except.bind_eq_ok_iff.mp hc
  cases hd

/-- Adds a class unless its name is empty. -/
def addNamed (p : Pool) (name : Text) : UInt16 × Pool :=
  if name.isEmpty then (0, p) else p.addClass name

theorem adds_addNamed (hp : p.Sound) (name : Text) :
    Adds p (addNamed p name) fun q n =>
      n = 0 ∧ name = [] ∨ n ≠ 0 ∧ q.className n = .ok name := by
  unfold addNamed
  split
  · next hempty => exact ⟨hp, .refl p, fun q _ _ => .inl ⟨rfl, List.isEmpty_iff.mp hempty⟩⟩
  · exact (adds_addClass hp name).imp fun q n hname => .inr ⟨ne_zero_of_className hname, hname⟩

theorem adds_handlerEntry (hp : p.Sound) (hy : y.Short)
    (h : handlerEntry y p i.operand = .ok out) (hi : i.opcode = .tryCatch) :
    Adds p out fun q bs => ∀ n pos, Reads (readHandler q n) pos bs (i.mapLabels y.at) := by
  obtain ⟨op, x⟩ := i
  obtain rfl : op = .tryCatch := hi
  cases x with
  | tryCatch start stop handler caught =>
    obtain ⟨b₁, hb₁, h⟩ := Except.bind_eq_ok_iff.mp h
    obtain ⟨b₂, hb₂, h⟩ := Except.bind_eq_ok_iff.mp h
    obtain ⟨b₃, hb₃, h⟩ := Except.bind_eq_ok_iff.mp h
    obtain ⟨n₁, hn₁, rfl⟩ := offset2_eq_ok hb₁
    obtain ⟨n₂, hn₂, rfl⟩ := offset2_eq_ok hb₂
    obtain ⟨n₃, hn₃, rfl⟩ := offset2_eq_ok hb₃
    have hcaught := adds_addNamed hp caught
    have hout : out = (bigEndian 2 n₁ ++ bigEndian 2 n₂ ++ bigEndian 2 n₃ ++
        u2 (addNamed p caught).1, (addNamed p caught).2) := (Except.ok.inj h).symm
    rw [hout]
    refine ⟨hcaught.sound, hcaught.within, fun q hq hfits n pos => ?_⟩
    obtain ⟨hr₁, he₁⟩ := reads_offset hy hn₁
    obtain ⟨hr₂, he₂⟩ := reads_offset hy hn₂
    obtain ⟨hr₃, he₃⟩ := reads_offset hy hn₃
    have hrange : Reads (do return (← Read.u2, ← Read.u2, ← Read.u2, ← Read.u2) :
        Read (UInt16 × UInt16 × UInt16 × UInt16)) pos
        (bigEndian 2 n₁ ++ (bigEndian 2 n₂ ++ (bigEndian 2 n₃ ++ u2 (addNamed p caught).1)))
        (n₁.toUInt16, n₂.toUInt16, n₃.toUInt16, (addNamed p caught).1) :=
      (hr₁ _).bind ((hr₂ _).bind ((hr₃ _).bind ((Reads.word _).map _)))
    have hread : Reads (readHandler q n) pos
        (bigEndian 2 n₁ ++ (bigEndian 2 n₂ ++ (bigEndian 2 n₃ ++ u2 (addNamed p caught).1)))
        ⟨.tryCatch, .tryCatch n₁.toUInt16.toNat n₂.toUInt16.toNat n₃.toUInt16.toNat caught⟩ := by
      refine (hrange.under _).last ?_
      dsimp only
      -- the index zero stands for a handler of everything, which has no name to be read
      rcases hcaught.found q hq hfits with ⟨hzero, rfl⟩ | ⟨hne, hname⟩
      · rw [if_pos hzero]
        exact .pure _
      · rw [if_neg hne]
        exact ((Reads.lift hname).under _).map _
    rw [he₁, he₂, he₃] at hread
    rw [List.append_assoc, List.append_assoc]
    exact hread
  | _ => cases h

/-- Offset and line of a line entry in a layout. -/
def lineAt (y : Layout) (i : Insn) : Nat × UInt16 :=
  match i.operand with
  | .line number start => ((y.at start).toNat, number)
  | _ => (0, 0)

theorem adds_lineEntry (hp : p.Sound) (hy : y.Short) (h : lineEntry y p i.operand = .ok out) :
    Adds p out fun _ bs => ∀ (_ : Nat) pos,
      Reads (do return ((← Read.u2).toNat, ← Read.u2)) pos bs (lineAt y i) := by
  obtain ⟨op, x⟩ := i
  cases x with
  | line number start =>
    obtain ⟨bs, hbs, h⟩ := Except.bind_eq_ok_iff.mp h
    obtain ⟨n, hn, rfl⟩ := offset2_eq_ok hbs
    obtain rfl := Except.ok.inj h
    obtain ⟨hread, heq⟩ := reads_offset hy hn
    refine ⟨hp, .refl p, fun q _ _ _ pos => ?_⟩
    have hline : lineAt y ⟨op, .line number start⟩ = (n.toUInt16.toNat, number) :=
      congrArg (fun z : Int => (z.toNat, number)) heq.symm
    rw [hline]
    exact (hread _).bind ((Reads.word number).map _)
  | _ => cases h

/-- Reads one local variable entry. -/
def readLocal (q : Pool) (_ : Nat) : Read Insn := do
  let start ← Read.u2
  let length ← Read.u2
  let nameIndex ← Read.u2
  let descIndex ← Read.u2
  let index ← Read.u2
  let name ← q.textAt nameIndex
  let desc ← q.textAt descIndex
  return ⟨.localVariable, .localVariable name desc start.toNat (start.toNat + length.toNat) index⟩

/-- The labels of a local variable entry are in order. -/
def Layout.Ordered (y : Layout) (x : Operand) : Prop :=
  match x with
  | .localVariable _ _ start stop _ => y.at start ≤ y.at stop
  | _ => True

theorem adds_localEntry (hp : p.Sound) (hy : y.Short) (h : localEntry y p i.operand = .ok out)
    (hi : i.opcode = .localVariable) (hordered : y.Ordered i.operand) :
    Adds p out fun q bs => ∀ n pos, Reads (readLocal q n) pos bs (i.mapLabels y.at) := by
  obtain ⟨op, x⟩ := i
  obtain rfl : op = .localVariable := hi
  cases x with
  | localVariable name desc start stop index =>
    obtain ⟨n₁, hn₁, h⟩ := Except.bind_eq_ok_iff.mp h
    obtain ⟨n₂, hn₂, h⟩ := Except.bind_eq_ok_iff.mp h
    have hname := adds_addText hp name
    have hdesc := adds_addText hname.sound desc
    have hout : out = (bigEndian 2 n₁ ++ signedBigEndian 2 ((n₂ : Int) - n₁) ++
        u2 (p.addText name).1 ++ u2 ((p.addText name).2.addText desc).1 ++ u2 index,
        ((p.addText name).2.addText desc).2) := (Except.ok.inj h).symm
    rw [hout]
    have hboth := hname.andThen hdesc
    generalize (p.addText name).2.addText desc = second at hboth ⊢
    generalize p.addText name = first at hboth ⊢
    refine ⟨hboth.sound, hboth.within, fun q hq hfits n pos => ?_⟩
    obtain ⟨hfirst, hsecond⟩ := hboth.found q hq hfits
    obtain ⟨hread, heq⟩ := reads_offset hy hn₁
    -- the entry holds a length, and without order it would be negative
    have hle : n₁ ≤ n₂ := by
      have hle : y.at start ≤ y.at stop := hordered
      rw [(offset_eq_ok hn₁).2.2, (offset_eq_ok hn₂).2.2] at hle
      exact_mod_cast hle
    have hlt := hy stop n₂ hn₂
    have hlength : signedBigEndian 2 ((n₂ : Int) - n₁) = bigEndian 2 (n₂ - n₁) := by
      rw [← Int.ofNat_sub hle]
      exact signedBigEndian_natCast (by omega)
    -- adding the length to the start gives the stop again
    have hsum : (n₁.toUInt16.toNat : Int) + (n₂ - n₁).toUInt16.toNat = y.at stop := by
      rw [toNat_toUInt16 (hy start n₁ hn₁), toNat_toUInt16 (by omega), (offset_eq_ok hn₂).2.2]
      omega
    have hlocal : Reads (readLocal q n) pos _ ⟨.localVariable, .localVariable name desc
        n₁.toUInt16.toNat (n₁.toUInt16.toNat + (n₂ - n₁).toUInt16.toNat) index⟩ :=
      (hread _).bind ((Reads.u2 (n := n₂ - n₁) (by omega)).bind ((Reads.word first.1).bind
        ((Reads.word second.1).bind ((Reads.word index).last
          ((Reads.lift hfirst).last ((Reads.lift hsecond).map _))))))
    rw [heq] at hlocal hsum
    rw [hsum] at hlocal
    rw [hlength, List.append_assoc, List.append_assoc, List.append_assoc]
    exact hlocal
  | _ => cases h

end Listed

end Code

end ClassWeaver
