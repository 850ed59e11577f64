import ClassWeaver.Proofs.Codec.Class
import ClassWeaver.Proofs.Codec.Emission

/-!
# The table of label offsets

The encoder looks the offsets of labels up in a table with a place for every label that has been
numbered. Resolving the labels of a listing first is meant to keep it inside that table, and it does
so for the labels that instructions refer to: each of them is placed. It does not for the labels
that are placed, for a negative number is none to resolving and is not asked for a placement, while
the encoder records the offset of every label entry. So the table serves a listing that resolves if
and only if no label entry has a negative number (`indexed_iff`).

Then the encoder is defined: besides this table there is only one other way for it to come to
nothing, an entry of a table of the code that has the operand of something else
(`write_eq_undefined_iff`). -/

namespace ClassWeaver

namespace Code

variable {p q : Pool} {n pc : Nat} {x : Item} {items : List Item} {placed : List (Item × Nat)}
variable {y : Layout} {l : Listing} {m : Method} {i : Insn} {is : List Insn}

/-! ### The table -/

/-- Every label of a listing is inside its table of offsets, whatever the indices of its constants
are and whichever jumps are wide: those that are placed are recorded, and those that instructions
refer to have an offset. -/
def Indexed (l : Listing) : Prop :=
  ∀ (q : Pool) (items : List Item), items.map Item.insn = l.insns →
    ∃ y, Layout.ofItems q l.numLabels items = .ok y ∧
      ∀ i ∈ l.insns, ∀ k ∈ i.labels, ∃ o, y.offset k = .ok o

theorem recordLabels_undefined {labels : Array Nat} {k : Label}
    (hk : k ∈ Layout.placedLabels placed) (hneg : k < 0) :
    recordLabels labels placed = Outcome.undefined := by
  induction placed generalizing labels with
  | nil => cases hk
  | cons xp rest ih =>
    obtain ⟨x, pc⟩ := xp
    unfold recordLabels
    split
    · next hnone =>
      rw [Layout.placedLabels_cons_none hnone] at hk
      exact ih hk
    · next j hj =>
      rw [Layout.placedLabels_cons_some hj] at hk
      rcases List.mem_cons.mp hk with rfl | hk
      · rw [if_neg (by simp [hneg])]
      · split
        · exact ih hk
        · rfl

/-- A label entry with a negative number leaves no layout. -/
theorem ofItems_undefined {k : Label} (hk : k ∈ (items.map Item.insn).filterMap Insn.placed?)
    (hneg : k < 0) : Layout.ofItems p n items = Outcome.undefined := by
  obtain ⟨placed, stop, hplace, -, hfst⟩ := Layout.place_eq p [] 0 items
  have hlist : Layout.placedLabels placed = (items.map Item.insn).filterMap Insn.placed? :=
    Layout.placedLabels_eq (by rw [← hfst, List.map_map]; rfl)
  rw [Layout.ofItems, hplace]
  change (recordLabels (Array.replicate n 0) placed >>= _) = _
  rw [recordLabels_undefined (hlist ▸ hk) hneg]
  rfl

theorem settle_undefined {k : Label} {fuel : Nat}
    (hk : k ∈ (items.map Item.insn).filterMap Insn.placed?) (hneg : k < 0) :
    Layout.settle p n fuel items = Outcome.undefined := by
  cases fuel with
  | zero => exact ofItems_undefined hk hneg
  | succ fuel =>
    rw [Layout.settle, ofItems_undefined hk hneg]
    rfl

theorem numbered_of_resolve (hl : l.WellFormed) (hresolve : l.resolve = .ok ())
    (hplaced : ∀ k ∈ l.insns.filterMap Insn.placed?, 0 ≤ k) :
    Layout.Numbered l.numLabels l.insns :=
  ⟨fun k hk => ⟨hplaced k hk, hl.lt_numLabels (hplaced k hk) hk⟩,
    fun _ hi _ hk => hl.mem_placed_of_resolve hresolve hi hk⟩

/-- The table serves a listing that resolves if and only if no label entry has a negative number. -/
theorem indexed_iff (hl : l.WellFormed) (hresolve : l.resolve = .ok ()) :
    Indexed l ↔ ∀ k ∈ l.insns.filterMap Insn.placed?, 0 ≤ k := by
  constructor
  · intro h k hk
    by_contra hneg
    obtain ⟨y, hy, -⟩ := h .empty (l.insns.map fun i => ⟨i, 0, false⟩) (by
      rw [List.map_map]
      exact List.map_id _)
    rw [ofItems_undefined (by rwa [List.map_map, show Item.insn ∘ _ = id from rfl, List.map_id])
      (Int.not_le.mp hneg)] at hy
    cases hy
  · intro hplaced q items hitems
    exact Layout.exists_ofItems (numbered_of_resolve hl hresolve hplaced) hitems

/-! ### Bytes of instructions -/

theorem exists_displacement_of_offset {k : Label} (h : ∃ o, y.offset k = .ok o) (pc : Nat) :
    ∃ delta, y.displacement pc k = .ok delta := by
  obtain ⟨o, ho⟩ := h
  exact ⟨o - pc, by rw [Layout.displacement, ho]; rfl⟩

theorem exists_targetBytes {targets : List Label} (h : ∀ k ∈ targets, ∃ o, y.offset k = .ok o)
    (pc : Nat) (seen : List (List UInt8)) :
    ∃ deltas, targetBytes y pc seen targets = .ok deltas := by
  induction targets generalizing seen with
  | nil => exact ⟨seen.reverse, rfl⟩
  | cons t rest ih =>
    obtain ⟨ht, hrest⟩ := List.forall_mem_cons.mp h
    obtain ⟨delta, hdelta⟩ := exists_displacement_of_offset ht pc
    obtain ⟨deltas, hdeltas⟩ := ih hrest (signedBigEndian 4 delta :: seen)
    exact ⟨deltas, by rw [targetBytes, hdelta]; exact hdeltas⟩

/-- The displacements of a switch are defined if its labels have offsets. -/
theorem exists_switchBytes {dflt : Label} {targets : List Label}
    (h : ∀ k ∈ dflt :: targets, ∃ o, y.offset k = .ok o) (op : Opcode) (pc : Nat) :
    ∃ head deltas, switchHead y op pc dflt = .ok head ∧
    targetBytes y pc [] targets = .ok deltas := by
  obtain ⟨hdflt, htargets⟩ := List.forall_mem_cons.mp h
  obtain ⟨delta, hdelta⟩ := exists_displacement_of_offset hdflt pc
  obtain ⟨deltas, hdeltas⟩ := exists_targetBytes htargets pc []
  exact ⟨_, deltas, by rw [switchHead, hdelta]; rfl, hdeltas⟩

/-- The bytes of an item are defined if its labels have offsets. -/
theorem gives_itemBytes (h : ∀ k ∈ x.insn.labels, ∃ o, y.offset k = .ok o) :
    (itemBytes p y x pc).Gives fun _ => True := by
  rw [Insn.labels] at h
  unfold itemBytes
  refine .ite (fun _ => trivial) fun _ => ?_
  split
  case h_5 target htarget =>
    rw [htarget] at h
    obtain ⟨delta, hdelta⟩ := exists_displacement_of_offset (h target List.mem_cons_self) pc
    rw [hdelta]
    trivial
  case h_6 low high dflt targets hoperand =>
    rw [hoperand] at h
    obtain ⟨head, deltas, hhead, hdeltas⟩ := exists_switchBytes h x.insn.opcode pc
    refine .ite (fun _ => trivial) fun _ => ?_
    rw [hhead, hdeltas]
    trivial
  case h_7 dflt keys targets hoperand =>
    rw [hoperand] at h
    obtain ⟨head, deltas, hhead, hdeltas⟩ := exists_switchBytes h x.insn.opcode pc
    refine .ite (fun _ => trivial) fun _ => ?_
    rw [hhead, hdeltas]
    trivial
  case h_10 owner name desc onInterface _ =>
    refine .ite (fun _ => ?_) fun _ => trivial
    cases interfaceTail desc <;> trivial
  all_goals first | trivial | exact .ite (fun _ => trivial) fun _ => trivial

theorem gives_codeBytes (h : ∀ xp ∈ placed, ∀ k ∈ xp.1.insn.labels, ∃ o, y.offset k = .ok o)
    (seen : List (List UInt8)) : (codeBytes p y seen placed).Gives fun _ => True := by
  induction placed generalizing seen with
  | nil => trivial
  | cons xp rest ih =>
    obtain ⟨x, pc⟩ := xp
    obtain ⟨hx, hrest⟩ := List.forall_mem_cons.mp h
    exact ((gives_itemBytes hx).mapFault _).bind fun bytes _ _ => ih hrest (bytes :: seen)

/-! ### Tables -/

/-- Entries are written if their operands have a shape, and undefined if not. -/
def Shaped (entry : Pool → Operand → Outcome (List UInt8 × Pool)) (s : Shape) (is : List Insn) :
    Prop :=
  ∀ q, ∀ i ∈ is, (i.operand.shape = s → ∃ out, entry q i.operand = .ok out) ∧
    (i.operand.shape ≠ s → entry q i.operand = Outcome.undefined)

section Tables

variable {entry : Pool → Operand → Outcome (List UInt8 × Pool)} {s : Shape}

theorem exists_tableEntries (h : Shaped entry s is) (hall : ∀ i ∈ is, i.operand.shape = s)
    (p : Pool) (seen : List (List UInt8)) : ∃ out, tableEntries entry p seen is = .ok out := by
  induction is generalizing p seen with
  | nil => exact ⟨_, rfl⟩
  | cons i rest ih =>
    obtain ⟨hi, hrest⟩ := List.forall_mem_cons.mp hall
    obtain ⟨⟨bytes, q⟩, hentry⟩ := (h p i List.mem_cons_self).1 hi
    obtain ⟨out, hout⟩ :=
      ih (fun q j hj => h q j (List.mem_cons_of_mem _ hj)) hrest q (bytes :: seen)
    exact ⟨out, by rw [tableEntries, hentry]; exact hout⟩

theorem tableEntries_undefined (h : Shaped entry s is) (hi : i ∈ is) (hne : i.operand.shape ≠ s)
    (p : Pool) (seen : List (List UInt8)) :
    tableEntries entry p seen is = Outcome.undefined := by
  induction is generalizing p seen with
  | nil => cases hi
  | cons j rest ih =>
    rw [tableEntries]
    by_cases hj : j.operand.shape = s
    · have hmem : i ∈ rest := by
        rcases List.mem_cons.mp hi with rfl | hi
        · exact absurd hj hne
        · exact hi
      obtain ⟨⟨bytes, q⟩, hentry⟩ := (h p j List.mem_cons_self).1 hj
      rw [hentry]
      exact ih (fun q j hj => h q j (List.mem_cons_of_mem _ hj)) hmem q (bytes :: seen)
    · rw [(h p j List.mem_cons_self).2 hj]
      rfl

/-- A table is written, or one of its entries has another operand and it is undefined. -/
theorem tableOf_cases (h : Shaped entry s is) (p : Pool) :
    ((∀ i ∈ is, i.operand.shape = s) ∧ ∃ out, tableOf entry p is = .ok out) ∨
      (∃ i ∈ is, i.operand.shape ≠ s) ∧ tableOf entry p is = Outcome.undefined := by
  by_cases hall : ∀ i ∈ is, i.operand.shape = s
  · obtain ⟨out, hout⟩ := exists_tableEntries h hall p []
    exact .inl ⟨hall, _, by rw [tableOf, hout]; rfl⟩
  · push Not at hall
    obtain ⟨i, hi, hne⟩ := hall
    exact .inr ⟨⟨i, hi, hne⟩, by rw [tableOf, tableEntries_undefined h hi hne]; rfl⟩

theorem tableAttribute_cases (h : Shaped entry s is) (name : Text) (p : Pool) :
    ((∀ i ∈ is, i.operand.shape = s) ∧ ∃ out, tableAttribute name entry p is = .ok out) ∨
      (∃ i ∈ is, i.operand.shape ≠ s) ∧ tableAttribute name entry p is = Outcome.undefined := by
  cases is with
  | nil => exact .inl ⟨nofun, _, rfl⟩
  | cons i rest =>
    change _ ∧ (∃ out, (tableOf entry p (i :: rest) >>= _) = _) ∨
      _ ∧ (tableOf entry p (i :: rest) >>= _) = _
    rcases tableOf_cases h p with ⟨hall, out, hout⟩ | ⟨hne, hundefined⟩
    · rw [hout]
      exact .inl ⟨hall, _, rfl⟩
    · rw [hundefined]
      exact .inr ⟨hne, rfl⟩

end Tables

section Entries

variable (h : ∀ i ∈ is, ∀ k ∈ i.labels, ∃ o, y.offset k = .ok o)
include h

theorem shaped_handlerEntry : Shaped (handlerEntry y) .tryCatch is := by
  intro q i hi
  have hlabels := h i hi
  rw [Insn.labels] at hlabels
  cases hoperand : i.operand with
  | tryCatch start stop handler caught =>
    refine ⟨fun _ => ?_, fun hne => absurd rfl hne⟩
    rw [hoperand] at hlabels
    obtain ⟨a, ha⟩ := hlabels start (by simp [Operand.labels])
    obtain ⟨b, hb⟩ := hlabels stop (by simp [Operand.labels])
    obtain ⟨c, hc⟩ := hlabels handler (by simp [Operand.labels])
    simp only [handlerEntry, offset2, ha, hb, hc]
    exact ⟨_, rfl⟩
  | _ => exact ⟨fun heq => absurd heq Shape.noConfusion, fun _ => rfl⟩

theorem shaped_lineEntry : Shaped (lineEntry y) .line is := by
  intro q i hi
  have hlabels := h i hi
  rw [Insn.labels] at hlabels
  cases hoperand : i.operand with
  | line number start =>
    refine ⟨fun _ => ?_, fun hne => absurd rfl hne⟩
    rw [hoperand] at hlabels
    obtain ⟨a, ha⟩ := hlabels start (by simp [Operand.labels])
    simp only [lineEntry, offset2, ha]
    exact ⟨_, rfl⟩
  | _ => exact ⟨fun heq => absurd heq Shape.noConfusion, fun _ => rfl⟩

theorem shaped_localEntry : Shaped (localEntry y) .localVariable is := by
  intro q i hi
  have hlabels := h i hi
  rw [Insn.labels] at hlabels
  cases hoperand : i.operand with
  | localVariable name desc start stop index =>
    refine ⟨fun _ => ?_, fun hne => absurd rfl hne⟩
    rw [hoperand] at hlabels
    obtain ⟨a, ha⟩ := hlabels start (by simp [Operand.labels])
    obtain ⟨b, hb⟩ := hlabels stop (by simp [Operand.labels])
    simp only [localEntry, ha, hb]
    exact ⟨_, rfl⟩
  | _ => exact ⟨fun heq => absurd heq Shape.noConfusion, fun _ => rfl⟩

end Entries

/-! ### Writing -/

/-- The instruction is an entry of a table of the code, with the operand of something else. -/
def IsStray (i : Insn) : Prop :=
  (i.opcode = .tryCatch ∨ i.opcode = .lineNumber ∨ i.opcode = .localVariable) ∧
    i.operand.shape ≠ i.opcode.shape

/-- The code of a listing up to its tables. -/
structure Coded (p : Pool) (l : Listing) (q : Pool) (y : Layout) (code : List UInt8) : Prop where
  laid : ∃ items, addConstants [] p l.insns = .ok (items, q) ∧
    Layout.settle q l.numLabels items.length items = .ok y
  size_ne : y.size ≠ 0
  size_le : y.size ≤ 65535
  bytes : codeBytes q y [] y.placed = .ok code

/-- How writing a listing whose labels resolve comes to nothing: a label entry without a number,
once the constants are added, or an entry that strayed, once the code is written. -/
inductive Breaks (p : Pool) (l : Listing) : Prop
  | unnumbered {items : List Item} {q : Pool} {k : Label} :
      addConstants [] p l.insns = .ok (items, q) → k ∈ l.insns.filterMap Insn.placed? → k < 0 →
      Breaks p l
  | stray {q : Pool} {y : Layout} {code : List UInt8} {i : Insn} : Coded p l q y code →
      i ∈ l.insns → IsStray i → Breaks p l

/-- The tables of the code and what is behind them. -/
def writeTables (q : Pool) (y : Layout) (m : Method) (is : List Insn) (code : List UInt8) :
    Outcome (List UInt8 × Pool) := do
  let (handlers, p) ← tableOf (handlerEntry y) q (entriesUnder .tryCatch is)
  let (lines, p) ← tableAttribute Attribute.lineNumbers (lineEntry y) p
    (entriesUnder .lineNumber is)
  let (locals, p) ←
    tableAttribute Attribute.localVariables (localEntry y) p (entriesUnder .localVariable is)
  let (attributes, p) := writeAttributes p (lines ++ locals ++ m.codeAttributes)
  return (u2 m.maxStack ++ u2 m.maxLocals ++ bigEndian 4 y.size ++ code ++ handlers ++
    attributes, p)

theorem write_eq (hresolve : l.resolve = .ok ()) : write p m l = (do
    let (items, q) ← lift (addConstants [] p l.insns)
    let y ← Layout.settle q l.numLabels items.length items
    if y.size = 0 || 65535 < y.size then
      Outcome.fail (.note ("code length " ++ Text.ofNat y.size ++ " out of range"))
    else do
      let code ← codeBytes q y [] y.placed
      writeTables q y m l.insns code) := by
  rw [write, hresolve]
  rfl

theorem mem_entriesUnder {op : Opcode} : i ∈ entriesUnder op is ↔ i ∈ is ∧ i.opcode = op := by
  rw [entriesUnder, List.mem_filter, decide_eq_true_eq]

/-- The tables are written unless an entry strayed, and then they are undefined. -/
theorem writeTables_cases (h : ∀ i ∈ is, ∀ k ∈ i.labels, ∃ o, y.offset k = .ok o) (q : Pool)
    (m : Method) (code : List UInt8) :
    ((∀ i ∈ is, ¬IsStray i) ∧ ∃ out, writeTables q y m is code = .ok out) ∨
      (∃ i ∈ is, IsStray i) ∧ writeTables q y m is code = Outcome.undefined := by
  have hunder : ∀ op, ∀ i ∈ entriesUnder op is, ∀ k ∈ i.labels, ∃ o, y.offset k = .ok o :=
    fun op i hi => h i (mem_entriesUnder.mp hi).1
  -- whatever keeps a table from being written is an entry that strayed
  have hstray : ∀ op s, (op = .tryCatch ∨ op = .lineNumber ∨ op = .localVariable) → op.shape = s →
      (∃ i ∈ entriesUnder op is, i.operand.shape ≠ s) → ∃ i ∈ is, IsStray i := by
    rintro op s hop rfl ⟨i, hi, hne⟩
    obtain ⟨hmem, rfl⟩ := mem_entriesUnder.mp hi
    exact ⟨i, hmem, hop, hne⟩
  rcases tableOf_cases (shaped_handlerEntry (hunder .tryCatch)) q with
    ⟨hhandlers, ⟨handlers, p₁⟩, heq₁⟩ | ⟨hne, heq⟩
  case inr => exact .inr ⟨hstray _ _ (.inl rfl) rfl hne, by rw [writeTables, heq]; rfl⟩
  rcases tableAttribute_cases (shaped_lineEntry (hunder .lineNumber)) Attribute.lineNumbers p₁ with
    ⟨hlines, ⟨lines, p₂⟩, heq₂⟩ | ⟨hne, heq⟩
  case inr =>
    refine .inr ⟨hstray _ _ (.inr (.inl rfl)) rfl hne, ?_⟩
    simp only [writeTables, heq₁, heq, bind, Except.bind]
    rfl
  rcases tableAttribute_cases (shaped_localEntry (hunder .localVariable))
      Attribute.localVariables p₂ with
    ⟨hlocals, ⟨locals, p₃⟩, heq₃⟩ | ⟨hne, heq⟩
  case inr =>
    refine .inr ⟨hstray _ _ (.inr (.inr rfl)) rfl hne, ?_⟩
    simp only [writeTables, heq₁, heq₂, heq, bind, Except.bind]
    rfl
  refine .inl ⟨?_, ?_⟩
  · rintro i hi ⟨hop | hop | hop, hne⟩
    · exact hne (hop ▸ hhandlers i (mem_entriesUnder.mpr ⟨hi, hop⟩))
    · exact hne (hop ▸ hlines i (mem_entriesUnder.mpr ⟨hi, hop⟩))
    · exact hne (hop ▸ hlocals i (mem_entriesUnder.mpr ⟨hi, hop⟩))
  · simp only [writeTables, heq₁, heq₂, heq₃, bind, Except.bind]
    exact ⟨_, rfl⟩

/-- The layout that the rounds end with has an offset for every label, and lists the
instructions. -/
theorem offsets_of_settle (hn : Layout.Numbered n is) (hinsns : items.map Item.insn = is)
    (hnarrow : ∀ x ∈ items, x.wide = false) (hy : Layout.settle p n items.length items = .ok y) :
    (∀ i ∈ is, ∀ k ∈ i.labels, ∃ o, y.offset k = .ok o) ∧
      ∀ xp ∈ y.placed, ∀ k ∈ xp.1.insn.labels, ∃ o, y.offset k = .ok o := by
  obtain ⟨items', hsame, hlaid, -⟩ := Layout.exists_items_of_settle hnarrow hy
  obtain ⟨y', hy', hoffset⟩ := Layout.exists_ofItems (p := p) hn (hsame.trans hinsns)
  obtain rfl := Except.ok.inj (hlaid.symm.trans hy')
  refine ⟨hoffset, fun xp hxp => hoffset _ ?_⟩
  rw [← hinsns, ← hsame, ← Layout.insns_ofItems hlaid]
  exact List.mem_map_of_mem hxp

/-- Where all labels have numbers, only the tables are left to be written, or there was a fault. -/
theorem write_cases (hn : Layout.Numbered l.numLabels l.insns) (hresolve : l.resolve = .ok ()) :
    (∃ q y code, Coded p l q y code ∧ (∀ i ∈ l.insns, ∀ k ∈ i.labels, ∃ o, y.offset k = .ok o) ∧
      write p m l = writeTables q y m l.insns code) ∨
    (∃ f, write p m l = Outcome.fail f) ∧ ∀ q y code, ¬Coded p l q y code := by
  have hwrite := @write_eq p l m hresolve
  cases hconstants : addConstants [] p l.insns with
  | error f =>
    rw [hconstants] at hwrite
    refine .inr ⟨⟨f, hwrite⟩, ?_⟩
    rintro q y code ⟨⟨items, hitems, -⟩, -, -, -⟩
    rw [hconstants] at hitems
    cases hitems
  | ok out =>
    obtain ⟨items, q⟩ := out
    obtain ⟨new, hnew, hinsns, hnarrow⟩ := insns_addConstants hconstants
    obtain rfl : items = new := hnew
    obtain ⟨k, r, hr, -⟩ := Layout.exists_rounds q l.numLabels items
    have hsettle := hr.settle_eq List.countP_le_length
    have hgives := hr.gives hn hinsns
    -- the constants and the layout are the only ones
    have honly : ∀ {q' y' code}, Coded p l q' y' code → q' = q ∧ .ok y' = r := by
      rintro q' y' code ⟨⟨items', hitems', hy'⟩, -, -, -⟩
      rw [hconstants] at hitems'
      obtain ⟨rfl, rfl⟩ := Prod.mk.inj (Except.ok.inj hitems')
      exact ⟨rfl, hy'.symm.trans hsettle⟩
    rw [hconstants] at hwrite
    change _ = Layout.settle q l.numLabels items.length items >>= _ at hwrite
    rw [hsettle] at hwrite
    cases r with
    | error e =>
      cases e with
      | undefined => exact hgives.elim
      | fault f =>
        refine .inr ⟨⟨f, hwrite⟩, fun q' y' code hcoded => ?_⟩
        cases (honly hcoded).2
    | ok y =>
      obtain ⟨hoffsets, hplaced⟩ := offsets_of_settle hn hinsns hnarrow hsettle
      have hdefined := gives_codeBytes (p := q) hplaced []
      change _ = if _ then _ else codeBytes q y [] y.placed >>= _ at hwrite
      split at hwrite
      · next hsize =>
        refine .inr ⟨⟨_, hwrite⟩, fun q' y' code hcoded => ?_⟩
        obtain ⟨rfl, heq⟩ := honly hcoded
        obtain rfl := Except.ok.inj heq
        have hne := hcoded.size_ne
        have hle := hcoded.size_le
        simp only [Bool.or_eq_true, decide_eq_true_eq] at hsize
        omega
      · next hsize =>
        simp only [Bool.or_eq_true, decide_eq_true_eq, not_or, Nat.not_lt] at hsize
        cases hbytes : codeBytes q y [] y.placed with
        | error e =>
          rw [hbytes] at hwrite hdefined
          cases e with
          | undefined => exact hdefined.elim
          | fault f =>
            refine .inr ⟨⟨f, hwrite⟩, fun q' y' code hcoded => ?_⟩
            obtain ⟨rfl, heq⟩ := honly hcoded
            obtain rfl := Except.ok.inj heq
            cases hbytes.symm.trans hcoded.bytes
        | ok code =>
          rw [hbytes] at hwrite
          exact .inl ⟨q, y, code, ⟨⟨items, hconstants, hsettle⟩, hsize.1, hsize.2,
            hbytes⟩, hoffsets,
            hwrite⟩

/-- Where all labels have numbers, writing is undefined if and only if an entry strayed and the code
can be written. -/
theorem write_numbered (hn : Layout.Numbered l.numLabels l.insns) (hresolve : l.resolve = .ok ()) :
    write p m l = Outcome.undefined ↔
      ∃ q y code, Coded p l q y code ∧ ∃ i ∈ l.insns, IsStray i := by
  rcases write_cases hn hresolve with ⟨q, y, code, hcoded, hoffsets, hwrite⟩ | ⟨⟨f, hwrite⟩, hnone⟩
  · rw [hwrite]
    rcases writeTables_cases hoffsets q m code with ⟨hregular, out, hout⟩ | ⟨hstray, hout⟩
    · rw [hout]
      refine iff_of_false (fun h => by cases h) ?_
      rintro ⟨-, -, -, -, i, hi, hstray⟩
      exact hregular i hi hstray
    · rw [hout]
      exact iff_of_true rfl ⟨q, y, code, hcoded, hstray⟩
  · rw [hwrite]
    refine iff_of_false (fun h => by cases h) ?_
    rintro ⟨q, y, code, hcoded, -⟩
    exact hnone q y code hcoded

/-- **When writing is undefined.** Writing a listing whose labels resolve is undefined if and only
if a label entry has a negative number and the constants can be added, or an entry of a table
strayed and the code can be written. -/
theorem write_eq_undefined_iff (hl : l.WellFormed) (hresolve : l.resolve = .ok ()) :
    write p m l = Outcome.undefined ↔ Breaks p l := by
  by_cases hplaced : ∀ k ∈ l.insns.filterMap Insn.placed?, 0 ≤ k
  · rw [write_numbered (numbered_of_resolve hl hresolve hplaced) hresolve]
    constructor
    · rintro ⟨q, y, code, hcoded, i, hi, hstray⟩
      exact .stray hcoded hi hstray
    · rintro (⟨-, hk, hneg⟩ | ⟨hcoded, hi, hstray⟩)
      · exact absurd (hplaced _ hk) (Int.not_le.mpr hneg)
      · exact ⟨_, _, _, hcoded, _, hi, hstray⟩
  · obtain ⟨k, hk, hneg⟩ : ∃ k ∈ l.insns.filterMap Insn.placed?, k < 0 := by
      by_contra hall
      exact hplaced fun k hk => Int.not_lt.mp fun hneg => hall ⟨k, hk, hneg⟩
    -- no layout can be made of the items
    have hnone : ∀ {items q}, addConstants [] p l.insns = .ok (items, q) →
        Layout.settle q l.numLabels items.length items = Outcome.undefined := by
      intro items q hitems
      obtain ⟨new, rfl, hinsns, -⟩ := insns_addConstants hitems
      exact settle_undefined (hinsns.symm ▸ hk) hneg
    rw [write_eq hresolve]
    cases hconstants : addConstants [] p l.insns with
    | error f =>
      refine iff_of_false nofun ?_
      rintro (⟨hitems, -, -⟩ | ⟨⟨⟨items, hitems, -⟩, -, -, -⟩, -, -⟩) <;>
      · rw [hconstants] at hitems
        cases hitems
    | ok out =>
      refine iff_of_true ?_ (.unnumbered hconstants hk hneg)
      change (Layout.settle out.2 l.numLabels out.1.length out.1 >>= _) = _
      rw [hnone hconstants]
      rfl

end Code

namespace ClassFile

open Code

variable {c : ClassFile} {p q : Pool} {ms : List Method}

/-- Bodies are written one after the other. -/
theorem Codes.append {codes : List (List Attribute)} {front : List Method}
    (h : Codes p front codes q) (seen : List (List Attribute)) (back : List Method) :
    methodCodes p seen (front ++ back) = methodCodes q (codes.reverse ++ seen) back := by
  induction h generalizing seen with
  | nil p => rfl
  | bare hcode _ ih =>
    rw [List.cons_append, methodCodes_bare hcode, ih, List.reverse_cons, List.append_assoc]
    rfl
  | code hcode hwrite _ ih =>
    rw [List.cons_append, methodCodes_code hcode, hwrite, List.reverse_cons, List.append_assoc]
    exact ih _

/-- Where writing bodies is undefined, it comes to one that is. -/
theorem exists_of_methodCodes_undefined {seen : List (List Attribute)}
    (h : methodCodes p seen ms = Outcome.undefined) :
    ∃ front m back l codes q, ms = front ++ m :: back ∧ m.code = some l ∧
      Codes p front codes q ∧ write q m l = Outcome.undefined := by
  induction ms generalizing p seen with
  | nil => cases h
  | cons m ms ih =>
    cases hm : m.code with
    | none =>
      rw [methodCodes_bare hm] at h
      obtain ⟨front, m', back, l, codes, q, rfl, hl, hfront, hwrite⟩ := ih h
      exact ⟨m :: front, m', back, l, _, q, rfl, hl, .bare hm hfront, hwrite⟩
    | some l =>
      rw [methodCodes_code hm] at h
      cases hw : write p m l with
      | error e =>
        rw [hw] at h
        cases e with
        -- a fault ends the writing with a fault, so this is the body
        | undefined => exact ⟨[], m, ms, l, [], p, rfl, hm, .nil p, hw⟩
        | fault f => cases h
      | ok out =>
        rw [hw] at h
        obtain ⟨front, m', back, l', codes, q, rfl, hl, hfront, hwrite⟩ := ih h
        exact ⟨m :: front, m', back, l', _, q, rfl, hl, .code hm hw hfront, hwrite⟩

/-- Writing a class is undefined if and only if it comes to a body whose writing is. -/
theorem encode_eq_undefined_iff_write :
    c.encode = Outcome.undefined ↔ ∃ front m back l codes p, c.methods = front ++ m :: back ∧
      m.code = some l ∧ methodCodes (c.pool.getD .empty) [] front = .ok (codes, p) ∧
      write p m l = Outcome.undefined := by
  rw [encode, bodyBytes_eq]
  constructor
  · intro h
    cases hcodes : methodCodes (c.pool.getD .empty) [] c.methods with
    | error e =>
      rw [hcodes] at h
      obtain rfl : e = .undefined := Except.error.inj h
      simp only [methodCodes_eq_ok_iff]
      exact exists_of_methodCodes_undefined hcodes
    | ok out =>
      rw [hcodes] at h
      change (lift (c.framed out.1 out.2).2.write >>= _) = _ at h
      cases hpool : (c.framed out.1 out.2).2.write <;> rw [hpool] at h <;> cases h
  · rintro ⟨front, m, back, l, codes, p, hms, hm, hfront, hwrite⟩
    have hcodes : methodCodes (c.pool.getD .empty) [] c.methods = Outcome.undefined := by
      rw [hms, (methodCodes_eq_ok_iff.mp hfront).append, methodCodes_code hm, hwrite]
      rfl
    rw [hcodes]
    rfl

/-- **What resolving guards.** Where the labels of a body resolve, all of its labels are inside the
table of offsets if and only if no label entry has a negative number. And writing a class is
undefined if and only if it comes to a body whose resolving is, or whose labels resolve but which
breaks: by a label entry with a negative number, or by an entry of a table with the operand of
something else. -/
theorem encode_eq_undefined_iff (hb : ∀ m ∈ c.methods, ∀ l, m.code = some l → l.Built) :
    (∀ m ∈ c.methods, ∀ l, m.code = some l → l.resolve = .ok () →
      (Indexed l ↔ ∀ k ∈ l.insns.filterMap Insn.placed?, 0 ≤ k)) ∧
    (c.encode = Outcome.undefined ↔ ∃ front m back l codes p, c.methods = front ++ m :: back ∧
      m.code = some l ∧ methodCodes (c.pool.getD .empty) [] front = .ok (codes, p) ∧
      (l.resolve = Outcome.undefined ∨ l.resolve = .ok () ∧ Breaks p l)) := by
  refine ⟨fun m hm l hl hresolve => indexed_iff (hb m hm l hl).wellFormed hresolve, ?_⟩
  rw [encode_eq_undefined_iff_write]
  have hwrite : ∀ {front m back l p}, c.methods = front ++ m :: back → m.code = some l →
      (write p m l = Outcome.undefined ↔
        l.resolve = Outcome.undefined ∨ l.resolve = .ok () ∧ Breaks p l) := by
    intro front m back l p hms hm
    have hl := hb m (by simp [hms]) l hm
    -- what resolves is left to the tables; what does not is undefined only where resolving is
    cases hresolve : l.resolve with
    | ok u =>
      rw [write_eq_undefined_iff hl.wellFormed hresolve]
      refine ⟨fun h => .inr ⟨rfl, h⟩, ?_⟩
      rintro (h | ⟨-, h⟩)
      · cases h
      · exact h
    | error e =>
      rw [write, hresolve]
      constructor
      · intro h
        obtain rfl : e = .undefined := Except.error.inj h
        exact .inl rfl
      · rintro (h | ⟨h, -⟩)
        · obtain rfl : e = .undefined := Except.error.inj h
          rfl
        · cases h
  constructor
  · rintro ⟨front, m, back, l, codes, p, hms, hm, hfront, h⟩
    exact ⟨front, m, back, l, codes, p, hms, hm, hfront, (hwrite hms hm).mp h⟩
  · rintro ⟨front, m, back, l, codes, p, hms, hm, hfront, h⟩
    exact ⟨front, m, back, l, codes, p, hms, hm, hfront, (hwrite hms hm).mpr h⟩

/-- A body that places the label without a number. -/
def unnumbered : Listing := .ofInsns 0 [.place (-1), .plain .voidReturn]

/-- A class with that body behind another. -/
def numbering : ClassFile where
  major := 50
  access := 33
  name := "A"
  super := "java/lang/Object"
  methods :=
    [{ chooser with code := some choosing },
    { name := "g", desc := "()V", code := some unnumbered }]

theorem encode_eq_undefined_numbering :
    (∀ m ∈ numbering.methods, ∀ l, m.code = some l → l.Built) ∧
      choosing.resolve = .ok () ∧ Indexed choosing ∧
      unnumbered.resolve = .ok () ∧ numbering.encode = Outcome.undefined := by
  have hb : ∀ m ∈ numbering.methods, ∀ l, m.code = some l → l.Built := by
    intro m hm l hl
    rcases List.mem_cons.mp hm with rfl | hm
    · obtain rfl := Option.some.inj hl
      exact .ofInsns _ _
    · obtain rfl := List.mem_singleton.mp hm
      obtain rfl := Option.some.inj hl
      exact .ofInsns _ _
  obtain ⟨hindexed, hencode⟩ := encode_eq_undefined_iff hb
  have hchoosing : choosing.resolve = .ok () := by rfl
  have hunnumbered : unnumbered.resolve = .ok () := by rfl
  refine ⟨hb, hchoosing, (hindexed _ List.mem_cons_self _ rfl hchoosing).mpr (by decide +kernel),
    hunnumbered, hencode.mpr ⟨[{ chooser with code := some choosing }], _, [],
    unnumbered, _, _, rfl,
      rfl, rfl, .inr ⟨hunnumbered, ?_⟩⟩⟩
  exact .unnumbered rfl (List.mem_singleton_self (-1 : Label)) (by decide)

/-- A body whose labels resolve, outside the table of offsets, and a class that cannot be
written. -/
theorem unnumbered_astray : unnumbered.Built ∧ unnumbered.resolve = .ok () ∧ ¬Indexed unnumbered ∧
    ∃ c : ClassFile, c.methods = [{ name := "f", desc := "()V", code := some unnumbered }] ∧
      c.encode = Outcome.undefined := by
  have hb : unnumbered.Built := .ofInsns _ _
  have hresolve : unnumbered.resolve = .ok () := by rfl
  have hplaced : (-1 : Label) ∈ unnumbered.insns.filterMap Insn.placed? := by decide +kernel
  refine ⟨hb, hresolve, fun h => ?_, ⟨none, 50, 0, 33, "A", "java/lang/Object", [], [], _, []⟩,
    rfl, ?_⟩
  · exact absurd ((indexed_iff hb.wellFormed hresolve).mp h _ hplaced) (by decide)
  · refine encode_eq_undefined_iff_write.mpr ⟨[], _, [], unnumbered, _, _, rfl, rfl, rfl, ?_⟩
    exact (write_eq_undefined_iff hb.wellFormed hresolve).mpr (.unnumbered rfl hplaced (by decide))

end ClassFile

end ClassWeaver
