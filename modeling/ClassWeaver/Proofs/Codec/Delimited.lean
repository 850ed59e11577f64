import ClassWeaver.Proofs.Codec.Stable

/-!
# Class files delimit themselves

A reading delimits what it reads if the bytes say themselves where they end: whatever comes behind
them, the reading takes the same bytes and answers the same (`Takes.reads`), and of every shorter
beginning it says that it is truncated (`Takes.cut`). Readings that are put together of such
readings are such readings (`Delimits.bind`), so are all parts of a class file and the whole of it.
Code is read within the bytes of its attribute, whose length is read first, so nothing of it depends
on what comes behind the attribute.

A file is read up to the end of the bytes. So no file is the beginning of another
(`parse_prefix_free`): what is cut off makes it truncated, and what is added is
trailing. -/

namespace ClassWeaver

/-! ### Truncated input -/

/-- A text in front of a fault does not change its class. -/
theorem Fault.label_under (text : Text) (f : Fault) : (f.under text).label = f.label := rfl

theorem Cursor.label_tooShort (c : Cursor) : c.tooShort.label = utf8 "truncated" := rfl

/-! ### Readings that delimit what they read -/

section Delimits

variable {α β : Type} {r s : Read α} {f : α → Read β} {used used' : List UInt8} {a : α} {b : β}

/-- The reading takes these bytes for the value, wherever they stand and whatever comes behind them,
and if they are cut short it says so. -/
structure Takes (r : Read α) (used : List UInt8) (a : α) : Prop where
  reads : ∀ data pos rest,
    r ⟨data, pos, used ++ rest⟩ = .ok (a, ⟨data, pos + used.length, rest⟩)
  cut : ∀ data pos short, short <+: used → short ≠ used →
    ∃ e, r ⟨data, pos, short⟩ = .error e ∧ e.label = utf8 "truncated"

/-- All that the reading answers it takes from bytes that show where they end. -/
def Delimits (r : Read α) : Prop :=
  ∀ c a c', r c = .ok (a, c') → ∃ used, c.rest = used ++ c'.rest ∧ Takes r used a

namespace Takes

theorem pure (a : α) : Takes (Pure.pure a) [] a where
  reads _ _ _ := rfl
  cut _ _ _ hbegins hne := absurd (List.prefix_nil.mp hbegins) hne

/-- What is cut short is cut short in its first part or in its second. -/
theorem bind (h : Takes r used a) (h' : Takes (f a) used' b) :
    Takes (r >>= f) (used ++ used') b where
  reads data pos rest := by
    change Bind.bind (r ⟨data, pos, used ++ used' ++ rest⟩) (fun x => f x.1 x.2) = _
    rw [List.append_assoc, h.reads, List.length_append, ← Nat.add_assoc]
    exact h'.reads data (pos + used.length) rest
  cut data pos short hbegins hne := by
    change ∃ e, Bind.bind (r ⟨data, pos, short⟩) (fun x => f x.1 x.2) = .error e ∧ _
    by_cases hfirst : used <+: short
    · -- all of the first part is there, so the second one is cut
      obtain ⟨short', rfl⟩ := hfirst
      rw [List.prefix_append_right_inj] at hbegins
      obtain ⟨e, he, hlabel⟩ :=
        h'.cut data (pos + used.length) short' hbegins fun heq => hne (heq ▸ rfl)
      exact ⟨e, by rw [h.reads]; exact he, hlabel⟩
    · -- nothing is left of the second part
      have hshort : short <+: used :=
        (List.prefix_or_prefix_of_prefix hbegins
        (List.prefix_append used used')).resolve_right hfirst
      have hne' : short ≠ used := fun heq => hfirst (heq ▸ List.prefix_rfl)
      obtain ⟨e, he, hlabel⟩ := h.cut data pos short hshort hne'
      exact ⟨e, by rw [he]; rfl, hlabel⟩

theorem under (h : Takes r used a) (text : Text) : Takes (r.under text) used a where
  reads data pos rest := by rw [Read.under, h.reads]
  cut data pos short hbegins hne := by
    obtain ⟨e, he, hlabel⟩ := h.cut data pos short hbegins hne
    exact ⟨e.under text, by rw [Read.under, he], (Fault.label_under text e).trans hlabel⟩

theorem bytes (bs : List UInt8) : Takes (Read.bytes bs.length) bs bs where
  reads data pos rest := by simp [Read.bytes]
  cut data pos short hbegins hne := by
    have hle : short.length ≤ bs.length := hbegins.length_le
    have hshort : short.length ≠ bs.length := fun heq => hne (hbegins.eq_of_length heq)
    refine ⟨Cursor.tooShort ⟨data, pos, short⟩, ?_, Cursor.label_tooShort _⟩
    rw [Read.bytes, List.take_of_length_le hle]
    exact if_neg hshort

end Takes

namespace Delimits

theorem pure (a : α) : Delimits (Pure.pure a : Read α) := by
  intro c b c' h
  obtain ⟨rfl, rfl⟩ := Prod.mk.inj (Except.ok.inj h)
  exact ⟨[], rfl, .pure _⟩

theorem throw (e : Fault) : Delimits (MonadExcept.throw e : Read α) := fun _ _ _ h => nomatch h

theorem bind (h : Delimits r) (h' : ∀ a, Delimits (f a)) : Delimits (r >>= f) := by
  intro c b c'' heq
  change Bind.bind (r c) (fun x => f x.1 x.2) = .ok (b, c'') at heq
  obtain ⟨⟨a, c'⟩, hr, heq⟩ := Except.bind_eq_ok_iff.mp heq
  obtain ⟨used, hrest, htakes⟩ := h c a c' hr
  obtain ⟨used', hrest', htakes'⟩ := h' a c' b c'' heq
  exact ⟨used ++ used', by rw [hrest, hrest', List.append_assoc], htakes.bind htakes'⟩

/-- What does not read at all. -/
theorem lift (x : Except Fault α) : Delimits (liftM x : Read α) := by
  cases x with
  | error e => exact throw e
  | ok a => exact pure a

theorem under (h : Delimits r) (text : Text) : Delimits (r.under text) := by
  intro c a c' heq
  unfold Read.under at heq
  split at heq
  · next x hx =>
    obtain rfl := Except.ok.inj heq
    obtain ⟨used, hrest, htakes⟩ := h c a c' hx
    exact ⟨used, hrest, htakes.under text⟩
  · cases heq

theorem ite {p : Prop} [Decidable p] (h : Delimits r) (h' : Delimits s) :
    Delimits (if p then r else s) := by
  split
  · exact h
  · exact h'

theorem bytes (n : Nat) : Delimits (Read.bytes n) := by
  intro c bs c' h
  unfold Read.bytes at h
  dsimp only at h
  split at h
  · next hlength =>
    obtain ⟨rfl, rfl⟩ := Prod.mk.inj (Except.ok.inj h)
    refine ⟨c.rest.take n, (List.take_append_drop n c.rest).symm, ?_⟩
    have htakes := Takes.bytes (c.rest.take n)
    rwa [hlength] at htakes
  · cases h

theorem number (width : Nat) : Delimits (Read.number width) := (bytes width).bind fun _ => pure _

theorem u1 : Delimits Read.u1 := (number 1).bind fun _ => pure _

theorem u2 : Delimits Read.u2 := (number 2).bind fun _ => pure _

theorem u4 : Delimits Read.u4 := (number 4).bind fun _ => pure _

theorem u8 : Delimits Read.u8 := (number 8).bind fun _ => pure _

theorem i4 : Delimits Read.i4 := u4.bind fun _ => pure _

theorem repeated {item : Nat → Read α} (h : ∀ n, Delimits (item n)) (count : Nat) :
    Delimits (Read.repeated item count) := by
  have hgo : ∀ (left : Nat) (seen : Array α), Delimits (Read.repeated.go item left seen) := by
    intro left
    induction left with
    | zero => exact fun seen => pure _
    | succ left ih => exact fun seen => (h _).bind fun a => ih _
  exact hgo count #[]

end Delimits

end Delimits

/-! ### The parts of a class file -/

theorem Constant.delimits_read : Delimits Constant.read := by
  refine .bind .u1 fun tag => ?_
  refine .ite (.bind .u2 fun _ => .bind (.bytes _) fun _ => .pure _) ?_
  refine .ite (.bind .i4 fun _ => .pure _) (.ite (.bind .u4 fun _ => .pure _) ?_)
  refine .ite (.bind .u8 fun _ => .pure _) (.ite (.bind .u8 fun _ => .pure _) ?_)
  refine .ite (.bind .u2 fun _ => .pure _) ?_
  refine .ite (.bind .u2 fun _ => .bind .u2 fun _ => .pure _) ?_
  exact .ite (.bind .u1 fun _ => .bind .u2 fun _ => .pure _) (.throw _)

namespace Pool

/-- An entry that takes two places is read once, so the table is full after as many entries whatever
comes behind them. -/
theorem delimits_readEntries (count fuel : Nat) (table : Array Constant) :
    Delimits (readEntries count fuel table) := by
  induction fuel generalizing table with
  | zero => exact .pure _
  | succ fuel ih => exact .ite (.pure _) (.bind (Constant.delimits_read.under _) fun c => ih _)

theorem delimits_read : Delimits Pool.read :=
  .bind .u2 fun _ => .ite (.throw _) (.bind (delimits_readEntries _ _ _) fun _ => .pure _)

end Pool

namespace ClassFile

variable {p : Pool}

theorem delimits_readAttributes : Delimits (Code.readAttributes p) :=
  .bind .u2 fun _ => .repeated (fun _ => .bind .u2 fun _ =>
  .bind ((Delimits.lift _).under _) fun _ =>
    .bind .u4 fun _ => .bind ((Delimits.bytes _).under _) fun _ => .pure _) _

theorem delimits_readClassName (what : Text) (i : UInt16) : Delimits (readClassName p what i) :=
  (Delimits.lift _).under _

theorem delimits_readMember : Delimits (readMember p) :=
  .bind .u2 fun _ => .bind .u2 fun _ => .bind .u2 fun _ => .bind (.lift _) fun _ =>
    .bind (.lift _) fun _ => .pure _

theorem delimits_readField (n : Nat) : Delimits (readField p n) :=
  .bind (delimits_readMember.under _) fun _ => .bind (delimits_readAttributes.under _) fun _ =>
    .pure _

/-- The code attribute of a method is a byte string by the time it is read. -/
theorem delimits_readMethod (n : Nat) : Delimits (readMethod p n) :=
  .bind (delimits_readMember.under _) fun _ =>
    (Delimits.bind delimits_readAttributes fun _ => .lift _).under _

theorem delimits_readHeader : Delimits readHeader := by
  have hversions : Delimits (do
      let minor ← Read.u2.under "header"
      let major ← Read.u2.under "header"
      if isKnownVersion major then return (minor, major)
      else throw (.context [] .badVersion
        (": " ++ Text.ofNat major.toNat ++ "." ++ Text.ofNat minor.toNat)) :
        Read (UInt16 × UInt16)) :=
    .bind (Delimits.u2.under _) fun _ => .bind (Delimits.u2.under _) fun _ =>
      .ite (.pure _) (.throw _)
  -- the versions are read behind the check of the word, which may end it all
  refine .bind (Delimits.u4.under _) fun word => ?_
  split
  · exact .bind (.throw _) fun _ => hversions
  · exact hversions

theorem delimits_readBody (minor major : UInt16) : Delimits (readBody p minor major) := by
  refine .bind .u2 fun access => .bind .u2 fun _ => .bind (delimits_readClassName _ _) fun name =>
    .bind .u2 fun superIndex => ?_
  have hlast : ∀ super : Text, Delimits (do
      let interfaces ← Read.repeated
        (fun n => do readClassName p ("interface " ++ Text.ofNat n) (← Read.u2)) (← Read.u2).toNat
      let fields ← Read.repeated (readField p) (← Read.u2).toNat
      let methods ← Read.repeated (readMethod p) (← Read.u2).toNat
      let attributes ← (Code.readAttributes p).under "class attributes"
      return { pool := some p, major, minor, access, name, super, interfaces, fields, methods,
               attributes } : Read ClassFile) := fun super =>
    .bind .u2 fun _ =>
      .bind (.repeated (fun _ => .bind .u2 fun _ => delimits_readClassName _ _) _) fun _ =>
        .bind .u2 fun _ => .bind (.repeated delimits_readField _) fun _ =>
          .bind .u2 fun _ => .bind (.repeated delimits_readMethod _) fun _ =>
            .bind (delimits_readAttributes.under _) fun _ => .pure _
  exact .ite (.bind (.pure _) hlast) (.bind (delimits_readClassName _ _) hlast)

/-! ### Whole files -/

/-- Reads a class file, which may have bytes behind it. -/
def readFront : Read ClassFile := do
  let (minor, major) ← readHeader
  let pool ← Pool.read.under "constant pool"
  readBody pool minor major

theorem atEnd_apply (c : ClassFile) (stop : Cursor) :
    atEnd c stop =
      if stop.left ≠ 0 then .error (.note (Text.ofNat stop.left ++ " trailing bytes after class"))
      else .ok (c, stop) := by
  change (if stop.left ≠ 0 then
    (throw (.note (Text.ofNat stop.left ++ " trailing bytes after class")) : Read ClassFile)
    else pure c) stop = _
  split <;> rfl

/-- A class file is read, and nothing may be left behind it. -/
theorem parse_eq (data : List UInt8) :
    parse data =
      match readFront (.start data) with
      | .error e => .error e
      | .ok (c, stop) =>
        if stop.left ≠ 0 then
          .error (.note (Text.ofNat stop.left ++ " trailing bytes after class"))
        else .ok c := by
  have hread : read = readFront >>= atEnd := by
    simp only [read, readFront, bind_assoc]
    rfl
  have hbind : read (.start data) =
      Bind.bind (readFront (.start data)) fun x => atEnd x.1 x.2 := by
    rw [hread]
    rfl
  rw [parse, Read.run, hbind]
  cases readFront (.start data) with
  | error e => rfl
  | ok x =>
    dsimp only [Bind.bind, Except.bind]
    rw [atEnd_apply]
    by_cases hleft : x.2.left ≠ 0
    · rw [if_pos hleft, if_pos hleft]
    · rw [if_neg hleft, if_neg hleft]

theorem delimits_readFront : Delimits readFront :=
  .bind delimits_readHeader fun _ => .bind (Pool.delimits_read.under _) fun _ =>
    delimits_readBody _ _

/-- A file that is read is taken as a whole. -/
theorem takes_of_parse {data : List UInt8} {c : ClassFile} (h : parse data = .ok c) :
    Takes readFront data c := by
  rw [parse_eq] at h
  split at h
  · cases h
  · next c' stop hfront =>
    split at h
    · cases h
    · next hleft =>
      obtain rfl := Except.ok.inj h
      obtain ⟨used, hrest, htakes⟩ := delimits_readFront _ _ _ hfront
      have hend : stop.rest = [] := List.length_eq_zero_iff.mp (not_not.mp hleft)
      rw [hend, List.append_nil] at hrest
      rwa [← show data = used from hrest] at htakes

/-- **No class file is the beginning of another.** What is left of a file when bytes are cut off its
end is refused as truncated, and a file with bytes behind it is refused for these. -/
theorem parse_prefix_free {data : List UInt8} {c : ClassFile} (h : parse data = .ok c) :
    (∀ short, short <+: data → short ≠ data →
      ∃ e, parse short = .error e ∧ e.label = utf8 "truncated") ∧
    ∀ extra, extra ≠ [] → parse (data ++ extra) =
      .error (.note (Text.ofNat extra.length ++ " trailing bytes after class")) := by
  have htakes := takes_of_parse h
  refine ⟨fun short hbegins hne => ?_, fun extra hne => ?_⟩
  · obtain ⟨e, he, hlabel⟩ := htakes.cut short 0 short hbegins hne
    refine ⟨e, ?_, hlabel⟩
    rw [parse_eq, Cursor.start, he]
  · have hlength : extra.length ≠ 0 := mt List.length_eq_zero_iff.mp hne
    rw [parse_eq, Cursor.start, htakes.reads]
    exact if_pos hlength

theorem parse_prefix_free_spinning : ∃ c, parse spinningFile = .ok c ∧
    (∀ short, short <+: spinningFile → short ≠ spinningFile →
      ∃ e, parse short = .error e ∧ e.label = utf8 "truncated") ∧
    ∀ extra, extra ≠ [] → parse (spinningFile ++ extra) =
      .error (.note (Text.ofNat extra.length ++ " trailing bytes after class")) := by
  obtain ⟨c, hparse, -⟩ := parse_spinning
  exact ⟨c, hparse, parse_prefix_free hparse⟩

end ClassFile

end ClassWeaver
