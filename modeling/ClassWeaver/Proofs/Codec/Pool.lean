import Std.Data.HashMap.Lemmas
import ClassWeaver.Pool.Codec
import ClassWeaver.Proofs.Codec.Bytes

/-!
# Pools that grow while they are written

A pool is sound if its entries have the form that their tags call for, with a second place
behind every wide one, and its index is right about them. Adding a constant keeps a pool sound
and only appends (`Pool.Within`), so that an index that was given out still finds its constant
in the pool that is written in the end. A sound pool that is written is read back with the
same entries.
-/

namespace ClassWeaver

/-! ### Entries -/

namespace Constant

/-- The entry has the form that its tag calls for. -/
def Tagged : Constant → Prop
  | unused => False
  | single tag _ => Tag.isSingle tag = true
  | pair tag _ _ => Tag.isPair tag = true
  | _ => True

instance : DecidablePred Tagged
  | unused => inferInstanceAs (Decidable False)
  | single tag _ => inferInstanceAs (Decidable (Tag.isSingle tag = true))
  | pair tag _ _ => inferInstanceAs (Decidable (Tag.isPair tag = true))
  | utf8 _ | integer _ | float _ | long _ | double _ | handle _ _ =>
    inferInstanceAs (Decidable True)

theorem Tagged.tag_ne_zero {c : Constant} (h : c.Tagged) : c.tag ≠ 0 := by
  cases c with
  | unused => exact h.elim
  | single tag i =>
    rintro rfl
    exact absurd h (show ¬Tag.isSingle 0 = true by decide)
  | pair tag i j =>
    rintro rfl
    exact absurd h (show ¬Tag.isPair 0 = true by decide)
  | utf8 _ => exact show Tag.utf8 ≠ 0 by decide
  | integer _ => exact show Tag.integer ≠ 0 by decide
  | float _ => exact show Tag.float ≠ 0 by decide
  | long _ => exact show Tag.long ≠ 0 by decide
  | double _ => exact show Tag.double ≠ 0 by decide
  | handle _ _ => exact show Tag.methodHandle ≠ 0 by decide

theorem reads_single {tag : UInt8} (h : Tag.isSingle tag = true) (i : UInt16) (pos : Nat) :
    Reads Constant.read pos (tag :: bigEndian 2 i.toNat) (.single tag i) := by
  have hrest : Reads (do return Constant.single tag (← Read.u2)) (pos + 1)
      (bigEndian 2 i.toNat) (.single tag i) := (Reads.word i).map (Constant.single tag)
  simp only [Tag.isSingle, Bool.or_eq_true, decide_eq_true_eq] at h
  rcases h with (((rfl | rfl) | rfl) | rfl) | rfl <;> exact (Reads.u1 _).bind hrest

theorem reads_pair {tag : UInt8} (h : Tag.isPair tag = true) (i j : UInt16) (pos : Nat) :
    Reads Constant.read pos (tag :: (bigEndian 2 i.toNat ++ bigEndian 2 j.toNat))
      (.pair tag i j) := by
  have hrest : Reads (do return Constant.pair tag (← Read.u2) (← Read.u2)) (pos + 1)
      (bigEndian 2 i.toNat ++ bigEndian 2 j.toNat) (.pair tag i j) :=
    (Reads.word i).bind ((Reads.word j).map (Constant.pair tag i))
  simp only [Tag.isPair, Tag.isMember, Bool.or_eq_true, decide_eq_true_eq] at h
  rcases h with ((((rfl | rfl) | rfl) | rfl) | rfl) | rfl <;> exact (Reads.u1 _).bind hrest

theorem reads_utf8 {t : Text} (h : t.length ≤ 65535) (pos : Nat) :
    Reads Constant.read pos (Tag.utf8 :: textBytes t) (.utf8 t) := by
  have hlen : t.length.toUInt16.toNat = t.length := toNat_toUInt16 (by omega)
  have hbytes : Reads (Read.bytes t.length.toUInt16.toNat)
      (pos + 1 + (bigEndian 2 t.length).length) t t := by
    rw [hlen]
    exact Reads.bytes t
  have hcount : Reads Read.u2 (pos + 1) (bigEndian 2 t.length) t.length.toUInt16 :=
    Reads.u2 (by omega)
  exact (Reads.u1 _).bind (hcount.bind (hbytes.map Constant.utf8))

/-- An entry is read back from its bytes. -/
theorem reads_of_write {c : Constant} {n : Nat} {bs : List UInt8} (hc : c.Tagged)
    (h : c.write n = .ok bs) (pos : Nat) : Reads Constant.read pos bs c := by
  unfold write at h
  dsimp only at h
  split at h
  · cases h
  · next hlen =>
    cases c with
    | unused => exact hc.elim
    | utf8 t =>
      obtain rfl := Except.ok.inj h
      exact reads_utf8 (Nat.not_lt.mp hlen) pos
    | integer v =>
      obtain rfl := Except.ok.inj h
      exact (Reads.u1 _).bind (((Reads.u4_bits v.toUInt32).map UInt32.toInt32).map _)
    | float bits =>
      obtain rfl := Except.ok.inj h
      exact (Reads.u1 _).bind ((Reads.u4_bits bits).map Constant.float)
    | long v =>
      obtain rfl := Except.ok.inj h
      exact (Reads.u1 _).bind ((Reads.u8_bits v.toUInt64).map fun n => Constant.long n.toInt64)
    | double bits =>
      obtain rfl := Except.ok.inj h
      exact (Reads.u1 _).bind ((Reads.u8_bits bits).map Constant.double)
    -- a tag outside of its form would have left nothing to write
    | single tag i =>
      have htag : Tag.isSingle tag = true := hc
      rw [body?, if_pos htag] at h
      obtain rfl := Except.ok.inj h
      exact reads_single hc i pos
    | pair tag i j =>
      have htag : Tag.isPair tag = true := hc
      rw [body?, pairBytes?, if_pos htag] at h
      obtain rfl := Except.ok.inj h
      exact reads_pair hc i j pos
    | handle kind i =>
      obtain rfl := Except.ok.inj h
      have hrest : Reads (do return Constant.handle (← Read.u1) (← Read.u2)) (pos + 1)
          ([kind] ++ bigEndian 2 i.toNat) (.handle kind i) :=
        (Reads.u1 kind).bind ((Reads.word i).map (Constant.handle kind))
      exact (Reads.u1 _).bind hrest

end Constant

/-! ### Tables of entries -/

namespace Pool

/-- The entries from index one on: each has the form that its tag calls for, and a wide one
takes the next place too. -/
inductive Regular : List Constant → Prop
  | nil : Regular []
  | narrow {c : Constant} {rest : List Constant} : c.Tagged → c.isWide = false → Regular rest →
      Regular (c :: rest)
  | wide {c : Constant} {rest : List Constant} : c.Tagged → c.isWide = true → Regular rest →
      Regular (c :: .unused :: rest)

theorem Regular.append {xs ys : List Constant} (hx : Regular xs) (hy : Regular ys) :
    Regular (xs ++ ys) := by
  induction hx with
  | nil => exact hy
  | narrow hc hw _ ih => exact .narrow hc hw ih
  | wide hc hw _ ih => exact .wide hc hw ih

/-- Entries as they are read: the last one may be wide and lack its second place. -/
inductive Loose : List Constant → Prop
  | nil : Loose []
  | narrow {c : Constant} {rest : List Constant} : c.Tagged → c.isWide = false → Loose rest →
      Loose (c :: rest)
  | wide {c : Constant} {rest : List Constant} : c.Tagged → c.isWide = true → Loose rest →
      Loose (c :: .unused :: rest)
  | cut {c : Constant} : c.Tagged → c.isWide = true → Loose [c]

theorem Regular.loose {cs : List Constant} (h : Regular cs) : Loose cs := by
  induction h with
  | nil => exact .nil
  | narrow hc hw _ ih => exact .narrow hc hw ih
  | wide hc hw _ ih => exact .wide hc hw ih

theorem Regular.of_narrow {cs : List Constant} (h : ∀ c ∈ cs, c.Tagged ∧ c.isWide = false) :
    Regular cs := by
  induction cs with
  | nil => exact .nil
  | cons c rest ih =>
    obtain ⟨⟨hc, hw⟩, hrest⟩ := List.forall_mem_cons.mp h
    exact .narrow hc hw (ih hrest)

theorem Regular.lt_length {c : Constant} {cs : List Constant} (h : Regular cs) {n : Nat}
    (hc : cs[n]? = some c) (hwide : c.isWide = true) : n + 1 < cs.length := by
  induction h generalizing n with
  | nil => simp at hc
  | narrow _ hnarrow _ ih =>
    cases n with
    | zero =>
      obtain rfl := Option.some.inj hc
      simp [hwide] at hnarrow
    | succ n => simpa using ih hc
  | wide _ _ _ ih =>
    match n with
    | 0 => simp
    | 1 =>
      obtain rfl := Option.some.inj hc
      cases hwide
    | n + 2 =>
      have hlt := ih (n := n) hc
      simp only [List.length_cons]
      omega

/-- A table has all its places, or all but the second of a wide entry at the end. -/
theorem Loose.regular_or_cut {cs : List Constant} (h : Loose cs) : Regular cs ∨
    ∃ rs c, cs = rs ++ [c] ∧ Regular rs ∧ c.isWide = true := by
  induction h with
  | nil => exact .inl .nil
  | @narrow c rest hc hw _ ih =>
    refine ih.imp (.narrow hc hw) ?_
    rintro ⟨rs, d, rfl, hrs, hd⟩
    exact ⟨c :: rs, d, rfl, .narrow hc hw hrs, hd⟩
  | @wide c rest hc hw _ ih =>
    refine ih.imp (.wide hc hw) ?_
    rintro ⟨rs, d, rfl, hrs, hd⟩
    exact ⟨c :: .unused :: rs, d, rfl, .wide hc hw hrs, hd⟩
  | @cut c hc hw => exact .inr ⟨[], c, rfl, .nil, hw⟩

theorem writeEntries_narrow {c : Constant} (h : c.isWide = false) (written : List (List UInt8))
    (n : Nat) (rest : List Constant) : writeEntries written n (c :: rest) = (do
      let bytes ← c.write n
      writeEntries (bytes :: written) (n + 1) rest) := by
  cases rest with
  | nil => rfl
  | cons d rest => simp only [writeEntries, h, Bool.false_eq_true, if_false]

theorem writeEntries_wide {c d : Constant} (h : c.isWide = true) (written : List (List UInt8))
    (n : Nat) (rest : List Constant) : writeEntries written n (c :: d :: rest) = (do
      let bytes ← c.write n
      writeEntries (bytes :: written) (n + 2) rest) := by
  simp only [writeEntries, h, if_true]

theorem readEntries_of_full {count : Nat} (fuel : Nat) {table : Array Constant}
    (h : count ≤ table.size) : readEntries count fuel table = pure table := by
  cases fuel with
  | zero => rfl
  | succ fuel => rw [readEntries, if_pos h]

/-- Entries are read back in the places they were written from. -/
theorem reads_of_writeEntries {cs : List Constant} (hcs : Loose cs)
    {written : List (List UInt8)} {n : Nat} {bs : List UInt8}
    (h : writeEntries written n cs = .ok bs) :
    ∃ body, bs = written.reverse.flatten ++ body ∧
      ∀ (table : Array Constant) (count fuel pos : Nat), table.size + cs.length = count →
        cs.length ≤ fuel →
        Reads (readEntries count fuel table) pos body (table.toList ++ cs).toArray := by
  induction hcs generalizing written n with
  | nil =>
    refine ⟨[], ?_, fun table count fuel pos hcount _ => ?_⟩
    · rw [List.append_nil]
      exact (Except.ok.inj h).symm
    · rw [readEntries_of_full fuel (by simp at hcount; omega), List.append_nil]
      exact Reads.pure table
  | @narrow c rest hc hwide _ ih =>
    rw [writeEntries_narrow hwide] at h
    obtain ⟨bytes, hbytes, h⟩ := Except.bind_eq_ok_iff.mp h
    obtain ⟨body, rfl, hbody⟩ := ih h
    refine ⟨bytes ++ body, by simp, fun table count fuel pos hcount hfuel => ?_⟩
    simp only [List.length_cons] at hcount hfuel
    obtain ⟨fuel, rfl⟩ : ∃ k, fuel = k + 1 := ⟨fuel - 1, by omega⟩
    rw [readEntries, if_neg (by omega)]
    refine ((Constant.reads_of_write hc hbytes pos).under _).bind ?_
    have hlast := hbody (table.push c) count fuel (pos + bytes.length)
      (by rw [Array.size_push]; omega) (by omega)
    simpa [hwide] using hlast
  | @wide c rest hc hwide _ ih =>
    rw [writeEntries_wide hwide] at h
    obtain ⟨bytes, hbytes, h⟩ := Except.bind_eq_ok_iff.mp h
    obtain ⟨body, rfl, hbody⟩ := ih h
    refine ⟨bytes ++ body, by simp, fun table count fuel pos hcount hfuel => ?_⟩
    simp only [List.length_cons] at hcount hfuel
    obtain ⟨fuel, rfl⟩ : ∃ k, fuel = k + 1 := ⟨fuel - 1, by omega⟩
    rw [readEntries, if_neg (by omega)]
    refine ((Constant.reads_of_write hc hbytes pos).under _).bind ?_
    have hlast := hbody ((table.push c).push .unused) count fuel (pos + bytes.length)
      (by rw [Array.size_push, Array.size_push]; omega) (by omega)
    have hroom : table.size + 1 < count := by omega
    simpa [hwide, hroom] using hlast
  | @cut c hc hwide =>
    rw [writeEntries] at h
    obtain ⟨bytes, hbytes, h⟩ := Except.bind_eq_ok_iff.mp h
    obtain rfl := Except.ok.inj h
    refine ⟨bytes, by simp, fun table count fuel pos hcount hfuel => ?_⟩
    simp only [List.length_singleton] at hcount hfuel
    obtain ⟨fuel, rfl⟩ : ∃ k, fuel = k + 1 := ⟨fuel - 1, by omega⟩
    rw [readEntries, if_neg (by omega)]
    refine ((Constant.reads_of_write hc hbytes pos).under _).last ?_
    -- the table is full, so there is no second place to leave out
    have hfull : ¬(table.push c).size < count := by
      rw [Array.size_push]
      omega
    dsimp only
    rw [hwide, Bool.true_and, if_neg (by simpa using hfull),
      readEntries_of_full fuel (Nat.not_lt.mp hfull), ← Array.toList_push, Array.toArray_toList]
    exact Reads.pure _

/-! ### Sound pools -/

/-- The entries have their forms and places, and the index finds the first place of every
constant that can be recognised. -/
structure Sound (p : Pool) : Prop where
  regular : ∃ cs, p.entries.toList = .unused :: cs ∧ Regular cs
  indexed : ∀ c : Constant, p.index[c]? =
    if c.tag = 0 || c.isNaN then none else p.entries.toList.idxOf? c

/-- The pool has no more entries than an index can tell apart. -/
def Fits (p : Pool) : Prop := p.count ≤ 65535

/-- The entries of a pool are the first ones of another. -/
def Within (p q : Pool) : Prop := p.entries.toList <+: q.entries.toList

variable {p q r : Pool} {c : Constant} {n : Nat}

theorem Within.refl (p : Pool) : p.Within p := List.prefix_rfl

theorem Within.trans (h : p.Within q) (h' : q.Within r) : p.Within r := List.IsPrefix.trans h h'

theorem Within.entry (h : p.Within q) (hc : p.entries[n]? = some c) : q.entries[n]? = some c := by
  obtain ⟨rest, hrest⟩ := h
  have hlt := (List.getElem?_eq_some_iff.mp (Array.getElem?_toList ▸ hc)).1
  rw [← Array.getElem?_toList, ← hrest, List.getElem?_append_left hlt, Array.getElem?_toList, hc]

theorem get_of_entry (hq : q.Fits) (h : q.entries[n]? = some c) (hn : n ≠ 0) (hc : c.tag ≠ 0) :
    q.get n.toUInt16 = .ok c := by
  have hlt : n < q.entries.size := (Array.getElem?_eq_some_iff.mp h).1
  have hfits : q.entries.size ≤ 65535 := hq
  have hnat : n.toUInt16.toNat = n := toNat_toUInt16 (by omega)
  have hzero : n.toUInt16 ≠ 0 := by
    intro e
    rw [e] at hnat
    exact hn hnat.symm
  rw [get, if_neg hzero, hnat, h]
  simp [hc]

/-- Entries as they are read come back when they are written, and the pool holds no more of them
than an index can tell apart. -/
theorem reads_of_write_loose {cs : List Constant} (hcs : p.entries.toList = .unused :: cs)
    (hloose : Loose cs) {bs : List UInt8} (h : p.write = .ok bs) (pos : Nat) :
    p.Fits ∧ Reads Pool.read pos bs (ofEntries p.entries) := by
  have hcount : p.count = cs.length + 1 := by
    rw [count, ← Array.length_toList, hcs, List.length_cons]
  unfold write at h
  split at h
  · cases h
  · next hfits =>
    obtain ⟨entries, hentries, h⟩ := Except.bind_eq_ok_iff.mp h
    obtain rfl := Except.ok.inj h
    rw [hcs, List.drop_one, List.tail_cons] at hentries
    obtain ⟨body, rfl, hbody⟩ := reads_of_writeEntries hloose hentries
    have hnat : p.count.toUInt16.toNat = p.count := toNat_toUInt16 (by omega)
    -- a pool has its first place at least, so the reader does not stop at a count of zero
    have hzero : p.count.toUInt16 ≠ 0 := by
      intro e
      rw [e] at hnat
      have : (0 : UInt16).toNat = 0 := rfl
      omega
    refine ⟨Nat.not_lt.mp hfits, (Reads.u2 (by omega)).bind ?_⟩
    rw [if_neg hzero, hnat]
    have hread := hbody #[.unused] p.count p.count (pos + (bigEndian 2 p.count).length)
      (by rw [hcount]; simp [Nat.add_comm]) (by omega)
    have hall : ((#[.unused] : Array Constant).toList ++ cs).toArray = p.entries := by
      have hentries : p.entries.toList.toArray = p.entries := Array.toArray_toList
      rw [← hentries, hcs]
      rfl
    rw [hall] at hread
    exact hread.map ofEntries

/-- A pool that is written is read back with its entries. -/
theorem reads_of_write (hp : p.Sound) {bs : List UInt8} (h : p.write = .ok bs) (pos : Nat) :
    p.Fits ∧ Reads Pool.read pos bs (ofEntries p.entries) := by
  obtain ⟨cs, hcs, hreg⟩ := hp.regular
  exact reads_of_write_loose hcs hreg.loose h pos

/-! ### Adding -/

/-- What comes of adding to a pool: a sound pool around it, and an index, or bytes with indices,
of which something holds in every pool around that. -/
structure Adds {α : Type} (p : Pool) (out : α × Pool) (P : Pool → α → Prop) : Prop where
  sound : out.2.Sound
  within : p.Within out.2
  found : ∀ q, out.2.Within q → q.Fits → P q out.1

theorem Sound.found (hp : p.Sound) (h : p.index[c]? = some n) :
    p.entries[n]? = some c ∧ c.tag ≠ 0 := by
  rw [hp.indexed] at h
  split at h
  · cases h
  · next hc =>
    obtain ⟨hlt, heq, -⟩ := List.findIdx?_eq_some_iff_getElem.mp h
    simp only [Bool.or_eq_true, decide_eq_true_eq, not_or] at hc
    refine ⟨?_, hc.1⟩
    rw [← Array.getElem?_toList, List.getElem?_eq_getElem hlt, eq_of_beq heq]

theorem Sound.ne_zero (hp : p.Sound) (h : p.entries[n]? = some c) (hc : c.tag ≠ 0) : n ≠ 0 := by
  rintro rfl
  obtain ⟨cs, hcs, -⟩ := hp.regular
  rw [← Array.getElem?_toList, hcs, List.getElem?_cons_zero] at h
  obtain rfl := Option.some.inj h
  exact hc rfl

/-- The entry of a constant that is new, with the place behind it if it is wide. -/
def newEntries (c : Constant) : List Constant := if c.isWide then [c, .unused] else [c]

theorem regular_newEntries (hc : c.Tagged) : Regular (newEntries c) := by
  unfold newEntries
  split
  · next hw => exact .wide hc hw .nil
  · next hw => exact .narrow hc (by simpa using hw) .nil

/-- The pool with a constant at its end. -/
def extended (p : Pool) (c : Constant) : Pool :=
  ⟨(p.entries.toList ++ newEntries c).toArray,
    if c.isNaN then p.index else p.index.insert c p.entries.size⟩

/-- A constant that is not recognised goes to the end. -/
theorem add_of_none (h : (if c.isNaN then none else p.index[c]?) = none) :
    p.add c = (p.entries.size.toUInt16, p.extended c) := by
  have hentries : (if c.isWide then (p.entries.push c).push .unused else p.entries.push c) =
      (p.entries.toList ++ newEntries c).toArray := by
    refine Array.toList_inj.mp ?_
    by_cases hw : c.isWide = true
    · rw [newEntries, if_pos hw, if_pos hw, Array.toList_push, Array.toList_push, List.append_assoc]
      rfl
    · rw [newEntries, if_neg hw, if_neg hw, Array.toList_push]
  rw [add, h]
  simp only [hentries, extended]

theorem add_eq (p : Pool) (c : Constant) :
    (∃ n, p.index[c]? = some n ∧ p.add c = (n.toUInt16, p)) ∨
      (c.isNaN = true ∨ p.index[c]? = none) ∧
        p.add c = (p.entries.size.toUInt16, p.extended c) := by
  by_cases hnan : c.isNaN = true
  · exact .inr ⟨.inl hnan, add_of_none (if_pos hnan)⟩
  cases hindex : p.index[c]? with
  | none => exact .inr ⟨.inr rfl, add_of_none ((if_neg hnan).trans hindex)⟩
  | some n =>
    refine .inl ⟨n, rfl, ?_⟩
    rw [add, if_neg hnan, hindex]

theorem entry_extended (p : Pool) (c : Constant) :
    (p.extended c).entries[p.entries.size]? = some c := by
  rw [extended, ← Array.getElem?_toList, List.toList_toArray, ← Array.length_toList,
    List.getElem?_append_right (Nat.le_refl _), Nat.sub_self]
  unfold newEntries
  split <;> rfl

theorem within_extended (p : Pool) (c : Constant) : p.Within (p.extended c) :=
  ⟨newEntries c, by rw [extended]⟩

theorem idxOf?_append (xs ys : List Constant) (c : Constant) :
    (xs ++ ys).idxOf? c = (xs.idxOf? c).or ((ys.idxOf? c).map fun n => n + xs.length) :=
  List.findIdx?_append

theorem idxOf?_extended (p : Pool) (c d : Constant) (hd : d.tag ≠ 0) :
    (p.extended c).entries.toList.idxOf? d = (p.entries.toList.idxOf? d).or
      (if c = d then some p.entries.size else none) := by
  have hnew : (newEntries c).idxOf? d = if c = d then some 0 else none := by
    have hunused : (Constant.unused == d) = false := by
      rw [beq_eq_false_iff_ne]
      rintro rfl
      exact hd rfl
    unfold newEntries
    split
    · rw [List.idxOf?_cons, List.idxOf?_cons, hunused]
      simp
    · rw [List.idxOf?_cons]
      simp
  rw [extended, idxOf?_append, hnew]
  split <;> simp

/-- A new constant that can be recognised is found at the end, all others where they were. -/
theorem index_extended (hnum : c.isNaN = false) (d : Constant) :
    (p.extended c).index[d]? = if c = d then some p.count else p.index[d]? := by
  simp only [extended, count, hnum, Bool.false_eq_true, if_false,
    Std.HashMap.getElem?_insert, beq_iff_eq]

theorem index_extended_nan (h : c.isNaN = true) : (p.extended c).index = p.index := by
  rw [extended, if_pos h]

theorem sound_extended (hp : p.Sound) (hc : c.Tagged) (hnew : c.isNaN = true ∨ p.index[c]? = none) :
    (p.extended c).Sound := by
  obtain ⟨cs, hcs, hreg⟩ := hp.regular
  refine ⟨⟨cs ++ newEntries c, ?_, hreg.append (regular_newEntries hc)⟩, fun d => ?_⟩
  · rw [extended, hcs]
    rfl
  have hold := hp.indexed d
  cases hnum : c.isNaN with
  | true =>
    -- a constant that is no number is not in the index, and no other one is found later for it
    rw [index_extended_nan hnum, hold]
    split
    · rfl
    · next hd =>
      obtain ⟨htag, hnan⟩ : d.tag ≠ 0 ∧ d.isNaN = false := by simpa using hd
      have hne : c ≠ d := by
        rintro rfl
        rw [hnum] at hnan
        cases hnan
      rw [idxOf?_extended p c d htag, if_neg hne, Option.or_none]
  | false =>
    have hnone : p.index[c]? = none := hnew.resolve_left (by rw [hnum]; decide)
    rw [index_extended hnum]
    by_cases he : c = d
    · subst he
      have htag : c.tag ≠ 0 := hc.tag_ne_zero
      have hrecognised : ¬(c.tag = 0 || c.isNaN) = true := by simp [htag, hnum]
      rw [hnone, if_neg hrecognised] at hold
      rw [if_pos rfl, if_neg hrecognised, idxOf?_extended p c c htag, ← hold, if_pos rfl,
        Option.none_or]
      rfl
    · rw [if_neg he, hold]
      split
      · rfl
      · next hd =>
        obtain ⟨htag, -⟩ : d.tag ≠ 0 ∧ d.isNaN = false := by simpa using hd
        rw [idxOf?_extended p c d htag, if_neg he, Option.or_none]

theorem adds_add (hp : p.Sound) (hc : c.Tagged) :
    Adds p (p.add c) fun q i => q.get i = .ok c := by
  rcases add_eq p c with ⟨n, hn, hadd⟩ | ⟨hnew, hadd⟩
  · obtain ⟨hentry, htag⟩ := hp.found hn
    rw [hadd]
    exact ⟨hp, .refl p, fun q hq hfits =>
      get_of_entry hfits (hq.entry hentry) (hp.ne_zero hentry htag) htag⟩
  · have hentry := entry_extended p c
    have hsound := sound_extended hp hc hnew
    rw [hadd]
    exact ⟨hsound, within_extended p c, fun q hq hfits => get_of_entry hfits (hq.entry hentry)
      (hsound.ne_zero hentry hc.tag_ne_zero) hc.tag_ne_zero⟩

section Adding

variable {α β : Type} {P P' : Pool → α → Prop} {out : α × Pool}

/-- What was found after one addition is found after the next. -/
theorem Adds.andThen (h : Adds p out P) {out' : β × Pool} {P' : Pool → β → Prop}
    (h' : Adds out.2 out' P') : Adds p out' fun q j => P q out.1 ∧ P' q j :=
  ⟨h'.sound, h.within.trans h'.within, fun q hq hfits =>
    ⟨h.found q (h'.within.trans hq) hfits, h'.found q hq hfits⟩⟩

theorem Adds.imp (h : Adds p out P) (himp : ∀ q i, P q i → P' q i) : Adds p out P' :=
  ⟨h.sound, h.within, fun q hq hfits => himp q _ (h.found q hq hfits)⟩

end Adding

section Finding

variable {i j k : UInt16} {t name desc owner : Text} {tag : UInt8} {out : UInt16 × Pool}

theorem expect_of_get (tag : UInt8) (h : q.get i = .ok c) (ht : c.tag = tag) :
    q.expect i tag = .ok c := by
  rw [expect, h]
  exact if_pos ht

theorem textAt_of_get (h : q.get i = .ok (.utf8 t)) : q.textAt i = .ok t := by
  rw [textAt, expect_of_get Tag.utf8 h rfl]
  rfl

theorem className_of_get (h : q.get i = .ok (.single Tag.classRef j))
    (hj : q.textAt j = .ok name) : q.className i = .ok name := by
  rw [className, expect_of_get Tag.classRef h rfl]
  exact hj

theorem nameAndType_of_get (h : q.get i = .ok (.pair Tag.nameAndType j k))
    (hj : q.textAt j = .ok name) (hk : q.textAt k = .ok desc) :
    q.nameAndType i = .ok (name, desc) := by
  rw [nameAndType, expect_of_get Tag.nameAndType h rfl]
  change (do return (← q.textAt j, ← q.textAt k)) = _
  rw [hj, hk]
  rfl

theorem member_of_get (h : q.get i = .ok (.pair tag j k)) (htag : Tag.isMember tag = true)
    (hj : q.className j = .ok owner) (hk : q.nameAndType k = .ok (name, desc)) :
    q.member i = .ok ⟨owner, name, desc, tag⟩ := by
  rw [member, h]
  change (if Tag.isMember tag then _ else _) = _
  rw [if_pos htag]
  change (do
    let owner ← q.className j
    let name ← q.nameAndType k
    return Member.mk owner name.1 name.2 tag) = _
  rw [hj, hk]
  rfl

theorem adds_addText (hp : p.Sound) (t : Text) :
    Adds p (p.addText t) fun q i => q.textAt i = .ok t :=
  (adds_add hp (c := .utf8 t) trivial).imp fun _ _ => textAt_of_get

/-! The additions in terms of the additions that they are made of. -/

theorem addSingle_eq (p : Pool) (tag : UInt8) (t : Text) :
    p.addSingle tag t = (p.addText t).2.add (.single tag (p.addText t).1) := rfl

theorem addNameAndType_eq (p : Pool) (name desc : Text) :
    p.addNameAndType name desc = ((p.addText name).2.addText desc).2.add
      (.pair Tag.nameAndType (p.addText name).1 ((p.addText name).2.addText desc).1) := by
  unfold addNameAndType
  generalize p.addText name = first
  obtain ⟨i, q⟩ := first
  dsimp only

theorem addMember_eq (p : Pool) (tag : UInt8) (owner name desc : Text) :
    p.addMember tag owner name desc = ((p.addClass owner).2.addNameAndType name desc).2.add
      (.pair tag (p.addClass owner).1 ((p.addClass owner).2.addNameAndType name desc).1) := by
  unfold addMember
  generalize p.addClass owner = first
  obtain ⟨i, q⟩ := first
  dsimp only

theorem addInvokeDynamic_eq (p : Pool) (bootstrap : UInt16) (name desc : Text) :
    p.addInvokeDynamic bootstrap name desc = (p.addNameAndType name desc).2.add
      (.pair Tag.invokeDynamic bootstrap (p.addNameAndType name desc).1) := by
  unfold addInvokeDynamic
  generalize p.addNameAndType name desc = out
  obtain ⟨j, q⟩ := out
  rfl

theorem adds_addSingle (hp : p.Sound) (htag : Tag.isSingle tag = true) (t : Text) :
    Adds p (p.addSingle tag t) fun q i =>
      ∃ j, q.get i = .ok (.single tag j) ∧ q.textAt j = .ok t := by
  have htext := adds_addText hp t
  rw [addSingle_eq]
  generalize p.addText t = out at htext ⊢
  exact (htext.andThen (adds_add htext.sound (c := .single tag out.1) htag)).imp
    fun q i h => ⟨_, h.2, h.1⟩

theorem adds_addClass (hp : p.Sound) (name : Text) :
    Adds p (p.addClass name) fun q i => q.className i = .ok name :=
  (adds_addSingle hp (by decide) name).imp fun _ _ ⟨_, hget, htext⟩ =>
    className_of_get hget htext

theorem adds_addNameAndType (hp : p.Sound) (name desc : Text) :
    Adds p (p.addNameAndType name desc) fun q i => q.nameAndType i = .ok (name, desc) := by
  have hname := adds_addText hp name
  have hdesc := adds_addText hname.sound desc
  rw [addNameAndType_eq]
  generalize (p.addText name).2.addText desc = last at hdesc ⊢
  generalize p.addText name = first at hname hdesc ⊢
  have hpair : (Constant.pair Tag.nameAndType first.1 last.1).Tagged :=
    show Tag.isPair Tag.nameAndType = true by decide
  exact (hname.andThen (hdesc.andThen (adds_add hdesc.sound hpair))).imp
    fun _ _ ⟨hj, hk, hget⟩ => nameAndType_of_get hget hj hk

theorem adds_addMember (hp : p.Sound) (htag : Tag.isMember tag = true) (owner name desc : Text) :
    Adds p (p.addMember tag owner name desc) fun q i =>
      q.member i = .ok ⟨owner, name, desc, tag⟩ := by
  have howner := adds_addClass hp owner
  have hnat := adds_addNameAndType howner.sound name desc
  rw [addMember_eq]
  generalize (p.addClass owner).2.addNameAndType name desc = last at hnat ⊢
  generalize p.addClass owner = first at howner hnat ⊢
  have hpair : (Constant.pair tag first.1 last.1).Tagged :=
    show Tag.isPair tag = true by rw [Tag.isPair, htag]; rfl
  exact (howner.andThen (hnat.andThen (adds_add hnat.sound hpair))).imp
    fun _ _ ⟨hj, hk, hget⟩ => member_of_get hget htag hj hk

theorem adds_addInvokeDynamic (hp : p.Sound) (bootstrap : UInt16) (name desc : Text) :
    Adds p (p.addInvokeDynamic bootstrap name desc) fun q i =>
      ∃ k, q.expect i Tag.invokeDynamic = .ok (.pair Tag.invokeDynamic bootstrap k) ∧
        q.nameAndType k = .ok (name, desc) := by
  have hnat := adds_addNameAndType hp name desc
  rw [addInvokeDynamic_eq]
  generalize p.addNameAndType name desc = out at hnat ⊢
  have hpair : (Constant.pair Tag.invokeDynamic bootstrap out.1).Tagged :=
    show Tag.isPair Tag.invokeDynamic = true by decide
  exact (hnat.andThen (adds_add hnat.sound hpair)).imp
    fun _ _ ⟨hk, hget⟩ => ⟨_, expect_of_get Tag.invokeDynamic hget rfl, hk⟩

/-! ### Constants to load -/

/-- The index is that of a method handle or a dynamic constant. -/
def Pooled (p : Pool) (i : UInt16) : Prop :=
  ∃ c, p.get i = .ok c ∧ (c.tag = Tag.methodHandle ∨ c.tag = Tag.dynamic)

theorem Within.get (h : p.Within q) (hc : p.get i = .ok c) : q.get i = .ok c := by
  unfold Pool.get at hc ⊢
  split at hc
  · cases hc
  · next d hd =>
    split at hd
    · cases hd
    · next hi =>
      rw [if_neg hi, h.entry hd]
      exact hc

theorem Within.pooled (h : p.Within q) (hi : p.Pooled i) : q.Pooled i := by
  obtain ⟨c, hget, htag⟩ := hi
  exact ⟨c, h.get hget, htag⟩

theorem loadable_of_pooled (h : q.Pooled i) : q.loadable i = .ok (.pooled i) := by
  obtain ⟨c, hget, htag⟩ := h
  rw [loadable, hget]
  cases c with
  | unused => rcases htag with h | h <;> exact absurd h (by decide)
  | utf8 _ => rcases htag with h | h <;> exact absurd h (show ¬Tag.utf8 = _ by decide)
  | integer _ => rcases htag with h | h <;> exact absurd h (show ¬Tag.integer = _ by decide)
  | float _ => rcases htag with h | h <;> exact absurd h (show ¬Tag.float = _ by decide)
  | long _ => rcases htag with h | h <;> exact absurd h (show ¬Tag.long = _ by decide)
  | double _ => rcases htag with h | h <;> exact absurd h (show ¬Tag.double = _ by decide)
  | single tag j =>
    obtain h | h : tag = Tag.methodHandle ∨ tag = Tag.dynamic := htag
    all_goals
      subst h
      rfl
  | pair tag j k =>
    obtain h | h : tag = Tag.methodHandle ∨ tag = Tag.dynamic := htag
    all_goals
      subst h
      rfl
  | handle kind j => rfl

theorem loadable_of_single {v : Loadable} (h : q.get i = .ok (.single tag j))
    (hj : q.textAt j = .ok t)
    (hv : tag = Tag.string ∧ v = .string t ∨ tag = Tag.classRef ∧ v = .classRef t ∨
      tag = Tag.methodType ∧ v = .methodType t) : q.loadable i = .ok v := by
  rw [loadable, h]
  rcases hv with ⟨rfl, rfl⟩ | ⟨rfl, rfl⟩ | ⟨rfl, rfl⟩
  · exact congrArg (· >>= fun t => pure (Loadable.string t)) hj
  · exact congrArg (· >>= fun t => pure (Loadable.classRef t)) hj
  · exact congrArg (· >>= fun t => pure (Loadable.methodType t)) hj

/-- The entry behind a loadable constant loads as that constant. -/
theorem adds_addLoadable (hp : p.Sound) {v : Loadable} (hv : ∀ i, v = .pooled i → p.Pooled i)
    (h : p.addLoadable v = .ok out) : Adds p out fun q i => q.loadable i = .ok v := by
  cases v with
  | int n =>
    obtain rfl := Except.ok.inj h
    exact (adds_add hp (c := .integer n) trivial).imp fun q i hget => by rw [loadable, hget]; rfl
  | float bits =>
    obtain rfl := Except.ok.inj h
    exact (adds_add hp (c := .float bits) trivial).imp fun q i hget => by rw [loadable, hget]; rfl
  | long n =>
    obtain rfl := Except.ok.inj h
    exact (adds_add hp (c := .long n) trivial).imp fun q i hget => by rw [loadable, hget]; rfl
  | double bits =>
    obtain rfl := Except.ok.inj h
    exact (adds_add hp (c := .double bits) trivial).imp fun q i hget => by rw [loadable, hget]; rfl
  -- these point to the entry of their text
  | string t =>
    obtain rfl := Except.ok.inj h
    exact (adds_addSingle hp (by decide) t).imp fun q i ⟨j, hget, htext⟩ =>
      loadable_of_single hget htext (.inl ⟨rfl, rfl⟩)
  | classRef name =>
    obtain rfl := Except.ok.inj h
    exact (adds_addSingle hp (by decide) name).imp fun q i ⟨j, hget, htext⟩ =>
      loadable_of_single hget htext (.inr (.inl ⟨rfl, rfl⟩))
  | methodType desc =>
    obtain rfl := Except.ok.inj h
    exact (adds_addSingle hp (by decide) desc).imp fun q i ⟨j, hget, htext⟩ =>
      loadable_of_single hget htext (.inr (.inr ⟨rfl, rfl⟩))
  -- an index that leads to a loadable entry still does so in a larger pool
  | pooled i =>
    obtain ⟨_, -, h⟩ := Except.bind_eq_ok_iff.mp h
    obtain rfl := Except.ok.inj h
    exact ⟨hp, .refl p, fun q hq _ => loadable_of_pooled (hq.pooled (hv i rfl))⟩
  | truth b => cases h

end Finding

/-! ### Pools that were read -/

/-- A second place for every wide entry. -/
def Paired (p : Pool) : Prop :=
  ∀ (n : Nat) (c : Constant), p.entries[n]? = some c → c.isWide = true → n + 1 < p.count

theorem paired_of_regular {p : Pool} {cs : List Constant}
    (hcs : p.entries.toList = .unused :: cs) (h : Regular cs) : p.Paired := by
  intro n c hc hwide
  rw [← Array.getElem?_toList, hcs] at hc
  rw [count, ← Array.length_toList, hcs, List.length_cons]
  cases n with
  | zero =>
    obtain rfl := Option.some.inj hc
    cases hwide
  | succ n => exact Nat.succ_lt_succ (h.lt_length hc hwide)

theorem yields_constant : Yields Constant.read Constant.Tagged := by
  refine .andThen fun tag => ?_
  refine .ite (fun _ => .andThen fun _ => .andThen fun _ => .pure trivial) fun _ => ?_
  refine .ite (fun _ => .andThen fun _ => .pure trivial) fun _ => ?_
  refine .ite (fun _ => .andThen fun _ => .pure trivial) fun _ => ?_
  refine .ite (fun _ => .andThen fun _ => .pure trivial) fun _ => ?_
  refine .ite (fun _ => .andThen fun _ => .pure trivial) fun _ => ?_
  refine .ite (fun h => .andThen fun _ => .pure h) fun _ => ?_
  refine .ite (fun h => .andThen fun _ => .andThen fun _ => .pure h) fun _ => ?_
  exact .ite (fun _ => .andThen fun _ => .andThen fun _ => .pure trivial) fun _ => .throw _

theorem yields_readEntries (count fuel : Nat) (table : Array Constant) :
    Yields (readEntries count fuel table) fun entries =>
      ∃ cs, entries.toList = table.toList ++ cs ∧ Loose cs := by
  induction fuel generalizing table with
  | zero => exact .pure ⟨[], (List.append_nil _).symm, .nil⟩
  | succ fuel ih =>
    refine .ite (fun _ => .pure ⟨[], (List.append_nil _).symm, .nil⟩) fun hroom => ?_
    refine (yields_constant.under _).bind fun c hc => ?_
    have hsnoc : (table.push c).toList = table.toList ++ [c] := Array.toList_push ..
    by_cases hw : c.isWide = true
    · by_cases hsize : (table.push c).size < count
      · dsimp only
        rw [hw, Bool.true_and, if_pos (decide_eq_true hsize)]
        intro start entries stop heq
        obtain ⟨cs, hcs, hloose⟩ := ih ((table.push c).push .unused) start entries stop heq
        refine ⟨c :: .unused :: cs, ?_, .wide hc hw hloose⟩
        rw [hcs, Array.toList_push, hsnoc]
        simp
      · -- the table is full, and the second place is missing
        dsimp only
        rw [hw, Bool.true_and, if_neg (by simpa using hsize),
          readEntries_of_full fuel (Nat.not_lt.mp hsize)]
        exact .pure ⟨[c], hsnoc, .cut hc hw⟩
    · dsimp only
      rw [if_neg (by simp [hw])]
      intro start entries stop heq
      obtain ⟨cs, hcs, hloose⟩ := ih (table.push c) start entries stop heq
      refine ⟨c :: cs, ?_, .narrow hc (by simpa using hw) hloose⟩
      rw [hcs, hsnoc]
      simp

theorem idxOf?_concat (seen : List Constant) (d c : Constant) :
    (seen ++ [d]).idxOf? c = (seen.idxOf? c).or (if d = c then some seen.length else none) := by
  rw [idxOf?_append, List.idxOf?_cons]
  by_cases hdc : d = c <;> simp [hdc]

/-- One more constant in the index of a table: what is there stays, and only a constant that can
be recognised is added. -/
theorem getElem?_indexed {seen : List Constant} {index : Std.HashMap Constant Nat} {c : Constant}
    (hindex : index[c]? = if c.tag = 0 || c.isNaN then none else seen.idxOf? c) (d : Constant) :
    (if d.tag = 0 || d.isNaN then index else index.insertIfNew d seen.length)[c]? =
      if c.tag = 0 || c.isNaN then none else (seen ++ [d]).idxOf? c := by
  rw [idxOf?_concat]
  by_cases hdc : d = c
  · subst hdc
    by_cases hd : (d.tag = 0 || d.isNaN) = true
    · rw [if_pos hd] at hindex ⊢
      rw [if_pos hd, hindex]
    · rw [if_neg hd] at hindex ⊢
      rw [if_neg hd, Std.HashMap.getElem?_insertIfNew, if_pos rfl, ← hindex]
      simp only [beq_self_eq_true, true_and, Std.HashMap.mem_iff_isSome_getElem?]
      cases index[d]? <;> simp
  · rw [if_neg hdc, Option.or_none, ← hindex]
    split
    · rfl
    · rw [Std.HashMap.getElem?_insertIfNew, if_neg (by simp [hdc])]

theorem getElem?_foldl_indexed {c : Constant} (seen cs : List Constant)
    {index : Std.HashMap Constant Nat}
    (hindex : index[c]? = if c.tag = 0 || c.isNaN then none else seen.idxOf? c) :
    ((cs.zipIdx seen.length).foldl (fun index x => if x.1.tag = 0 || x.1.isNaN then index
      else index.insertIfNew x.1 x.2) index)[c]? =
    if c.tag = 0 || c.isNaN then none else (seen ++ cs).idxOf? c := by
  induction cs generalizing seen index with
  | nil => rwa [List.append_nil]
  | cons d cs ih =>
    have hrest := ih (seen ++ [d]) (getElem?_indexed hindex d)
    rwa [List.append_assoc, List.singleton_append, List.length_append] at hrest

/-- The index of a table finds first places. -/
theorem getElem?_indexOf (entries : Array Constant) (c : Constant) :
    (indexOf entries)[c]? =
      if c.tag = 0 || c.isNaN then none else entries.toList.idxOf? c := by
  refine getElem?_foldl_indexed [] entries.toList ?_
  split <;> simp

/-- A pool that is read has entries as they are read, and their index. -/
theorem yields_read : Yields Pool.read fun p => ∃ entries cs, p = ofEntries entries ∧
    entries.toList = .unused :: cs ∧ Loose cs := by
  refine .andThen fun count => .ite (fun _ => .throw _) fun _ => ?_
  refine (yields_readEntries _ _ _).bind fun entries hentries => .pure ?_
  obtain ⟨cs, hcs, hloose⟩ := hentries
  exact ⟨entries, cs, rfl, hcs, hloose⟩

theorem sound_ofEntries {entries : Array Constant} {cs : List Constant}
    (hcs : entries.toList = .unused :: cs) (h : Regular cs) : (ofEntries entries).Sound :=
  ⟨⟨cs, hcs, h⟩, getElem?_indexOf entries⟩

/-- A pool that was read is sound if its wide entries have their second places. -/
theorem sound_of_read : Yields Pool.read fun p => p.Paired → p.Sound := by
  intro start p stop h hpaired
  obtain ⟨entries, cs, rfl, hcs, hloose⟩ := yields_read start p stop h
  refine sound_ofEntries hcs (hloose.regular_or_cut.resolve_right ?_)
  rintro ⟨rs, c, rfl, -, hw⟩
  have hlast : entries[rs.length + 1]? = some c := by
    rw [← Array.getElem?_toList, hcs]
    simp
  have hlt := hpaired (rs.length + 1) c hlast hw
  rw [count, ofEntries, ← Array.length_toList, hcs, List.length_cons, List.length_append,
    List.length_singleton] at hlt
  exact Nat.lt_irrefl _ hlt

end Pool

end ClassWeaver
