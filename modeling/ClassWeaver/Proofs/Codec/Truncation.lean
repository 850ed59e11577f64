import ClassWeaver.Proofs.Codec.Emission
import ClassWeaver.Proofs.Codec.Stable

/-!
# Numbers that are cut off

Counts, operands and lengths have fields of a fixed width in a class file. The writer fills most of
them by cutting the number to its width, and does not look whether anything is lost. A `Block`
describes a part of a class file by what the class says: how many bytes there are, and at which
places which numbers stand. The file that is written for a class has the numbers at the places that
the block of the class gives (`Block.Describes`), each cut to its width.

The main result is `ClassFile.encode_describes`: what is read at these places are the numbers of
the class if and only if the class is `Representable`, which the writer does not require.
-/

namespace ClassWeaver

/-! ### Blocks -/

/-- What does not fit the width makes no difference. -/
theorem bigEndian_mod (width n : Nat) : bigEndian width (n % 256 ^ width) = bigEndian width n := by
  induction width generalizing n with
  | zero => rfl
  | succ width ih =>
    have hdiv : n % 256 ^ (width + 1) / 256 = n / 256 % 256 ^ width := by
      rw [Nat.pow_succ, Nat.mul_comm, Nat.mod_mul_right_div_self]
    have hmod : n % 256 ^ (width + 1) % 256 = n % 256 :=
      Nat.mod_mod_of_dvd n ⟨256 ^ width, by rw [Nat.pow_succ, Nat.mul_comm]⟩
    rw [bigEndian, bigEndian, hdiv, hmod, ih]

theorem bigEndian_one (n : Nat) : bigEndian 1 n = [n.toUInt8] := by
  have hbyte : (n % 256).toUInt8 = n.toUInt8 := by
    refine UInt8.toNat_inj.mp ?_
    rw [Nat.toUInt8_eq, Nat.toUInt8_eq, UInt8.toNat_ofNat', UInt8.toNat_ofNat']
    exact Nat.mod_mod n 256
  rw [bigEndian, bigEndian, hbyte, List.nil_append]

theorem signedBigEndian_ofNat (width n : Nat) : signedBigEndian width n = bigEndian width n := by
  have hpow : 2 ^ (8 * width) = 256 ^ width := Nat.pow_mul 2 8 width
  rw [signedBigEndian, BitVec.ofInt_natCast, BitVec.toNat_ofNat, hpow, bigEndian_mod]

/-- What stands at a place: a number in so many bytes, in two's complement or not, or bytes. -/
inductive Content
  | unsigned (width : Nat) (z : Int)
  | signed (width : Nat) (z : Int)
  | bytes (bs : List UInt8)

namespace Content

def size : Content → Nat
  | unsigned width _ | signed width _ => width
  | bytes bs => bs.length

/-- The content is at the place, as far as it fits. -/
def StandsAt (data : List UInt8) (place : Nat) : Content → Prop
  | unsigned width z | signed width z => WrittenAt data place width z
  | bytes bs => (data.drop place).take bs.length = bs

/-- What is read at the place is the content. -/
def ReadAt (data : List UInt8) (place : Nat) : Content → Prop
  | unsigned width z => numberAt data width place = z
  | signed width z => signedAt data width place = z
  | bytes bs => (data.drop place).take bs.length = bs

/-- The number fits its width. -/
def Fits : Content → Prop
  | unsigned width z => 0 ≤ z ∧ z < (256 ^ width : Nat)
  | signed width z => -(256 ^ width : Nat) ≤ 2 * z ∧ 2 * z < (256 ^ width : Nat)
  | bytes _ => True

variable {c : Content} {data : List UInt8} {place : Nat}

theorem StandsAt.between (h : c.StandsAt data place) (front back : List UInt8) :
    c.StandsAt (front ++ (data ++ back)) (front.length + place) := by
  cases c with
  | unsigned width z | signed width z => exact WrittenAt.between h front back
  | bytes bs =>
    have hlen := congrArg List.length (h : (data.drop place).take bs.length = bs)
    rw [List.length_take, List.length_drop] at hlen
    have hroom : bs.length ≤ (data.drop place).length := by
      rw [List.length_drop]
      omega
    by_cases hplace : place ≤ data.length
    · rw [StandsAt, ← List.drop_drop, List.drop_left, List.drop_append_of_le_length hplace,
        List.take_append_of_le_length hroom]
      exact h
    · -- nothing can be quoted from behind the end
      obtain rfl : bs = [] := List.length_eq_zero_iff.mp (by omega)
      rfl

/-- What stands at a place is read as what it is exactly if it fits. -/
theorem StandsAt.readAt_iff (h : c.StandsAt data place) : c.ReadAt data place ↔ c.Fits := by
  cases c with
  | unsigned width z =>
    obtain ⟨front, back, rfl, rfl⟩ := (h : WrittenAt data place width z)
    have hnumber := numberAt_middle front (signedBigEndian width z) back
    rw [length_signedBigEndian, ofBigEndian_signed] at hnumber
    have hpos : 0 < 256 ^ width := Nat.pow_pos (by decide)
    have hmod : (0 : Int) ≤ z % (256 ^ width : Nat) := Int.emod_nonneg _ (by omega)
    have hlt : z % (256 ^ width : Nat) < (256 ^ width : Nat) := Int.emod_lt_of_pos _ (by omega)
    rw [ReadAt, Fits, hnumber, Int.toNat_of_nonneg hmod]
    constructor
    · intro heq
      omega
    · rintro ⟨hz, hbound⟩
      exact Int.emod_eq_of_lt hz hbound
  | signed width z =>
    refine ⟨fun hread => ?_, fun hfits => h.signedAt hfits.1 hfits.2⟩
    have hpos : 0 < 256 ^ width := Nat.pow_pos (by decide)
    have hlow := @Int.le_bmod (numberAt data width place) (256 ^ width) hpos
    have hhigh := @Int.bmod_lt (numberAt data width place) (256 ^ width) hpos
    rw [← show signedAt data width place = z from hread, Fits, ClassWeaver.signedAt]
    omega
  | bytes bs => exact ⟨fun _ => trivial, fun _ => h⟩

end Content

/-- A part of a class file: how many bytes it has, and what stands at which places of it. -/
structure Block where
  size : Nat
  contents : List (Nat × Content) := []

namespace Block

/-- Bytes that nothing is said of. -/
def raw (n : Nat) : Block := ⟨n, []⟩

def of (c : Content) : Block := ⟨c.size, [(0, c)]⟩

def append (b b' : Block) : Block :=
  ⟨b.size + b'.size, b.contents ++ b'.contents.map fun (n, c) => (b.size + n, c)⟩

instance : Append Block := ⟨append⟩

def all : List Block → Block
  | [] => raw 0
  | b :: rest => b ++ all rest

/-- Blocks behind their number, which has two bytes. -/
def counted (bs : List Block) : Block := of (.unsigned 2 bs.length) ++ all bs

/-- The bytes are as many as the block has, and its contents stand at their places. -/
structure Describes (b : Block) (data : List UInt8) : Prop where
  length : data.length = b.size
  stands : ∀ n c, (n, c) ∈ b.contents → c.StandsAt data n

/-- Every number of the block fits its width. -/
def Fits (b : Block) : Prop := ∀ n c, (n, c) ∈ b.contents → c.Fits

variable {b b' : Block} {data data' : List UInt8}

/-- The contents of a block are read from the bytes that it describes exactly if they fit. -/
theorem Describes.read_iff (h : b.Describes data) :
    (∀ n c, (n, c) ∈ b.contents → c.ReadAt data n) ↔ b.Fits :=
  forall₃_congr fun n c hc => (h.stands n c hc).readAt_iff

theorem describes_raw {n : Nat} (h : data.length = n) : (raw n).Describes data :=
  ⟨h, fun _ _ hc => nomatch hc⟩

theorem describes_unsigned (width : Nat) (z : Int) :
    (of (.unsigned width z)).Describes (signedBigEndian width z) := by
  refine ⟨length_signedBigEndian width z, fun n c hc => ?_⟩
  obtain ⟨rfl, rfl⟩ := Prod.mk.inj (List.mem_singleton.mp hc)
  exact ⟨[], [], (List.append_nil _).symm, rfl⟩

theorem Describes.append (h : b.Describes data) (h' : b'.Describes data') :
    (b ++ b').Describes (data ++ data') := by
  refine ⟨by rw [List.length_append, h.length, h'.length]; rfl, fun n c hc => ?_⟩
  rcases List.mem_append.mp hc with hc | hc
  · have hstands := (h.stands n c hc).between [] data'
    rwa [List.nil_append, List.length_nil, Nat.zero_add] at hstands
  · obtain ⟨⟨k, d⟩, hd, heq⟩ := List.mem_map.mp hc
    obtain ⟨rfl, rfl⟩ := Prod.mk.inj heq
    have hstands := (h'.stands k d hd).between data []
    rwa [List.append_nil, h.length] at hstands

theorem describes_all {bs : List Block} {datas : List (List UInt8)}
    (h : List.Forall₂ Describes bs datas) : (all bs).Describes datas.flatten := by
  induction h with
  | nil => exact describes_raw rfl
  | cons hb _ ih => exact hb.append ih

theorem describes_counted {bs : List Block} {datas : List (List UInt8)}
    (h : List.Forall₂ Describes bs datas) :
    (counted bs).Describes (bigEndian 2 datas.length ++ datas.flatten) := by
  rw [← h.length_eq, ← signedBigEndian_ofNat]
  exact (describes_unsigned 2 bs.length).append (describes_all h)

theorem fits_raw (n : Nat) : (raw n).Fits := fun _ _ hc => nomatch hc

theorem fits_singleton {k : Nat} {c : Content} :
    (∀ n d, (n, d) ∈ [(k, c)] → d.Fits) ↔ c.Fits := by
  refine ⟨fun h => h k c (List.mem_singleton_self _), fun h n d hd => ?_⟩
  obtain ⟨-, rfl⟩ := Prod.mk.inj (List.mem_singleton.mp hd)
  exact h

theorem fits_of {c : Content} : (of c).Fits ↔ c.Fits := fits_singleton

theorem fits_append : (b ++ b').Fits ↔ b.Fits ∧ b'.Fits := by
  constructor
  · intro h
    refine ⟨fun n c hc => h n c (List.mem_append_left _ hc), fun n c hc => ?_⟩
    exact h (b.size + n) c (List.mem_append_right _ (List.mem_map.mpr ⟨(n, c), hc, rfl⟩))
  · rintro ⟨h, h'⟩ n c hc
    rcases List.mem_append.mp hc with hc | hc
    · exact h n c hc
    · obtain ⟨⟨k, d⟩, hd, heq⟩ := List.mem_map.mp hc
      obtain ⟨-, rfl⟩ := Prod.mk.inj heq
      exact h' k d hd

theorem fits_all {bs : List Block} : (all bs).Fits ↔ ∀ b ∈ bs, b.Fits := by
  induction bs with
  | nil => exact ⟨fun _ _ hb => (nomatch hb), fun _ => fits_raw 0⟩
  | cons b rest ih =>
    exact fits_append.trans ((and_congr Iff.rfl ih).trans List.forall_mem_cons.symm)

theorem fits_counted {bs : List Block} :
    (counted bs).Fits ↔ bs.length ≤ 65535 ∧ ∀ b ∈ bs, b.Fits := by
  rw [counted, fits_append, fits_of, fits_all, Content.Fits]
  refine and_congr ⟨fun h => ?_, fun h => ?_⟩ Iff.rfl
  all_goals omega

end Block

/-! ### The blocks of a class file -/

/-- What an instruction has behind its opcode, in a field that may be too narrow for it. -/
def Insn.contents (i : Insn) : List (Nat × Content) :=
  match i.operand with
  | .int v =>
    if i.opcode = .bipush then [(1, .signed 1 v.toInt)]
    else if i.opcode = .sipush then [(1, .signed 2 v.toInt)]
    else if i.opcode = .newArray then [(1, .unsigned 1 v.toInt)]
    else []
  | .method _ _ desc _ =>
    if i.opcode = .invokeInterface then
      match Descriptor.parse desc with
      | .ok t => [(3, .unsigned 1 (t.paramSlots + 1 : Nat))]
      | .error _ => []
    else []
  | _ => []

namespace Code

/-- The code of a layout. -/
def Layout.block (y : Layout) (code : List UInt8) : Block :=
  ⟨y.size, (0, .bytes code) :: y.placed.flatMap fun (x, n) =>
    x.insn.contents.map fun (k, c) => (n + k, c)⟩

/-- An entry of the local variable table. -/
def spanBlock (y : Layout) (i : Insn) : Block :=
  match i.operand with
  | .localVariable _ _ start stop _ =>
    .raw 2 ++ .of (.unsigned 2 (y.at stop - y.at start)) ++ .raw 6
  | _ => .raw 10

def attributeBlock (a : Attribute) : Block := .raw (6 + a.data.length)

/-- The attribute for a table, if it has entries. -/
def tableBlocks (entry : Insn → Block) (entries : List Insn) : List Block :=
  if entries.isEmpty then [] else [.raw 6 ++ .counted (entries.map entry)]

/-- The data of a code attribute. -/
def block (m : Method) (l : Listing) (y : Layout) (code : List UInt8) : Block :=
  .raw 8 ++ y.block code ++
    .counted ((entriesUnder .tryCatch l.insns).map fun _ => .raw 8) ++
    .counted (tableBlocks (fun _ => .raw 4) (entriesUnder .lineNumber l.insns) ++
      tableBlocks (spanBlock y) (entriesUnder .localVariable l.insns) ++
      m.codeAttributes.map attributeBlock)

end Code

/-- A field or method with the blocks of its attributes. -/
def memberBlock (attributes : List Block) : Block := .raw 6 ++ .counted attributes

/-- A method whose code has a layout and bytes. -/
def Method.block (m : Method) (part : Option (Code.Layout × List UInt8)) : Block :=
  memberBlock <|
    (match m.code, part with
      | some l, some (y, code) => [.raw 6 ++ Code.block m l y code]
      | _, _ => []) ++ m.attributes.map Code.attributeBlock

/-- A class file whose pool takes so many bytes. -/
def ClassFile.block (c : ClassFile) (poolSize : Nat)
    (parts : List (Option (Code.Layout × List UInt8))) : Block :=
  .raw (14 + poolSize) ++ .counted (c.interfaces.map fun _ => .raw 2) ++
    .counted (c.fields.map fun f => memberBlock (f.attributes.map Code.attributeBlock)) ++
    .counted (List.zipWith Method.block c.methods parts) ++
    .counted (c.attributes.map Code.attributeBlock)

/-! ### Classes whose numbers fit -/

/-- The operand fits the field that the opcode has for it. -/
def Insn.InRange (i : Insn) : Prop :=
  match i.operand with
  | .int v =>
    (i.opcode = .bipush → -128 ≤ v.toInt ∧ v.toInt ≤ 127) ∧
      (i.opcode = .sipush → -32768 ≤ v.toInt ∧ v.toInt ≤ 32767) ∧
      (i.opcode = .newArray → 0 ≤ v.toInt ∧ v.toInt ≤ 255)
  | .method _ _ desc _ => i.opcode = .invokeInterface →
    ∀ t, Descriptor.parse desc = .ok t → t.paramSlots + 1 ≤ 255
  | _ => True

/-- A local variable entry does not stop in front of where it starts. -/
def Insn.Forward (is : List Insn) (i : Insn) : Prop :=
  match i.operand with
  | .localVariable _ _ start stop _ => position is start ≤ position is stop
  | _ => True

/-- Every number of a class that has a field of its own in the file fits it. -/
structure ClassFile.Representable (c : ClassFile) : Prop where
  interfaces : c.interfaces.length ≤ 65535
  fields : c.fields.length ≤ 65535
  fieldAttributes : ∀ f ∈ c.fields, f.attributes.length ≤ 65535
  methods : c.methods.length ≤ 65535
  method : ∀ m ∈ c.methods, m.Fits
  attributes : c.attributes.length ≤ 65535
  insns : ∀ m ∈ c.methods, ∀ l, m.code = some l → ∀ i ∈ l.insns, i.InRange
  spans : ∀ m ∈ c.methods, ∀ l, m.code = some l →
    ∀ i ∈ entriesUnder .localVariable l.insns, i.Forward l.insns

/-! ### Numbers of code -/

theorem Insn.fits_contents {i : Insn} : (∀ n c, (n, c) ∈ i.contents → c.Fits) ↔ i.InRange := by
  obtain ⟨op, x⟩ := i
  have hnone : ∀ {P : Prop}, P → ((∀ n c, (n, c) ∈ ([] : List (Nat × Content)) → c.Fits) ↔ P) :=
    fun hP => ⟨fun _ => hP, fun _ _ _ hc => nomatch hc⟩
  cases x with
  | int v =>
    unfold contents InRange
    dsimp only
    -- three opcodes have a place for a number, each with a bound of its own
    by_cases hbyte : op = .bipush
    · subst hbyte
      rw [if_pos rfl, Block.fits_singleton, Content.Fits]
      have hshort : Opcode.bipush ≠ .sipush := by decide
      have harray : Opcode.bipush ≠ .newArray := by decide
      simp only [hshort, harray, false_implies, true_implies, and_true]
      omega
    · rw [if_neg hbyte]
      by_cases hshort : op = .sipush
      · subst hshort
        rw [if_pos rfl, Block.fits_singleton, Content.Fits]
        have harray : Opcode.sipush ≠ .newArray := by decide
        simp only [hbyte, harray, false_implies, true_implies, and_true, true_and]
        omega
      · rw [if_neg hshort]
        by_cases harray : op = .newArray
        · subst harray
          rw [if_pos rfl, Block.fits_singleton, Content.Fits]
          simp only [hbyte, hshort, false_implies, true_implies, true_and]
          omega
        · rw [if_neg harray]
          exact hnone ⟨fun h => absurd h hbyte, fun h => absurd h hshort, fun h => absurd h harray⟩
  | method owner name desc onInterface =>
    unfold contents InRange
    dsimp only
    by_cases hcall : op = .invokeInterface
    · rw [if_pos hcall]
      cases hparse : Descriptor.parse desc with
      | error f => exact hnone fun _ t ht => nomatch ht
      | ok t =>
        dsimp only
        rw [Block.fits_singleton, Content.Fits]
        constructor
        · rintro h - t' ht
          obtain rfl := Except.ok.inj ht
          omega
        · intro h
          have := h hcall t rfl
          omega
    · rw [if_neg hcall]
      exact hnone fun h => absurd h hcall
  | _ => exact hnone trivial

namespace Code

open Block

section Parts

variable {p q : Pool} {y : Layout} {x : Item} {pc : Nat} {bs code : List UInt8} {is : List Insn}

/-- The numbers of an instruction stand among its bytes. -/
theorem standsAt_contents (h : itemBytes p y x pc = .ok bs) {k : Nat} {c : Content}
    (hc : (k, c) ∈ x.insn.contents) : c.StandsAt bs k := by
  obtain ⟨⟨op, operand⟩, n, wide⟩ := x
  unfold Insn.contents at hc
  unfold itemBytes at h
  dsimp only at h hc
  cases operand with
  | int v =>
    -- numbers stand behind the opcode, in the width that it calls for
    have hwritten : ∀ width, WrittenAt (opcodeByte op :: signedBigEndian width v.toInt) 1 width
        v.toInt := fun width => ⟨[opcodeByte op], [], by simp, rfl⟩
    dsimp only at hc
    split at hc
    · next hop =>
      subst hop
      obtain ⟨rfl, rfl⟩ := Prod.mk.inj (List.mem_singleton.mp hc)
      obtain rfl := Except.ok.inj h
      exact hwritten 1
    · split at hc
      · next hop =>
        subst hop
        obtain ⟨rfl, rfl⟩ := Prod.mk.inj (List.mem_singleton.mp hc)
        obtain rfl := Except.ok.inj h
        exact hwritten 2
      · split at hc
        · next hop =>
          subst hop
          obtain ⟨rfl, rfl⟩ := Prod.mk.inj (List.mem_singleton.mp hc)
          obtain rfl := Except.ok.inj h
          exact hwritten 1
        · cases hc
  | method owner name desc onInterface =>
    dsimp only at h hc
    split at hc
    · next hop =>
      subst hop
      split at hc
      · next t hparse =>
        obtain ⟨rfl, rfl⟩ := Prod.mk.inj (List.mem_singleton.mp hc)
        have htail : interfaceTail desc = .ok [(t.paramSlots + 1).toUInt8, 0] := by
          rw [interfaceTail, hparse]
          rfl
        rw [htail] at h
        obtain rfl := Except.ok.inj h
        refine ⟨opcodeByte .invokeInterface :: u2 n, [0], ?_, by simp [u2]⟩
        rw [signedBigEndian_ofNat, bigEndian_one]
        rfl
      · cases hc
    · cases hc
  | _ => cases hc

/-- The code of a layout is described by its block. -/
theorem describes_layout (h : y.Emits q is code) : (y.block code).Describes code := by
  refine ⟨h.size, fun n c hc => ?_⟩
  rcases List.mem_cons.mp hc with heq | hc
  · obtain ⟨rfl, rfl⟩ := Prod.mk.inj heq
    exact List.take_length
  · obtain ⟨⟨x, pc⟩, hx, hc⟩ := List.mem_flatMap.mp hc
    obtain ⟨⟨k, d⟩, hd, heq⟩ := List.mem_map.mp hc
    obtain ⟨rfl, rfl⟩ := Prod.mk.inj heq
    obtain ⟨front, bs, back, rfl, hfront, hbs⟩ := h.written.exists_middle hx
    rw [Nat.zero_add] at hfront
    subst hfront
    exact (standsAt_contents hbs hd).between front back

/-- The numbers of the code fit if and only if the operands of all instructions do. -/
theorem fits_layout (h : y.placed.map (fun xp => xp.1.insn) = is) :
    (y.block code).Fits ↔ ∀ i ∈ is, i.InRange := by
  subst h
  rw [List.forall_mem_map]
  constructor
  · intro hfits xp hxp
    refine Insn.fits_contents.mp fun k c hc => hfits (xp.2 + k) c (List.mem_cons_of_mem _ ?_)
    exact List.mem_flatMap.mpr ⟨xp, hxp, List.mem_map.mpr ⟨(k, c), hc, rfl⟩⟩
  · intro hrange n c hc
    rcases List.mem_cons.mp hc with heq | hc
    · obtain ⟨-, rfl⟩ := Prod.mk.inj heq
      trivial
    · obtain ⟨xp, hxp, hc⟩ := List.mem_flatMap.mp hc
      obtain ⟨⟨k, d⟩, hd, heq⟩ := List.mem_map.mp hc
      obtain ⟨-, rfl⟩ := Prod.mk.inj heq
      exact Insn.fits_contents.mpr (hrange xp hxp) k d hd

/-! ### Tables and attributes -/

section Entries

variable {α : Type} {one : Pool → α → Outcome (List UInt8 × Pool)} {seen : List (List UInt8)}
variable {entries : List α} {blocks : List Block} {out : List UInt8 × Pool} {R : α → Block → Prop}

/-- Entries that are written in order are described one by one. -/
theorem describes_writeAll
    (hone : ∀ p a b out, R a b → one p a = .ok out → b.Describes out.1)
    (hblocks : List.Forall₂ R entries blocks) (h : writeAll one p seen entries = .ok out) :
    ∃ bss : List (List UInt8), out.1 = seen.reverse.flatten ++ bss.flatten ∧
      List.Forall₂ Describes blocks bss := by
  induction hblocks generalizing p seen with
  | nil =>
    obtain rfl := Except.ok.inj h
    exact ⟨[], (List.append_nil _).symm, .nil⟩
  | @cons a b rest blocks hab _ ih =>
    obtain ⟨⟨bytes, p₁⟩, hbytes, h⟩ := Except.bind_eq_ok_iff.mp h
    obtain ⟨bss, hout, hrest⟩ := ih h
    exact ⟨bytes :: bss, by rw [hout]; simp, .cons (hone p a b _ hab hbytes) hrest⟩

/-- A number is described with as many entries behind it. -/
theorem describes_entries
    (hone : ∀ p a b out, R a b → one p a = .ok out → b.Describes out.1)
    (hblocks : List.Forall₂ R entries blocks) (h : writeAll one p [] entries = .ok out) :
    (counted blocks).Describes (bigEndian 2 entries.length ++ out.1) := by
  obtain ⟨bss, hout, hall⟩ := describes_writeAll hone hblocks h
  have hlen : bss.length = entries.length := by rw [← hall.length_eq, hblocks.length_eq]
  rw [hout, ← hlen]
  exact describes_counted hall

theorem forall₂_map_self (entries : List α) (f : α → Block) :
    List.Forall₂ (fun a b => b = f a) entries (entries.map f) :=
  List.forall₂_map_right_iff.mpr (List.forall₂_same.mpr fun _ _ => rfl)

end Entries

theorem describes_tableOf {entry : Pool → Operand → Outcome (List UInt8 × Pool)}
    {entries : List Insn} {out : List UInt8 × Pool} {block : Insn → Block}
    (hone : ∀ p i out, entry p i.operand = .ok out → (block i).Describes out.1)
    (h : tableOf entry p entries = .ok out) :
    (counted (entries.map block)).Describes out.1 := by
  obtain ⟨⟨bytes, p'⟩, hbytes, h⟩ := Except.bind_eq_ok_iff.mp h
  obtain rfl := Except.ok.inj h
  rw [tableEntries_eq] at hbytes
  refine describes_entries (fun p i b out hb hout => ?_) (forall₂_map_self entries block) hbytes
  rw [hb]
  exact hone p i out hout

theorem describes_handlerEntry {i : Insn} {out : List UInt8 × Pool}
    (h : handlerEntry y p i.operand = .ok out) : (raw 8).Describes out.1 := by
  obtain ⟨op, operand⟩ := i
  cases operand with
  | tryCatch start stop handler caught =>
    obtain ⟨b₁, hb₁, h⟩ := Except.bind_eq_ok_iff.mp h
    obtain ⟨b₂, hb₂, h⟩ := Except.bind_eq_ok_iff.mp h
    obtain ⟨b₃, hb₃, h⟩ := Except.bind_eq_ok_iff.mp h
    obtain ⟨n₁, -, rfl⟩ := offset2_eq_ok hb₁
    obtain ⟨n₂, -, rfl⟩ := offset2_eq_ok hb₂
    obtain ⟨n₃, -, rfl⟩ := offset2_eq_ok hb₃
    obtain rfl := Except.ok.inj h
    exact describes_raw (by simp [u2])
  | _ => cases h

theorem describes_lineEntry {i : Insn} {out : List UInt8 × Pool}
    (h : lineEntry y p i.operand = .ok out) : (raw 4).Describes out.1 := by
  obtain ⟨op, operand⟩ := i
  cases operand with
  | line number start =>
    obtain ⟨bs, hbs, h⟩ := Except.bind_eq_ok_iff.mp h
    obtain ⟨n, -, rfl⟩ := offset2_eq_ok hbs
    obtain rfl := Except.ok.inj h
    exact describes_raw (by simp [u2])
  | _ => cases h

theorem describes_localEntry {i : Insn} {out : List UInt8 × Pool}
    (h : localEntry y p i.operand = .ok out) : (spanBlock y i).Describes out.1 := by
  obtain ⟨op, operand⟩ := i
  cases operand with
  | localVariable name desc start stop index =>
    obtain ⟨n₁, hn₁, h⟩ := Except.bind_eq_ok_iff.mp h
    obtain ⟨n₂, hn₂, h⟩ := Except.bind_eq_ok_iff.mp h
    have hout : out = (bigEndian 2 n₁ ++ signedBigEndian 2 ((n₂ : Int) - n₁) ++
        u2 (p.addText name).1 ++ u2 ((p.addText name).2.addText desc).1 ++ u2 index,
        ((p.addText name).2.addText desc).2) := (Except.ok.inj h).symm
    have hblock : spanBlock y ⟨op, .localVariable name desc start stop index⟩ =
        raw 2 ++ of (.unsigned 2 (n₂ - n₁)) ++ raw 6 := by
      rw [← (offset_eq_ok hn₁).2.2, ← (offset_eq_ok hn₂).2.2]
      rfl
    rw [hout, hblock, List.append_assoc, List.append_assoc (_ ++ _)]
    refine ((describes_raw (length_bigEndian 2 n₁)).append (describes_unsigned 2 _)).append ?_
    exact describes_raw (by simp [u2])
  | _ => cases h

/-- The block describes the data of an attribute behind the six bytes in front of it. -/
def Suits (a : Attribute) (b : Block) : Prop :=
  ∀ head : List UInt8, head.length = 6 → b.Describes (head ++ a.data)

theorem suits_attributeBlock (a : Attribute) : Suits a (attributeBlock a) := fun head hhead =>
  describes_raw (by rw [List.length_append, hhead])

theorem forall₂_suits (as : List Attribute) : List.Forall₂ Suits as (as.map attributeBlock) :=
  List.forall₂_map_right_iff.mpr (List.forall₂_same.mpr fun a _ => suits_attributeBlock a)

theorem describes_writeAttributes {as : List Attribute} {blocks : List Block}
    (h : List.Forall₂ Suits as blocks) (p : Pool) :
    (counted blocks).Describes (writeAttributes p as).1 := by
  refine describes_entries (fun p a b out hab hout => ?_) h (attributeBytes_eq p [] as)
  obtain rfl := Except.ok.inj hout
  exact hab _ (by simp [u2])

theorem suits_tableAttribute {name : Text} {entry : Pool → Operand → Outcome (List UInt8 × Pool)}
    {entries : List Insn} {out : List Attribute × Pool} {block : Insn → Block}
    (hone : ∀ p i out, entry p i.operand = .ok out → (block i).Describes out.1)
    (h : tableAttribute name entry p entries = .ok out) :
    List.Forall₂ Suits out.1 (tableBlocks block entries) := by
  unfold tableBlocks
  unfold tableAttribute at h
  split at h
  · next hempty =>
    obtain rfl := Except.ok.inj h
    rw [if_pos hempty]
    exact .nil
  · next hempty =>
    obtain ⟨⟨data, p'⟩, hdata, h⟩ := Except.bind_eq_ok_iff.mp h
    obtain rfl := Except.ok.inj h
    rw [if_neg hempty]
    exact .cons (fun head hhead => (describes_raw hhead).append (describes_tableOf hone hdata)) .nil

/-! ### Code attributes -/

/-- The data of a code attribute is described by the block of its draft. -/
theorem Draft.Of.describes {m : Method} {l : Listing} {d : Draft} (hl : l.WellFormed)
    (hd : d.Of p l) : (Code.block m l d.layout d.code).Describes (d.out m).1 := by
  have hcode := describes_layout (hd.emits hl)
  have hhandlers := describes_tableOf (fun _ _ _ => describes_handlerEntry) hd.handlersOf
  have hlines := suits_tableAttribute (fun _ _ _ => describes_lineEntry) hd.linesOf
  have hlocals := suits_tableAttribute (fun _ _ _ => describes_localEntry) hd.localsOf
  have hattributes := describes_writeAttributes
    (List.rel_append (List.rel_append hlines hlocals) (forall₂_suits m.codeAttributes)) d.last
  have hhead : (raw 8).Describes (u2 m.maxStack ++ u2 m.maxLocals ++ bigEndian 4 d.layout.size) :=
    describes_raw (by simp [u2])
  exact ((hhead.append hcode).append hhandlers).append hattributes

end Parts

/-! ### Lengths of local variables -/

/-- Labels have their offsets in the order of their positions. -/
theorem Layout.Lists.at_le_iff {p : Pool} {is : List Insn} {y : Layout} (h : y.Lists p is)
    {l l' : Label} (hl : l ∈ is.filterMap Insn.placed?) (hl' : l' ∈ is.filterMap Insn.placed?) :
    y.at l ≤ y.at l' ↔ position is l ≤ position is l' := by
  rw [← h.rank_at hl [], ← h.rank_at hl' []]
  constructor
  · intro hle
    refine Int.ofNat_le.mpr (List.countP_mono_left fun e _ hlt => ?_)
    exact decide_eq_true (Int.lt_of_lt_of_le (of_decide_eq_true hlt) hle)
  · intro hrank
    by_contra hlt
    have hlt := Int.not_le.mp hlt
    rcases h.boundary_at hl' [] with hsize | ⟨e, he, heq⟩
    · obtain ⟨xs, ys, x, n, hsplit, -, hat, -⟩ := h.split hl
      have hmem : (x, n) ∈ y.placed := hsplit ▸ List.mem_append_right _ List.mem_cons_self
      have hbounds := (h.laid.bounds hmem).2
      have hsize : y.at l' = y.size := hsize
      omega
    · -- the instruction at the one offset is in front of the other offset only
      have heq : y.at l' = (e.1 : Int) := heq
      obtain ⟨xs, ys, hsplit⟩ := List.append_of_mem he
      have hmono : ∀ zs : List (Nat × Insn), zs.countP (fun d => decide ((d.1 : Int) < y.at l')) ≤
          zs.countP (fun d => decide ((d.1 : Int) < y.at l)) := fun zs =>
        List.countP_mono_left fun d _ hd => decide_eq_true
          (Int.lt_trans (of_decide_eq_true hd) hlt)
      have hxs := hmono xs
      have hys := hmono ys
      have hfront : decide ((e.1 : Int) < y.at l) = true := decide_eq_true (by omega)
      have hback : ¬decide ((e.1 : Int) < y.at l') = true := by
        rw [decide_eq_true_eq]
        omega
      have hsum := Int.ofNat_le.mp hrank
      rw [hsplit, List.countP_append, List.countP_append, List.countP_cons, List.countP_cons,
        if_pos hfront, if_neg hback] at hsum
      omega

/-! ### Numbers of a code attribute -/

section Fitting

variable {p : Pool} {l : Listing} {d : Draft}

theorem fits_attributes (as : List Attribute) : ∀ b ∈ as.map attributeBlock, b.Fits := by
  rw [List.forall_mem_map]
  exact fun _ _ => fits_raw _

theorem length_tableBlocks (entry : Insn → Block) (entries : List Insn) :
    (tableBlocks entry entries).length = if entries.isEmpty then 0 else 1 := by
  unfold tableBlocks
  split <;> rfl

theorem fits_tableBlocks {entry : Insn → Block} {entries : List Insn} :
    (∀ b ∈ tableBlocks entry entries, b.Fits) ↔
      entries.length ≤ 65535 ∧ ∀ i ∈ entries, (entry i).Fits := by
  unfold tableBlocks
  split
  · next hempty =>
    obtain rfl := List.isEmpty_iff.mp hempty
    exact ⟨fun _ => ⟨Nat.zero_le _, fun _ hi => (nomatch hi)⟩, fun _ _ hb => (nomatch hb)⟩
  · rw [List.forall_mem_singleton, fits_append, fits_counted, List.length_map, List.forall_mem_map]
    exact and_iff_right (fits_raw 6)

/-- An entry of the local variable table fits if it does not stop in front of its start. -/
theorem Draft.Of.fits_spanBlock (hl : l.WellFormed) (hd : d.Of p l) {i : Insn} (hi : i ∈ l.insns) :
    (spanBlock d.layout i).Fits ↔ i.Forward l.insns := by
  obtain ⟨hlists, hshort, -⟩ := hd.settles hl
  have hplaced : ∀ k ∈ i.labels, k ∈ l.insns.filterMap Insn.placed? := fun k hk =>
    hl.mem_placed_of_resolve hd.resolved hi hk
  obtain ⟨op, operand⟩ := i
  cases operand with
  | localVariable name desc start stop index =>
    have hstart := hplaced start List.mem_cons_self
    have hstop := hplaced stop (List.mem_cons_of_mem _ List.mem_cons_self)
    -- offsets are below 65536, so a length only fails to fit by being negative
    have hbound : ∀ k ∈ l.insns.filterMap Insn.placed?,
        0 ≤ d.layout.at k ∧ d.layout.at k < 65536 := by
      intro k hk
      obtain ⟨xs, ys, x, n, hsplit, hp, hat, -⟩ := hlists.split hk
      have hmem : (x, n) ∈ d.layout.placed := hsplit ▸ List.mem_append_right _ List.mem_cons_self
      have hlt := hshort k n (hlists.offset_eq hmem hp)
      omega
    have hlow := hbound start hstart
    have hhigh := hbound stop hstop
    have hblock : (spanBlock d.layout ⟨op, .localVariable name desc start stop index⟩).Fits ↔
        d.layout.at start ≤ d.layout.at stop := by
      change (raw 2 ++ of (.unsigned 2 (d.layout.at stop - d.layout.at start)) ++ raw 6).Fits ↔ _
      rw [fits_append, fits_append, fits_of, Content.Fits]
      refine ⟨fun h => ?_, fun h => ⟨⟨fits_raw 2, ?_, ?_⟩, fits_raw 6⟩⟩
      · have := h.1.2.1
        omega
      all_goals omega
    exact hblock.trans (hlists.at_le_iff hstart hstop)
  | _ => exact iff_of_true (fits_raw 10) trivial

/-- The numbers of a code attribute fit if and only if its tables can be counted, its operands are
in range and its local variables go forward. -/
theorem Draft.Of.fits_block {m : Method} (hl : l.WellFormed) (hd : d.Of p l) :
    (Code.block m l d.layout d.code).Fits ↔
      (l.TablesFit ∧ l.tableCount + m.codeAttributes.length ≤ 65535) ∧
        (∀ i ∈ l.insns, i.InRange) ∧
        ∀ i ∈ entriesUnder .localVariable l.insns, i.Forward l.insns := by
  have hspans : (∀ i ∈ entriesUnder .localVariable l.insns, (spanBlock d.layout i).Fits) ↔
      ∀ i ∈ entriesUnder .localVariable l.insns, i.Forward l.insns :=
    forall₂_congr fun i hi => hd.fits_spanBlock hl (List.mem_filter.mp hi).1
  have hhandlers : (counted ((entriesUnder .tryCatch l.insns).map fun _ => raw 8)).Fits ↔
      (entriesUnder .tryCatch l.insns).length ≤ 65535 := by
    rw [fits_counted, List.length_map, List.forall_mem_map]
    exact and_iff_left fun _ _ => fits_raw 8
  rw [Code.block, fits_append, fits_append, fits_append, fits_layout (hd.emits hl).insns, hhandlers,
    fits_counted, List.length_append, List.length_append, length_tableBlocks, length_tableBlocks,
    List.length_map, List.forall_mem_append, List.forall_mem_append, fits_tableBlocks,
    fits_tableBlocks, hspans]
  constructor
  · rintro ⟨⟨⟨-, hinsns⟩, hhandlers⟩, hcount, ⟨⟨hlines, -⟩, hlocals, hforward⟩, -⟩
    exact ⟨⟨⟨hhandlers, hlines, hlocals⟩, hcount⟩, hinsns, hforward⟩
  · rintro ⟨⟨htables, hcount⟩, hinsns, hforward⟩
    exact ⟨⟨⟨fits_raw 8, hinsns⟩, htables.handlers⟩, hcount,
      ⟨⟨htables.lines, fun _ _ => fits_raw 4⟩, htables.locals, hforward⟩, fits_attributes _⟩

end Fitting

end Code

/-! ### Numbers of a class file -/

namespace ClassFile

open Code Block

/-- A layout and bytes of the code of a method, if it has any. -/
abbrev Part := Option (Layout × List UInt8)

/-- The part is the layout of the code of a method, with the bytes that are where it puts them. -/
def Coded (m : Method) (part : Part) : Prop :=
  match m.code with
  | none => part = none
  | some l => ∃ p y code, part = some (y, code) ∧ y.Emits p l.insns code

/-- The attribute and the part that a draft makes of the code of a method. -/
def Drawn (m : Method) (k : List Attribute × Part) : Prop :=
  match m.code with
  | none => k = ([], none)
  | some l => ∃ (p : Pool) (d : Draft), d.Of p l ∧
      k = ([⟨Attribute.code, (d.out m).1⟩], some (d.layout, d.code))

section Drafts

variable {p : Pool} {m : Method} {k : List Attribute × Part} {ms : List Method}
variable {ks : List (List Attribute × Part)}

theorem Codes.drawn {q : Pool} {codes : List (List Attribute)} (h : Codes p ms codes q) :
    ∃ ks : List (List Attribute × Part), codes = ks.map Prod.fst ∧ List.Forall₂ Drawn ms ks := by
  induction h with
  | nil p => exact ⟨[], rfl, .nil⟩
  | bare hcode _ ih =>
    obtain ⟨ks, rfl, hks⟩ := ih
    refine ⟨([], none) :: ks, rfl, .cons ?_ hks⟩
    rw [Drawn, hcode]
  | code hcode hwrite _ ih =>
    obtain ⟨d, hd, hout⟩ := write_eq_ok_iff.mp hwrite
    obtain ⟨ks, rfl, hks⟩ := ih
    refine ⟨(_, some (d.layout, d.code)) :: ks, rfl, .cons ?_ hks⟩
    rw [Drawn, hcode]
    exact ⟨_, d, hd, by rw [← hout]⟩

theorem Drawn.coded (h : Drawn m k) (hl : ∀ l, m.code = some l → l.WellFormed) :
    Coded m k.2 := by
  unfold Drawn at h
  unfold Coded
  split at h
  · rw [h]
  · next l hcode =>
    obtain ⟨p, d, hd, rfl⟩ := h
    exact ⟨d.coded, d.layout, d.code, rfl, hd.emits (hl l hcode)⟩

/-- What is written for a member is described by its blocks. -/
theorem describes_memberBytes {as : List Attribute} {blocks : List Block}
    (h : List.Forall₂ Suits as blocks) (access : UInt16) (name desc : Text) :
    (memberBlock blocks).Describes (memberBytes p access name desc as).1 := by
  have hhead : (raw 6).Describes (u2 access ++ u2 (p.addText name).1 ++
      u2 ((p.addText name).2.addText desc).1) := describes_raw (by simp [u2])
  exact hhead.append (describes_writeAttributes h _)

theorem Drawn.describes (h : Drawn m k) (hl : ∀ l, m.code = some l → l.WellFormed) :
    (m.block k.2).Describes (memberBytes p m.access m.name m.desc (k.1 ++ m.attributes)).1 := by
  unfold Drawn at h
  unfold Method.block
  split at h
  · next hcode =>
    subst h
    rw [hcode]
    exact describes_memberBytes (forall₂_suits m.attributes) ..
  · next l hcode =>
    obtain ⟨p, d, hd, rfl⟩ := h
    rw [hcode]
    refine describes_memberBytes (.cons (fun head hhead => ?_) (forall₂_suits m.attributes)) ..
    exact (describes_raw hhead).append (hd.describes (hl l hcode))

/-- The numbers of a method fit if and only if its attributes and those of its code do. -/
theorem Drawn.fits_block (h : Drawn m k) (hl : ∀ l, m.code = some l → l.WellFormed) :
    (m.block k.2).Fits ↔ m.Fits ∧ ∀ l, m.code = some l → (∀ i ∈ l.insns, i.InRange) ∧
      ∀ i ∈ entriesUnder .localVariable l.insns, i.Forward l.insns := by
  unfold Drawn at h
  unfold Method.block memberBlock
  rw [fits_append, fits_counted, List.length_append, List.length_map, List.forall_mem_append,
    and_iff_right (fits_raw 6), and_iff_left (fits_attributes m.attributes)]
  split at h
  · -- without code there is nothing to fit but the attributes of the method
    next hcode =>
    subst h
    rw [hcode]
    constructor
    · rintro ⟨hcount, -⟩
      refine ⟨⟨fun l hl => ?_, by rw [hcode]; exact hcount⟩, nofun⟩
      rw [hcode] at hl
      cases hl
    · rintro ⟨hfits, -⟩
      have hcount := hfits.attributes
      rw [hcode] at hcount
      exact ⟨hcount, nofun⟩
  · next l hcode =>
    obtain ⟨p, d, hd, rfl⟩ := h
    have hblock := hd.fits_block (hl l hcode) (m := m)
    rw [hcode]
    dsimp only
    rw [List.forall_mem_singleton, fits_append, and_iff_right (fits_raw 6), hblock]
    constructor
    · rintro ⟨hcount, htables, hinsns⟩
      refine ⟨⟨fun l' hl' => ?_, by rw [hcode]; exact hcount⟩, fun l' hl' => ?_⟩
      · rw [hcode] at hl'
        obtain rfl := Option.some.inj hl'
        exact htables
      · obtain rfl := Option.some.inj hl'
        exact hinsns
    · rintro ⟨hfits, hinsns⟩
      have hcount := hfits.attributes
      rw [hcode] at hcount
      exact ⟨hcount, hfits.tables l hcode, hinsns l rfl⟩

/-- The methods of a class with the parts that were drawn for them. -/
theorem fits_methods (h : List.Forall₂ Drawn ms ks)
    (hl : ∀ m ∈ ms, ∀ l, m.code = some l → l.WellFormed) :
    (∀ b ∈ List.zipWith Method.block ms (ks.map Prod.snd), b.Fits) ↔
      ∀ m ∈ ms, m.Fits ∧ ∀ l, m.code = some l → (∀ i ∈ l.insns, i.InRange) ∧
        ∀ i ∈ entriesUnder .localVariable l.insns, i.Forward l.insns := by
  induction h with
  | nil => exact ⟨fun _ _ hm => (nomatch hm), fun _ _ hb => (nomatch hb)⟩
  | @cons m k ms ks hk _ ih =>
    obtain ⟨hm, hms⟩ := List.forall_mem_cons.mp hl
    rw [List.map_cons, List.zipWith_cons_cons, List.forall_mem_cons, List.forall_mem_cons,
      hk.fits_block hm, ih hms]

/-- Methods are described by their blocks. -/
theorem forall₂_drawn (h : List.Forall₂ Drawn ms ks)
    (hl : ∀ m ∈ ms, ∀ l, m.code = some l → l.WellFormed) :
    List.Forall₂ (fun (k : Method × List Attribute) b => ∀ p : Pool, b.Describes
        (memberBytes p k.1.access k.1.name k.1.desc (k.2 ++ k.1.attributes)).1)
      (ms.zip (ks.map Prod.fst)) (List.zipWith Method.block ms (ks.map Prod.snd)) := by
  induction h with
  | nil => exact .nil
  | cons hk _ ih =>
    obtain ⟨hm, hms⟩ := List.forall_mem_cons.mp hl
    exact .cons (fun _ => hk.describes hm) (ih hms)

theorem forall₂_coded (h : List.Forall₂ Drawn ms ks)
    (hl : ∀ m ∈ ms, ∀ l, m.code = some l → l.WellFormed) :
    List.Forall₂ Coded ms (ks.map Prod.snd) := by
  induction h with
  | nil => exact .nil
  | cons hk _ ih =>
    obtain ⟨hm, hms⟩ := List.forall_mem_cons.mp hl
    exact .cons (hk.coded hm) (ih hms)

end Drafts

variable {c : ClassFile} {ks : List (List Attribute × Part)}

/-- The numbers of a class fit if and only if it is representable. -/
theorem fits_block (h : List.Forall₂ Drawn c.methods ks)
    (hl : ∀ m ∈ c.methods, ∀ l, m.code = some l → l.WellFormed) (poolSize : Nat) :
    (c.block poolSize (ks.map Prod.snd)).Fits ↔ c.Representable := by
  have hlen : (List.zipWith Method.block c.methods (ks.map Prod.snd)).length =
      c.methods.length := by
    rw [List.length_zipWith, List.length_map, ← h.length_eq, Nat.min_self]
  have hinterfaces : (counted (c.interfaces.map fun _ => raw 2)).Fits ↔
      c.interfaces.length ≤ 65535 := by
    rw [fits_counted, List.length_map, List.forall_mem_map]
    exact and_iff_left fun _ _ => fits_raw 2
  have hfield : ∀ f : Field, (memberBlock (f.attributes.map attributeBlock)).Fits ↔
      f.attributes.length ≤ 65535 := by
    intro f
    rw [memberBlock, fits_append, fits_counted, List.length_map, and_iff_right (fits_raw 6),
      and_iff_left (fits_attributes f.attributes)]
  rw [block, fits_append, fits_append, fits_append, fits_append, and_iff_right (fits_raw _),
    hinterfaces, fits_counted, List.length_map, List.forall_mem_map, fits_counted, hlen,
    fits_methods h hl, fits_counted, List.length_map, and_iff_left (fits_attributes c.attributes)]
  simp only [hfield]
  constructor
  · rintro ⟨⟨⟨hinterfaces, hfields, hfieldAttributes⟩, hmethods, hall⟩, hattributes⟩
    exact ⟨hinterfaces, hfields, hfieldAttributes, hmethods, fun m hm => (hall m hm).1, hattributes,
      fun m hm l hcode => ((hall m hm).2 l hcode).1, fun m hm l hcode => ((hall m hm).2 l hcode).2⟩
  · intro hr
    exact ⟨⟨⟨hr.interfaces, hr.fields, hr.fieldAttributes⟩, hr.methods, fun m hm =>
      ⟨hr.method m hm, fun l hcode => ⟨hr.insns m hm l hcode, hr.spans m hm l hcode⟩⟩⟩,
      hr.attributes⟩

theorem describes_interfaces (names : List Text) (p : Pool) :
    (counted (names.map fun _ => raw 2)).Describes
      (bigEndian 2 names.length ++ (classIndices p [] names).1) := by
  refine describes_entries (fun p name b out hb hout => ?_) (forall₂_map_self _ _)
    (classIndices_eq p [] _)
  obtain rfl := Except.ok.inj hout
  rw [hb]
  exact describes_raw (by simp [u2])

theorem describes_fields (fs : List Field) (p : Pool) :
    (counted (fs.map fun f => memberBlock (f.attributes.map attributeBlock))).Describes
      (bigEndian 2 fs.length ++ (fieldBytes p [] fs).1) := by
  refine describes_entries (fun p f b out hb hout => ?_) (forall₂_map_self _ _)
    (fieldBytes_eq p [] _)
  obtain rfl := Except.ok.inj hout
  rw [hb]
  exact describes_memberBytes (forall₂_suits f.attributes) ..

theorem describes_methods (h : List.Forall₂ Drawn ms ks)
    (hl : ∀ m ∈ ms, ∀ l, m.code = some l → l.WellFormed) (p : Pool) :
    (counted (List.zipWith Method.block ms (ks.map Prod.snd))).Describes
      (bigEndian 2 ms.length ++ (methodBytes p [] (ms.zip (ks.map Prod.fst))).1) := by
  have hzip : (ms.zip (ks.map Prod.fst)).length = ms.length := by
    rw [List.length_zip, List.length_map, ← h.length_eq, Nat.min_self]
  rw [← hzip]
  refine describes_entries (fun p k b out hb hout => ?_) (forall₂_drawn h hl)
    (methodBytes_eq p [] _)
  obtain rfl := Except.ok.inj hout
  exact hb p

/-- What is written behind the pool and in front of it is described by the block of the class. -/
theorem describes_framed (h : List.Forall₂ Drawn c.methods ks)
    (hl : ∀ m ∈ c.methods, ∀ l, m.code = some l → l.WellFormed) (p : Pool) (front : List UInt8) :
    (c.block front.length (ks.map Prod.snd)).Describes
      (bigEndian 4 magic.toNat ++ u2 c.minor ++ u2 c.major ++ front ++
        (c.framed (ks.map Prod.fst) p).1) := by
  unfold framed
  dsimp only
  generalize p.addClass c.name = this
  generalize addNamed this.2 c.super = super
  have hhead : (raw (14 + front.length)).Describes (bigEndian 4 magic.toNat ++ u2 c.minor ++
      u2 c.major ++ front ++ (u2 c.access ++ u2 this.1 ++ u2 super.1)) :=
    describes_raw (by simp [u2]; omega)
  -- the pools differ from part to part, but the blocks do not depend on them
  have hall := fun p₁ p₂ p₃ => (((hhead.append (describes_interfaces c.interfaces super.2)).append
    (describes_fields c.fields p₁)).append (describes_methods h hl p₂)).append
      (describes_writeAttributes (forall₂_suits c.attributes) p₃)
  simp only [List.append_assoc] at hall ⊢
  exact hall _ _ _

/-- **Files show what fits.** The file of a class has a place for every count, for every length of a
local variable, and for the operands of `bipush`, `sipush`, `newarray` and `invokeinterface`. What
is read there are the numbers of the class if and only if the class is representable. -/
theorem encode_describes {c' : ClassFile} {data : List UInt8}
    (hbuilt : ∀ m ∈ c.methods, ∀ l, m.code = some l → l.Built)
    (h : c.encode = .ok (data, c')) :
    ∃ q pool parts, c' = { c with pool := some q } ∧ q.write = .ok pool ∧
      List.Forall₂ Coded c.methods parts ∧
      (c.block pool.length parts).Describes data ∧
      ((∀ n d, (n, d) ∈ (c.block pool.length parts).contents → d.ReadAt data n) ↔
        c.Representable) := by
  have hl : ∀ m ∈ c.methods, ∀ l, m.code = some l → l.WellFormed := fun m hm l hcode =>
    (hbuilt m hm l hcode).wellFormed
  obtain ⟨codes, p, pool, hcodes, hwrite, hout⟩ := encode_eq_ok_iff.mp h
  obtain ⟨rfl, rfl⟩ := Prod.mk.inj hout
  obtain ⟨ks, rfl, hdrawn⟩ := (methodCodes_eq_ok_iff.mp hcodes).drawn
  have hdescribes := describes_framed hdrawn hl p pool
  exact ⟨_, pool, ks.map Prod.snd, rfl, hwrite, forall₂_coded hdrawn hl, hdescribes,
    hdescribes.read_iff.trans (fits_block hdrawn hl pool.length)⟩

/-! ### A class that shows all numbers -/

theorem representable_spinning : spinning.Representable := by
  have hinsns : ∀ i ∈ (spin.code.getD .empty).insns, i.InRange ∧ i.opcode ≠ .localVariable := by
    change ∀ i ∈ [_, _, _, _], _
    simp only [List.forall_mem_cons]
    exact ⟨⟨trivial, by decide⟩, ⟨trivial, by decide⟩, ⟨trivial, by decide⟩, ⟨trivial, by decide⟩,
      nofun⟩
  refine ⟨by decide, by decide, nofun, by decide, fits_spinning.method, by decide, ?_, ?_⟩
  all_goals
    intro m hm l hl i hi
    obtain rfl := List.mem_singleton.mp hm
    obtain rfl := Option.some.inj hl
  · exact (hinsns i hi).1
  · obtain ⟨hmem, hop⟩ := List.mem_filter.mp hi
    exact absurd (of_decide_eq_true hop) (hinsns i hmem).2

theorem encode_describes_spinning :
    (∀ m ∈ spinning.methods, ∀ l, m.code = some l → l.Built) ∧
      spinning.encode = .ok (spinningFile, spinning) ∧ spinning.Representable ∧
      ∃ q pool parts, spinning = { spinning with pool := some q } ∧ q.write = .ok pool ∧
        List.Forall₂ Coded spinning.methods parts ∧
        (spinning.block pool.length parts).Describes spinningFile ∧
        ((∀ n d, (n, d) ∈ (spinning.block pool.length parts).contents → d.ReadAt spinningFile n) ↔
          spinning.Representable) := by
  have hbuilt : ∀ m ∈ spinning.methods, ∀ l, m.code = some l → l.Built := by
    intro m hm l hl
    obtain rfl := List.mem_singleton.mp hm
    obtain rfl := Option.some.inj hl
    exact .ofInsns _ _
  exact ⟨hbuilt, encode_spinning, representable_spinning, encode_describes hbuilt encode_spinning⟩

/-! ### A number that is cut off -/

/-- A method that pushes a number that does not fit the byte behind `bipush`. -/
def narrow : Method where
  access := 9
  name := "f"
  desc := "()V"
  code := some (.ofInsns 0 [⟨.bipush, .int 300⟩, .plain .pop, .plain .voidReturn])
  maxStack := 1

/-- The code attribute of the method. -/
def narrowData : List UInt8 := [0, 1, 0, 0, 0, 0, 0, 4, 0x10, 44, 0x57, 0xB1, 0, 0, 0, 0]

/-- The file of a class with the method. -/
def narrowFile : List UInt8 :=
  spinningFile.take 51 ++ [0, 9, 0, 3, 0, 4, 0, 1, 0, 5, 0, 0, 0, 16] ++ narrowData ++ [0, 0]

theorem write_narrow : ∃ l, narrow.code = some l ∧ l.Built ∧
    l.insns = [⟨.bipush, .int 300⟩, .plain .pop, .plain .voidReturn] ∧
    Code.write spinningPool narrow l = .ok (narrowData, spinningPool) :=
  ⟨_, rfl, .ofInsns _ _, rfl, by rfl⟩

/-- A `bipush` of 300 is written without a fault, as one of 44. -/
theorem narrow_astray : ∃ c : ClassFile,
    (∀ m ∈ c.methods, ∀ l, m.code = some l → l.Built) ∧
      (∃ m ∈ c.methods, ∃ l, m.code = some l ∧
        l.insns = [⟨.bipush, .int 300⟩, .plain .pop, .plain .voidReturn]) ∧
      c.encode = .ok (narrowFile, c) ∧
      (narrowFile.drop 73).take 4 = [0x10, 44, 0x57, 0xB1] ∧
      signedAt narrowFile 1 74 = 44 ∧ ¬c.Representable := by
  obtain ⟨l, hcode, hbuilt, hinsns, hwrite⟩ := write_narrow
  have hencode := encode_single hcode rfl rfl rfl hwrite
  refine ⟨{ spinning with methods := [narrow] }, ?_, ⟨narrow, List.mem_singleton_self _, l, hcode,
    hinsns⟩, hencode, by decide +kernel, by decide +kernel, fun hr => ?_⟩
  · intro m hm k hk
    obtain rfl := List.mem_singleton.mp hm
    obtain rfl := Option.some.inj (hcode.symm.trans hk)
    exact hbuilt
  · have hrange := hr.insns narrow (List.mem_singleton_self _) l hcode ⟨.bipush, .int 300⟩
      (hinsns ▸ List.mem_cons_self)
    exact absurd (hrange.1 rfl).2 (by decide)

end ClassFile

end ClassWeaver
