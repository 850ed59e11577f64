import ClassWeaver.Proofs.Codec.Covers
import ClassWeaver.Proofs.Codec.Rounds

/-!
# Bytes where the layout puts them

The sizes of instructions are computed before any byte is written, and the bytes are written by
another function. `Layout.Emits` says that the two fit: the bytes of each instruction begin at the
offset that was computed for it and are as many as were computed, a label has the offset of the
instruction behind it, and a displacement that is read from the bytes leads exactly to the offset
of its label. None of this depends on whether opcodes and operands fit.

The main result is `write_emits`. It says besides that the layout is found in a number of rounds
that is bounded by the number of jumps that are always taken.
-/

namespace ClassWeaver

/-! ### Numbers among other bytes -/

/-- The integer is written in so many bytes at a place. -/
def WrittenAt (bs : List UInt8) (place width : Nat) (z : Int) : Prop :=
  ∃ front back, bs = front ++ (signedBigEndian width z ++ back) ∧ front.length = place

theorem WrittenAt.between {bs : List UInt8} {place width : Nat} {z : Int}
    (h : WrittenAt bs place width z) (front back : List UInt8) :
    WrittenAt (front ++ (bs ++ back)) (front.length + place) width z := by
  obtain ⟨before, after, rfl, rfl⟩ := h
  exact ⟨front ++ before, after ++ back, by simp, List.length_append⟩

theorem numberAt_middle (front bs back : List UInt8) :
    numberAt (front ++ (bs ++ back)) bs.length front.length = ofBigEndian bs := by
  rw [numberAt, List.drop_left, List.take_left]

/-- An integer in two's complement is read as what it is if it fits. -/
theorem WrittenAt.signedAt {bs : List UInt8} {place width : Nat} {z : Int}
    (h : WrittenAt bs place width z) (hlow : -(256 ^ width : Nat) ≤ 2 * z)
    (hhigh : 2 * z < (256 ^ width : Nat)) : signedAt bs width place = z := by
  obtain ⟨front, back, rfl, rfl⟩ := h
  have hnumber := numberAt_middle front (signedBigEndian width z) back
  rw [length_signedBigEndian, ofBigEndian_signed] at hnumber
  have hpos : (0 : Int) ≤ z % (256 ^ width : Nat) :=
    Int.emod_nonneg _ (Int.natCast_ne_zero.mpr (Nat.pow_pos (by decide)).ne')
  rw [ClassWeaver.signedAt, hnumber, Int.toNat_of_nonneg hpos, Int.emod_bmod]
  exact Int.bmod_eq_of_le (by omega) (by omega)

/-- Parts of one width: the one with number `k` begins behind `k` widths. -/
theorem exists_part {α : Type} {P : List UInt8 → α → Prop} {bss : List (List UInt8)} {as : List α}
    {width k : Nat} {a : α} (h : List.Forall₂ (fun bs a => bs.length = width ∧ P bs a) bss as)
    (hk : as[k]? = some a) :
    ∃ front bs back, bss.flatten = front ++ (bs ++ back) ∧ front.length = width * k ∧ P bs a := by
  induction h generalizing k with
  | nil => cases hk
  | @cons bs b bss as hb _ ih =>
    cases k with
    | zero =>
      obtain rfl : b = a := Option.some.inj hk
      exact ⟨[], bs, bss.flatten, rfl, rfl, hb.2⟩
    | succ k =>
      obtain ⟨front, part, back, heq, hlen, hP⟩ := ih hk
      refine ⟨bs ++ front, part, back, ?_, ?_, hP⟩
      · rw [List.flatten_cons, heq, List.append_assoc]
      · rw [List.length_append, hb.1, hlen, Nat.mul_succ, Nat.add_comm]

namespace Code

/-! ### As many bytes as were computed -/

section Lengths

variable {p : Pool} {y : Layout} {x : Item} {pc n : Nat} {l : Label} {bs : List UInt8}

/-- The displacements of targets are written one by one. -/
theorem targetBytes_eq_ok {seen deltas : List (List UInt8)} {targets : List Label}
    (h : targetBytes y pc seen targets = .ok deltas) :
    ∃ new, deltas = seen.reverse ++ new ∧ List.Forall₂ (fun bs l => bs.length = 4 ∧
      ∃ delta, y.displacement pc l = .ok delta ∧ bs = signedBigEndian 4 delta) new targets := by
  induction targets generalizing seen with
  | nil =>
    obtain rfl := Except.ok.inj h
    exact ⟨[], (List.append_nil _).symm, .nil⟩
  | cons l rest ih =>
    obtain ⟨delta, hdelta, h⟩ := Except.bind_eq_ok_iff.mp h
    obtain ⟨new, rfl, hnew⟩ := ih h
    refine ⟨signedBigEndian 4 delta :: new, by simp, .cons ⟨?_, delta, hdelta, rfl⟩ hnew⟩
    exact length_signedBigEndian 4 delta

/-- A switch is its opcode and padding, the default, a gap, and the cases, whose displacements are
last in each. -/
def SwitchBytes (y : Layout) (pc : Nat) (dflt : Label) (targets : List Label) (gap width : Nat)
    (bs : List UInt8) : Prop :=
  ∃ head delta middle cases,
    bs = head ++ (signedBigEndian 4 delta ++ (middle ++ List.flatten cases)) ∧
      head.length = 1 + switchPadding pc ∧ y.displacement pc dflt = .ok delta ∧
      middle.length = gap ∧ List.Forall₂ (fun bs l => bs.length = width ∧
        ∃ delta, y.displacement pc l = .ok delta ∧ WrittenAt bs (width - 4) 4 delta) cases targets

theorem switchBytes_of_table {op : Opcode} {low high : Int32} {targets : List Label}
    (h : tableBytes y op pc low high l targets = .ok bs) : SwitchBytes y pc l targets 8 4 bs := by
  unfold tableBytes at h
  split at h
  · cases h
  · obtain ⟨head, hhead, h⟩ := Except.bind_eq_ok_iff.mp h
    obtain ⟨deltas, hdeltas, h⟩ := Except.bind_eq_ok_iff.mp h
    obtain ⟨delta, hdelta, hhead⟩ := Except.bind_eq_ok_iff.mp hhead
    obtain rfl := Except.ok.inj hhead
    obtain rfl := Except.ok.inj h
    obtain ⟨new, hnew, hall⟩ := targetBytes_eq_ok hdeltas
    obtain rfl : deltas = new := hnew
    refine ⟨opcodeByte op :: List.replicate (switchPadding pc) 0, delta,
      signedBigEndian 4 low.toInt ++ signedBigEndian 4 high.toInt, deltas, ?_, ?_, hdelta, ?_,
      hall.imp ?_⟩
    · simp only [List.append_assoc]
    · rw [List.length_cons, List.length_replicate, Nat.add_comm]
    · simp
    · rintro part k ⟨hlen, z, hz, rfl⟩
      exact ⟨hlen, z, hz, [], [], by simp, rfl⟩

/-- Keys and displacements stand in pairs. -/
theorem forall₂_cases {keys : List Int32} {deltas : List (List UInt8)} {targets : List Label}
    (hkeys : keys.length = targets.length)
    (h : List.Forall₂ (fun bs l => bs.length = 4 ∧
      ∃ delta, y.displacement pc l = .ok delta ∧ bs = signedBigEndian 4 delta) deltas targets) :
    List.Forall₂ (fun bs l => bs.length = 8 ∧
        ∃ delta, y.displacement pc l = .ok delta ∧ WrittenAt bs (8 - 4) 4 delta)
      ((keys.zip deltas).map fun (k, delta) => signedBigEndian 4 k.toInt ++ delta) targets := by
  induction h generalizing keys with
  | nil =>
    rw [List.zip_nil_right]
    exact .nil
  | cons hd _ ih =>
    obtain ⟨-, delta, hdelta, rfl⟩ := hd
    cases keys with
    | nil => cases hkeys
    | cons k keys =>
      refine .cons ⟨by simp, delta, hdelta, signedBigEndian 4 k.toInt, [], ?_, ?_⟩
        (ih (Nat.succ.inj hkeys))
      · rw [List.append_nil]
      · exact length_signedBigEndian 4 _

theorem switchBytes_of_lookup {op : Opcode} {keys : List Int32} {targets : List Label}
    (h : lookupBytes y op pc l keys targets = .ok bs) :
    keys.length = targets.length ∧ SwitchBytes y pc l targets 4 8 bs := by
  unfold lookupBytes at h
  split at h
  · cases h
  · next hkeys =>
    have hkeys := Decidable.not_not.mp hkeys
    obtain ⟨head, hhead, h⟩ := Except.bind_eq_ok_iff.mp h
    obtain ⟨deltas, hdeltas, h⟩ := Except.bind_eq_ok_iff.mp h
    obtain ⟨delta, hdelta, hhead⟩ := Except.bind_eq_ok_iff.mp hhead
    obtain rfl := Except.ok.inj hhead
    obtain rfl := Except.ok.inj h
    obtain ⟨new, hnew, hall⟩ := targetBytes_eq_ok hdeltas
    obtain rfl : deltas = new := hnew
    refine ⟨hkeys, opcodeByte op :: List.replicate (switchPadding pc) 0, delta,
      bigEndian 4 keys.length, _, ?_, ?_, hdelta, ?_, forall₂_cases hkeys hall⟩
    · simp only [List.append_assoc, List.flatMap_def]
    · rw [List.length_cons, List.length_replicate, Nat.add_comm]
    · exact length_bigEndian 4 _

namespace SwitchBytes

variable {targets : List Label} {gap width : Nat}

theorem length_eq (h : SwitchBytes y pc l targets gap width bs) :
    bs.length = 1 + switchPadding pc + 4 + gap + width * targets.length := by
  obtain ⟨head, delta, middle, cases, rfl, hhead, -, hmiddle, hcases⟩ := h
  have hlen := length_flatten_of_width hcases
  simp only [List.length_append, length_signedBigEndian, hhead, hmiddle, hlen]
  omega

theorem default (h : SwitchBytes y pc l targets gap width bs) :
    ∃ delta, y.displacement pc l = .ok delta ∧
      WrittenAt bs (1 + switchPadding pc) 4 delta := by
  obtain ⟨head, delta, middle, cases, rfl, hhead, hdelta, -, -⟩ := h
  exact ⟨delta, hdelta, head, _, rfl, hhead⟩

theorem target (h : SwitchBytes y pc l targets gap width bs) {t : Label}
    (hk : targets[n]? = some t) :
    ∃ delta, y.displacement pc t = .ok delta ∧
      WrittenAt bs (1 + switchPadding pc + 4 + gap + width * n + (width - 4)) 4 delta := by
  obtain ⟨head, first, middle, cases, rfl, hhead, -, hmiddle, hcases⟩ := h
  obtain ⟨front, part, back, hflat, hfront, delta, hdelta, hwritten⟩ := exists_part hcases hk
  have hplace := hwritten.between (head ++ (signedBigEndian 4 first ++ (middle ++ front))) back
  have hlen : (head ++ (signedBigEndian 4 first ++ (middle ++ front))).length =
      1 + switchPadding pc + 4 + gap + width * n := by
    simp only [List.length_append, length_signedBigEndian, hhead, hmiddle, hfront]
    omega
  rw [hlen] at hplace
  refine ⟨delta, hdelta, ?_⟩
  rw [hflat]
  simpa only [List.append_assoc] using hplace

end SwitchBytes

/-- The bytes of an item are as many as its size says, whether or not opcode and operand fit. -/
theorem length_itemBytes (h : itemBytes p y x pc = .ok bs) : bs.length = x.size p pc := by
  obtain ⟨⟨op, operand⟩, n, wide⟩ := x
  unfold itemBytes at h
  unfold Item.size
  dsimp only at h ⊢
  split at h
  · next hpseudo =>
    obtain rfl := Except.ok.inj h
    rw [if_pos hpseudo]
    rfl
  · next hreal =>
    rw [if_neg hreal]
    cases operand with
    | int v =>
      obtain rfl := Except.ok.inj h
      rw [List.length_cons, length_signedBigEndian]
      dsimp only
      split <;> rfl
    | slot index =>
      obtain rfl := Except.ok.inj h
      exact length_slotBytes op index
    | increment index delta =>
      obtain rfl := Except.ok.inj h
      exact length_incrementBytes index delta
    | constant v =>
      obtain rfl := Except.ok.inj h
      exact length_constantBytes p n
    | jump target =>
      obtain ⟨delta, -, h⟩ := Except.bind_eq_ok_iff.mp h
      obtain rfl := Except.ok.inj h
      exact length_jumpBytes _ delta
    | tableSwitch low high dflt targets =>
      have hlen := (switchBytes_of_table h).length_eq
      dsimp only
      omega
    | lookupSwitch dflt keys targets =>
      obtain ⟨hkeys, hswitch⟩ := switchBytes_of_lookup h
      have hlen := hswitch.length_eq
      dsimp only
      omega
    | method owner name desc onInterface =>
      dsimp only at h ⊢
      split at h
      · next hop =>
        split at h
        · next tail htail =>
          obtain ⟨t, -, htail⟩ := Except.bind_eq_ok_iff.mp htail
          obtain rfl := Except.ok.inj htail
          obtain rfl := Except.ok.inj h
          rw [if_pos hop]
          rfl
        · cases h
      · next hop =>
        obtain rfl := Except.ok.inj h
        rw [if_neg hop]
        rfl
    | field _ _ _ | type _ | dynamic _ _ _ | multiArray _ _ =>
      obtain rfl := Except.ok.inj h
      rfl
    -- compact loads and stores, and what has no operand, take the opcode alone
    | _ =>
      dsimp only at h
      split at h
      · obtain rfl := Except.ok.inj h
        rfl
      · cases h

end Lengths

/-! ### Displacements in the bytes of an item -/

/-- Where an instruction has a displacement behind its offset, in how many bytes, and to which
label. -/
structure Branch where
  place : Nat
  width : Nat
  target : Label

/-- The displacements of an item at an offset. -/
def Item.branches (pc : Nat) (x : Item) : List Branch :=
  if x.insn.opcode.isPseudo then []
  else match x.insn.operand with
    | .jump target => [⟨1, if x.isFar then 4 else 2, target⟩]
    | .tableSwitch _ _ dflt targets => ⟨1 + switchPadding pc, 4, dflt⟩ ::
      targets.zipIdx.map fun (t, k) => ⟨1 + switchPadding pc + 12 + 4 * k, 4, t⟩
    | .lookupSwitch dflt _ targets => ⟨1 + switchPadding pc, 4, dflt⟩ ::
      targets.zipIdx.map fun (t, k) => ⟨1 + switchPadding pc + 12 + 8 * k, 4, t⟩
    | _ => []

section Branches

variable {p : Pool} {y : Layout} {x : Item} {pc : Nat} {bs : List UInt8} {b : Branch}

theorem writtenAt_jumpBytes (x : Item) (delta : Int) :
    WrittenAt (jumpBytes x delta) 1 (if x.isFar then 4 else 2) delta := by
  unfold jumpBytes
  dsimp only
  split
  all_goals exact ⟨[_], [], by simp; rfl, rfl⟩

/-- Every displacement of an item is among its bytes. -/
theorem exists_displacement (h : itemBytes p y x pc = .ok bs) (hb : b ∈ x.branches pc) :
    ∃ delta, y.displacement pc b.target = .ok delta ∧ WrittenAt bs b.place b.width delta := by
  obtain ⟨⟨op, operand⟩, n, wide⟩ := x
  unfold itemBytes at h
  unfold Item.branches at hb
  dsimp only at h hb
  split at h
  · next hpseudo =>
    rw [if_pos hpseudo] at hb
    cases hb
  · next hreal =>
    rw [if_neg hreal] at hb
    cases operand with
    | jump target =>
      obtain ⟨delta, hdelta, h⟩ := Except.bind_eq_ok_iff.mp h
      obtain rfl := Except.ok.inj h
      obtain rfl := List.mem_singleton.mp hb
      exact ⟨delta, hdelta, writtenAt_jumpBytes _ delta⟩
    | tableSwitch low high dflt targets =>
      have hswitch := switchBytes_of_table h
      rcases List.mem_cons.mp hb with rfl | hb
      · exact hswitch.default
      · obtain ⟨⟨t, k⟩, hk, rfl⟩ := List.mem_map.mp hb
        exact hswitch.target (List.mem_zipIdx_iff_getElem?.mp hk)
    | lookupSwitch dflt keys targets =>
      have hswitch := (switchBytes_of_lookup h).2
      rcases List.mem_cons.mp hb with rfl | hb
      · exact hswitch.default
      · obtain ⟨⟨t, k⟩, hk, rfl⟩ := List.mem_map.mp hb
        obtain ⟨delta, hdelta, hwritten⟩ := hswitch.target (List.mem_zipIdx_iff_getElem?.mp hk)
        -- a case is its key and its displacement; the target is in the second half
        have hplace : 1 + switchPadding pc + 4 + 4 + 8 * k + (8 - 4) =
            1 + switchPadding pc + 12 + 8 * k := by omega
        exact ⟨delta, hdelta, hplace ▸ hwritten⟩
    | _ => cases hb

/-- A displacement in two bytes is that of a jump that is not far. -/
theorem width_of_branch (hb : b ∈ x.branches pc) :
    b.width = 4 ∨ b.width = 2 ∧ x.isFar = false ∧ x.insn.operand = .jump b.target := by
  obtain ⟨⟨op, operand⟩, n, wide⟩ := x
  unfold Item.branches at hb
  dsimp only at hb
  split at hb
  · cases hb
  · cases operand with
    | jump target =>
      obtain rfl := List.mem_singleton.mp hb
      dsimp only
      split
      · exact .inl rfl
      · next hfar => exact .inr ⟨rfl, Bool.eq_false_iff.mpr hfar, rfl⟩
    | tableSwitch _ _ _ _ | lookupSwitch _ _ _ =>
      rcases List.mem_cons.mp hb with rfl | hb
      · exact .inl rfl
      · obtain ⟨_, -, rfl⟩ := List.mem_map.mp hb
        exact .inl rfl
    | _ => cases hb

end Branches

/-! ### The bytes of code -/

namespace Layout

variable {p q : Pool} {y : Layout} {x : Item} {pc n : Nat} {placed : List (Item × Nat)}
variable {code : List UInt8} {is : List Insn}

/-- The bytes of items one behind the other: those of each begin at its offset and are as many as
its size. -/
inductive Written (p : Pool) (y : Layout) : Nat → List (Item × Nat) → List UInt8 → Prop
  | nil (pc : Nat) : Written p y pc [] []
  | cons {pc : Nat} {x : Item} {rest : List (Item × Nat)} {bs code : List UInt8} :
      itemBytes p y x pc = .ok bs → bs.length = x.size p pc →
      Written p y (pc + bs.length) rest code → Written p y pc ((x, pc) :: rest) (bs ++ code)

theorem written_of_codeBytes {stop : Nat} (h : Laid p pc placed stop) {seen : List (List UInt8)}
    (hcode : codeBytes p y seen placed = .ok code) :
    ∃ body, code = seen.reverse.flatten ++ body ∧ Written p y pc placed body ∧
      pc + body.length = stop := by
  induction h generalizing seen with
  | nil pc =>
    obtain rfl := Except.ok.inj hcode
    exact ⟨[], (List.append_nil _).symm, .nil pc, rfl⟩
  | @cons pc stop x rest _ ih =>
    obtain ⟨bs, hbs, hcode⟩ := Except.bind_eq_ok_iff.mp hcode
    rw [under_eq_ok] at hbs
    have hlen := length_itemBytes hbs
    obtain ⟨body, rfl, hbody, hstop⟩ := ih hcode
    refine ⟨bs ++ body, by simp, .cons hbs hlen (hlen ▸ hbody), ?_⟩
    rw [List.length_append]
    omega

/-- The bytes of an item stand behind as many bytes as its offset says. -/
theorem Written.exists_middle (h : Written p y pc placed code) (hx : (x, n) ∈ placed) :
    ∃ front bs back, code = front ++ (bs ++ back) ∧ pc + front.length = n ∧
      itemBytes p y x n = .ok bs := by
  induction h with
  | nil => cases hx
  | @cons pc z rest bs code hbs hlen _ ih =>
    rcases List.mem_cons.mp hx with heq | hx
    · obtain ⟨rfl, rfl⟩ := Prod.mk.inj heq
      exact ⟨[], bs, code, rfl, rfl, hbs⟩
    · obtain ⟨front, part, back, rfl, hplace, hpart⟩ := ih hx
      refine ⟨bs ++ front, part, back, (List.append_assoc ..).symm, ?_, hpart⟩
      rw [List.length_append]
      omega

/-- The offset of the first instruction with bytes, or else where the code stops. -/
def nextStart (stop : Nat) : List (Item × Nat) → Nat
  | [] => stop
  | (x, pc) :: rest => if x.insn.isReal then pc else nextStart stop rest

theorem Laid.nextStart_eq {stop : Nat} (h : Laid p pc placed stop) :
    nextStart stop placed = pc := by
  induction h with
  | nil => rfl
  | @cons pc stop x rest _ ih =>
    unfold nextStart
    split
    · rfl
    · next hreal =>
      rw [ih, size_of_pseudo (Bool.eq_false_iff.mpr hreal), Nat.add_zero]

/-- The code is that of the instructions, and it is where the layout puts it. -/
structure Emits (p : Pool) (is : List Insn) (y : Layout) (code : List UInt8) : Prop where
  insns : y.placed.map (fun xp => xp.1.insn) = is
  written : Written p y 0 y.placed code
  size : code.length = y.size
  /-- A label that is placed has the offset of the next instruction. -/
  labels : ∀ xs x n ys l, y.placed = xs ++ (x, n) :: ys → x.insn.placed? = some l →
    y.offset l = .ok (nextStart y.size ys)
  /-- A displacement, as it is read from the code, leads from the offset of its instruction to
  that of its label. -/
  branches : ∀ x n b, (x, n) ∈ y.placed → b ∈ x.branches n →
    ∃ o, y.offset b.target = .ok o ∧ (n : Int) + signedAt code b.width (n + b.place) = o

end Layout

/-! ### Writing code -/

section Write

variable {p : Pool} {m : Method} {l : Listing} {d : Draft}

/-- The items that constants are added for are the instructions, none of them wide. -/
theorem insns_addConstants {q : Pool} {seen items : List Item} {is : List Insn}
    (h : addConstants seen p is = .ok (items, q)) :
    ∃ new, items = seen.reverse ++ new ∧ new.map Item.insn = is ∧ ∀ x ∈ new, x.wide = false := by
  induction is generalizing p seen with
  | nil =>
    obtain ⟨rfl, -⟩ := Prod.mk.inj (Except.ok.inj h)
    exact ⟨[], (List.append_nil _).symm, rfl, nofun⟩
  | cons i rest ih =>
    unfold addConstants at h
    split at h
    · next n p₁ _ =>
      obtain ⟨new, rfl, hinsns, hwide⟩ := ih h
      refine ⟨⟨i, n, false⟩ :: new, by simp, by rw [List.map_cons, hinsns], fun x hx => ?_⟩
      rcases List.mem_cons.mp hx with rfl | hx
      · rfl
      · exact hwide x hx
    · cases h

/-- The jumps that can be widened are those that are always taken. -/
theorem widenable_of_narrow {items : List Item} (h : ∀ x ∈ items, x.wide = false) :
    items.countP Layout.isWidenable =
      (items.map Item.insn).countP fun i => i.opcode.isUnconditional := by
  rw [List.countP_map]
  refine List.countP_congr fun x hx => ?_
  rw [Layout.isWidenable, h x hx]
  rfl

/-- Items that start narrow are laid out with only such jumps wide as are always taken. -/
theorem Layout.exists_items_of_settle {items : List Item} {k : Nat}
    (hnarrow : ∀ x ∈ items, x.wide = false) (hy : Layout.settle p k items.length items = .ok y) :
    ∃ items', items'.map Item.insn = items.map Item.insn ∧ Layout.ofItems p k items' = .ok y ∧
      ∀ x n, (x, n) ∈ y.placed → x.Settled y n := by
  have hnotWide : ∀ x ∈ items, x.wide = true → x.insn.opcode.isUnconditional = true := by
    intro x hx hw
    rw [hnarrow x hx] at hw
    cases hw
  obtain ⟨items', hsame, hy, hsettled⟩ :=
    ((Layout.settle_eq_ok_iff List.countP_le_length).mp hy).same hnotWide
  have hlist := congrArg (List.map Prod.fst) hsame.core
  rw [List.map_map, List.map_map] at hlist
  exact ⟨items', hlist, hy, hsettled⟩

theorem Layout.insns_ofItems {items : List Item} {k : Nat} (hy : Layout.ofItems p k items = .ok y) :
    y.placed.map (fun xp => xp.1.insn) = items.map Item.insn := by
  rw [← (Layout.ofItems_eq_ok hy).2.1, List.map_map]
  rfl

/-- The items that a draft is laid out with. -/
theorem Draft.Of.exists_items (hd : d.Of p l) :
    ∃ items, items.map Item.insn = l.insns ∧
      Layout.ofItems d.coded l.numLabels items = .ok d.layout ∧
      ∀ x n, (x, n) ∈ d.layout.placed → x.Settled d.layout n := by
  obtain ⟨new, hnew, hinsns, hnarrow⟩ := insns_addConstants hd.constants
  obtain rfl : d.items = new := hnew
  rw [← hinsns]
  exact Layout.exists_items_of_settle hnarrow hd.settled

/-- The layout of a draft lists the instructions, its offsets are short, and its jumps reach. -/
theorem Draft.Of.settles (hl : l.WellFormed) (hd : d.Of p l) :
    d.layout.Lists d.coded l.insns ∧ d.layout.Short ∧
      ∀ x n, (x, n) ∈ d.layout.placed → x.Settled d.layout n := by
  obtain ⟨items, hlist, hy, hsettled⟩ := hd.exists_items
  obtain ⟨hlaid, -, hlabels⟩ := Layout.ofItems_eq_ok hy
  have hplaced := (Layout.insns_ofItems hy).trans hlist
  have hnonneg : ∀ k ∈ l.insns.filterMap Insn.placed?, 0 ≤ k := by
    rw [← Layout.placedLabels_eq hplaced]
    exact Layout.recordLabels_nonneg hlabels
  refine ⟨Layout.lists_of_ofItems hy hlist (hl.nodup_placed hd.resolved hnonneg), ?_, hsettled⟩
  intro k n hk
  -- what is recorded is zero or where an item starts, and no item starts behind the code
  have hle : n ≤ d.layout.size := by
    refine Layout.recordLabels_le hlabels (fun x n hx => ?_) ?_ n
      (Array.mem_of_getElem? (offset_eq_ok hk).2.1)
    · exact Nat.le_trans (Nat.le_add_right ..) (hlaid.bounds hx).2
    · intro n hn
      rw [Array.mem_replicate] at hn
      omega
  exact Nat.lt_of_le_of_lt hle (Nat.lt_succ_of_le hd.size_le)

/-- The bytes of a draft are where its layout puts them. -/
theorem Draft.Of.emits (hl : l.WellFormed) (hd : d.Of p l) :
    d.layout.Emits d.coded l.insns d.code := by
  obtain ⟨hlists, hshort, hsettled⟩ := hd.settles hl
  obtain ⟨body, hbody, hwritten, hsize⟩ := Layout.written_of_codeBytes hlists.laid hd.bytes
  obtain rfl : d.code = body := hbody
  rw [Nat.zero_add] at hsize
  refine { insns := hlists.insns, written := hwritten, size := hsize, labels := ?_, branches := ?_ }
  · intro xs x n ys k hsplit hk
    have hlaid := hlists.laid
    rw [hsplit] at hlaid
    obtain ⟨mid, -, hrest⟩ := hlaid.append
    -- a label takes no bytes, so it is at the start of what follows
    have hstart := hrest.nextStart_eq
    have hlabel : x.insn.opcode = .label := by
      by_contra hne
      rw [Insn.placed?_of_ne_label hne] at hk
      cases hk
    have hpseudo : x.insn.isReal = false := by
      rw [Insn.isReal, hlabel]
      rfl
    have hn : mid = n := by
      cases hrest
      rfl
    rw [Layout.nextStart, hpseudo, if_neg Bool.false_ne_true] at hstart
    rw [hstart, hn]
    exact hlists.offset_eq (hsplit ▸ List.mem_append_right _ List.mem_cons_self) hk
  · intro x n b hx hb
    obtain ⟨front, bs, back, hcode, hfront, hbs⟩ := hwritten.exists_middle hx
    rw [Nat.zero_add] at hfront
    obtain ⟨delta, hdelta, hplace⟩ := exists_displacement hbs hb
    obtain ⟨o, ho, h⟩ := Except.bind_eq_ok_iff.mp hdelta
    obtain rfl := Except.ok.inj h
    have hlt := hshort _ o ho
    have hpc := (hlists.laid.bounds hx).2
    have hle := hd.size_le
    have hat := hplace.between front back
    rw [← hcode, hfront] at hat
    refine ⟨o, ho, ?_⟩
    -- four bytes hold any displacement, two hold those of jumps in reach
    rcases width_of_branch hb with hwidth | ⟨hwidth, hnear, hjump⟩
    · rw [hwidth] at hat ⊢
      rw [hat.signedAt (by omega) (by omega)]
      omega
    · have hreach := (hsettled x n hx).near _ _ hjump hnear hdelta
      simp only [Layout.reaches, Bool.and_eq_true, decide_eq_true_eq] at hreach
      rw [hwidth] at hat ⊢
      rw [hat.signedAt (by omega) (by omega)]
      omega

/-- **Layouts are exact.** If the labels of a listing resolve and those it places have numbers, a
layout is found in at most one round more than there are jumps that are always taken, or a jump is
out of reach. If the listing is then written, its code is where that layout puts it. -/
theorem write_emits (hl : l.Built) (hresolve : l.resolve = .ok ())
    (hplaced : ∀ k ∈ l.insns.filterMap Insn.placed?, 0 ≤ k) :
    (∀ items q, addConstants [] p l.insns = .ok (items, q) → ∃ k r,
      Layout.Rounds q l.numLabels items k r ∧
        k ≤ l.insns.countP (fun i => i.opcode.isUnconditional) + 1 ∧
        Layout.settle q l.numLabels items.length items = r ∧ r.Gives fun _ => True) ∧
      ∀ out, write p m l = .ok out → ∃ items q k y code rest,
        addConstants [] p l.insns = .ok (items, q) ∧
          Layout.Rounds q l.numLabels items k (.ok y) ∧
          out.1 = u2 m.maxStack ++ u2 m.maxLocals ++ bigEndian 4 code.length ++ code ++ rest ∧
          0 < code.length ∧ code.length ≤ 65535 ∧ y.Emits q l.insns code := by
  have hwell := hl.wellFormed
  have hnumbered : Layout.Numbered l.numLabels l.insns :=
    ⟨fun k hk => ⟨hplaced k hk, hwell.lt_numLabels (hplaced k hk) hk⟩,
      fun i hi k hk => hwell.mem_placed_of_resolve hresolve hi hk⟩
  have hrounds : ∀ items q, addConstants [] p l.insns = .ok (items, q) → ∃ k r,
      Layout.Rounds q l.numLabels items k r ∧
        k ≤ l.insns.countP (fun i => i.opcode.isUnconditional) + 1 ∧
        Layout.settle q l.numLabels items.length items = r ∧ r.Gives fun _ => True := by
    intro items q hitems
    obtain ⟨new, hnew, hinsns, hnarrow⟩ := insns_addConstants hitems
    obtain rfl : items = new := hnew
    obtain ⟨k, r, hr, hk⟩ := Layout.exists_rounds q l.numLabels items
    rw [widenable_of_narrow hnarrow, hinsns] at hk
    exact ⟨k, r, hr, hk, hr.settle_eq List.countP_le_length, hr.gives hnumbered hinsns⟩
  refine ⟨hrounds, fun out hout => ?_⟩
  -- the layout of the draft is the one that the rounds end in
  obtain ⟨d, hd, rfl⟩ := write_eq_ok_iff.mp hout
  obtain ⟨k, r, hr, -, hsettle, -⟩ := hrounds d.items d.coded hd.constants
  obtain rfl : Except.ok d.layout = r := hd.settled.symm.trans hsettle
  have hemits := hd.emits hwell
  have hne := hd.size_ne
  refine ⟨d.items, d.coded, k, d.layout, d.code,
    d.handlers ++ (writeAttributes d.last (d.attributes m)).1, hd.constants, hr, ?_, ?_, ?_, hemits⟩
  · rw [Draft.out, hemits.size]
    simp only [List.append_assoc]
  · rw [hemits.size]
    omega
  · rw [hemits.size]
    exact hd.size_le

end Write

/-! ### A loop with a switch -/

/-- A switch that is padded, and a jump back behind it. -/
def choosing : Listing :=
  Listing.ofInsns 2 [.place 0, .plain .iconst0, .table 0 1 [0], .place 1, .jump .goto 0]

def chooser : Method := { name := "f", desc := "()V", maxStack := 1 }

def choosingCode : List UInt8 :=
  [3, 0xAA, 0, 0, 0, 0, 0, 19, 0, 0, 0, 0, 0, 0, 0, 0, 0xFF, 0xFF, 0xFF, 0xFF, 0xA7, 0xFF, 0xEC]

theorem write_emits_choosing :
    (choosing.Built ∧ choosing.resolve = .ok () ∧
      (∀ k ∈ choosing.insns.filterMap Insn.placed?, 0 ≤ k) ∧
      ∃ out, write {} chooser choosing = .ok out ∧ (out.1.drop 8).take 23 = choosingCode) ∧
    (∀ items q, addConstants [] {} choosing.insns = .ok (items, q) → ∃ k r,
      Layout.Rounds q choosing.numLabels items k r ∧
        k ≤ choosing.insns.countP (fun i => i.opcode.isUnconditional) + 1 ∧
        Layout.settle q choosing.numLabels items.length items = r ∧ r.Gives fun _ => True) ∧
      ∀ out, write {} chooser choosing = .ok out → ∃ items q k y code rest,
        addConstants [] {} choosing.insns = .ok (items, q) ∧
          Layout.Rounds q choosing.numLabels items k (.ok y) ∧
          out.1 = u2 1 ++ u2 0 ++ bigEndian 4 code.length ++ code ++ rest ∧
          0 < code.length ∧ code.length ≤ 65535 ∧ y.Emits q choosing.insns code := by
  have hb : choosing.Built := .ofInsns _ _
  have hresolve : choosing.resolve = .ok () := by rfl
  have hplaced : ∀ k ∈ choosing.insns.filterMap Insn.placed?, 0 ≤ k := by decide +kernel
  exact ⟨⟨hb, hresolve, hplaced, _, rfl, by decide +kernel⟩, write_emits hb hresolve hplaced⟩

end Code

end ClassWeaver
