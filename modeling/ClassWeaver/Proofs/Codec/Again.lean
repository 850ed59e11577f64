import ClassWeaver.Proofs.Codec.Code

/-!
# Writing again

What is written to a pool that was left by writing the same before finds all its constants there:
it is the same, and the pool stays as it is (`Pool.Again`, `Draft.Of.again`). There is one kind of
constant that is never found, floating-point numbers that are not numbers, and a dynamic constant
may have been taken for a narrow one as long as the pool lacked its name and type.
-/

namespace ClassWeaver

/-! ### Adding again -/

namespace Pool

variable {α β : Type} {p q : Pool} {c : Constant} {n : Nat}

/-- Adding again, to a sound pool around the one that was left, gives the same and adds nothing. -/
def Again (w : Pool → α × Pool) (p : Pool) : Prop :=
  Adds p (w p) fun q a => q.Sound → w q = (a, q)

/-- The same for additions that can fail. -/
def AgainOk {ε : Type} (w : Pool → Except ε (α × Pool)) (p : Pool) : Prop :=
  ∀ out, w p = .ok out → Adds p out fun q a => q.Sound → w q = .ok (a, q)

theorem Again.ok {ε : Type} {w : Pool → α × Pool} (h : Again w p) :
    AgainOk (ε := ε) (fun p => .ok (w p)) p := by
  intro out hout
  obtain rfl := Except.ok.inj hout
  exact h.imp fun q a hagain hq => congrArg Except.ok (hagain hq)

theorem Again.pure (hp : p.Sound) (a : α) : Again (fun p => (a, p)) p :=
  ⟨hp, .refl p, fun _ _ _ _ => rfl⟩

theorem Again.andThen {w : Pool → α × Pool} {v : α → Pool → β × Pool} (h : Again w p)
    (h' : Again (v (w p).1) (w p).2) : Again (fun p => v (w p).1 (w p).2) p := by
  have hboth := Adds.andThen h h'
  refine ⟨hboth.sound, hboth.within, fun q hq hfits hs => ?_⟩
  obtain ⟨hfirst, hsecond⟩ := hboth.found q hq hfits
  dsimp only
  rw [hfirst hs]
  exact hsecond hs

theorem Again.map {w : Pool → α × Pool} (h : Again w p) (f : α → β) :
    Again (fun p => (f (w p).1, (w p).2)) p :=
  ⟨h.sound, h.within, fun q hq hfits hs => by
    dsimp only
    rw [h.found q hq hfits hs]⟩

theorem AgainOk.map {ε : Type} {w : Pool → Except ε (α × Pool)} (h : AgainOk w p) (f : α → β) :
    AgainOk (fun p => do
      let out ← w p
      return (f out.1, out.2)) p := by
  intro out hout
  obtain ⟨out, hw, hout⟩ := Except.bind_eq_ok_iff.mp hout
  obtain rfl := Except.ok.inj hout
  refine ⟨(h out hw).sound, (h out hw).within, fun q hq hfits hs => ?_⟩
  dsimp only
  rw [(h out hw).found q hq hfits hs]
  rfl

/-- Additions that cannot fail. -/
theorem AgainOk.total {ε : Type} {w : Pool → Except ε (α × Pool)} {v : Pool → α × Pool}
    (hv : ∀ p, w p = .ok (v p)) (h : AgainOk w p) : Again v p :=
  (h (v p) (hv p)).imp fun q _ hagain hs => Except.ok.inj ((hv q).symm.trans (hagain hs))

/-- A constant that is found is found in every pool around. -/
theorem Sound.index_of_within (hp : p.Sound) (hq : q.Sound) (h : p.Within q)
    (hn : p.index[c]? = some n) : q.index[c]? = some n := by
  rw [hp.indexed] at hn
  rw [hq.indexed]
  split at hn
  · cases hn
  · next hc =>
    obtain ⟨rest, hrest⟩ := h
    rw [if_neg hc, ← hrest, idxOf?_append, hn, Option.some_or]

theorem again_add (hp : p.Sound) (hc : c.Tagged) (hnum : c.isNaN = false) :
    Again (·.add c) p := by
  have hadds := adds_add hp hc
  refine ⟨hadds.sound, hadds.within, fun q hq _ hs => ?_⟩
  obtain ⟨n, hn, hout⟩ : ∃ n, (p.add c).2.index[c]? = some n ∧ (p.add c).1 = n.toUInt16 := by
    rcases add_eq p c with ⟨n, hn, hadd⟩ | ⟨-, hadd⟩
    · exact ⟨n, by rw [hadd]; exact hn, by rw [hadd]⟩
    · refine ⟨p.entries.size, ?_, by rw [hadd]⟩
      rw [hadd, extended, hnum]
      exact Std.HashMap.getElem?_insert_self
  have hfound : q.index[c]? = some n := hadds.sound.index_of_within hs hq hn
  dsimp only
  rw [hout, add, hnum, if_neg Bool.false_ne_true, hfound]

theorem again_addText (hp : p.Sound) (t : Text) : Again (·.addText t) p :=
  again_add hp (c := .utf8 t) trivial rfl

theorem again_addSingle (hp : p.Sound) {tag : UInt8} (htag : Tag.isSingle tag = true) (t : Text) :
    Again (·.addSingle tag t) p :=
  (again_addText hp t).andThen (v := fun i p => p.add (.single tag i))
    (again_add (again_addText hp t).sound htag rfl)

theorem again_addClass (hp : p.Sound) (name : Text) : Again (·.addClass name) p :=
  again_addSingle hp (by decide) name

theorem again_addNameAndType (hp : p.Sound) (name desc : Text) :
    Again (·.addNameAndType name desc) p := by
  have hname := again_addText hp name
  have hdesc := again_addText hname.sound desc
  have hpair := again_add hdesc.sound (c := .pair Tag.nameAndType (p.addText name).1
    ((p.addText name).2.addText desc).1) (by exact (by decide : Tag.isPair Tag.nameAndType = true))
    rfl
  have hall := hname.andThen (v := fun i p => (p.addText desc).2.add
    (.pair Tag.nameAndType i (p.addText desc).1))
    (hdesc.andThen (v := fun j p' => p'.add (.pair Tag.nameAndType (p.addText name).1 j)) hpair)
  simpa only [← addNameAndType_eq] using hall

theorem again_addMember (hp : p.Sound) {tag : UInt8} (htag : Tag.isMember tag = true)
    (owner name desc : Text) : Again (·.addMember tag owner name desc) p := by
  have howner := again_addClass hp owner
  have hnat := again_addNameAndType howner.sound name desc
  have hpair := again_add hnat.sound (c := .pair tag (p.addClass owner).1
    ((p.addClass owner).2.addNameAndType name desc).1)
    (show Tag.isPair tag = true by rw [Tag.isPair, htag]; rfl) rfl
  have hall := howner.andThen (v := fun i p => (p.addNameAndType name desc).2.add
    (.pair tag i (p.addNameAndType name desc).1))
    (hnat.andThen (v := fun j p' => p'.add (.pair tag (p.addClass owner).1 j)) hpair)
  simpa only [← addMember_eq] using hall

theorem again_addInvokeDynamic (hp : p.Sound) (bootstrap : UInt16) (name desc : Text) :
    Again (·.addInvokeDynamic bootstrap name desc) p := by
  have hnat := again_addNameAndType hp name desc
  have hpair := again_add hnat.sound (c := .pair Tag.invokeDynamic bootstrap
    (p.addNameAndType name desc).1)
    (by exact (by decide : Tag.isPair Tag.invokeDynamic = true)) rfl
  have hall := hnat.andThen (v := fun j p => p.add (.pair Tag.invokeDynamic bootstrap j)) hpair
  simpa only [← addInvokeDynamic_eq] using hall

/-! ### Constants to load -/

variable {i : UInt16}

theorem Within.expect {tag : UInt8} (h : p.Within q) (hc : p.expect i tag = .ok c) :
    q.expect i tag = .ok c := by
  obtain ⟨d, hd, hc⟩ := Except.bind_eq_ok_iff.mp hc
  rw [Pool.expect, h.get hd]
  exact hc

theorem Within.textAt {t : Text} (h : p.Within q) (ht : p.textAt i = .ok t) :
    q.textAt i = .ok t := by
  obtain ⟨c, hc, ht⟩ := Except.bind_eq_ok_iff.mp ht
  rw [Pool.textAt, h.expect hc]
  exact ht

theorem Within.nameAndType {nt : Text × Text} (h : p.Within q) (hnt : p.nameAndType i = .ok nt) :
    q.nameAndType i = .ok nt := by
  obtain ⟨c, hc, hnt⟩ := Except.bind_eq_ok_iff.mp hnt
  obtain ⟨name, hname, hnt⟩ := Except.bind_eq_ok_iff.mp hnt
  obtain ⟨desc, hdesc, hnt⟩ := Except.bind_eq_ok_iff.mp hnt
  rw [Pool.nameAndType, h.expect hc]
  change (q.textAt c.first >>= _) = _
  rw [h.textAt hname]
  change (q.textAt c.second >>= _) = _
  rw [h.textAt hdesc]
  exact hnt

theorem Within.count_le (h : p.Within q) : p.count ≤ q.count := by
  have hle := h.length_le
  rwa [Array.length_toList, Array.length_toList] at hle

theorem Within.fits (h : p.Within q) (hq : q.Fits) : p.Fits := Nat.le_trans h.count_le hq

/-- If the constant is a dynamic one, it has a name and a type. -/
def Linked (p : Pool) (i : UInt16) : Prop :=
  ∀ c, p.get i = .ok c → c.tag = Tag.dynamic → ∃ nt, p.nameAndType c.second = .ok nt

/-- A constant keeps its width as the pool grows. -/
theorem isWideConstant_of_within (h : p.Within q) (hget : p.get i = .ok c) (hi : p.Linked i) :
    q.isWideConstant i = p.isWideConstant i := by
  rw [isWideConstant, isWideConstant, h.get hget, hget]
  dsimp only
  by_cases hw : c.isWide = true
  · rw [if_pos hw, if_pos hw]
  rw [if_neg hw, if_neg hw]
  by_cases htag : c.tag = Tag.dynamic
  · obtain ⟨nt, hnt⟩ := hi c hget htag
    rw [if_pos htag, if_pos htag, hnt, h.nameAndType hnt]
  · rw [if_neg htag, if_neg htag]

end Pool

/-- Whether the constant is a floating-point one that is not a number. -/
def Loadable.isNaN : Loadable → Bool
  | .float bits => (Constant.float bits).isNaN
  | .double bits => (Constant.double bits).isNaN
  | _ => false

/-- The instruction loads nothing that is not a number. -/
def Insn.Numeric (i : Insn) : Prop := ∀ v, i.operand = .constant v → v.isNaN = false

/-- If the instruction loads a dynamic constant, that has a name and a type. -/
def Insn.Linked (p : Pool) (i : Insn) : Prop := ∀ n, i.operand = .constant (.pooled n) → p.Linked n

/-- The shapes of operands that name constants. -/
def Shape.isNamed (s : Shape) : Bool :=
  s = .constant || s = .field || s = .method || s = .dynamic || s = .type || s = .multiArray

namespace Code

open Pool

variable {p q : Pool} {i : Insn} {x : Item} {y : Layout} {pc n : Nat} {items : List Item}

theorem again_addLoadable (hp : p.Sound) {v : Loadable} (hv : ∀ i, v = .pooled i → p.Pooled i)
    (hnum : v.isNaN = false) : AgainOk (·.addLoadable v) p := by
  cases v with
  | int n => exact (again_add hp (c := .integer n) trivial rfl).ok
  | float bits => exact (again_add hp (c := .float bits) trivial hnum).ok
  | long n => exact (again_add hp (c := .long n) trivial rfl).ok
  | double bits => exact (again_add hp (c := .double bits) trivial hnum).ok
  | string t => exact (again_addSingle hp (by decide) t).ok
  | classRef name => exact (again_addClass hp name).ok
  | methodType desc => exact (again_addSingle hp (by decide) desc).ok
  | pooled i =>
    obtain ⟨c, hget, -⟩ := hv i rfl
    have hadd : ∀ {q : Pool}, p.Within q → q.addLoadable (.pooled i) = .ok (i, q) := by
      intro q hq
      rw [addLoadable, hq.get hget]
      rfl
    intro out hout
    obtain rfl := Except.ok.inj ((hadd (.refl p)).symm.trans hout)
    exact ⟨hp, .refl p, fun q hq _ _ => hadd hq⟩
  | truth b =>
    intro out hout
    cases hout

theorem again_addConstant (hp : p.Sound) (hi : i.Encodable p) (hnum : i.Numeric) :
    AgainOk (addConstant · i) p := by
  obtain ⟨op, x⟩ := i
  cases x with
  | constant v => exact again_addLoadable hp hi.2 (hnum v rfl)
  | field owner name desc => exact (again_addMember hp (by decide) owner name desc).ok
  | method owner name desc onInterface =>
    have htag : Tag.isMember (if onInterface || op = .invokeInterface then
        Tag.interfaceMethodRef else Tag.methodRef) = true := by
      split <;> decide
    exact (again_addMember hp htag owner name desc).ok
  | dynamic name desc bootstrap => exact (again_addInvokeDynamic hp bootstrap name desc).ok
  | type desc => exact (again_addClass hp desc).ok
  | multiArray desc dims => exact (again_addClass hp desc).ok
  | _ => exact (Again.pure hp 0).ok

/-- Items whose constants are in the pool are made of their instructions without adding. -/
theorem addConstants_of_held (seen : List Item) (hwide : ∀ x ∈ items, x.wide = false)
    (h : ∀ x ∈ items, addConstant q x.insn = .ok (x.constant, q)) :
    addConstants seen q (items.map Item.insn) = .ok (seen.reverse ++ items, q) := by
  induction items generalizing seen with
  | nil => rw [List.map_nil, addConstants, List.append_nil]
  | cons x rest ih =>
    obtain ⟨i, n, wide⟩ := x
    obtain rfl : wide = false := hwide _ List.mem_cons_self
    have hx : addConstant q i = .ok (n, q) := h _ List.mem_cons_self
    rw [List.map_cons, addConstants, hx]
    dsimp only
    rw [ih _ (fun x hx => hwide x (List.mem_cons_of_mem _ hx)) fun x hx =>
      h x (List.mem_cons_of_mem _ hx)]
    simp

theorem addConstant_of_not_isNamed {i : Insn} (h : i.operand.shape.isNamed = false) (p : Pool) :
    addConstant p i = .ok (0, p) := by
  obtain ⟨op, x⟩ := i
  cases x with
  | constant _ | field _ _ _ | method _ _ _ _ | dynamic _ _ _ | type _ | multiArray _ _ => cases h
  | _ => rfl

theorem addConstants_pool_eq {is : List Insn} {seen : List Item} {out : List Item × Pool}
    (hheld : ∀ i ∈ is, ∃ n, addConstant p i = .ok (n, p)) (h : addConstants seen p is = .ok out) :
    out.2 = p := by
  induction is generalizing seen with
  | nil =>
    obtain rfl := Except.ok.inj h
    rfl
  | cons i rest ih =>
    obtain ⟨n, hn⟩ := hheld i List.mem_cons_self
    rw [addConstants, hn] at h
    exact ih (fun j hj => hheld j (List.mem_cons_of_mem _ hj)) h

/-! ### Layouts -/

/-- The constant that the item loads is as wide in one pool as in the other. -/
def Item.Steady (p q : Pool) (x : Item) : Prop :=
  ∀ v, x.insn.operand = .constant v → q.isWideConstant x.constant = p.isWideConstant x.constant

theorem steady_of_finds {r : Pool} (hrp : r.Within p) (hpq : p.Within q)
    (hi : x.insn.Encodable r) (hlinked : x.insn.Linked r) (h : x.insn.Finds p x.constant) :
    x.Steady p q := by
  intro v hv
  have hload : p.loadable x.constant = .ok v := by
    rw [Insn.Finds, hv] at h
    exact h
  have hpooled : ∀ k, v = .pooled k → r.Pooled k := by
    rw [Insn.Encodable, hv] at hi
    exact hi.2
  obtain ⟨c, hget, -⟩ := Except.bind_eq_ok_iff.mp hload
  refine isWideConstant_of_within hpq hget fun d hd htag => ?_
  -- a dynamic constant stood in the pool from the start
  obtain rfl : v = .pooled x.constant :=
    Except.ok.inj (hload.symm.trans (loadable_of_pooled ⟨d, hd, .inr htag⟩))
  obtain ⟨c', hc', -⟩ := hpooled _ rfl
  obtain rfl : c' = d := Except.ok.inj ((hrp.get hc').symm.trans hd)
  obtain ⟨nt, hnt⟩ := hlinked _ hv c' hc' htag
  exact ⟨nt, hrp.nameAndType hnt⟩

theorem Item.Steady.size_eq (h : x.Steady p q) (pc : Nat) : x.size q pc = x.size p pc := by
  unfold Item.size
  split
  · rfl
  · split
    all_goals first
      | rfl
      | next v hv => rw [h v hv]

theorem Item.Steady.itemBytes_eq (h : x.Steady p q) (y : Layout) (pc : Nat) :
    itemBytes q y x pc = itemBytes p y x pc := by
  unfold itemBytes
  dsimp only
  split
  · rfl
  · split
    all_goals first
      | rfl
      | next v hv => rw [constantBytes, constantBytes, h v hv]

theorem place_congr (h : ∀ x ∈ items, x.Steady p q) (seen : List (Item × Nat)) (pc : Nat) :
    place q seen pc items = place p seen pc items := by
  induction items generalizing seen pc with
  | nil => rfl
  | cons x rest ih =>
    rw [place, place, (h x List.mem_cons_self).size_eq,
      ih fun x hx => h x (List.mem_cons_of_mem _ hx)]

theorem Layout.ofItems_congr (h : ∀ x ∈ items, x.Steady p q) :
    ofItems q n items = ofItems p n items := by
  rw [ofItems, ofItems, place_congr h]

theorem Layout.Same.steady {items' : List Item} (h : Layout.Same items items')
    (hs : ∀ x ∈ items, x.Steady p q) : ∀ x ∈ items', x.Steady p q := by
  intro x hx
  have hmem : Layout.core x ∈ items.map Layout.core := h.core ▸ List.mem_map_of_mem hx
  obtain ⟨z, hz, heq⟩ := List.mem_map.mp hmem
  obtain ⟨hinsn, hconstant⟩ := Prod.mk.inj heq
  intro v hv
  rw [← hconstant]
  exact hs z hz v (hinsn ▸ hv)

theorem Layout.Settles.congr (h : Layout.Settles p n items y) (hs : ∀ x ∈ items, x.Steady p q) :
    Layout.Settles q n items y := by
  induction h with
  | still hy hnew => exact .still ((ofItems_congr hs).trans hy) hnew
  | round hy hnew _ ih =>
    obtain ⟨new, hout, hwidened, -⟩ := widenAll_eq_ok hnew
    obtain rfl : _ = new := hout
    have hsame := same_of_widened hwidened
    rw [(ofItems_eq_ok hy).2.1] at hsame
    exact .round ((ofItems_congr hs).trans hy) hnew (ih (hsame.steady hs))

theorem codeBytes_congr {placed : List (Item × Nat)} (h : ∀ xp ∈ placed, xp.1.Steady p q)
    (y : Layout) (seen : List (List UInt8)) :
    codeBytes q y seen placed = codeBytes p y seen placed := by
  induction placed generalizing seen with
  | nil => rfl
  | cons xp rest ih =>
    rw [codeBytes, codeBytes, (h xp List.mem_cons_self).itemBytes_eq]
    congr 1
    funext bytes
    exact ih (fun xp hxp => h xp (List.mem_cons_of_mem _ hxp)) _

/-! ### Tables -/

section Tables

variable {α : Type} {one : Pool → α → Outcome (List UInt8 × Pool)} {entries : List α}

theorem writeAll_of_held {bss : List (List UInt8)} (seen : List (List UInt8))
    (h : List.Forall₂ (fun a bs => one q a = .ok (bs, q)) entries bss) :
    writeAll one q seen entries = .ok (seen.reverse.flatten ++ bss.flatten, q) := by
  induction h generalizing seen with
  | nil => simp [writeAll]
  | @cons a bs entries bss ha _ ih =>
    rw [writeAll, ha]
    change writeAll one q (bs :: seen) entries = _
    rw [ih]
    simp

theorem again_writeAll (hp : p.Sound)
    (hone : ∀ p a, p.Sound → a ∈ entries → AgainOk (one · a) p) :
    AgainOk (fun p => writeAll one p [] entries) p := by
  intro out hout
  obtain ⟨bss, hbss, hadds⟩ := adds_writeAll (P := fun q a bs => q.Sound → one q a = .ok (bs, q)) hp
    (fun p a out hp ha h => hone p a hp ha out h) hout
  refine ⟨hadds.sound, hadds.within, fun q hq hfits hs => ?_⟩
  rw [hbss]
  exact writeAll_of_held [] ((hadds.found q hq hfits).imp fun a bs h => h hs)

theorem again_writeAttributes (hp : p.Sound) (attributes : List Attribute) :
    Again (writeAttributes · attributes) p := by
  have hone : ∀ p a, p.Sound → a ∈ attributes →
      AgainOk (fun p => (.ok (attributeEntry p a) : Outcome _)) p := fun p a hp _ =>
    ((again_addText hp a.name).map fun n => u2 n ++ bigEndian 4 a.data.length ++ a.data).ok
  exact (AgainOk.total (attributeBytes_eq · [] attributes) (again_writeAll hp hone)).map
    (bigEndian 2 attributes.length ++ ·)

end Tables

section Listed

variable {entry : Pool → Operand → Outcome (List UInt8 × Pool)} {entries : List Insn}

theorem again_addNamed (hp : p.Sound) (name : Text) : Again (addNamed · name) p := by
  unfold addNamed
  split
  · exact Again.pure hp 0
  · exact again_addClass hp name

theorem again_handlerEntry (hp : p.Sound) (x : Operand) :
    AgainOk (fun p => handlerEntry y p x) p := by
  intro out hout
  cases x with
  | tryCatch start stop handler caught =>
    obtain ⟨b₁, hb₁, h⟩ := Except.bind_eq_ok_iff.mp hout
    obtain ⟨b₂, hb₂, h⟩ := Except.bind_eq_ok_iff.mp h
    obtain ⟨b₃, hb₃, -⟩ := Except.bind_eq_ok_iff.mp h
    have hentry : ∀ q : Pool, handlerEntry y q (.tryCatch start stop handler caught) =
        .ok (b₁ ++ b₂ ++ b₃ ++ u2 (addNamed q caught).1, (addNamed q caught).2) := by
      intro q
      rw [handlerEntry, hb₁]
      change (offset2 y stop >>= _) = _
      rw [hb₂]
      change (offset2 y handler >>= _) = _
      rw [hb₃]
      rfl
    have hagain := (again_addNamed hp caught).map fun n => b₁ ++ b₂ ++ b₃ ++ u2 n
    obtain rfl := Except.ok.inj ((hentry p).symm.trans hout)
    exact hagain.imp fun q bs h hs => (hentry q).trans (congrArg Except.ok (h hs))
  | _ => cases hout

theorem again_lineEntry (hp : p.Sound) (x : Operand) : AgainOk (fun p => lineEntry y p x) p := by
  intro out hout
  cases x with
  | line number start =>
    obtain ⟨bs, hbs, h⟩ := Except.bind_eq_ok_iff.mp hout
    obtain rfl := Except.ok.inj h
    refine ⟨hp, .refl p, fun q _ _ _ => ?_⟩
    dsimp only
    rw [lineEntry, hbs]
    rfl
  | _ => cases hout

theorem again_localEntry (hp : p.Sound) (x : Operand) : AgainOk (fun p => localEntry y p x) p := by
  intro out hout
  cases x with
  | localVariable name desc start stop index =>
    obtain ⟨n₁, hn₁, h⟩ := Except.bind_eq_ok_iff.mp hout
    obtain ⟨n₂, hn₂, -⟩ := Except.bind_eq_ok_iff.mp h
    have hentry : ∀ q : Pool, localEntry y q (.localVariable name desc start stop index) =
        .ok (bigEndian 2 n₁ ++ signedBigEndian 2 ((n₂ : Int) - n₁) ++ u2 (q.addText name).1 ++
          u2 ((q.addText name).2.addText desc).1 ++ u2 index,
          ((q.addText name).2.addText desc).2) := by
      intro q
      rw [localEntry, hn₁]
      change (y.offset stop >>= _) = _
      rw [hn₂]
      rfl
    have hname := again_addText hp name
    have hagain := hname.andThen (v := fun n p => (bigEndian 2 n₁ ++
      signedBigEndian 2 ((n₂ : Int) - n₁) ++ u2 n ++ u2 (p.addText desc).1 ++ u2 index,
      (p.addText desc).2)) ((again_addText hname.sound desc).map fun d => bigEndian 2 n₁ ++
        signedBigEndian 2 ((n₂ : Int) - n₁) ++ u2 (p.addText name).1 ++ u2 d ++ u2 index)
    obtain rfl := Except.ok.inj ((hentry p).symm.trans hout)
    exact hagain.imp fun q bs h hs => (hentry q).trans (congrArg Except.ok (h hs))
  | _ => cases hout

theorem again_tableOf (hp : p.Sound) (entries : List Insn)
    (hone : ∀ p x, p.Sound → AgainOk (fun p => entry p x) p) :
    AgainOk (fun p => tableOf entry p entries) p := by
  have hall := @again_writeAll p _ (fun p i => entry p i.operand) entries hp
    fun p i hp _ => hone p i.operand hp
  simp only [← tableEntries_eq] at hall
  exact hall.map (bigEndian 2 entries.length ++ ·)

theorem again_tableAttribute (hp : p.Sound) (name : Text)
    (hone : ∀ p x, p.Sound → AgainOk (fun p => entry p x) p) :
    AgainOk (fun p => tableAttribute name entry p entries) p := by
  unfold tableAttribute
  split
  · exact (Again.pure hp []).ok
  · exact (again_tableOf hp entries hone).map fun data => [Attribute.mk name data]

end Listed

/-! ### Code attributes -/

/-- The tables behind the code are written again as they were. -/
theorem Draft.Of.again_tables {l : Listing} {d : Draft} (hd : d.Of p l) (hs : d.coded.Sound)
    (m : Method) : Adds d.coded (d.out m) fun q _ => q.Sound →
      tableOf (handlerEntry d.layout) q (entriesUnder .tryCatch l.insns) = .ok (d.handlers, q) ∧
      tableAttribute Attribute.lineNumbers (lineEntry d.layout) q
        (entriesUnder .lineNumber l.insns) = .ok (d.lines, q) ∧
      tableAttribute Attribute.localVariables (localEntry d.layout) q
        (entriesUnder .localVariable l.insns) = .ok (d.locals, q) ∧
      writeAttributes q (d.attributes m) = ((writeAttributes d.last (d.attributes m)).1, q) := by
  have hhandlers := again_tableOf hs _ (fun p x hp => again_handlerEntry hp x) _ hd.handlersOf
  have hlines := again_tableAttribute hhandlers.sound _ (fun p x hp => again_lineEntry hp x) _
    hd.linesOf
  have hlocals := again_tableAttribute hlines.sound _ (fun p x hp => again_localEntry hp x) _
    hd.localsOf
  have hattributes := again_writeAttributes hlocals.sound (d.attributes m)
  have hall := hhandlers.andThen (hlines.andThen (hlocals.andThen hattributes))
  refine ⟨hall.sound, hall.within, fun q hq hfits hs => ?_⟩
  obtain ⟨hhandler, hline, hlocal, hattribute⟩ := hall.found q hq hfits
  exact ⟨hhandler hs, hline hs, hlocal hs, hattribute hs⟩

/-- A listing that was written is written again as it was. -/
theorem Draft.Of.again {l : Listing} {d : Draft} (hp : p.Sound) (hl : l.Faithful p) (hd : d.Of p l)
    (hnum : ∀ i ∈ l.insns, i.Numeric) (hlinked : ∀ i ∈ l.insns, i.Linked p) (m : Method) :
    Adds p (d.out m) fun q bs => q.Sound → write q m l = .ok (bs, q) := by
  obtain ⟨new, hnew, hinsns, hnarrow, hcoded⟩ := adds_addConstants
    (P := fun q i n => i.Finds q n ∧ (q.Sound → addConstant q i = .ok (n, q))) hp
    (fun p₁ i out hp₁ hs hi hout => by
      have hencodable := (hl.encodable i hi).mono hp₁
      have hfinds := adds_addConstant hs hencodable hout
      have hagain := again_addConstant hs hencodable (hnum i hi) out hout
      exact ⟨hfinds.sound, hfinds.within, fun q hq hfits =>
        ⟨hfinds.found q hq hfits, hagain.found q hq hfits⟩⟩)
    hd.constants
  obtain rfl : d.items = new := hnew
  have htables := hd.again_tables hcoded.sound m
  have hall := hcoded.andThen htables
  refine ⟨hall.sound, hall.within, fun q hq hfits hs => ?_⟩
  obtain ⟨hitems, htable⟩ := hall.found q hq hfits
  obtain ⟨hhandler, hline, hlocal, hattribute⟩ := htable hs
  have hwithin : d.coded.Within q := htables.within.trans hq
  -- an item has the same size with either pool, so the layout is found again
  have hsteady : ∀ x ∈ d.items, x.Steady d.coded q := by
    intro x hx
    have hmem : x.insn ∈ l.insns := hinsns ▸ List.mem_map_of_mem hx
    exact steady_of_finds hcoded.within hwithin (hl.encodable _ hmem) (hlinked _ hmem)
      (hcoded.found d.coded (.refl _) (hwithin.fits hfits) x hx).1
  have hsettles := (Layout.settle_eq_ok_iff List.countP_le_length).mp hd.settled
  have hplaced : ∀ xp ∈ d.layout.placed, xp.1.Steady d.coded q := by
    obtain ⟨items, hsame, hy, -⟩ := hsettles.same fun x hx hw => by
      rw [hnarrow x hx] at hw
      cases hw
    intro xp hxp
    exact hsame.steady hsteady xp.1 ((Layout.ofItems_eq_ok hy).2.1 ▸ List.mem_map_of_mem hxp)
  -- the second draft: the items and tables of the first, and the pool as it is
  refine write_eq_ok_iff.mpr ⟨⟨d.items, q, d.layout, d.code, d.handlers, q, d.lines, q,
    d.locals, q⟩,
    ⟨hd.resolved, ?_, ?_, hd.size_ne, hd.size_le, ?_, hhandler, hline, hlocal⟩, ?_⟩
  · rw [← hinsns]
    exact addConstants_of_held [] hnarrow fun x hx => (hitems x hx).2 hs
  · exact (Layout.settle_eq_ok_iff List.countP_le_length).mpr (hsettles.congr hsteady)
  · rw [codeBytes_congr hplaced]
    exact hd.bytes
  · change _ = (_ ++ (writeAttributes q (d.attributes m)).1, (writeAttributes q (d.attributes m)).2)
    rw [hattribute]
    rfl

theorem lineEntries_pool_eq {y : Layout} {seen : List (List UInt8)} {entries : List Insn}
    {out : List UInt8 × Pool} (h : tableEntries (lineEntry y) p seen entries = .ok out) :
    out.2 = p := by
  induction entries generalizing seen with
  | nil =>
    obtain rfl := Except.ok.inj h
    rfl
  | cons i rest ih =>
    obtain ⟨op, x⟩ := i
    obtain ⟨⟨bytes, p'⟩, hentry, hrest⟩ := Except.bind_eq_ok_iff.mp h
    cases x with
    | line number start =>
      obtain ⟨bs, -, hentry⟩ := Except.bind_eq_ok_iff.mp hentry
      cases hentry
      exact ih hrest
    | _ => cases hentry

/-- A pool that has the constants of the instructions and the names of the attributes stays as it
is, unless there are entries that add names of their own. -/
theorem write_pool_eq {m : Method} {l : Listing} {out : List UInt8 × Pool}
    (hheld : ∀ i ∈ l.insns, ∃ n, addConstant p i = .ok (n, p))
    (hhandlers : entriesUnder .tryCatch l.insns = [])
    (hlocals : entriesUnder .localVariable l.insns = [])
    (hlines : entriesUnder .lineNumber l.insns = [] ∨ (p.addText Attribute.lineNumbers).2 = p)
    (hattributes : m.codeAttributes = []) (h : write p m l = .ok out) : out.2 = p := by
  obtain ⟨d, hd, rfl⟩ := write_eq_ok_iff.mp h
  have hcoded : d.coded = p := addConstants_pool_eq hheld hd.constants
  have hhandled : d.handled = p := by
    have htable := hd.handlersOf
    rw [hhandlers, hcoded] at htable
    exact (Prod.mk.inj (Except.ok.inj htable)).2.symm
  obtain ⟨hnone, hlast⟩ : d.locals = [] ∧ d.last = d.lined := by
    have htable := hd.localsOf
    rw [hlocals] at htable
    have hempty := Prod.mk.inj (Except.ok.inj htable)
    exact ⟨hempty.1.symm, hempty.2.symm⟩
  have hout : (d.out m).2 = (writeAttributes d.lined d.lines).2 := by
    rw [Draft.out, Draft.attributes, hattributes, hnone, List.append_nil, List.append_nil, hlast]
  rw [hout]
  rcases tableAttribute_eq_ok hd.linesOf with ⟨-, hempty⟩ | ⟨data, hdata, hsingle⟩
  · obtain ⟨hempty, hlined⟩ := Prod.mk.inj hempty
    rw [hempty, hlined, hhandled]
    rfl
  · have hlined : d.lined = p := by
      obtain ⟨written, hwritten, h⟩ := Except.bind_eq_ok_iff.mp hdata
      have htable := (Prod.mk.inj (Except.ok.inj h)).2
      exact htable.symm.trans ((lineEntries_pool_eq hwritten).trans hhandled)
    rcases hlines with hbare | hname
    · have htable := hd.linesOf
      rw [hbare] at htable
      have hempty := (Prod.mk.inj (Except.ok.inj htable)).1
      rw [← hempty, hlined]
      rfl
    · change d.lines = _ at hsingle
      rw [hlined, hsingle]
      exact hname

/-- What is written then has a length that computes, although the indices in it do not. -/
theorem write_of_held {m : Method} {l : Listing} {k : Nat}
    (hheld : ∀ i ∈ l.insns, ∃ n, addConstant p i = .ok (n, p))
    (hhandlers : entriesUnder .tryCatch l.insns = [])
    (hlocals : entriesUnder .localVariable l.insns = [])
    (hlines : entriesUnder .lineNumber l.insns = [] ∨ (p.addText Attribute.lineNumbers).2 = p)
    (hattributes : m.codeAttributes = [])
    (h : (write p m l).toOption.map (fun out => out.1.length) = some k) :
    ∃ data, data.length = k ∧ write p m l = .ok (data, p) := by
  obtain ⟨⟨data, q⟩, hwrite, hlength⟩ := Option.map_eq_some_iff.mp h
  have hwrite := Outcome.eq_ok_of_toOption hwrite
  obtain rfl : q = p := write_pool_eq hheld hhandlers hlocals hlines hattributes hwrite
  exact ⟨data, hlength, hwrite⟩

/-! ### Constants that are not numbers -/

theorem count_lt_add (hp : p.Sound) {c : Constant} (hnan : c.isNaN = true) :
    p.count < (p.add c).2.count := by
  rcases add_eq p c with ⟨n, hn, -⟩ | ⟨-, hadd⟩
  · rw [hp.indexed, if_pos (by simp [hnan])] at hn
    cases hn
  · have hnew : 0 < (newEntries c).length := by
      unfold newEntries
      split
      · exact Nat.zero_lt_two
      · exact Nat.zero_lt_one
    have hcount : (p.extended c).count = p.count + (newEntries c).length := by
      simp [Pool.count, extended]
    rw [hadd]
    change p.count < (p.extended c).count
    omega

theorem count_lt_addConstant (hp : p.Sound) (hnan : ¬i.Numeric) {out : UInt16 × Pool}
    (h : addConstant p i = .ok out) : p.count < out.2.count := by
  obtain ⟨op, x⟩ := i
  simp only [Insn.Numeric, not_forall, Bool.not_eq_false] at hnan
  obtain ⟨v, rfl, hv⟩ := hnan
  cases v with
  | float bits =>
    obtain rfl := Except.ok.inj h
    exact count_lt_add hp hv
  | double bits =>
    obtain rfl := Except.ok.inj h
    exact count_lt_add hp hv
  | _ => cases hv

theorem count_lt_addConstants {is : List Insn} (hp : p.Sound) (hi : ∀ i ∈ is, i.Encodable p)
    (hnan : ∃ i ∈ is, ¬i.Numeric) {seen : List Item} {out : List Item × Pool}
    (h : addConstants seen p is = .ok out) : p.count < out.2.count := by
  induction is generalizing p seen with
  | nil =>
    obtain ⟨i, hi, -⟩ := hnan
    cases hi
  | cons i rest ih =>
    rw [List.forall_mem_cons] at hi
    unfold addConstants at h
    split at h
    · next n p₁ hadd =>
      have hfirst := adds_addConstant hp hi.1 hadd
      have hrest : ∀ j ∈ rest, j.Encodable p₁ := fun j hj => (hi.2 j hj).mono hfirst.within
      obtain ⟨new, -, -, -, hadds⟩ := adds_addConstants hfirst.sound
        (fun p₂ j out hp₂ hs hj hout => adds_addConstant hs ((hrest j hj).mono hp₂) hout) h
      by_cases hnum : i.Numeric
      · obtain ⟨j, hj, hjnum⟩ := hnan
        have hj := (List.mem_cons.mp hj).resolve_left (by rintro rfl; exact hjnum hnum)
        exact Nat.lt_of_le_of_lt hfirst.within.count_le (ih hfirst.sound hrest ⟨j, hj, hjnum⟩ h)
      · exact Nat.lt_of_lt_of_le (count_lt_addConstant hp hnum hadd) hadds.within.count_le
    · cases h

/-- Writing a listing only adds to the pool, and always does if it loads what is not a number. -/
theorem Draft.Of.grows {l : Listing} {d : Draft} (hp : p.Sound) (hl : l.Faithful p) (hd : d.Of p l)
    (m : Method) : (d.out m).2.Sound ∧ p.Within (d.out m).2 ∧
      ((∃ i ∈ l.insns, ¬i.Numeric) → p.count < (d.out m).2.count) := by
  obtain ⟨new, -, -, -, hcoded⟩ := adds_addConstants hp
    (fun p₁ i out hp₁ hs hi hout => adds_addConstant hs ((hl.encodable i hi).mono hp₁) hout)
    hd.constants
  have htables := hd.again_tables hcoded.sound m
  refine ⟨htables.sound, hcoded.within.trans htables.within, fun hnan => ?_⟩
  exact Nat.lt_of_lt_of_le (count_lt_addConstants hp hl.encodable hnan hd.constants)
    htables.within.count_le

end Code

end ClassWeaver
