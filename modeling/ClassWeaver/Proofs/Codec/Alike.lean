import ClassWeaver.Proofs.Codec.Code

/-!
# Listings with the same outline

Label numbers and the places of entries without bytes leave no trace in a class file: listings
with the same outline are written as the same bytes (`write_of_outline_eq`). Both are laid out in
step (`InStep`), and a label is at the offset that belongs to its position, whatever its number
(`Layout.Lists.offset_byPosition`).
-/

namespace ClassWeaver

/-! ### Lists in step -/

section InStep

variable {α : Type} {f : α → Bool} {R : α → α → Prop} {as bs : List α}

/-- Two lists hold related entries in the same order, but for those that `f` leaves out. -/
inductive InStep (f : α → Bool) (R : α → α → Prop) : List α → List α → Prop
  | nil : InStep f R [] []
  | left {a : α} {as bs : List α} : f a = false → InStep f R as bs → InStep f R (a :: as) bs
  | right {b : α} {as bs : List α} : f b = false → InStep f R as bs → InStep f R as (b :: bs)
  | both {a b : α} {as bs : List α} : f a = true → f b = true → R a b → InStep f R as bs →
      InStep f R (a :: as) (b :: bs)

theorem InStep.filter (h : InStep f R as bs) : List.Forall₂ R (as.filter f) (bs.filter f) := by
  induction h with
  | nil => exact .nil
  | left ha _ ih => rwa [List.filter_cons_of_neg (by simp [ha])]
  | right hb _ ih => rwa [List.filter_cons_of_neg (by simp [hb])]
  | both ha hb hab _ ih =>
    rw [List.filter_cons_of_pos ha, List.filter_cons_of_pos hb]
    exact .cons hab ih

theorem inStep_of_filter (h : List.Forall₂ R (as.filter f) (bs.filter f)) : InStep f R as bs := by
  induction as generalizing bs with
  | nil =>
    induction bs with
    | nil => exact .nil
    | cons b bs ih =>
      cases hb : f b with
      | false => exact .right hb (ih (by rwa [List.filter_cons_of_neg (by simp [hb])] at h))
      | true =>
        rw [List.filter_cons_of_pos hb] at h
        cases h
  | cons a as ih =>
    cases ha : f a with
    | false => exact .left ha (ih (by rwa [List.filter_cons_of_neg (by simp [ha])] at h))
    | true =>
      rw [List.filter_cons_of_pos ha] at h
      induction bs with
      | nil => cases h
      | cons b bs ih' =>
        cases hb : f b with
        | false => exact .right hb (ih' (by rwa [List.filter_cons_of_neg (by simp [hb])] at h))
        | true =>
          rw [List.filter_cons_of_pos hb] at h
          cases h with
          | cons hab h => exact .both ha hb hab (ih h)

end InStep

/-! ### Entries without bytes -/

/-- The shapes of entries without bytes. -/
def Shape.isBare (s : Shape) : Bool :=
  s = .plain || s = .label || s = .line || s = .frame || s = .tryCatch || s = .localVariable

theorem Opcode.shape_of_isPseudo {op : Opcode} (h : op.isPseudo = true) :
    op.shape.isBare = true := by
  by_cases hlisted : ListedCode op.code
  · revert h
    exact forall_listed (P := fun op => op.isPseudo = true → op.shape.isBare = true)
      (by decide +kernel) hlisted
  · rw [shape_of_unlisted hlisted]
    rfl

theorem Insn.Encodable.isBare {p : Pool} {i : Insn} (h : i.Encodable p) (hi : i.isReal = false) :
    i.operand.shape.isBare = true := by
  have hpseudo : i.opcode.isPseudo = true := by rwa [isReal, Bool.not_eq_false'] at hi
  have hbare := Opcode.shape_of_isPseudo hpseudo
  rw [(Code.wellShaped_of_encodable h).shape_operand
    (by rintro heq; rw [heq] at hbare; cases hbare)]
  exact hbare

/-- Instructions that differ in the names of their labels only. -/
def Insn.Twin (f g : Label → Label) (i i' : Insn) : Prop :=
  i.flagged.mapLabels f = i'.flagged.mapLabels g

namespace Code

variable {p q : Pool} {f g : Label → Label} {i : Insn} {x x' : Item} {y y' Y : Layout} {pc : Nat}

/-- An entry without bytes has no constant. -/
theorem addConstant_of_isBare (h : i.operand.shape.isBare = true) (p : Pool) :
    addConstant p i = .ok (0, p) := by
  obtain ⟨op, x⟩ := i
  cases x with
  | constant _ | field _ _ _ | method _ _ _ _ | dynamic _ _ _ | type _ | multiArray _ _ => cases h
  | _ => rfl

/-- An entry without bytes is never widened. -/
theorem widen_of_isBare (h : x.insn.operand.shape.isBare = true) (y : Layout) (pc : Nat) :
    y.widen x pc = .ok (x, false) := by
  unfold Layout.widen
  split
  · next htarget =>
    rw [htarget] at h
    cases h
  · rfl

/-! ### Renaming labels -/

/-- The item with its labels renamed, and a call that says whether it is one on an interface. -/
def Item.relabel (f : Label → Label) (x : Item) : Item :=
  { x with insn := x.insn.flagged.mapLabels f }

theorem addConstant_flagged (f : Label → Label) (p : Pool) (i : Insn) :
    addConstant p (i.flagged.mapLabels f) = addConstant p i := by
  obtain ⟨op, x⟩ := i
  cases x with
  | method owner name desc onInterface =>
    by_cases hop : op = .invokeInterface <;>
      simp [addConstant, Insn.flagged, Insn.mapLabels, Operand.mapLabels, hop]
  | _ => rfl

theorem size_relabel (f : Label → Label) (p : Pool) (pc : Nat) (x : Item) :
    (x.relabel f).size p pc = x.size p pc := by
  obtain ⟨⟨op, z⟩, n, wide⟩ := x
  cases z with
  | tableSwitch low high dflt targets =>
    simp [Item.size, Item.relabel, Insn.flagged, Insn.mapLabels, Operand.mapLabels]
  | _ => rfl

/-- A layout that knows the labels of another by other names. -/
def Layout.Knows (Y : Layout) (f : Label → Label) (y : Layout) (labels : List Label) : Prop :=
  ∀ l ∈ labels, Y.offset (f l) = y.offset l

theorem displacement_relabel {labels : List Label} (h : Y.Knows f y labels) (pc : Nat) {l : Label}
    (hl : l ∈ labels) : Y.displacement pc (f l) = y.displacement pc l := by
  rw [Layout.displacement, Layout.displacement, h l hl]

theorem targetBytes_relabel {targets : List Label} (h : Y.Knows f y targets) (pc : Nat)
    (seen : List (List UInt8)) :
    targetBytes Y pc seen (targets.map f) = targetBytes y pc seen targets := by
  induction targets generalizing seen with
  | nil => rfl
  | cons t rest ih =>
    rw [List.map_cons, targetBytes, targetBytes, displacement_relabel h pc List.mem_cons_self]
    congr 1
    funext delta
    exact ih (fun l hl => h l (List.mem_cons_of_mem _ hl)) _

theorem switchHead_relabel {labels : List Label} (h : Y.Knows f y labels) (op : Opcode) (pc : Nat)
    {dflt : Label} (hl : dflt ∈ labels) :
    switchHead Y op pc (f dflt) = switchHead y op pc dflt := by
  rw [switchHead, switchHead, displacement_relabel h pc hl]

/-- The bytes of an item depend on the offsets of its labels only. -/
theorem itemBytes_relabel (h : Y.Knows f y x.insn.labels) (p : Pool) (pc : Nat) :
    itemBytes p Y (x.relabel f) pc = itemBytes p y x pc := by
  obtain ⟨⟨op, z⟩, n, wide⟩ := x
  cases z with
  | jump target =>
    have htarget := displacement_relabel h pc (List.mem_singleton.mpr rfl : target ∈ [target])
    simp only [itemBytes, Item.relabel, Insn.flagged, Insn.mapLabels, Operand.mapLabels, htarget]
    rfl
  | tableSwitch low high dflt targets =>
    have hhead := switchHead_relabel h op pc (List.mem_cons_self : dflt ∈ dflt :: targets)
    have htargets := targetBytes_relabel (fun l hl => h l (List.mem_cons_of_mem dflt hl)) pc []
    simp only [itemBytes, Item.relabel, Insn.flagged, Insn.mapLabels, Operand.mapLabels,
      tableBytes, hhead, htargets, List.length_map]
  | lookupSwitch dflt keys targets =>
    have hhead := switchHead_relabel h op pc (List.mem_cons_self : dflt ∈ dflt :: targets)
    have htargets := targetBytes_relabel (fun l hl => h l (List.mem_cons_of_mem dflt hl)) pc []
    simp only [itemBytes, Item.relabel, Insn.flagged, Insn.mapLabels, Operand.mapLabels,
      lookupBytes, hhead, htargets, List.length_map]
  | _ => rfl

/-- What is written for an entry depends on the offsets of its labels only. -/
def Renamable (entry : Layout → Pool → Operand → Outcome (List UInt8 × Pool)) : Prop :=
  ∀ (Y : Layout) (f : Label → Label) (y : Layout) (z : Operand), Y.Knows f y z.labels →
    ∀ p, entry Y p (z.mapLabels f) = entry y p z

theorem renamable_handlerEntry : Renamable handlerEntry := by
  intro Y f y z h p
  cases z with
  | tryCatch start stop handler caught =>
    simp only [Layout.Knows, Operand.labels, List.forall_mem_cons] at h
    obtain ⟨hstart, hstop, hhandler, -⟩ := h
    simp only [handlerEntry, Operand.mapLabels, offset2, hstart, hstop, hhandler]
  | _ => rfl

theorem renamable_lineEntry : Renamable lineEntry := by
  intro Y f y z h p
  cases z with
  | line number start =>
    simp only [lineEntry, Operand.mapLabels, offset2, h start (List.mem_singleton.mpr rfl)]
  | _ => rfl

theorem renamable_localEntry : Renamable localEntry := by
  intro Y f y z h p
  cases z with
  | localVariable name desc start stop index =>
    simp only [Layout.Knows, Operand.labels, List.forall_mem_cons] at h
    obtain ⟨hstart, hstop, -⟩ := h
    simp only [localEntry, Operand.mapLabels, hstart, hstop]
  | _ => rfl

/-! ### Positions -/

namespace Layout

/-- Where instructions start, and where the code ends. -/
def starts (y : Layout) : List Nat :=
  (y.placed.filter fun xp => xp.1.insn.isReal).map Prod.snd ++ [y.size]

/-- A layout whose labels are the positions of another. -/
def byPosition (y : Layout) : Layout := ⟨[], y.size, y.starts.toArray⟩

theorem Laid.head?_starts {stop : Nat} {placed : List (Item × Nat)} (h : Laid p pc placed stop) :
    ((placed.filter fun xp => xp.1.insn.isReal).map Prod.snd ++ [stop]).head? = some pc := by
  induction h with
  | nil => rfl
  | @cons pc stop x rest _ ih =>
    cases hx : x.insn.isReal with
    | true =>
      rw [List.filter_cons_of_pos (by simpa using hx), List.map_cons, List.cons_append,
        List.head?_cons]
    | false =>
      rw [size_of_pseudo hx, Nat.add_zero] at ih
      rwa [List.filter_cons_of_neg (by simp [hx])]

/-- A label is at the offset of its position. -/
theorem Lists.offset_byPosition {is : List Insn} (h : Lists p is y) {l : Label}
    (hl : l ∈ is.filterMap Insn.placed?) : y.byPosition.offset (position is l) = y.offset l := by
  obtain ⟨xs, ys, z, n, hsplit, hz, -, hfresh⟩ := h.split hl
  have hlaid := h.laid
  rw [hsplit] at hlaid
  obtain ⟨mid, -, hrest⟩ := hlaid.append
  obtain rfl : mid = n := by
    cases hrest
    rfl
  have hposition : position is l = (xs.countP fun xp => xp.1.insn.isReal : Nat) := by
    rw [← h.insns, hsplit, List.map_append, List.map_cons, position_eq hz hfresh, List.countP_map]
    rfl
  have hstart : y.starts[xs.countP fun xp => xp.1.insn.isReal]? = some mid := by
    rw [starts, hsplit, List.filter_append, List.map_append, List.append_assoc,
      List.getElem?_append_right (by simp [List.countP_eq_length_filter]), List.length_map,
      List.countP_eq_length_filter, Nat.sub_self, ← List.head?_eq_getElem?]
    exact hrest.head?_starts
  rw [h.offset_eq (hsplit ▸ List.mem_append_right _ List.mem_cons_self) hz, hposition]
  exact offset_of_getElem? (Int.natCast_nonneg _) (by simpa [byPosition] using hstart)

end Layout

/-! ### Layouts in step -/

/-- Items that differ in the names of their labels only. -/
def Item.Twin (f g : Label → Label) (x x' : Item) : Prop := x.relabel f = x'.relabel g

/-- Items that differ in the names of their labels only, at the same offset. -/
def Placed.Twin (f g : Label → Label) (xp xp' : Item × Nat) : Prop :=
  Item.Twin f g xp.1 xp'.1 ∧ xp.2 = xp'.2

/-- Whether the item has bytes. -/
def Item.isReal (x : Item) : Bool := x.insn.isReal

section Step

variable {items items' : List Item} {placed placed' : List (Item × Nat)} {n n' : Nat}

theorem Item.Twin.size_eq (h : Item.Twin f g x x') (p : Pool) (pc : Nat) :
    x'.size p pc = x.size p pc := by
  have hsize := size_relabel g p pc x'
  rw [← h, size_relabel] at hsize
  exact hsize.symm

theorem place_inStep (h : InStep Item.isReal (Item.Twin f g) items items')
    (seen seen' : List (Item × Nat)) (pc : Nat) :
    ∃ new new' stop, place p seen pc items = (seen.reverse ++ new, stop) ∧
      place p seen' pc items' = (seen'.reverse ++ new', stop) ∧
      InStep (fun xp => xp.1.isReal) (Placed.Twin f g) new new' := by
  induction h generalizing seen seen' pc with
  | nil => exact ⟨[], [], pc, by rw [place, List.append_nil], by rw [place, List.append_nil], .nil⟩
  | @left x items items' hx _ ih =>
    obtain ⟨new, new', stop, hnew, hnew', hstep⟩ := ih ((x, pc) :: seen) seen' pc
    refine ⟨(x, pc) :: new, new', stop, ?_, hnew', .left hx hstep⟩
    rw [place, Layout.size_of_pseudo hx, Nat.add_zero, hnew]
    simp
  | @right x items items' hx _ ih =>
    obtain ⟨new, new', stop, hnew, hnew', hstep⟩ := ih seen ((x, pc) :: seen') pc
    refine ⟨new, (x, pc) :: new', stop, hnew, ?_, .right hx hstep⟩
    rw [place, Layout.size_of_pseudo hx, Nat.add_zero, hnew']
    simp
  | @both x x' items items' hx hx' htwin _ ih =>
    obtain ⟨new, new', stop, hnew, hnew', hstep⟩ :=
      ih ((x, pc) :: seen) ((x', pc) :: seen') (pc + x.size p pc)
    refine ⟨(x, pc) :: new, (x', pc) :: new', stop, ?_, ?_, .both hx hx' ⟨htwin, rfl⟩ hstep⟩
    · rw [place, hnew]
      simp
    · rw [place, htwin.size_eq, hnew']
      simp

theorem recordLabels_of_lt {labels : Array Nat}
    (h : ∀ l ∈ Layout.placedLabels placed, 0 ≤ l ∧ l.toNat < labels.size) :
    ∃ table, recordLabels labels placed = .ok table := by
  induction placed generalizing labels with
  | nil => exact ⟨labels, rfl⟩
  | cons xp rest ih =>
    obtain ⟨x, pc⟩ := xp
    unfold recordLabels
    split
    · next hnone =>
      rw [Layout.placedLabels_cons_none hnone] at h
      exact ih h
    · next l hl =>
      rw [Layout.placedLabels_cons_some hl, List.forall_mem_cons] at h
      obtain ⟨⟨h0, hlt⟩, hrest⟩ := h
      have hbounds : (0 ≤ l && l < labels.size) = true := by
        rw [Bool.and_eq_true, decide_eq_true_eq, decide_eq_true_eq]
        exact ⟨h0, (Int.toNat_lt h0).mp hlt⟩
      rw [if_pos hbounds]
      exact ih fun k hk => by
        rw [Array.size_setIfInBounds]
        exact hrest k hk

/-- The labels of a sequence are numbered below a bound. -/
def NumberedBelow (n : Nat) (is : List Insn) : Prop :=
  ∀ l ∈ is.filterMap Insn.placed?, 0 ≤ l ∧ l.toNat < n

/-- Layouts of items in step are in step. -/
theorem ofItems_inStep (h : InStep Item.isReal (Item.Twin f g) items items')
    (hy : Layout.ofItems p n items = .ok y) (hlabels : NumberedBelow n' (items'.map Item.insn)) :
    ∃ y', Layout.ofItems p n' items' = .ok y' ∧ y'.size = y.size ∧
      InStep (fun xp => xp.1.isReal) (Placed.Twin f g) y.placed y'.placed := by
  obtain ⟨new, new', stop, hnew, hnew', hstep⟩ := place_inStep (p := p) h [] [] 0
  obtain ⟨placed', stop', hplace', -, hitems'⟩ := Layout.place_eq p [] 0 items'
  obtain ⟨rfl, rfl⟩ := Prod.mk.inj (hplace'.symm.trans hnew')
  have hlist : Layout.placedLabels placed' = (items'.map Item.insn).filterMap Insn.placed? :=
    Layout.placedLabels_eq (by rw [← hitems', List.map_map]; rfl)
  obtain ⟨table, htable⟩ := @recordLabels_of_lt placed' (Array.replicate n' 0) (by
    rw [hlist, Array.size_replicate]
    exact hlabels)
  have hy' : Layout.ofItems p n' items' = .ok ⟨placed', stop', table⟩ := by
    rw [Layout.ofItems, hplace']
    change (recordLabels (Array.replicate n' 0) placed' >>= _) = _
    rw [htable]
    rfl
  refine ⟨_, hy', ?_⟩
  unfold Layout.ofItems at hy
  rw [hnew] at hy
  obtain ⟨labels, -, hy⟩ := Except.bind_eq_ok_iff.mp hy
  obtain rfl := Except.ok.inj hy
  exact ⟨rfl, hstep⟩

/-- Layouts in step have the same positions. -/
theorem byPosition_inStep (hsize : y'.size = y.size)
    (h : InStep (fun xp => xp.1.isReal) (Placed.Twin f g) y.placed y'.placed) :
    y'.byPosition = y.byPosition := by
  have hstarts : ∀ {xs ys : List (Item × Nat)}, List.Forall₂ (Placed.Twin f g) xs ys →
      ys.map Prod.snd = xs.map Prod.snd := by
    intro xs ys h
    induction h with
    | nil => rfl
    | cons hxy _ ih => rw [List.map_cons, List.map_cons, ih, hxy.2]
  have hfilter : y'.starts = y.starts := by
    rw [Layout.starts, Layout.starts, hsize]
    exact congrArg (· ++ [y.size]) (hstarts h.filter)
  rw [Layout.byPosition, Layout.byPosition, hfilter, hsize]

theorem Item.Twin.jump (h : Item.Twin f g x x') {t : Label} (ht : x.insn.operand = .jump t) :
    ∃ t', x'.insn.operand = .jump t' ∧ g t' = f t := by
  obtain ⟨⟨op, o⟩, n, wide⟩ := x
  obtain ⟨⟨op', o'⟩, n', wide'⟩ := x'
  obtain rfl : o = .jump t := ht
  have hoperand := congrArg (fun z : Item => z.insn.operand) h
  cases o' with
  | jump t' => exact ⟨t', rfl, (Operand.jump.inj hoperand).symm⟩
  | _ => cases hoperand

theorem Item.Twin.opcode_eq (h : Item.Twin f g x x') : x'.insn.opcode = x.insn.opcode := by
  have hopcode : ∀ (f : Label → Label) (x : Item), (x.relabel f).insn.opcode = x.insn.opcode := by
    intro f x
    obtain ⟨⟨op, o⟩, n, wide⟩ := x
    cases o <;> rfl
  exact (hopcode g x').symm.trans ((congrArg (fun z : Item => z.insn.opcode) h).symm.trans
    (hopcode f x))

theorem Item.Twin.wide_eq (h : Item.Twin f g x x') : x'.wide = x.wide :=
  (congrArg Item.wide h).symm

/-- A jump and its twin are widened together. -/
theorem widen_twin (h : Item.Twin f g x x') (hk : Y.Knows f y x.insn.labels)
    (hk' : Y.Knows g y' x'.insn.labels) {z : Item} {changed : Bool}
    (hz : y.widen x pc = .ok (z, changed)) :
    ∃ z', y'.widen x' pc = .ok (z', changed) ∧ Item.Twin f g z z' ∧ z.insn = x.insn ∧
      z'.insn = x'.insn := by
  unfold Layout.widen at hz
  split at hz
  · next t ht =>
    obtain ⟨t', ht', hgt⟩ := h.jump ht
    -- both jumps go the same way, for their targets have the same offset
    have hdelta : y'.displacement pc t' = y.displacement pc t := by
      rw [← displacement_relabel hk pc (l := t) (by rw [Insn.labels, ht]; simp [Operand.labels]),
        ← displacement_relabel hk' pc (l := t') (by rw [Insn.labels, ht']; simp [Operand.labels]),
        hgt]
    unfold Layout.widen
    rw [ht']
    dsimp only
    rw [h.wide_eq, h.opcode_eq, hdelta]
    split at hz
    · next hwide =>
      obtain ⟨rfl, rfl⟩ := Prod.mk.inj (Except.ok.inj hz)
      rw [if_pos hwide]
      exact ⟨x', rfl, h, rfl, rfl⟩
    · next hwide =>
      obtain ⟨delta, heq, hz⟩ := Except.bind_eq_ok_iff.mp hz
      rw [if_neg hwide, heq]
      change ∃ z', (if Layout.reaches delta then _ else _) = _ ∧ _
      split at hz
      · next hreach =>
        obtain ⟨rfl, rfl⟩ := Prod.mk.inj (Except.ok.inj hz)
        rw [if_pos hreach]
        exact ⟨x', rfl, h, rfl, rfl⟩
      · next hreach =>
        split at hz
        · next hun =>
          obtain ⟨rfl, rfl⟩ := Prod.mk.inj (Except.ok.inj hz)
          rw [if_neg hreach, if_pos hun]
          exact ⟨_, rfl, congrArg (fun z : Item => (⟨z.insn, z.constant, true⟩ : Item)) h, rfl, rfl⟩
        · cases hz
  · next hjump =>
    obtain ⟨rfl, rfl⟩ := Prod.mk.inj (Except.ok.inj hz)
    refine ⟨x', ?_, h, rfl, rfl⟩
    unfold Layout.widen
    split
    · next t' ht' =>
      -- only one of twins cannot be a jump
      obtain ⟨t, ht, -⟩ := Item.Twin.jump (f := g) (g := f) (Eq.symm h) ht'
      exact absurd ht (hjump t)
    · rfl

/-- What a layout with positions in place of labels knows of an item. -/
structure Layout.Serves (Y : Layout) (f : Label → Label) (y : Layout) (i : Insn) : Prop where
  knows : Y.Knows f y i.labels
  bare : i.isReal = false → i.operand.shape.isBare = true

/-- A round of widening is the same for layouts in step. -/
theorem widenAll_inStep (h : InStep (fun xp => xp.1.isReal) (Placed.Twin f g) placed placed')
    (hs : ∀ xp ∈ placed, Y.Serves f y xp.1.insn) (hs' : ∀ xp ∈ placed', Y.Serves g y' xp.1.insn)
    (seen seen' : List Item) {out : List Item} {c c' : Bool}
    (hw : y.widenAll seen c placed = .ok (out, c')) :
    ∃ new new', out = seen.reverse ++ new ∧
      y'.widenAll seen' c placed' = .ok (seen'.reverse ++ new', c') ∧
      InStep Item.isReal (Item.Twin f g) new new' ∧
      new.map Item.insn = placed.map (fun xp => xp.1.insn) ∧
      new'.map Item.insn = placed'.map (fun xp => xp.1.insn) := by
  induction h generalizing seen seen' c with
  | nil =>
    obtain ⟨rfl, rfl⟩ := Prod.mk.inj (Except.ok.inj hw)
    exact ⟨[], [], (List.append_nil _).symm, by rw [Layout.widenAll, List.append_nil], .nil, rfl,
      rfl⟩
  | @left xp placed placed' hx _ ih =>
    obtain ⟨x, pc⟩ := xp
    rw [List.forall_mem_cons] at hs
    rw [Layout.widenAll, widen_of_isBare (hs.1.bare hx)] at hw
    obtain ⟨new, new', rfl, hnew', hstep, hinsns, hinsns'⟩ := ih hs.2 hs' (x :: seen) seen' hw
    refine ⟨x :: new, new', by simp, ?_, .left hx hstep, ?_, hinsns'⟩
    · rwa [Bool.or_false] at hnew'
    · rw [List.map_cons, List.map_cons, hinsns]
  | @right xp placed placed' hx _ ih =>
    obtain ⟨x, pc⟩ := xp
    rw [List.forall_mem_cons] at hs'
    obtain ⟨new, new', rfl, hnew', hstep, hinsns, hinsns'⟩ :=
      ih hs hs'.2 seen (x :: seen') hw
    refine ⟨new, x :: new', rfl, ?_, .right hx hstep, hinsns, ?_⟩
    · rw [Layout.widenAll, widen_of_isBare (hs'.1.bare hx)]
      change y'.widenAll (x :: seen') (c || false) placed' = _
      rw [Bool.or_false, hnew']
      simp
    · rw [List.map_cons, List.map_cons, hinsns']
  | @both xp xp' placed placed' hx hx' htwin _ ih =>
    obtain ⟨x, pc⟩ := xp
    obtain ⟨x', pc'⟩ := xp'
    obtain ⟨htwin, rfl⟩ : Item.Twin f g x x' ∧ pc = pc' := htwin
    rw [List.forall_mem_cons] at hs hs'
    -- two items with bytes: both are widened or none
    obtain ⟨⟨z, changed⟩, hz, hw⟩ := Except.bind_eq_ok_iff.mp hw
    obtain ⟨z', hz', hzz, hinsn, hinsn'⟩ := widen_twin htwin hs.1.knows hs'.1.knows hz
    obtain ⟨new, new', rfl, hnew', hstep, hinsns, hinsns'⟩ :=
      ih hs.2 hs'.2 (z :: seen) (z' :: seen') hw
    refine ⟨z :: new, z' :: new', by simp, ?_, .both ?_ ?_ hzz hstep, ?_, ?_⟩
    · rw [Layout.widenAll, hz']
      change y'.widenAll (z' :: seen') (c || changed) placed' = _
      rw [hnew']
      simp
    · rwa [Item.isReal, hinsn]
    · rwa [Item.isReal, hinsn']
    · rw [List.map_cons, List.map_cons, hinsns, hinsn]
    · rw [List.map_cons, List.map_cons, hinsns', hinsn']

/-- Layouts in step are written as the same bytes. -/
theorem codeBytes_inStep (h : InStep (fun xp => xp.1.isReal) (Placed.Twin f g) placed placed')
    (hs : ∀ xp ∈ placed, Y.Serves f y xp.1.insn) (hs' : ∀ xp ∈ placed', Y.Serves g y' xp.1.insn)
    (seen seen' : List (List UInt8)) {bytes : List UInt8}
    (hc : codeBytes p y seen placed = .ok bytes) :
    ∃ body, bytes = seen.reverse.flatten ++ body ∧
      codeBytes p y' seen' placed' = .ok (seen'.reverse.flatten ++ body) := by
  -- an entry without bytes on either side adds nothing
  have hpseudo : ∀ {x : Item} {y : Layout} {pc : Nat}, x.isReal = false →
      itemBytes p y x pc = .ok [] := fun hx => (itemBytes_pseudo (by
        rwa [Item.isReal, Insn.isReal, Bool.not_eq_false'] at hx)).1
  induction h generalizing seen seen' with
  | nil =>
    obtain rfl := Except.ok.inj hc
    exact ⟨[], (List.append_nil _).symm, by rw [codeBytes, List.append_nil]⟩
  | @left xp placed placed' hx _ ih =>
    obtain ⟨x, pc⟩ := xp
    rw [List.forall_mem_cons] at hs
    rw [codeBytes, hpseudo hx] at hc
    obtain ⟨body, rfl, hbody⟩ := ih hs.2 hs' ([] :: seen) seen' hc
    exact ⟨body, by simp, hbody⟩
  | @right xp placed placed' hx _ ih =>
    obtain ⟨x, pc⟩ := xp
    rw [List.forall_mem_cons] at hs'
    obtain ⟨body, rfl, hbody⟩ := ih hs hs'.2 seen ([] :: seen') hc
    refine ⟨body, rfl, ?_⟩
    rw [codeBytes, hpseudo hx]
    change codeBytes p y' ([] :: seen') placed' = _
    rw [hbody]
    simp
  | @both xp xp' placed placed' hx hx' htwin _ ih =>
    obtain ⟨x, pc⟩ := xp
    obtain ⟨x', pc'⟩ := xp'
    obtain ⟨htwin, rfl⟩ : Item.Twin f g x x' ∧ pc = pc' := htwin
    rw [List.forall_mem_cons] at hs hs'
    obtain ⟨bs, hbs, hc⟩ := Except.bind_eq_ok_iff.mp hc
    -- twins have the same bytes once their labels are replaced by offsets
    rw [under_eq_ok, ← itemBytes_relabel hs.1.knows, htwin, itemBytes_relabel hs'.1.knows] at hbs
    obtain ⟨body, rfl, hbody⟩ := ih hs.2 hs'.2 (bs :: seen) (bs :: seen') hc
    refine ⟨bs ++ body, by simp, ?_⟩
    rw [codeBytes, under_eq_ok.mpr hbs]
    change codeBytes p y' (bs :: seen') placed' = _
    rw [hbody]
    simp

/-- A sequence that mentions only labels that it places, each once, with numbers below `n`. -/
structure Closed (n : Nat) (is : List Insn) : Prop where
  nodup : (is.filterMap Insn.placed?).Nodup
  below : NumberedBelow n is
  labels : ∀ i ∈ is, ∀ l ∈ i.labels, l ∈ is.filterMap Insn.placed?
  bare : ∀ i ∈ is, i.isReal = false → i.operand.shape.isBare = true

theorem Closed.serves {is : List Insn} (h : Closed n is) (hy : Layout.Lists p is y) {i : Insn}
    (hi : i ∈ is) : y.byPosition.Serves (position is) y i :=
  ⟨fun l hl => hy.offset_byPosition (h.labels i hi l hl), h.bare i hi⟩

variable {is is' : List Insn}

/-- Layouts of two sequences in step, whose labels are at the same positions. -/
structure Parallel (p : Pool) (is is' : List Insn) (y y' : Layout) : Prop where
  size : y'.size = y.size
  placed : InStep (fun xp => xp.1.isReal) (Placed.Twin (position is) (position is')) y.placed
    y'.placed
  serves : ∀ i ∈ is, y.byPosition.Serves (position is) y i
  serves' : ∀ i ∈ is', y.byPosition.Serves (position is') y' i
  insns : y.placed.map (fun xp => xp.1.insn) = is
  insns' : y'.placed.map (fun xp => xp.1.insn) = is'

theorem parallel_of_ofItems (hc : Closed n is) (hc' : Closed n' is')
    (h : InStep Item.isReal (Item.Twin (position is) (position is')) items items')
    (hinsns : items.map Item.insn = is) (hinsns' : items'.map Item.insn = is')
    (hy : Layout.ofItems p n items = .ok y) :
    ∃ y', Layout.ofItems p n' items' = .ok y' ∧ Parallel p is is' y y' := by
  obtain ⟨y', hy', hsize, hstep⟩ := ofItems_inStep h hy (by rw [hinsns']; exact hc'.below)
  have hlists := Layout.lists_of_ofItems hy hinsns hc.nodup
  have hlists' := Layout.lists_of_ofItems hy' hinsns' hc'.nodup
  refine ⟨y', hy', hsize, hstep, fun i hi => hc.serves hlists hi, fun i hi => ?_, hlists.insns,
    hlists'.insns⟩
  rw [← byPosition_inStep hsize hstep]
  exact hc'.serves hlists' hi

theorem Parallel.widenAll (h : Parallel p is is' y y') {out : List Item} {c : Bool}
    (hw : y.widenAll [] false y.placed = .ok (out, c)) :
    ∃ out', y'.widenAll [] false y'.placed = .ok (out', c) ∧
      InStep Item.isReal (Item.Twin (position is) (position is')) out out' ∧
      out.map Item.insn = is ∧ out'.map Item.insn = is' := by
  obtain ⟨new, new', hnew, hnew', hstep, hinsns, hinsns'⟩ := widenAll_inStep h.placed
    (fun xp hxp => h.serves _ (h.insns ▸ List.mem_map_of_mem hxp))
    (fun xp hxp => h.serves' _ (h.insns' ▸ List.mem_map_of_mem hxp)) [] [] hw
  obtain rfl : out = new := hnew
  exact ⟨new', hnew', hstep, hinsns.trans h.insns, hinsns'.trans h.insns'⟩

/-- Items in step settle into layouts in step. -/
theorem settles_inStep (hc : Closed n is) (hc' : Closed n' is') (hy : Layout.Settles p n items y)
    (h : InStep Item.isReal (Item.Twin (position is) (position is')) items items')
    (hinsns : items.map Item.insn = is) (hinsns' : items'.map Item.insn = is') :
    ∃ y', Layout.Settles p n' items' y' ∧ Parallel p is is' y y' := by
  induction hy generalizing items' with
  | still hy hw =>
    obtain ⟨y', hy', hparallel⟩ := parallel_of_ofItems hc hc' h hinsns hinsns' hy
    obtain ⟨out', hw', -⟩ := hparallel.widenAll hw
    exact ⟨y', .still hy' hw', hparallel⟩
  | round hy hw _ ih =>
    obtain ⟨y₀', hy', hparallel⟩ := parallel_of_ofItems hc hc' h hinsns hinsns' hy
    obtain ⟨out', hw', hstep, hout, hout'⟩ := hparallel.widenAll hw
    obtain ⟨y', hsettles, hlast⟩ := ih hstep hout hout'
    exact ⟨y', .round hy' hw' hsettles, hlast⟩

/-! ### Constants and tables in step -/

theorem addConstants_inStep (h : InStep Insn.isReal (Insn.Twin f g) is is')
    (hbare : ∀ i ∈ is, i.isReal = false → i.operand.shape.isBare = true)
    (hbare' : ∀ i ∈ is', i.isReal = false → i.operand.shape.isBare = true)
    (seen seen' : List Item) {out : List Item × Pool} (ha : addConstants seen p is = .ok out) :
    ∃ new new', out.1 = seen.reverse ++ new ∧
      addConstants seen' p is' = .ok (seen'.reverse ++ new', out.2) ∧
      InStep Item.isReal (Item.Twin f g) new new' ∧ new.map Item.insn = is ∧
      new'.map Item.insn = is' := by
  induction h generalizing p seen seen' with
  | nil =>
    obtain rfl := Except.ok.inj ha
    exact ⟨[], [], (List.append_nil _).symm, by rw [addConstants, List.append_nil], .nil, rfl, rfl⟩
  | @left i is is' hi _ ih =>
    rw [List.forall_mem_cons] at hbare
    rw [addConstants, addConstant_of_isBare (hbare.1 hi)] at ha
    obtain ⟨new, new', hout, hnew', hstep, hinsns, hinsns'⟩ :=
      ih hbare.2 hbare' (⟨i, 0, false⟩ :: seen) seen' ha
    exact ⟨⟨i, 0, false⟩ :: new, new', by rw [hout]; simp, hnew', .left hi hstep,
      by rw [List.map_cons, hinsns], hinsns'⟩
  | @right i is is' hi _ ih =>
    rw [List.forall_mem_cons] at hbare'
    obtain ⟨new, new', hout, hnew', hstep, hinsns, hinsns'⟩ :=
      ih hbare hbare'.2 seen (⟨i, 0, false⟩ :: seen') ha
    refine ⟨new, ⟨i, 0, false⟩ :: new', hout, ?_, .right hi hstep, hinsns,
      by rw [List.map_cons, hinsns']⟩
    rw [addConstants, addConstant_of_isBare (hbare'.1 hi)]
    dsimp only
    rw [hnew']
    simp
  | @both i i' is is' hi hi' htwin _ ih =>
    rw [List.forall_mem_cons] at hbare hbare'
    -- twins load the same constant, so the pools stay the same
    have hadd : addConstant p i' = addConstant p i := by
      rw [← addConstant_flagged g, ← htwin, addConstant_flagged]
    unfold addConstants at ha
    split at ha
    · next n p₁ hn =>
      obtain ⟨new, new', hout, hnew', hstep, hinsns, hinsns'⟩ :=
        ih hbare.2 hbare'.2 (⟨i, n, false⟩ :: seen) (⟨i', n, false⟩ :: seen') ha
      refine ⟨⟨i, n, false⟩ :: new, ⟨i', n, false⟩ :: new', by rw [hout]; simp, ?_,
        .both hi hi' (congrArg (fun i => (⟨i, n, false⟩ : Item)) htwin) hstep,
        by rw [List.map_cons, hinsns], by rw [List.map_cons, hinsns']⟩
      rw [addConstants, hadd, hn]
      dsimp only
      rw [hnew']
      simp
    · cases ha

variable {entry : Layout → Pool → Operand → Outcome (List UInt8 × Pool)}
variable {entries entries' : List Insn}

/-- A table with renamed labels is the same table. -/
theorem tableOf_relabel (hentry : Renamable entry) (hk : ∀ i ∈ entries, Y.Knows f y i.labels)
    (p : Pool) :
    tableOf (entry Y) p (entries.map (Insn.mapLabels f)) = tableOf (entry y) p entries := by
  have hentries : ∀ (p : Pool) (seen : List (List UInt8)),
      tableEntries (entry Y) p seen (entries.map (Insn.mapLabels f)) =
        tableEntries (entry y) p seen entries := by
    induction entries with
    | nil => exact fun p seen => rfl
    | cons i rest ih =>
      intro p seen
      rw [List.forall_mem_cons] at hk
      have hone : entry Y p (i.mapLabels f).operand = entry y p i.operand :=
        hentry Y f y i.operand hk.1 p
      rw [List.map_cons, tableEntries, tableEntries, hone]
      congr 1
      funext out
      exact ih hk.2 out.2 _
  rw [tableOf, tableOf, hentries, List.length_map]

/-- Tables of layouts in step are the same if they are renamed to the same. -/
theorem Parallel.tableOf_eq (h : Parallel p is is' y y') (hentry : Renamable entry)
    (hsub : entries ⊆ is) (hsub' : entries' ⊆ is')
    (heq : entries'.map (Insn.mapLabels (position is')) =
      entries.map (Insn.mapLabels (position is))) (q : Pool) :
    tableOf (entry y') q entries' = tableOf (entry y) q entries := by
  rw [← tableOf_relabel hentry (fun i hi => (h.serves i (hsub hi)).knows),
    ← tableOf_relabel hentry (fun i hi => (h.serves' i (hsub' hi)).knows), heq]

theorem Parallel.tableAttribute_eq (h : Parallel p is is' y y') (hentry : Renamable entry)
    (hsub : entries ⊆ is) (hsub' : entries' ⊆ is')
    (heq : entries'.map (Insn.mapLabels (position is')) =
      entries.map (Insn.mapLabels (position is))) (name : Text) (q : Pool) :
    tableAttribute name (entry y') q entries' = tableAttribute name (entry y) q entries := by
  have hempty : entries'.isEmpty = entries.isEmpty := by
    rw [← List.isEmpty_map (f := Insn.mapLabels (position is')), heq, List.isEmpty_map]
  rw [tableAttribute, tableAttribute, hempty, h.tableOf_eq hentry hsub hsub' heq]

end Step

end Code

/-! ### Tidy listings -/

/-- A listing as it is read: every label is placed once and all that are mentioned are, the
instructions are in their general forms, and line entries stand in the order of their positions. -/
structure Listing.Tidy (l : Listing) : Prop where
  nodup : (l.insns.filterMap Insn.placed?).Nodup
  nonneg : ∀ k ∈ l.insns.filterMap Insn.placed?, 0 ≤ k
  labels : ∀ i ∈ l.insns, ∀ k ∈ i.labels, k ∈ l.insns.filterMap Insn.placed?
  normal : ∀ i ∈ l.insns, i.isReal = true → i.Normal
  lines : (l.insns.filterMap Insn.line?).Pairwise fun e e' =>
    position l.insns e.1 ≤ position l.insns e'.1

namespace Code

variable {p p' : Pool} {l l' : Listing}

theorem closed_of_tidy (hl : l.Faithful p) (ht : l.Tidy) : Closed l.numLabels l.insns where
  nodup := ht.nodup
  below := fun k hk => ⟨ht.nonneg k hk, hl.wellFormed.lt_numLabels (ht.nonneg k hk) hk⟩
  labels := ht.labels
  bare := fun i hi => (hl.encodable i hi).isBare

theorem resolve_of_tidy (hl : l.Faithful p) (ht : l.Tidy) : l.resolve = .ok () :=
  hl.wellFormed.resolve_of_placed ht.nodup fun i hi k hk =>
    ⟨ht.nonneg k (ht.labels i hi k hk), ht.labels i hi k hk⟩

theorem flagged_of_tidy (ht : l.Tidy) : l.outline.insns =
    (l.insns.filter Insn.isReal).map fun i => i.flagged.mapLabels (position l.insns) :=
  List.map_congr_left fun i hi => by
    obtain ⟨hi, hreal⟩ := List.mem_filter.mp hi
    exact congrArg (Insn.mapLabels (position l.insns)) (ht.normal i hi hreal)

/-- The instructions of tidy listings with the same outline are in step. -/
theorem inStep_of_outline (ht : l.Tidy) (ht' : l'.Tidy) (h : l'.outline = l.outline) :
    InStep Insn.isReal (Insn.Twin (position l.insns) (position l'.insns)) l.insns l'.insns := by
  have hinsns := congrArg Outline.insns h
  rw [flagged_of_tidy ht, flagged_of_tidy ht', ← List.forall₂_eq_eq_eq, List.forall₂_map_left_iff,
    List.forall₂_map_right_iff] at hinsns
  exact inStep_of_filter (hinsns.flip.imp fun i i' heq => Eq.symm heq)

/-- The line entries of a listing from their labels and lines. -/
theorem lineEntries_eq (hl : l.Faithful p) : entriesUnder .lineNumber l.insns =
    (l.insns.filterMap Insn.line?).map fun e => Insn.line e.2 e.1 := by
  have hall : ∀ is : List Insn, (∀ i ∈ is, i.Encodable p) → entriesUnder .lineNumber is =
      (is.filterMap Insn.line?).map fun e => Insn.line e.2 e.1 := by
    intro is his
    induction is with
    | nil => rfl
    | cons i is ih =>
      rw [List.forall_mem_cons] at his
      have hrest := ih his.2
      rw [entriesUnder] at hrest
      by_cases hop : i.opcode = .lineNumber
      · obtain ⟨number, start, rfl⟩ := Insn.line_of_opcode his.1 hop
        have hline : Insn.line? ⟨.lineNumber, .line number start⟩ = some (start, number) := rfl
        rw [entriesUnder, List.filter_cons_of_pos (by simp), List.filterMap_cons_some hline,
          List.map_cons, hrest]
        rfl
      · rw [entriesUnder, List.filter_cons_of_neg (by simpa using hop),
          List.filterMap_cons_none (Insn.line?_of_opcode hop), hrest]
  exact hall l.insns hl.encodable

theorem sortBy_of_pairwise {α : Type} {key : α → Int} {xs : List α}
    (h : xs.Pairwise fun a b => key a ≤ key b) : sortBy key xs = xs :=
  eq_of_sorted (pairwise_sortBy key xs) h fun k => filter_sortBy key xs k

/-- The line entries of tidy listings with the same outline are renamed to the same. -/
theorem lines_of_outline (hl : l.Faithful p) (hl' : l'.Faithful p') (ht : l.Tidy) (ht' : l'.Tidy)
    (h : l'.outline = l.outline) :
    (entriesUnder .lineNumber l'.insns).map (Insn.mapLabels (position l'.insns)) =
      (entriesUnder .lineNumber l.insns).map (Insn.mapLabels (position l.insns)) := by
  have hlines : ∀ {p : Pool} {l : Listing}, l.Faithful p → l.Tidy →
      (entriesUnder .lineNumber l.insns).map (Insn.mapLabels (position l.insns)) =
        l.outline.lines.map fun e => Insn.line e.2 e.1 := by
    intro p l hl ht
    have hsorted : l.outline.lines =
        (l.insns.filterMap Insn.line?).map fun e => (position l.insns e.1, e.2) :=
      sortBy_of_pairwise (List.pairwise_map.mpr ht.lines)
    rw [lineEntries_eq hl, hsorted, List.map_map, List.map_map]
    rfl
  rw [hlines hl' ht', hlines hl ht, h]

/-- Tidy listings with the same outline are written as the same bytes. -/
theorem write_of_outline_eq (hl : l.Faithful p) (hl' : l'.Faithful p') (ht : l.Tidy)
    (ht' : l'.Tidy) (h : l'.outline = l.outline) {q : Pool} {m m' : Method}
    (hstack : m'.maxStack = m.maxStack) (hlocals : m'.maxLocals = m.maxLocals)
    (hothers : m'.codeAttributes = m.codeAttributes) {out : List UInt8 × Pool}
    (hw : write q m l = .ok out) : write q m' l' = .ok out := by
  obtain ⟨d, hd, rfl⟩ := write_eq_ok_iff.mp hw
  have hc := closed_of_tidy hl ht
  have hc' := closed_of_tidy hl' ht'
  obtain ⟨new, new', hnew, hnew', hstep, hinsns, hinsns'⟩ :=
    addConstants_inStep (inStep_of_outline ht ht' h) hc.bare hc'.bare [] [] hd.constants
  obtain rfl : d.items = new := hnew
  obtain ⟨y', hsettles, hparallel⟩ := settles_inStep hc hc'
    ((Layout.settle_eq_ok_iff List.countP_le_length).mp hd.settled) hstep hinsns hinsns'
  obtain ⟨body, hbody, hcode⟩ := codeBytes_inStep hparallel.placed
    (fun xp hxp => hparallel.serves _ (hparallel.insns ▸ List.mem_map_of_mem hxp))
    (fun xp hxp => hparallel.serves' _ (hparallel.insns' ▸ List.mem_map_of_mem hxp)) [] [] hd.bytes
  obtain rfl : d.code = body := hbody
  have hsub : ∀ (op : Opcode) (is : List Insn), entriesUnder op is ⊆ is := fun op is =>
    List.filter_sublist.subset
  -- the draft of the one with the items and the layout of the other; the rest is the same
  refine write_eq_ok_iff.mpr ⟨{ d with items := new', layout := y' },
    ⟨resolve_of_tidy hl' ht', hnew', ?_, ?_, ?_, hcode, ?_, ?_, ?_⟩, ?_⟩
  · exact (Layout.settle_eq_ok_iff List.countP_le_length).mpr hsettles
  · exact hparallel.size ▸ hd.size_ne
  · exact hparallel.size ▸ hd.size_le
  · exact (hparallel.tableOf_eq renamable_handlerEntry (hsub _ _) (hsub _ _)
      (congrArg Outline.handlers h) _).trans hd.handlersOf
  · exact (hparallel.tableAttribute_eq renamable_lineEntry (hsub _ _) (hsub _ _)
      (lines_of_outline hl hl' ht ht' h) _ _).trans hd.linesOf
  · exact (hparallel.tableAttribute_eq renamable_localEntry (hsub _ _) (hsub _ _)
      (congrArg Outline.locals h) _ _).trans hd.localsOf
  · simp only [Draft.out, Draft.attributes, hstack, hlocals, hothers, hparallel.size]

end Code

end ClassWeaver
