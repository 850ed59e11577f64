import ClassWeaver.Proofs.Codec.Alike
import ClassWeaver.Proofs.Codec.Replacing
import ClassWeaver.Proofs.Renaming.Listing

/-!
# Code does not show label numbers

Code attributes hold offsets. Renamed listings have the same constants and are laid out alike: each
label is at the offset of its new name (`Code.Layout.Renamed`). So their jumps are widened in the
same rounds and their code attributes are equal, or neither listing can be written
(`write_agree`). -/

namespace ClassWeaver.Code

variable {σ : Equiv.Perm Label} {l l' : Listing} {p : Pool} {x : Item} {y y' : Layout} {pc : Nat}

/-! ### Items -/

/-- The item with the labels of its instruction renamed. -/
def Item.mapLabels (f : Label → Label) (x : Item) : Item := { x with insn := x.insn.mapLabels f }

/-- Renaming commutes with saying whether a call is one on an interface. -/
theorem Item.relabel_mapLabels (f : Label → Label) (x : Item) :
    (x.mapLabels f).relabel id = x.relabel f := by
  obtain ⟨⟨op, z⟩, n, wide⟩ := x
  cases z with
  | method owner name desc onInterface => rfl
  | _ => simp [mapLabels, relabel, Insn.flagged, Insn.mapLabels, Operand.mapLabels]

theorem Item.size_mapLabels (f : Label → Label) (p : Pool) (pc : Nat) (x : Item) :
    (x.mapLabels f).size p pc = x.size p pc := by
  rw [← size_relabel id, relabel_mapLabels, size_relabel]

theorem addConstant_mapLabels (f : Label → Label) (p : Pool) (i : Insn) :
    addConstant p (i.mapLabels f) = addConstant p i := by
  obtain ⟨op, z⟩ := i
  cases z <;> rfl

theorem addConstants_agree (f : Label → Label) (seen : List Item) (p : Pool) (is : List Insn) :
    Outcome.Agree (fun x x' => x'.1 = x.1.map (Item.mapLabels f) ∧ x'.2 = x.2)
      (lift (addConstants seen p is))
      (lift (addConstants (seen.map (Item.mapLabels f)) p (is.map (Insn.mapLabels f)))) :=
  addConstants_mapInsn (addConstant_mapLabels f) seen p is

theorem place_mapLabels (f : Label → Label) (p : Pool) (seen : List (Item × Nat)) (pc : Nat)
    (items : List Item) :
    place p (seen.map (Prod.map (Item.mapLabels f) id)) pc (items.map (Item.mapLabels f)) =
      ((place p seen pc items).1.map (Prod.map (Item.mapLabels f) id),
        (place p seen pc items).2) :=
  place_mapInsn (Item.size_mapLabels f p) seen pc items

/-! ### Layouts -/

/-- Layouts that differ by the names of the labels: each label is where its new name is. -/
structure Layout.Renamed (σ : Equiv.Perm Label) (y y' : Layout) : Prop where
  placed : y'.placed = y.placed.map (Prod.map (Item.mapLabels σ) id)
  size : y'.size = y.size
  offset : ∀ lbl, y'.offset (σ lbl) = y.offset lbl

/-- The new entry of a label in a table of offsets. -/
theorem offset_setIfInBounds {table : Array Nat} {lbl : Label} (h0 : 0 ≤ lbl)
    (hlt : lbl.toNat < table.size) (pc : Nat) (k : Label) :
    (⟨[], 0, table.setIfInBounds lbl.toNat pc⟩ : Layout).offset k =
      if k = lbl then .ok pc else (⟨[], 0, table⟩ : Layout).offset k := by
  unfold Layout.offset
  by_cases hneg : k < 0
  · rw [if_pos hneg, if_pos hneg, if_neg (by rintro rfl; exact Int.not_lt.mpr h0 hneg)]
  · rw [if_neg hneg, if_neg hneg]
    by_cases hk : k = lbl
    · subst hk
      rw [if_pos rfl, Array.getElem?_setIfInBounds_self_of_lt hlt]
    · have hne : lbl.toNat ≠ k.toNat := fun e => hk <| by
        rw [← Int.toNat_of_nonneg (Int.not_lt.mp hneg), ← e, Int.toNat_of_nonneg h0]
      rw [if_neg hk, Array.getElem?_setIfInBounds_ne hne]

variable (h : Listing.Renamed σ l l')

include h

/-- The offsets that are recorded for labels are recorded for their new names. -/
theorem recordLabels_agree {table table' : Array Nat} (hsize : table.size = l.bound.size)
    (hsize' : table'.size = l.bound.size)
    (htable : ∀ lbl,
      (⟨[], 0, table'⟩ : Layout).offset (σ lbl) = (⟨[], 0, table⟩ : Layout).offset lbl)
    (placed : List (Item × Nat)) :
    Outcome.Agree
      (fun t t' => ∀ lbl, (⟨[], 0, t'⟩ : Layout).offset (σ lbl) = (⟨[], 0, t⟩ : Layout).offset lbl)
      (recordLabels table placed)
      (recordLabels table' (placed.map (Prod.map (Item.mapLabels σ) id))) := by
  induction placed generalizing table table' with
  | nil => exact htable
  | cons xp placed ih =>
    obtain ⟨x, pc⟩ := xp
    have hplaced : (x.mapLabels σ).insn.placed? = x.insn.placed?.map σ :=
      Insn.placed?_rename σ x.insn
    rw [List.map_cons, Prod.map_apply, recordLabels, recordLabels, hplaced]
    cases x.insn.placed? with
    | none => exact ih hsize hsize' htable
    | some lbl =>
      dsimp only [Option.map_some]
      -- a label has an entry in its table if and only if its new name has one in the other
      rw [hsize, hsize', ← Bool.decide_and, ← Bool.decide_and]
      refine .ite (by simp only [decide_eq_true_eq]; exact h.numbered_iff.symm) (fun hlbl => ?_)
        fun _ => .undefined
      obtain ⟨h0, hlt⟩ := of_decide_eq_true hlbl
      obtain ⟨h0', hlt'⟩ := h.numbered_iff.mpr ⟨h0, hlt⟩
      refine ih (by simpa using hsize) (by simpa using hsize') fun k => ?_
      rw [offset_setIfInBounds h0' (by rw [hsize']; exact (Int.toNat_lt h0').mpr hlt'),
        offset_setIfInBounds h0 (by rw [hsize]; exact (Int.toNat_lt h0).mpr hlt), htable]
      simp only [σ.injective.eq_iff, id]

theorem ofItems_agree (p : Pool) (items : List Item) :
    Outcome.Agree (Layout.Renamed σ) (Layout.ofItems p l.numLabels items)
      (Layout.ofItems p l'.numLabels (items.map (Item.mapLabels σ))) := by
  have hplace := place_mapLabels σ p [] 0 items
  rw [List.map_nil] at hplace
  have hnumber : l'.numLabels = l.numLabels := h.size
  unfold Layout.ofItems
  dsimp only
  rw [hplace, hnumber]
  have hblank (k : Label) : (⟨[], 0, Array.replicate l.numLabels 0⟩ : Layout).offset (σ k) =
      (⟨[], 0, Array.replicate l.numLabels 0⟩ : Layout).offset k := by
    have hnone (k : Label) : (⟨[], 0, Array.replicate l.numLabels 0⟩ : Layout).offset k =
        if 0 ≤ k ∧ k < (l.bound.size : Int) then .ok 0 else Outcome.undefined := by
      unfold Layout.offset
      by_cases h0 : 0 ≤ k
      · rw [if_neg (Int.not_lt.mpr h0), Array.getElem?_replicate]
        by_cases hlt : k.toNat < l.numLabels
        · rw [if_pos hlt, if_pos ⟨h0, (Int.toNat_lt h0).mp hlt⟩]
        · rw [if_neg hlt, if_neg fun hk => hlt ((Int.toNat_lt h0).mpr hk.2)]
      · rw [if_pos (Int.not_le.mp h0), if_neg fun hk => h0 hk.1]
    rw [hnone, hnone]
    simp only [h.numbered_iff]
  refine (recordLabels_agree h Array.size_replicate Array.size_replicate hblank _).bind ?_
  intro table table' htable
  exact ⟨rfl, rfl, htable⟩

omit h

namespace Layout

theorem Renamed.knows (h : Renamed σ y y') (labels : List Label) : y'.Knows σ y labels :=
  fun lbl _ => h.offset lbl

theorem Renamed.widen_agree (h : Renamed σ y y') (x : Item) (pc : Nat) :
    Outcome.Agree (fun x x' => x' = Prod.map (Item.mapLabels σ) id x) (y.widen x pc)
      (y'.widen (x.mapLabels σ) pc) := by
  have hoperand : (x.mapLabels σ).insn.operand = x.insn.operand.mapLabels σ := rfl
  unfold widen
  rw [hoperand]
  cases x.insn.operand with
  | jump target =>
    have hdelta : y'.displacement pc (σ target) = y.displacement pc target :=
      displacement_relabel (h.knows [target]) pc (List.mem_singleton.mpr rfl)
    refine .ite Iff.rfl (fun _ => rfl) fun _ => ?_
    rw [hdelta]
    refine (Outcome.Agree.of_eq rfl).bind ?_
    rintro delta _ rfl
    exact .ite Iff.rfl (fun _ => rfl) fun _ => .ite Iff.rfl (fun _ => rfl) fun _ =>
      Insn.blame_agree σ x.insn ..
  | _ => exact rfl

end Layout

include h

/-- Renamed listings are laid out in the same rounds. -/
theorem settle_agree (p : Pool) (fuel : Nat) (items : List Item) :
    Outcome.Agree (Layout.Renamed σ) (Layout.settle p l.numLabels fuel items)
      (Layout.settle p l'.numLabels fuel (items.map (Item.mapLabels σ))) :=
  -- offsets agree, so the same jumps are too short
  Layout.settle_mapInsn (fun hy => hy.placed) (fun hy => hy.widen_agree) (ofItems_agree h p) fuel
    items

omit h

/-! ### Bytes -/

theorem itemBytes_mapLabels (h : Layout.Renamed σ y y') (p : Pool) (x : Item) (pc : Nat) :
    itemBytes p y' (x.mapLabels σ) pc = itemBytes p y x pc := by
  have hsame : y'.Knows id y' (x.mapLabels σ).insn.labels := fun _ _ => rfl
  rw [← itemBytes_relabel hsame, Item.relabel_mapLabels, itemBytes_relabel (h.knows _)]

theorem codeBytes_agree (h : Layout.Renamed σ y y') (p : Pool) (seen : List (List UInt8))
    (placed : List (Item × Nat)) :
    Outcome.Agree (· = ·) (codeBytes p y seen placed)
      (codeBytes p y' seen (placed.map (Prod.map (Item.mapLabels σ) id))) := by
  induction placed generalizing seen with
  | nil => exact rfl
  | cons xp placed ih =>
    obtain ⟨x, pc⟩ := xp
    rw [List.map_cons, Prod.map_apply, codeBytes, codeBytes, id, itemBytes_mapLabels h]
    refine ((Outcome.Agree.of_eq rfl).mapFault _ _).bind ?_
    rintro bytes _ rfl
    exact ih (bytes :: seen)

/-- The table of the entries under an opcode is the same. -/
theorem tableOf_mapLabels (h : Layout.Renamed σ y y')
    {entry : Layout → Pool → Operand → Outcome (List UInt8 × Pool)} (hentry : Renamable entry)
    (op : Opcode) (p : Pool) (is : List Insn) :
    tableOf (entry y') p ((is.map (Insn.mapLabels σ)).filter fun i => i.opcode = op) =
      tableOf (entry y) p (is.filter fun i => i.opcode = op) := by
  rw [List.filter_map]
  exact tableOf_relabel hentry (fun i _ => h.knows i.labels) p

theorem tableAttribute_mapLabels (h : Layout.Renamed σ y y')
    {entry : Layout → Pool → Operand → Outcome (List UInt8 × Pool)} (hentry : Renamable entry)
    (name : Text) (op : Opcode) (p : Pool) (is : List Insn) :
    tableAttribute name (entry y') p ((is.map (Insn.mapLabels σ)).filter fun i => i.opcode = op) =
      tableAttribute name (entry y) p (is.filter fun i => i.opcode = op) := by
  have htable := tableOf_mapLabels h hentry op p is
  have hempty : ((is.map (Insn.mapLabels σ)).filter fun i => i.opcode = op).isEmpty =
      (is.filter fun i => i.opcode = op).isEmpty := by
    rw [List.filter_map]
    exact List.isEmpty_map
  rw [tableAttribute, tableAttribute, hempty, htable]

/-- **Code attributes do not show label numbers.** Renamed listings have the same code attribute and
leave the same pool, or neither can be written. -/
theorem write_agree (h : Listing.Renamed σ l l') (p : Pool) {m m' : Method}
    (hstack : m'.maxStack = m.maxStack) (hlocals : m'.maxLocals = m.maxLocals)
    (hattributes : m'.codeAttributes = m.codeAttributes) :
    Outcome.Agree (· = ·) (write p m l) (write p m' l') := by
  unfold write
  rw [h.insns_eq, hstack, hlocals, hattributes]
  refine h.resolve_agree.bind fun _ _ _ => ?_
  refine (addConstants_agree σ [] p l.insns).bind ?_
  rintro ⟨items, q⟩ ⟨items', q'⟩ ⟨hitems, hq⟩
  obtain rfl : items' = items.map (Item.mapLabels σ) := hitems
  obtain rfl : q' = q := hq
  dsimp only
  rw [List.length_map]
  refine (settle_agree h _ items.length items).bind fun y y' hy => ?_
  rw [hy.size]
  refine .ite Iff.rfl (fun _ => .fail _ _) fun _ => ?_
  rw [hy.placed]
  refine (codeBytes_agree hy _ [] y.placed).bind ?_
  rintro code _ rfl
  refine (Outcome.Agree.of_eq (tableOf_mapLabels hy renamable_handlerEntry ..).symm).bind ?_
  rintro ⟨handlers, q⟩ _ rfl
  refine (Outcome.Agree.of_eq (tableAttribute_mapLabels hy renamable_lineEntry ..).symm).bind ?_
  rintro ⟨lines, q⟩ _ rfl
  refine (Outcome.Agree.of_eq (tableAttribute_mapLabels hy renamable_localEntry ..).symm).bind ?_
  rintro ⟨locals, q⟩ _ rfl
  exact rfl

end ClassWeaver.Code
