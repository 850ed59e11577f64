import ClassWeaver.Code.Encode
import ClassWeaver.Proofs.Renaming.Agreement

/-!
# Instructions in place of others

Offsets come from sizes. If instructions are replaced by others that add the same constants and have
the same sizes, items and offsets are as before but for the instructions themselves
(`addConstants_mapInsn`, `place_mapInsn`). If in addition jumps are widened alike, the rounds of the
layout go the same way (`settle_mapInsn`): where one is found so is the other, with other
instructions at the same places.
-/

namespace ClassWeaver.Code

variable {g : Insn → Insn} {p : Pool} {y y' : Layout}

/-- The item with another instruction. -/
def Item.mapInsn (g : Insn → Insn) (x : Item) : Item := { x with insn := g x.insn }

/-- The layout with other instructions at the same places. -/
def Layout.mapInsn (g : Insn → Insn) (y : Layout) : Layout :=
  { y with placed := y.placed.map (Prod.map (Item.mapInsn g) id) }

theorem addConstants_mapInsn (hconstant : ∀ p i, addConstant p (g i) = addConstant p i)
    (seen : List Item) (p : Pool) (is : List Insn) :
    Outcome.Agree (fun x x' => x'.1 = x.1.map (Item.mapInsn g) ∧ x'.2 = x.2)
      (lift (addConstants seen p is))
      (lift (addConstants (seen.map (Item.mapInsn g)) p (is.map g))) := by
  induction is generalizing seen p with
  | nil => exact ⟨List.map_reverse.symm, rfl⟩
  | cons i is ih =>
    rw [List.map_cons, addConstants, addConstants, hconstant]
    cases addConstant p i with
    | error e => exact .fail _ _
    | ok out => exact ih (⟨i, out.1, false⟩ :: seen) out.2

theorem place_mapInsn (hsize : ∀ pc x, (Item.mapInsn g x).size p pc = x.size p pc)
    (seen : List (Item × Nat)) (pc : Nat) (items : List Item) :
    place p (seen.map (Prod.map (Item.mapInsn g) id)) pc (items.map (Item.mapInsn g)) =
      ((place p seen pc items).1.map (Prod.map (Item.mapInsn g) id),
        (place p seen pc items).2) := by
  induction items generalizing seen pc with
  | nil => simp [place]
  | cons x items ih =>
    rw [List.map_cons, place, place, hsize, ← ih]
    rfl

theorem recordLabels_mapInsn (hlabel : ∀ i, (g i).placed? = i.placed?) (table : Array Nat)
    (placed : List (Item × Nat)) :
    recordLabels table (placed.map (Prod.map (Item.mapInsn g) id)) = recordLabels table placed := by
  induction placed generalizing table with
  | nil => rfl
  | cons xp placed ih =>
    obtain ⟨x, pc⟩ := xp
    have hx : (x.mapInsn g).insn.placed? = x.insn.placed? := hlabel x.insn
    rw [List.map_cons, Prod.map_apply, recordLabels, recordLabels, hx]
    simp only [ih, id]

namespace Layout

theorem ofItems_mapInsn (hsize : ∀ pc x, (Item.mapInsn g x).size p pc = x.size p pc)
    (hlabel : ∀ i, (g i).placed? = i.placed?) (n : Nat) (items : List Item) :
    Outcome.Agree (fun y y' => y' = y.mapInsn g) (ofItems p n items)
      (ofItems p n (items.map (Item.mapInsn g))) := by
  have hplace := place_mapInsn hsize [] 0 items
  rw [List.map_nil] at hplace
  unfold ofItems
  dsimp only
  rw [hplace, recordLabels_mapInsn hlabel]
  refine (Outcome.Agree.of_eq rfl).bind ?_
  rintro table _ rfl
  exact rfl

/-- Each jump is widened in both layouts or in neither. -/
def WidenAlike (g : Insn → Insn) (y y' : Layout) : Prop :=
  ∀ x pc, Outcome.Agree (fun out out' => out' = Prod.map (Item.mapInsn g) id out)
    (y.widen x pc) (y'.widen (x.mapInsn g) pc)

theorem WidenAlike.widenAll (h : WidenAlike g y y') (seen : List Item) (changed : Bool)
    (placed : List (Item × Nat)) :
    Outcome.Agree (fun out out' => out' = Prod.map (List.map (Item.mapInsn g)) id out)
      (y.widenAll seen changed placed)
      (y'.widenAll (seen.map (Item.mapInsn g)) changed
        (placed.map (Prod.map (Item.mapInsn g) id))) := by
  induction placed generalizing seen changed with
  | nil => exact Prod.ext List.map_reverse.symm rfl
  | cons xp placed ih =>
    obtain ⟨x, pc⟩ := xp
    refine (h x pc).bind ?_
    rintro out _ rfl
    exact ih (out.1 :: seen) (changed || out.2)

/-- The same rounds are gone through if every round of one ends as that of the other. -/
theorem settle_mapInsn {R : Layout → Layout → Prop} {n n' : Nat}
    (hplaced : ∀ {y y'}, R y y' → y'.placed = y.placed.map (Prod.map (Item.mapInsn g) id))
    (hwiden : ∀ {y y'}, R y y' → WidenAlike g y y')
    (hitems : ∀ items, Outcome.Agree R (ofItems p n items)
      (ofItems p n' (items.map (Item.mapInsn g)))) (fuel : Nat) (items : List Item) :
    Outcome.Agree R (settle p n fuel items) (settle p n' fuel (items.map (Item.mapInsn g))) := by
  induction fuel generalizing items with
  | zero => exact hitems items
  | succ fuel ih =>
    refine (hitems items).bind fun y y' hy => ?_
    rw [hplaced hy]
    refine ((hwiden hy).widenAll [] false y.placed).bind ?_
    rintro out _ rfl
    exact .ite Iff.rfl (fun _ => ih out.1) fun _ => hy

end Layout

end ClassWeaver.Code
