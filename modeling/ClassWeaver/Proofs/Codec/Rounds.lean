import ClassWeaver.Proofs.Codec.Alike
import ClassWeaver.Proofs.Outcome

/-!
# Rounds of laying out

Widening a jump moves everything behind it, and what moves may be padded less, so that sizes do
not only grow. What grows with every round is the number of wide jumps: a round that changes
something widens a jump that can be widened, and none is ever narrowed. `Layout.Rounds` counts the
rounds without any fuel, and says how they end. There is at most one more than there are
instructions that jump in any case (`exists_rounds`), and where all labels are in place each of the
rounds is defined (`Rounds.gives`).
-/

namespace ClassWeaver.Code

namespace Layout

variable {p : Pool} {n k : Nat} {x x' : Item} {pc : Nat} {placed : List (Item × Nat)}
variable {items items' : List Item} {y : Layout} {l : Label} {r : Outcome Layout}

/-- A number of rounds, and how the last of them ends: with a layout in which nothing is left to
widen, or with a failure. -/
inductive Rounds (p : Pool) (n : Nat) : List Item → Nat → Outcome Layout → Prop
  | still {items items' : List Item} {y : Layout} : ofItems p n items = .ok y →
      y.widenAll [] false y.placed = .ok (items', false) → Rounds p n items 1 (.ok y)
  | unplaced {items : List Item} {f : Failure} : ofItems p n items = .error f →
      Rounds p n items 1 (.error f)
  | stuck {items : List Item} {y : Layout} {f : Failure} : ofItems p n items = .ok y →
      y.widenAll [] false y.placed = .error f → Rounds p n items 1 (.error f)
  | round {items items' : List Item} {y : Layout} {k : Nat} {r : Outcome Layout} :
      ofItems p n items = .ok y → y.widenAll [] false y.placed = .ok (items', true) →
      Rounds p n items' k r → Rounds p n items (k + 1) r

/-! ### Rounds end -/

/-- The item can be widened: it jumps in any case and is not wide. -/
def isWidenable (x : Item) : Bool := !x.wide && x.insn.opcode.isUnconditional

/-- Every item that is widened was not wide and could be widened. -/
theorem narrow_add_widenable {new : List Item}
    (h : List.Forall₂ (fun xp x' => Widened xp.1 x') placed new) :
    narrow (placed.map Prod.fst) + new.countP isWidenable =
      narrow new + (placed.map Prod.fst).countP isWidenable := by
  induction h with
  | nil => rfl
  | @cons xp x' placed new hx _ ih =>
    simp only [narrow, List.map_cons, List.countP_cons] at ih ⊢
    rcases hx with rfl | ⟨hwide, hun, rfl⟩
    · omega
    · have hbefore : isWidenable xp.1 = true := by rw [isWidenable, hwide, hun, Bool.not_false,
        Bool.and_self]
      have hafter : isWidenable { xp.1 with wide := true } = false := rfl
      simp only [hwide, hbefore, hafter, Bool.not_true, Bool.not_false, Bool.false_eq_true,
        if_false, if_true]
      omega

/-- A round that changes something leaves less to widen. -/
theorem widenable_lt (hy : ofItems p n items = .ok y)
    (h : y.widenAll [] false y.placed = .ok (items', true)) :
    items'.countP isWidenable < items.countP isWidenable := by
  obtain ⟨new, hnew, hwidened, -, -, -⟩ := widenAll_eq_ok h
  obtain rfl : items' = new := hnew
  have hlt := narrow_lt hy h
  have hsum := narrow_add_widenable hwidened
  rw [(ofItems_eq_ok hy).2.1] at hsum
  omega

/-- **Rounds end.** There is at most one more than there are items to widen. -/
theorem exists_rounds (p : Pool) (n : Nat) (items : List Item) :
    ∃ k r, Rounds p n items k r ∧ k ≤ items.countP isWidenable + 1 := by
  -- by the number of items that can still be widened
  induction hleft : items.countP isWidenable using Nat.strongRecOn generalizing items with
  | _ left ih =>
    subst hleft
    rcases hy : ofItems p n items with f | y
    · exact ⟨1, _, .unplaced hy, Nat.le_add_left ..⟩
    · rcases hw : y.widenAll [] false y.placed with f | ⟨items', changed⟩
      · exact ⟨1, _, .stuck hy hw, Nat.le_add_left ..⟩
      · cases changed with
        | false => exact ⟨1, _, .still hy hw, Nat.le_add_left ..⟩
        | true =>
          have hlt := widenable_lt hy hw
          obtain ⟨k, r, hr, hk⟩ := ih _ hlt items' rfl
          exact ⟨k + 1, r, .round hy hw hr, by omega⟩

/-- Laying out with enough fuel is going through the rounds. -/
theorem Rounds.settle_eq (h : Rounds p n items k r) {fuel : Nat} (hfuel : narrow items ≤ fuel) :
    settle p n fuel items = r := by
  induction h generalizing fuel with
  | still hy hw => exact (settle_eq_ok_iff hfuel).mpr (.still hy hw)
  | unplaced hy =>
    cases fuel with
    | zero => exact hy
    | succ fuel =>
      rw [settle, hy]
      rfl
  | @stuck items y f hy hw =>
    cases fuel with
    | zero =>
      -- where nothing can be widened, no jump is out of reach
      have hwide : ∀ xp ∈ y.placed, xp.1.wide = true := by
        intro xp hxp
        have hmem : xp.1 ∈ items := (ofItems_eq_ok hy).2.1 ▸ List.mem_map_of_mem hxp
        have hzero := List.countP_eq_zero.mp (Nat.le_zero.mp hfuel) _ hmem
        simpa using hzero
      rw [widenAll_of_wide [] false hwide] at hw
      cases hw
    | succ fuel =>
      rw [settle, hy]
      change (y.widenAll [] false y.placed >>= _) = _
      rw [hw]
      rfl
  | @round items items' y k r hy hw _ ih =>
    have hlt := narrow_lt hy hw
    obtain ⟨fuel, rfl⟩ : ∃ j, fuel = j + 1 := ⟨fuel - 1, by omega⟩
    rw [settle, hy]
    change (y.widenAll [] false y.placed >>= _) = _
    rw [hw]
    exact ih (by omega)

/-! ### Rounds are defined -/

/-- All labels of the sequence are placed in it and have numbers below `n`. -/
structure Numbered (n : Nat) (is : List Insn) : Prop where
  below : NumberedBelow n is
  placed : ∀ i ∈ is, ∀ l ∈ i.labels, l ∈ is.filterMap Insn.placed?

theorem size_recordLabels {labels table : Array Nat} (h : recordLabels labels placed = .ok table) :
    table.size = labels.size := by
  induction placed generalizing labels with
  | nil =>
    obtain rfl := Except.ok.inj h
    rfl
  | cons xp placed ih =>
    rcases recordLabels_cons h with ⟨-, h⟩ | ⟨l, -, -, -, h⟩
    · exact ih h
    · rw [ih h, Array.size_setIfInBounds]

/-- Every label of a layout of numbered items has an offset. -/
theorem exists_ofItems {is : List Insn} (hn : Numbered n is)
    (hitems : items.map Item.insn = is) :
    ∃ y, ofItems p n items = .ok y ∧ ∀ i ∈ is, ∀ l ∈ i.labels, ∃ o, y.offset l = .ok o := by
  obtain ⟨placed, stop, hplace, -, hfst⟩ := place_eq p [] 0 items
  have hlist : placedLabels placed = is.filterMap Insn.placed? :=
    placedLabels_eq (by rw [← hitems, ← hfst, List.map_map]; rfl)
  obtain ⟨table, htable⟩ := @recordLabels_of_lt placed (Array.replicate n 0) (by
    rw [hlist, Array.size_replicate]
    exact hn.below)
  refine ⟨⟨placed, stop, table⟩, ?_, fun i hi l hl => ?_⟩
  · rw [ofItems, hplace]
    change (recordLabels (Array.replicate n 0) placed >>= _) = _
    rw [htable]
    rfl
  · obtain ⟨h0, hlt⟩ := hn.below l (hn.placed i hi l hl)
    have hsize : l.toNat < table.size := by
      rw [size_recordLabels htable, Array.size_replicate]
      exact hlt
    exact ⟨table[l.toNat], offset_of_getElem? h0 (Array.getElem?_eq_getElem hsize)⟩

/-- Looking at a jump is defined if its label has an offset: what is out of reach is a fault. -/
theorem gives_widen (h : ∀ l ∈ x.insn.labels, ∃ o, y.offset l = .ok o) :
    (y.widen x pc).Gives fun z => z.1.insn = x.insn := by
  unfold widen
  split
  · next target htarget =>
    split
    · rfl
    · obtain ⟨o, ho⟩ := h target (by rw [Insn.labels, htarget]; exact List.mem_singleton.mpr rfl)
      have hdelta : y.displacement pc target = .ok (o - pc) := by
        rw [displacement, ho]
        rfl
      rw [hdelta]
      change Outcome.Gives (if _ then _ else _) _
      have hprintable : x.insn.Printable := by
        rw [Insn.Printable, Insn.text?, htarget]
        exact ⟨_, rfl⟩
      exact .ite (fun _ => rfl) fun _ => .ite (fun _ => rfl) fun _ => hprintable.blame ..
  · rfl

theorem gives_widenAll
    (h : ∀ xp ∈ placed, ∀ l ∈ xp.1.insn.labels, ∃ o, y.offset l = .ok o) (seen : List Item)
    (changed : Bool) :
    (y.widenAll seen changed placed).Gives fun z =>
      z.1.map Item.insn = (seen.reverse ++ placed.map Prod.fst).map Item.insn := by
  induction placed generalizing seen changed with
  | nil =>
    rw [List.map_nil, List.append_nil]
    rfl
  | cons xp placed ih =>
    obtain ⟨x, pc⟩ := xp
    obtain ⟨hx, hrest⟩ := List.forall_mem_cons.mp h
    have hfirst : (y.widen x pc).Gives fun z => z.1.insn = x.insn := gives_widen hx
    refine hfirst.bind fun z _ hz => (ih hrest (z.1 :: seen) _).imp ?_
    intro out _ hout
    rw [hout]
    simp [hz]

/-- **Rounds are defined.** Where all labels are placed and have numbers, what ends the rounds is
a layout or a jump that is out of reach. -/
theorem Rounds.gives (h : Rounds p n items k r) {is : List Insn} (hn : Numbered n is)
    (hitems : items.map Item.insn = is) : r.Gives fun _ => True := by
  have hlaid : ∀ {items : List Item}, items.map Item.insn = is → ∀ {y : Layout},
      ofItems p n items = .ok y →
      (y.widenAll [] false y.placed).Gives fun z => z.1.map Item.insn = is := by
    intro items hitems y hy
    obtain ⟨y', hy', hoffset⟩ := exists_ofItems (p := p) hn hitems
    obtain rfl := Except.ok.inj (hy.symm.trans hy')
    have hfst := (ofItems_eq_ok hy).2.1
    refine (gives_widenAll (fun xp hxp => hoffset _ ?_) [] false).imp fun z _ hz => ?_
    · rw [← hitems, ← hfst, List.map_map]
      exact List.mem_map_of_mem (f := fun xp : Item × Nat => xp.1.insn) hxp
    · rw [hz, List.reverse_nil, List.nil_append, hfst, hitems]
  induction h with
  | still _ _ => trivial
  | unplaced hy =>
    obtain ⟨y, hy', -⟩ := exists_ofItems (p := p) hn hitems
    rw [hy] at hy'
    cases hy'
  | stuck hy hw => exact (hlaid hitems hy).error hw
  | round hy hw _ ih => exact ih ((hlaid hitems hy).result hw)

end Layout

end ClassWeaver.Code
