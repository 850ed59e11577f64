import ClassWeaver.Proofs.Codec.Instruction

/-!
# Layouts

A layout puts items one behind the other (`Layout.Laid`) and records where labels are. Every
round of `Layout.settle` but the last widens a jump and none is ever narrowed, so that at most as
many rounds are needed as there are items: in the layout that comes out each jump reaches its
target or is wide (`Settles.same`).
-/

namespace ClassWeaver.Code

namespace Layout

/-- Items one behind the other between two offsets. -/
inductive Laid (p : Pool) : Nat → List (Item × Nat) → Nat → Prop
  | nil (pc : Nat) : Laid p pc [] pc
  | cons {pc stop : Nat} {x : Item} {rest : List (Item × Nat)} :
      Laid p (pc + x.size p pc) rest stop → Laid p pc ((x, pc) :: rest) stop

variable {p : Pool} {pc stop n : Nat} {x x' : Item} {placed rest : List (Item × Nat)}
variable {items : List Item} {y : Layout} {labels table : Array Nat} {l : Label}

theorem Laid.le (h : Laid p pc placed stop) : pc ≤ stop := by
  induction h with
  | nil => exact Nat.le_refl _
  | cons _ ih => exact Nat.le_trans (Nat.le_add_right ..) ih

/-- An item lies between the ends, with all of its bytes. -/
theorem Laid.bounds (h : Laid p pc placed stop) (hx : (x, n) ∈ placed) :
    pc ≤ n ∧ n + x.size p n ≤ stop := by
  induction h with
  | nil => cases hx
  | cons hrest ih =>
    rcases List.mem_cons.mp hx with heq | hx
    · obtain ⟨rfl, rfl⟩ := Prod.mk.inj heq
      exact ⟨Nat.le_refl _, hrest.le⟩
    · obtain ⟨hlow, hhigh⟩ := ih hx
      exact ⟨Nat.le_trans (Nat.le_add_right ..) hlow, hhigh⟩

theorem Laid.append {xs ys : List (Item × Nat)} (h : Laid p pc (xs ++ ys) stop) :
    ∃ mid, Laid p pc xs mid ∧ Laid p mid ys stop := by
  induction xs generalizing pc with
  | nil => exact ⟨pc, .nil pc, h⟩
  | cons xp xs ih =>
    cases h with
    | cons hrest =>
      obtain ⟨mid, hxs, hys⟩ := ih hrest
      exact ⟨mid, .cons hxs, hys⟩

/-- Offsets never fall. -/
theorem Laid.pairwise (h : Laid p pc placed stop) : placed.Pairwise fun xp xq => xp.2 ≤ xq.2 := by
  induction h with
  | nil => exact .nil
  | cons hrest ih =>
    refine .cons (fun xq hq => ?_) ih
    exact Nat.le_trans (Nat.le_add_right ..) (hrest.bounds hq).1

theorem one_le_size (h : x.insn.isReal = true) : 1 ≤ x.size p pc := by
  have hpseudo : ¬x.insn.opcode.isPseudo = true := by
    rw [Insn.isReal, Bool.not_eq_true'] at h
    rw [h]
    decide
  rw [Item.size, if_neg hpseudo]
  split <;> (try split) <;> (try split) <;> omega

theorem size_of_pseudo (h : x.insn.isReal = false) : x.size p pc = 0 := by
  rw [Insn.isReal, Bool.not_eq_false'] at h
  rw [Item.size, if_pos h]

/-- A place between items is where an instruction starts, or the end. -/
theorem Laid.start (h : Laid p pc placed stop) :
    pc = stop ∨ ∃ x, (x, pc) ∈ placed ∧ x.insn.isReal = true := by
  induction h with
  | nil => exact .inl rfl
  | @cons pc stop x rest hrest ih =>
    cases hx : x.insn.isReal with
    | true => exact .inr ⟨x, List.mem_cons_self, hx⟩
    | false =>
      rw [size_of_pseudo hx, Nat.add_zero] at ih
      refine ih.imp_right ?_
      rintro ⟨z, hz, hreal⟩
      exact ⟨z, List.mem_cons_of_mem _ hz, hreal⟩

theorem place_eq (p : Pool) (seen : List (Item × Nat)) (pc : Nat) (items : List Item) :
    ∃ placed stop, place p seen pc items = (seen.reverse ++ placed, stop) ∧
      Laid p pc placed stop ∧ placed.map Prod.fst = items := by
  induction items generalizing seen pc with
  | nil => exact ⟨[], pc, by rw [place, List.append_nil], .nil pc, rfl⟩
  | cons x rest ih =>
    obtain ⟨placed, stop, hplace, hlaid, hitems⟩ := ih ((x, pc) :: seen) (pc + x.size p pc)
    refine ⟨(x, pc) :: placed, stop, ?_, .cons hlaid, by rw [List.map_cons, hitems]⟩
    rw [place, hplace, List.reverse_cons, List.append_assoc, List.singleton_append]

/-! ### Offsets of labels -/

/-- The labels that items place, in order. -/
def placedLabels (placed : List (Item × Nat)) : List Label :=
  placed.filterMap fun xp => xp.1.insn.placed?

theorem placedLabels_cons_none (h : x.insn.placed? = none) :
    placedLabels ((x, pc) :: rest) = placedLabels rest :=
  List.filterMap_cons_none (f := fun xp : Item × Nat => xp.1.insn.placed?) h

theorem placedLabels_cons_some (h : x.insn.placed? = some l) :
    placedLabels ((x, pc) :: rest) = l :: placedLabels rest :=
  List.filterMap_cons_some (f := fun xp : Item × Nat => xp.1.insn.placed?) h

/-- Recording goes through all placements, and a label outside the table ends it. -/
theorem recordLabels_cons (h : recordLabels labels ((x, pc) :: rest) = .ok table) :
    (x.insn.placed? = none ∧ recordLabels labels rest = .ok table) ∨
      ∃ l, x.insn.placed? = some l ∧ 0 ≤ l ∧ l.toNat < labels.size ∧
        recordLabels (labels.setIfInBounds l.toNat pc) rest = .ok table := by
  unfold recordLabels at h
  split at h
  · next hnone => exact .inl ⟨hnone, h⟩
  · next l hl =>
    split at h
    · next hbounds =>
      simp only [Bool.and_eq_true, decide_eq_true_eq] at hbounds
      exact .inr ⟨l, hl, hbounds.1, (Int.toNat_lt hbounds.1).mpr hbounds.2, h⟩
    · cases h

/-- Every label that is placed has a number. -/
theorem recordLabels_nonneg (h : recordLabels labels placed = .ok table) :
    ∀ l ∈ placedLabels placed, 0 ≤ l := by
  induction placed generalizing labels with
  | nil =>
    intro l hl
    cases hl
  | cons xp rest ih =>
    rcases recordLabels_cons h with ⟨hnone, h⟩ | ⟨k, hk, hk0, -, h⟩
    · rw [placedLabels_cons_none hnone]
      exact ih h
    · rw [placedLabels_cons_some hk]
      intro l hl
      rcases List.mem_cons.mp hl with rfl | hl
      · exact hk0
      · exact ih h l hl

/-- A label that is not placed keeps what the table said. -/
theorem recordLabels_of_notMem (h : recordLabels labels placed = .ok table) (h0 : 0 ≤ l)
    (hl : l ∉ placedLabels placed) : table[l.toNat]? = labels[l.toNat]? := by
  induction placed generalizing labels with
  | nil =>
    obtain rfl := Except.ok.inj h
    rfl
  | cons xp rest ih =>
    rcases recordLabels_cons h with ⟨hnone, h⟩ | ⟨k, hk, hk0, -, h⟩
    · refine ih h fun hmem => hl ?_
      rw [placedLabels_cons_none hnone]
      exact hmem
    · rw [placedLabels_cons_some hk, List.mem_cons, not_or] at hl
      have hne : k.toNat ≠ l.toNat := fun e => hl.1 <| by
        rw [← Int.toNat_of_nonneg h0, ← e, Int.toNat_of_nonneg hk0]
      rw [ih h hl.2, Array.getElem?_setIfInBounds_ne hne]

/-- A label that is placed once is found at the offset of its item. -/
theorem recordLabels_of_mem (h : recordLabels labels placed = .ok table)
    (hnodup : (placedLabels placed).Nodup) (hx : (x, n) ∈ placed) (hl : x.insn.placed? = some l) :
    0 ≤ l ∧ table[l.toNat]? = some n := by
  induction placed generalizing labels with
  | nil => cases hx
  | cons xp rest ih =>
    rcases recordLabels_cons h with ⟨hnone, h⟩ | ⟨k, hk, hk0, hlt, h⟩
    · rcases List.mem_cons.mp hx with rfl | hx
      · rw [hl] at hnone
        cases hnone
      · rw [placedLabels_cons_none hnone] at hnodup
        exact ih h hnodup hx
    · rw [placedLabels_cons_some hk, List.nodup_cons] at hnodup
      rcases List.mem_cons.mp hx with rfl | hx
      · obtain rfl := Option.some.inj (hl.symm.trans hk)
        refine ⟨hk0, ?_⟩
        rw [recordLabels_of_notMem h hk0 hnodup.1, Array.getElem?_setIfInBounds_self_of_lt hlt]
      · exact ih h hnodup.2 hx

theorem recordLabels_le {bound : Nat} (h : recordLabels labels placed = .ok table)
    (hplaced : ∀ x n, (x, n) ∈ placed → n ≤ bound) (hlabels : ∀ n ∈ labels, n ≤ bound) :
    ∀ n ∈ table, n ≤ bound := by
  induction placed generalizing labels with
  | nil =>
    obtain rfl := Except.ok.inj h
    exact hlabels
  | cons xp rest ih =>
    have hrest : ∀ x n, (x, n) ∈ rest → n ≤ bound := fun x n hx =>
      hplaced x n (List.mem_cons_of_mem _ hx)
    rcases recordLabels_cons h with ⟨-, h⟩ | ⟨k, -, -, -, h⟩
    · exact ih h hrest hlabels
    · refine ih h hrest fun n hn => ?_
      rcases Array.mem_or_eq_of_mem_setIfInBounds hn with hn | rfl
      · exact hlabels n hn
      · exact hplaced xp.1 _ List.mem_cons_self

/-- What a layout is made of. -/
theorem ofItems_eq_ok (h : ofItems p n items = .ok y) :
    Laid p 0 y.placed y.size ∧ y.placed.map Prod.fst = items ∧
      recordLabels (Array.replicate n 0) y.placed = .ok y.labels := by
  obtain ⟨placed, stop, hplace, hlaid, hitems⟩ := place_eq p [] 0 items
  unfold ofItems at h
  rw [hplace] at h
  obtain ⟨table, htable, h⟩ := Except.bind_eq_ok_iff.mp h
  obtain rfl := Except.ok.inj h
  exact ⟨hlaid, hitems, htable⟩

/-! ### Widening -/

/-- The number of items that are not widened. -/
def narrow (items : List Item) : Nat := items.countP fun x => !x.wide

/-- What a round makes of an item: a jump that is always taken may be widened. -/
def Widened (x x' : Item) : Prop :=
  x' = x ∨ x.wide = false ∧ x.insn.opcode.isUnconditional = true ∧ x' = { x with wide := true }

theorem widen_eq_ok {changed : Bool} (h : y.widen x pc = .ok (x', changed)) :
    (changed = false ∧ x' = x ∧ (x.wide = false → x.Settled y pc)) ∨
      (changed = true ∧ x.wide = false ∧ x.insn.opcode.isUnconditional = true ∧
        x' = { x with wide := true }) := by
  unfold widen at h
  split at h
  · next target htarget =>
    split at h
    · next hwide =>
      obtain ⟨rfl, rfl⟩ := Prod.mk.inj (Except.ok.inj h)
      refine .inl ⟨rfl, rfl, fun hnot => ?_⟩
      rw [hwide] at hnot
      cases hnot
    · next hwide =>
      have hwide : x.wide = false := Bool.eq_false_iff.mpr hwide
      obtain ⟨delta, hdelta, h⟩ := Except.bind_eq_ok_iff.mp h
      split at h
      · -- in reach, the jump stays and is settled
        next hreach =>
        obtain ⟨rfl, rfl⟩ := Prod.mk.inj (Except.ok.inj h)
        refine .inl ⟨rfl, rfl, fun _ => ⟨fun hw => absurd hw (by rw [hwide]; decide), ?_⟩⟩
        intro target' delta' htarget' _ hdelta'
        obtain rfl := Operand.jump.inj (htarget.symm.trans htarget')
        obtain rfl := Except.ok.inj (hdelta.symm.trans hdelta')
        exact hreach
      · split at h
        · -- out of reach, only the jumps with a far form are widened
          next hun =>
          obtain ⟨rfl, rfl⟩ := Prod.mk.inj (Except.ok.inj h)
          exact .inr ⟨rfl, hwide, hun, rfl⟩
        · cases h
  · next hjump =>
    obtain ⟨rfl, rfl⟩ := Prod.mk.inj (Except.ok.inj h)
    refine .inl ⟨rfl, rfl, fun hwide => ⟨fun hw => absurd hw (by rw [hwide]; decide), ?_⟩⟩
    intro target delta htarget
    exact absurd htarget (hjump target)

/-- A round of widening: it changes nothing if all jumps reach, and else widens one at least. -/
theorem widenAll_eq_ok {seen out : List Item} {changed changed' : Bool}
    (h : y.widenAll seen changed placed = .ok (out, changed')) :
    ∃ new, out = seen.reverse ++ new ∧
      List.Forall₂ (fun xp x' => Widened xp.1 x') placed new ∧
      (changed' = false → changed = false ∧ new = placed.map Prod.fst ∧
        ∀ x pc, (x, pc) ∈ placed → x.wide = false → x.Settled y pc) ∧
      (changed' = true → changed = true ∨ narrow new < narrow (placed.map Prod.fst)) ∧
      narrow new ≤ narrow (placed.map Prod.fst) := by
  induction placed generalizing seen changed with
  | nil =>
    obtain ⟨rfl, rfl⟩ := Prod.mk.inj (Except.ok.inj h)
    exact ⟨[], (List.append_nil _).symm, .nil, fun hc => ⟨hc, rfl, fun x pc hx => nomatch hx⟩,
      .inl, Nat.le_refl _⟩
  | cons xp rest ih =>
    obtain ⟨x, pc⟩ := xp
    obtain ⟨⟨x', c⟩, hx, h⟩ := Except.bind_eq_ok_iff.mp h
    obtain ⟨new, rfl, hwidened, hsame, hless, hle⟩ := ih h
    refine ⟨x' :: new, by simp, ?_⟩
    -- an item stays and the rest decides, or it is one narrow jump less
    rcases widen_eq_ok hx with ⟨rfl, rfl, hsettled⟩ | ⟨rfl, hwide, hun, rfl⟩
    · rw [Bool.or_false] at hsame hless
      refine ⟨.cons (.inl rfl) hwidened, fun hc => ?_, fun hc => ?_, ?_⟩
      · obtain ⟨hchanged, rfl, hall⟩ := hsame hc
        refine ⟨hchanged, rfl, fun z n hz hwide => ?_⟩
        rcases List.mem_cons.mp hz with heq | hz
        · obtain ⟨rfl, rfl⟩ := Prod.mk.inj heq
          exact hsettled hwide
        · exact hall z n hz hwide
      · refine (hless hc).imp_right fun hlt => ?_
        simp only [narrow, List.map_cons, List.countP_cons] at hlt ⊢
        omega
      · simp only [narrow, List.map_cons, List.countP_cons] at hle ⊢
        omega
    · refine ⟨.cons (.inr ⟨hwide, hun, rfl⟩) hwidened, fun hc => ?_, fun _ => .inr ?_, ?_⟩
      · rw [Bool.or_true] at hsame
        exact absurd (hsame hc).1 (by decide)
      all_goals
        simp only [narrow, List.map_cons, List.countP_cons, hwide, Bool.not_true, Bool.not_false,
          Bool.false_eq_true, if_false, if_true] at hle ⊢
        omega

/-- An instruction with the index of its constant. -/
def core (x : Item) : Insn × UInt16 := (x.insn, x.constant)

/-- The same instructions and constants, and only jumps that are always taken are wide. -/
structure Same (items items' : List Item) : Prop where
  core : items'.map core = items.map core
  wide : (∀ x ∈ items, x.wide = true → x.insn.opcode.isUnconditional = true) →
    ∀ x ∈ items', x.wide = true → x.insn.opcode.isUnconditional = true

theorem Same.refl (items : List Item) : Same items items := ⟨rfl, fun h => h⟩

theorem Same.trans {items' items'' : List Item} (h : Same items items')
    (h' : Same items' items'') : Same items items'' :=
  ⟨h'.core.trans h.core, fun hw => h'.wide (h.wide hw)⟩

theorem same_of_widened {new : List Item}
    (h : List.Forall₂ (fun xp x' => Widened xp.1 x') placed new) :
    Same (placed.map Prod.fst) new := by
  induction h with
  | nil => exact .refl []
  | @cons xp x' rest new hx _ ih =>
    have hcore : Layout.core x' = Layout.core xp.1 := by
      rcases hx with rfl | ⟨-, -, rfl⟩ <;> rfl
    refine ⟨?_, fun hw z hz hzw => ?_⟩
    · rw [List.map_cons, List.map_cons, List.map_cons, hcore, ih.core]
    · rcases List.mem_cons.mp hz with rfl | hz
      · rcases hx with rfl | ⟨-, hun, rfl⟩
        · exact hw _ List.mem_cons_self hzw
        · exact hun
      · exact ih.wide (fun x hx => hw x (List.mem_cons_of_mem _ hx)) z hz hzw

theorem settled_of_wide (hx : x.wide = true) (hun : x.insn.opcode.isUnconditional = true) :
    x.Settled y pc := by
  refine ⟨fun _ => hun, fun target delta _ hfar => ?_⟩
  rw [Item.isFar, hx] at hfar
  cases hfar

/-- Rounds of widening up to one that changes nothing. -/
inductive Settles (p : Pool) (n : Nat) : List Item → Layout → Prop
  | still {items items' : List Item} {y : Layout} : ofItems p n items = .ok y →
      y.widenAll [] false y.placed = .ok (items', false) → Settles p n items y
  | round {items items' : List Item} {y₀ y : Layout} : ofItems p n items = .ok y₀ →
      y₀.widenAll [] false y₀.placed = .ok (items', true) → Settles p n items' y →
      Settles p n items y

/-- Widening goes on only as long as there is something to widen. -/
theorem narrow_lt (hy : ofItems p n items = .ok y) {items' : List Item}
    (h : y.widenAll [] false y.placed = .ok (items', true)) : narrow items' < narrow items := by
  obtain ⟨new, hnew, -, -, hless, -⟩ := widenAll_eq_ok h
  obtain rfl : items' = new := hnew
  rw [(ofItems_eq_ok hy).2.1] at hless
  exact (hless rfl).resolve_left Bool.false_ne_true

theorem widenAll_of_wide (seen : List Item) (changed : Bool)
    (h : ∀ xp ∈ placed, xp.1.wide = true) :
    y.widenAll seen changed placed = .ok (seen.reverse ++ placed.map Prod.fst, changed) := by
  induction placed generalizing seen with
  | nil => rw [widenAll, List.map_nil, List.append_nil]
  | cons xp rest ih =>
    obtain ⟨x, pc⟩ := xp
    have hx : y.widen x pc = .ok (x, false) := by
      unfold widen
      split
      · rw [if_pos (h (x, pc) List.mem_cons_self)]
      · rfl
    have hrest := ih (x :: seen) fun xp hxp => h xp (List.mem_cons_of_mem _ hxp)
    rw [widenAll, hx]
    change y.widenAll (x :: seen) (changed || false) rest = _
    rw [Bool.or_false, hrest, List.reverse_cons, List.append_assoc, List.singleton_append,
      List.map_cons]

/-- There are no more rounds than items to widen, so that the fuel is never used up. -/
theorem settle_eq_ok_iff {fuel : Nat} (hfuel : narrow items ≤ fuel) :
    settle p n fuel items = .ok y ↔ Settles p n items y := by
  constructor
  · intro h
    induction fuel generalizing items with
    | zero =>
      -- no item is left to widen
      have hwide : ∀ xp ∈ y.placed, xp.1.wide = true := by
        intro xp hxp
        have hmem : xp.1 ∈ items := (ofItems_eq_ok h).2.1 ▸ List.mem_map_of_mem hxp
        have hzero : narrow items = 0 := Nat.le_zero.mp hfuel
        rw [narrow, List.countP_eq_zero] at hzero
        simpa using hzero _ hmem
      exact .still h (widenAll_of_wide [] false hwide)
    | succ fuel ih =>
      obtain ⟨y₀, hy₀, h⟩ := Except.bind_eq_ok_iff.mp h
      obtain ⟨⟨items', changed⟩, hnew, h⟩ := Except.bind_eq_ok_iff.mp h
      cases changed with
      | true =>
        have hlt := narrow_lt hy₀ hnew
        exact .round hy₀ hnew (ih (by omega) h)
      | false =>
        obtain rfl := Except.ok.inj h
        exact .still hy₀ hnew
  · intro h
    induction h generalizing fuel with
    | still hy hnew =>
      cases fuel with
      | zero => exact hy
      | succ fuel =>
        rw [settle, hy]
        change (Layout.widenAll _ [] false _ >>= _) = _
        rw [hnew]
        rfl
    | round hy₀ hnew _ ih =>
      have hlt := narrow_lt hy₀ hnew
      obtain ⟨fuel, rfl⟩ : ∃ k, fuel = k + 1 := ⟨fuel - 1, by omega⟩
      rw [settle, hy₀]
      change (Layout.widenAll _ [] false _ >>= _) = _
      rw [hnew]
      exact ih (by omega)

/-- Widening ends with a layout in which every jump reaches its target or is wide. -/
theorem Settles.same (h : Settles p n items y)
    (hwide : ∀ x ∈ items, x.wide = true → x.insn.opcode.isUnconditional = true) :
    ∃ items', Same items items' ∧ ofItems p n items' = .ok y ∧
      ∀ x pc, (x, pc) ∈ y.placed → x.Settled y pc := by
  induction h with
  | @still items items' y hy hnew =>
    obtain ⟨-, hitems, -⟩ := ofItems_eq_ok hy
    obtain ⟨new, -, -, hsame, -, -⟩ := widenAll_eq_ok hnew
    refine ⟨items, .refl items, hy, fun x pc hx => ?_⟩
    have hmem : x ∈ items := hitems ▸ List.mem_map_of_mem hx
    cases hw : x.wide with
    | false => exact (hsame rfl).2.2 x pc hx hw
    | true => exact settled_of_wide hw (hwide x hmem hw)
  | round hy₀ hnew _ ih =>
    obtain ⟨new, hout, hwidened, -, -, -⟩ := widenAll_eq_ok hnew
    obtain rfl : _ = new := hout
    have hSame := same_of_widened hwidened
    rw [(ofItems_eq_ok hy₀).2.1] at hSame
    obtain ⟨items', hitems', hy, hsettled⟩ := ih (hSame.wide hwide)
    exact ⟨items', hSame.trans hitems', hy, hsettled⟩

end Layout

end ClassWeaver.Code
