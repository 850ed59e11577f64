import ClassWeaver.Proofs.Enhance.Scanning
import ClassWeaver.Proofs.Enhance.Stretch
import ClassWeaver.Proofs.Stack.Blocks

/-!
# Enhanced code keeps its heights

The standard rules splice code into a listing while they scan it: a choice between two kinds of
access in place of a byte access, and a cast behind what pushed an array. What a splice leaves as it
was is `Listing.Carried`: the heights and instructions of the nodes that stay and the nodes that
labels are bound to. Each visit of the scan is carried (`visit_standard`), and by induction on the
nodes that are still to be visited so is the whole scan, which leaves no byte access
(`Ends.carried`). -/

namespace ClassWeaver

namespace Listing

variable {l l' l'' : Listing} {h h' h'' : Ref → Option Nat} {xs ys : List Ref} {old : Option Ref}
variable {code : List Insn} {r : Ref}

/-- What `l'` with heights `h'` has kept of `l` with heights `h`: nodes that were there have their
instructions and, if they are still part of the sequence, their heights; bound labels are bound to
the same nodes; and new instructions are well-shaped and are not the return from a subroutine. -/
structure Carried (l : Listing) (h : Ref → Option Nat) (l' : Listing) (h' : Ref → Option Nat) :
    Prop where
  built : l'.Built
  flow : l'.FlowHeights h'
  size_le : l.nodes.size ≤ l'.nodes.size
  old_or_new : ∀ r ∈ l'.refs, r ∈ l.refs ∨ l.nodes.size ≤ r
  insn : ∀ r < l.nodes.size, l'.insn? r = l.insn? r
  height : ∀ r ∈ l.refs, r ∈ l'.refs → h' r = h r
  binding : ∀ lbl r, l.binding lbl = some r → l'.binding lbl = some r
  insns : ∀ i ∈ l'.insns, i ∈ l.insns ∨ (i.WellShaped ∧ i.opcode ≠ .ret)

namespace Carried

theorem refl (hl : l.Built) (hh : l.FlowHeights h) : l.Carried h l h where
  built := hl
  flow := hh
  size_le := le_rfl
  old_or_new _ hr := .inl hr
  insn _ _ := rfl
  height _ _ _ := rfl
  binding _ _ hb := hb
  insns _ hi := .inl hi

theorem trans (hl : l.WellFormed) (h₁ : l.Carried h l' h') (h₂ : l'.Carried h' l'' h'') :
    l.Carried h l'' h'' where
  built := h₂.built
  flow := h₂.flow
  size_le := h₁.size_le.trans h₂.size_le
  old_or_new r hr := by
    rcases h₂.old_or_new r hr with hr | hle
    · exact h₁.old_or_new r hr
    · exact .inr (h₁.size_le.trans hle)
  insn r hr := (h₂.insn r (hr.trans_le h₁.size_le)).trans (h₁.insn r hr)
  height r hr hr'' := by
    -- a node that is part of both ends is part of the middle: what is new in the end is beyond it
    have hlt : r < l'.nodes.size := (hl.spells.lt_size hr).trans_le h₁.size_le
    have hr' := (h₂.old_or_new r hr'').resolve_right (Nat.not_le.mpr hlt)
    rw [h₂.height r hr' hr'', h₁.height r hr hr']
  binding lbl r hb := h₂.binding lbl r (h₁.binding lbl r hb)
  insns i hi := (h₂.insns i hi).elim (h₁.insns i) .inr

end Carried

/-- A splice that has heights carries everything on. -/
theorem Spliced.carried (hs : l.Spliced l' xs old code ys) (hl : l.WellFormed)
    (hh' : l'.FlowHeights h') (hkept : ∀ r ∈ xs ++ ys, h' r = h r)
    (hcode : ∀ i ∈ code, i.WellShaped ∧ i.opcode ≠ .ret) : l.Carried h l' h' where
  built := hs.built
  flow := hh'
  size_le := by rw [hs.size_eq]; exact Nat.le_add_right ..
  old_or_new r hr := by
    rcases hs.mem_refs'.mp hr with hkept | hnew
    · exact .inl (hs.mem_refs.mpr (.inl hkept))
    · exact .inr (List.mem_range'_1.mp hnew).1
  insn _ hr := hs.insn?_old hr
  height r hr hr' := by
    rcases hs.mem_refs'.mp hr' with hmem | hnew
    · exact hkept r hmem
    · exact absurd (hl.spells.lt_size hr) (Nat.not_lt.mpr (List.mem_range'_1.mp hnew).1)
  binding _ _ hb := hs.binding hb
  insns i hi := by
    obtain ⟨r, hr, hri⟩ := List.mem_filterMap.mp hi
    rcases hs.mem_refs'.mp hr with hmem | hnew
    · rw [hs.insn?_old (hs.lt_size hl hmem)] at hri
      exact .inl (List.mem_filterMap.mpr ⟨r, hs.mem_refs.mpr (.inl hmem), hri⟩)
    · obtain ⟨k, -, rfl⟩ := List.mem_range'.mp hnew
      rw [Nat.one_mul, hs.insn?_new] at hri
      exact .inr (hcode i (List.mem_of_getElem? hri))

end Listing

/-- The instruction accesses an array of bytes or truth values. -/
def Insn.IsByteAccess (i : Insn) : Prop := i.opcode = .bastore ∨ i.opcode = .baload

instance (i : Insn) : Decidable i.IsByteAccess := inferInstanceAs (Decidable (_ ∨ _))

namespace Enhance

open Listing

variable {l l' : Listing} {h : Ref → Option Nat} {boundary : Boundary} {xs ys : List Ref}
variable {r : Ref} {resume : Option Ref} {i : Insn}

/-! ### The choice between two accesses -/

/-- What takes the place of a store of a byte or truth value. -/
def storeChoice : Label → Label → List Insn :=
  dispatchCode [.plain .dupX2, .plain .pop, .plain .dupX2, .plain .pop, .plain .dupX2]
    (accessor "setBoolean" "(Ljava/lang/Object;IZ)V") (accessor "setByte" "(Ljava/lang/Object;IB)V")

/-- What takes the place of a load of a byte or truth value. -/
def loadChoice : Label → Label → List Insn :=
  dispatchCode [.plain .swap, .plain .dupX1]
    (accessor "getBoolean" "(Ljava/lang/Object;I)Z") (accessor "getByte" "(Ljava/lang/Object;I)B")

/-- Two labels in place of the labels 0 and 1. -/
def pick (a b : Label) (lbl : Label) : Label := if lbl = 0 then a else b

/-- The code is a block of the effect for any two labels, which it places once each. It can take the
place of a byte access and holds none. -/
structure IsChoice (code : Label → Label → List Insn) (e : Effect) (heights : List Nat) : Prop where
  balanced : ∀ a b, Balanced (code a b) heights
  need : heights[0]? = some e.pops
  left : ∀ a b, heights[(code a b).length]? = some e.pushes
  placed : ∀ a b, (code a b).filterMap Insn.placed? = [a, b]
  insns : ∀ a b, ∀ i ∈ code a b, i.WellShaped ∧ i.opcode ≠ .ret ∧ ¬i.IsByteAccess

/-- A choice can be checked at two labels: others are put in their place. -/
theorem IsChoice.of_labels {code : Label → Label → List Insn} {e : Effect} {heights : List Nat}
    (hcode : ∀ a b, code a b = (code 0 1).map (Insn.mapLabels (pick a b)))
    (hbal : Balanced (code 0 1) heights) (hneed : heights[0]? = some e.pops)
    (hleft : heights[(code 0 1).length]? = some e.pushes)
    (hplaced : (code 0 1).filterMap Insn.placed? = [0, 1])
    (hinsns : ∀ i ∈ code 0 1, i.WellShaped ∧ i.opcode ≠ .ret ∧ ¬i.IsByteAccess) :
    IsChoice code e heights where
  balanced a b := by
    rw [hcode]
    exact hbal.mapLabels _
  need := hneed
  left a b := by rw [hcode, List.length_map, hleft]
  placed a b := by
    have hmap : (code a b).filterMap Insn.placed? =
        ((code 0 1).filterMap Insn.placed?).map (pick a b) := by
      rw [hcode, List.filterMap_map, List.map_filterMap]
      exact List.filterMap_congr fun i _ => Insn.placed?_rename (pick a b) i
    rw [hmap, hplaced]
    rfl
  insns a b i hi := by
    rw [hcode] at hi
    obtain ⟨j, hj, rfl⟩ := List.mem_map.mp hi
    obtain ⟨hshape, hret, hbyte⟩ := hinsns j hj
    exact ⟨hshape.mapLabels _, hret, hbyte⟩

/-- A store takes array, index and value. -/
theorem isChoice_store :
    IsChoice storeChoice ⟨3, 0⟩ [3, 4, 3, 4, 3, 4, 4, 4, 5, 3, 0, 3, 3, 0, 0] :=
  .of_labels (fun _ _ => rfl) (by decide +kernel) rfl rfl rfl (by decide +kernel)

/-- A load takes array and index and leaves the value. -/
theorem isChoice_load : IsChoice loadChoice ⟨2, 1⟩ [2, 2, 3, 3, 3, 4, 2, 1, 2, 2, 1, 1] :=
  .of_labels (fun _ _ => rfl) (by decide +kernel) rfl rfl rfl (by decide +kernel)

/-- A choice is made with two new labels, and the scan goes on behind it. -/
theorem of_dispatch {arrange : List Insn} {onBoolean onByte : Insn}
    (hs : l.Spells (xs ++ r :: ys))
    (hd : dispatch arrange onBoolean onByte l r = (l', .ok resume)) :
    ∃ code, code = dispatchCode arrange onBoolean onByte l.numLabels l.newLabel.2.numLabels ∧
      l' = (l.newLabel.2.newLabel.2.insertAllAfter (some r) code).2.remove r ∧
      resume = (List.range' l.nodes.size code.length).getLast? := by
  obtain ⟨code, hcode⟩ : ∃ code, code =
    dispatchCode arrange onBoolean onByte l.numLabels l.newLabel.2.numLabels := ⟨_, rfl⟩
  have hd' : ((l.newLabel.2.newLabel.2.insertAllAfter (some r) code).2.remove r,
      Except.ok (l.newLabel.2.newLabel.2.insertAllAfter (some r) code).1) =
        (l', (Except.ok resume : Outcome (Option Ref))) := by
    rw [← hd, hcode]
    rfl
  obtain ⟨rfl, hres⟩ := Prod.mk.inj hd'
  refine ⟨code, hcode, rfl, ?_⟩
  obtain ⟨m, hm⟩ : ∃ m, code.length = m + 1 := by simp [hcode, dispatchCode]
  have hsize : l.newLabel.2.newLabel.2.nodes.size = l.nodes.size := rfl
  rw [← Except.ok.inj hres, (Spliced.insertAllAfter_mirrors hs.newLabel.newLabel code).1, hsize, hm,
    List.range'_succ, List.getLast?_cons, Option.some_or]

section Dispatch

variable {arrange : List Insn} {onBoolean onByte : Insn} {e : Effect} {heights : List Nat}

variable (hl : l.Built) (hrefs : l.refs = xs ++ r :: ys)
variable (hc : IsChoice (dispatchCode arrange onBoolean onByte) e heights)
variable (hd : dispatch arrange onBoolean onByte l r = (l', .ok resume))

include hl hrefs hc hd

/-- A choice is spliced in with two new labels, and the scan goes on behind it. -/
theorem spliced_dispatch (hp : l.placedAt r = none) : ∃ a b,
    l.Spliced l' xs (some r) (dispatchCode arrange onBoolean onByte a b) ys ∧
      resume = (List.range' l.nodes.size
      (dispatchCode arrange onBoolean onByte a b).length).getLast? := by
  have hwf := hl.wellFormed
  have hwf₁ := hwf.newLabel
  obtain ⟨code, hcode, rfl, hres⟩ := of_dispatch (hrefs ▸ hwf.spells) hd
  obtain ⟨a, ha⟩ : ∃ a : Label, a = (l.numLabels : Int) := ⟨_, rfl⟩
  obtain ⟨b, hb⟩ : ∃ b : Label, b = (l.newLabel.2.numLabels : Int) := ⟨_, rfl⟩
  rw [← ha, ← hb] at hcode
  have hrefs' : l.newLabel.2.newLabel.2.refs = xs ++ r :: ys := by
    rw [hwf₁.spells.newLabel.refs_eq, hwf.spells.newLabel.refs_eq, hrefs]
  have hplaced : code.filterMap Insn.placed? = [a, b] := hcode ▸ hc.placed a b
  -- the two labels are new, so neither is placed in the listing
  have hab : a < b := by
    have hsize : l.newLabel.2.numLabels = l.numLabels + 1 := by simp [numLabels, newLabel]
    rw [ha, hb, hsize]
    exact Int.lt_succ _
  have hnew : ∀ i ∈ code, ∀ lbl, i.placed? = some lbl →
      0 ≤ lbl ∧ l.newLabel.2.newLabel.2.binding lbl = none := by
    intro i hi lbl hlbl
    have hmem : lbl ∈ [a, b] := hplaced ▸ List.mem_filterMap.mpr ⟨i, hi, hlbl⟩
    have hle : (l.numLabels : Int) ≤ lbl := by
      simp only [List.mem_cons, List.not_mem_nil, or_false] at hmem
      rcases hmem with rfl | rfl
      · exact le_of_eq ha.symm
      · exact ha ▸ hab.le
    refine ⟨Int.le_trans (Int.natCast_nonneg _) hle, ?_⟩
    rw [binding_newLabel, binding_newLabel, binding_of_numLabels_le hle]
  have honce : (code.filterMap Insn.placed?).Nodup := by
    rw [hplaced]
    simpa using hab.ne
  have hs := Spliced.replace hl.newLabel.newLabel hrefs' hp hnew honce
  exact ⟨a, b, hcode ▸ (hs.of_newLabel hwf₁).of_newLabel hwf, hcode ▸ hres⟩

/-- A choice in place of an access that does the same to the stack carries everything on. -/
theorem carried_dispatch (hh : l.FlowHeights h) (hi : l.insn? r = some i) (he : i.Straight e)
    (hplaced : i.placed? = none) (hop : i.opcode ≠ .tryCatch) :
    ∃ news h', l'.refs = xs ++ (news ++ ys) ∧ news ≠ [] ∧ resume = news.getLast? ∧
      l.Carried h l' h' ∧ ∀ q ∈ news, ∀ j, l'.insn? q = some j → ¬j.IsByteAccess := by
  have hwf := hl.wellFormed
  have hp : l.placedAt r = none := by rw [placedAt, hi, Option.bind_some, hplaced]
  obtain ⟨a, b, hs, hres⟩ := spliced_dispatch hl hrefs hc hd hp
  have hne : dispatchCode arrange onBoolean onByte a b ≠ [] := by simp [dispatchCode]
  have hold : ∀ q j, some r = some q → l.insn? q = some j →
      j.branches = [] ∧ j.opcode ≠ .tryCatch := by
    rintro q j ⟨⟩ hj
    obtain rfl : i = j := Option.some.inj (hi.symm.trans hj)
    exact ⟨he.branches, hop⟩
  -- the choice does to the stack what the access did
  have hflow : ∀ n, h r = some n → e.pops ≤ n ∧
      ∃ u, ys.head? = some u ∧ h u = some (n - e.pops + e.pushes) := by
    intro n hn
    obtain ⟨hpop, u, hu, hhu⟩ := straight_height hh hi he hn
    have hsp : l.Spells (xs ++ r :: ys) := hrefs ▸ hwf.spells
    exact ⟨hpop, u, hsp.next_eq ▸ hu, hhu⟩
  obtain ⟨hh', hkept⟩ := FlowHeights.splice hs hwf hne (hc.balanced a b) rfl hp hold hc.need
    (hc.left a b) hflow hh
  have hinsns := hc.insns a b
  refine ⟨_, _, hs.refs_eq', ?_, hres,
    hs.carried hwf hh' hkept fun j hj => ⟨(hinsns j hj).1, (hinsns j hj).2.1⟩, fun q hq j hj => ?_⟩
  · simp [dispatchCode]
  · obtain ⟨k, -, rfl⟩ := List.mem_range'.mp hq
    rw [Nat.one_mul, hs.insn?_new] at hj
    exact (hinsns j (List.mem_of_getElem? hj)).2.2

end Dispatch

/-! ### The cast behind a producer -/

theorem balanced_cast (desc : Text) : Balanced [⟨.checkCast, .type desc⟩] [1, 1] := by
  intro k hk
  obtain rfl : k = 0 := by simpa using hk
  refine ⟨⟨_, rfl, 1, rfl, ⟨1, 1⟩, rfl, rfl, rfl, nofun, le_rfl, fun _ => rfl, nofun⟩, ?_⟩
  exact ⟨0, Nat.one_pos, _, rfl, .inl ⟨rfl, rfl⟩⟩

/-- A cast behind what pushed an array carries everything on. -/
theorem carried_narrow {desc : Text} (hl : l.Built) (hrefs : l.refs = xs ++ r :: ys)
    (hh : l.FlowHeights h) (hret : ∀ i ∈ l.insns, i.opcode ≠ .ret) (hi : l.insn? r = some i)
    (hstore : i.opcode.isArrayStore = true) (hd : narrow boundary desc l r = (l', .ok resume)) :
    resume = some r ∧ ∃ front h', l'.refs = front ++ r :: ys ∧ l.Carried h l' h' ∧
      ∀ q ∈ front, q ∈ xs ∨ ∀ j, l'.insn? q = some j → ¬j.IsByteAccess := by
  have hwf := hl.wellFormed
  have hsp : l.Spells (xs ++ r :: ys) := hrefs ▸ hwf.spells
  have hstays : l.Carried h l h := .refl hl hh
  unfold narrow at hd
  split at hd
  · cases hd
  · obtain ⟨rfl, hres⟩ := Prod.mk.inj hd
    exact ⟨(Except.ok.inj hres).symm, xs, h, hrefs, hstays, fun q hq => .inl hq⟩
  · next p hp =>
    dsimp only at hd
    split at hd
    · obtain ⟨rfl, hres⟩ := Prod.mk.inj hd
      exact ⟨(Except.ok.inj hres).symm, xs, h, hrefs, hstays, fun q hq => .inl hq⟩
    · obtain ⟨rfl, hres⟩ := Prod.mk.inj hd
      have hret' : ∀ b ∈ l.refs, ∀ i, l.insn? b = some i → i.opcode ≠ .ret := fun b hb j hj =>
        hret j (List.mem_filterMap.mpr ⟨b, hb, hj⟩)
      -- the cast takes the array and leaves one, so it keeps every height behind it
      obtain ⟨as, bs, rfl, hstretch⟩ := stretch_of_producer? hsp hret' hi hstore hp
      have hrefs' : l.refs = as ++ p :: (bs ++ r :: ys) := by simpa using hrefs
      have hsp' : l.Spells ((as ++ [p]) ++ (bs ++ r :: ys)) := by simpa using hsp
      have hs := Spliced.insertAfter (i := ⟨.checkCast, .type desc⟩) hl hrefs' rfl
      obtain ⟨t, ht⟩ : ∃ t, (bs ++ [r]).head? = some t := by cases bs <;> simp
      have ht' : ((none : Option Ref).toList ++ (bs ++ r :: ys)).head? = some t := by
        cases bs <;> exact ht
      have hfree := hstretch.placed t ht
      have hflow : ∀ n, h t = some n →
          1 ≤ n ∧ ∃ u, (bs ++ r :: ys).head? = some u ∧ h u = some (n - 1 + 1) := fun n hn =>
        have hone := hstretch.one_le_height hsp' hh hi hstore ht hn
        ⟨hone, t, ht', by rw [hn, Nat.sub_add_cancel hone]⟩
      obtain ⟨hh', hkept⟩ :=
        FlowHeights.splice hs hwf (by simp) (balanced_cast desc) ht' hfree nofun rfl rfl
        hflow hh
      have hcode : ∀ j ∈ [(⟨.checkCast, .type desc⟩ : Insn)], j.WellShaped ∧ j.opcode ≠ .ret := by
        intro j hj
        rw [List.mem_singleton.mp hj]
        exact ⟨.inl rfl, nofun⟩
      refine ⟨(Except.ok.inj hres).symm, as ++ p :: l.nodes.size :: bs, _, ?_,
        hs.carried hwf hh' hkept hcode, fun q hq => ?_⟩
      · simpa using hs.refs_eq'
      · by_cases hnew : q = l.nodes.size
        · refine .inr fun j hj => ?_
          have hcast := hs.insn?_new 0
          rw [Nat.add_zero, ← hnew, hj, List.getElem?_cons_zero, Option.some.injEq] at hcast
          subst hcast
          exact nofun
        · simp only [List.mem_append, List.mem_cons] at hq ⊢
          tauto

/-! ### What is behind a node -/

/-- A choice stands in front of what was behind the access. -/
theorem spells_dispatch {arrange : List Insn} {onBoolean onByte : Insn}
    (hs : l.Spells (xs ++ r :: ys))
    (hd : dispatch arrange onBoolean onByte l r = (l', .ok resume)) :
    ∃ front, l'.Spells (front ++ ys) ∧ resume = front.getLast? := by
  obtain ⟨code, hcode, rfl, rfl⟩ := of_dispatch hs hd
  obtain ⟨-, hm⟩ := Spliced.insertAllAfter_mirrors hs.newLabel.newLabel code
  have hne : List.range' l.nodes.size code.length ≠ [] := by simp [hcode, dispatchCode]
  refine ⟨xs ++ List.range' l.nodes.size code.length, ?_, ?_⟩
  · rw [List.append_assoc]
    exact hm.spells.remove
  · rw [List.getLast?_append_of_ne_nil _ hne]

/-- A cast stands in front of the store. -/
theorem spells_narrow {desc : Text} (hs : l.Spells (xs ++ r :: ys)) (hi : l.insn? r = some i)
    (hstore : i.opcode.isArrayStore = true) (hd : narrow boundary desc l r = (l', .ok resume)) :
    ∃ front, l'.Spells (front ++ ys) ∧ resume = front.getLast? := by
  have hstays : l.Spells ((xs ++ [r]) ++ ys) := by simpa using hs
  unfold narrow at hd
  split at hd
  · cases hd
  · obtain ⟨rfl, hres⟩ := Prod.mk.inj hd
    exact ⟨_, hstays, by rw [← Except.ok.inj hres, List.getLast?_concat]⟩
  · next p hp =>
    dsimp only at hd
    split at hd
    · obtain ⟨rfl, hres⟩ := Prod.mk.inj hd
      exact ⟨_, hstays, by rw [← Except.ok.inj hres, List.getLast?_concat]⟩
    · obtain ⟨rfl, hres⟩ := Prod.mk.inj hd
      obtain ⟨as, bs, rfl, -⟩ := split_of_producer? hs hi hstore hp
      have hs' : l.Spells (as ++ p :: (bs ++ r :: ys)) := by simpa using hs
      refine ⟨(as ++ p :: l.nodes.size :: bs) ++ [r], ?_, ?_⟩
      · simpa using hs'.insertAfter ⟨.checkCast, .type desc⟩
      · rw [← Except.ok.inj hres, List.getLast?_concat]

end Enhance

/-! ### The scan -/

namespace Chain

open Listing Enhance

variable {ctx : Context} {l l' : Listing}
variable {h : Ref → Option Nat} {xs ys rest : List Ref} {r : Ref} {resume : Option Ref}

/-- A visit of a node carries everything on, leaves no byte access behind it and goes on in front of
the nodes that are still to be visited. -/
theorem visit_standard (hl : l.Built) (hh : l.FlowHeights h) (hret : ∀ i ∈ l.insns, i.opcode ≠ .ret)
    (hrefs : l.refs = xs ++ r :: ys)
    (hbyte : ∀ q ∈ xs, ∀ i, l.insn? q = some i → ¬i.IsByteAccess)
    (hv : standard.visit ctx l r = (l', .ok resume)) :
    ∃ front h', l'.refs = front ++ ys ∧ resume = front.getLast? ∧ l.Carried h l' h' ∧
      ∀ q ∈ front, ∀ i, l'.insn? q = some i → ¬i.IsByteAccess := by
  have hwf := hl.wellFormed
  have hlt : ∀ q ∈ xs, q < l.nodes.size := fun q hq => hwf.spells.lt_size (by simp [hrefs, hq])
  have hmem : r ∈ l.refs := by simp [hrefs]
  have hltr : r < l.nodes.size := hwf.spells.lt_size hmem
  obtain ⟨i, hi⟩ := hwf.spells.exists_insn hmem
  rcases visit_eq_ok hi hv with ⟨hnone, rfl, rfl⟩ | ⟨rule, hrule, hd, -⟩
  · -- no rule applies, so the node is no byte access
    have hi' : ¬i.IsByteAccess := by
      simp only [standard, Rule.arrayStore, Rule.arrayLoad, List.find?_eq_none, List.mem_cons,
        List.not_mem_nil, or_false, forall_eq_or_imp, forall_eq, decide_eq_true_eq] at hnone
      rintro (hop | hop)
      · rw [hop] at hnone
        exact hnone.1 rfl
      · exact hnone.2 hop
    refine ⟨xs ++ [r], h, by simpa using hrefs, by simp, .refl hl hh, fun q hq j hj => ?_⟩
    rcases List.mem_append.mp hq with hq | hq
    · exact hbyte q hq j hj
    · rw [List.mem_singleton.mp hq, hi, Option.some.injEq] at hj
      exact hj ▸ hi'
  · have hrules : rule = .arrayStore ∨ rule = .arrayLoad := by
      simpa [standard] using List.mem_of_find?_eq_some hrule
    have happlies := List.find?_some hrule
    -- a choice takes the place of the node
    have hdispatch : ∀ {arrange onBoolean onByte e heights},
        IsChoice (dispatchCode arrange onBoolean onByte) e heights → i.Straight e →
        i.opcode ≠ .label → i.opcode ≠ .tryCatch →
        dispatch arrange onBoolean onByte l r = (l', .ok resume) →
        ∃ front h', l'.refs = front ++ ys ∧ resume = front.getLast? ∧ l.Carried h l' h' ∧
          ∀ q ∈ front, ∀ i, l'.insn? q = some i → ¬i.IsByteAccess := by
      intro arrange onBoolean onByte e heights hc he hlabel htry hd
      obtain ⟨news, h', hrefs', hne, hres, hcarried, hnews⟩ :=
        carried_dispatch hl hrefs hc hd hh hi he (Insn.placed?_of_ne_label hlabel) htry
      refine ⟨xs ++ news, h', by simpa using hrefs', ?_, hcarried, fun q hq j hj => ?_⟩
      · rw [hres, List.getLast?_append_of_ne_nil _ hne]
      · rcases List.mem_append.mp hq with hq | hq
        · exact hbyte q hq j ((hcarried.insn q (hlt q hq)).symm.trans hj)
        · exact hnews q hq j hj
    rcases hrules with rfl | rfl
    · have hstore : i.opcode.isArrayStore = true := happlies
      simp only [Rule.arrayStore, hi] at hd
      split at hd
      · next hop =>
        exact hdispatch isChoice_store (Insn.straight_arrayStore hstore) (by rw [hop]; decide)
          (by rw [hop]; decide) hd
      · next hop =>
        obtain ⟨rfl, front, h', hrefs', hcarried, hfront⟩ :=
          carried_narrow hl hrefs hh hret hi hstore hd
        refine ⟨front ++ [r], h', by simpa using hrefs', by simp, hcarried, fun q hq j hj => ?_⟩
        rcases List.mem_append.mp hq with hq | hq
        · rcases hfront q hq with hq | hnew
          · exact hbyte q hq j ((hcarried.insn q (hlt q hq)).symm.trans hj)
          · exact hnew j hj
        · rw [List.mem_singleton.mp hq, hcarried.insn r hltr, hi, Option.some.injEq] at hj
          subst hj
          rintro (hbastore | hbaload)
          · exact hop hbastore
          · rw [hbaload] at hstore
            revert hstore
            decide
    · have hop : i.opcode = .baload := of_decide_eq_true happlies
      exact hdispatch isChoice_load (Insn.straight_baload hop) (by rw [hop]; decide)
        (by rw [hop]; decide) hd

/-- The standard rules leave what is behind a node as it was, whatever the code is like. -/
theorem standard_advances (ctx : Context) : standard.Advances ctx := by
  intro l xs r ys l' resume hs hv
  obtain ⟨i, hi⟩ := hs.exists_insn (r := r) (by simp)
  rcases visit_eq_ok hi hv with ⟨-, rfl, rfl⟩ | ⟨rule, hrule, hd, -⟩
  · exact ⟨xs ++ [r], by simpa using hs, by simp⟩
  have happlies := List.find?_some hrule
  have hrules : rule = .arrayStore ∨ rule = .arrayLoad := by
    simpa [standard] using List.mem_of_find?_eq_some hrule
  rcases hrules with rfl | rfl
  · simp only [Rule.arrayStore, hi] at hd
    split at hd
    · exact spells_dispatch hs hd
    · exact spells_narrow hs hi happlies hd
  · dsimp only [Rule.arrayLoad] at hd
    exact spells_dispatch hs hd

/-- A scan that succeeds carries everything on and leaves no byte access. -/
theorem Ends.carried (hs : standard.Ends ctx rest.head? l (l', .ok ())) (hl : l.Built)
    (hh : l.FlowHeights h) (hret : ∀ i ∈ l.insns, i.opcode ≠ .ret) (hrefs : l.refs = xs ++ rest)
    (hbyte : ∀ q ∈ xs, ∀ i, l.insn? q = some i → ¬i.IsByteAccess) :
    (∀ i ∈ l'.insns, ¬i.IsByteAccess) ∧ ∃ h', l.Carried h l' h' := by
  induction rest generalizing l h xs with
  | nil =>
    cases hs
    refine ⟨fun i hi => ?_, h, .refl hl hh⟩
    obtain ⟨q, hq, hqi⟩ := List.mem_filterMap.mp hi
    rw [hrefs, List.append_nil] at hq
    exact hbyte q hq i hqi
  | cons r rest ih =>
    cases hs with
    | @visit _ _ l₁ resume _ hvisit hs =>
      -- the heights change with the listing, so they go through the induction with it
      obtain ⟨front, h₁, hrefs₁, rfl, hcarried, hfront⟩ :=
        visit_standard hl hh hret hrefs hbyte hvisit
      have hret₁ : ∀ i ∈ l₁.insns, i.opcode ≠ .ret := fun i hi =>
        (hcarried.insns i hi).elim (hret i) And.right
      rw [next_getLast? (hrefs₁ ▸ hcarried.built.wellFormed.spells)] at hs
      obtain ⟨hnone, h', hrest⟩ := ih hs hcarried.built hcarried.flow hret₁ hrefs₁ hfront
      exact ⟨hnone, h', hcarried.trans hl.wellFormed hrest⟩

/-- **Enhancement keeps the stack consistent.** If a listing of well-shaped instructions has heights
and the scan with the standard rules succeeds, the scan has come to its end and left no byte access.
The listing then has heights again: every node that stayed has its instruction and its height, or
still none, and every label that was bound is bound to the same node. Of the subroutine instructions
only the return matters, for nothing is known of the heights behind it. -/
theorem heights_of_run_standard {H : Heights} (hb : l.Built) (hshape : ∀ i ∈ l.insns, i.WellShaped)
    (hret : ∀ i ∈ l.insns, i.opcode ≠ .ret) (hH : l.heights = .ok H)
    (hrun : standard.run ctx l = (l', .ok ())) :
    standard.Ends ctx l.first l (l', .ok ()) ∧
      (∀ i ∈ l'.insns, i.opcode ≠ .bastore ∧ i.opcode ≠ .baload) ∧
      (∃ H', l'.heights = .ok H' ∧
        ∀ r ∈ l.refs, r ∈ l'.refs → l'.insn? r = l.insn? r ∧ H'.at? r = H.at? r) ∧
      ∀ lbl r, l.binding lbl = some r → l'.binding lbl = some r := by
  have hwf := hb.wellFormed
  have hends := ends_of_run hrun
  have hscan := hends
  rw [hwf.spells.first_eq] at hscan
  have hrefs : l.refs = [] ++ l.refs := rfl
  obtain ⟨hnone, h', hcarried⟩ :=
    hscan.carried hb (flowHeights_heights hwf hshape hH) hret hrefs (by simp)
  have hshape' : ∀ i ∈ l'.insns, i.WellShaped := fun i hi =>
    (hcarried.insns i hi).elim (hshape i) And.left
  have hwf' := hcarried.built.wellFormed
  obtain ⟨H', hH'⟩ := exists_heights hwf' hshape' hcarried.flow
  have hsame : H'.at? = h' := (flowHeights_heights hwf' hshape' hH').unique hcarried.flow
  refine ⟨hends, fun i hi => not_or.mp (hnone i hi), ⟨H', hH', fun r hr hr' => ⟨?_, ?_⟩⟩,
    hcarried.binding⟩
  · exact hcarried.insn r (hwf.spells.lt_size hr)
  · rw [hsame, hcarried.height r hr hr']

/-- Copies a byte and stores an integer, unless there is no array. -/
def byteCopy : Listing :=
  ofInsns 1 [.load .aload 1, .jump .ifNull 0, .load .aload 1, .plain .iconst0, .load .aload 2,
    .plain .iconst0, .plain .baload, .plain .bastore, .load .aload 3, .plain .iconst0,
    .plain .iconst1, .plain .iastore, .place 0, .plain .voidReturn]

theorem heights_of_run_byteCopy : ∃ H l', byteCopy.Built ∧ (∀ i ∈ byteCopy.insns, i.WellShaped) ∧
    (∀ i ∈ byteCopy.insns, i.opcode ≠ .ret) ∧ byteCopy.heights = .ok H ∧
    standard.run {} byteCopy = (l', .ok ()) ∧
    standard.Ends {} byteCopy.first byteCopy (l', .ok ()) ∧
      (∀ i ∈ l'.insns, i.opcode ≠ .bastore ∧ i.opcode ≠ .baload) ∧
      (∃ H', l'.heights = .ok H' ∧
        ∀ r ∈ byteCopy.refs, r ∈ l'.refs → l'.insn? r = byteCopy.insn? r ∧ H'.at? r = H.at? r) ∧
      ∀ lbl r, byteCopy.binding lbl = some r → l'.binding lbl = some r := by
  have hb : byteCopy.Built := .ofInsns _ _
  have hshape : ∀ i ∈ byteCopy.insns, i.WellShaped := by decide +kernel
  have hret : ∀ i ∈ byteCopy.insns, i.opcode ≠ .ret := by decide +kernel
  obtain ⟨H, hH⟩ : ∃ H, byteCopy.heights.toOption = some H :=
    Option.isSome_iff_exists.mp (by decide +kernel)
  have hok : (standard.run {} byteCopy).2 = .ok () := Outcome.eq_ok_of_toOption (by
    decide +kernel)
  have hrun : standard.run {} byteCopy =
      ((standard.run {} byteCopy).1, .ok ()) := by
    rw [← hok]
  exact ⟨H, _, hb, hshape, hret, Outcome.eq_ok_of_toOption hH, hrun,
    heights_of_run_standard hb hshape hret (Outcome.eq_ok_of_toOption hH) hrun⟩

end Chain

end ClassWeaver
