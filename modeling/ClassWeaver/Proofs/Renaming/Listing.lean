import Mathlib.Logic.Equiv.Defs
import ClassWeaver.Resume
import ClassWeaver.Proofs.Listing.Labels
import ClassWeaver.Proofs.Renaming.Instructions

/-!
# Renaming the labels of a listing

Two listings are the same but for label numbers (`Listing.Renamed σ`) if a permutation of the labels
that were handed out takes one to the other: in the instructions, in the label table and in the
record of doubled labels. Nodes keep their places. Labels that are handed out later are beyond those
that the permutation moves, so both listings give them the same numbers, and every editing operation
takes listings that are renamed to listings that are renamed. -/

namespace ClassWeaver

/-- The cell with its instruction renamed. -/
def Node.mapLabels (f : Label → Label) (n : Node) : Node := { n with insn := n.insn.mapLabels f }

/-- The states with their labels renamed. -/
def States.mapLabels (f : Label → Label) (s : States) : States :=
  { s with labels := s.labels.map (Option.map f) }

namespace Listing

/-- The listings differ by the permutation `σ` of the labels that were handed out. -/
structure Renamed (σ : Equiv.Perm Label) (l l' : Listing) : Prop where
  fixes : ∀ {lbl : Label}, lbl < 0 ∨ (l.bound.size : Int) ≤ lbl → σ lbl = lbl
  nodes : l'.nodes = l.nodes.map (Node.mapLabels σ)
  size : l'.bound.size = l.bound.size
  binding : ∀ lbl, l'.binding (σ lbl) = l.binding lbl
  doubled : l'.doubled = l.doubled.map σ
  first : l'.first = l.first
  last : l'.last = l.last
  length : l'.length = l.length

variable {σ : Equiv.Perm Label} {l l' : Listing} {r : Ref} {lbl : Label}

namespace Renamed

/-- Listings in which labels were handed out and nothing else was done. -/
theorem blank {n : Nat} (hfixes : ∀ {lbl : Label}, lbl < 0 ∨ (n : Int) ≤ lbl → σ lbl = lbl) :
    Renamed σ { bound := Array.replicate n none } { bound := Array.replicate n none } where
  fixes hlbl := hfixes (by simpa using hlbl)
  nodes := Array.map_empty.symm
  size := rfl
  binding lbl := by
    have hnone (k : Label) : ({ bound := Array.replicate n none } : Listing).binding k = none := by
      unfold Listing.binding
      split
      · rfl
      · rw [Array.getElem?_replicate]
        split <;> rfl
    rw [hnone, hnone]
  doubled := Array.map_empty.symm
  first := rfl
  last := rfl
  length := rfl

section

variable (h : Renamed σ l l')

include h

/-! ### The permutation -/

/-- Labels that were handed out stay among them. -/
theorem numbered_iff :
    (0 ≤ σ lbl ∧ σ lbl < (l.bound.size : Int)) ↔ 0 ≤ lbl ∧ lbl < (l.bound.size : Int) := by
  -- a label that is fixed is the new name of itself only
  have hfixed : (σ lbl < 0 ∨ (l.bound.size : Int) ≤ σ lbl) ↔
      lbl < 0 ∨ (l.bound.size : Int) ≤ lbl := by
    constructor
    · intro hlbl
      rwa [σ.injective (h.fixes hlbl)] at hlbl
    · intro hlbl
      rwa [h.fixes hlbl]
  simpa only [not_or, Int.not_lt, Int.not_le] using hfixed.not

theorem neg_iff : σ lbl < 0 ↔ lbl < 0 := by
  constructor
  · intro hneg
    rwa [σ.injective (h.fixes (.inl hneg))] at hneg
  · intro hneg
    rwa [h.fixes (.inl hneg)]

theorem toNat_lt (h0 : 0 ≤ lbl) (hlt : lbl.toNat < l.bound.size) :
    (σ lbl).toNat < l.bound.size := by
  obtain ⟨h0', hlt'⟩ := h.numbered_iff.mpr ⟨h0, (Int.toNat_lt h0).mp hlt⟩
  exact (Int.toNat_lt h0').mpr hlt'

/-! ### Reading -/

theorem insn?_eq (r : Ref) : l'.insn? r = (l.insn? r).map (Insn.mapLabels σ) := by
  rw [insn?, insn?, h.nodes, Array.getElem?_map]
  cases l.nodes[r]? <;> rfl

theorem placed_eq (r : Ref) :
    (l'.insn? r).bind Insn.placed? = ((l.insn? r).bind Insn.placed?).map σ := by
  rw [h.insn?_eq]
  cases l.insn? r with
  | none => rfl
  | some i => exact Insn.placed?_rename σ i

theorem next_eq (r : Option Ref) : l'.next r = l.next r := by
  cases r with
  | none => exact h.first
  | some r =>
    simp only [next, h.nodes, Array.getElem?_map]
    cases l.nodes[r]? <;> rfl

theorem prev_eq (r : Option Ref) : l'.prev r = l.prev r := by
  cases r with
  | none => exact h.last
  | some r =>
    simp only [prev, h.nodes, Array.getElem?_map]
    cases l.nodes[r]? <;> rfl

theorem isLinked_eq (r : Ref) : l'.isLinked r = l.isLinked r := by
  simp only [isLinked, h.nodes, Array.getElem?_map]
  cases l.nodes[r]? <;> rfl

theorem size_nodes : l'.nodes.size = l.nodes.size := by rw [h.nodes, Array.size_map]

/-- A walk follows links and never looks at instructions. -/
theorem refs_eq : l'.refs = l.refs := refs_congr h.size_nodes h.next_eq

theorem insns_eq : l'.insns = l.insns.map (Insn.mapLabels σ) := by
  rw [insns, insns, h.refs_eq, List.map_filterMap]
  exact List.filterMap_congr fun r _ => h.insn?_eq r

theorem fetch_agree (r : Ref) :
    Outcome.Agree (fun i i' => i' = i.mapLabels σ) (l.fetch r) (l'.fetch r) := by
  rw [fetch, fetch, h.insn?_eq]
  cases l.insn? r with
  | none => exact .undefined
  | some i => exact rfl

/-! ### Editing -/

theorem reserve (n : Nat) : Renamed σ (l.reserve n) (l'.reserve n) where
  fixes hlbl := by
    refine h.fixes (hlbl.imp_right fun hle => Int.le_trans ?_ hle)
    simp only [Listing.reserve, Array.size_append, Array.size_replicate]
    omega
  nodes := h.nodes
  size := by simp [Listing.reserve, h.size]
  binding lbl := by rw [binding_reserve, binding_reserve, h.binding]
  doubled := h.doubled
  first := h.first
  last := h.last
  length := h.length

/-- Room for a label under both its names: a label that moves has room already. -/
theorem reserve_label (h0 : 0 ≤ lbl) :
    Renamed σ (l.reserve (lbl.toNat + 1)) (l'.reserve ((σ lbl).toNat + 1)) := by
  have hnoop : ∀ {l : Listing} {n : Nat}, n ≤ l.bound.size → l.reserve n = l := by
    intro l n hle
    simp [Listing.reserve, Nat.sub_eq_zero_of_le hle]
  -- inside the table nothing is reserved, and beyond it the label keeps its number
  by_cases hlt : lbl.toNat < l.bound.size
  · have hlt' := h.toNat_lt h0 hlt
    rw [hnoop (by omega), hnoop (by rw [h.size]; omega)]
    exact h
  · rw [h.fixes (.inr ((Int.le_toNat h0).mp (Nat.not_lt.mp hlt)))]
    exact h.reserve _

/-- A new entry of the label table under both names of a label. -/
theorem setBound (h0 : 0 ≤ lbl) (hlt : lbl.toNat < l.bound.size) (o : Option Ref) :
    Renamed σ { l with bound := l.bound.setIfInBounds lbl.toNat o }
      { l' with bound := l'.bound.setIfInBounds (σ lbl).toNat o } where
  fixes hlbl := h.fixes (by simpa using hlbl)
  nodes := h.nodes
  size := by simp [h.size]
  binding k := by
    have h0' : 0 ≤ σ lbl := Int.not_lt.mp fun hneg => Int.not_lt.mpr h0 (h.neg_iff.mp hneg)
    have hlt' : (σ lbl).toNat < l'.bound.size := by
      rw [h.size]
      exact h.toNat_lt h0 hlt
    rw [binding_setBound h0' hlt', binding_setBound h0 hlt, h.binding]
    simp only [σ.injective.eq_iff]
  doubled := h.doubled
  first := h.first
  last := h.last
  length := h.length

theorem bind (r : Ref) : Renamed σ (l.bind r) (l'.bind r) := by
  unfold Listing.bind
  rw [h.placed_eq]
  cases (l.insn? r).bind Insn.placed? with
  | none => exact h
  | some lbl =>
    dsimp only [Option.map_some]
    -- negative numbers name no label under either numbering
    by_cases hneg : lbl < 0
    · rw [if_pos hneg, if_pos (h.neg_iff.mpr hneg)]
      exact h
    · have h0 : 0 ≤ lbl := Int.not_lt.mp hneg
      have hres := h.reserve_label h0
      rw [if_neg hneg, if_neg (mt h.neg_iff.mp hneg), hres.binding]
      cases (l.reserve (lbl.toNat + 1)).binding lbl with
      | none =>
        refine hres.setBound h0 ?_ (some r)
        simp only [Listing.reserve, Array.size_append, Array.size_replicate]
        omega
      | some other =>
        dsimp only
        split
        · exact hres
        · exact { hres with doubled := by simp [hres.doubled] }

theorem unbind (r : Ref) : Renamed σ (l.unbind r) (l'.unbind r) := by
  unfold Listing.unbind
  rw [h.placed_eq]
  cases (l.insn? r).bind Insn.placed? with
  | none => exact h
  | some lbl =>
    dsimp only [Option.map_some]
    rw [h.binding]
    by_cases hb : l.binding lbl = some r
    -- the heir is searched for node by node, so it is the same node for both names
    · have hheir : (if l'.doubled.contains (σ lbl) then
            l'.refs.find? fun q => q ≠ r && (l'.insn? q).bind Insn.placed? = some (σ lbl)
          else none) =
          if l.doubled.contains lbl then
            l.refs.find? fun q => q ≠ r && (l.insn? q).bind Insn.placed? = some lbl
          else none := by
        have hdoubled : l'.doubled.contains (σ lbl) = l.doubled.contains lbl := by
          rw [Bool.eq_iff_iff, Array.contains_iff_mem, Array.contains_iff_mem, h.doubled,
            Array.mem_map]
          exact ⟨fun ⟨k, hk, e⟩ => σ.injective e ▸ hk, fun hk => ⟨lbl, hk, rfl⟩⟩
        have hplaced : (fun q => (q ≠ r && (l'.insn? q).bind Insn.placed? = some (σ lbl) : Bool)) =
            fun q => (q ≠ r && (l.insn? q).bind Insn.placed? = some lbl : Bool) := by
          funext q
          rw [h.placed_eq]
          cases (l.insn? q).bind Insn.placed? with
          | none => rfl
          | some k => simp only [Option.map_some, Option.some.injEq, σ.injective.eq_iff]
        rw [hdoubled, hplaced, h.refs_eq]
      rw [if_neg (not_not.mpr hb), if_neg (not_not.mpr hb), hheir]
      exact h.setBound (nonneg_of_binding hb) (lt_size_of_binding hb) _
    · rw [if_pos hb, if_pos hb]
      exact h

omit h in
/-- Cells are changed and renamed in any order. -/
theorem modify_map {nodes : Array Node} {g : Node → Node}
    (hg : ∀ n, g (n.mapLabels σ) = (g n).mapLabels σ) (r : Ref) :
    (nodes.map (Node.mapLabels σ)).modify r g = (nodes.modify r g).map (Node.mapLabels σ) := by
  refine Array.ext_getElem? fun q => ?_
  rw [Array.getElem?_modify, Array.getElem?_map, Array.getElem?_map, Array.getElem?_modify]
  by_cases hq : r = q
  · rw [if_pos hq, if_pos hq]
    cases nodes[q]? with
    | none => rfl
    | some n => exact congrArg some (hg n)
  · rw [if_neg hq, if_neg hq]

/-- The same change to a cell of both listings that does not look at instructions. -/
theorem modify (g : Node → Node) (hg : ∀ n, g (n.mapLabels σ) = (g n).mapLabels σ) (r : Ref) :
    Renamed σ { l with nodes := l.nodes.modify r g } { l' with nodes := l'.nodes.modify r g } := by
  refine { h with nodes := ?_ }
  rw [h.nodes]
  exact modify_map hg r

theorem withLength (f : Nat → Nat) :
    Renamed σ { l with length := f l.length } { l' with length := f l'.length } :=
  { h with length := congrArg f h.length }

theorem setNext (p t : Option Ref) : Renamed σ (l.setNext p t) (l'.setNext p t) := by
  cases p with
  | none => exact { h with first := rfl }
  | some p => exact h.modify (fun n => { n with next := t }) (fun _ => rfl) p

theorem setPrev (p t : Option Ref) : Renamed σ (l.setPrev p t) (l'.setPrev p t) := by
  cases p with
  | none => exact { h with last := rfl }
  | some p => exact h.modify (fun n => { n with prev := t }) (fun _ => rfl) p

theorem alloc (i : Insn) : Renamed σ (l.alloc i).2 (l'.alloc (i.mapLabels σ)).2 := by
  refine { h with nodes := ?_ }
  simp only [Listing.alloc, h.nodes, Array.map_push]
  rfl

theorem link (r : Ref) (p q : Option Ref) : Renamed σ (l.link r p q) (l'.link r p q) := by
  have hcell := h.modify (fun n => ⟨n.insn, p, q, true⟩) (fun _ => rfl) r
  have hlinks := (hcell.setNext p (some r)).setPrev q (some r)
  exact (hlinks.withLength (· + 1)).bind r

theorem fork : Renamed σ l.fork l'.fork := by
  rw [Listing.fork, Listing.fork, h.size]
  exact blank h.fixes

theorem newLabel : Renamed σ l.newLabel.2 l'.newLabel.2 where
  fixes hlbl := by
    refine h.fixes (hlbl.imp_right fun hle => Int.le_trans ?_ hle)
    simp only [Listing.newLabel, Array.size_push]
    omega
  nodes := h.nodes
  size := by simp [Listing.newLabel, h.size]
  binding lbl := by rw [binding_newLabel, binding_newLabel, h.binding]
  doubled := h.doubled
  first := h.first
  last := h.last
  length := h.length

/-- A new label has one number in both listings. -/
theorem newLabel_fst : l'.newLabel.1 = l.newLabel.1 ∧ σ l.newLabel.1 = l.newLabel.1 := by
  refine ⟨?_, h.fixes (.inr (Int.le_refl _))⟩
  simp only [Listing.newLabel, h.size]

/-- A new node between the same nodes. -/
theorem linkNew (i : Insn) {p p' q q' : Option Ref} (hp : p' = p) (hq : q' = q) :
    Renamed σ ((l.alloc i).2.link l.nodes.size p q)
      ((l'.alloc (i.mapLabels σ)).2.link l'.nodes.size p' q') := by
  subst hp hq
  rw [h.size_nodes]
  exact (h.alloc i).link _ _ _

theorem append (i : Insn) : Renamed σ (l.append i).2 (l'.append (i.mapLabels σ)).2 :=
  h.linkNew i h.last rfl

theorem appendAll (is : List Insn) :
    Renamed σ (l.appendAll is) (l'.appendAll (is.map (Insn.mapLabels σ))) := by
  unfold Listing.appendAll
  rw [List.foldl_map]
  induction is generalizing l l' with
  | nil => exact h
  | cons i is ih => exact ih (h.append i)

theorem insertAfter (anchor : Option Ref) (i : Insn) :
    (l'.insertAfter anchor (i.mapLabels σ)).1 = (l.insertAfter anchor i).1 ∧
      Renamed σ (l.insertAfter anchor i).2 (l'.insertAfter anchor (i.mapLabels σ)).2 := by
  cases anchor with
  | none => exact ⟨h.size_nodes, h.linkNew i rfl h.first⟩
  | some a => exact ⟨h.size_nodes, h.linkNew i rfl ((h.alloc i).next_eq (some a))⟩

theorem insertAllAfter (anchor : Option Ref) (is : List Insn) :
    (l'.insertAllAfter anchor (is.map (Insn.mapLabels σ))).1 = (l.insertAllAfter anchor is).1 ∧
      Renamed σ (l.insertAllAfter anchor is).2
        (l'.insertAllAfter anchor (is.map (Insn.mapLabels σ))).2 := by
  induction is generalizing l l' anchor with
  | nil => exact ⟨rfl, h⟩
  | cons i is ih =>
    obtain ⟨hfst, hsnd⟩ := h.insertAfter anchor i
    have hrest := ih hsnd (some (l.insertAfter anchor i).1)
    have hstep : l'.insertAllAfter anchor ((i :: is).map (Insn.mapLabels σ)) =
        (l'.insertAfter anchor (i.mapLabels σ)).2.insertAllAfter
          (some (l.insertAfter anchor i).1) (is.map (Insn.mapLabels σ)) := by
      rw [← hfst]
      rfl
    rw [hstep]
    exact hrest

theorem remove (r : Ref) : Renamed σ (l.remove r) (l'.remove r) := by
  unfold Listing.remove
  rw [h.nodes, Array.getElem?_map]
  cases hn : l.nodes[r]? with
  | none => exact h
  | some node =>
    dsimp only [Option.map_some, Node.mapLabels]
    split
    · have hlinks := ((h.unbind r).setNext node.prev node.next).setPrev node.next node.prev
      have hcell := hlinks.modify (fun n => ⟨n.insn, none, none, false⟩) (fun _ => rfl) r
      exact hcell.withLength (· - 1)
    · exact h

/-! ### Resolution -/

theorem placements_eq (lbl : Label) : l'.placements (σ lbl) = l.placements lbl := by
  have hplaced : ∀ i : Insn, ((i.mapLabels σ).placed? = some (σ lbl)) ↔ i.placed? = some lbl := by
    intro i
    rw [Insn.placed?_rename, Option.map_eq_some_iff]
    exact ⟨fun ⟨k, hk, e⟩ => σ.injective e ▸ hk, fun hk => ⟨lbl, hk, rfl⟩⟩
  rw [placements, placements, h.insns_eq, ← List.countP_eq_length_filter,
    ← List.countP_eq_length_filter, List.countP_map]
  exact List.countP_congr fun i _ => by simpa using hplaced i

theorem checkPlacements_agree :
    Outcome.Agree (· = ·) l.checkPlacements l'.checkPlacements := by
  -- doubled labels stand in the order of their placements, so the same one is found first
  have hfind : (l'.doubled.find? fun lbl => 1 < l'.placements lbl) =
      (l.doubled.find? fun lbl => 1 < l.placements lbl).map σ := by
    rw [h.doubled, Array.find?_map]
    have hpred : ((fun lbl => decide (1 < l'.placements lbl)) ∘ σ) =
        fun lbl => decide (1 < l.placements lbl) :=
      funext fun lbl => by simp only [Function.comp_apply, h.placements_eq]
    rw [hpred]
  unfold checkPlacements
  rw [hfind]
  cases l.doubled.find? fun lbl => 1 < l.placements lbl with
  | none => exact rfl
  | some lbl => exact .fail _ _

theorem dangling?_eq (i : Insn) : l'.dangling? (i.mapLabels σ) = (l.dangling? i).map σ := by
  unfold dangling?
  rw [Insn.labels_mapLabels, List.find?_map]
  have hpred : ((fun lbl => decide (l'.binding lbl = none)) ∘ σ) =
      fun lbl => decide (l.binding lbl = none) :=
    funext fun lbl => by simp only [Function.comp_apply, h.binding]
  rw [hpred]

theorem checkReferences_agree :
    Outcome.Agree (· = ·) l.checkReferences l'.checkReferences := by
  have hfind : (l'.insns.findSome? fun i => (l'.dangling? i).map (i, ·)) =
      (l.insns.findSome? fun i => (l.dangling? i).map (i, ·)).map
        fun (i, lbl) => (i.mapLabels σ, σ lbl) := by
    rw [h.insns_eq, List.findSome?_map, List.map_findSome?]
    congr 1
    funext i
    simp only [Function.comp_apply, h.dangling?_eq]
    cases l.dangling? i <;> rfl
  unfold checkReferences
  rw [hfind]
  cases l.insns.findSome? fun i => (l.dangling? i).map (i, ·) with
  | none => exact rfl
  | some x => exact Insn.blame_agree ..

theorem resolve_agree : Outcome.Agree (· = ·) l.resolve l'.resolve :=
  h.checkPlacements_agree.bind fun _ _ _ => h.checkReferences_agree

end

/-- The same instructions under other labels are listed alike. -/
theorem ofInsns {n : Nat} (hfixes : ∀ {lbl : Label}, lbl < 0 ∨ (n : Int) ≤ lbl → σ lbl = lbl)
    (is : List Insn) :
    Renamed σ (Listing.ofInsns n is) (Listing.ofInsns n (is.map (Insn.mapLabels σ))) := by
  have hempty : empty.newLabels n = { bound := Array.replicate n none } := by
    rw [newLabels_eq]
    simp [empty]
  rw [Listing.ofInsns, Listing.ofInsns, hempty]
  exact (blank hfixes).appendAll is

end Renamed

end Listing

end ClassWeaver
