import ClassWeaver.Proofs.Listing.Splicing
import ClassWeaver.Proofs.Renaming.Instructions
import ClassWeaver.Proofs.Stack.Heights

/-!
# Splicing code into a listing

A block of code is balanced with heights of its own (`Balanced`) if it can be checked alone: entered
in front with the first of the heights, it is left behind with the last of them, and control stays
in it in between. Whether a block is balanced does not depend on its label numbers, so a block with
new labels is checked once for all.

When such a block takes the place of one instruction, or goes between two, it is enough to know that
the block does to the stack what was done there before: then the listing has heights again, and
every node that stays has the height that it had (`FlowHeights.splice`). That nodes which control
reached are still reached is part of it, and so is the case that the place is dead code, where the
block has no heights at all. -/

namespace ClassWeaver

/-! ### Balanced blocks -/

/-- The instruction at place `k` of a block fits the heights given to the block: it does not end the
method, finds its operands and passes the right height to the place behind it and to the labels it
branches to, all of which stand in the block. -/
def SettledAt (code : List Insn) (heights : List Nat) (k : Nat) : Prop :=
  ∃ i, i ∈ code[k]? ∧ ∃ n, n ∈ heights[k]? ∧ ∃ e, e ∈ i.effect.toOption ∧
    i.finalNeed? = none ∧ i.callsSubroutine = false ∧ i.opcode ≠ .tryCatch ∧ e.pops ≤ n ∧
    (i.fallsThrough = true → heights[k + 1]? = some (n - e.pops + e.pushes)) ∧
    ∀ lbl ∈ i.branches, ∃ j, j < code.length ∧ (code[j]?.bind Insn.placed?) = some lbl ∧
      heights[j]? = some (n - e.pops + e.pushes)

/-- Control comes to place `k` of a block from a place in front of it. -/
def EnteredAt (code : List Insn) (k : Nat) : Prop :=
  ∃ j, j < k ∧ ∃ i, i ∈ code[j]? ∧ ((i.fallsThrough = true ∧ j + 1 = k) ∨
    ∃ lbl, lbl ∈ i.branches ∧ (code[k]?.bind Insn.placed?) = some lbl)

/-- The block can be executed with the heights, the last of which stands behind it, and control
comes to all of it. -/
def Balanced (code : List Insn) (heights : List Nat) : Prop :=
  ∀ k, k < code.length → SettledAt code heights k ∧ EnteredAt code (k + 1)

section Decidable

variable (code : List Insn) (heights : List Nat) (k : Nat)

instance : Decidable (SettledAt code heights k) := by unfold SettledAt; infer_instance

instance : Decidable (EnteredAt code k) := by unfold EnteredAt; infer_instance

instance : Decidable (Balanced code heights) := by unfold Balanced; infer_instance

end Decidable

section Renaming

variable {code : List Insn} {heights : List Nat} {k : Nat} {lbl : Label}

theorem Insn.branches_mapLabels (f : Label → Label) (i : Insn) :
    (i.mapLabels f).branches = i.branches.map f := by
  unfold branches
  rw [opcode_mapLabels, labels_mapLabels]
  split <;> rfl

theorem placed_map (f : Label → Label) (h : code[k]?.bind Insn.placed? = some lbl) :
    ((code.map (Insn.mapLabels f))[k]?.bind Insn.placed?) = some (f lbl) := by
  obtain ⟨i, hi, hp⟩ := Option.bind_eq_some_iff.mp h
  rw [List.getElem?_map, hi, Option.map_some, Option.bind_some, Insn.placed?_rename, hp]
  rfl

theorem SettledAt.mapLabels (f : Label → Label) (h : SettledAt code heights k) :
    SettledAt (code.map (Insn.mapLabels f)) heights k := by
  obtain ⟨i, hi, n, hn, e, he, hfin, hsub, hop, hpop, hfall, hbr⟩ := h
  have he' : (i.mapLabels f).effect = .ok e :=
    (Insn.effect_mapLabels f).mpr (Outcome.eq_ok_of_toOption he)
  refine ⟨i.mapLabels f, ?_, n, hn, e, ?_, hfin, hsub, hop, hpop, hfall, fun lbl hlbl => ?_⟩
  · rw [Option.mem_def, List.getElem?_map, hi, Option.map_some]
  · rw [he']
    rfl
  · rw [Insn.branches_mapLabels] at hlbl
    obtain ⟨lbl, hmem, rfl⟩ := List.mem_map.mp hlbl
    obtain ⟨j, hj, hp, hk⟩ := hbr lbl hmem
    exact ⟨j, by simpa using hj, placed_map f hp, hk⟩

theorem EnteredAt.mapLabels (f : Label → Label) (h : EnteredAt code k) :
    EnteredAt (code.map (Insn.mapLabels f)) k := by
  obtain ⟨j, hj, i, hi, hin⟩ := h
  refine ⟨j, hj, i.mapLabels f, ?_, hin.imp_right fun ⟨lbl, hlbl, hp⟩ => ?_⟩
  · rw [Option.mem_def, List.getElem?_map, hi, Option.map_some]
  · refine ⟨f lbl, ?_, placed_map f hp⟩
    rw [Insn.branches_mapLabels]
    exact List.mem_map_of_mem hlbl

/-- A block stays balanced under other labels. -/
theorem Balanced.mapLabels (f : Label → Label) (h : Balanced code heights) :
    Balanced (code.map (Insn.mapLabels f)) heights := by
  intro k hk
  obtain ⟨hset, hent⟩ := h k (by simpa using hk)
  exact ⟨hset.mapLabels f, hent.mapLabels f⟩

end Renaming

namespace Listing

variable {l l' : Listing} {xs ys : List Ref} {old : Option Ref} {code : List Insn}
variable {h : Ref → Option Nat} {heights : List Nat} {r t u : Ref} {k n : Nat} {lbl : Label}

/-! ### Reached nodes -/

namespace Spliced

variable (hs : l.Spliced l' xs old code ys) (hcode : code ≠ []) (hb : Balanced code heights)

include hs hcode hb

/-- If control reaches the first node of a balanced block, it reaches all of its nodes and the one
behind it. -/
theorem reached_new (hfirst : l'.Reached l.nodes.size) (hk : k ≤ code.length)
    (hu : (List.range' l.nodes.size code.length ++ ys)[k]? = some u) : l'.Reached u := by
  induction k using Nat.strongRecOn generalizing u with
  | ind k ih =>
    cases k with
    | zero =>
      rw [slot_new (List.length_pos_iff.mpr hcode), Option.some.injEq] at hu
      exact hu ▸ hfirst
    | succ k =>
      obtain ⟨j, hj, i, hi, hin⟩ := (hb k hk).2
      have hjlt : j < code.length := by omega
      have hreach := ih j hj hjlt.le (slot_new hjlt)
      have hinsn : l'.insn? (l.nodes.size + j) = some i := by rw [hs.insn?_new, hi]
      rcases hin with ⟨hft, he⟩ | ⟨lbl, hlbl, hp⟩
      · refine hreach.edge (.fall hinsn hft ?_)
        rw [hs.next_new hjlt, he, hu]
      · have hk1 : k + 1 < code.length := by
          by_contra hge
          rw [List.getElem?_eq_none (Nat.not_lt.mp hge)] at hp
          cases hp
        rw [slot_new hk1, Option.some.injEq] at hu
        subst hu
        exact hreach.edge (.branch hinsn hlbl (hs.placed hp))

variable (hl : l.WellFormed) (ht : (old.toList ++ ys).head? = some t) (hpt : l.placedAt t = none)
variable (hold : ∀ q i, old = some q → l.insn? q = some i → i.branches = [] ∧ i.opcode ≠ .tryCatch)

include hl hold

omit hcode in
/-- The two listings have the same exception entries. -/
theorem mem_insns_iff {i : Insn} (hi : i.opcode = .tryCatch) : i ∈ l'.insns ↔ i ∈ l.insns := by
  constructor
  · intro hmem
    obtain ⟨q, hq, hqi⟩ := List.mem_filterMap.mp hmem
    rcases hs.mem_refs'.mp hq with hkept | hnew
    · rw [hs.insn?_old (hs.lt_size hl hkept)] at hqi
      exact List.mem_filterMap.mpr ⟨q, hs.mem_refs.mpr (.inl hkept), hqi⟩
    · obtain ⟨k, hk, rfl⟩ := List.mem_range'.mp hnew
      rw [Nat.one_mul, hs.insn?_new] at hqi
      obtain ⟨⟨j, hj, n, hn, e, he, -, -, hop, -⟩, -⟩ := hb k hk
      rw [Option.mem_def, hqi, Option.some.injEq] at hj
      exact absurd (hj ▸ hi) hop
  · intro hmem
    obtain ⟨q, hq, hqi⟩ := List.mem_filterMap.mp hmem
    rcases hs.mem_refs.mp hq with hkept | hgone
    · refine List.mem_filterMap.mpr ⟨q, hs.mem_refs'.mpr (.inl hkept), ?_⟩
      rw [hs.insn?_old (hs.lt_size hl hkept), hqi]
    · exact absurd hi (hold q i hgone.symm hqi).2

include ht hpt

/-- Nodes that control reached are still reached, and the code is, if its place was. -/
theorem reached_kept (hr : l.Reached r) :
    (r = t → l'.Reached l.nodes.size) ∧ (r ∈ xs ++ ys → l'.Reached r) := by
  have hbound : ∀ {lbl q}, l.binding lbl = some q → q ≠ t := by
    rintro lbl q hq rfl
    rw [(hl.labelled.sound hq).2] at hpt
    cases hpt
  -- the place of the code: what stood there before is the code now, or stands behind it
  have hplace : l'.Reached l.nodes.size → ∀ u, ys.head? = some u → l'.Reached u := fun hnew u hu =>
    hs.reached_new hcode hb hnew le_rfl (slot_behind.trans hu)
  induction hr with
  | entry he =>
    cases he with
    | @head r hf =>
      rw [hl.spells.first_eq, hs.refs_eq] at hf
      cases xs with
      | nil =>
        rw [List.nil_append, ht, Option.some.injEq] at hf
        subst hf
        have hnew : l'.Reached l.nodes.size := by
          refine .entry (.head ?_)
          rw [hs.spells'.first_eq, List.nil_append, List.head?_eq_getElem?]
          exact slot_new (List.length_pos_iff.mpr hcode)
        exact ⟨fun _ => hnew, fun hmem => hplace hnew _ (hs.head_of_kept hl ht hmem)⟩
      | cons x xs =>
        rw [List.cons_append, List.head?_cons, Option.some.injEq] at hf
        subst hf
        refine ⟨?_, fun _ => .entry (.head ?_)⟩
        · rintro rfl
          exact absurd List.mem_cons_self (hs.notMem_front hl ht)
        · rw [hs.spells'.first_eq]
          rfl
    | handler hmem hbind =>
      have hmem' := (hs.mem_insns_iff hb hl hold rfl).mpr hmem
      exact ⟨fun e => absurd e (hbound hbind), fun _ => .entry (.handler hmem' (hs.binding hbind))⟩
  | @edge p q hp he ih =>
    have hpin := hs.mem_refs.mp (hl.mem_refs_of_reached hp)
    cases he with
    | branch hi hlbl hbind =>
      refine ⟨fun e => absurd e (hbound hbind), fun _ => ?_⟩
      rcases hpin with hkept | hgone
      · have hi' := (hs.insn?_old (hs.lt_size hl hkept)).trans hi
        exact (ih.2 hkept).edge (.branch hi' hlbl (hs.binding hbind))
      · rw [(hold p _ hgone.symm hi).1] at hlbl
        cases hlbl
    | fall hi hft hnext =>
      rcases hpin with hkept | hgone
      · have hi' := (hs.insn?_old (hs.lt_size hl hkept)).trans hi
        rcases hs.next_kept hl ht hcode hkept hnext with ⟨hne, hnext', -⟩ | ⟨rfl, hnext'⟩
        · exact ⟨fun e => absurd e hne, fun _ => (ih.2 hkept).edge (.fall hi' hft hnext')⟩
        · have hnew := (ih.2 hkept).edge (.fall hi' hft hnext')
          exact ⟨fun _ => hnew, fun hmem => hplace hnew _ (hs.head_of_kept hl ht hmem)⟩
      · -- the node that goes leads to the node behind it, and so does the code
        subst hgone
        obtain rfl : p = t := Option.some.inj ht
        have hsp : l.Spells (xs ++ p :: ys) := hs.refs_eq ▸ hl.spells
        rw [hsp.next_eq] at hnext
        refine ⟨fun e => ?_, fun _ => hplace (ih.1 rfl) _ hnext⟩
        have hnd := (List.nodup_append.mp hsp.nodup).2.1
        exact absurd (e ▸ List.mem_of_head? hnext) (List.nodup_cons.mp hnd).1

end Spliced

/-! ### Heights after a splice -/

/-- The heights after a splice at `t`: those from before, and on the new nodes the heights of the
block above what lies on the stack underneath. Dead code has no heights. -/
def splicedHeights (l : Listing) (h : Ref → Option Nat) (old : Option Ref) (t : Ref) (size : Nat)
    (heights : List Nat) (r : Ref) : Option Nat :=
  if r < l.nodes.size then
    if some r = old then none else h r
  else if r - l.nodes.size < size then do
    let n ← h t
    let need ← heights[0]?
    let k ← heights[r - l.nodes.size]?
    return n - need + k
  else none

section Splice

variable {need left : Nat} (hs : l.Spliced l' xs old code ys) (hl : l.WellFormed)
variable (hcode : code ≠ []) (hb : Balanced code heights)
variable (ht : (old.toList ++ ys).head? = some t) (hpt : l.placedAt t = none)
variable (hold : ∀ q i, old = some q → l.insn? q = some i → i.branches = [] ∧ i.opcode ≠ .tryCatch)
variable (hneed : heights[0]? = some need) (hleft : heights[code.length]? = some left)
variable (hflow : ∀ n, h t = some n →
  need ≤ n ∧ ∃ u, ys.head? = some u ∧ h u = some (n - need + left))

theorem splicedHeights_kept (hs : l.Spliced l' xs old code ys) (hl : l.WellFormed)
    (hr : r ∈ xs ++ ys) : splicedHeights l h old t code.length heights r = h r := by
  rw [splicedHeights, if_pos (hs.lt_size hl hr), if_neg (hs.ne_old hl hr)]

include hneed in
theorem splicedHeights_new (hk : k < code.length) :
    splicedHeights l h old t code.length heights (l.nodes.size + k) =
      (h t).bind fun n => (heights[k]?).map (n - need + ·) := by
  have hge : ¬l.nodes.size + k < l.nodes.size := by omega
  rw [splicedHeights, if_neg hge, Nat.add_sub_cancel_left, if_pos hk, hneed]
  cases h t with
  | none => rfl
  | some n => cases heights[k]? <;> rfl

include hs hl ht hpt in
/-- No label is placed where the code goes, so bound labels keep the heights of their nodes. -/
theorem splicedHeights_bound (hb : l.binding lbl = some r) :
    splicedHeights l h old t code.length heights r = h r := by
  obtain ⟨hmem, hp⟩ := hl.labelled.sound hb
  rcases hs.mem_refs.mp hmem with hkept | rfl
  · exact splicedHeights_kept hs hl hkept
  · obtain rfl : r = t := Option.some.inj ht
    rw [hpt] at hp
    cases hp

include hcode hneed hflow in
/-- The block is entered with the height of its place. -/
theorem splicedHeights_first (hn : h t = some n) :
    splicedHeights l h old t code.length heights l.nodes.size = some n := by
  have hfirst : splicedHeights l h old t code.length heights (l.nodes.size + 0) =
      (h t).bind fun n => (heights[0]?).map (n - need + ·) :=
    splicedHeights_new hneed (List.length_pos_iff.mpr hcode)
  rw [Nat.add_zero] at hfirst
  rw [hfirst, hn, hneed, Option.bind_some, Option.map_some, Nat.sub_add_cancel (hflow n hn).1]

include hs hl hneed hleft hflow in
/-- The heights of the block at all its places, the one behind it included. -/
theorem splicedHeights_slot {m : Nat} (hk : k ≤ code.length) (hn : h t = some n)
    (hm : heights[k]? = some m) : ∃ u,
      (List.range' l.nodes.size code.length ++ ys)[k]? = some u ∧
        splicedHeights l h old t code.length heights u = some (n - need + m) := by
  rcases Nat.lt_or_eq_of_le hk with hlt | rfl
  · refine ⟨_, Spliced.slot_new hlt, ?_⟩
    rw [splicedHeights_new hneed hlt, hn, hm]
    rfl
  · obtain ⟨-, u, hu, hhu⟩ := hflow n hn
    rw [hleft, Option.some.injEq] at hm
    subst hm
    refine ⟨u, Spliced.slot_behind.trans hu, ?_⟩
    rw [splicedHeights_kept hs hl (by simp [List.mem_of_head? hu]), hhu]

include hs hl hb hneed hleft hflow in
/-- The instructions of the block satisfy their flow equations. -/
theorem flowEquation_new {m : Nat} (hk : k < code.length) (hn : h t = some n)
    (hm : heights[k]? = some m) : ∃ i, l'.insn? (l.nodes.size + k) = some i ∧
      l'.FlowEquation (splicedHeights l h old t code.length heights) (l.nodes.size + k)
        (n - need + m) i := by
  obtain ⟨⟨i, hi, m', hm', e, he, hfin, hsub, -, hpop, hfall, hbr⟩, -⟩ := hb k hk
  obtain rfl : m' = m := Option.some.inj (hm'.symm.trans hm)
  refine ⟨i, (hs.insn?_new k).trans hi, ?_⟩
  have hleaves : n - need + m' - e.pops + e.pushes = n - need + (m' - e.pops + e.pushes) := by omega
  unfold FlowEquation
  rw [hfin]
  refine ⟨e, Outcome.eq_ok_of_toOption he, by omega, fun lbl hlbl => ?_, fun hft => ?_⟩
  · obtain ⟨j, hj, hp, hmj⟩ := hbr lbl hlbl
    obtain ⟨u, hu, hhu⟩ := splicedHeights_slot hs hl hneed hleft hflow hj.le hn hmj
    rw [Spliced.slot_new hj, Option.some.injEq] at hu
    exact ⟨u, hu ▸ hs.placed hp, by rw [hhu, hleaves]⟩
  · obtain ⟨u, hu, hhu⟩ := splicedHeights_slot hs hl hneed hleft hflow hk hn (hfall hft)
    refine ⟨u, (hs.next_new hk).trans hu, ?_⟩
    rw [hhu, hsub, hleaves]
    rfl

include hs hl hcode ht hpt hneed hflow in
/-- The nodes that stay still satisfy their flow equations. -/
theorem flowEquation_kept {i : Insn} (hr : r ∈ xs ++ ys) (heq : l.FlowEquation h r n i) :
    l'.FlowEquation (splicedHeights l h old t code.length heights) r n i := by
  unfold FlowEquation at heq ⊢
  split
  · next hfin =>
    rw [hfin] at heq
    exact heq
  · next hfin =>
    rw [hfin] at heq
    obtain ⟨e, he, hpop, hbr, hfall⟩ := heq
    refine ⟨e, he, hpop, fun lbl hlbl => ?_, fun hft => ?_⟩
    · obtain ⟨q, hq, hk⟩ := hbr lbl hlbl
      exact ⟨q, hs.binding hq, by rw [splicedHeights_bound hs hl ht hpt hq, hk]⟩
    · obtain ⟨q, hq, hk⟩ := hfall hft
      rcases hs.next_kept hl ht hcode hr hq with ⟨-, hq', hkept⟩ | ⟨rfl, hq'⟩
      · exact ⟨q, hq', by rw [splicedHeights_kept hs hl hkept, hk]⟩
      · exact ⟨_, hq', splicedHeights_first hcode hneed hflow hk⟩

include hs hl hcode hb ht hpt hold hneed hleft hflow in
/-- **Splicing.** If a balanced block does to the stack what was done at its place, the listing with
the block has heights, and the nodes that stay have the heights that they had. -/
theorem FlowHeights.splice (hh : l.FlowHeights h) :
    l'.FlowHeights (splicedHeights l h old t code.length heights) ∧
      ∀ r ∈ xs ++ ys, splicedHeights l h old t code.length heights r = h r := by
  have hkept : ∀ {r}, r ∈ xs ++ ys → splicedHeights l h old t code.length heights r = h r :=
    splicedHeights_kept hs hl
  have hreach := fun {r} => hs.reached_kept (r := r) hcode hb hl ht hpt hold
  -- a node with a height stayed and had it before, or belongs to the block at a reached place
  have hcases : ∀ r m, splicedHeights l h old t code.length heights r = some m →
      (r ∈ xs ++ ys ∧ h r = some m) ∨ ∃ k n m', r = l.nodes.size + k ∧ k < code.length ∧
        h t = some n ∧ heights[k]? = some m' ∧ m = n - need + m' := by
    intro r m hm
    by_cases hlt : r < l.nodes.size
    · rw [splicedHeights, if_pos hlt] at hm
      split at hm
      · cases hm
      · next hne =>
        have hmem := hl.mem_refs_of_reached ((hh.domain r).mp ⟨m, hm⟩)
        exact .inl ⟨(hs.mem_refs.mp hmem).resolve_right hne, hm⟩
    · obtain ⟨k, rfl⟩ := Nat.exists_eq_add_of_le (Nat.not_lt.mp hlt)
      by_cases hk : k < code.length
      · rw [splicedHeights_new hneed hk] at hm
        obtain ⟨n, hn, hm⟩ := Option.bind_eq_some_iff.mp hm
        obtain ⟨m', hm', rfl⟩ := Option.map_eq_some_iff.mp hm
        exact .inr ⟨k, n, m', rfl, hk, hn, hm', rfl⟩
      · rw [splicedHeights, if_neg hlt, Nat.add_sub_cancel_left, if_neg hk] at hm
        cases hm
  refine ⟨.of_reached ?_ ?_ ?_ ?_, fun r hr => hkept hr⟩
  · intro r m hm
    rcases hcases r m hm with ⟨hmem, hr⟩ | ⟨k, n, m', rfl, hk, hn, -, -⟩
    · exact (hreach ((hh.domain r).mp ⟨m, hr⟩)).2 hmem
    · have hfirst := (hreach ((hh.domain t).mp ⟨n, hn⟩)).1 rfl
      exact hs.reached_new hcode hb hfirst hk.le (Spliced.slot_new hk)
  · intro r hr
    have hfirst : l.first = (xs ++ (old.toList ++ ys)).head? := hs.refs_eq ▸ hl.spells.first_eq
    rw [hs.spells'.first_eq] at hr
    cases xs with
    | nil =>
      rw [List.nil_append, ht] at hfirst
      rw [List.nil_append, List.head?_eq_getElem?,
        Spliced.slot_new (List.length_pos_iff.mpr hcode), Option.some.injEq] at hr
      subst hr
      exact splicedHeights_first hcode hneed hflow (hh.head t hfirst)
    | cons x xs =>
      rw [List.cons_append, List.head?_cons, Option.some.injEq] at hr
      subst hr
      rw [hkept (by simp), hh.head x hfirst]
  · intro start stop handler caught hmem
    obtain ⟨q, hq, hk⟩ := hh.handlers _ _ _ _ ((hs.mem_insns_iff hb hl hold rfl).mp hmem)
    exact ⟨q, hs.binding hq, by rw [splicedHeights_bound hs hl ht hpt hq, hk]⟩
  · intro r m hm
    rcases hcases r m hm with ⟨hmem, hr⟩ | ⟨k, n, m', rfl, hk, hn, hm', rfl⟩
    · obtain ⟨i, hi, heq⟩ := hh.equation r m hr
      exact ⟨i, (hs.insn?_old (hs.lt_size hl hmem)).trans hi,
        flowEquation_kept hs hl hcode ht hpt hneed hflow hmem heq⟩
    · exact flowEquation_new hs hl hb hneed hleft hflow hk hn hm'

end Splice

end Listing

end ClassWeaver
