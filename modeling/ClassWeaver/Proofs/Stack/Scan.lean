import Mathlib.Algebra.Order.Ring.Int
import ClassWeaver.Proofs.Stack.Heights
import ClassWeaver.Stack.Scan

/-!
# Where a backward scan ends

A backward scan from `r` answers a node `p` in front of `r`, and the stretch between them is plain:
it holds no barrier, and what stands right behind `p` is no label entry (`backUntil_split`). So code
that is inserted behind `p` is entered from `p` only, and from there control runs straight to `r`.
And the stretch is the shortest one: no shorter one up to `r` changes the stack by the target.

There are two reasons to end at `p` (`Anchors`): from there the stack changes by the target, or a
barrier comes next. In the second case the answer has moved on over the labels behind the barrier,
but these leave the total as it is, so the first case never needs to move. Without either the scan
gets past the head, and this is the only way to answer no node (`backUntil_nearest`). -/

namespace ClassWeaver.Listing

variable {l : Listing} {boundary : Ref → Bool} {target total : Int} {fuel : Nat}
variable {xs zs as bs : List Ref} {p q r : Ref}

/-- By how much nodes raise the stack, all together. -/
def rise (l : Listing) (rs : List Ref) : Int := ((rs.filterMap l.insn?).map Insn.rise).sum

theorem rise_append (l : Listing) (xs ys : List Ref) :
    l.rise (xs ++ ys) = l.rise xs + l.rise ys := by
  simp [rise]

theorem rise_reverse (l : Listing) (rs : List Ref) : l.rise rs.reverse = l.rise rs := by
  rw [rise, rise, List.filterMap_reverse, List.map_reverse, List.sum_reverse]

theorem rise_singleton {i : Insn} {change : Int} (hi : l.fetch r = .ok i)
    (hc : i.change = .ok change) : l.rise [r] = change := by
  obtain ⟨e, he, hchange⟩ := Except.bind_eq_ok_iff.mp hc
  have hrise := Insn.rise_eq he
  obtain rfl : e.change = change := Except.ok.inj hchange
  simp [rise, Flow.fetch_eq_ok_iff.mp hi, hrise, Effect.change]

/-- The change of the stack at a node. -/
def changeAt (l : Listing) (r : Ref) : Outcome Int := l.fetch r >>= Insn.change

theorem changeAt_eq {i : Insn} (hi : l.insn? r = some i) : l.changeAt r = i.change := by
  rw [changeAt, Flow.fetch_eq_ok_iff.mpr hi]
  rfl

theorem rise_of_changeAt {c : Int} (h : l.changeAt r = .ok c) : l.rise [r] = c := by
  obtain ⟨i, hi, hc⟩ := Except.bind_eq_ok_iff.mp h
  exact rise_singleton hi hc

theorem rise_cons_of_changeAt {c : Int} (h : l.changeAt r = .ok c) (rs : List Ref) :
    l.rise (r :: rs) = c + l.rise rs := by
  rw [← List.singleton_append, rise_append, rise_of_changeAt h]

/-- By how much nodes change the stack, all together, if each of them has an effect. -/
def changeOver (l : Listing) : List Ref → Outcome Int
  | [] => .ok 0
  | r :: rs => do return (← l.changeAt r) + (← changeOver l rs)

theorem changeOver_eq_ok_iff {rs : List Ref} {c : Int} :
    l.changeOver rs = .ok c ↔ (∀ b ∈ rs, ∃ d, l.changeAt b = .ok d) ∧ l.rise rs = c := by
  induction rs generalizing c with
  | nil => simp [changeOver, rise]
  | cons r rs ih =>
    rw [changeOver, Except.bind_eq_ok_iff, List.forall_mem_cons]
    constructor
    · rintro ⟨d, hd, h⟩
      obtain ⟨e, he, hsum⟩ := Except.bind_eq_ok_iff.mp h
      obtain ⟨hrs, hrise⟩ := ih.mp he
      exact ⟨⟨⟨d, hd⟩, hrs⟩, by rw [rise_cons_of_changeAt hd, hrise]; exact Except.ok.inj hsum⟩
    · rintro ⟨⟨⟨d, hd⟩, hrs⟩, hsum⟩
      rw [rise_cons_of_changeAt hd] at hsum
      exact ⟨d, hd, Except.bind_eq_ok_iff.mpr ⟨_, ih.mpr ⟨hrs, rfl⟩, congrArg _ hsum⟩⟩

/-! ### Walking back -/

/-- A walk goes back from node to node by their changes. -/
theorem backToTarget_succ (l : Listing) (boundary : Ref → Bool) (target : Int)
    (fuel : Nat) (r : Ref)
    (total : Int) : l.backToTarget boundary target (fuel + 1) r total = (do
      let c ← l.changeAt r
      match l.prev (some r) with
      | none => return none
      | some q =>
        if l.isBarrier boundary q || total + c = target then return some q
        else l.backToTarget boundary target fuel q (total + c)) := by
  rw [backToTarget, changeAt]
  cases l.fetch r <;> rfl

/-- If the target is not reached behind a node, nor from nowhere nearer in front of it, it is not
reached on the way to what is in front of that node. -/
theorem ne_target_concat {t : Ref} {c : Int} {bs ds : List Ref} (hc : l.changeAt r = .ok c)
    (hgo : total + c ≠ target)
    (hshort : ∀ ds, ds <:+ bs → ds ≠ bs → total + c + l.rise (ds ++ [t]) ≠ target)
    (hds : ds <:+ bs ++ [t]) (hne : ds ≠ bs ++ [t]) : total + l.rise (ds ++ [r]) ≠ target := by
  rw [rise_append, rise_of_changeAt hc]
  rcases List.suffix_concat_iff.mp hds with rfl | ⟨es, rfl, hes⟩
  · simpa [rise] using hgo
  · have hne' : es ≠ bs := fun heq => hne (heq ▸ rfl)
    have hlater := hshort es hes hne'
    omega

/-- The walk back ends in front of a stretch without barriers, as soon as the target is reached or a
barrier comes next. -/
theorem backToTarget_split (hl : l.Spells (xs ++ r :: zs)) (hf : xs.length < fuel)
    (h : l.backToTarget boundary target fuel r total = .ok (some q)) :
    ∃ as bs, xs = as ++ q :: bs ∧ (∀ b ∈ bs ++ [r], ∃ c, l.changeAt b = .ok c) ∧
      (∀ b ∈ bs, l.isBarrier boundary b = false) ∧
      (∀ ds, ds <:+ bs → ds ≠ bs → total + l.rise (ds ++ [r]) ≠ target) ∧
      (l.isBarrier boundary q = true ∨ total + l.rise (bs ++ [r]) = target) := by
  induction xs using List.reverseRecOn generalizing zs r total fuel with
  | nil =>
    obtain ⟨fuel, rfl⟩ := Nat.exists_eq_add_one_of_ne_zero (Nat.ne_zero_of_lt hf)
    rw [backToTarget_succ, hl.prev_eq] at h
    obtain ⟨c, -, h⟩ := Except.bind_eq_ok_iff.mp h
    cases h
  | append_singleton xs t ih =>
    obtain ⟨fuel, rfl⟩ := Nat.exists_eq_add_one_of_ne_zero (Nat.ne_zero_of_lt hf)
    have hl' : l.Spells (xs ++ t :: (r :: zs)) := by simpa using hl
    rw [backToTarget_succ, hl.prev_eq, List.getLast?_concat] at h
    obtain ⟨c, hc, h⟩ := Except.bind_eq_ok_iff.mp h
    have hrise := rise_of_changeAt hc
    dsimp only at h
    split at h
    · next hstop =>
      obtain rfl : t = q := Option.some.inj (Except.ok.inj h)
      refine ⟨xs, [], rfl, by simpa using ⟨c, hc⟩, by simp,
        fun ds hds hne => absurd (List.suffix_nil.mp hds) hne, ?_⟩
      rw [List.nil_append, hrise]
      simpa using hstop
    · next hgo =>
      obtain ⟨as, bs, rfl, hchanges, hbs, hshort, hstop⟩ := ih hl' (by simpa using hf) h
      simp only [Bool.or_eq_true, not_or, decide_eq_true_eq] at hgo
      have hpass : l.isBarrier boundary t = false := Bool.eq_false_iff.mpr hgo.1
      refine ⟨as, bs ++ [t], by simp, ?_, ?_, fun ds hds hne => ?_, ?_⟩
      · exact List.forall_mem_append.mpr ⟨hchanges, List.forall_mem_singleton.mpr ⟨c, hc⟩⟩
      · exact List.forall_mem_append.mpr ⟨hbs, List.forall_mem_singleton.mpr hpass⟩
      · -- the walk did not stop here either
        exact ne_target_concat hc hgo.2 hshort hds hne
      · rw [rise_append, hrise]
        refine hstop.imp_right fun hsum => ?_
        omega

/-- The walk back gets past the head if there is no barrier and the target is reached nowhere. -/
theorem backToTarget_none (hl : l.Spells (xs ++ r :: zs)) (hf : xs.length < fuel)
    (h : l.backToTarget boundary target fuel r total = .ok none) :
    (∀ b ∈ xs ++ [r], ∃ c, l.changeAt b = .ok c) ∧ (∀ b ∈ xs, l.isBarrier boundary b = false) ∧
      ∀ ds, ds <:+ xs → ds ≠ xs → total + l.rise (ds ++ [r]) ≠ target := by
  induction xs using List.reverseRecOn generalizing zs r total fuel with
  | nil =>
    obtain ⟨fuel, rfl⟩ := Nat.exists_eq_add_one_of_ne_zero (Nat.ne_zero_of_lt hf)
    rw [backToTarget_succ] at h
    obtain ⟨c, hc, -⟩ := Except.bind_eq_ok_iff.mp h
    exact ⟨by simpa using ⟨c, hc⟩, by simp, fun ds hds hne => absurd (List.suffix_nil.mp hds) hne⟩
  | append_singleton xs t ih =>
    obtain ⟨fuel, rfl⟩ := Nat.exists_eq_add_one_of_ne_zero (Nat.ne_zero_of_lt hf)
    have hl' : l.Spells (xs ++ t :: (r :: zs)) := by simpa using hl
    rw [backToTarget_succ, hl.prev_eq, List.getLast?_concat] at h
    obtain ⟨c, hc, h⟩ := Except.bind_eq_ok_iff.mp h
    dsimp only at h
    split at h
    · cases h
    · next hgo =>
      obtain ⟨hchanges, hxs, hshort⟩ := ih hl' (by simpa using hf) h
      simp only [Bool.or_eq_true, not_or, decide_eq_true_eq] at hgo
      have hpass : l.isBarrier boundary t = false := Bool.eq_false_iff.mpr hgo.1
      refine ⟨?_, ?_, fun ds hds hne => ?_⟩
      · exact List.forall_mem_append.mpr ⟨hchanges, List.forall_mem_singleton.mpr ⟨c, hc⟩⟩
      · exact List.forall_mem_append.mpr ⟨hxs, List.forall_mem_singleton.mpr hpass⟩
      · exact ne_target_concat hc hgo.2 hshort hds hne

/-- Moving over label entries ends in front of something else. -/
theorem overLabels_split (hl : l.Spells (as ++ q :: (bs ++ r :: zs)))
    (hr : l.isLabelEntry r = false) (hf : bs.length < fuel) :
    ∃ labels cs ds, bs = labels ++ ds ∧ as ++ q :: labels = cs ++ [l.overLabels fuel q] ∧
      (∀ b ∈ labels, l.isLabelEntry b = true) ∧
      ∀ b, (ds ++ [r]).head? = some b → l.isLabelEntry b = false := by
  induction bs generalizing as q fuel with
  | nil =>
    have hnext : l.next (some q) = some r := hl.next_eq
    have hover : l.overLabels fuel q = q := by
      cases fuel with
      | zero => rfl
      | succ fuel => simp [overLabels, hnext, hr]
    rw [hover]
    refine ⟨[], as, [], rfl, rfl, by simp, ?_⟩
    rintro b ⟨⟩
    exact hr
  | cons t bs ih =>
    obtain ⟨fuel, rfl⟩ : ∃ n, fuel = n + 1 := ⟨fuel - 1, by simp at hf; omega⟩
    have hnext : l.next (some q) = some t := hl.next_eq
    simp only [overLabels, hnext]
    by_cases ht : l.isLabelEntry t = true
    · -- the next entry is a label as well, and the walk goes on from there
      rw [if_pos ht]
      have hl' : l.Spells ((as ++ [q]) ++ t :: (bs ++ r :: zs)) := by simpa using hl
      obtain ⟨labels, cs, ds, rfl, heq, hlabels, hhead⟩ := ih hl' (by simpa using hf)
      exact ⟨t :: labels, cs, ds, rfl, by simpa using heq, List.forall_mem_cons.mpr ⟨ht, hlabels⟩,
        hhead⟩
    · rw [if_neg ht]
      refine ⟨[], as, t :: bs, rfl, rfl, by simp, ?_⟩
      rintro b ⟨⟩
      exact Bool.eq_false_iff.mpr ht

/-! ### The answer of a scan -/

/-- A scan from `r` ends at `p`, which stands behind the nodes `as` and in front of the nodes `bs`:
in `bs` there is no barrier, no label entry at the beginning, and no place from where the stack
changes by the target. From behind `p` it does, or `p` is the last barrier, up to the labels right
behind it. -/
structure Anchors (l : Listing) (boundary : Ref → Bool) (target : Int) (r : Ref) (as : List Ref)
    (p : Ref) (bs : List Ref) : Prop where
  changes : ∀ b ∈ bs ++ [r], ∃ c, l.changeAt b = .ok c
  clear : ∀ b ∈ bs, l.isBarrier boundary b = false
  unlabelled : ∀ b, (bs ++ [r]).head? = some b → l.isLabelEntry b = false
  nearest : ∀ ds, ds <:+ bs → ds ≠ bs → l.changeOver (ds ++ [r]) ≠ .ok target
  reason : l.changeOver (bs ++ [r]) = .ok target ∨
    ∃ front q labels, as ++ [p] = front ++ q :: labels ∧ l.isBarrier boundary q = true ∧
      (∀ b ∈ labels, l.isLabelEntry b = true ∧ l.isBarrier boundary b = false) ∧
      ∀ ds, ds <:+ labels ++ bs → l.changeOver (ds ++ [r]) ≠ .ok target

/-- A label entry leaves the stack as it is. -/
theorem changeAt_of_isLabelEntry (h : l.isLabelEntry r = true) : l.changeAt r = .ok 0 := by
  unfold isLabelEntry at h
  split at h
  · next i hi =>
    obtain ⟨op, x⟩ := i
    obtain rfl : op = .label := of_decide_eq_true h
    exact changeAt_eq hi
  · cases h

theorem rise_of_labels {labels : List Ref} (h : ∀ b ∈ labels, l.isLabelEntry b = true) :
    l.rise labels = 0 := by
  induction labels with
  | nil => rfl
  | cons b labels ih =>
    rw [List.forall_mem_cons] at h
    rw [rise_cons_of_changeAt (changeAt_of_isLabelEntry h.1), ih h.2]
    rfl

/-- A backward scan that ends behind a node is anchored there. -/
theorem backUntil_anchors (hl : l.Spells (xs ++ r :: zs)) (hr : l.isLabelEntry r = false)
    (h : l.backUntil boundary r target false = .ok (some p)) :
    ∃ as bs, xs = as ++ p :: bs ∧ l.Anchors boundary target r as p bs := by
  have hlen : xs.length < l.nodes.size + 1 := Nat.lt_succ_of_lt hl.front_lt
  obtain ⟨found, hfound, h⟩ := Except.bind_eq_ok_iff.mp h
  obtain ⟨q, rfl, rfl⟩ : ∃ q, found = some q ∧ l.overLabels (l.nodes.size + 1) q = p :=
    Option.map_eq_some_iff.mp (Except.ok.inj h)
  obtain ⟨front, back, rfl, hchanges, hclear, hshort, hstop⟩ := backToTarget_split hl hlen hfound
  have hl' : l.Spells (front ++ q :: (back ++ r :: zs)) := by simpa using hl
  have hfuel : back.length < l.nodes.size + 1 := Nat.lt_succ_of_lt hl'.between_lt
  obtain ⟨labels, as, bs, rfl, heq, hlabels, hhead⟩ := overLabels_split hl' hr hfuel
  simp only [Int.zero_add] at hshort hstop
  have hno : ∀ ds, ds <:+ labels ++ bs → ds ≠ labels ++ bs →
      l.changeOver (ds ++ [r]) ≠ .ok target := fun ds hds hne hsum =>
    hshort ds hds hne (changeOver_eq_ok_iff.mp hsum).2
  refine ⟨as, bs, ?_, fun b hb => hchanges b ?_, fun b hb => hclear b (List.mem_append_right _ hb),
    hhead, fun ds hds hne => hno ds (hds.trans (List.suffix_append ..)) ?_, ?_⟩
  · rw [← List.cons_append, ← List.append_assoc, heq, List.append_assoc, List.singleton_append]
  · rw [List.append_assoc]
    exact List.mem_append_right _ hb
  · rintro rfl
    exact hne (hds.eq_of_length_le (List.suffix_append ..).length_le)
  · -- labels change nothing, so the target is reached behind the last of them if it is in front
    by_cases hsum : l.rise (labels ++ bs ++ [r]) = target
    · rw [List.append_assoc, rise_append, rise_of_labels hlabels, Int.zero_add] at hsum
      exact .inl (changeOver_eq_ok_iff.mpr ⟨fun b hb => hchanges b (by simp_all), hsum⟩)
    · refine .inr ⟨front, q, labels, heq.symm, hstop.resolve_right hsum, fun b hb =>
        ⟨hlabels b hb, hclear b (List.mem_append_left _ hb)⟩, fun ds hds hds' => ?_⟩
      by_cases hds'' : ds = labels ++ bs
      · exact hsum (hds'' ▸ (changeOver_eq_ok_iff.mp hds').2)
      · exact hno ds hds hds'' hds'

/-- A backward scan that ends behind a node leaves a plain stretch between that node and its
start, and no shorter stretch changes the stack by the target. -/
theorem backUntil_split (hl : l.Spells (xs ++ r :: zs)) (hr : l.isLabelEntry r = false)
    (h : l.backUntil boundary r target false = .ok (some p)) :
    ∃ as bs, xs = as ++ p :: bs ∧ (∀ b ∈ bs, l.isBarrier boundary b = false) ∧
      (∀ b, (bs ++ [r]).head? = some b → l.isLabelEntry b = false) ∧
      ∀ ds, ds <:+ bs → ds ≠ bs → l.rise (ds ++ [r]) ≠ target := by
  obtain ⟨as, bs, rfl, hp⟩ := backUntil_anchors hl hr h
  refine ⟨as, bs, rfl, hp.clear, hp.unlabelled, fun ds hds hne hsum => hp.nearest ds hds hne ?_⟩
  refine changeOver_eq_ok_iff.mpr ⟨fun b hb => hp.changes b ?_, hsum⟩
  rcases List.mem_append.mp hb with hb | hb
  · exact List.mem_append_left _ (hds.subset hb)
  · exact List.mem_append_right _ hb

/-- **Where a backward scan ends.** A scan that starts at a node of the sequence other than a label
entry and succeeds is anchored at its answer. It answers no node if and only if there is no barrier
in front of the start, and from behind none of the nodes there the stack changes by the target. -/
theorem backUntil_nearest {answer : Option Ref} (hb : l.Built) (hlinked : l.isLinked r = true)
    (hr : l.isLabelEntry r = false) (h : l.backUntil boundary r target false = .ok answer) :
    ∃ xs zs, l.refs = xs ++ r :: zs ∧
      (∀ p, answer = some p → ∃ as bs, xs = as ++ p :: bs ∧ l.Anchors boundary target r as p bs) ∧
      (answer = none → ∀ b ∈ xs ++ [r], ∃ c, l.changeAt b = .ok c) ∧
      (answer = none ↔ (∀ q ∈ xs, l.isBarrier boundary q = false) ∧
        ∀ as q bs, xs = as ++ q :: bs → l.changeOver (bs ++ [r]) ≠ .ok target) := by
  have hsp := hb.wellFormed.spells
  obtain ⟨xs, zs, hrefs⟩ := List.append_of_mem (hsp.isLinked_iff.mp hlinked)
  have hl : l.Spells (xs ++ r :: zs) := hrefs ▸ hsp
  have hlen : xs.length < l.nodes.size + 1 := Nat.lt_succ_of_lt hl.front_lt
  refine ⟨xs, zs, hrefs, fun p hp => backUntil_anchors hl hr (hp ▸ h), ?_⟩
  cases answer with
  | none =>
    obtain ⟨found, hfound, hnone⟩ := Except.bind_eq_ok_iff.mp h
    obtain rfl : found = none := Option.map_eq_none_iff.mp (Except.ok.inj hnone)
    obtain ⟨hchanges, hclear, hno⟩ := backToTarget_none hl hlen hfound
    refine ⟨fun _ => hchanges, fun _ => ⟨hclear, fun as q bs hsplit hsum => ?_⟩, fun _ => rfl⟩
    have hne : bs ≠ xs := by
      intro heq
      have hlen' := congrArg List.length hsplit
      simp only [← heq, List.length_append, List.length_cons] at hlen'
      omega
    -- what is behind a node is a proper suffix of what is in front of the start
    refine hno bs ?_ hne (by rw [Int.zero_add, (changeOver_eq_ok_iff.mp hsum).2])
    rw [hsplit]
    exact (List.suffix_cons q bs).trans (List.suffix_append ..)
  | some p =>
    refine ⟨nofun, nofun, fun ⟨hclear, hno⟩ => ?_⟩
    obtain ⟨as, bs, rfl, hp⟩ := backUntil_anchors hl hr h
    rcases hp.reason with hsum | ⟨front, q, labels, heq, hq, -, -⟩
    · exact absurd hsum (hno as p bs rfl)
    · have hmem : q ∈ as ++ [p] := by simp [heq]
      rw [hclear q (by simp at hmem ⊢; tauto)] at hq
      cases hq

/-- Stores a local behind a label that a branch in front of it leads to. -/
def joining : Listing :=
  ofInsns 1 [.plain .iconst0, .jump ⟨0x99⟩ 0, .place 0, .load .iload 2, .load .istore 3,
    .plain .voidReturn]

/-- A target that is out of reach: the scan from the store ends at the branch and moves on over the
label. -/
theorem backUntil_nearest_joining : joining.Built ∧ joining.isLinked 4 = true ∧
    joining.isLabelEntry 4 = false ∧ joining.backUntil (fun _ => false) 4 5 false = .ok (some 2) ∧
    ∃ xs zs, joining.refs = xs ++ 4 :: zs ∧
      ∃ as bs, xs = as ++ 2 :: bs ∧ joining.Anchors (fun _ => false) 5 4 as 2 bs := by
  have hb : joining.Built := .ofInsns _ _
  have hlinked : joining.isLinked 4 = true := by decide +kernel
  have hr : joining.isLabelEntry 4 = false := by decide +kernel
  have hback : joining.backUntil (fun _ => false) 4 5 false = .ok (some 2) :=
    Outcome.eq_ok_of_toOption (by decide +kernel)
  obtain ⟨xs, zs, hrefs, hanchors, -⟩ := backUntil_nearest hb hlinked hr hback
  exact ⟨hb, hlinked, hr, hback, xs, zs, hrefs, hanchors 2 rfl⟩

end ClassWeaver.Listing
