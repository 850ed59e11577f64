import ClassWeaver.Proofs.Listing.Editing
import ClassWeaver.Proofs.Stack.Scan

/-!
# Anchors that stay

A backward scan that follows neutral instructions walks back to the target (`retreat`), then on over
nodes that leave the stack as it is (`overNeutral`), and comes to a halt at a node that it cannot
pass. A neutral node among those that were passed is passed as well, wherever it is put
(`halt_insert`). The answer has moved on from the halt over the labels behind it, so what is
inserted behind the answer is such a node and does not come between the labels. This is why casts
can be inserted one after the other at the same anchor.

There is one exception. Handles are numbers in the order in which they are given out, so that a set
of boundaries can hold a handle before there is such a node. The anchor stays if and only if the new
node is no boundary
(`backUntil_stays_iff`). -/

namespace ClassWeaver.Listing

variable {l l' : Listing} {ends ends' boundary : Ref → Bool} {target total : Int} {fuel : Nat}
variable {xs ys zs us vs rest : List Ref} {c p q r : Ref} {i : Insn}

/-! ### Where a scan halts -/

/-- What is left of nodes, the nearest first, when the walk back over them has reached the target or
come to an end. -/
def retreat (l : Listing) (ends : Ref → Bool) (target : Int) :
    List Ref → (total : Int) → Outcome (List Ref)
  | [], _ => .ok []
  | q :: qs, total =>
    if ends q || total = target then .ok (q :: qs)
    else do retreat l ends target qs (total + (← l.changeAt q))

/-- What is left of nodes, the nearest first, behind those in front that change nothing. -/
def overNeutral (l : Listing) (ends : Ref → Bool) : List Ref → Outcome (List Ref)
  | [] => .ok []
  | q :: qs =>
    if ends q then .ok (q :: qs)
    else do
      if (← l.changeAt q) = 0 then overNeutral l ends qs else return q :: qs

/-- What is left of nodes, the nearest first, when a scan over them comes to a halt. -/
def halt (l : Listing) (ends : Ref → Bool) (target : Int) (xs : List Ref) (total : Int) :
    Outcome (List Ref) := do l.overNeutral ends (← l.retreat ends target xs total)

theorem retreat_split (h : l.retreat ends target xs total = .ok rest) :
    ∃ passed, xs = passed ++ rest ∧ ∀ b ∈ passed, ends b = false := by
  induction xs generalizing total with
  | nil => exact ⟨[], Except.ok.inj h, nofun⟩
  | cons q qs ih =>
    rw [retreat] at h
    split at h
    · exact ⟨[], Except.ok.inj h, nofun⟩
    · next hgo =>
      obtain ⟨d, -, h⟩ := Except.bind_eq_ok_iff.mp h
      obtain ⟨passed, rfl, hpassed⟩ := ih h
      simp only [Bool.or_eq_true, not_or, Bool.not_eq_true] at hgo
      exact ⟨q :: passed, rfl, List.forall_mem_cons.mpr ⟨hgo.1, hpassed⟩⟩

theorem overNeutral_split (h : l.overNeutral ends xs = .ok rest) :
    ∃ passed, xs = passed ++ rest ∧ ∀ b ∈ passed, ends b = false := by
  induction xs with
  | nil => exact ⟨[], Except.ok.inj h, nofun⟩
  | cons q qs ih =>
    rw [overNeutral] at h
    split at h
    · exact ⟨[], Except.ok.inj h, nofun⟩
    · next hgo =>
      obtain ⟨d, -, h⟩ := Except.bind_eq_ok_iff.mp h
      split at h
      · obtain ⟨passed, rfl, hpassed⟩ := ih h
        exact ⟨q :: passed, rfl, List.forall_mem_cons.mpr ⟨Bool.eq_false_iff.mpr hgo, hpassed⟩⟩
      · exact ⟨[], Except.ok.inj h, nofun⟩

/-- A scan passes no end. -/
theorem halt_split (h : l.halt ends target xs total = .ok rest) :
    ∃ passed, xs = passed ++ rest ∧ ∀ b ∈ passed, ends b = false := by
  obtain ⟨mid, hmid, hrest⟩ := Except.bind_eq_ok_iff.mp h
  obtain ⟨front, rfl, hfront⟩ := retreat_split hmid
  obtain ⟨back, rfl, hback⟩ := overNeutral_split hrest
  exact ⟨front ++ back, (List.append_assoc ..).symm,
    fun b hb => (List.mem_append.mp hb).elim (hfront b) (hback b)⟩

/-- Where a scan halts depends on the changes of the nodes and on which of them are ends. -/
theorem halt_congr (hsame : ∀ q ∈ xs, l'.changeAt q = l.changeAt q ∧ ends' q = ends q) :
    l'.halt ends' target xs total = l.halt ends target xs total := by
  have hneutral : ∀ ys, (∀ q ∈ ys, l'.changeAt q = l.changeAt q ∧ ends' q = ends q) →
      l'.overNeutral ends' ys = l.overNeutral ends ys := by
    intro ys hys
    induction ys with
    | nil => rfl
    | cons q qs ih =>
      rw [List.forall_mem_cons] at hys
      simp only [overNeutral, hys.1, ih hys.2]
  unfold halt
  induction xs generalizing total with
  | nil => rfl
  | cons q qs ih =>
    have hall := hsame
    rw [List.forall_mem_cons] at hsame
    simp only [retreat, hsame.1]
    split
    · exact hneutral (q :: qs) hall
    · cases l.changeAt q with
      | error e => rfl
      | ok d => exact ih hsame.2

/-! ### A neutral node among those passed -/

/-- A neutral node is passed wherever nodes are passed that change nothing. -/
theorem overNeutral_insert (hc : l.changeAt c = .ok 0) (hends : ends c = false)
    (hle : rest.length ≤ vs.length) (h : l.overNeutral ends (us ++ vs) = .ok rest) :
    l.overNeutral ends (us ++ c :: vs) = .ok rest := by
  induction us with
  | nil =>
    rw [List.nil_append, overNeutral, if_neg (by simp [hends]), hc]
    exact h
  | cons u us ih =>
    -- it cannot have stopped here, for too much would be left
    have hlong : rest ≠ u :: (us ++ vs) := by
      rintro rfl
      simp only [List.length_cons, List.length_append] at hle
      omega
    rw [List.cons_append, overNeutral] at h ⊢
    split at h
    · exact absurd (Except.ok.inj h).symm hlong
    · next hgo =>
      rw [if_neg hgo]
      obtain ⟨d, hd, h⟩ := Except.bind_eq_ok_iff.mp h
      refine Except.bind_eq_ok_iff.mpr ⟨d, hd, ?_⟩
      split at h
      · next hzero =>
        rw [if_pos hzero]
        exact ih h
      · exact absurd (Except.ok.inj h).symm hlong

/-- A neutral node among the nodes that a scan passes does not change where the scan halts. -/
theorem halt_insert (hc : l.changeAt c = .ok 0) (hends : ends c = false)
    (hle : rest.length ≤ vs.length) (h : l.halt ends target (us ++ vs) total = .ok rest) :
    l.halt ends target (us ++ c :: vs) total = .ok rest := by
  unfold halt at h ⊢
  induction us generalizing total with
  | nil =>
    rw [List.nil_append] at h ⊢
    rw [retreat, hends, Bool.false_or]
    split
    · next htotal =>
      -- the target is reached in front of the nodes, so the walk stops at once
      have hstop : l.retreat ends target vs total = .ok vs := by
        cases vs with
        | nil => rfl
        | cons v vs => rw [retreat, htotal, Bool.or_true, if_pos rfl]
      rw [hstop] at h
      exact @overNeutral_insert _ _ [] _ _ _ hc hends hle h
    · rw [hc]
      change (l.retreat ends target vs (total + 0) >>= _) = _
      rwa [Int.add_zero]
  | cons u us ih =>
    rw [List.cons_append, retreat] at h ⊢
    split at h
    · next hstop =>
      rw [if_pos hstop]
      exact @overNeutral_insert _ _ (u :: us) _ _ _ hc hends hle h
    · next hgo =>
      rw [if_neg hgo]
      cases hd : l.changeAt u with
      | error e =>
        rw [hd] at h
        cases h
      | ok d =>
        rw [hd] at h
        exact ih h

/-- A scan that halts does not pass an end. -/
theorem halt_at_end (hends : ends c = true)
    (h : l.halt ends target (us ++ c :: vs) total = .ok rest) :
    ∃ passed ws, us = passed ++ ws ∧ rest = ws ++ c :: vs := by
  obtain ⟨passed, hsplit, hpassed⟩ := halt_split h
  rcases List.append_eq_append_iff.mp hsplit with ⟨ws, rfl, hws⟩ | ⟨ws, rfl, hws⟩
  · cases ws with
    | nil => exact ⟨us, [], (List.append_nil us).symm, hws.symm⟩
    | cons w ws =>
      obtain ⟨rfl, -⟩ := List.cons.inj hws
      rw [hpassed c (by simp)] at hends
      cases hends
  · exact ⟨passed, ws, rfl, hws⟩

/-! ### Scans along the links -/

/-- The walk back along the links is a walk back over the nodes in front. -/
theorem backToTarget_eq (hl : l.Spells (xs ++ r :: zs)) (hf : xs.length < fuel) :
    l.backToTarget boundary target fuel r total = (do
      let d ← l.changeAt r
      let rest ← l.retreat (l.isBarrier boundary) target xs.reverse (total + d)
      return rest.head?) := by
  induction xs using List.reverseRecOn generalizing zs r total fuel with
  | nil =>
    obtain ⟨fuel, rfl⟩ := Nat.exists_eq_add_one_of_ne_zero (Nat.ne_zero_of_lt hf)
    rw [backToTarget_succ, hl.prev_eq]
    rfl
  | append_singleton xs t ih =>
    obtain ⟨fuel, rfl⟩ := Nat.exists_eq_add_one_of_ne_zero (Nat.ne_zero_of_lt hf)
    have hl' : l.Spells (xs ++ t :: (r :: zs)) := by simpa using hl
    rw [backToTarget_succ, hl.prev_eq, List.getLast?_concat, List.reverse_concat]
    refine congrArg (l.changeAt r >>= ·) (funext fun d => ?_)
    dsimp only
    rw [retreat]
    split
    · rfl
    · rw [ih hl' (by simpa using hf)]
      cases l.changeAt t <;> rfl

/-- So is the walk on over neutral nodes. -/
theorem backOverNeutral_eq (hl : l.Spells (xs ++ zs)) (hf : xs.length ≤ fuel) :
    l.backOverNeutral boundary fuel xs.getLast? = (do
      let rest ← l.overNeutral (l.isBarrier boundary) xs.reverse
      return rest.head?) := by
  induction xs using List.reverseRecOn generalizing zs fuel with
  | nil => cases fuel <;> rfl
  | append_singleton xs t ih =>
    rw [List.length_append, List.length_singleton] at hf
    obtain ⟨fuel, rfl⟩ := Nat.exists_eq_add_one_of_ne_zero (Nat.ne_zero_of_lt hf)
    have hl' : l.Spells (xs ++ t :: zs) := by simpa using hl
    rw [List.getLast?_concat, List.reverse_concat, backOverNeutral, overNeutral, hl'.prev_eq]
    split
    · rfl
    · rw [ih hl' (by omega), changeAt]
      cases l.fetch t with
      | error e => rfl
      | ok i =>
        change (i.change >>= _) = (i.change >>= _) >>= _
        cases i.change with
        | error e => rfl
        | ok d =>
          change (if d = 0 then _ else _) = (if d = 0 then _ else _) >>= _
          split <;> rfl

/-- The answer of a scan that follows neutral instructions: from where it halts on over labels. -/
theorem backUntil_eq_halt (hl : l.Spells (xs ++ r :: zs)) :
    l.backUntil boundary r target true = (do
      let d ← l.changeAt r
      let rest ← l.halt (l.isBarrier boundary) target xs.reverse d
      return rest.head?.map (l.overLabels (l.nodes.size + 1))) := by
  have hlen : xs.length < l.nodes.size + 1 := Nat.lt_succ_of_lt hl.front_lt
  rw [backUntil, backToTarget_eq hl hlen]
  cases hd : l.changeAt r with
  | error e => rfl
  | ok d =>
    -- both sides walk back to the target first
    change (l.retreat _ target xs.reverse (0 + d) >>= _) >>= _ =
      (l.retreat _ target _ d >>= _) >>= _
    rw [Int.zero_add]
    cases hmid : l.retreat (l.isBarrier boundary) target xs.reverse d with
    | error e => rfl
    | ok mid =>
      obtain ⟨passed, hsplit, -⟩ := retreat_split hmid
      have hxs : xs = mid.reverse ++ passed.reverse := by
        rw [← List.reverse_append, ← hsplit, List.reverse_reverse]
      have hl' : l.Spells (mid.reverse ++ (passed.reverse ++ r :: zs)) := by
        simpa [hxs] using hl
      have hmidlen : mid.reverse.length ≤ l.nodes.size + 1 := by
        rw [hxs, List.length_append] at hlen
        omega
      have hback := @backOverNeutral_eq l boundary _ _ _ hl' hmidlen
      rw [List.getLast?_reverse, List.reverse_reverse] at hback
      change (l.backOverNeutral boundary (l.nodes.size + 1) mid.head? >>= _) =
        l.overNeutral (l.isBarrier boundary) mid >>= _
      rw [hback]
      cases l.overNeutral (l.isBarrier boundary) mid <;> rfl

/-! ### Inserting behind the answer -/

/-- Labels lead to the last of them. -/
theorem overLabels_eq {labels : List Ref} (hl : l.Spells (us ++ q :: (labels ++ p :: zs)))
    (hlabels : ∀ b ∈ labels, l.isLabelEntry b = true) (hp : l.isLabelEntry p = false)
    (hf : labels.length < fuel) : some (l.overLabels fuel q) = (q :: labels).getLast? := by
  induction labels generalizing us q fuel with
  | nil =>
    obtain ⟨fuel, rfl⟩ := Nat.exists_eq_add_one_of_ne_zero (Nat.ne_zero_of_lt hf)
    have hnext : l.next (some q) = some p := hl.next_eq
    simp [overLabels, hnext, hp]
  | cons b labels ih =>
    obtain ⟨fuel, rfl⟩ := Nat.exists_eq_add_one_of_ne_zero (Nat.ne_zero_of_lt hf)
    rw [List.forall_mem_cons] at hlabels
    have hnext : l.next (some q) = some b := hl.next_eq
    have hl' : l.Spells ((us ++ [q]) ++ b :: (labels ++ p :: zs)) := by simpa using hl
    rw [overLabels, hnext, List.getLast?_cons_cons, ← ih hl' hlabels.2 (by simpa using hf)]
    dsimp only
    rw [if_pos hlabels.1]

/-- Moving over labels ends at the node or behind it. -/
theorem overLabels_mem (hl : l.Spells (us ++ q :: (vs ++ r :: zs))) (hr : l.isLabelEntry r = false)
    (hf : vs.length < fuel) : l.overLabels fuel q ∈ q :: vs := by
  obtain ⟨labels, cs, ds, rfl, heq, -, -⟩ := overLabels_split hl hr hf
  have hlast : (q :: labels).getLast? = some (l.overLabels fuel q) := by
    have hboth := congrArg List.getLast? heq
    rwa [List.getLast?_append_cons, List.getLast?_concat] at hboth
  rcases List.mem_cons.mp (List.mem_of_getLast? hlast) with hmem | hmem
  · rw [hmem]
    exact List.mem_cons_self
  · exact List.mem_cons_of_mem _ (List.mem_append_left _ hmem)

/-- From where a scan halts at a node or behind it, labels do not lead in front of that node. -/
theorem overLabels_notMem {passed ws : List Ref}
    (hl : l.Spells (vs.reverse ++ c :: ((passed ++ ws).reverse ++ r :: zs)))
    (hr : l.isLabelEntry r = false) (hq : (ws ++ c :: vs).head? = some q) :
    l.overLabels (l.nodes.size + 1) q ∉ vs := by
  have hsplit : ∃ front, l.Spells ((vs.reverse ++ front) ++ q :: (passed.reverse ++ r :: zs)) := by
    cases ws with
    | nil =>
      obtain rfl := Option.some.inj hq
      exact ⟨[], by simpa using hl⟩
    | cons w ws =>
      obtain rfl := Option.some.inj hq
      exact ⟨c :: ws.reverse, by simpa using hl⟩
  obtain ⟨front, hl'⟩ := hsplit
  have hlen : passed.reverse.length < l.nodes.size + 1 := Nat.lt_succ_of_lt hl'.between_lt
  have hmem := overLabels_mem hl' hr hlen
  intro hvs
  refine List.disjoint_of_nodup_append hl'.nodup
    (List.mem_append_left _ (List.mem_reverse.mpr hvs)) ?_
  rw [← List.cons_append]
  exact List.mem_append_left _ hmem

/-- From where a scan halts, labels lead to the node right in front of one that is no label
entry. -/
theorem map_overLabels_head? {labels : List Ref}
    (hl : l.Spells ((labels ++ rest).reverse ++ p :: zs))
    (hlabels : ∀ b ∈ labels, l.isLabelEntry b = true) (hp : l.isLabelEntry p = false)
    (hnone : rest = [] → labels = []) :
    rest.head?.map (l.overLabels (l.nodes.size + 1)) = (labels ++ rest).head? := by
  cases rest with
  | nil =>
    rw [hnone rfl]
    rfl
  | cons q qs =>
    have hl' : l.Spells (qs.reverse ++ q :: (labels.reverse ++ p :: zs)) := by simpa using hl
    have hlen : labels.reverse.length < l.nodes.size + 1 := Nat.lt_succ_of_lt hl'.between_lt
    rw [List.head?_cons, Option.map_some,
      overLabels_eq hl' (fun b hb => hlabels b (List.mem_reverse.mp hb)) hp hlen]
    cases labels using List.reverseRecOn <;> simp [List.getLast?_cons]

/-- A scan from `r` that halts in front of `us`, with only labels between the halt and `us`. Both
`us` and what is in front of it are told with the nearest first, and the scan answers the nearest
node that is in front of `us`. -/
structure Halted (l : Listing) (boundary : Ref → Bool) (target : Int) (r : Ref)
    (us labels rest zs : List Ref) (d : Int) : Prop where
  spells : l.Spells ((labels ++ rest).reverse ++ (us.reverse ++ r :: zs))
  start : l.isLabelEntry r = false
  change : l.changeAt r = .ok d
  halts : l.halt (l.isBarrier boundary) target (us ++ (labels ++ rest)) d = .ok rest
  labelled : ∀ b ∈ labels, l.isLabelEntry b = true
  nil : rest = [] → labels = []

theorem exists_halted {answer : Option Ref} (hl : l.Spells (xs ++ r :: zs))
    (hr : l.isLabelEntry r = false) (h : l.backUntil boundary r target true = .ok answer) :
    ∃ us labels rest d, answer = (labels ++ rest).head? ∧
      l.Halted boundary target r us labels rest zs d := by
  rw [backUntil_eq_halt hl] at h
  obtain ⟨d, hd, h⟩ := Except.bind_eq_ok_iff.mp h
  obtain ⟨rest, hrest, h⟩ := Except.bind_eq_ok_iff.mp h
  obtain rfl := Except.ok.inj h
  obtain ⟨passed, hsplit, -⟩ := halt_split hrest
  have hxs : xs = rest.reverse ++ passed.reverse := by
    rw [← List.reverse_append, ← hsplit, List.reverse_reverse]
  cases rest with
  | nil =>
    rw [hxs] at hl
    rw [hsplit] at hrest
    -- the scan got past the head: there are no labels to move over
    exact ⟨passed, [], [], d, rfl, hl, hr, hd, hrest, nofun, fun _ => rfl⟩
  | cons q qs =>
    have hl' : l.Spells (qs.reverse ++ q :: (passed.reverse ++ r :: zs)) := by simpa [hxs] using hl
    have hlen : passed.reverse.length < l.nodes.size + 1 := Nat.lt_succ_of_lt hl'.between_lt
    -- the nodes passed begin with the labels that the scan moves back over
    obtain ⟨labels, cs, ds, hlabels, heq, hall, -⟩ := overLabels_split hl' hr hlen
    have hpassed : passed = ds.reverse ++ labels.reverse := by
      rw [← List.reverse_append, ← hlabels, List.reverse_reverse]
    have hlast : (labels.reverse ++ [q]).head? = some (l.overLabels (l.nodes.size + 1) q) := by
      rw [← List.reverse_cons, List.head?_reverse]
      have hboth := congrArg List.getLast? heq
      rwa [List.getLast?_append_cons, List.getLast?_concat] at hboth
    refine ⟨ds.reverse, labels.reverse, q :: qs, d, ?_, ?_, hr, hd, ?_,
      fun b hb => hall b (List.mem_reverse.mp hb), nofun⟩
    · change (l.overLabels _ q : Option Ref) = _
      rw [← List.singleton_append, ← List.append_assoc, List.head?_append, hlast]
      rfl
    · simpa [hpassed] using hl'
    · rwa [hsplit, hpassed, List.append_assoc] at hrest

theorem spells_insertAfter_getLast? (hl : l.Spells (xs ++ ys)) (i : Insn) :
    (l.insertAfter xs.getLast? i).2.Spells (xs ++ l.nodes.size :: ys) := by
  cases xs using List.reverseRecOn with
  | nil => exact hl.prepend i
  | append_singleton xs p =>
    have hl' : l.Spells (xs ++ p :: ys) := by simpa using hl
    rw [List.getLast?_concat, List.append_assoc]
    exact hl'.insertAfter i

/-- A node behind another: the nodes that were there keep their instructions. -/
structure Widened (l l' : Listing) (i : Insn) : Prop where
  old : ∀ q ∈ l.refs, l'.insn? q = l.insn? q
  new : l'.insn? l.nodes.size = some i

theorem widened_insertAfter {anchor : Option Ref} (hl : l.WellFormed)
    (ha : ∀ a, anchor = some a → a ∈ l.refs) (i : Insn) :
    Widened l (l.insertAfter anchor i).2 i := by
  have hm : l.Mirrors ⟨l.refs, l.texts⟩ := ⟨hl.spells, rfl⟩
  have hm' := hm.insertAfter ha i
  refine ⟨fun q hq => ?_, ?_⟩
  · rw [hm'.insn?_eq, Script.add, List.getElem?_append_left, getElem?_texts]
    rw [length_texts]
    exact hl.spells.lt_size hq
  · rw [hm'.insn?_eq, Script.add, List.getElem?_append_right (by rw [length_texts]), length_texts]
    simp

namespace Widened

variable (hw : Widened l l' i)
include hw

theorem changeAt (hq : q ∈ l.refs) : l'.changeAt q = l.changeAt q := by
  rw [Listing.changeAt, Listing.changeAt, fetch, fetch, hw.old q hq]

theorem isBarrier (hq : q ∈ l.refs) : l'.isBarrier boundary q = l.isBarrier boundary q := by
  rw [Listing.isBarrier, Listing.isBarrier, hw.old q hq]

theorem isLabelEntry (hq : q ∈ l.refs) : l'.isLabelEntry q = l.isLabelEntry q := by
  rw [Listing.isLabelEntry, Listing.isLabelEntry, hw.old q hq]

/-- The new node is a barrier only as a boundary, unless it is a jump or a switch. -/
theorem isBarrier_new (hjump : i.opcode.isJump = false) (hswitch : i.opcode.isSwitch = false) :
    l'.isBarrier boundary l.nodes.size = boundary l.nodes.size := by
  rw [Listing.isBarrier, hw.new]
  simp [hjump, hswitch]

theorem isLabelEntry_new (hlabel : i.opcode ≠ .label) :
    l'.isLabelEntry l.nodes.size = false := by
  rw [Listing.isLabelEntry, hw.new]
  simp [hlabel]

end Widened

namespace Halted

variable {labels : List Ref} {d : Int}
variable (hh : l.Halted boundary target r us labels rest zs d) (hw : Widened l l' i)
variable (hl' : l'.Spells ((labels ++ rest).reverse ++ l.nodes.size :: (us.reverse ++ r :: zs)))
include hh hw hl'

/-- The same scan once more, with the new node right behind the answer. -/
theorem again : l'.backUntil boundary r target true = (do
    let left ← l'.halt (l'.isBarrier boundary) target (us ++ l.nodes.size :: (labels ++ rest)) d
    return left.head?.map (l'.overLabels (l'.nodes.size + 1))) := by
  have hr : r ∈ l.refs := by simp [hh.spells.refs_eq]
  have hfront :
      l'.Spells (((labels ++ rest).reverse ++ l.nodes.size :: us.reverse) ++ r :: zs) := by
    simpa using hl'
  rw [backUntil_eq_halt hfront, hw.changeAt hr, hh.change, List.reverse_append, List.reverse_cons,
    List.reverse_reverse, List.reverse_reverse, List.append_assoc, List.singleton_append]
  rfl

/-- A neutral node that is no barrier is passed, and so are the labels in front of it. -/
theorem stays (hneutral : i.change = .ok 0) (hlabel : i.opcode ≠ .label)
    (hnew : l'.isBarrier boundary l.nodes.size = false) :
    l'.backUntil boundary r target true = .ok (labels ++ rest).head? := by
  have hsame : ∀ q ∈ us ++ (labels ++ rest),
      l'.changeAt q = l.changeAt q ∧ l'.isBarrier boundary q = l.isBarrier boundary q := by
    intro q hq
    have hmem : q ∈ l.refs := by
      rw [hh.spells.refs_eq, ← List.append_assoc, ← List.reverse_append]
      exact List.mem_append_left _ (List.mem_reverse.mpr hq)
    exact ⟨hw.changeAt hmem, hw.isBarrier hmem⟩
  have hlabelled : ∀ b ∈ labels, l'.isLabelEntry b = true := fun b hb => by
    rw [hw.isLabelEntry (by simp [hh.spells.refs_eq, hb]), hh.labelled b hb]
  rw [hh.again hw hl', halt_insert ((changeAt_eq hw.new).trans hneutral) hnew (by simp)
    ((halt_congr hsame).trans hh.halts)]
  exact congrArg Except.ok
    (map_overLabels_head? hl' hlabelled (hw.isLabelEntry_new hlabel) hh.nil)

/-- A barrier is not passed, so that the answer does not lie in front of it. -/
theorem leaves (hnew : l'.isBarrier boundary l.nodes.size = true) :
    l'.backUntil boundary r target true ≠ .ok (labels ++ rest).head? := by
  intro hstays
  rw [hh.again hw hl'] at hstays
  obtain ⟨left, hleft, hstays⟩ := Except.bind_eq_ok_iff.mp hstays
  obtain ⟨passed, ws, rfl, rfl⟩ := halt_at_end hnew hleft
  obtain ⟨q, hq⟩ : ∃ q, (ws ++ l.nodes.size :: (labels ++ rest)).head? = some q := by
    cases ws <;> exact ⟨_, rfl⟩
  have hanswer : some (l'.overLabels (l'.nodes.size + 1) q) = (labels ++ rest).head? := by
    rw [hq] at hstays
    exact Except.ok.inj hstays
  have hr : l'.isLabelEntry r = false :=
    (hw.isLabelEntry (by simp [hh.spells.refs_eq])).trans hh.start
  exact overLabels_notMem hl' hr hq (List.mem_of_head? hanswer.symm)

end Halted

/-- **Anchors stay.** Let a backward scan that follows neutral instructions start at a node of the
sequence other than a label entry and succeed, and let an instruction that leaves the stack as it is
and is no label entry, jump or switch be inserted right behind the answer, or at the head without
one. Then the same scan has the same answer again if and only if the new node is no boundary. -/
theorem backUntil_stays_iff {answer : Option Ref} (hb : l.Built) (hlinked : l.isLinked r = true)
    (hr : l.isLabelEntry r = false) (h : l.backUntil boundary r target true = .ok answer)
    (hneutral : i.change = .ok 0) (hlabel : i.opcode ≠ .label) (hjump : i.opcode.isJump = false)
    (hswitch : i.opcode.isSwitch = false) :
    (l.insertAfter answer i).2.backUntil boundary r target true = .ok answer ↔
      boundary (l.insertAfter answer i).1 = false := by
  have hsp := hb.wellFormed.spells
  obtain ⟨xs, zs, hrefs⟩ := List.append_of_mem (hsp.isLinked_iff.mp hlinked)
  obtain ⟨us, labels, rest, d, rfl, hh⟩ := exists_halted (hrefs ▸ hsp) hr h
  have hfst : (l.insertAfter (labels ++ rest).head? i).1 = l.nodes.size := by
    cases (labels ++ rest).head? <;> rfl
  have hl' := spells_insertAfter_getLast? hh.spells i
  rw [List.getLast?_reverse] at hl'
  have hanchor : ∀ a, (labels ++ rest).head? = some a → a ∈ l.refs := fun a ha => by
    rw [hh.spells.refs_eq]
    exact List.mem_append_left _ (List.mem_reverse.mpr (List.mem_of_head? ha))
  have hw := widened_insertAfter hb.wellFormed hanchor i
  generalize (l.insertAfter (labels ++ rest).head? i).2 = l' at hl' hw ⊢
  have hnew : l'.isBarrier boundary l.nodes.size = boundary l.nodes.size :=
    hw.isBarrier_new hjump hswitch
  rw [hfst]
  cases hbound : boundary l.nodes.size with
  | false => exact iff_of_true (hh.stays hw hl' hneutral hlabel (hnew.trans hbound)) rfl
  | true => exact iff_of_false (hh.leaves hw hl' (hnew.trans hbound)) (by decide)

/-- An array, a label entry behind it, an index and a value: the store finds the array, and again
when a cast has been inserted behind the array. -/
def castable : Listing := .ofInsns 1
  [.load .aload 1, .place 0, .plain .nop, .load .iload 2, .load .iload 3, .plain .iastore]

theorem backUntil_stays_castable :
    castable.Built ∧ castable.isLinked 5 = true ∧ castable.isLabelEntry 5 = false ∧
      castable.backUntil (fun _ => false) 5 (-1) true = .ok (some 1) ∧
      Insn.change ⟨.checkCast, .type "[I"⟩ = .ok 0 ∧
      (castable.insertAfter (some 1) ⟨.checkCast, .type "[I"⟩).2.backUntil
        (fun _ => false) 5 (-1) true = .ok (some 1) := by
  have hb : castable.Built := .ofInsns _ _
  have hlinked : castable.isLinked 5 = true := by decide +kernel
  have hr : castable.isLabelEntry 5 = false := by decide +kernel
  have hback : castable.backUntil (fun _ => false) 5 (-1) true = .ok (some 1) :=
    Outcome.eq_ok_of_toOption (by decide +kernel)
  have hneutral : Insn.change ⟨.checkCast, .type "[I"⟩ = .ok 0 :=
    Outcome.eq_ok_of_toOption (by decide +kernel)
  exact ⟨hb, hlinked, hr, hback, hneutral,
    (backUntil_stays_iff hb hlinked hr hback hneutral (by decide) (by decide) (by decide)).mpr rfl⟩

/-- With a boundary at the handle that the cast is given, the answer is the cast the second time. -/
theorem backUntil_ne_castable :
    castable.Built ∧ castable.isLinked 5 = true ∧ castable.isLabelEntry 5 = false ∧
      castable.backUntil (· = 6) 5 (-1) true = .ok (some 1) ∧
      Insn.change ⟨.checkCast, .type "[I"⟩ = .ok 0 ∧
      (castable.insertAfter (some 1) ⟨.checkCast, .type "[I"⟩).2.backUntil
        (· = 6) 5 (-1) true = .ok (some 6) :=
  ⟨.ofInsns _ _, by decide +kernel, by decide +kernel,
  Outcome.eq_ok_of_toOption (by decide +kernel),
    Outcome.eq_ok_of_toOption (by decide +kernel), Outcome.eq_ok_of_toOption (by decide +kernel)⟩

end ClassWeaver.Listing
