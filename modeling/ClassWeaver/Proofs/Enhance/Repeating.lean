import ClassWeaver.Proofs.Enhance.Failures

/-!
# Enhancing twice

A second scan with the standard rules meets the casts and choices of the first. It never fails, and
it finds no byte access. But it looks for the array of each store again, and recognises a cast only
if it is the very node that the search answers. Where stores of different types share the place of
their casts, the last of them has put its cast in front of those of the others: the second scan
casts once more for each change of type, and so does every later one (`twofold_astray`).

Such stores are all that it takes: a second scan leaves the code as it is if and only if stores that
find their arrays at the same node are of one type (`standard_again`). What carries this over the
first scan is `Settled`: wherever a store that was passed finds its array now, there stands the cast
for a store that finds its array there as well. A later cast moves the answers of both on at
once. -/

namespace ClassWeaver

/-! ### Searches over changing nodes -/

namespace Listing

variable {l l' : Listing} {ends ends' : Ref → Bool} {as bs xs : List Ref} {c p q : Ref}
variable {total : Int} {e : Failure}

/-- The answer of a search on its way back over nodes, the nearest first, where the stack has
changed by `total`: the first node from behind which the stack loses just the array, unless an end
comes first. -/
def search (l : Listing) (ends : Ref → Bool) : List Ref → (total : Int) → Outcome (Option Ref)
  | [], _ => .ok none
  | q :: qs, total =>
    if total = -1 then .ok (some q)
    else if ends q then .ok none
    else do search l ends qs (total + (← l.changeAt q))

theorem search_eq_error_iff :
    l.search ends xs total = .error e ↔ l.stall? ends xs total = some e := by
  induction xs generalizing total with
  | nil => exact ⟨nofun, nofun⟩
  | cons q qs ih =>
    rw [search, stall?]
    by_cases htotal : total = -1
    · simp [htotal]
    by_cases hends : ends q = true
    · simp [htotal, hends]
    rw [if_neg htotal, if_neg hends, if_neg (by simp [htotal, hends])]
    cases l.changeAt q with
    | error f =>
      change Except.error f = _ ↔ _
      simp
    | ok c => exact ih

/-- The nodes that a search passes before its answer. -/
theorem split_of_search (h : l.search ends xs total = .ok (some p)) : ∃ as bs, xs = as ++ p :: bs ∧
    (∀ b ∈ as, ends b = false ∧ ∃ c, l.changeAt b = .ok c) ∧ total + l.rise as = -1 := by
  induction xs generalizing total with
  | nil => cases h
  | cons q qs ih =>
    rw [search] at h
    split at h
    · next htotal =>
      obtain rfl : q = p := Option.some.inj (Except.ok.inj h)
      exact ⟨[], qs, rfl, by simp, by simpa [rise] using htotal⟩
    · split at h
      · cases h
      · next hends =>
        obtain ⟨c, hc, h⟩ := Except.bind_eq_ok_iff.mp h
        obtain ⟨as, bs, rfl, has, hsum⟩ := ih h
        refine ⟨q :: as, bs, rfl, List.forall_mem_cons.mpr ⟨⟨by simpa using hends, c, hc⟩, has⟩, ?_⟩
        rw [rise_cons_of_changeAt hc]
        omega

theorem search_of_split (has : ∀ b ∈ as, ends b = false ∧ ∃ c, l.changeAt b = .ok c)
    (hsum : total + l.rise as = -1) (hno : ∀ ds, ds <+: as → ds ≠ as → total + l.rise ds ≠ -1) :
    l.search ends (as ++ p :: bs) total = .ok (some p) := by
  induction as generalizing total with
  | nil =>
    rw [List.nil_append, search, if_pos (by simpa [rise] using hsum)]
  | cons a as ih =>
    rw [List.forall_mem_cons] at has
    obtain ⟨⟨hends, c, hc⟩, has⟩ := has
    have htotal : total ≠ -1 := by simpa [rise] using hno [] List.nil_prefix (by simp)
    rw [List.cons_append, search, if_neg htotal, if_neg (by simp [hends])]
    refine Except.bind_eq_ok_iff.mpr ⟨c, hc, ih has ?_ fun ds hds hne => ?_⟩
    · rw [rise_cons_of_changeAt hc] at hsum
      omega
    · have hlater := hno (a :: ds) (List.cons_prefix_cons.mpr ⟨rfl, hds⟩) (by simpa using hne)
      rw [rise_cons_of_changeAt hc] at hlater
      omega

/-- A search depends on the changes of the nodes and on which of them end it. -/
theorem search_congr (hsame : ∀ q ∈ xs, l'.changeAt q = l.changeAt q ∧ ends' q = ends q) :
    l'.search ends' xs total = l.search ends xs total := by
  induction xs generalizing total with
  | nil => rfl
  | cons q qs ih =>
    obtain ⟨hchange, hends⟩ := hsame q List.mem_cons_self
    have hrest : ∀ total, l'.search ends' qs total = l.search ends qs total := fun _ =>
      ih fun b hb => hsame b (List.mem_cons_of_mem _ hb)
    simp only [search, hchange, hends, hrest]

/-- With fewer ends a search has the same answer. -/
theorem search_of_imp (himp : ∀ q, ends' q = true → ends q = true)
    (h : l.search ends xs total = .ok (some p)) : l.search ends' xs total = .ok (some p) := by
  induction xs generalizing total with
  | nil => cases h
  | cons q qs ih =>
    rw [search] at h ⊢
    split at h
    · next htotal => rwa [if_pos htotal]
    · next htotal =>
      split at h
      · cases h
      · next hends =>
        rw [if_neg htotal, if_neg (mt (himp q) hends)]
        obtain ⟨c, hc, h⟩ := Except.bind_eq_ok_iff.mp h
        exact Except.bind_eq_ok_iff.mpr ⟨c, hc, ih h⟩

/-- A node behind another takes its place as an answer. -/
def movedOn (p c q : Ref) : Ref := if q = p then c else q

/-- A node that changes nothing, behind another one: a search that has an answer has an answer
again. It is lost if the node ends the search, and moved on to the node otherwise. -/
theorem search_insert (hc : l.changeAt c = .ok 0) (hp : p ∉ as ++ bs) {o : Option Ref}
    (h : l.search ends (as ++ p :: bs) total = .ok o) :
    ∃ o', l.search ends (as ++ c :: p :: bs) total = .ok o' ∧
      (ends c = false ∨ o'.isSome → o' = o.map (movedOn p c)) := by
  induction as generalizing total with
  | nil =>
    rw [List.nil_append] at h ⊢
    rw [search]
    by_cases htotal : total = -1
    · rw [search, if_pos htotal] at h
      obtain rfl := Except.ok.inj h
      exact ⟨_, if_pos htotal, fun _ => by simp [movedOn]⟩
    · rw [if_neg htotal, hc]
      -- past the new node, nothing of what is found is `p`, for `p` would have been found at once
      have hkept : o.map (movedOn p c) = o := by
        cases o with
        | none => rfl
        | some q =>
          obtain ⟨cs, ds, hsplit, -, hsum⟩ := split_of_search h
          have hne : q ≠ p := by
            rintro rfl
            cases cs with
            | nil => exact htotal (by simpa [rise] using hsum)
            | cons a cs =>
              obtain ⟨rfl, rfl⟩ := List.cons.inj hsplit
              simp at hp
          rw [Option.map_some, movedOn, if_neg hne]
      by_cases hends : ends c = true
      · exact ⟨none, if_pos hends, by simp [hends]⟩
      · refine ⟨o, ?_, fun _ => hkept.symm⟩
        rw [if_neg hends]
        change l.search ends (p :: bs) (total + 0) = _
        rw [Int.add_zero, h]
  | cons a as ih =>
    rw [List.cons_append, search] at h ⊢
    split at h
    · next htotal =>
      obtain rfl := Except.ok.inj h
      have hne : a ≠ p := by
        rintro rfl
        simp at hp
      exact ⟨_, if_pos htotal, fun _ => by rw [Option.map_some, movedOn, if_neg hne]⟩
    · next htotal =>
      rw [if_neg htotal]
      split at h
      · next hends =>
        obtain rfl := Except.ok.inj h
        exact ⟨none, if_pos hends, fun _ => rfl⟩
      · next hends =>
        obtain ⟨d, hd, h⟩ := Except.bind_eq_ok_iff.mp h
        obtain ⟨o', ho', hmoved⟩ := ih (by simp at hp ⊢; tauto) h
        exact ⟨o', by rw [if_neg hends]; exact Except.bind_eq_ok_iff.mpr ⟨d, hd, ho'⟩, hmoved⟩

end Listing

namespace Enhance

open Listing

variable {l l' : Listing} {boundary known : Boundary} {as bs xs ys zs front : List Ref}
    {p q r : Ref}
variable {i : Insn}

/-- There is something to find behind `p`, so the search for the array of a store does not give
up. -/
theorem producer?_ne_none (hl : l.Built) (hrefs : l.refs = as ++ p :: (bs ++ r :: zs))
    (hr : l.isLabelEntry r = false) (hclear : ∀ b ∈ bs, l.isBarrier boundary b = false)
    (hsum : l.changeOver (bs ++ [r]) = .ok (-1)) : producer? boundary l r ≠ .ok none := by
  intro hnone
  have hsp : l.Spells ((as ++ p :: bs) ++ r :: zs) := by
    simpa using hrefs ▸ hl.wellFormed.spells
  have hlinked : l.isLinked r = true := hsp.isLinked_iff.mpr (by simp)
  obtain ⟨answer, hback, -⟩ := Except.bind_eq_ok_iff.mp hnone
  cases answer with
  | none =>
    obtain ⟨xs, ys, hxs, -, -, hno⟩ := backUntil_nearest hl hlinked hr hback
    have hfront := front_unique hsp.nodup (hsp.refs_eq ▸ hxs)
    exact (hno.mp rfl).2 as p bs hfront.symm hsum
  | some q =>
    obtain ⟨front, back, heq, hanchors⟩ := backUntil_anchors hsp hr hback
    have hsp' : l.Spells (front ++ q :: back ++ r :: zs) := heq ▸ hsp
    have hrise : l.rise (back ++ [r]) ≠ -1 := by
      intro hrise
      rw [producer?_of_anchors hsp' hback hanchors, if_pos hrise] at hnone
      cases hnone
    rcases hanchors.reason with hsum' | ⟨far, t, labels, hsplit, ht, -, hno⟩
    · exact hrise (changeOver_eq_ok_iff.mp hsum').2
    · -- the stretch behind `p` ends in front of the barrier, or it goes on behind it
      have hboth : far ++ t :: (labels ++ back) = as ++ p :: bs := by
        rw [heq, ← List.cons_append, ← List.append_assoc, ← hsplit]
        simp
      have hsuffix : bs <:+ as ++ p :: bs := (List.suffix_cons p bs).trans (List.suffix_append ..)
      have hsuffix' : t :: (labels ++ back) <:+ as ++ p :: bs := hboth ▸ List.suffix_append ..
      by_cases hlen : bs.length ≤ (labels ++ back).length
      · have hnear := (List.suffix_cons t (labels ++ back)).trans hsuffix'
        exact hno bs (List.suffix_of_suffix_length_le hsuffix hnear hlen) hsum
      · have hpast : t :: (labels ++ back) <:+ bs :=
          List.suffix_of_suffix_length_le hsuffix' hsuffix (Nat.not_le.mp hlen)
        rw [hclear t (hpast.subset List.mem_cons_self)] at ht
        cases ht

/-- The search for the array of a store goes back over the nodes in front of the store. -/
theorem producer?_eq_search (hl : l.Built) (hrefs : l.refs = xs ++ r :: zs)
    (hi : l.insn? r = some i)
    (hn : i.IsNarrowed) :
    producer? boundary l r = l.search (l.isBarrier boundary) xs.reverse (-3) := by
  have hsp : l.Spells (xs ++ r :: zs) := hrefs ▸ hl.wellFormed.spells
  have hlabel := isLabelEntry_of_arrayStore hi hn.1
  have hchange := changeAt_arrayStore hi hn.1
  have hrev : ∀ ds, -3 + l.rise ds = l.rise (ds.reverse ++ [r]) := by
    intro ds
    rw [rise_append, rise_of_changeAt hchange, rise_reverse]
    omega
  -- an answer of the one is an answer of the other
  have hanswer : ∀ p, producer? boundary l r = .ok (some p) →
      l.search (l.isBarrier boundary) xs.reverse (-3) = .ok (some p) := by
    intro p hp
    obtain ⟨as, bs, rfl, hclear, heffects, -, hsum, hno⟩ := split_of_producer? hsp hi hn.1 hp
    rw [List.reverse_append, List.reverse_cons, List.append_assoc, List.singleton_append]
    refine search_of_split (fun b hb => ⟨hclear b (List.mem_reverse.mp hb), ?_⟩) ?_ fun ds
      hds hne => ?_
    · obtain ⟨j, e, hj, he⟩ := heffects b (List.mem_reverse.mp hb)
      exact ⟨e.change, by rw [changeAt_eq hj, Insn.change, he]; rfl⟩
    · rw [hrev, List.reverse_reverse, hsum]
    · rw [hrev]
      exact hno _ (List.reverse_prefix.mp (by simpa using hds)) fun heq => hne (by simp [← heq])
  cases hp : producer? boundary l r with
  | error e =>
    exact (search_eq_error_iff.mpr ((producer?_eq_error_iff hsp hi hn.1).mp hp)).symm
  | ok o =>
    cases o with
    | some p => exact (hanswer p hp).symm
    | none =>
      cases hs : l.search (l.isBarrier boundary) xs.reverse (-3) with
      | error e =>
        rw [(producer?_eq_error_iff hsp hi hn.1).mpr (search_eq_error_iff.mp hs)] at hp
        cases hp
      | ok o' =>
        cases o' with
        | none => rfl
        | some p =>
          obtain ⟨as, bs, hsplit, has, hsum⟩ := split_of_search hs
          obtain rfl : xs = bs.reverse ++ p :: as.reverse := by
            rw [← List.reverse_reverse xs, hsplit]
            simp
          rw [hrev] at hsum
          refine absurd hp (producer?_ne_none hl (by simpa using hrefs) hlabel
            (fun b hb => (has b (List.mem_reverse.mp hb)).1) (changeOver_eq_ok_iff.mpr ⟨?_, hsum⟩))
          intro b hb
          rcases List.mem_append.mp hb with hb | hb
          · exact (has b (List.mem_reverse.mp hb)).2
          · exact ⟨-3, List.mem_singleton.mp hb ▸ hchange⟩

/-- The search for the array of a store is a matter of the nodes in front of it. -/
theorem producer?_congr (boundary : Boundary) (hl : l.Built) (hl' : l'.Built)
    (hrefs : l.refs = xs ++ r :: ys)
    (hrefs' : l'.refs = xs ++ r :: zs) (hsame : ∀ q ∈ xs ++ [r], l'.insn? q = l.insn? q)
    (hi : l.insn? r = some i) (hn : i.IsNarrowed) : producer? boundary l' r =
    producer? boundary l r := by
  rw [producer?_eq_search hl hrefs hi hn,
    producer?_eq_search hl' hrefs' ((hsame r (by simp)).trans hi) hn]
  refine search_congr fun q hq => ?_
  have hq' := hsame q (List.mem_append_left _ (List.mem_reverse.mp hq))
  exact ⟨by rw [changeAt, changeAt, fetch, fetch, hq'], by rw [isBarrier, isBarrier, hq']⟩

/-- An array is found in front of the store. -/
theorem mem_of_producer? (hl : l.Built) (hrefs : l.refs = xs ++ r :: zs) (hi : l.insn? r = some i)
    (hn : i.IsNarrowed) (hp : producer? boundary l r = .ok (some p)) : p ∈ xs := by
  rw [producer?_eq_search hl hrefs hi hn] at hp
  obtain ⟨as, bs, hsplit, -⟩ := split_of_search hp
  rw [← List.mem_reverse, hsplit]
  simp

/-- With fewer boundaries the same array is found. -/
theorem producer?_of_imp (himp : ∀ q, known q = true → boundary q = true) (hl : l.Built)
    (hr : r ∈ l.refs)
    (hi : l.insn? r = some i) (hn : i.IsNarrowed) (hp : producer? boundary l r = .ok (some p)) :
    producer? known l r = .ok (some p) := by
  obtain ⟨xs, zs, hrefs⟩ := List.append_of_mem hr
  rw [producer?_eq_search hl hrefs hi hn] at hp ⊢
  refine search_of_imp (fun q hq => ?_) hp
  simp only [isBarrier, Bool.or_eq_true] at hq ⊢
  exact hq.imp_left (himp q)

/-- A store behind a cast that was inserted behind `p` finds its array at the cast if it found it at
`p` before, and otherwise where it did, unless the cast is a boundary. -/
theorem producer?_behind_cast {desc : Text} (hl : l.Built)
    (hs : l.Spliced l' (as ++ [p]) none [⟨.checkCast, .type desc⟩] (xs ++ r :: zs))
    (hi : l.insn? r = some i) (hn : i.IsNarrowed) {o : Option Ref}
    (ho : producer? boundary l r = .ok o) :
    ∃ o', producer? boundary l' r = .ok o' ∧
      (boundary l.nodes.size = false ∨ o'.isSome → o' = o.map (movedOn p l.nodes.size)) := by
  have hrefs : l.refs = (as ++ p :: xs) ++ r :: zs := by simpa using hs.refs_eq
  have hrefs' : l'.refs = (as ++ p :: l.nodes.size :: xs) ++ r :: zs := by simpa using hs.refs_eq'
  have hsp : l.Spells ((as ++ p :: xs) ++ r :: zs) := hrefs ▸ hl.wellFormed.spells
  have hold : ∀ q ∈ (as ++ p :: xs) ++ r :: zs, l'.insn? q = l.insn? q := fun q hq =>
    hs.insn?_old (hsp.lt_size hq)
  have hcast : l'.insn? l.nodes.size = some ⟨.checkCast, .type desc⟩ := hs.insn?_new 0
  have hends : l'.isBarrier boundary l.nodes.size = boundary l.nodes.size := by
    have hplain : Opcode.checkCast.isJump = false ∧ Opcode.checkCast.isSwitch = false := by decide
    simp [isBarrier, hcast, hplain]
  have hp : p ∉ xs.reverse ++ as.reverse := by
    have hnd := (List.nodup_append.mp hsp.nodup).1
    rw [List.perm_middle.nodup_iff, List.nodup_cons] at hnd
    simpa [or_comm] using hnd.1
  -- without the cast the search is the old one
  have hsame : l'.search (l'.isBarrier boundary) (xs.reverse ++ p :: as.reverse) (-3) = .ok o := by
    rw [← ho, producer?_eq_search hl hrefs hi hn, List.reverse_append, List.reverse_cons,
      List.append_assoc, List.singleton_append]
    refine search_congr fun q hq => ?_
    have hq' := hold q (by
      simp only [List.mem_append, List.mem_cons, List.mem_reverse] at hq ⊢
      tauto)
    exact ⟨by rw [changeAt, changeAt, fetch, fetch, hq'], by rw [isBarrier, isBarrier, hq']⟩
  have hsplit : (as ++ p :: l.nodes.size :: xs).reverse =
      xs.reverse ++ l.nodes.size :: p :: as.reverse := by simp
  rw [producer?_eq_search hs.built hrefs' ((hold r (by simp)).trans hi) hn, hsplit, ← hends]
  exact search_insert (changeAt_eq hcast) hp hsame

/-- The same for a store anywhere: in front of the cast nothing has changed. -/
theorem producer?_of_cast {desc : Text} (hl : l.Built)
    (hs : l.Spliced l' (as ++ [p]) none [⟨.checkCast, .type desc⟩] ys) (hr : r ∈ l.refs)
    (hi : l.insn? r = some i) (hn : i.IsNarrowed) {o : Option Ref}
    (ho : producer? boundary l r = .ok o) :
    ∃ o', producer? boundary l' r = .ok o' ∧
      (boundary l.nodes.size = false ∨ o'.isSome → o' = o.map (movedOn p l.nodes.size)) := by
  have hrefs : l.refs = (as ++ [p]) ++ ys := hs.refs_eq
  have hmem := hr
  rw [hrefs] at hmem
  rcases List.mem_append.mp hmem with hfront | hbehind
  · obtain ⟨xs, zs, hsplit⟩ := List.append_of_mem hfront
    have hrefs₁ : l.refs = xs ++ r :: (zs ++ ys) := by rw [hrefs, hsplit]; simp
    have hrefs₂ : l'.refs = xs ++ r :: (zs ++ l.nodes.size :: ys) := by
      rw [hs.refs_eq', hsplit]
      simp
    have hsame := producer?_congr boundary hl hs.built hrefs₁ hrefs₂ (fun q hq => ?_) hi hn
    · refine ⟨o, hsame.trans ho, fun _ => ?_⟩
      cases o with
      | none => rfl
      | some q =>
        -- `p` is the last node in front of the cast, so it is not in front of the store
        have hne : q ≠ p := by
          rintro rfl
          have hq := mem_of_producer? hl hrefs₁ hi hn ho
          have hlast : q ∈ r :: zs := by
            have hend := congrArg List.getLast? hsplit
            rw [List.getLast?_concat, List.getLast?_append_cons] at hend
            exact List.mem_of_getLast? hend.symm
          have hnd := hrefs₁ ▸ hl.wellFormed.spells.nodup
          exact (List.nodup_append.mp hnd).2.2 q hq q (List.mem_append_left ys hlast) rfl
        rw [Option.map_some, movedOn, if_neg hne]
    · refine hs.insn?_old (hl.wellFormed.spells.lt_size ?_)
      rw [hrefs₁]
      simp only [List.mem_append, List.mem_cons, List.not_mem_nil, or_false] at hq ⊢
      tauto
  · obtain ⟨xs, zs, rfl⟩ := List.append_of_mem hbehind
    exact producer?_behind_cast hl hs hi hn ho

/-! ### What the first scan leaves behind -/

/-- Where a store among the nodes `front` finds its array, there is the cast for a store among them
that finds its array there as well, if all that is known of the boundary are the nodes `known`. -/
def Settled (boundary known : Boundary) (l : Listing) (front : List Ref) : Prop :=
  ∀ r ∈ front, ∀ i, l.insn? r = some i → i.IsNarrowed → ∃ o, producer? boundary l r = .ok o ∧
    ∀ p, o = some p → ∃ r' ∈ front, ∃ i', l.insn? r' = some i' ∧ i'.IsNarrowed ∧
      producer? known l r' = .ok (some p) ∧ l.insn? p = some i'.castFor

/-- A cast is no store. -/
theorem not_isNarrowed_castFor (i : Insn) : ¬i.castFor.IsNarrowed := by
  have hplain : Opcode.checkCast.isArrayStore = false := by decide
  simp [Insn.IsNarrowed, Insn.castFor, hplain]

/-- A store that was passed is settled, also when the cast for the next one has been inserted. -/
theorem Settled.of_cast (h : Settled boundary known l xs) (hl : l.Built)
    (hrefs : l.refs = xs ++ r :: ys)
    (hknown : ∀ q, known q = true → q < l.nodes.size)
    (himp : ∀ q, known q = true → boundary q = true)
    (hi : l.insn? r = some i) (hn : i.IsNarrowed) (hp : producer? boundary l r = .ok (some p))
    (hxs : xs = as ++ p :: bs) (hs : l.Spliced l' (as ++ [p]) none [i.castFor] (bs ++ r :: ys)) :
    Settled boundary known l' (as ++ p :: l.nodes.size :: (bs ++ [r])) := by
  have hmem : ∀ q,
      q ∈ as ++ p :: l.nodes.size :: (bs ++ [r]) ↔ q = l.nodes.size ∨ q ∈ xs ++ [r] := by
    intro q
    simp only [hxs, List.mem_append, List.mem_cons, List.not_mem_nil, or_false]
    tauto
  have hlink : ∀ q ∈ xs ++ [r], q ∈ l.refs := by
    intro q hq
    rw [hrefs]
    simp only [List.mem_append, List.mem_cons, List.not_mem_nil, or_false] at hq ⊢
    tauto
  have hold : ∀ q ∈ l.refs, l'.insn? q = l.insn? q := fun q hq =>
    hs.insn?_old (hl.wellFormed.spells.lt_size hq)
  have hcast : l'.insn? l.nodes.size = some i.castFor := hs.insn?_new 0
  have hfar : known l.nodes.size = false := by
    by_contra hbound
    exact Nat.lt_irrefl _ (hknown _ (by simpa using hbound))
  -- where a store finds its array among known boundaries, before and after
  have hmoved : ∀ {r' i' q}, r' ∈ xs ++ [r] → l.insn? r' = some i' → i'.IsNarrowed →
      producer? known l r' = .ok (some q) →
      producer? known l' r' = .ok (some (movedOn p l.nodes.size q)) := by
    intro r' i' q hr' hi' hn' hq
    obtain ⟨o', ho', heq⟩ := producer?_of_cast hl hs (hlink r' hr') hi' hn' hq
    rw [ho', heq (.inl hfar), Option.map_some]
  intro q hq j hj hnj
  rcases (hmem q).mp hq with rfl | hq
  · rw [hcast, Option.some.injEq] at hj
    exact absurd (hj ▸ hnj) (not_isNarrowed_castFor i)
  rw [hold q (hlink q hq)] at hj
  obtain ⟨o, ho, hsettled⟩ : ∃ o, producer? boundary l q = .ok o ∧
      ∀ t, o = some t → t ≠ p → ∃ r' ∈ xs, ∃ i', l.insn? r' = some i' ∧ i'.IsNarrowed ∧
        producer? known l r' = .ok (some t) ∧ l.insn? t = some i'.castFor := by
    rcases List.mem_append.mp hq with hq | hq
    · obtain ⟨o, ho, hsettled⟩ := h q hq j hj hnj
      exact ⟨o, ho, fun t ht _ => hsettled t ht⟩
    · rw [List.mem_singleton.mp hq]
      refine ⟨_, hp, fun t ht hne => absurd (Option.some.inj ht).symm hne⟩
  obtain ⟨o', ho', heq⟩ := producer?_of_cast hl hs (hlink q hq) hj hnj ho
  refine ⟨o', ho', fun t ht => ?_⟩
  obtain ⟨t₀, rfl, rfl⟩ : ∃ t₀, o = some t₀ ∧ movedOn p l.nodes.size t₀ = t :=
    Option.map_eq_some_iff.mp ((heq (.inr (by simp [ht]))).symm.trans ht)
  by_cases htp : t₀ = p
  · -- the array is found at the new cast, and the store that it is for finds it there
    have hself : r ∈ xs ++ [r] := by simp
    subst htp
    have hknown' := hmoved hself hi hn (producer?_of_imp himp hl (hlink r hself) hi hn hp)
    refine ⟨r, (hmem r).mpr (.inr hself), i, (hold r (hlink r hself)).trans hi, hn, hknown', ?_⟩
    rwa [movedOn, if_pos rfl]
  · obtain ⟨r', hr', i', hi', hn', hp', hcast'⟩ := hsettled t₀ rfl htp
    have hr'' : r' ∈ xs ++ [r] := List.mem_append_left _ hr'
    have hunmoved : movedOn p l.nodes.size t₀ = t₀ := if_neg htp
    refine ⟨r', (hmem r').mpr (.inr hr''), i', (hold r' (hlink r' hr'')).trans hi', hn',
      hmoved hr'' hi' hn' hp', ?_⟩
    have hlt : t₀ < l.nodes.size := by
      rw [← getElem?_texts] at hcast'
      exact length_texts (l := l) ▸ (List.getElem?_eq_some_iff.mp hcast').1
    rw [hunmoved, hs.insn?_old hlt, hcast']

/-- What was passed is settled after each visit. -/
theorem Settled.visited (h : Settled boundary known l xs) (hl : l.Built)
    (hrefs : l.refs = xs ++ r :: ys)
    (hknown : ∀ q, known q = true → q < l.nodes.size)
    (himp : ∀ q, known q = true → boundary q = true)
    (hi : l.insn? r = some i) (hv : Visited boundary l xs r i ys l' front) :
    Settled boundary known l' front := by
  cases hv with
  | kept hbyte hcast =>
    intro q hq j hj hn
    rcases List.mem_append.mp hq with hq | hq
    · obtain ⟨o, ho, hsettled⟩ := h q hq j hj hn
      refine ⟨o, ho, fun p hp => ?_⟩
      obtain ⟨r', hr', hrest⟩ := hsettled p hp
      exact ⟨r', List.mem_append_left _ hr', hrest⟩
    · obtain rfl := List.mem_singleton.mp hq
      obtain rfl := Option.some.inj (hi.symm.trans hj)
      obtain ⟨o, ho, hsettled⟩ := hcast hn
      refine ⟨o, ho, fun p hp => ⟨q, by simp, i, hi, hn, ?_, hsettled p hp⟩⟩
      exact producer?_of_imp himp hl (by simp [hrefs]) hi hn (hp ▸ ho)
  | cast hn hp _ hxs hs => exact h.of_cast hl hrefs hknown himp hi hn hp hxs hs
  | @choice l' code a b _ hcode hs =>
    have hold : ∀ q ∈ xs, l'.insn? q = l.insn? q := fun q hq =>
      hs.insn?_old (hs.lt_size hl.wellFormed (List.mem_append_left _ hq))
    -- a choice comes in behind the stores that were passed, where their searches never look
    have hsame : ∀ (ends : Boundary) {q j}, q ∈ xs → l.insn? q = some j → j.IsNarrowed →
        producer? ends l' q = producer? ends l q := by
      intro ends q j hq hj hn
      obtain ⟨as, bs, rfl⟩ := List.append_of_mem hq
      have hrefs₁ : l.refs = as ++ q :: (bs ++ r :: ys) := by simpa using hrefs
      have hrefs₂ : l'.refs = as ++ q :: (bs ++ (List.range' l.nodes.size code.length ++ ys)) := by
        simpa using hs.refs_eq'
      refine producer?_congr ends hl hs.built hrefs₁ hrefs₂ (fun t ht => hold t ?_) hj hn
      simp only [List.mem_append, List.mem_cons, List.not_mem_nil, or_false] at ht ⊢
      tauto
    intro q hq j hj hn
    rcases List.mem_append.mp hq with hq | hq
    · rw [hold q hq] at hj
      obtain ⟨o, ho, hsettled⟩ := h q hq j hj hn
      refine ⟨o, (hsame boundary hq hj hn).trans ho, fun p hp => ?_⟩
      obtain ⟨r', hr', i', hi', hn', hp', hcast⟩ := hsettled p hp
      have hlt : p < l.nodes.size := by
        rw [← getElem?_texts] at hcast
        exact length_texts (l := l) ▸ (List.getElem?_eq_some_iff.mp hcast).1
      exact ⟨r', List.mem_append_left _ hr', i', (hold r' hr').trans hi', hn',
        (hsame known hr' hi' hn').trans hp', (hs.insn?_old hlt).trans hcast⟩
    · obtain ⟨k, -, rfl⟩ := List.mem_range'.mp hq
      rw [Nat.one_mul, hs.insn?_new] at hj
      exact absurd hn (not_accessing_of_mem_choice hcode (List.mem_of_getElem? hj)).2

/-- A visit leaves the listing as it is, and then there was nothing to do, or it makes it longer. -/
theorem Visited.eq_or_longer (hv : Visited boundary l xs r i ys l' front) (hl : l.Built)
    (hrefs : l.refs = xs ++ r :: ys) :
    (l' = l ∧ front = xs ++ [r] ∧ (i.IsNarrowed → ∀ p, producer? boundary l r = .ok (some p) →
      l.insn? p = some i.castFor)) ∨ l.insns.length < l'.insns.length := by
  have hrefs' := hv.refs_eq hrefs
  rw [hl.wellFormed.spells.length_insns, (hv.built hl).wellFormed.spells.length_insns]
  cases hv with
  | kept _ hcast =>
    refine .inl ⟨rfl, rfl, fun hn p hp => ?_⟩
    obtain ⟨o, ho, hsettled⟩ := hcast hn
    exact hsettled p (Except.ok.inj (ho.symm.trans hp))
  | cast _ _ _ hxs _ =>
    refine .inr ?_
    rw [hrefs', hrefs, hxs]
    simp only [List.length_append, List.length_cons, List.length_nil]
    omega
  | @choice l' code a b _ hcode hs =>
    have hlen : 2 ≤ code.length := by
      rcases hcode with rfl | rfl <;> simp [storeChoice, loadChoice, dispatchCode]
    refine .inr ?_
    rw [hrefs', hrefs]
    simp only [List.length_append, List.length_cons, List.length_range']
    omega

end Enhance

/-! ### Two scans -/

namespace Chain

open Listing Enhance

variable {ctx : Context} {known : Boundary} {l l' l₁ : Listing} {xs rest : List Ref}
variable {out : Listing × Except Failure Unit}

/-- A scan that succeeds leaves a listing that is settled and holds no byte access. -/
theorem Ends.settled (hs : standard.Ends ctx rest.head? l out) (hl : l.Built)
    (hrefs : l.refs = xs ++ rest) (hknown : ∀ q, known q = true → q < l.nodes.size)
    (himp : ∀ q, known q = true → ctx.boundary q = true)
    (hfree : ∀ q ∈ xs, ∀ i, l.insn? q = some i → ¬i.IsByteAccess)
    (h : Settled ctx.boundary known l xs) (hout : out.2 = .ok ()) :
    out.1.Built ∧ (∀ q ∈ out.1.refs, ∀ i, out.1.insn? q = some i → ¬i.IsByteAccess) ∧
      Settled ctx.boundary known out.1 out.1.refs := by
  induction rest generalizing l xs with
  | nil =>
    cases hs
    rw [List.append_nil] at hrefs
    exact ⟨hl, hrefs ▸ hfree, hrefs ▸ h⟩
  | cons r rest ih =>
    obtain ⟨i, hi⟩ := (hrefs ▸ hl.wellFormed.spells).exists_insn (r := r) (by simp)
    rcases hs.visited hl hrefs hi with ⟨e, -, -, rfl⟩ | ⟨l₂, front, hs', hvisited⟩
    · cases hout
    · have hpassed := hvisited.passed hl hrefs hfree hi
      exact ih hs' hpassed.built hpassed.refs_eq
        (fun q hq => (hknown q hq).trans_le hpassed.size_le) hpassed.free
        (h.visited hl hrefs hknown himp hi hvisited)

/-- A scan makes no listing shorter. If it leaves the length as it is, every store that finds its
array had its cast there. -/
theorem Ends.castFor (hs : standard.Ends ctx rest.head? l out) (hl : l.Built)
    (hrefs : l.refs = xs ++ rest) :
    l.insns.length ≤ out.1.insns.length ∧
    (out.1.insns.length = l.insns.length → out.2 = .ok () →
      ∀ r ∈ rest, ∀ i p, l.insn? r = some i → i.IsNarrowed →
        producer? ctx.boundary l r = .ok (some p) → l.insn? p = some i.castFor) := by
  induction rest generalizing l xs with
  | nil =>
    cases hs
    exact ⟨le_rfl, by simp⟩
  | cons r rest ih =>
    obtain ⟨i, hi⟩ := (hrefs ▸ hl.wellFormed.spells).exists_insn (r := r) (by simp)
    rcases hs.visited hl hrefs hi with ⟨e, -, -, rfl⟩ | ⟨l₂, front, hs', hvisited⟩
    · exact ⟨le_rfl, fun _ hok => nomatch hok⟩
    · obtain ⟨hle, hcast⟩ := ih hs' (hvisited.built hl) (hvisited.refs_eq hrefs)
      -- each visit leaves the listing as it is, or makes it longer
      rcases hvisited.eq_or_longer hl hrefs with ⟨rfl, -, hself⟩ | hlong
      · refine ⟨hle, fun hlen hok q hq j p hj hn hp => ?_⟩
        rcases List.mem_cons.mp hq with rfl | hq
        · obtain rfl := Option.some.inj (hi.symm.trans hj)
          exact hself hn p hp
        · exact hcast hlen hok q hq j p hj hn hp
      · exact ⟨hlong.le.trans hle, fun hlen => absurd (hlong.trans_le hle) (by omega)⟩

/-- A scan with nothing to do does nothing. -/
theorem Ends.eq_self (hs : standard.Ends ctx rest.head? l out) (hl : l.Built)
    (hrefs : l.refs = xs ++ rest)
    (hfree : ∀ q ∈ rest, ∀ i, l.insn? q = some i → ¬i.IsByteAccess)
    (hcast : ∀ r ∈ rest, ∀ i, l.insn? r = some i → i.IsNarrowed → ∃ o,
      producer? ctx.boundary l r = .ok o ∧ ∀ p, o = some p → l.insn? p = some i.castFor) :
    out = (l, .ok ()) := by
  induction rest generalizing xs with
  | nil =>
    cases hs
    rfl
  | cons r rest ih =>
    obtain ⟨i, hi⟩ := (hrefs ▸ hl.wellFormed.spells).exists_insn (r := r) (by simp)
    have hanswer := hcast r (by simp) i hi
    rcases hs.visited hl hrefs hi with ⟨e, hn, hp, -⟩ | ⟨l₂, front, hs', hvisited⟩
    · obtain ⟨o, ho, -⟩ := hanswer hn
      rw [ho] at hp
      cases hp
    · -- no cast is missing and no access is left, so the node is kept
      cases hvisited with
      | kept =>
        have hsplit : l.refs = (xs ++ [r]) ++ rest := by simpa using hrefs
        exact ih hs' hsplit (fun q hq => hfree q (List.mem_cons_of_mem _ hq))
          fun q hq => hcast q (List.mem_cons_of_mem _ hq)
      | @cast _ _ _ p hn hp hne =>
        obtain ⟨o, ho, hsettled⟩ := hanswer hn
        exact absurd (hsettled p (Except.ok.inj (ho.symm.trans hp))) hne
      | choice hbyte => exact absurd hbyte (hfree r (by simp) i hi)

/-- Stores that find their arrays at the same node are of one type. -/
def Uniform (boundary : Boundary) (l : Listing) : Prop :=
  ∀ r ∈ l.refs, ∀ r' ∈ l.refs, ∀ i i' p, l.insn? r = some i → l.insn? r' = some i' →
    i.IsNarrowed → i'.IsNarrowed → producer? boundary l r = .ok (some p) →
    producer? boundary l r' = .ok (some p) → storedArray i.opcode = storedArray i'.opcode

/-- A run comes to the end of its scan. -/
theorem ends_run (ctx : Context) (hl : l.Built) :
    standard.Ends ctx l.refs.head? l (standard.run ctx l) :=
  hl.wellFormed.spells.first_eq ▸ (standard_advances ctx).ends_run hl.wellFormed.spells

/-- Nothing fails where everything has been passed. -/
theorem exists_run (hl : l.Built) (h : Settled ctx.boundary known l l.refs)
    (hfree : ∀ q ∈ l.refs, ∀ i, l.insn? q = some i → ¬i.IsByteAccess) :
    ∃ l', standard.run ctx l = (l', .ok ()) := by
  have hrefs : l.refs = [] ++ l.refs := rfl
  refine ⟨_, Prod.ext rfl ?_⟩
  cases hs : (standard.run ctx l).2 with
  | ok u => rfl
  | error f =>
    obtain ⟨as, r, bs, i, e, hsplit, hi, hn, hstall, -⟩ :=
      (ends_run ctx hl).exists_stall hl hrefs (by simp) hs
    rw [List.nil_append] at hstall
    have hfree' : ∀ q ∈ as, ∀ i, l.insn? q = some i → ¬i.IsByteAccess := fun q hq =>
      hfree q (by simp [hsplit, hq])
    obtain ⟨o, ho, -⟩ := h r (by simp [hsplit]) i hi hn
    rw [(producer?_eq_error_iff_of_free hl hsplit hfree' hi hn).mpr hstall] at ho
    cases ho

/-- Where a run leaves the instructions as they are, stores at one place are of one type: the cast
there is the cast for all of them. -/
theorem uniform_of_run (hl : l.Built) (hrun : standard.run ctx l = (l', .ok ()))
    (hinsns : l'.insns = l.insns) : Uniform ctx.boundary l := by
  intro r hr r' hr' i i' p hi hi' hn hn' hp hp'
  have hrefs : l.refs = [] ++ l.refs := rfl
  obtain ⟨-, hcast⟩ := (hrun ▸ ends_run ctx hl).castFor hl hrefs
  have hlen := congrArg List.length hinsns
  have heq := (hcast hlen rfl r hr i p hi hn hp).symm.trans (hcast hlen rfl r' hr' i' p hi' hn' hp')
  simpa [Insn.castFor] using heq

/-- Where stores at one place are of one type, what was passed stays as it is. -/
theorem run_of_uniform (hl : l.Built) (h : Settled ctx.boundary known l l.refs)
    (hfree : ∀ q ∈ l.refs, ∀ i, l.insn? q = some i → ¬i.IsByteAccess)
    (himp : ∀ q, known q = true → ctx.boundary q = true) (huniform : Uniform known l) :
    standard.run ctx l = (l, .ok ()) := by
  have hrefs : l.refs = [] ++ l.refs := rfl
  refine (ends_run ctx hl).eq_self hl hrefs hfree fun r hr i hi hn => ?_
  obtain ⟨o, ho, hfound⟩ := h r hr i hi hn
  refine ⟨o, ho, fun p hp => ?_⟩
  subst hp
  obtain ⟨r', hr', i', hi', hn', hp', hcast⟩ := hfound p rfl
  have hp := producer?_of_imp himp hl hr hi hn ho
  rw [hcast, Insn.castFor, Insn.castFor, huniform r hr r' hr' i i' p hi hi' hn hn' hp hp']

/-- **Enhancing twice.** Where the scan with the standard rules has succeeded, a second one succeeds
too. If it leaves the instructions as they are, the stores of the listing that find their arrays at
the same node are of one type. And if they are so, with only the boundaries counted that were nodes
of the original listing, it leaves everything as it is. So if the boundary is made of such nodes,
nothing but stores of different types at one place makes a second scan insert anything. -/
theorem standard_again (ctx : Context) (hb : l.Built)
    (hrun : standard.run ctx l = (l₁, .ok ())) :
    ∃ l₂, standard.run ctx l₁ = (l₂, .ok ()) ∧
      (l₂.insns = l₁.insns → Uniform ctx.boundary l₁) ∧
      (Uniform (fun q => ctx.boundary q && decide (q < l.nodes.size)) l₁ → l₂ = l₁) ∧
      ((∀ q, ctx.boundary q = true → q < l.nodes.size) →
        (l₂.insns = l₁.insns ↔ Uniform ctx.boundary l₁)) := by
  obtain ⟨known, hknown⟩ : ∃ known : Boundary, known = fun q =>
    ctx.boundary q && decide (q < l.nodes.size) :=
    ⟨_, rfl⟩
  have hboth : ∀ q, known q = true → ctx.boundary q = true ∧ q < l.nodes.size := by
    intro q hq
    rw [hknown, Bool.and_eq_true, decide_eq_true_eq] at hq
    exact hq
  have himp : ∀ q, known q = true → ctx.boundary q = true := fun q hq => (hboth q hq).1
  have hrefs : l.refs = [] ++ l.refs := rfl
  obtain ⟨hb₁, hfree, hsettled⟩ := (hrun ▸ ends_run ctx hb).settled hb hrefs
    (fun q hq => (hboth q hq).2) himp (by simp) (by simp [Settled]) rfl
  obtain ⟨l₂, hrun₂⟩ := exists_run hb₁ hsettled hfree
  have hstays : Uniform known l₁ → l₂ = l₁ := fun huniform =>
    (Prod.mk.inj (hrun₂.symm.trans (run_of_uniform hb₁ hsettled hfree himp huniform))).1
  refine ⟨l₂, hrun₂, uniform_of_run hb₁ hrun₂, hknown ▸ hstays, fun hbound =>
    ⟨uniform_of_run hb₁ hrun₂, fun huniform => ?_⟩⟩
  -- a boundary of the original has no node among those that the first run inserted
  have hall : known = ctx.boundary := by
    rw [hknown]
    funext q
    cases h : ctx.boundary q with
    | false => rfl
    | true => exact decide_eq_true (hbound q h)
  rw [hstays (hall ▸ huniform)]

/-- Stores into two arrays. The search of the second store ends at the array of the first. -/
def twofold (second : Opcode) : Listing :=
  ofInsns 0 [.load .aload 2, .plain .iconst0, .load .aload 1, .plain .iconst0, .plain .iconst1,
    .plain .iastore, .plain ⟨0x5C⟩, .plain ⟨0x08⟩, .plain second, .plain ⟨0x58⟩, .plain .voidReturn]

/-- Two stores of integers share a cast, and a second scan finds it. -/
theorem standard_again_twofold : (twofold .iastore).Built ∧ ∃ l₁,
    standard.run {} (twofold .iastore) = (l₁, .ok ()) ∧
    Uniform (fun _ => false) l₁ ∧ standard.run {} l₁ = (l₁, .ok ()) := by
  have hb : (twofold .iastore).Built := .ofInsns _ _
  have hrun : standard.run {} (twofold .iastore) =
      ((standard.run {} (twofold .iastore)).1, .ok ()) :=
    Prod.ext rfl (Outcome.eq_ok_of_toOption (by
      decide +kernel))
  obtain ⟨l₂, hrun₂, huniform, hstays, -⟩ := standard_again {} hb hrun
  have hinsns : (standard.run {}
      (standard.run {} (twofold .iastore)).1).1.insns =
      (standard.run {} (twofold .iastore)).1.insns := by
    decide +kernel
  rw [hrun₂] at hinsns
  have huniform := huniform hinsns
  rw [hstays (by simpa using huniform)] at hrun₂
  exact ⟨hb, _, hrun, huniform, hrun₂⟩

/-- A store of integers and one of short integers share the place of their casts: the heights are
consistent and the scan succeeds, but a second one inserts two more casts. -/
theorem twofold_astray : (twofold ⟨0x56⟩).Built ∧ (∀ i ∈ (twofold ⟨0x56⟩).insns, i.WellShaped) ∧
    (∃ H, (twofold ⟨0x56⟩).heights = .ok H) ∧ ∃ l₁ l₂,
      standard.run {} (twofold ⟨0x56⟩) = (l₁, .ok ()) ∧
      standard.run {} l₁ = (l₂, .ok ()) ∧
      l₂.insns ≠ l₁.insns ∧ l₂.insns.length = l₁.insns.length + 2 := by
  have hfirst : (standard.run {} (twofold ⟨0x56⟩)).2.toOption = some () := by
    decide +kernel
  have hsecond : (standard.run {} (standard.run {} (twofold ⟨0x56⟩)).1).2.toOption = some () := by
    decide +kernel
  have hlen : (standard.run {} (standard.run {} (twofold ⟨0x56⟩)).1).1.insns.length =
      (standard.run {} (twofold ⟨0x56⟩)).1.insns.length + 2 := by
    decide +kernel
  refine ⟨.ofInsns _ _, by decide +kernel, ?_, _, _,
    Prod.ext rfl (Outcome.eq_ok_of_toOption hfirst),
    Prod.ext rfl (Outcome.eq_ok_of_toOption hsecond), fun h => ?_, hlen⟩
  · obtain ⟨H, hH⟩ : ∃ H, (twofold ⟨0x56⟩).heights.toOption = some H :=
      Option.isSome_iff_exists.mp (by decide +kernel)
    exact ⟨H, Outcome.eq_ok_of_toOption hH⟩
  · exact Nat.ne_of_gt (Nat.lt_add_of_pos_right Nat.two_pos)
      (hlen.symm.trans (congrArg List.length h))

end Chain

end ClassWeaver
