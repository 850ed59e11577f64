import ClassWeaver.Proofs.Enhance.Casts

/-!
# Where a search stalls

The search for the array of a store goes back over the block of the store and adds up what it meets.
It gives up at the first barrier, and the store stays as it is. But an instruction without an effect
is no barrier to it: a return or an `athrow` ends the block as a jump does, and the search asks what
it does to the stack (`Listing.Stalls`). That has no answer, so the search fails
(`producer?_eq_error_iff`).

What a search meets is a matter of the nodes in front of the store, told by a recursion on them
(`Listing.stall?`). A node that changes nothing does not matter to it, and nothing behind the first
end does. -/

namespace ClassWeaver

/-- The instruction is a store that narrows its array. -/
def Insn.IsNarrowed (i : Insn) : Prop := i.opcode.isArrayStore = true ∧ i.opcode ≠ .bastore

instance (i : Insn) : Decidable i.IsNarrowed := inferInstanceAs (Decidable (_ ∧ _))

theorem Insn.not_isByteAccess_of_isNarrowed {i : Insn} (h : i.IsNarrowed) : ¬i.IsByteAccess := by
  rintro (hop | hop)
  · exact h.2 hop
  · rw [Insn.IsNarrowed, hop] at h
    revert h
    decide

namespace Listing

variable {l l' : Listing} {boundary ends ends' : Ref → Bool} {as bs xs ys zs front : List Ref}
variable {q r : Ref} {total c : Int} {e : Failure} {i : Insn}

/-! ### Going back over nodes -/

/-- Whether a search ends in front of the node: it is a barrier, or will have become one. -/
def endsSearch (l : Listing) (boundary : Ref → Bool) (r : Ref) : Bool :=
  l.isBarrier boundary r || (l.insn? r).any fun i => i.IsByteAccess

/-- The failure that a search meets on its way back over nodes, the nearest first, where the stack
has changed by `total`. -/
def stall? (l : Listing) (ends : Ref → Bool) : List Ref → (total : Int) → Option Failure
  | [], _ => none
  | q :: qs, total =>
    if ends q || total = -1 then none
    else match l.changeAt q with
      | .error e => some e
      | .ok c => stall? l ends qs (total + c)

/-- The search that starts at `r` meets an instruction without an effect, and nothing ends it
before: no barrier, and no place from where the stack loses only the array. -/
def Stalls (l : Listing) (boundary : Ref → Bool) (r : Ref) (e : Failure) : Prop :=
  ∃ as q bs ys, l.refs = as ++ q :: (bs ++ r :: ys) ∧ l.changeAt q = .error e ∧
    (∀ b ∈ bs, ∃ c, l.changeAt b = .ok c) ∧ (∀ b ∈ q :: bs, l.endsSearch boundary b = false) ∧
    ∀ ds, ds <:+ bs → l.rise (ds ++ [r]) ≠ -1

/-- A search ends at the first end, if everything nearer has an effect. -/
theorem stall?_of_ends (has : ∀ b ∈ as, ∃ c, l.changeAt b = .ok c) (hq : ends q = true) :
    l.stall? ends (as ++ q :: bs) total = none := by
  induction as generalizing total with
  | nil => simp [stall?, hq]
  | cons a as ih =>
    obtain ⟨c, hc⟩ := has a List.mem_cons_self
    rw [List.cons_append, stall?, hc]
    split
    · rfl
    · exact ih fun b hb => has b (List.mem_cons_of_mem _ hb)

/-- A node that changes nothing can only end a search. -/
theorem stall?_of_neutral (hq : l.changeAt q = .ok 0)
    (h : l.stall? ends (as ++ q :: bs) total = some e) :
    l.stall? ends (as ++ bs) total = some e := by
  induction as generalizing total with
  | nil =>
    rw [List.nil_append, stall?, hq] at h
    split at h
    · cases h
    · simpa using h
  | cons a as ih =>
    rw [List.cons_append, stall?] at h ⊢
    split at h
    · cases h
    · next hgo =>
      rw [if_neg hgo]
      split at h
      · exact h
      · exact ih h

/-- A node that changes nothing and ends no search does not matter. -/
theorem stall?_neutral (hq : l.changeAt q = .ok 0) (hends : ends q = false) :
    l.stall? ends (as ++ q :: bs) total = l.stall? ends (as ++ bs) total := by
  induction as generalizing total with
  | nil =>
    rw [List.nil_append, List.nil_append, stall?, hq, hends, Bool.false_or]
    split
    · next htotal =>
      cases bs <;> simp [stall?, of_decide_eq_true htotal]
    · exact congrArg (l.stall? ends bs) (Int.add_zero total)
  | cons a as ih =>
    simp only [List.cons_append, stall?, ih]

/-- The search in one listing meets what the search in another meets, if it does so from behind the
same nodes. -/
theorem stall?_append (hsame : ∀ q ∈ as, l'.changeAt q = l.changeAt q ∧ ends' q = ends q)
    (htail : ∀ total e, l'.stall? ends' bs total = some e → l.stall? ends ys total = some e)
    (h : l'.stall? ends' (as ++ bs) total = some e) : l.stall? ends (as ++ ys) total = some e := by
  induction as generalizing total with
  | nil => exact htail total e h
  | cons a as ih =>
    obtain ⟨hchange, hends⟩ := hsame a List.mem_cons_self
    rw [List.cons_append, stall?, hchange, hends] at h
    rw [List.cons_append, stall?]
    split at h
    · cases h
    · next hgo =>
      rw [if_neg hgo]
      split at h
      · exact h
      · exact ih (fun q hq => hsame q (List.mem_cons_of_mem _ hq)) h

/-- A search depends on the changes of the nodes and on which of them end it. -/
theorem stall?_congr (hsame : ∀ q ∈ xs, l'.changeAt q = l.changeAt q ∧ ends' q = ends q) :
    l'.stall? ends' xs total = l.stall? ends xs total := by
  induction xs generalizing total with
  | nil => rfl
  | cons x xs ih =>
    obtain ⟨hchange, hends⟩ := hsame x List.mem_cons_self
    rw [stall?, stall?, hchange, hends]
    split
    · rfl
    · split
      · rfl
      · exact ih fun q hq => hsame q (List.mem_cons_of_mem _ hq)

/-- What a search meets, told by the nodes that it has passed. -/
theorem stall?_eq_some_iff : l.stall? ends xs total = some e ↔
    ∃ as q bs, xs = as ++ q :: bs ∧ l.changeAt q = .error e ∧
    (∀ b ∈ as, ∃ c, l.changeAt b = .ok c) ∧
      (∀ b ∈ q :: as, ends b = false) ∧ ∀ ds, ds <+: as → total + l.rise ds ≠ -1 := by
  induction xs generalizing total with
  | nil => simp [stall?]
  | cons x xs ih =>
    rw [stall?]
    constructor
    · intro h
      split at h
      · cases h
      · next hgo =>
        simp only [Bool.or_eq_true, not_or, decide_eq_true_eq, Bool.not_eq_true] at hgo
        split at h
        · next e' he =>
          obtain rfl : e' = e := Option.some.inj h
          refine ⟨[], x, xs, rfl, he, nofun, by simpa using hgo.1, fun ds hds => ?_⟩
          rw [List.prefix_nil.mp hds]
          simpa [rise] using hgo.2
        · next c hc =>
          obtain ⟨as, q, bs, rfl, hq, has, hends, hrise⟩ := ih.mp h
          refine ⟨x :: as, q, bs, rfl, hq, ?_, ?_, fun ds hds => ?_⟩
          · simpa using ⟨⟨c, hc⟩, has⟩
          · simp only [List.mem_cons, forall_eq_or_imp] at hends ⊢
            exact ⟨hends.1, hgo.1, hends.2⟩
          · -- a prefix is empty, or it begins with the node that was passed
            rcases List.prefix_cons_iff.mp hds with rfl | ⟨es, rfl, hes⟩
            · simpa [rise] using hgo.2
            · have hlater := hrise es hes
              rw [rise_cons_of_changeAt hc]
              omega
    · rintro ⟨as, q, bs, heq, hq, has, hends, hrise⟩
      have htotal : total ≠ -1 := by simpa [rise] using hrise [] List.nil_prefix
      cases as with
      | nil =>
        obtain ⟨rfl, rfl⟩ := List.cons.inj heq
        simp [hends x List.mem_cons_self, htotal, hq]
      | cons a as =>
        obtain ⟨rfl, rfl⟩ := List.cons.inj heq
        obtain ⟨c, hc⟩ := has x List.mem_cons_self
        have hx : ends x = false := hends x (by simp)
        rw [if_neg (by simp [hx, htotal]), hc]
        refine ih.mpr ⟨as, q, bs, rfl, hq, fun b hb => has b (List.mem_cons_of_mem _ hb),
          fun b hb => ?_, fun ds hds => ?_⟩
        · refine hends b ?_
          simp only [List.mem_cons] at hb ⊢
          tauto
        · have hlater := hrise (x :: ds) (List.cons_prefix_cons.mpr ⟨rfl, hds⟩)
          rw [rise_cons_of_changeAt hc] at hlater
          omega

/-! ### The search of a store -/

/-- Walking back from a node meets what going back over the nodes in front of it meets. -/
theorem backToTarget_eq_error_iff {fuel : Nat} (hl : l.Spells (xs ++ r :: zs))
    (hf : xs.length < fuel)
    (hc : l.changeAt r = .ok c) : l.backToTarget boundary (-1) fuel r total = .error e ↔
      l.stall? (l.isBarrier boundary) xs.reverse (total + c) = some e := by
  induction xs using List.reverseRecOn generalizing zs r total c fuel with
  | nil =>
    obtain ⟨fuel, rfl⟩ := Nat.exists_eq_add_one_of_ne_zero (Nat.ne_zero_of_lt hf)
    rw [backToTarget_succ, hc, hl.prev_eq]
    exact ⟨nofun, nofun⟩
  | append_singleton xs t ih =>
    obtain ⟨fuel, rfl⟩ := Nat.exists_eq_add_one_of_ne_zero (Nat.ne_zero_of_lt hf)
    have hl' : l.Spells (xs ++ t :: (r :: zs)) := by simpa using hl
    rw [backToTarget_succ, hc, hl.prev_eq, List.getLast?_concat, List.reverse_append,
      List.reverse_singleton, List.singleton_append, stall?]
    change (if _ then _ else _) = _ ↔ _
    split
    · exact ⟨nofun, nofun⟩
    · cases ht : l.changeAt t with
      | ok d => exact ih hl' (by simpa using hf) ht
      | error f =>
        obtain ⟨fuel, rfl⟩ : ∃ n, fuel = n + 1 := ⟨fuel - 1, by simp at hf; omega⟩
        rw [backToTarget_succ, ht]
        exact ⟨fun h => congrArg some (Except.error.inj h), fun h => congrArg _ (Option.some.inj h)⟩

end Listing

namespace Enhance

open Listing

variable {l : Listing} {boundary : Boundary} {xs bs zs : List Ref} {r : Ref} {target total c : Int}
variable {e : Failure} {i : Insn}

/-- The check of a stretch adds up its changes. -/
theorem changesBy_eq {fuel : Nat} (hl : l.Spells (xs ++ (bs ++ r :: zs))) (hfuel : bs.length < fuel)
    (hbs : ∀ b ∈ bs ++ [r], ∃ c, l.changeAt b = .ok c) :
    changesBy l r target fuel (bs ++ [r]).head? total =
      .ok (decide (total + l.rise (bs ++ [r]) = target)) := by
  induction bs generalizing xs fuel total with
  | nil =>
    obtain ⟨fuel, rfl⟩ := Nat.exists_eq_add_one_of_ne_zero (Nat.ne_zero_of_lt hfuel)
    obtain ⟨c, hc⟩ := hbs r (by simp)
    rw [List.nil_append, List.head?_cons, changesBy_last, hc, rise_of_changeAt hc]
    rfl
  | cons b bs ih =>
    obtain ⟨fuel, rfl⟩ := Nat.exists_eq_add_one_of_ne_zero (Nat.ne_zero_of_lt hfuel)
    obtain ⟨c, hc⟩ := hbs b (by simp)
    have hl' : l.Spells ((xs ++ [b]) ++ (bs ++ r :: zs)) := by simpa using hl
    rw [List.cons_append, List.head?_cons, changesBy_cons hl, hc, rise_cons_of_changeAt hc,
      ← Int.add_assoc]
    exact ih hl' (by simpa using hfuel) fun d hd => hbs d (List.mem_cons_of_mem _ hd)

/-- A search has the answer of its scan, if the stack loses just the array from there on. -/
theorem producer?_of_anchors {as : List Ref} {p : Ref} (hl : l.Spells (as ++ p :: bs ++ r :: zs))
    (hback : l.backUntil boundary r (-1) false = .ok (some p))
    (hp : l.Anchors boundary (-1) r as p bs) :
    producer? boundary l r = .ok (if l.rise (bs ++ [r]) = -1 then some p else none) := by
  have hl₁ : l.Spells (as ++ p :: (bs ++ r :: zs)) := by simpa using hl
  have hl₂ : l.Spells ((as ++ [p]) ++ (bs ++ r :: zs)) := by simpa using hl
  have hlen : bs.length < l.nodes.size + 1 := Nat.lt_succ_of_lt hl₁.between_lt
  have hnext : l.next (some p) = (bs ++ [r]).head? := by
    rw [hl₁.next_eq]
    cases bs <;> rfl
  have hcheck : changesBy l r (-1) (l.nodes.size + 1) (bs ++ [r]).head? 0 = _ :=
    changesBy_eq hl₂ hlen hp.changes
  rw [← hnext, Int.zero_add] at hcheck
  refine Except.bind_eq_ok_iff.mpr ⟨_, hback, Except.bind_eq_ok_iff.mpr ⟨_, hcheck, ?_⟩⟩
  by_cases hrise : l.rise (bs ++ [r]) = -1 <;> simp only [hrise, decide_true, decide_false] <;> rfl

/-- A search whose scan comes to its end has an answer. -/
theorem exists_producer? {found : Option Ref} (hl : l.Spells (xs ++ r :: zs))
    (hlabel : l.isLabelEntry r = false)
    (hfound : l.backToTarget boundary (-1) (l.nodes.size + 1) r 0 = .ok found) :
    ∃ o, producer? boundary l r = .ok o := by
  cases found with
  | none => exact ⟨none, by rw [producer?, backUntil, hfound]; rfl⟩
  | some q =>
    obtain ⟨p, hback⟩ : ∃ p, l.backUntil boundary r (-1) false = .ok (some p) :=
      ⟨_, by rw [backUntil, hfound]; rfl⟩
    obtain ⟨as, bs, rfl, hp⟩ := backUntil_anchors hl hlabel hback
    exact ⟨_, producer?_of_anchors hl hback hp⟩

/-- The search for the array of a store fails exactly if it meets something without an effect. -/
theorem producer?_eq_error_iff (hl : l.Spells (xs ++ r :: zs)) (hi : l.insn? r = some i)
    (hstore : i.opcode.isArrayStore = true) : producer? boundary l r = .error e ↔
      l.stall? (l.isBarrier boundary) xs.reverse (-3) = some e := by
  have hlen : xs.length < l.nodes.size + 1 := Nat.lt_succ_of_lt hl.front_lt
  have hc := changeAt_arrayStore hi hstore
  have hlabel := isLabelEntry_of_arrayStore hi hstore
  have hback : l.backToTarget boundary (-1) (l.nodes.size + 1) r 0 = .error e ↔
      l.stall? (l.isBarrier boundary) xs.reverse (0 + -3) = some e :=
    backToTarget_eq_error_iff hl hlen hc
  rw [Int.zero_add] at hback
  rw [← hback]
  cases hfound : l.backToTarget boundary (-1) (l.nodes.size + 1) r 0 with
  | error f =>
    rw [producer?, backUntil, hfound]
    exact Iff.rfl
  | ok found =>
    obtain ⟨o, ho⟩ := exists_producer? hl hlabel hfound
    simp [ho]

end Enhance

end ClassWeaver
