import ClassWeaver.Proofs.Enhance.Arrays

/-!
# Rules that remove

A rule that removes a node answers the node in front of it, or none where it was the head. Either
way the scan goes on with the node that was behind (`visit_removing`), so that it visits every node
of the sequence once and in order, whatever it has removed in front of it. `Tours` tells a scan by
the nodes that it visits. What the scan leaves is the sequence without the nodes whose instructions
match (`run_removing`). -/

namespace ClassWeaver

namespace Listing

variable {l : Listing} {q r : Ref} {lbl : Label}

/-- Removing another node leaves a binding alone. -/
theorem WellFormed.binding_remove_of_ne (h : l.WellFormed) (hb : l.binding lbl = some q)
    (hne : q ≠ r) : (l.remove r).binding lbl = some q := by
  have hun : (l.unbind r).binding lbl = some q := by
    by_cases hr : ∀ k, l.binding k ≠ some r
    · rw [unbind_eq_self hr, hb]
    · push Not at hr
      obtain ⟨k, hk⟩ := hr
      rw [(binding_unbind (h.labelled.sound hk).2 hk lbl).1, if_neg, hb]
      rintro rfl
      exact hne (Option.some.inj (hb.symm.trans hk))
  unfold Listing.remove
  split
  · exact hb
  · split
    · rw [← hun]
      refine binding_congr ?_ lbl
      change ((Listing.setNext _ _ _).setPrev _ _).bound = _
      rw [(setPrev_table _ _).1, (setNext_table _ _).1]
    · exact hb

end Listing

namespace Chain

open Listing

variable {chain : Chain} {ctx : Context} {p : Insn → Bool} {l l' : Listing}
variable {start : Option Ref} {xs ys rest visited : List Ref} {r : Ref} {i : Insn}

/-- A scan from a node on that comes to the end of the sequence, with the nodes that it visits in
order and the listing at its end. -/
inductive Tours (chain : Chain) (ctx : Context) :
    Option Ref → Listing → List Ref → Listing → Prop
  | done {l : Listing} : Tours chain ctx none l [] l
  | visit {r : Ref} {l l₁ l' : Listing} {resume : Option Ref} {visited : List Ref} :
      chain.visit ctx l r = (l₁, .ok resume) →
      Tours chain ctx (l₁.next resume) l₁ visited l' →
      Tours chain ctx (some r) l (r :: visited) l'

/-- A tour is finished when there is time for its visits. -/
theorem Tours.scan_eq (h : Tours chain ctx start l visited l') {visits : Nat}
    (hvisits : visited.length ≤ visits) :
    chain.scan ctx visits start l = some (l', .ok ()) := by
  induction h generalizing visits with
  | done => exact scan_none
  | visit hvisit _ ih =>
    obtain ⟨visits, rfl⟩ := Nat.exists_eq_add_of_lt hvisits
    rw [scan, hvisit]
    exact ih (by omega)

/-! ### One node -/

/-- The instruction at a node does not match. -/
def stays (p : Insn → Bool) (l : Listing) (r : Ref) : Bool := !(l.insn? r).any p

/-- A node that matches is removed, and the scan goes on behind the one in front of it. -/
theorem visit_removing (hs : l.Spells (xs ++ r :: ys)) (hi : l.insn? r = some i) :
    visit [.removing p] ctx l r =
      if p i then (l.remove r, .ok xs.getLast?) else (l, .ok (some r)) := by
  rw [visit, hi]
  dsimp only
  cases hp : p i with
  | false =>
    have hnone : [Rule.removing p].find? (·.applies i) = none := by simp [Rule.removing, hp]
    rw [hnone]
    rfl
  | true =>
    have hsome : [Rule.removing p].find? (·.applies i) = some (.removing p) := by
      simp [Rule.removing, hp]
    rw [hsome, if_pos rfl]
    dsimp only [Rule.removing]
    rw [hs.prev_eq]
    cases hlast : xs.getLast? with
    | none => rfl
    | some q =>
      have hlinked : (l.remove r).isLinked q = true :=
        hs.remove.isLinked_iff.mpr (List.mem_append_left _ (List.mem_of_getLast? hlast))
      dsimp only
      rw [if_pos hlinked]

/-! ### The sequence -/

/-- What removing nodes that match leaves of a listing. -/
structure Left (p : Insn → Bool) (l l' : Listing) : Prop where
  built : l'.Built
  insn : ∀ r, l'.insn? r = l.insn? r
  binding : ∀ lbl r, l.binding lbl = some r → stays p l r = true → l'.binding lbl = some r

theorem Left.refl (hl : l.Built) : Left p l l := ⟨hl, fun _ => rfl, fun _ _ hb _ => hb⟩

theorem Left.stays_eq (h : Left p l l') (r : Ref) : stays p l' r = stays p l r := by
  rw [stays, stays, h.insn]

theorem Left.trans {l₁ : Listing} (h : Left p l l₁) (h' : Left p l₁ l') : Left p l l' where
  built := h'.built
  insn r := (h'.insn r).trans (h.insn r)
  binding lbl r hb hr := h'.binding lbl r (h.binding lbl r hb hr) ((h.stays_eq r).trans hr)

theorem left_remove (hl : l.Built) (hr : stays p l r = false) : Left p l (l.remove r) where
  built := hl.remove r
  insn _ := insn?_remove _
  binding lbl q hb hq := hl.wellFormed.binding_remove_of_ne hb fun heq => by
    rw [heq, hr] at hq
    cases hq

/-- A scan with the rule tours what is left of the sequence, and removes what matches. -/
theorem tours_removing (ctx : Context) (p : Insn → Bool) (hl : l.Built)
    (hrefs : l.refs = xs ++ rest) :
    ∃ l', Tours [.removing p] ctx rest.head? l rest l' ∧
      l'.refs = xs ++ rest.filter (stays p l) ∧ Left p l l' := by
  induction rest generalizing l xs with
  | nil => exact ⟨l, .done, hrefs, .refl hl⟩
  | cons r ys ih =>
    have hs : l.Spells (xs ++ r :: ys) := hrefs ▸ hl.wellFormed.spells
    obtain ⟨i, hi⟩ := hs.exists_insn (List.mem_append_right xs List.mem_cons_self)
    have hvisit := @visit_removing ctx p l xs ys r i hs hi
    have hstays : stays p l r = !p i := by rw [stays, hi]; rfl
    cases hp : p i with
    | false =>
      rw [hp, if_neg Bool.false_ne_true] at hvisit
      rw [hp] at hstays
      have hsplit : l.refs = (xs ++ [r]) ++ ys := by simp [hrefs]
      obtain ⟨l', htours, hrefs', hleft⟩ := ih hl hsplit
      refine ⟨l', .visit hvisit ?_, ?_, hleft⟩
      · rwa [hs.next_eq]
      · rw [hrefs', List.filter_cons_of_pos hstays]
        simp
    | true =>
      rw [hp, if_pos rfl] at hvisit
      rw [hp] at hstays
      -- removing changes the listing, but not which of the later nodes match
      have hleft₁ := left_remove hl hstays
      obtain ⟨l', htours, hrefs', hleft⟩ := ih (hl.remove r) hs.remove.refs_eq
      refine ⟨l', .visit hvisit ?_, ?_, hleft₁.trans hleft⟩
      · rwa [next_getLast? hs.remove]
      · rw [hrefs', List.filter_cons_of_neg (by rw [hstays]; decide)]
        exact congrArg (xs ++ ·) (List.filter_congr fun q _ => hleft₁.stays_eq q)

/-- **Removing filters the sequence.** A scan with a rule that removes what matches visits every
node of the sequence once and in order, and ends without a failure. It leaves the nodes whose
instructions do not match, in their order and with their instructions; the label table is exact for
them, and a label that one of them was bound to is still bound to it. -/
theorem run_removing (ctx : Context) (p : Insn → Bool) (hl : l.Built) :
    ∃ l', Tours [.removing p] ctx l.first l l.refs l' ∧
      Chain.run [.removing p] ctx l = (l', .ok ()) ∧
      l'.refs = l.refs.filter (fun r => !(l.insn? r).any p) ∧
      (∀ r, l'.insn? r = l.insn? r) ∧ l'.insns = l.insns.filter (fun i => !p i) ∧
      l'.Built ∧ l'.Labelled (· ∈ l'.refs) ∧
      ∀ lbl r, l.binding lbl = some r → r ∈ l'.refs → l'.binding lbl = some r := by
  have hsp := hl.wellFormed.spells
  have hsplit : l.refs = [] ++ l.refs := rfl
  obtain ⟨l', htours, hrefs, hleft⟩ := tours_removing ctx p hl hsplit
  rw [List.nil_append] at hrefs
  rw [← hsp.first_eq] at htours
  have hscan : Chain.scan [.removing p] ctx (patience + l.length) l.first l = some (l', .ok ()) :=
    htours.scan_eq (hsp.length_eq ▸ Nat.le_add_left ..)
  refine ⟨l', htours, by rw [run, hscan, Option.getD_some], hrefs, hleft.insn, ?_, hleft.built,
    hleft.built.wellFormed.labelled, fun lbl r hb hr => ?_⟩
  · rw [insns, insns, hrefs, List.filterMap_filter, List.filter_filterMap]
    refine List.filterMap_congr fun r _ => ?_
    rw [hleft.insn, stays]
    cases l.insn? r with
    | none => rfl
    | some i => cases hp : p i <;> simp [Option.filter, hp]
  · rw [hrefs] at hr
    exact hleft.binding lbl r hb (List.mem_filter.mp hr).2

/-- A loop with padding at its ends and within it. -/
def padded : Listing := ofInsns 1
  [.plain .nop, .plain .nop, .place 0, .plain .iconst1, .plain .pop, .plain .nop, .jump .goto 0,
    .plain .nop]

theorem run_removing_padded : padded.Built ∧
    (∃ l', Chain.run [.removing fun i => i.opcode = .nop] {} padded = (l', .ok ()) ∧
      l'.refs = [2, 3, 4, 6] ∧ l'.binding 0 = some 2) ∧
    ∃ l', Chain.run [.removing fun _ => true] {} padded = (l', .ok ()) ∧
      l'.refs = [] := by
  have hb : padded.Built := .ofInsns _ _
  refine ⟨hb, ?_, ?_⟩
  · obtain ⟨l', -, hrun, hrefs, -, -, -, -, hbinding⟩ :=
      run_removing {} (fun i => i.opcode = .nop) hb
    have hfour : l'.refs = [2, 3, 4, 6] := hrefs.trans (by decide +kernel)
    exact ⟨l', hrun, hfour, hbinding 0 2 (by decide +kernel) (by simp [hfour])⟩
  · obtain ⟨l', -, hrun, hrefs, -⟩ := run_removing {} (fun _ => true) hb
    exact ⟨l', hrun, hrefs.trans (by decide +kernel)⟩

end Chain

end ClassWeaver
