import ClassWeaver.Transform
import ClassWeaver.Proofs.Codec.Stable
import ClassWeaver.Proofs.Enhance.Scanning
import ClassWeaver.Proofs.Generator.Commit
import ClassWeaver.Proofs.Generator.Splices
import ClassWeaver.Proofs.Outcome

/-!
# Classes that were transformed

Weaving keeps what makes a class writable: the body of a method is still there in order, and what
is spliced in fits its opcodes. Rules edit a listing by inserting and removing, so that it is
enough to know this of every rule (`Rule.Keeps`), and the standard rules have it. Together with
what is known of a class that was read, a class that was read and transformed can be written as
what it is (`ClassFile.Faithful.transform`).
-/

namespace ClassWeaver

/-! ### Editing a listing -/

namespace Insn

variable {i x : Insn} {is js xs ys : List Insn}

/-- What can be written has a text. -/
theorem Encodable.printable {p : Pool} (h : i.Encodable p) : i.Printable := by
  obtain ⟨op, x⟩ := i
  cases x with
  | lookupSwitch dflt keys targets =>
    have hcases : ∃ cases, casesText? keys targets = some cases :=
      ⟨_, if_pos (Nat.le_of_eq h.2)⟩
    obtain ⟨cases, hcases⟩ := hcases
    exact ⟨_, congrArg (Option.map _) hcases⟩
  | _ => exact ⟨_, rfl⟩

/-- The operand is what the opcode calls for, and the instruction has a text. -/
structure Regular (i : Insn) : Prop where
  wellShaped : i.WellShaped
  printable : i.Printable

theorem Encodable.regular {p : Pool} (h : i.Encodable p) : i.Regular :=
  ⟨Code.wellShaped_of_encodable h, h.printable⟩

theorem Spans.mono (h : i.Spans is) (hsub : is.Sublist js) : i.Spans js := by
  unfold Spans at h ⊢
  split
  · next heq =>
    rw [heq] at h
    exact h.imp_right fun hpair => hpair.trans hsub
  · trivial

/-- Only placements matter. -/
theorem Spans.of_middle (h : i.Spans (xs ++ x :: ys)) (hx : x.placed? = none) :
    i.Spans (xs ++ ys) := by
  unfold Spans at h ⊢
  split
  · next start stop _ heq =>
    rw [heq] at h
    refine h.imp_right fun hpair => ?_
    have hfilter := hpair.filter fun i => i.placed?.isSome
    have hrest : (xs ++ x :: ys).filter (fun i => i.placed?.isSome) =
        (xs ++ ys).filter fun i => i.placed?.isSome := by
      rw [List.filter_append, List.filter_cons_of_neg (by rw [hx]; decide), List.filter_append]
    rw [hrest] at hfilter
    exact hfilter.trans List.filter_sublist
  · trivial

theorem spans_of_shape (h : i.operand.shape ≠ .localVariable) : i.Spans is := by
  obtain ⟨op, x⟩ := i
  cases x with
  | localVariable => exact absurd rfl h
  | _ => trivial

end Insn

namespace Listing

variable {p : Pool} {l : Listing} {r : Ref} {i : Insn}

/-- Inserting puts an entry on a new node and leaves all others. -/
theorem WellFormed.insertAfter_eq (h : l.WellFormed) {xs ys : List Ref}
    (hs : l.refs = xs ++ r :: ys) (i : Insn) :
    (l.insertAfter (some r) i).2.insns =
        (xs ++ [r]).filterMap l.insn? ++ i :: ys.filterMap l.insn? ∧
      (l.insertAfter (some r) i).2.refs = xs ++ r :: l.nodes.size :: ys ∧
      ∀ q ∈ l.refs, (l.insertAfter (some r) i).2.insn? q = l.insn? q := by
  have hspells : l.Spells (xs ++ r :: ys) := hs ▸ h.spells
  have hsplit : l.Spells ((xs ++ [r]) ++ ys) := by simpa using hspells
  have hr : r ≠ l.nodes.size := fun e => hspells.size_notMem (by simp [e])
  have hnext : (l.alloc i).2.next (some r) = ys.head? := by
    rw [← hspells.next_eq]
    simp [next, alloc, Array.getElem?_push, hr]
  refine ⟨?_, (hspells.insertAfter i).refs_eq, fun q hq => ?_⟩
  · have hinsns := hsplit.insns_link i
    rw [List.getLast?_concat] at hinsns
    simp only [Listing.insertAfter, hnext]
    exact hinsns
  · have hnew := hspells.size_notMem
    have hhead : ys.head? ≠ some l.nodes.size := fun e =>
      hnew (List.mem_append_right _ (List.mem_cons_of_mem _ (List.mem_of_head? e)))
    have hq' : q ≠ l.nodes.size := fun e => hnew (hs ▸ e ▸ hq)
    simp only [Listing.insertAfter, hnext]
    exact (insn?_link_alloc i (fun e => hr (Option.some.inj e)) hhead q).trans (if_neg hq')

/-- All nodes are still there, with their entries. -/
def Keeps (l l' : Listing) : Prop := ∀ q ∈ l.refs, q ∈ l'.refs ∧ l'.insn? q = l.insn? q

theorem Keeps.trans {l' l'' : Listing} (h : l.Keeps l') (h' : l'.Keeps l'') : l.Keeps l'' :=
  fun q hq => ⟨(h' q (h q hq).1).1, (h' q (h q hq).1).2.trans (h q hq).2⟩

/-- A listing in order all of whose entries have the property. -/
structure MadeOf (P : Insn → Prop) (l : Listing) : Prop where
  wellFormed : l.WellFormed
  entries : ∀ i ∈ l.insns, P i

/-- A listing in order of regular instructions. -/
abbrev Regular (l : Listing) : Prop := l.MadeOf Insn.Regular

variable {P : Insn → Prop}

namespace MadeOf

/-- A node of the sequence holds an entry of the listing. -/
theorem fetch (h : l.MadeOf P) (hr : r ∈ l.refs) : (l.fetch r).Gives P := by
  obtain ⟨i, hi⟩ := h.wellFormed.spells.exists_insn hr
  rw [Listing.fetch, hi]
  exact h.entries i (List.mem_filterMap.mpr ⟨r, hr, hi⟩)

theorem newLabel (h : l.MadeOf P) : l.newLabel.2.MadeOf P := by
  have hinsns : l.newLabel.2.insns = l.insns := insns_newLabels l 1
  exact ⟨h.wellFormed.newLabel, by rw [hinsns]; exact h.entries⟩

theorem insertAfter (h : l.MadeOf P) (hr : r ∈ l.refs) (hi : P i) :
    (l.insertAfter (some r) i).2.MadeOf P ∧
      (l.insertAfter (some r) i).1 ∈ (l.insertAfter (some r) i).2.refs ∧
      l.Keeps (l.insertAfter (some r) i).2 ∧
      l.insns.Sublist (l.insertAfter (some r) i).2.insns := by
  obtain ⟨xs, ys, hs⟩ := List.append_of_mem hr
  obtain ⟨hnew, hrefs, hinsn⟩ := h.wellFormed.insertAfter_eq hs i
  have hold : l.insns = (xs ++ [r]).filterMap l.insn? ++ ys.filterMap l.insn? := by
    rw [insns, hs, ← List.filterMap_append, List.append_assoc, List.singleton_append]
  have hlinked := h.wellFormed.spells.isLinked_iff.mpr hr
  refine ⟨⟨h.wellFormed.insertAfter hlinked i, fun j hj => ?_⟩, ?_,
    fun q hq => ⟨?_, hinsn q hq⟩, ?_⟩
  · rw [hnew, List.mem_append, List.mem_cons] at hj
    rcases hj with hj | rfl | hj
    · exact h.entries j (hold ▸ List.mem_append_left _ hj)
    · exact hi
    · exact h.entries j (hold ▸ List.mem_append_right _ hj)
  · rw [hrefs]
    change l.nodes.size ∈ _
    simp
  · rw [hs] at hq
    rw [hrefs]
    simp only [List.mem_append, List.mem_cons] at hq ⊢
    tauto
  · rw [hold, hnew]
    exact (List.Sublist.refl _).append (List.sublist_cons_self ..)

theorem insertAllAfter {is : List Insn} (h : l.MadeOf P) (hr : r ∈ l.refs) (his : ∀ i ∈ is, P i) :
    (l.insertAllAfter (some r) is).2.MadeOf P ∧ l.Keeps (l.insertAllAfter (some r) is).2 ∧
      l.insns.Sublist (l.insertAllAfter (some r) is).2.insns := by
  induction is generalizing l r with
  | nil => exact ⟨h, fun q hq => ⟨hq, rfl⟩, .refl _⟩
  | cons i is ih =>
    rw [List.forall_mem_cons] at his
    obtain ⟨hmade, hmem, hkeeps, hsub⟩ := h.insertAfter hr his.1
    obtain ⟨hall, hrest, hsubs⟩ := ih hmade hmem his.2
    exact ⟨hall, hkeeps.trans hrest, hsub.trans hsubs⟩

theorem remove (h : l.MadeOf P) (r : Ref) : (l.remove r).MadeOf P := by
  by_cases hmem : r ∈ l.refs
  · obtain ⟨xs, ys, hs⟩ := List.append_of_mem hmem
    have hspells : l.Spells (xs ++ r :: ys) := hs ▸ h.wellFormed.spells
    refine ⟨h.wellFormed.remove r, fun j hj => ?_⟩
    obtain ⟨q, hq, hqj⟩ := List.mem_filterMap.mp hj
    rw [hspells.remove.refs_eq] at hq
    rw [insn?_remove] at hqj
    refine h.entries j (List.mem_filterMap.mpr ⟨q, hs ▸ ?_, hqj⟩)
    exact (List.mem_append.mp hq).elim (List.mem_append_left _) fun hq =>
      List.mem_append_right _ (List.mem_cons_of_mem _ hq)
  · rw [h.wellFormed.spells.remove_of_notMem hmem]
    exact h

end MadeOf

namespace Faithful

theorem regular (h : l.Faithful p) : l.Regular :=
  ⟨h.wellFormed, fun i hi => (h.encodable i hi).regular⟩

/-- A listing that has grown by entries that can be written, none of them that of a local
variable, can be written as before. -/
theorem extend {l' : Listing} (h : l.Faithful p) (hsub : l.insns.Sublist l'.insns)
    (h' : l'.MadeOf fun i => i ∈ l.insns ∨ i.Encodable p ∧ i.operand.shape ≠ .localVariable) :
    l'.Faithful p := by
  refine ⟨h'.wellFormed, fun i hi => ?_, fun i hi => ?_⟩
  · exact (h'.entries i hi).elim (h.encodable i) And.left
  · rcases h'.entries i hi with hi | hi
    · exact (h.spans i hi).mono hsub
    · exact Insn.spans_of_shape hi.2

/-- An entry can be removed unless it places a label. -/
theorem remove (h : l.Faithful p) (hr : l.insn? r = some i) (hi : i.placed? = none) :
    (l.remove r).Faithful p := by
  by_cases hmem : r ∈ l.refs
  · obtain ⟨xs, ys, hs⟩ := List.append_of_mem hmem
    have hspells : l.Spells (xs ++ r :: ys) := hs ▸ h.wellFormed.spells
    have hold : l.insns = xs.filterMap l.insn? ++ i :: ys.filterMap l.insn? := by
      rw [insns, hs, List.filterMap_append, List.filterMap_cons_some hr]
    have hnew : (l.remove r).insns = xs.filterMap l.insn? ++ ys.filterMap l.insn? := by
      rw [hspells.remove.insns_eq, ← List.filterMap_append]
      exact filterMap_insn?_congr fun q _ => insn?_remove q
    have hself : l.MadeOf (· ∈ l.insns) := ⟨h.wellFormed, fun i hi => hi⟩
    obtain ⟨hwell, hsub⟩ := hself.remove r
    refine ⟨hwell, fun j hj => h.encodable j (hsub j hj), fun j hj => ?_⟩
    have hspan := h.spans j (hsub j hj)
    rw [hold] at hspan
    rw [hnew]
    exact hspan.of_middle hi
  · rw [h.wellFormed.spells.remove_of_notMem hmem]
    exact h

end Faithful

end Listing

/-! ### Rules -/

/-- Where the scan goes on is part of the sequence. -/
theorem Listing.WellFormed.mem_refs_of_resume {l : Listing} (hl : l.WellFormed)
    {resume : Option Ref} (hresume : ∀ q, resume = some q → q ∈ l.refs) {r : Ref}
    (hr : l.next resume = some r) : r ∈ l.refs := by
  cases resume with
  | none => exact List.mem_of_head? (hl.spells.first_eq ▸ hr)
  | some t => exact hl.mem_refs_of_next (hresume t rfl) hr

/-- The rule keeps a property of listings wherever it applies. -/
def Rule.Keeps (rule : Rule) (P : Listing → Prop) : Prop :=
  ∀ ctx l r i l' resume, P l → r ∈ l.refs → l.insn? r = some i → rule.applies i = true →
    rule.replace ctx l r = (l', .ok resume) → P l'

namespace Chain

variable {chain : Chain} {P : Listing → Prop} {ctx : Context} {l l' : Listing} {r : Ref}
variable {resume : Option Ref}

/-- Visiting a node keeps what the rules keep, and goes on behind a node of the sequence. -/
theorem visit_keeps (hP : ∀ l, P l → l.WellFormed) (hchain : ∀ rule ∈ chain, rule.Keeps P)
    (hl : P l) (hr : r ∈ l.refs) (h : chain.visit ctx l r = (l', .ok resume)) :
    P l' ∧ ∀ q, resume = some q → q ∈ l'.refs := by
  obtain ⟨i, hi⟩ := (hP l hl).spells.exists_insn hr
  rcases visit_eq_ok hi h with ⟨-, rfl, rfl⟩ | ⟨rule, hrule, hreplace, hlinked⟩
  · exact ⟨hl, fun q hq => Option.some.inj hq ▸ hr⟩
  · have hl' := hchain rule (List.mem_of_find?_eq_some hrule) _ _ _ _ _ _ hl hr hi
      (by simpa using List.find?_some hrule) hreplace
    exact ⟨hl', fun q hq => (hP _ hl').spells.isLinked_iff.mp (hlinked q hq)⟩

theorem Ends.keeps {next : Option Ref} {out : Listing × Except Failure Unit}
    (h : chain.Ends ctx next l out) (hP : ∀ l, P l → l.WellFormed)
    (hchain : ∀ rule ∈ chain, rule.Keeps P) (hl : P l) (hnext : ∀ r, next = some r → r ∈ l.refs)
    (hok : out.2 = .ok ()) : P out.1 := by
  induction h with
  | done => exact hl
  | fails => cases hok
  | visit hvisit _ ih =>
    obtain ⟨hl₁, hresume⟩ := visit_keeps hP hchain hl (hnext _ rfl) hvisit
    exact ih hl₁ (fun q hq => (hP _ hl₁).mem_refs_of_resume hresume hq) hok

/-- A scan keeps what the rules keep. -/
theorem run_keeps (hP : ∀ l, P l → l.WellFormed) (hchain : ∀ rule ∈ chain, rule.Keeps P)
    (hl : P l) (h : chain.run ctx l = (l', .ok ())) : P l' :=
  (ends_of_run h).keeps hP hchain hl
    (fun _ hr => List.mem_of_head? ((hP l hl).spells.first_eq ▸ hr)) rfl

end Chain

/-! ### The standard rules -/

namespace Enhance

open Listing

variable {p : Pool} {l l' : Listing} {r : Ref} {i : Insn} {resume : Option Ref}

theorem encodable_dispatchCode {arrange : List Insn} {onBoolean onByte j : Insn}
    {byteLabel join : Label} (harrange : ∀ i ∈ arrange, i.Encodable p ∧ i.operand = .none)
    (hboolean : ∃ name desc, onBoolean = accessor name desc)
    (hbyte : ∃ name desc, onByte = accessor name desc)
    (hj : j ∈ dispatchCode arrange onBoolean onByte byteLabel join) :
    j.Encodable p ∧ j.operand.shape ≠ .localVariable := by
  obtain ⟨name, desc, rfl⟩ := hboolean
  obtain ⟨name', desc', rfl⟩ := hbyte
  rcases List.mem_append.mp hj with hj | hj
  · obtain ⟨hencodable, hnone⟩ := harrange j hj
    rw [hnone]
    exact ⟨hencodable, nofun⟩
  · simp only [List.mem_cons, List.not_mem_nil, or_false] at hj
    rcases hj with rfl | rfl | rfl | rfl | rfl | rfl | rfl | rfl | rfl
    all_goals exact ⟨rfl, nofun⟩

/-- What takes the place of an access grows the listing before the access goes. -/
theorem madeOf_dispatch {P : Insn → Prop} {arrange : List Insn} {onBoolean onByte : Insn}
    (hl : l.MadeOf P) (hr : r ∈ l.refs)
    (hcode : ∀ a b, ∀ j ∈ dispatchCode arrange onBoolean onByte a b, P j)
    (h : dispatch arrange onBoolean onByte l r = (l', .ok resume)) :
    ∃ l₁ : Listing, l₁.MadeOf P ∧ l.insns.Sublist l₁.insns ∧ l₁.insn? r = l.insn? r ∧
    l' = l₁.remove r := by
  have hr' : r ∈ l.newLabel.2.newLabel.2.refs := (refs_newLabels l 2).symm ▸ hr
  have hinsns : l.newLabel.2.newLabel.2.insns = l.insns := insns_newLabels l 2
  have hinsn : l.newLabel.2.newLabel.2.insn? r = l.insn? r := insn?_newLabels l 2 r
  obtain ⟨hmade, hkeeps, hsub⟩ := hl.newLabel.newLabel.insertAllAfter hr' (hcode _ _)
  rw [hinsns] at hsub
  exact ⟨_, hmade, hsub, (hkeeps r hr').2.trans hinsn, (Prod.mk.inj h).1.symm⟩

/-- Walking backwards is defined, and stays in the sequence. -/
theorem gives_backToTarget (hl : l.Regular) (boundary : Boundary) (target : Int) {fuel : Nat}
    (hr : r ∈ l.refs) (total : Int) :
    (l.backToTarget boundary target fuel r total).Gives fun o => ∀ q, o = some q → q ∈ l.refs := by
  induction fuel generalizing r total with
  | zero => exact fun q hq => Option.some.inj hq ▸ hr
  | succ fuel ih =>
    refine (hl.fetch hr).bind fun i _ hi => hi.printable.change.bind fun change _ _ => ?_
    split
    · exact fun q hq => by cases hq
    · next t ht =>
      have ht : t ∈ l.refs := by
        obtain ⟨xs, ys, hs⟩ := List.append_of_mem hr
        have hspells : l.Spells (xs ++ r :: ys) := hs ▸ hl.wellFormed.spells
        rw [hspells.prev_eq] at ht
        rw [hs]
        exact List.mem_append_left _ (List.mem_of_getLast? ht)
      exact .ite (fun _ q hq => Option.some.inj hq ▸ ht) fun _ => ih ht _

theorem mem_refs_overLabels (hl : l.WellFormed) {fuel : Nat} (hr : r ∈ l.refs) :
    l.overLabels fuel r ∈ l.refs := by
  induction fuel generalizing r with
  | zero => exact hr
  | succ fuel ih =>
    rw [overLabels]
    split
    · next t ht =>
      split
      · exact ih (hl.mem_refs_of_next hr ht)
      · exact hr
    · exact hr

theorem gives_changesBy (hl : l.Regular) (stop : Ref) (target : Int) {fuel : Nat}
    {start : Option Ref} (hstart : ∀ r, start = some r → r ∈ l.refs) (total : Int) :
    (changesBy l stop target fuel start total).Gives fun _ => True := by
  induction fuel generalizing start total with
  | zero => cases start <;> trivial
  | succ fuel ih =>
    cases start with
    | none => trivial
    | some r =>
      refine (hl.fetch (hstart r rfl)).bind fun i _ hi => hi.printable.change.bind fun _ _ _ => ?_
      exact .ite (fun _ => trivial) fun _ =>
        ih (fun q hq => hl.wellFormed.mem_refs_of_next (hstart r rfl) hq) _

/-- Looking for what pushed an array is defined, and answers a node of the sequence. -/
theorem gives_producer? (hl : l.Regular) (boundary : Boundary) (hr : r ∈ l.refs) :
    (producer? boundary l r).Gives fun o => ∀ q, o = some q → q ∈ l.refs := by
  have hback : (l.backUntil boundary r (-1) false).Gives fun o => ∀ q, o = some q → q ∈ l.refs := by
    refine (gives_backToTarget hl boundary (-1) hr 0).bind fun o _ ho => ?_
    intro q hq
    obtain ⟨t, ht, rfl⟩ := Option.map_eq_some_iff.mp hq
    exact mem_refs_overLabels hl.wellFormed (ho t ht)
  refine hback.bind fun o _ ho => ?_
  cases o with
  | none => exact fun q hq => by cases hq
  | some t =>
    have ht := ho t rfl
    refine (gives_changesBy hl r (-1) (fun q hq => hl.wellFormed.mem_refs_of_next ht hq) 0).bind
      fun found _ _ => .ite (fun _ q hq => ?_) fun _ q hq => by cases hq
    exact Option.some.inj hq ▸ ht

/-- A cast grows the listing, if there is one. -/
theorem madeOf_narrow {P : Insn → Prop} {boundary : Boundary} {desc : Text} (hl : l.Regular)
    (hP : l.MadeOf P) (hcast : P ⟨.checkCast, .type desc⟩) (hr : r ∈ l.refs)
    (h : narrow boundary desc l r = (l', .ok resume)) :
    l'.MadeOf P ∧ l.insns.Sublist l'.insns := by
  unfold narrow at h
  split at h
  · cases h
  · obtain ⟨rfl, -⟩ := Prod.mk.inj h
    exact ⟨hP, .refl _⟩
  · next q hq =>
    dsimp only at h
    split at h
    · obtain ⟨rfl, -⟩ := Prod.mk.inj h
      exact ⟨hP, .refl _⟩
    · obtain ⟨rfl, -⟩ := Prod.mk.inj h
      obtain ⟨hmade, -, -, hsub⟩ :=
        hP.insertAfter ((gives_producer? hl boundary hr).result hq q rfl) hcast
      exact ⟨hmade, hsub⟩

end Enhance

open Enhance

/-- What a standard rule does where it applies: a choice takes the place of a byte access, or the
array that is stored to is cast. -/
theorem Chain.standard_cases {rule : Rule} (hrule : rule ∈ Chain.standard) (ctx : Context)
    {l : Listing} {r : Ref} {i : Insn} (hi : l.insn? r = some i)
    (happlies : rule.applies i = true) :
    (∃ arrange onBoolean onByte,
        rule.replace ctx l r = dispatch arrange onBoolean onByte l r ∧ i.placed? = none ∧
        ∀ p a b, ∀ j ∈ dispatchCode arrange onBoolean onByte a b,
          j.Encodable p ∧ j.operand.shape ≠ .localVariable) ∨
      ∃ desc, rule.replace ctx l r = narrow ctx.boundary desc l r := by
  have hplain : ∀ (p : Pool) (ops : List Opcode),
      (∀ op ∈ ops, op.isValid = true ∧ op.shape = .plain ∧ op ≠ .wide) →
      ∀ i ∈ ops.map Insn.plain, i.Encodable p ∧ i.operand = .none := by
    intro p ops hops i hi
    obtain ⟨op, hop, rfl⟩ := List.mem_map.mp hi
    exact ⟨.inl (hops op hop), rfl⟩
  simp only [Chain.standard, List.mem_cons, List.not_mem_nil, or_false] at hrule
  -- stores are arranged for the test by five instructions, loads by two
  rcases hrule with rfl | rfl
  · dsimp only [Rule.arrayStore]
    rw [hi]
    dsimp only
    split
    · next hop =>
      refine .inl ⟨_, _, _, rfl, Insn.placed?_of_ne_label (by rw [hop]; decide),
        fun p a b j hj => ?_⟩
      exact encodable_dispatchCode (hplain p [.dupX2, .pop, .dupX2, .pop, .dupX2] (by decide))
        ⟨_, _, rfl⟩ ⟨_, _, rfl⟩ hj
    · exact .inr ⟨_, rfl⟩
  · have hop : i.opcode = .baload := of_decide_eq_true happlies
    dsimp only [Rule.arrayLoad]
    refine .inl ⟨_, _, _, rfl, Insn.placed?_of_ne_label (by rw [hop]; decide), fun p a b j hj => ?_⟩
    exact encodable_dispatchCode (hplain p [.swap, .dupX1] (by decide)) ⟨_, _, rfl⟩ ⟨_, _, rfl⟩ hj

/-- The standard rules keep a listing writable. -/
theorem Chain.standard_keeps (p : Pool) :
    ∀ rule ∈ Chain.standard, rule.Keeps (Listing.Faithful p) := by
  intro rule hrule ctx l r i l' resume hl hr hi happlies h
  have hself : l.MadeOf fun j =>
      j ∈ l.insns ∨ j.Encodable p ∧ j.operand.shape ≠ .localVariable :=
    ⟨hl.wellFormed, fun j hj => .inl hj⟩
  rcases Chain.standard_cases hrule ctx hi happlies with
    ⟨arrange, onBoolean, onByte, hreplace, hplaced, hcode⟩ | ⟨desc, hreplace⟩
  · rw [hreplace] at h
    obtain ⟨l₁, hmade, hsub, hinsn, rfl⟩ :=
      madeOf_dispatch hself hr (fun a b j hj => .inr (hcode p a b j hj)) h
    exact (hl.extend hsub hmade).remove (hinsn.trans hi) hplaced
  · obtain ⟨hmade, hsub⟩ :=
      madeOf_narrow hl.regular hself (.inr ⟨rfl, nofun⟩) hr (hreplace ▸ h)
    exact hl.extend hsub hmade

/-- The standard rules keep instructions regular. -/
theorem Chain.standard_keeps_regular : ∀ rule ∈ Chain.standard, rule.Keeps Listing.Regular := by
  intro rule hrule ctx l r i l' resume hl hr hi happlies h
  rcases Chain.standard_cases hrule ctx hi happlies with
    ⟨arrange, onBoolean, onByte, hreplace, -, hcode⟩ | ⟨desc, hreplace⟩
  · rw [hreplace] at h
    obtain ⟨l₁, hmade, -, -, rfl⟩ :=
      madeOf_dispatch hl hr (fun a b j hj => (hcode .empty a b j hj).1.regular) h
    exact hmade.remove r
  · have hcast : (⟨.checkCast, .type desc⟩ : Insn).Encodable .empty := rfl
    exact (madeOf_narrow hl hl hcast.regular hr (hreplace ▸ h)).1

/-! ### Woven code -/

namespace Generator

open Listing

variable {p : Pool} {g : Generator} {body : Listing} {H : Heights} {slots : List Slot}
variable {count left : Nat} {i : Insn}

theorem encodable_plain {op : Opcode} (h : op.isValid = true ∧ op.shape = .plain ∧ op ≠ .wide) :
    (Insn.plain op).Encodable p := .inl h

theorem encodable_zero (family : Family) : (zero family).Encodable p := by
  cases family <;> exact encodable_plain (by decide)

theorem encodable_push (v : Int32) : (push v).Encodable p := by
  unfold push
  simp only [Bool.and_eq_true, decide_eq_true_eq, Int32.le_iff_toInt_le]
  split
  · next h =>
    obtain ⟨hlow, hhigh⟩ : -1 ≤ v.toInt ∧ v.toInt ≤ 5 := h
    refine encodable_plain ?_
    generalize v.toInt = z at hlow hhigh
    obtain rfl | rfl | rfl | rfl | rfl | rfl | rfl :
        z = -1 ∨ z = 0 ∨ z = 1 ∨ z = 2 ∨ z = 3 ∨ z = 4 ∨ z = 5 := by omega
    all_goals decide
  · split
    · next h => exact .inl ⟨rfl, h⟩
    · split
      · next h => exact .inr (.inl ⟨rfl, h⟩)
      · exact ⟨rfl, fun n hn => nomatch hn⟩

theorem encodable_table {targets : List Label} (h : targets ≠ []) (dflt : Label) :
    (Insn.table 1 dflt targets).Encodable p := by
  rw [table_one]
  refine ⟨rfl, fun hlt => ?_⟩
  have hpos : 0 < targets.length := List.length_pos_iff.mpr h
  have hlength : (Int32.ofNat targets.length).toInt = targets.length :=
    Int32.toInt_ofNat_of_lt (by omega)
  have hone : (1 : Int32).toInt = 1 := by decide
  rw [hlength, hone]
  omega

theorem indexed_load (s : Slot) : s.load.isIndexedLocal = true := by
  rw [Slot.load, Descriptor.loadOpcode]
  cases Family.ofDescriptor s.desc <;> decide

theorem indexed_store (s : Slot) : s.store.isIndexedLocal = true := by
  rw [Slot.store, Descriptor.storeOpcode]
  cases Family.ofDescriptor s.desc <;> decide

/-- An entry that weaving adds. -/
def Added (p : Pool) (i : Insn) : Prop := i.Encodable p ∧ i.operand.shape ≠ .localVariable

theorem added_head (hi : i ∈ g.head slots (startLabel body) (resumeLabels body count)) :
    Added p i := by
  simp only [head, resumption, List.mem_append, List.mem_flatMap, List.mem_singleton] at hi
  rcases hi with (⟨s, -, hi⟩ | hi) | rfl
  · simp only [clear, List.mem_cons, List.not_mem_nil, or_false] at hi
    rcases hi with rfl | rfl
    · refine ⟨encodable_zero _, ?_⟩
      cases Family.ofDescriptor s.desc <;> exact of_decide_eq_true rfl
    · exact ⟨.inl (indexed_store s), of_decide_eq_true rfl⟩
  · split at hi
    · cases hi
    · next hne =>
      simp only [List.mem_cons, List.not_mem_nil, or_false] at hi
      rcases hi with rfl | rfl | rfl
      · exact ⟨.inl (by decide), of_decide_eq_true rfl⟩
      · exact ⟨rfl, of_decide_eq_true rfl⟩
      · exact ⟨encodable_table (fun hnil => hne (List.isEmpty_iff.mpr hnil)) _,
          of_decide_eq_true rfl⟩
  · exact ⟨rfl, of_decide_eq_true rfl⟩

theorem added_suspension {resume : Label} (hi : i ∈ g.suspension slots left resume) :
    Added p i := by
  have haload : Added p (.load .aload 0) := ⟨.inl (by decide), of_decide_eq_true rfl⟩
  simp only [suspension, List.mem_append, List.mem_flatMap, List.mem_cons, List.not_mem_nil,
    or_false] at hi
  rcases hi with (⟨s, -, hi⟩ | hi) | ⟨s, -, hi⟩
  · simp only [save, List.mem_cons, List.not_mem_nil, or_false] at hi
    rcases hi with rfl | rfl | rfl
    · exact haload
    · exact ⟨.inl (indexed_load s), of_decide_eq_true rfl⟩
    · exact ⟨rfl, of_decide_eq_true rfl⟩
  · rcases hi with rfl | rfl | rfl | rfl | rfl | rfl
    · exact haload
    · refine ⟨encodable_push _, ?_⟩
      unfold push
      split
      · exact of_decide_eq_true rfl
      · split
        · exact of_decide_eq_true rfl
        · split <;> exact of_decide_eq_true rfl
    · exact ⟨rfl, of_decide_eq_true rfl⟩
    · exact ⟨encodable_plain (by decide), of_decide_eq_true rfl⟩
    · exact ⟨encodable_plain (by decide), of_decide_eq_true rfl⟩
    · exact ⟨rfl, of_decide_eq_true rfl⟩
  · simp only [restore, List.mem_cons, List.not_mem_nil, or_false] at hi
    rcases hi with rfl | rfl | rfl
    · exact haload
    · exact ⟨rfl, of_decide_eq_true rfl⟩
    · exact ⟨.inl (indexed_store s), of_decide_eq_true rfl⟩

theorem added_spliceAt {r : Ref} (hi : i ∈ g.spliceAt body H slots left r) : Added p i := by
  unfold spliceAt at hi
  split at hi
  · exact added_suspension hi
  · simp only [termination, List.mem_cons, List.not_mem_nil, or_false] at hi
    rcases hi with rfl | rfl <;> exact ⟨encodable_plain (by decide), of_decide_eq_true rfl⟩
  · cases hi

/-- Woven nodes are those of the body in order, and entries between them. -/
theorem wovenNodes_spec (g : Generator) (body : Listing) (H : Heights) (slots : List Slot)
    (left : Nat) (rs : List Ref) :
    (rs.filterMap body.insn?).Sublist (g.wovenNodes body H slots left rs) ∧
      ∀ i ∈ g.wovenNodes body H slots left rs, i ∈ rs.filterMap body.insn? ∨ Added p i := by
  induction rs generalizing left with
  | nil => exact ⟨.slnil, fun i hi => nomatch hi⟩
  | cons r rs ih =>
    obtain ⟨hsub, hmem⟩ := ih (if g.suspendsAt body H r then left - 1 else left)
    have hcons : (r :: rs).filterMap body.insn? =
        (body.insn? r).toList ++ rs.filterMap body.insn? := by
      cases hr : body.insn? r with
      | none => rw [List.filterMap_cons_none hr]; rfl
      | some i => rw [List.filterMap_cons_some hr]; rfl
    rw [hcons, wovenNodes]
    refine ⟨(List.sublist_append_left ..).append hsub, fun i hi => ?_⟩
    rcases List.mem_append.mp hi with hi | hi
    · rcases List.mem_append.mp hi with hi | hi
      · exact .inl (List.mem_append_left _ hi)
      · exact .inr (added_spliceAt hi)
    · exact (hmem i hi).imp_left fun hi => List.mem_append_right _ hi

/-- The woven text of a body adds entries that can be written. -/
theorem madeOf_wovenText {P : Insn → Prop} (hbody : body.MadeOf P) (hadded : ∀ i, Added p i → P i)
    (l : Listing) : (l.fork.appendAll (g.wovenText body H slots count)).MadeOf P ∧
      body.insns.Sublist (l.fork.appendAll (g.wovenText body H slots count)).insns := by
  obtain ⟨hsub, hmem⟩ := @wovenNodes_spec p g body H slots count body.refs
  have hwhole : body.insns.Sublist (g.wovenText body H slots count) :=
    hsub.trans (List.sublist_append_right ..)
  refine ⟨⟨(WellFormed.fork l).appendAll _, ?_⟩, ?_⟩
  all_goals rw [insns_fork_appendAll]
  · intro i hi
    rcases List.mem_append.mp hi with hi | hi
    · exact hadded i (added_head hi)
    · exact (hmem i hi).elim (hbody.entries i) (hadded i)
  · exact hwhole

section Build

variable {settings : Settings} {method desc : Text} {states : States} {out : Listing × List Ref}

/-- What is built from a body of regular instructions is the woven text. -/
theorem eq_wovenText_of_build (hbody : body.Regular)
    (hd : discover settings body method desc = .ok states)
    (h : (g.build body states).woven = .ok out) : ∃ (l : Listing) (H : Heights), out.1 =
      l.fork.appendAll (g.wovenText body H states.slots (body.yieldCount settings)) := by
  obtain ⟨H, hH, hassemble⟩ := build_eq_ok h
  obtain ⟨hfresh, hleft⟩ := fresh_of_discover hd
  have hflow := Listing.flowHeights_heights hbody.wellFormed
    (fun i hi => (hbody.entries i hi).wellShaped) hH
  rw [hassemble] at h
  obtain ⟨hwoven, -, -⟩ := woven_assemble hbody.wellFormed hflow hfresh hleft h
  exact ⟨_, _, hwoven⟩

/-- What is built from a body can be written if the body can. -/
theorem faithful_build (hbody : body.Faithful p)
    (hd : discover settings body method desc = .ok states)
    (h : (g.build body states).woven = .ok out) : out.1.Faithful p := by
  obtain ⟨l, H, hout⟩ := eq_wovenText_of_build hbody.regular hd h
  have hself : body.MadeOf fun i => i ∈ body.insns ∨ Added p i :=
    ⟨hbody.wellFormed, fun i hi => .inl hi⟩
  obtain ⟨hmade, hsub⟩ := madeOf_wovenText hself (fun i hi => .inr hi) l
  rw [hout]
  exact hbody.extend hsub hmade

/-- What is built from a body of regular instructions has none but such. -/
theorem regular_build (hbody : body.Regular)
    (hd : discover settings body method desc = .ok states)
    (h : (g.build body states).woven = .ok out) : out.1.Regular := by
  obtain ⟨l, H, hout⟩ := eq_wovenText_of_build hbody hd h
  rw [hout]
  exact (madeOf_wovenText hbody (fun i (hi : Added .empty i) => hi.1.regular) l).1

end Build

end Generator

/-- The rules that are to run keep a listing writable. -/
def Settings.Faithful (p : Pool) (settings : Settings) : Prop :=
  ∀ rules, settings.enhancers = some rules → ∀ rule ∈ rules, rule.Keeps (Listing.Faithful p)

section Weaving

variable {p : Pool} {settings : Settings}

theorem Settings.Faithful.chain (h : settings.Faithful p) :
    ∀ rule ∈ settings.chain, rule.Keeps (Listing.Faithful p) := by
  unfold Settings.chain
  cases hrules : settings.enhancers with
  | none => exact Chain.standard_keeps p
  | some rules => exact h rules hrules

/-- The woven code of a body has what its rules keep of what is built from the body. -/
theorem wovenCode_keeps {P : Listing → Prop} {owner : Text} {m : Method} {body code : Listing}
    {states : States} {heights : Heights} (hP : ∀ l, P l → l.WellFormed)
    (hchain : ∀ rule ∈ settings.chain, rule.Keeps P)
    (hbuild : ∀ (g : Generator) out, (g.build body states).woven = .ok out → P out.1)
    (h : wovenCode settings owner m body states = .ok (code, heights)) : P code := by
  unfold wovenCode at h
  split at h
  · cases h
  · next g hg =>
    obtain ⟨⟨built, resumes⟩, hbuilt, h⟩ := Except.bind_eq_ok_iff.mp h
    dsimp only at h
    split at h
    · cases h
    · next l hrun =>
      have hl := Chain.run_keeps hP hchain (hbuild g _ hbuilt) hrun
      obtain ⟨H', -, h⟩ := Except.bind_eq_ok_iff.mp h
      obtain ⟨rfl, -⟩ := Prod.mk.inj (Except.ok.inj h)
      exact hl

theorem faithful_weaveMethod {c : ClassFile} {m m' : Method} {w : Woven}
    (hsettings : settings.Faithful p) (hm : m.Faithful p)
    (h : weaveMethod settings c m = .ok (w, m')) : m'.Faithful p := by
  obtain ⟨body, states, hgenerates, -, -, -, hcases⟩ := weaveMethod_cases h
  rcases hcases with ⟨-, rfl⟩ | ⟨code, heights, maxStack, hreplaces, rfl⟩
  · exact hm
  · refine ⟨fun l hl => ?_, fun a ha => (nomatch ha), fun hnone => (nomatch hnone), hm.plain⟩
    obtain rfl := Option.some.inj hl
    exact wovenCode_keeps (fun l hl => hl.wellFormed) hsettings.chain
      (fun g out => Generator.faithful_build (hm.code body hgenerates.code) hgenerates.discovered)
      hreplaces.code

namespace ClassFile

variable {c c' : ClassFile}

/-- The methods of a class after one was woven: those it had, or what became of that one. -/
theorem mem_methods_of_weave {n : Nat} {out : Outcome Woven}
    (h : (weave settings n).on c = (out, c')) {k : Method} (hk : k ∈ c'.methods) :
    k ∈ c.methods ∨ ∃ m ∈ c.methods, ∃ w, weaveMethod settings c m = .ok (w, k) := by
  rcases weave_changes h with ⟨rfl, -⟩ | ⟨w, m, m', added, -, -, hm, hw, -, -, rfl⟩
  · exact .inl hk
  · rcases List.mem_or_eq_of_mem_set hk with hk | rfl
    · exact .inl hk
    · exact .inr ⟨m, List.mem_of_getElem? hm, w, hw⟩

theorem Faithful.weave (hc : c.Faithful p) (hsettings : settings.Faithful p) {n : Nat}
    {out : Outcome Woven} (h : (weave settings n).on c = (out, c')) : c'.Faithful p := by
  have hmethods : ∀ k ∈ c'.methods, k.Faithful p := by
    intro k hk
    rcases mem_methods_of_weave h hk with hk | ⟨m, hm, w, hw⟩
    · exact hc.methods k hk
    · exact faithful_weaveMethod hsettings (hc.methods m hm) hw
  rcases weave_changes h with ⟨rfl, -⟩ | ⟨w, m, m', added, -, -, -, -, hsub, -, rfl⟩
  · exact hc
  · refine ⟨hc.pool, ?_, fun f hf => ?_, hmethods, hc.attributes⟩
    · dsimp only
      split
      · rfl
      · exact hc.version
    · rcases List.mem_append.mp hf with hf | hf
      · exact hc.fields f hf
      · rw [Woven.attributes_of_mem_fields (hsub.subset hf)]
        exact fun a ha => nomatch ha

theorem Faithful.weaveAll {plan : Plan} (hsettings : plan.settings.Faithful p)
    {ns : List (Nat × Method)} {report report' : Report} (hc : c.Faithful p)
    (h : weaveAll plan ns report c = (report', .ok c')) : c'.Faithful p := by
  induction ns generalizing report c with
  | nil =>
    obtain ⟨-, hok⟩ := Prod.mk.inj h
    exact Except.ok.inj hok ▸ hc
  | cons k ns ih =>
    rw [ClassFile.weaveAll] at h
    split at h
    · next w c₁ hw => exact ih (hc.weave hsettings hw) h
    · cases h
    · next f c₁ hw =>
      split at h
      · cases h
      · exact ih (hc.weave hsettings hw) h

theorem Faithful.transform {plan : Plan} (hsettings : plan.settings.Faithful p)
    {report : Option Report} (hc : c.Faithful p) (h : c.transform plan = (report, .ok c')) :
    c'.Faithful p := by
  unfold ClassFile.transform at h
  split at h
  · cases h
  · obtain ⟨-, hok⟩ := Prod.mk.inj h
    exact hc.weaveAll hsettings (Prod.ext rfl hok)

/-- Where one method is selected, the class becomes what it does when that one is woven. -/
theorem transform_single {plan : Plan} {n : Nat} {m : Method} {w : Woven}
    (hnew : c.isWoven plan.settings = false) (hselection : c.selection plan = [(n, m)])
    (h : (weave plan.settings n).on c = (.ok w, c')) :
    c.transform plan = (some (Report.addWoven {} w), .ok c') := by
  rw [ClassFile.transform, if_neg (by rw [hnew]; decide), hselection, ClassFile.weaveAll, h]
  rfl

end ClassFile

end Weaving

end ClassWeaver
