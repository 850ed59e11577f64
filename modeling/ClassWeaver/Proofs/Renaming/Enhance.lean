import Mathlib.Data.List.Find
import ClassWeaver.Enhance.Arrays
import ClassWeaver.Proofs.Enhance.Scanning
import ClassWeaver.Proofs.Renaming.Listing

/-!
# Rules do not look at label numbers

A rule is equivariant (`Rule.Equivariant`) if it matches instructions whatever their labels are and
does the same to listings that are renamed. Backward scans sum stack changes and compare nodes, and
a choice at run time jumps to labels that it asks the listing for, so both rules for arrays are
equivariant. So is every scan with equivariant rules: it comes to an end for both listings or for
neither (`Chain.run_sameEdit`). -/

namespace ClassWeaver

open Enhance

variable {σ : Equiv.Perm Label} {l l' : Listing}

namespace Listing.Renamed

variable (h : Renamed σ l l')

include h

/-! ### Backward scans -/

theorem isBarrier_eq (boundary : Ref → Bool) (r : Ref) :
    l'.isBarrier boundary r = l.isBarrier boundary r := by
  unfold isBarrier
  rw [h.insn?_eq]
  cases l.insn? r <;> rfl

theorem isLabelEntry_eq (r : Ref) : l'.isLabelEntry r = l.isLabelEntry r := by
  unfold isLabelEntry
  rw [h.insn?_eq]
  cases l.insn? r <;> rfl

theorem overLabels_eq (fuel : Nat) (r : Ref) : l'.overLabels fuel r = l.overLabels fuel r := by
  induction fuel generalizing r with
  | zero => rfl
  | succ fuel ih =>
    rw [overLabels, overLabels, h.next_eq]
    cases l.next (some r) with
    | none => rfl
    | some q =>
      dsimp only
      rw [h.isLabelEntry_eq, ih]

theorem backToTarget_agree (boundary : Ref → Bool) (target : Int) (fuel : Nat) (r : Ref)
    (total : Int) :
    Outcome.Agree (· = ·) (l.backToTarget boundary target fuel r total)
      (l'.backToTarget boundary target fuel r total) := by
  induction fuel generalizing r total with
  | zero => exact rfl
  | succ fuel ih =>
    refine (h.fetch_agree r).bind ?_
    rintro i _ rfl
    refine (Insn.change_agree σ i).bind ?_
    rintro change _ rfl
    rw [h.prev_eq]
    cases l.prev (some r) with
    | none => exact rfl
    | some q =>
      dsimp only
      rw [h.isBarrier_eq]
      exact .ite Iff.rfl (fun _ => rfl) fun _ => ih q _

theorem backOverNeutral_agree (boundary : Ref → Bool) (fuel : Nat) (r : Option Ref) :
    Outcome.Agree (· = ·) (l.backOverNeutral boundary fuel r)
      (l'.backOverNeutral boundary fuel r) := by
  induction fuel generalizing r with
  | zero => exact rfl
  | succ fuel ih =>
    cases r with
    | none => exact rfl
    | some r =>
      rw [backOverNeutral, backOverNeutral, h.isBarrier_eq, h.prev_eq]
      refine .ite Iff.rfl (fun _ => rfl) fun _ => (h.fetch_agree r).bind ?_
      rintro i _ rfl
      refine (Insn.change_agree σ i).bind ?_
      rintro change _ rfl
      exact .ite Iff.rfl (fun _ => ih _) fun _ => rfl

theorem backUntil_agree (boundary : Ref → Bool) (start : Ref) (target : Int)
    (followNeutral : Bool) :
    Outcome.Agree (· = ·) (l.backUntil boundary start target followNeutral)
      (l'.backUntil boundary start target followNeutral) := by
  unfold backUntil
  rw [h.size_nodes]
  refine (h.backToTarget_agree boundary target _ start 0).bind ?_
  rintro found _ rfl
  have hover (found : Option Ref) : found.map (l.overLabels (l.nodes.size + 1)) =
      found.map (l'.overLabels (l.nodes.size + 1)) :=
    congrArg (found.map ·) (funext fun r => (h.overLabels_eq _ r).symm)
  refine .ite Iff.rfl (fun _ => ?_) fun _ => hover found
  refine (h.backOverNeutral_agree boundary _ found).bind ?_
  rintro found _ rfl
  exact hover found

theorem changesBy_agree (stop : Ref) (target : Int) (fuel : Nat) (r : Option Ref) (total : Int) :
    Outcome.Agree (· = ·) (changesBy l stop target fuel r total)
      (changesBy l' stop target fuel r total) := by
  induction fuel generalizing r total with
  | zero => exact rfl
  | succ fuel ih =>
    cases r with
    | none => exact rfl
    | some r =>
      rw [changesBy, changesBy, h.next_eq]
      refine (h.fetch_agree r).bind ?_
      rintro i _ rfl
      refine (Insn.change_agree σ i).bind ?_
      rintro change _ rfl
      exact .ite Iff.rfl (fun _ => rfl) fun _ => ih _ _

theorem producer?_agree (boundary : Boundary) (r : Ref) :
    Outcome.Agree (· = ·) (producer? boundary l r) (producer? boundary l' r) := by
  refine (h.backUntil_agree boundary r (-1) false).bind ?_
  rintro p _ rfl
  cases p with
  | none => exact rfl
  | some p =>
    dsimp only
    rw [h.size_nodes, h.next_eq]
    refine (h.changesBy_agree r (-1) _ _ 0).bind ?_
    rintro b _ rfl
    exact .ite Iff.rfl (fun _ => rfl) fun _ => rfl

end Listing.Renamed

/-! ### Rules -/

/-- What a rule may look at, with the labels of the states renamed. -/
def Context.mapLabels (f : Label → Label) (ctx : Context) : Context :=
  { ctx with states := ctx.states.mapLabels f }

/-- The same happened to two listings: they are renamed, and the results agree. -/
def Listing.SameEdit {α : Type} (σ : Equiv.Perm Label) (x y : Listing × Outcome α) : Prop :=
  Listing.Renamed σ x.1 y.1 ∧ Outcome.Agree (· = ·) x.2 y.2

/-- A rule that does the same whatever the numbers of labels are. -/
structure Rule.Equivariant (rule : Rule) : Prop where
  applies : ∀ (f : Label → Label) (i : Insn), rule.applies (i.mapLabels f) = rule.applies i
  replace : ∀ {σ : Equiv.Perm Label} {l l' : Listing}, Listing.Renamed σ l l' →
    ∀ (ctx : Context) (r : Ref),
      Listing.SameEdit σ (rule.replace ctx l r) (rule.replace (ctx.mapLabels σ) l' r)

namespace Enhance

theorem mapLabels_dispatchCode {arrange : List Insn} {onBoolean onByte : Insn} (f : Label → Label)
    (harrange : arrange.map (Insn.mapLabels f) = arrange)
    (hboolean : onBoolean.mapLabels f = onBoolean) (hbyte : onByte.mapLabels f = onByte)
    (byteLabel join : Label) :
    (dispatchCode arrange onBoolean onByte byteLabel join).map (Insn.mapLabels f) =
      dispatchCode arrange onBoolean onByte (f byteLabel) (f join) := by
  rw [dispatchCode, List.map_append, harrange]
  simp only [List.map_cons, hboolean, hbyte]
  rfl

/-- A choice at run time asks both listings for the same labels. -/
theorem dispatch_sameEdit {arrange : List Insn} {onBoolean onByte : Insn}
    (h : Listing.Renamed σ l l') (harrange : arrange.map (Insn.mapLabels σ) = arrange)
    (hboolean : onBoolean.mapLabels σ = onBoolean) (hbyte : onByte.mapLabels σ = onByte)
    (r : Ref) :
    Listing.SameEdit σ (dispatch arrange onBoolean onByte l r)
      (dispatch arrange onBoolean onByte l' r) := by
  have hcode := mapLabels_dispatchCode σ harrange hboolean hbyte l.newLabel.1
    l.newLabel.2.newLabel.1
  -- both new labels keep their numbers, so the code is its own new name
  obtain ⟨hlast, hspliced⟩ := h.newLabel.newLabel.insertAllAfter (some r)
    (dispatchCode arrange onBoolean onByte l.newLabel.1 l.newLabel.2.newLabel.1)
  rw [hcode, h.newLabel_fst.2, h.newLabel.newLabel_fst.2] at hlast hspliced
  unfold dispatch
  dsimp only
  rw [h.newLabel_fst.1, h.newLabel.newLabel_fst.1]
  exact ⟨hspliced.remove r, hlast.symm⟩

theorem narrow_sameEdit (h : Listing.Renamed σ l l') (boundary : Boundary) (desc : Text) (r : Ref) :
    Listing.SameEdit σ (narrow boundary desc l r) (narrow boundary desc l' r) := by
  have hproducer := h.producer?_agree boundary r
  unfold narrow
  cases hp : producer? boundary l r with
  | error e =>
    rw [hp] at hproducer
    obtain ⟨e', hp', he⟩ := hproducer.error
    rw [hp']
    exact ⟨h, he⟩
  | ok p =>
    obtain ⟨_, hp', rfl⟩ := hproducer.eq_ok hp
    rw [hp']
    cases p with
    | none => exact ⟨h, rfl⟩
    | some p =>
      dsimp only
      -- a cast has no labels, so it is there under its own name or not at all
      have hcast : l'.insn? p = some ⟨.checkCast, .type desc⟩ ↔
          l.insn? p = some ⟨.checkCast, .type desc⟩ := by
        rw [h.insn?_eq]
        exact (Option.map_injective (Insn.mapLabels_injective σ)).eq_iff' rfl
      by_cases hthere : l.insn? p = some ⟨.checkCast, .type desc⟩
      · rw [if_pos hthere, if_pos (hcast.mpr hthere)]
        exact ⟨h, rfl⟩
      · rw [if_neg hthere, if_neg (mt hcast.mp hthere)]
        exact ⟨(h.insertAfter (some p) ⟨.checkCast, .type desc⟩).2, rfl⟩

end Enhance

theorem Rule.equivariant_arrayStore : Rule.arrayStore.Equivariant where
  applies _ _ := rfl
  replace {σ l l'} h ctx r := by
    unfold Rule.arrayStore
    dsimp only
    rw [h.insn?_eq]
    cases l.insn? r with
    | none => exact ⟨h, .undefined⟩
    | some i =>
      dsimp only [Option.map_some]
      rw [Insn.opcode_mapLabels]
      by_cases hop : i.opcode = .bastore
      · rw [if_pos hop, if_pos hop]
        exact dispatch_sameEdit h rfl rfl rfl r
      · rw [if_neg hop, if_neg hop]
        exact narrow_sameEdit h ctx.boundary _ r

theorem Rule.equivariant_arrayLoad : Rule.arrayLoad.Equivariant where
  applies _ _ := rfl
  replace h _ r := by
    unfold Rule.arrayLoad
    dsimp only
    exact dispatch_sameEdit h rfl rfl rfl r

/-! ### Scans -/

namespace Chain

/-- If visits keep listings related and answer the same, scans of related listings come to related
ends, or neither comes to one in time. -/
theorem scan_related {chain : Chain} {ctx ctx' : Context} {R : Listing → Listing → Prop}
    (hnext : ∀ l l', R l l' → ∀ r, l'.next r = l.next r)
    (hvisit : ∀ l l' r, R l l' → R (chain.visit ctx l r).1 (chain.visit ctx' l' r).1 ∧
      Outcome.Agree (· = ·) (chain.visit ctx l r).2 (chain.visit ctx' l' r).2)
    (visits : Nat) (next : Option Ref) (h : R l l') :
    Option.Rel (fun out out' => R out.1 out'.1 ∧ Outcome.Agree (· = ·) out.2 out'.2)
      (chain.scan ctx visits next l) (chain.scan ctx' visits next l') := by
  induction visits generalizing next l l' with
  | zero =>
    cases next with
    | none =>
      rw [scan_none, scan_none]
      exact .some ⟨h, rfl⟩
    | some r =>
      rw [scan_zero, scan_zero]
      exact .none
  | succ visits ih =>
    cases next with
    | none =>
      rw [scan_none, scan_none]
      exact .some ⟨h, rfl⟩
    | some r =>
      obtain ⟨hr, hagree⟩ := hvisit l l' r h
      rw [scan, scan]
      obtain ⟨⟨l₁, answer⟩, hv⟩ : ∃ v, chain.visit ctx l r = v := ⟨_, rfl⟩
      obtain ⟨⟨l₁', answer'⟩, hv'⟩ : ∃ v, chain.visit ctx' l' r = v := ⟨_, rfl⟩
      rw [hv, hv'] at hr hagree ⊢
      cases answer with
      | error e =>
        obtain ⟨e', rfl, he⟩ := hagree.error
        exact .some ⟨hr, he⟩
      | ok resume =>
        obtain ⟨_, rfl, rfl⟩ := hagree.eq_ok rfl
        dsimp only
        rw [hnext _ _ hr]
        exact ih _ hr

variable {chain : Chain} (hchain : ∀ rule ∈ chain, rule.Equivariant)

include hchain

theorem visit_sameEdit (h : Listing.Renamed σ l l') (ctx : Context) (r : Ref) :
    Listing.SameEdit σ (chain.visit ctx l r) (chain.visit (ctx.mapLabels σ) l' r) := by
  unfold visit
  rw [h.insn?_eq]
  cases l.insn? r with
  | none => exact ⟨h, .undefined⟩
  | some i =>
    -- the first rule that matches is the same
    have hfind : chain.find? (·.applies (i.mapLabels σ)) = chain.find? (·.applies i) :=
      List.find?_congr fun rule hrule => (hchain rule hrule).applies σ i
    dsimp only [Option.map_some]
    rw [hfind]
    cases hrule : chain.find? (·.applies i) with
    | none => exact ⟨h, rfl⟩
    | some rule =>
      have hsame := (hchain rule (List.mem_of_find?_eq_some hrule)).replace h ctx r
      dsimp only
      obtain ⟨m, hm⟩ : ∃ m, rule.replace ctx l r = m := ⟨_, rfl⟩
      obtain ⟨m', hm'⟩ : ∃ m', rule.replace (ctx.mapLabels σ) l' r = m' := ⟨_, rfl⟩
      rw [hm, hm'] at hsame ⊢
      obtain ⟨hrenamed, hresult⟩ := hsame
      match m, m' with
      | (m, .error e), (m', .error e') => exact ⟨hrenamed, Failure.Agree.map hresult _ _⟩
      | (m, .ok none), (m', .ok none) => exact ⟨hrenamed, rfl⟩
      | (m, .ok (some resume)), (m', .ok (some resume')) =>
        obtain rfl : resume = resume' := Option.some.inj hresult
        dsimp only
        rw [hrenamed.isLinked_eq]
        by_cases hlinked : m.isLinked resume
        · rw [if_pos hlinked, if_pos hlinked]
          exact ⟨hrenamed, rfl⟩
        · rw [if_neg hlinked, if_neg hlinked]
          exact ⟨hrenamed, Failure.Agree.map (Insn.blame_agree ..) _ _⟩

/-- Scans of listings that are renamed come to ends that are renamed, or to none. -/
theorem run_sameEdit (ctx : Context) (h : Listing.Renamed σ l l') :
    Listing.SameEdit σ (chain.run ctx l) (chain.run (ctx.mapLabels σ) l') := by
  have hrel := scan_related (R := Listing.Renamed σ) (fun _ _ h r => h.next_eq r)
    (fun _ _ r h => visit_sameEdit hchain h ctx r) (patience + l.length) l.first h
  rw [run, run, h.length, h.first]
  generalize chain.scan ctx (patience + l.length) l.first l = o at hrel ⊢
  generalize chain.scan (ctx.mapLabels σ) (patience + l.length) l.first l' = o' at hrel ⊢
  cases hrel with
  | none => exact ⟨h, .undefined⟩
  | some hsame => exact hsame

end Chain

theorem Chain.equivariant_standard : ∀ rule ∈ Chain.standard, rule.Equivariant := by
  simp only [Chain.standard, List.forall_mem_cons]
  exact ⟨Rule.equivariant_arrayStore, Rule.equivariant_arrayLoad, fun _ h => nomatch h⟩

end ClassWeaver
