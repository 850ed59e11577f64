import ClassWeaver.Proofs.Renaming.Listing

/-!
# Heights do not depend on label numbers

The height analysis looks labels up in the label table and compares nodes only. Listings that are
renamed have the same heights, or the analysis fails on both (`Renamed.heights_agree`).
-/

namespace ClassWeaver

/-- The exit to a label under its new name. -/
def Exit.mapLabels (f : Label → Label) : Exit → Exit
  | .branch lbl => .branch (f lbl)
  | .fall => .fall

/-- An instruction leaves to the new names of its labels. -/
theorem Insn.exits_mapLabels (f : Label → Label) (i : Insn) (before after : Nat) :
    (i.mapLabels f).exits before after =
      (i.exits before after).map fun xk => (xk.1.mapLabels f, xk.2) := by
  obtain ⟨op, x⟩ := i
  cases x with
  | jump target =>
    simp only [exits, mapLabels, Operand.mapLabels, List.map_cons, apply_ite (List.map _),
      List.map_nil, Exit.mapLabels]
    rfl
  | tableSwitch low high dflt targets =>
    simp [exits, mapLabels, Operand.mapLabels, Exit.mapLabels]
  | lookupSwitch dflt keys targets =>
    simp [exits, mapLabels, Operand.mapLabels, Exit.mapLabels]
  | _ =>
    simp only [exits, mapLabels, Operand.mapLabels, List.map_cons, apply_ite (List.map _),
      List.map_nil, Exit.mapLabels]
    rfl

namespace Listing.Renamed

open ClassWeaver.Flow

variable {σ : Equiv.Perm Label} {l l' : Listing} {r : Ref} {i : Insn} {s : Flow} {n : Nat}
variable (h : Renamed σ l l')

include h

theorem reach_agree (i : Insn) (target : Option Ref) (n : Nat) (s : Flow) :
    Outcome.Agree (· = ·) (s.reach l i target n) (s.reach l' (i.mapLabels σ) target n) := by
  unfold reach
  cases target with
  | none => exact Insn.blame_agree ..
  | some r =>
    dsimp only
    split
    · refine .ite Iff.rfl (fun _ => rfl) fun _ => ?_
      refine (h.fetch_agree r).bind ?_
      rintro j _ rfl
      exact Insn.blame_agree ..
    · exact rfl

theorem target_agree (i : Insn) (lbl : Label) :
    Outcome.Agree (· = ·) (target l i lbl) (target l' (i.mapLabels σ) (σ lbl)) := by
  unfold target
  rw [h.binding]
  cases l.binding lbl with
  | none => exact Insn.blame_agree ..
  | some r => exact rfl

theorem follow_agree (r : Ref) (i : Insn) (exits : List (Exit × Nat)) (s : Flow) :
    Outcome.Agree (· = ·) (follow l r i exits s)
      (follow l' r (i.mapLabels σ) (exits.map fun xk => (xk.1.mapLabels σ, xk.2)) s) := by
  induction exits generalizing s with
  | nil => exact rfl
  | cons xk rest ih =>
    obtain ⟨x, k⟩ := xk
    cases x with
    | branch lbl =>
      refine (h.target_agree i lbl).bind ?_
      rintro t _ rfl
      refine (h.reach_agree i (some t) k s).bind ?_
      rintro s' _ rfl
      exact ih s'
    | fall =>
      rw [List.map_cons]
      simp only [follow, Exit.mapLabels]
      rw [h.next_eq]
      refine (h.reach_agree i _ k s).bind ?_
      rintro s' _ rfl
      exact ih s'

theorem step_agree (r : Ref) (n : Nat) (s : Flow) :
    Outcome.Agree (· = ·) (step l r n s) (step l' r n s) := by
  refine (h.fetch_agree r).bind ?_
  rintro i _ rfl
  rw [Insn.finalNeed?_mapLabels]
  split
  · exact .ite Iff.rfl (fun _ => Insn.blame_agree ..) fun _ => rfl
  · refine (Insn.effect_agree σ i).bind ?_
    rintro e _ rfl
    refine .ite Iff.rfl (fun _ => Insn.blame_agree ..) fun _ => ?_
    dsimp only
    rw [Insn.exits_mapLabels]
    exact h.follow_agree r i _ _

theorem run_agree (fuel : Nat) (s : Flow) :
    Outcome.Agree (· = ·) (run l fuel s) (run l' fuel s) := by
  induction fuel generalizing s with
  | zero => exact rfl
  | succ fuel ih =>
    unfold run
    cases s.work with
    | nil => exact rfl
    | cons r rest =>
      -- nodes are waiting, not labels: both runs take the same one
      refine (h.step_agree r _ _).bind ?_
      rintro s' _ rfl
      exact ih s'

theorem enterHandlers_agree (is : List Insn) (s : Flow) :
    Outcome.Agree (· = ·) (enterHandlers l is s)
      (enterHandlers l' (is.map (Insn.mapLabels σ)) s) := by
  induction is generalizing s with
  | nil => exact rfl
  | cons i is ih =>
    rw [List.map_cons, enterHandlers, enterHandlers]
    refine .ite Iff.rfl (fun _ => ?_) fun _ => ih s
    obtain ⟨op, x⟩ := i
    cases x with
    | tryCatch start stop handler caught =>
      refine (h.target_agree ⟨op, .tryCatch start stop handler caught⟩ handler).bind ?_
      rintro t _ rfl
      refine (h.reach_agree _ (some t) 1 s).bind ?_
      rintro s' _ rfl
      exact ih s'
    | _ => exact .undefined

/-- Listings that are renamed have the same heights. -/
theorem heights_agree : Outcome.Agree (· = ·) l.heights l'.heights := by
  unfold heights
  rw [h.first, h.size_nodes, h.insns_eq]
  cases l.first with
  | none => exact rfl
  | some head =>
    refine (h.enterHandlers_agree l.insns _).bind ?_
    rintro s _ rfl
    refine (h.run_agree _ s).bind ?_
    rintro s' _ rfl
    exact rfl

end Listing.Renamed

end ClassWeaver
