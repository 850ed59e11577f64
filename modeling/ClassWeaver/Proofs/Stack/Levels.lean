import ClassWeaver.Proofs.Stack.Heights

/-!
# Heights along a text

A text is scored with the height in front of each instruction, or with none where control does not
get (`Scored`). A scored text is settled (`Settled`) if every instruction fits the height it has:
what it passes on is the height of the instruction behind it and of the labels it branches to. This
is a matter of neighbours, so a text is settled if its pieces are and fit together
(`settled_append`), and a straight piece is settled by the effects of its instructions
(`Climbs.settled`).

A listing in the order of a settled text that starts at height zero satisfies its flow equations,
and so it has heights: those of the text, on the nodes that control reaches
(`Listing.flowHeights_of_equations`). -/

namespace ClassWeaver

/-! ### Instructions that fit a height -/

/-- The instruction `i`, entered at height `n`, finds its operands and passes the right heights on:
`next` to the instruction behind it and `target lbl` to a label. -/
def Insn.Fits (target : Label → Option Nat) (next : Option Nat) (i : Insn) (n : Nat) : Prop :=
  match i.finalNeed? with
  | some need => need ≤ n
  | none => ∃ e, i.effect = .ok e ∧ e.pops ≤ n ∧
      (∀ lbl ∈ i.branches, target lbl = some (n - e.pops + e.pushes)) ∧
      (i.fallsThrough = true →
        next = some (if i.callsSubroutine then n else n - e.pops + e.pushes))

namespace Listing

variable {l : Listing} {h : Ref → Option Nat} {r : Ref} {i : Insn} {n : Nat}

/-- The flow equation of a node looks at the listing only to find the nodes it leads to. -/
theorem flowEquation_iff_fits : l.FlowEquation h r n i ↔
    i.Fits (fun lbl => (l.binding lbl).bind h) ((l.next (some r)).bind h) n := by
  unfold FlowEquation Insn.Fits
  cases i.finalNeed? with
  | some need => exact Iff.rfl
  | none => simp only [Option.bind_eq_some_iff]

end Listing

theorem Insn.Fits.mono {target target' : Label → Option Nat} {next : Option Nat}
    {i : Insn} {n : Nat}
    (h : i.Fits target next n)
    (ht : ∀ lbl ∈ i.branches, ∀ k, target lbl = some k → target' lbl = some k) :
    i.Fits target' next n := by
  unfold Fits at h ⊢
  split
  · next hneed =>
    rw [hneed] at h
    exact h
  · next hnone =>
    rw [hnone] at h
    obtain ⟨e, he, hpops, hbr, hfall⟩ := h
    exact ⟨e, he, hpops, fun lbl hlbl => ht lbl hlbl _ (hbr lbl hlbl), hfall⟩

/-! ### Scored texts -/

/-- A text with the height in front of each instruction. -/
abbrev Scored := List (Insn × Option Nat)

namespace Scored

/-- The height in front of a text that `last` stands behind. -/
def entry (last : Option Nat) : Scored → Option Nat
  | [] => last
  | (_, h) :: _ => h

/-- Every instruction fits its height, when `last` is the height behind the text. -/
def Settled (target : Label → Option Nat) (last : Option Nat) : Scored → Prop
  | [] => True
  | (i, h) :: text => (∀ n, h = some n → i.Fits target (entry last text) n) ∧
    Settled target last text

/-- The height at a place of the text. -/
def heightAt (text : Scored) (p : Nat) : Option Nat := (text[p]?).bind Prod.snd

variable {target : Label → Option Nat} {last : Option Nat} {text text' : Scored}
    {i : Insn} {n : Nat}

theorem entry_append (last : Option Nat) (text text' : Scored) :
    entry last (text ++ text') = entry (entry last text') text := by
  cases text <;> rfl

theorem settled_append : Settled target last (text ++ text') ↔
    Settled target (entry last text') text ∧ Settled target last text' := by
  induction text with
  | nil => simp [Settled]
  | cons p text ih =>
    obtain ⟨i, h⟩ := p
    rw [List.cons_append, Settled, Settled, ih, entry_append, and_assoc]

theorem Settled.fits (h : Settled target none text) {p : Nat} (hp : text[p]? = some (i, some n)) :
    i.Fits target (heightAt text (p + 1)) n := by
  obtain ⟨hlt, hval⟩ := List.getElem?_eq_some_iff.mp hp
  have hsplit : text = text.take p ++ (i, some n) :: text.drop (p + 1) := by
    rw [← hval, List.getElem_cons_drop, List.take_append_drop]
  rw [hsplit, settled_append] at h
  have hentry : entry none (text.drop (p + 1)) = heightAt text (p + 1) := by
    rw [heightAt, ← List.head?_drop]
    cases text.drop (p + 1) <;> rfl
  rw [← hentry]
  exact h.2.1 n rfl

end Scored

/-! ### Straight code -/

namespace Insn

/-- The instruction takes and leaves so many values, control goes on behind it, and it has nothing
to do with labels. -/
structure Moves (i : Insn) (pops pushes : Nat) : Prop where
  final : i.finalNeed? = none
  effect : i.effect = .ok ⟨pops, pushes⟩
  shaped : i.WellShaped
  labels : i.labels = []
  placed : i.placed? = none
  falls : i.fallsThrough = true
  plain : i.callsSubroutine = false

/-- The height behind an instruction that is entered at height `n`. Where control does not go on,
the code behind starts on an empty stack. -/
def leaves (i : Insn) (n : Nat) : Nat :=
  if i.fallsThrough then
    match i.effect with
    | .ok e => n - e.pops + e.pushes
    | .error _ => 0
  else 0

theorem Moves.leaves_eq {i : Insn} {pops pushes n : Nat} (h : i.Moves pops pushes) :
    i.leaves n = n - pops + pushes := by
  rw [leaves, if_pos h.falls, h.effect]

theorem Moves.fits {i : Insn} {pops pushes n : Nat} (h : i.Moves pops pushes) (hn : pops ≤ n)
    (target : Label → Option Nat) : i.Fits target (some (n - pops + pushes)) n := by
  rw [Fits, h.final]
  refine ⟨_, h.effect, hn, ?_, fun _ => ?_⟩
  · rw [branches, h.labels, ite_self]
    rintro _ ⟨⟩
  · rw [h.plain]
    rfl

end Insn

namespace Scored

/-- A piece of code with its heights, the first of which is `n`. -/
def score : (n : Nat) → List Insn → Scored
  | _, [] => []
  | n, i :: is => (i, some n) :: score (i.leaves n) is

theorem map_fst_score (n : Nat) (is : List Insn) : (score n is).map Prod.fst = is := by
  induction is generalizing n with
  | nil => rfl
  | cons i is ih => rw [score, List.map_cons, ih]

theorem heightAt_zero (text : Scored) : heightAt text 0 = entry none text := by
  cases text <;> rfl

theorem mem_of_mem_score {n : Nat} {is : List Insn} {p : Insn × Option Nat} (h : p ∈ score n is) :
    p.1 ∈ is := by
  rw [← map_fst_score n is]
  exact List.mem_map_of_mem h

theorem entry_score (n : Nat) {is : List Insn} (hne : is ≠ []) (last : Option Nat) :
    entry last (score n is) = some n := by
  cases is with
  | nil => exact absurd rfl hne
  | cons i is => rfl

end Scored

/-- Straight code takes the stack from height `n` to height `m`. -/
inductive Climbs : (n : Nat) → List Insn → (m : Nat) → Prop
  | nil (n : Nat) : Climbs n [] n
  | cons {n m pops pushes : Nat} {i : Insn} {is : List Insn} : i.Moves pops pushes → pops ≤ n →
      Climbs (n - pops + pushes) is m → Climbs n (i :: is) m

namespace Climbs

open Scored

variable {n m k : Nat} {is js : List Insn} {i : Insn}

theorem append (h : Climbs n is m) (h' : Climbs m js k) : Climbs n (is ++ js) k := by
  induction h with
  | nil n => exact h'
  | cons hi hn _ ih => exact .cons hi hn (ih h')

/-- Pieces that all lead back to their start do so in sequence. -/
theorem flatMap {α : Type} {as : List α} {f : α → List Insn} (h : ∀ a ∈ as, Climbs n (f a) n) :
    Climbs n (as.flatMap f) n := by
  induction as with
  | nil => exact .nil n
  | cons a as ih =>
    rw [List.flatMap_cons]
    exact (h a List.mem_cons_self).append (ih fun b hb => h b (List.mem_cons_of_mem _ hb))

theorem moves (h : Climbs n is m) (hi : i ∈ is) : ∃ pops pushes, i.Moves pops pushes := by
  induction h with
  | nil n => cases hi
  | cons hj _ _ ih =>
    rcases List.mem_cons.mp hi with rfl | hi
    · exact ⟨_, _, hj⟩
    · exact ih hi

theorem score_append (h : Climbs n is m) (js : List Insn) :
    score n (is ++ js) = score n is ++ score m js := by
  induction h with
  | nil n => rfl
  | cons hi _ _ ih => rw [List.cons_append, score, score, hi.leaves_eq, ih, List.cons_append]

/-- The height in front of straight code that stands at height `m` behind. -/
theorem entry_eq (h : Climbs n is m) : entry (some m) (score n is) = some n := by
  cases h with
  | nil n => rfl
  | cons _ _ _ => rfl

/-- Straight code is settled. -/
theorem settled (h : Climbs n is m) (target : Label → Option Nat) :
    Settled target (some m) (score n is) := by
  induction h with
  | nil n => trivial
  | cons hi hn hrest ih =>
    rw [score, hi.leaves_eq]
    refine ⟨?_, ih⟩
    rintro _ ⟨⟩
    rw [hrest.entry_eq]
    exact hi.fits hn target

end Climbs

/-! ### The heights of a listing from those of its text -/

namespace Listing

variable {l : Listing} {height : Ref → Option Nat}

open Classical in
/-- Heights that satisfy the flow equations wherever there are any, unreached nodes included, are
the heights of the listing on the nodes that control reaches. -/
theorem flowHeights_of_equations (hhead : ∀ r, l.first = some r → height r = some 0)
    (hhandlers : ∀ start stop handler caught,
      (⟨.tryCatch, .tryCatch start stop handler caught⟩ : Insn) ∈ l.insns →
        ∃ t, l.binding handler = some t ∧ height t = some 1)
    (heq : ∀ r n, height r = some n → ∃ i, l.insn? r = some i ∧ l.FlowEquation height r n i) :
    l.FlowHeights fun r => if l.Reached r then height r else none := by
  have hsome : ∀ {r n}, (if l.Reached r then height r else none) = some n →
      l.Reached r ∧ height r = some n := by
    intro r n h
    split at h
    · next hr => exact ⟨hr, h⟩
    · cases h
  refine .of_reached (fun r n h => (hsome h).1) (fun r hf => ?_) (fun a b c d hmem => ?_)
    fun r n h => ?_
  · exact (if_pos (.entry (.head hf))).trans (hhead r hf)
  · obtain ⟨t, ht, hk⟩ := hhandlers a b c d hmem
    exact ⟨t, ht, (if_pos (.entry (.handler hmem ht))).trans hk⟩
  · obtain ⟨hr, hn⟩ := hsome h
    obtain ⟨i, hi, hflow⟩ := heq r n hn
    refine ⟨i, hi, ?_⟩
    unfold FlowEquation at hflow ⊢
    split
    · next hneed =>
      rw [hneed] at hflow
      exact hflow
    · next hnone =>
      rw [hnone] at hflow
      obtain ⟨e, he, hpops, hbr, hfall⟩ := hflow
      refine ⟨e, he, hpops, fun lbl hlbl => ?_, fun hft => ?_⟩
      · -- where control leads from a reached node is reached
        obtain ⟨t, ht, hk⟩ := hbr lbl hlbl
        exact ⟨t, ht, (if_pos (hr.edge (.branch hi hlbl ht))).trans hk⟩
      · obtain ⟨t, ht, hk⟩ := hfall hft
        exact ⟨t, ht, (if_pos (hr.edge (.fall hi hft ht))).trans hk⟩

end Listing

end ClassWeaver
