import ClassWeaver.Stack.Effect
import ClassWeaver.Proofs.Instructions

/-!
# Outcomes that are defined

An operation that is applied to something it is not defined on has no result and no fault either.
`Outcome.Gives` says of an outcome that this does not happen, and what its result is like if it
has one. It goes through sequences of operations one at a time (`Outcome.Gives.bind`).

What keeps most operations defined is that a fault about an instruction can name it. Every
instruction has a text to name it by but a lookup switch with too few targets.
-/

namespace ClassWeaver

namespace Outcome

variable {α β : Type} {x : Outcome α} {f : α → Outcome β} {P P' : α → Prop} {Q : β → Prop} {a : α}

/-- The outcome is a fault, or a result with the property. -/
def Gives (x : Outcome α) (P : α → Prop) : Prop :=
  match x with
  | .ok a => P a
  | .error (.fault _) => True
  | .error .undefined => False

namespace Gives

theorem result (h : x.Gives P) (hx : x = .ok a) : P a := by
  subst hx
  exact h

/-- A failure that is passed on. -/
theorem error {e : Failure} (h : x.Gives P) (hx : x = .error e) : @Gives β (.error e) Q := by
  subst hx
  match e with
  | .fault _ => trivial

theorem imp (h : x.Gives P) (h' : ∀ a, x = .ok a → P a → P' a) : x.Gives P' := by
  match x with
  | .ok a => exact h' a rfl h
  | .error (.fault _) => trivial

/-- Operations one after the other. -/
theorem bind (h : x.Gives P) (h' : ∀ a, x = .ok a → P a → (f a).Gives Q) : (x >>= f).Gives Q := by
  match x with
  | .ok a => exact h' a rfl h
  | .error (.fault _) => trivial

theorem mapFault (h : x.Gives P) (g : Fault → Fault) : (x.mapFault g).Gives P := by
  match x with
  | .ok a => exact h
  | .error (.fault _) => trivial

theorem inMethod (h : x.Gives P) (key : Text) : (x.inMethod key).Gives P := h.mapFault _

theorem map (h : x.Gives P) {g : α → β} (h' : ∀ a, P a → Q (g a)) :
    Gives (Except.map g x) Q := by
  match x with
  | .ok a => exact h' a h
  | .error (.fault _) => trivial

theorem ite {p : Prop} [Decidable p] {y : Outcome α} (h : p → x.Gives P) (h' : ¬p → y.Gives P) :
    (if p then x else y).Gives P := by
  by_cases hp : p
  · rw [if_pos hp]
    exact h hp
  · rw [if_neg hp]
    exact h' hp

theorem foldlM {step : β → α → Outcome β} {as : List α}
    (h : ∀ b, ∀ a ∈ as, Q b → (step b a).Gives Q) {b : β} (hb : Q b) :
    (as.foldlM step b).Gives Q := by
  induction as generalizing b with
  | nil => exact hb
  | cons a as ih =>
    rw [List.foldlM_cons]
    exact (h b a List.mem_cons_self hb).bind fun b' _ hb' =>
      ih (fun b a ha => h b a (List.mem_cons_of_mem _ ha)) hb'

end Gives

end Outcome

/-! ### Faults about instructions -/

namespace Insn

variable {i : Insn} {α : Type} {P : α → Prop}

/-- The instruction has a text to be named by. -/
def Printable (i : Insn) : Prop := ∃ t, i.text? = some t

theorem Printable.blame (h : i.Printable) (phase : Phase) (kind : FaultKind) (detail : Text)
    (value : Option Text) (cause : Option Fault) :
    Outcome.Gives (.error (i.blame phase kind detail value cause)) P := by
  obtain ⟨t, ht⟩ := h
  rw [Insn.blame, ht]
  trivial

theorem Printable.effect (h : i.Printable) : i.effect.Gives fun _ => True := by
  have hmisfit : @Outcome.Gives Effect (.error i.misfit) fun _ => True := h.blame ..
  unfold Insn.effect
  refine .ite (fun _ => trivial) fun _ => .ite (fun _ => h.blame ..) fun _ => .ite (fun _ => ?_)
    fun _ => .ite (fun _ => ?_) fun _ => ?_
  · unfold callEffect
    split
    · exact hmisfit
    · split
      · exact h.blame ..
      · trivial
  · split
    · trivial
    · exact hmisfit
  · split
    · trivial
    · exact h.blame ..

theorem Printable.change (h : i.Printable) : i.change.Gives fun _ => True :=
  h.effect.bind fun _ _ _ => trivial

end Insn

end ClassWeaver
