import ClassWeaver.Fault

/-!
# Outcomes that agree

Two runs of one operation on inputs that differ in their label numbers cannot be expected to have
equal outcomes: a fault can show the number of a label. They agree (`Outcome.Agree R`) if they go
the same way: two results that `R` relates, two faults, or no outcome twice. Agreement goes through
sequences of operations one at a time (`Outcome.Agree.bind`).
-/

namespace ClassWeaver

/-- Both operations failed, or both were undefined. What a fault says is left open. -/
def Failure.Agree : Failure → Failure → Prop
  | .fault _, .fault _ => True
  | .undefined, .undefined => True
  | _, _ => False

namespace Failure.Agree

variable {e e' : Failure}

@[refl] theorem refl (e : Failure) : e.Agree e := by
  cases e <;> trivial

theorem map (h : e.Agree e') (g g' : Fault → Fault) : (e.map g).Agree (e'.map g') := by
  match e, e' with
  | .fault _, .fault _ => trivial
  | .undefined, .undefined => trivial

end Failure.Agree

namespace Outcome

variable {α β γ δ : Type} {R : α → β → Prop} {S : γ → δ → Prop} {x : Outcome α} {y : Outcome β}
variable {f : α → Outcome γ} {g : β → Outcome δ} {a : α} {b : β}

/-- The outcomes are related results, or failures that agree. -/
def Agree (R : α → β → Prop) : Outcome α → Outcome β → Prop
  | .ok a, .ok b => R a b
  | .error e, .error e' => e.Agree e'
  | _, _ => False

namespace Agree

theorem undefined : Agree R Outcome.undefined Outcome.undefined := trivial

theorem fail (f g : Fault) : Agree R (Outcome.fail f) (Outcome.fail g) := trivial

theorem of_eq {x y : Outcome α} (h : x = y) : Agree (· = ·) x y := by
  subst h
  cases x with
  | error e => exact Failure.Agree.refl e
  | ok a => exact rfl

theorem eq_ok (h : Agree R x y) (hx : x = .ok a) : ∃ b, y = .ok b ∧ R a b := by
  subst hx
  match y with
  | .ok b => exact ⟨b, rfl, h⟩

theorem ok_eq (h : Agree R x y) (hy : y = .ok b) : ∃ a, x = .ok a ∧ R a b := by
  subst hy
  match x with
  | .ok a => exact ⟨a, rfl, h⟩

theorem error {e : Failure} (h : @Agree α β R (.error e) y) : ∃ e', y = .error e' ∧ e.Agree e' := by
  match y with
  | .error e' => exact ⟨e', rfl, h⟩

theorem imp {R' : α → β → Prop} (h : Agree R x y) (h' : ∀ a b, R a b → R' a b) : Agree R' x y := by
  match x, y with
  | .ok a, .ok b => exact h' a b h
  | .error _, .error _ => exact h

/-- Operations one after the other; the second ones take results that the first ones gave. -/
theorem bind_of_ok (h : Agree R x y)
    (h' : ∀ a b, x = .ok a → y = .ok b → R a b → Agree S (f a) (g b)) :
    Agree S (x >>= f) (y >>= g) := by
  match x, y with
  | .ok a, .ok b => exact h' a b rfl rfl h
  | .error _, .error _ => exact h

theorem bind (h : Agree R x y) (h' : ∀ a b, R a b → Agree S (f a) (g b)) :
    Agree S (x >>= f) (y >>= g) :=
  h.bind_of_ok fun a b _ _ => h' a b

theorem map {f : α → γ} {g : β → δ} (h : Agree R x y) (h' : ∀ a b, R a b → S (f a) (g b)) :
    @Agree γ δ S (Except.map f x) (Except.map g y) := by
  match x, y with
  | .ok a, .ok b => exact h' a b h
  | .error _, .error _ => exact h

theorem mapFault (h : Agree R x y) (g g' : Fault → Fault) :
    Agree R (x.mapFault g) (y.mapFault g') := by
  match x, y with
  | .ok _, .ok _ => exact h
  | .error _, .error _ => exact Failure.Agree.map h g g'

theorem ite {p q : Prop} [Decidable p] [Decidable q] {x' : Outcome α} {y' : Outcome β}
    (hpq : p ↔ q) (h : p → Agree R x y) (h' : ¬p → Agree R x' y') :
    Agree R (if p then x else x') (if q then y else y') := by
  by_cases hp : p
  · rw [if_pos hp, if_pos (hpq.mp hp)]
    exact h hp
  · rw [if_neg hp, if_neg (mt hpq.mpr hp)]
    exact h' hp

/-- A loop over a list, and one over the images of its elements. -/
theorem foldlM {ι κ : Type} {step : α → ι → Outcome α} {step' : β → κ → Outcome β} {m : ι → κ}
    {is : List ι} (h : ∀ a b, ∀ i ∈ is, R a b → Agree R (step a i) (step' b (m i))) (hab : R a b) :
    Agree R (is.foldlM step a) ((is.map m).foldlM step' b) := by
  induction is generalizing a b with
  | nil => exact hab
  | cons i is ih =>
    rw [List.map_cons, List.foldlM_cons, List.foldlM_cons]
    exact (h a b i List.mem_cons_self hab).bind fun a' b' hab' =>
      ih (fun a b j hj => h a b j (List.mem_cons_of_mem _ hj)) hab'

end Agree

end Outcome

end ClassWeaver
