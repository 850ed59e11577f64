import ClassWeaver.ClassFile.Basic

/-!
# Edits

What an edit comes to and what it leaves behind, for each way of putting edits together. -/

namespace ClassWeaver

namespace Edit

variable {σ α β : Type}

/-- The second edit sees what the first left behind, and is not run if that failed. -/
theorem on_bind (e : Edit σ α) (f : α → Edit σ β) (s : σ) :
    (e >>= f).on s =
      match e.on s with
      | (.ok a, s') => (f a).on s'
      | (.error x, s') => (.error x, s') := by
  change (e.run >>= ExceptT.bindCont f).run s = _
  rw [StateT.run_bind, on]
  rcases e.run.run s with ⟨_ | a, s'⟩ <;> rfl

theorem on_bind_of_ok {e : Edit σ α} {f : α → Edit σ β} {s s' : σ} {a : α}
    (h : e.on s = (.ok a, s')) : (e >>= f).on s = (f a).on s' := by
  rw [on_bind, h]

theorem on_bind_of_error {e : Edit σ α} {f : α → Edit σ β} {s s' : σ} {x : Failure}
    (h : e.on s = (.error x, s')) : (e >>= f).on s = (.error x, s') := by
  rw [on_bind, h]

theorem on_get (s : σ) : (get : Edit σ σ).on s = (.ok s, s) := rfl

theorem on_map (f : α → β) (e : Edit σ α) (s : σ) :
    (f <$> e).on s = ((e.on s).1.map f, (e.on s).2) := by
  rw [← bind_pure_comp, on_bind]
  rcases e.on s with ⟨_ | a, s'⟩ <;> rfl

/-- A handler sees what the edit that failed left behind. -/
theorem on_tryCatch (e : Edit σ α) (handle : Failure → Edit σ α) (s : σ) :
    (tryCatch e handle).on s =
      match e.on s with
      | (.ok a, s') => (.ok a, s')
      | (.error x, s') => (handle x).on s' := by
  change (ExceptT.tryCatch e handle).run.run s = _
  unfold ExceptT.tryCatch
  have hrun : StateT.run e s = e.on s := rfl
  rw [ExceptT.run_mk, StateT.run_bind, hrun]
  rcases e.on s with ⟨_ | a, s'⟩ <;> rfl

end Edit

end ClassWeaver
