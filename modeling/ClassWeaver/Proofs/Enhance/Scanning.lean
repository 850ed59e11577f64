import ClassWeaver.Enhance.Rule
import ClassWeaver.Proofs.Listing.Sequence

/-!
# Scans that come to an end

What a scan answers is the end that its visits come to (`Chain.Ends`, `ends_of_scan`), if they come
to one in time. Rules may send the scan back again and again, but they have no way to do so if they
leave what is behind a node as it was and go on there (`Chain.Advances`): such a scan visits what is
left of the sequence once, and there always is time for that (`Advances.exists_scan`). -/

namespace ClassWeaver

namespace Chain

variable {chain : Chain} {ctx : Context} {l l₁ l' : Listing} {r : Ref}
variable {next resume : Option Ref} {e : Failure} {out : Listing × Except Failure Unit}
variable {visits : Nat}

/-! ### One visit after the other -/

/-- A node that no rule takes is passed. Otherwise the first rule that takes it does, and the scan
goes on behind a node of the sequence. -/
theorem visit_eq_ok {i : Insn} (hi : l.insn? r = some i)
    (hv : chain.visit ctx l r = (l', .ok resume)) :
    (chain.find? (·.applies i) = none ∧ l' = l ∧ resume = some r) ∨
      ∃ rule, chain.find? (·.applies i) = some rule ∧ rule.replace ctx l r = (l', .ok resume) ∧
        ∀ q, resume = some q → l'.isLinked q = true := by
  unfold visit at hv
  rw [hi] at hv
  dsimp only at hv
  split at hv
  · next hnone =>
    obtain ⟨rfl, hres⟩ := Prod.mk.inj hv
    exact .inl ⟨hnone, rfl, (Except.ok.inj hres).symm⟩
  · next rule hrule =>
    refine .inr ⟨rule, hrule, ?_⟩
    split at hv
    · cases hv
    · next heq =>
      refine ⟨heq.trans hv, fun q hq => ?_⟩
      rw [← Except.ok.inj (Prod.mk.inj hv).2] at hq
      cases hq
    · next heq =>
      split at hv
      · next hlinked =>
        obtain ⟨rfl, hres⟩ := Prod.mk.inj hv
        obtain rfl := Except.ok.inj hres
        exact ⟨heq, fun q hq => Option.some.inj hq ▸ hlinked⟩
      · cases hv

/-- A scan from a node on that comes to an end: the listing is left as `out` has it, with the
failure that stopped the scan if one did. -/
inductive Ends (chain : Chain) (ctx : Context) :
    Option Ref → Listing → Listing × Except Failure Unit → Prop
  | done {l : Listing} : Ends chain ctx none l (l, .ok ())
  | fails {r : Ref} {l l₁ : Listing} {e : Failure} :
      chain.visit ctx l r = (l₁, .error e) → Ends chain ctx (some r) l (l₁, .error e)
  | visit {r : Ref} {l l₁ : Listing} {resume : Option Ref} {out : Listing × Except Failure Unit} :
      chain.visit ctx l r = (l₁, .ok resume) → Ends chain ctx (l₁.next resume) l₁ out →
      Ends chain ctx (some r) l out

@[simp] theorem scan_none : chain.scan ctx visits none l = some (l, .ok ()) := by
  cases visits <;> rw [scan]

@[simp] theorem scan_zero : chain.scan ctx 0 (some r) l = none := by
  rw [scan]

/-- What a scan answers is the end that it comes to. -/
theorem ends_of_scan (h : chain.scan ctx visits next l = some out) : chain.Ends ctx next l out := by
  induction visits generalizing next l with
  | zero =>
    cases next with
    | none => exact Option.some.inj (scan_none.symm.trans h) ▸ .done
    | some r => cases scan_zero.symm.trans h
  | succ visits ih =>
    cases next with
    | none => exact Option.some.inj (scan_none.symm.trans h) ▸ .done
    | some r =>
      rw [scan] at h
      split at h
      · next hvisit => exact .visit hvisit (ih h)
      · next hvisit => exact Option.some.inj h ▸ .fails hvisit

/-- A scan that goes on behind a node comes to the end that it comes to there. -/
theorem Ends.of_ok (h : chain.Ends ctx (some r) l out)
    (hv : chain.visit ctx l r = (l₁, .ok resume)) : chain.Ends ctx (l₁.next resume) l₁ out := by
  cases h with
  | fails hvisit => cases (Prod.mk.inj (hvisit.symm.trans hv)).2
  | visit hvisit h =>
    obtain ⟨rfl, hresume⟩ := Prod.mk.inj (hvisit.symm.trans hv)
    obtain rfl := Except.ok.inj hresume
    exact h

/-- A visit that fails is the end. -/
theorem Ends.of_error (h : chain.Ends ctx (some r) l out)
    (hv : chain.visit ctx l r = (l₁, .error e)) : out = (l₁, .error e) := by
  cases h with
  | fails hvisit =>
    obtain ⟨rfl, he⟩ := Prod.mk.inj (hvisit.symm.trans hv)
    rw [Except.error.inj he]
  | visit hvisit _ => cases (Prod.mk.inj (hvisit.symm.trans hv)).2

/-- What a run succeeds with is the end of its scan. -/
theorem ends_of_run (h : chain.run ctx l = (l', .ok ())) :
    chain.Ends ctx l.first l (l', .ok ()) := by
  unfold run at h
  cases hscan : chain.scan ctx (patience + l.length) l.first l with
  | none =>
    rw [hscan] at h
    cases (Prod.mk.inj h).2
  | some out =>
    rw [hscan] at h
    exact h ▸ ends_of_scan hscan

/-- A visit that changes nothing and sends the scan back to its node is made again and again. -/
theorem not_ends_of_visit (hv : chain.visit ctx l r = (l, .ok resume))
    (hnext : l.next resume = some r) : ¬chain.Ends ctx (some r) l out := by
  intro h
  generalize hstart : some r = start at h
  induction h with
  | done => cases hstart
  | fails hvisit =>
    obtain rfl := Option.some.inj hstart
    rw [hv] at hvisit
    cases (Prod.mk.inj hvisit).2
  | visit hvisit _ ih =>
    obtain rfl := Option.some.inj hstart
    rw [hv] at hvisit
    obtain ⟨rfl, hresume⟩ := Prod.mk.inj hvisit
    obtain rfl := Except.ok.inj hresume
    exact ih hv hnext hnext.symm

theorem run_of_not_ends (h : ∀ out, ¬chain.Ends ctx l.first l out) :
    chain.run ctx l = (l, Outcome.undefined) := by
  have hscan : chain.scan ctx (patience + l.length) l.first l = none :=
    Option.eq_none_iff_forall_ne_some.mpr fun out hout => h out (ends_of_scan hout)
  rw [run, hscan, Option.getD_none]

/-- A scan from a node on gets to a node, with the listing as it is when it gets there. -/
inductive Reaches (chain : Chain) (ctx : Context) : Option Ref → Listing → Ref → Listing → Prop
  | here {r : Ref} {l : Listing} : Reaches chain ctx (some r) l r l
  | visit {r q : Ref} {l l₁ l₂ : Listing} {resume : Option Ref} :
      chain.visit ctx l r = (l₁, .ok resume) →
      Reaches chain ctx (l₁.next resume) l₁ q l₂ → Reaches chain ctx (some r) l q l₂

/-- A scan that gets to a node comes to the end that it comes to from there. -/
theorem Ends.of_reaches (h : chain.Ends ctx next l out) (hr : chain.Reaches ctx next l r l₁) :
    chain.Ends ctx (some r) l₁ out := by
  induction hr with
  | here => exact h
  | visit hvisit _ ih => exact ih (h.of_ok hvisit)

/-! ### Scans that go forward -/

/-- Visits leave what is behind a node as it was, and go on there. -/
def Advances (chain : Chain) (ctx : Context) : Prop :=
  ∀ l xs r ys l' resume, Listing.Spells l (xs ++ r :: ys) →
    chain.visit ctx l r = (l', .ok resume) →
    ∃ front, l'.Spells (front ++ ys) ∧ resume = front.getLast?

/-- Behind the last node of a front part the rest begins. -/
theorem next_getLast? {xs ys : List Ref} (hs : l.Spells (xs ++ ys)) :
    l.next xs.getLast? = ys.head? := by
  cases xs using List.reverseRecOn with
  | nil => exact hs.first_eq
  | append_singleton xs r =>
    rw [List.getLast?_concat]
    have hs' : l.Spells (xs ++ r :: ys) := by simpa using hs
    exact hs'.next_eq

/-- A scan that goes forward visits what is left once. -/
theorem Advances.exists_scan (h : chain.Advances ctx) {xs rest : List Ref}
    (hs : l.Spells (xs ++ rest)) (hvisits : rest.length ≤ visits) :
    ∃ out, chain.scan ctx visits rest.head? l = some out := by
  induction rest generalizing l xs visits with
  | nil => exact ⟨_, scan_none⟩
  | cons r ys ih =>
    obtain ⟨visits, rfl⟩ := Nat.exists_eq_add_of_lt hvisits
    rw [List.head?_cons, scan]
    cases hvisit : chain.visit ctx l r with
    | mk l₁ answer =>
      cases answer with
      | error e => exact ⟨_, rfl⟩
      | ok resume =>
        obtain ⟨front, hs₁, rfl⟩ := h l xs r ys l₁ resume hs hvisit
        dsimp only
        rw [next_getLast? hs₁]
        exact ih hs₁ (by omega)

/-- So a run of such a scan has the result that it comes to. -/
theorem Advances.scan_eq_run (h : chain.Advances ctx) (hs : l.Spells l.refs) :
    chain.scan ctx (patience + l.length) l.first l = some (chain.run ctx l) := by
  have hsplit : l.Spells ([] ++ l.refs) := hs
  have hvisits : l.refs.length ≤ patience + l.length := hs.length_eq ▸ Nat.le_add_left ..
  obtain ⟨out, hscan⟩ := h.exists_scan hsplit hvisits
  rw [← hs.first_eq] at hscan
  rw [run, hscan, Option.getD_some]

theorem Advances.ends_run (h : chain.Advances ctx) (hs : l.Spells l.refs) :
    chain.Ends ctx l.first l (chain.run ctx l) :=
  ends_of_scan (h.scan_eq_run hs)

end Chain

end ClassWeaver
