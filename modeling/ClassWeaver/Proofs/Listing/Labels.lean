import ClassWeaver.Proofs.Instructions
import ClassWeaver.Proofs.Listing.Sequence

/-!
# The label table

A listing records for every label a node that places it. `Listing.Labelled l S` says that the
table is exact for the nodes in `S`: a binding is a node of `S` that places the label, a label
that some node of `S` places is bound, and a label that two of them place is on record as
doubled. Binding a node adds it to `S` and unbinding one takes it out, which is all that the
editing operations do to the table.

The listings that editing can give are `Listing.Built`, and every one of them is
`Listing.WellFormed`: its links spell a sequence and its label table is exact for it.
-/

namespace ClassWeaver.Listing

/-- The label that the instruction at a node places. -/
def placedAt (l : Listing) (r : Ref) : Option Label := (l.insn? r).bind Insn.placed?

/-- The label table is exact for the nodes in `S`. -/
structure Labelled (l : Listing) (S : Ref → Prop) : Prop where
  sound : ∀ {lbl r}, l.binding lbl = some r → S r ∧ l.placedAt r = some lbl
  complete : ∀ {lbl r}, S r → l.placedAt r = some lbl → 0 ≤ lbl → ∃ q, l.binding lbl = some q
  doubled : ∀ {lbl r q}, S r → S q → r ≠ q → l.placedAt r = some lbl →
    l.placedAt q = some lbl → 0 ≤ lbl → lbl ∈ l.doubled

variable {l l' : Listing} {S T : Ref → Prop} {r : Ref} {lbl : Label}

theorem binding_of_neg (h : lbl < 0) : l.binding lbl = none := by simp [binding, h]

theorem binding_of_nonneg (h : 0 ≤ lbl) : l.binding lbl = (l.bound[lbl.toNat]?).join := by
  simp [binding, Int.not_lt.mpr h]

theorem nonneg_of_binding (h : l.binding lbl = some r) : 0 ≤ lbl := by
  by_contra hneg
  rw [binding_of_neg (Int.not_le.mp hneg)] at h
  cases h

@[simp] theorem binding_reserve (n : Nat) (lbl : Label) :
    (l.reserve n).binding lbl = l.binding lbl := by
  rcases Int.lt_or_le lbl 0 with h | h
  · rw [binding_of_neg h, binding_of_neg h]
  · rw [binding_of_nonneg h, binding_of_nonneg h]
    simp only [reserve, Array.getElem?_append]
    split
    · rfl
    · next hn =>
      have hnone : l.bound[lbl.toNat]? = none := Array.getElem?_eq_none (Nat.not_lt.mp hn)
      rw [hnone, Array.getElem?_replicate]
      split <;> rfl

theorem binding_setBound {o : Option Ref} (h0 : 0 ≤ lbl) (h : lbl.toNat < l.bound.size)
    (k : Label) :
    ({ l with bound := l.bound.setIfInBounds lbl.toNat o } : Listing).binding k =
      if k = lbl then o else l.binding k := by
  rcases Int.lt_or_le k 0 with hk | hk
  · have hne : k ≠ lbl := fun e => absurd h0 (Int.not_le.mpr (e ▸ hk))
    rw [binding_of_neg hk, binding_of_neg hk, if_neg hne]
  · rw [binding_of_nonneg hk, binding_of_nonneg hk, Array.getElem?_setIfInBounds]
    have hiff : lbl.toNat = k.toNat ↔ k = lbl := by
      rw [← Int.ofNat_inj, Int.toNat_of_nonneg h0, Int.toNat_of_nonneg hk, eq_comm]
    by_cases hkl : k = lbl
    · subst hkl
      simp [h]
    · simp [hiff, hkl]

theorem lt_size_of_binding (h : l.binding lbl = some r) : lbl.toNat < l.bound.size := by
  rw [binding_of_nonneg (nonneg_of_binding h)] at h
  by_contra hlt
  rw [Array.getElem?_eq_none (Nat.not_lt.mp hlt)] at h
  cases h

/-- A label that was never handed out nor placed is not bound. -/
theorem binding_of_numLabels_le (h : (l.numLabels : Int) ≤ lbl) : l.binding lbl = none := by
  have h0 : (0 : Int) ≤ lbl := Int.le_trans (Int.natCast_nonneg _) h
  rw [binding_of_nonneg h0, Array.getElem?_eq_none]
  · rfl
  · exact Int.le_toNat h0 |>.mpr h

namespace Labelled

/-- The table and the instructions decide. -/
theorem congr (h : l.Labelled S) (hb : ∀ k, l'.binding k = l.binding k)
    (hd : ∀ k, k ∈ l.doubled → k ∈ l'.doubled) (hp : ∀ r, S r → l'.placedAt r = l.placedAt r) :
    l'.Labelled S where
  sound hk := by
    rw [hb] at hk
    obtain ⟨hS, hpl⟩ := h.sound hk
    exact ⟨hS, by rw [hp _ hS, hpl]⟩
  complete hS hpl h0 := by
    rw [hp _ hS] at hpl
    obtain ⟨q, hq⟩ := h.complete hS hpl h0
    exact ⟨q, by rw [hb, hq]⟩
  doubled hr hq hne hpr hpq h0 := by
    rw [hp _ hr] at hpr
    rw [hp _ hq] at hpq
    exact hd _ (h.doubled hr hq hne hpr hpq h0)

theorem mono (h : l.Labelled S) (hST : ∀ r, S r ↔ T r) : l.Labelled T := by
  obtain rfl : S = T := funext fun r => propext (hST r)
  exact h

end Labelled

theorem placedAt_bind (q : Ref) : (l.bind r).placedAt q = l.placedAt q := by
  simp [placedAt, insn?]

theorem placedAt_unbind (q : Ref) : (l.unbind r).placedAt q = l.placedAt q := by
  simp [placedAt, insn?]

/-! ### Binding and unbinding -/

/-- Binding a node that places no numbered label changes nothing. -/
theorem bind_eq_self (h : ∀ lbl, l.placedAt r = some lbl → lbl < 0) : l.bind r = l := by
  unfold Listing.bind
  split
  · rfl
  · next lbl hlbl => rw [if_pos (h lbl hlbl)]

/-- Binding the first placement of a label. -/
theorem binding_bind_of_free (hp : l.placedAt r = some lbl) (h0 : 0 ≤ lbl)
    (hf : l.binding lbl = none) (k : Label) :
    (l.bind r).binding k = (if k = lbl then some r else l.binding k)
      ∧ (l.bind r).doubled = l.doubled := by
  have hsize : lbl.toNat < (l.reserve (lbl.toNat + 1)).bound.size := by
    simp only [reserve, Array.size_append, Array.size_replicate]
    omega
  unfold placedAt at hp
  simp only [Listing.bind, hp, Int.not_lt.mpr h0, if_false, binding_reserve, hf]
  rw [binding_setBound h0 hsize, binding_reserve]
  exact ⟨rfl, rfl⟩

/-- Binding another placement of a label that is bound already puts the label on record. -/
theorem binding_bind_of_taken {q : Ref} (hp : l.placedAt r = some lbl) (h0 : 0 ≤ lbl)
    (ht : l.binding lbl = some q) (hq : q ≠ r) (k : Label) :
    (l.bind r).binding k = l.binding k ∧ (l.bind r).doubled = l.doubled.push lbl := by
  unfold placedAt at hp
  simp only [Listing.bind, hp, Int.not_lt.mpr h0, if_false, binding_reserve, ht, hq]
  exact ⟨binding_reserve _ _, rfl⟩

namespace Labelled

theorem bind_of_free (h : l.Labelled S) (hp : l.placedAt r = some lbl) (h0 : 0 ≤ lbl)
    (hb : l.binding lbl = none) : (l.bind r).Labelled fun q => q = r ∨ S q := by
  have hspec := binding_bind_of_free hp h0 hb
  -- a label that is bound to nothing is placed by none of the nodes in account
  have hfresh : ∀ q, S q → l.placedAt q ≠ some lbl := fun q hq hpq => by
    obtain ⟨q', hq'⟩ := h.complete hq hpq h0
    rw [hb] at hq'; cases hq'
  refine ⟨fun {k q} hk => ?_, fun {k q} hS hpl hk => ?_,
    fun {k q q'} hq hq' hne hpq hpq' hk => ?_⟩
  · rw [(hspec k).1] at hk
    rw [placedAt_bind]
    split at hk
    · next e => cases hk; exact ⟨.inl rfl, e ▸ hp⟩
    · exact ⟨.inr (h.sound hk).1, (h.sound hk).2⟩
  · rw [placedAt_bind] at hpl
    rw [(hspec k).1]
    split
    · exact ⟨r, rfl⟩
    · next hne =>
      rcases hS with rfl | hS
      · rw [hp] at hpl; exact absurd (Option.some.inj hpl).symm hne
      · exact h.complete hS hpl hk
  · rw [placedAt_bind] at hpq hpq'
    rw [(hspec k).2]
    rcases hq with rfl | hq <;> rcases hq' with rfl | hq'
    · exact absurd rfl hne
    · rw [hp] at hpq; cases hpq; exact absurd hpq' (hfresh _ hq')
    · rw [hp] at hpq'; cases hpq'; exact absurd hpq (hfresh _ hq)
    · exact h.doubled hq hq' hne hpq hpq' hk

theorem bind_of_taken {q₀ : Ref} (h : l.Labelled S) (hr : ¬S r) (hp : l.placedAt r = some lbl)
    (h0 : 0 ≤ lbl) (hb : l.binding lbl = some q₀) :
    (l.bind r).Labelled fun q => q = r ∨ S q := by
  have hspec := binding_bind_of_taken hp h0 hb fun e => hr (e ▸ (h.sound hb).1)
  refine ⟨fun {k q} hk => ?_, fun {k q} hS hpl hk => ?_,
    fun {k q q'} hq hq' hne hpq hpq' hk => ?_⟩
  · rw [(hspec k).1] at hk
    rw [placedAt_bind]
    exact ⟨.inr (h.sound hk).1, (h.sound hk).2⟩
  · rw [placedAt_bind] at hpl
    rw [(hspec k).1]
    rcases hS with rfl | hS
    · rw [hp] at hpl; cases hpl; exact ⟨q₀, hb⟩
    · exact h.complete hS hpl hk
  · rw [placedAt_bind] at hpq hpq'
    rw [(hspec k).2, Array.mem_push]
    rcases hq with rfl | hq
    · rw [hp] at hpq; cases hpq; exact .inr rfl
    rcases hq' with rfl | hq'
    · rw [hp] at hpq'; cases hpq'; exact .inr rfl
    exact .inl (h.doubled hq hq' hne hpq hpq' hk)

/-- Binding a node that is not accounted for yet adds it. -/
theorem bind (h : l.Labelled S) (hr : ¬S r) : (l.bind r).Labelled fun q => q = r ∨ S q := by
  by_cases hp : ∀ lbl, l.placedAt r = some lbl → lbl < 0
  · rw [bind_eq_self hp]
    refine ⟨fun hk => ⟨.inr (h.sound hk).1, (h.sound hk).2⟩, fun hS hpl h0 => ?_,
      fun hq hq' hne hpq hpq' h0 => ?_⟩
    · rcases hS with rfl | hS
      · exact absurd h0 (Int.not_le.mpr (hp _ hpl))
      · exact h.complete hS hpl h0
    · rcases hq with rfl | hq
      · exact absurd h0 (Int.not_le.mpr (hp _ hpq))
      rcases hq' with rfl | hq'
      · exact absurd h0 (Int.not_le.mpr (hp _ hpq'))
      exact h.doubled hq hq' hne hpq hpq' h0
  · simp only [not_forall] at hp
    obtain ⟨lbl, hp, hneg⟩ := hp
    have h0 : 0 ≤ lbl := Int.not_lt.mp hneg
    cases hb : l.binding lbl with
    | none => exact h.bind_of_free hp h0 hb
    | some q => exact h.bind_of_taken hr hp h0 hb

/-- A node that the table does not name can be left out of account. -/
theorem without (h : l.Labelled S) (hr : ∀ k, l.binding k ≠ some r) :
    l.Labelled fun q => S q ∧ q ≠ r where
  sound hk := ⟨⟨(h.sound hk).1, fun e => hr _ (e ▸ hk)⟩, (h.sound hk).2⟩
  complete hS hpl h0 := h.complete hS.1 hpl h0
  doubled hq hq' hne hpq hpq' h0 := h.doubled hq.1 hq'.1 hne hpq hpq' h0

end Labelled

/-- Unbinding a node that the table does not name changes nothing. -/
theorem unbind_eq_self (h : ∀ k, l.binding k ≠ some r) : l.unbind r = l := by
  unfold Listing.unbind
  split
  · rfl
  · next lbl _ => rw [if_pos (h lbl)]

/-- The placement that takes a binding over. -/
def heir? (l : Listing) (r : Ref) (lbl : Label) : Option Ref :=
  if l.doubled.contains lbl then
    l.refs.find? fun q => q ≠ r && (l.insn? q).bind Insn.placed? = some lbl
  else none

theorem binding_unbind (hp : l.placedAt r = some lbl) (hb : l.binding lbl = some r)
    (k : Label) :
    (l.unbind r).binding k = (if k = lbl then l.heir? r lbl else l.binding k)
      ∧ (l.unbind r).doubled = l.doubled := by
  unfold placedAt at hp
  simp only [Listing.unbind, hp, hb, ne_eq, not_true_eq_false, if_false]
  exact ⟨binding_setBound (nonneg_of_binding hb) (lt_size_of_binding hb) k, trivial⟩

/-- Unbinding a node takes it out of account: another placement of its label, if there is
one, is on record and takes the binding over. -/
theorem Labelled.unbind (h : l.Labelled S) (hS : ∀ q, q ∈ l.refs ↔ S q) :
    (l.unbind r).Labelled fun q => S q ∧ q ≠ r := by
  by_cases hr : ∀ k, l.binding k ≠ some r
  · -- nothing is bound to the node, so nothing changes
    rw [unbind_eq_self hr]
    exact h.without hr
  push Not at hr
  obtain ⟨lbl, hb⟩ := hr
  obtain ⟨hSr, hp⟩ := h.sound hb
  have h0 := nonneg_of_binding hb
  have hspec := binding_unbind hp hb
  refine ⟨fun {k q} hk => ?_, fun {k q} hq hpl hk => ?_,
    fun {k q q'} hq hq' hne hpq hpq' hk => ?_⟩
  · rw [(hspec k).1] at hk
    rw [placedAt_unbind]
    -- the label of the node goes to the heir, others stay
    split at hk
    · next e =>
      subst e
      unfold heir? at hk
      split at hk
      · have hfind := List.find?_some hk
        simp only [ne_eq, decide_not, Bool.and_eq_true, Bool.not_eq_eq_eq_not, Bool.not_true,
          decide_eq_false_iff_not, decide_eq_true_eq] at hfind
        exact ⟨⟨(hS q).mp (List.mem_of_find?_eq_some hk), hfind.1⟩, hfind.2⟩
      · cases hk
    · next hne =>
      obtain ⟨hq, hpq⟩ := h.sound hk
      exact ⟨⟨hq, fun e => hne (Option.some.inj (by rw [← hpq, e, hp]))⟩, hpq⟩
  · rw [placedAt_unbind] at hpl
    rw [(hspec k).1]
    split
    · next e =>
      subst e
      -- two placements of one label are on record, so an heir is looked for
      have hd : l.doubled.contains k = true :=
        Array.contains_iff_mem.mpr (h.doubled hSr hq.1 (Ne.symm hq.2) hp hpl hk)
      rw [heir?, if_pos hd, ← Option.isSome_iff_exists, List.find?_isSome]
      exact ⟨q, (hS q).mpr hq.1, by simpa [hq.2, placedAt] using hpl⟩
    · exact h.complete hq.1 hpl hk
  · rw [placedAt_unbind] at hpq hpq'
    rw [(hspec k).2]
    exact h.doubled hq.1 hq'.1 hne hpq hpq' hk

/-! ### Well-formed listings -/

/-- The links spell a sequence, and the label table is exact for it. -/
structure WellFormed (l : Listing) : Prop where
  spells : l.Spells l.refs
  labelled : l.Labelled (· ∈ l.refs)

theorem Spells.wellFormed {rs : List Ref} (h : l.Spells rs) (hl : l.Labelled (· ∈ rs)) :
    l.WellFormed := by
  obtain rfl := h.refs_eq
  exact ⟨h, hl⟩

/-- The binding of a numbered label is a node of the sequence that places it. -/
theorem WellFormed.binding_eq_none_iff (h : l.WellFormed) (h0 : 0 ≤ lbl) :
    l.binding lbl = none ↔ ∀ r ∈ l.refs, l.placedAt r ≠ some lbl := by
  constructor
  · intro hb r hr hp
    obtain ⟨q, hq⟩ := h.labelled.complete hr hp h0
    rw [hb] at hq
    cases hq
  · intro hr
    cases hb : l.binding lbl with
    | none => rfl
    | some q =>
      obtain ⟨hq, hp⟩ := h.labelled.sound hb
      exact absurd hp (hr q hq)

theorem setNext_table (p t : Option Ref) :
    (l.setNext p t).bound = l.bound ∧ (l.setNext p t).doubled = l.doubled := by
  cases p <;> exact ⟨rfl, rfl⟩

theorem setPrev_table (p t : Option Ref) :
    (l.setPrev p t).bound = l.bound ∧ (l.setPrev p t).doubled = l.doubled := by
  cases p <;> exact ⟨rfl, rfl⟩

theorem binding_congr (h : l'.bound = l.bound) (k : Label) : l'.binding k = l.binding k := by
  simp [binding, h]

/-- Linking a new node keeps a listing well-formed. -/
theorem WellFormed.link {xs ys : List Ref} (h : l.WellFormed) (hxy : l.refs = xs ++ ys)
    (i : Insn) : ((l.alloc i).2.link l.nodes.size xs.getLast? ys.head?).WellFormed := by
  have hs : l.Spells (xs ++ ys) := hxy ▸ h.spells
  have hl : l.Labelled (· ∈ xs ++ ys) := hxy ▸ h.labelled
  have hnew := hs.size_notMem
  have hp : xs.getLast? ≠ some l.nodes.size := fun e =>
    hnew (List.mem_append_left _ (List.mem_of_getLast? e))
  have hq : ys.head? ≠ some l.nodes.size := fun e =>
    hnew (List.mem_append_right _ (List.mem_of_head? e))
  refine (hs.link i).wellFormed ?_
  -- the listing right before the new node is bound
  set m : Listing := (((⟨(l.alloc i).2.nodes.modify l.nodes.size
      fun n => ⟨n.insn, xs.getLast?, ys.head?, true⟩, l.bound, l.doubled, l.first, l.last,
      l.length⟩ : Listing).setNext xs.getLast? (some l.nodes.size)).setPrev ys.head?
      (some l.nodes.size)) with hm
  have hbound : m.bound = l.bound := by rw [hm, (setPrev_table _ _).1, (setNext_table _ _).1]
  have hdoubled : m.doubled = l.doubled := by
    rw [hm, (setPrev_table _ _).2, (setNext_table _ _).2]
  have hlink : (l.alloc i).2.link l.nodes.size xs.getLast? ys.head? =
      ({ m with length := m.length + 1 } : Listing).bind l.nodes.size := rfl
  have hold : ({ m with length := m.length + 1 } : Listing).Labelled (· ∈ xs ++ ys) := by
    refine hl.congr (fun k => ?_) (fun k hk => ?_) fun q hqm => ?_
    · exact binding_congr hbound k
    · change k ∈ m.doubled
      rwa [hdoubled]
    · have hne : q ≠ l.nodes.size := fun e => hnew (e ▸ hqm)
      have hi := insn?_link_alloc i hp hq q
      rw [if_neg hne, hlink, insn?, bind_nodes] at hi
      simp only [placedAt, insn?] at hi ⊢
      rw [hi]
  rw [hlink]
  refine (hold.bind hnew).mono fun q => ?_
  simp only [List.mem_append, List.mem_cons]
  tauto

theorem WellFormed.remove (h : l.WellFormed) (r : Ref) : (l.remove r).WellFormed := by
  by_cases hr : r ∈ l.refs
  · obtain ⟨xs, ys, hsplit⟩ := List.append_of_mem hr
    have hs : l.Spells (xs ++ r :: ys) := hsplit ▸ h.spells
    refine hs.remove.wellFormed ?_
    obtain ⟨i, hi⟩ := hs.node xs r ys rfl
    have hbound : (l.remove r).bound = (l.unbind r).bound := by
      simp [Listing.remove, hi, setPrev_table, setNext_table]
    have hdoubled : (l.remove r).doubled = (l.unbind r).doubled := by
      simp [Listing.remove, hi, setPrev_table, setNext_table]
    have hun := h.labelled.unbind (r := r) fun q => Iff.rfl
    refine (hun.congr (binding_congr hbound) (fun k hk => by rwa [hdoubled])
      fun q _ => ?_).mono fun q => ?_
    · rw [placedAt_unbind, placedAt, insn?_remove, placedAt]
    · have hnd := List.perm_middle.nodup_iff.mp hs.nodup
      have hr' := (List.nodup_cons.mp hnd).1
      rw [hsplit]
      simp only [List.mem_append, List.mem_cons] at hr' ⊢
      constructor
      · tauto
      · intro hq
        exact ⟨by tauto, fun e => hr' (e ▸ hq)⟩
  · rw [h.spells.remove_of_notMem hr]
    exact h

theorem WellFormed.set (h : l.WellFormed) (r : Ref) (i : Insn) : (l.set r i).WellFormed := by
  refine (h.spells.set r i).wellFormed ?_
  unfold Listing.set
  dsimp only
  split
  · next hlink =>
    have hr : r ∈ l.refs := h.spells.isLinked_iff.mp hlink
    -- out of account, changed, and bound again
    have hun := h.labelled.unbind (r := r) fun q => Iff.rfl
    have hput : ({ l.unbind r with
        nodes := (l.unbind r).nodes.modify r fun n => { n with insn := i } } : Listing).Labelled
        fun q => q ∈ l.refs ∧ q ≠ r := by
      refine hun.congr (fun k => rfl) (fun k hk => hk) fun q hq => ?_
      simp [placedAt, insn?, Array.getElem?_modify, Ne.symm hq.2]
    refine (hput.bind (r := r) fun e => e.2 rfl).mono fun q => ?_
    constructor
    · rintro (rfl | hq)
      · exact hr
      · exact hq.1
    · intro hq
      by_cases e : q = r
      · exact .inl e
      · exact .inr ⟨hq, e⟩
  · next hlink =>
    -- a node outside the sequence is not in account
    have hr : r ∉ l.refs := fun e => hlink (h.spells.isLinked_iff.mpr e)
    refine h.labelled.congr (fun k => rfl) (fun k hk => hk) fun q hq => ?_
    have hne : r ≠ q := fun e => hr (e ▸ hq)
    simp [placedAt, insn?, Array.getElem?_modify, hne]

/-! ### Listings made by editing -/

/-- The listings that editing gives, when every node named as an anchor is part of the
sequence. Any node may be removed or replaced. -/
inductive Built : Listing → Prop
  | empty : Built empty
  | fork {l : Listing} : Built l → Built l.fork
  | newLabel {l : Listing} : Built l → Built l.newLabel.2
  | append {l : Listing} (i : Insn) : Built l → Built (l.append i).2
  | prepend {l : Listing} (i : Insn) : Built l → Built (l.prepend i).2
  | insertAfter {l : Listing} {a : Ref} (i : Insn) : Built l → l.isLinked a = true →
      Built (l.insertAfter (some a) i).2
  | insertBefore {l : Listing} {a : Ref} (i : Insn) : Built l → l.isLinked a = true →
      Built (l.insertBefore (some a) i).2
  | remove {l : Listing} (r : Ref) : Built l → Built (l.remove r)
  | set {l : Listing} (r : Ref) (i : Insn) : Built l → Built (l.set r i)

/-- A label that is handed out is not bound. -/
theorem binding_newLabel (lbl : Label) : l.newLabel.2.binding lbl = l.binding lbl := by
  rcases Int.lt_or_le lbl 0 with hk | hk
  · rw [binding_of_neg hk, binding_of_neg hk]
  · rw [binding_of_nonneg hk, binding_of_nonneg hk]
    simp only [Listing.newLabel, Array.getElem?_push]
    split
    · next e => simp [e]
    · rfl

namespace WellFormed

theorem empty : Listing.empty.WellFormed := by
  refine spells_empty.wellFormed ⟨fun {k q} hk => ?_, by simp, by simp⟩
  simp [binding, Listing.empty] at hk

theorem fork (l : Listing) : l.fork.WellFormed := by
  refine (spells_fork l).wellFormed ⟨fun {k q} hk => ?_, by simp, by simp⟩
  rw [binding_of_nonneg (nonneg_of_binding hk), Listing.fork, Array.getElem?_replicate] at hk
  split at hk <;> cases hk

theorem newLabel (h : l.WellFormed) : l.newLabel.2.WellFormed :=
  h.spells.newLabel.wellFormed (h.labelled.congr binding_newLabel (fun _ hk => hk) fun _ _ => rfl)

theorem append (h : l.WellFormed) (i : Insn) : (l.append i).2.WellFormed := by
  have hxy : l.refs = l.refs ++ [] := by simp
  have hlink := h.link hxy i
  rwa [← h.spells.last_eq, List.head?_nil] at hlink

theorem prepend (h : l.WellFormed) (i : Insn) : (l.prepend i).2.WellFormed := by
  have hxy : l.refs = [] ++ l.refs := rfl
  have hlink := h.link hxy i
  rwa [← h.spells.first_eq, List.getLast?_nil] at hlink

theorem insertAfter (h : l.WellFormed) (hr : l.isLinked r = true) (i : Insn) :
    (l.insertAfter (some r) i).2.WellFormed := by
  obtain ⟨xs, ys, hsplit⟩ := List.append_of_mem (h.spells.isLinked_iff.mp hr)
  have hs : l.Spells (xs ++ r :: ys) := hsplit ▸ h.spells
  have hne : r ≠ l.nodes.size := fun e => hs.size_notMem (by simp [e])
  have hnext : (l.alloc i).2.next (some r) = ys.head? := by
    rw [← hs.next_eq]
    simp [next, alloc, Array.getElem?_push, hne]
  have hxy : l.refs = (xs ++ [r]) ++ ys := by simp [hsplit]
  have hlink := h.link hxy i
  rw [List.getLast?_concat] at hlink
  simp only [Listing.insertAfter, hnext]
  exact hlink

theorem insertBefore (h : l.WellFormed) (hr : l.isLinked r = true) (i : Insn) :
    (l.insertBefore (some r) i).2.WellFormed := by
  obtain ⟨xs, ys, hsplit⟩ := List.append_of_mem (h.spells.isLinked_iff.mp hr)
  have hs : l.Spells (xs ++ r :: ys) := hsplit ▸ h.spells
  have hne : r ≠ l.nodes.size := fun e => hs.size_notMem (by simp [e])
  have hprev : (l.alloc i).2.prev (some r) = xs.getLast? := by
    rw [← hs.prev_eq]
    simp [prev, alloc, Array.getElem?_push, hne]
  have hlink := h.link hsplit i
  rw [List.head?_cons] at hlink
  simp only [Listing.insertBefore, hprev]
  exact hlink

theorem appendAll (h : l.WellFormed) (is : List Insn) : (l.appendAll is).WellFormed := by
  induction is generalizing l with
  | nil => exact h
  | cons i is ih => exact ih (h.append i)

end WellFormed

theorem Built.newLabels (h : l.Built) (n : Nat) : (l.newLabels n).Built := by
  induction n generalizing l with
  | zero => exact h
  | succ n ih => exact ih h.newLabel

theorem Built.appendAll (h : l.Built) (is : List Insn) : (l.appendAll is).Built := by
  induction is generalizing l with
  | nil => exact h
  | cons i is ih => exact ih (h.append i)

theorem Built.ofInsns (n : Nat) (is : List Insn) : (ofInsns n is).Built :=
  (Built.empty.newLabels n).appendAll is

/-- Editing keeps listings well-formed. -/
theorem Built.wellFormed (h : l.Built) : l.WellFormed := by
  induction h with
  | empty => exact .empty
  | fork _ _ => exact .fork _
  | newLabel _ ih => exact ih.newLabel
  | append i _ ih => exact ih.append i
  | prepend i _ ih => exact ih.prepend i
  | insertAfter i _ ha ih => exact ih.insertAfter ha i
  | insertBefore i _ ha ih => exact ih.insertBefore ha i
  | remove r _ ih => exact ih.remove r
  | set r i _ ih => exact ih.set r i

/-! ### Labels that stay bound -/

section Bound

variable {q : Ref} {i : Insn}

/-- Binding another node leaves a label that is bound to its node. -/
theorem binding_bind (r : Ref) (hb : l.binding lbl = some q) : (l.bind r).binding lbl = some q := by
  by_cases hp : ∀ k, l.placedAt r = some k → k < 0
  · rw [bind_eq_self hp, hb]
  · simp only [not_forall, Int.not_lt] at hp
    obtain ⟨k, hp, h0⟩ := hp
    cases hk : l.binding k with
    | none =>
      have hne : lbl ≠ k := fun e => by
        rw [e, hk] at hb
        cases hb
      rw [(binding_bind_of_free hp h0 hk lbl).1, if_neg hne, hb]
    | some t =>
      by_cases htr : t = r
      · unfold placedAt at hp
        simp only [Listing.bind, hp, Int.not_lt.mpr h0, if_false, binding_reserve, hk, htr, if_true,
          hb]
      · rw [(binding_bind_of_taken hp h0 hk htr lbl).1, hb]

theorem binding_link (r : Ref) (p s : Option Ref) (hb : l.binding lbl = some q) :
    (l.link r p s).binding lbl = some q := by
  refine binding_bind r ?_
  rw [← hb]
  refine binding_congr ?_ lbl
  change ((Listing.setNext _ p (some r)).setPrev s (some r)).bound = _
  rw [(setPrev_table _ _).1, (setNext_table _ _).1]

theorem binding_insertAfter (anchor : Option Ref) (i : Insn) (hb : l.binding lbl = some q) :
    (l.insertAfter anchor i).2.binding lbl = some q := by
  cases anchor with
  | none => exact binding_link _ _ _ hb
  | some a => exact binding_link _ _ _ hb

theorem binding_insertAllAfter {anchor : Option Ref} {is : List Insn}
    (hb : l.binding lbl = some q) : (l.insertAllAfter anchor is).2.binding lbl = some q := by
  induction is generalizing l anchor with
  | nil => exact hb
  | cons i is ih => exact ih (binding_insertAfter anchor i hb)

theorem binding_appendAll {is : List Insn} (hb : l.binding lbl = some q) :
    (l.appendAll is).binding lbl = some q := by
  induction is generalizing l with
  | nil => exact hb
  | cons i is ih => exact ih (binding_link _ _ _ hb)

/-- Removing a node that places no label leaves the label table alone. -/
theorem WellFormed.binding_remove (h : l.WellFormed) (hp : l.placedAt r = none) (lbl : Label) :
    (l.remove r).binding lbl = l.binding lbl := by
  have hun : l.unbind r = l := by
    refine unbind_eq_self fun k hk => ?_
    rw [(h.labelled.sound hk).2] at hp
    cases hp
  refine binding_congr ?_ lbl
  unfold Listing.remove
  split
  · rfl
  · split
    · change ((Listing.setNext _ _ _).setPrev _ _).bound = _
      rw [(setPrev_table _ _).1, (setNext_table _ _).1, hun]
    · rfl

/-- A label is bound to the only node that places it. -/
theorem WellFormed.binding_of_unique (h : l.WellFormed) (hr : r ∈ l.refs)
    (hp : l.placedAt r = some lbl) (h0 : 0 ≤ lbl)
    (hone : ∀ q ∈ l.refs, l.placedAt q = some lbl → q = r) : l.binding lbl = some r := by
  obtain ⟨q, hq⟩ := h.labelled.complete hr hp h0
  obtain ⟨hmem, hpq⟩ := h.labelled.sound hq
  rw [hq, hone q hmem hpq]

end Bound

/-! ### Listings that resolve -/

/-- The placements of a label are the nodes that place it. -/
theorem WellFormed.placements_eq (h : l.WellFormed) (lbl : Label) :
    l.placements lbl = l.refs.countP fun t => l.placedAt t = some lbl := by
  rw [placements, insns, ← List.countP_eq_length_filter, List.countP_filterMap]
  refine List.countP_congr fun t ht => ?_
  obtain ⟨i, hi⟩ := h.spells.exists_insn ht
  simp [placedAt, hi]

/-- In a listing that resolves, a label is bound where it is placed. -/
theorem WellFormed.binding_of_resolve (h : l.WellFormed) (hr : l.resolve = .ok ())
    (hmem : r ∈ l.refs) (hp : l.placedAt r = some lbl) (h0 : 0 ≤ lbl) :
    l.binding lbl = some r := by
  obtain ⟨q, hq⟩ := h.labelled.complete hmem hp h0
  obtain ⟨hqmem, hqp⟩ := h.labelled.sound hq
  by_cases hne : r = q
  · rw [hq, hne]
  · exfalso
    have hdoubled := h.labelled.doubled hmem hqmem hne hp hqp h0
    -- two nodes place the label, so the check of placements fails
    have htwo : 1 < l.placements lbl := by
      have hsub : [r, q].Subperm l.refs :=
        List.Nodup.subperm (by simpa using hne) (by simp [hmem, hqmem])
      obtain ⟨ts, hperm, hts⟩ := hsub
      have hcount := h.placements_eq lbl
      have hle : ts.countP (fun t => l.placedAt t = some lbl) ≤
          l.refs.countP fun t => l.placedAt t = some lbl := hts.countP_le
      have hts2 : ts.countP (fun t => l.placedAt t = some lbl) = 2 := by
        rw [hperm.countP_eq]
        simp [hp, hqp]
      omega
    obtain ⟨⟨⟩, hcheck, -⟩ := Except.bind_eq_ok_iff.mp hr
    unfold checkPlacements at hcheck
    split at hcheck
    · cases hcheck
    · next hnone =>
      rw [Array.find?_eq_none] at hnone
      exact hnone lbl hdoubled (by simpa using htwo)

/-- In a listing that resolves, every label referred to is bound. -/
theorem exists_binding_of_resolve (hr : l.resolve = .ok ()) {i : Insn}
    (hi : i ∈ l.insns) (hlbl : lbl ∈ i.labels) : ∃ r, l.binding lbl = some r := by
  obtain ⟨-, -, hcheck⟩ := Except.bind_eq_ok_iff.mp hr
  unfold checkReferences at hcheck
  split at hcheck
  · cases hcheck
  · next hnone =>
    rw [List.findSome?_eq_none_iff] at hnone
    have hdang := hnone i hi
    rw [Option.map_eq_none_iff, dangling?, List.find?_eq_none] at hdang
    have hb := hdang lbl hlbl
    cases hbind : l.binding lbl with
    | some r => exact ⟨r, rfl⟩
    | none => simp [hbind] at hb

/-- The labels that the sequence places, in order. -/
theorem WellFormed.placed_eq (h : l.WellFormed) :
    l.insns.filterMap Insn.placed? = l.refs.filterMap l.placedAt := by
  rw [h.spells.insns_eq, List.filterMap_filterMap]
  rfl

/-- In a listing that resolves, no label is placed twice. -/
theorem WellFormed.nodup_placed (h : l.WellFormed) (hr : l.resolve = .ok ())
    (h0 : ∀ lbl ∈ l.insns.filterMap Insn.placed?, 0 ≤ lbl) :
    (l.insns.filterMap Insn.placed?).Nodup := by
  rw [h.placed_eq] at h0 ⊢
  refine List.pairwise_filterMap.mpr (h.spells.nodup.imp_of_mem fun {r q} hmem hmem' hne => ?_)
  rintro lbl hp lbl' hp' rfl
  have hlbl := h0 lbl (List.mem_filterMap.mpr ⟨r, hmem, hp⟩)
  have hbound := h.binding_of_resolve hr hmem hp hlbl
  rw [h.binding_of_resolve hr hmem' hp' hlbl] at hbound
  exact hne (Option.some.inj hbound).symm

/-- In a listing that resolves, every label referred to is placed. -/
theorem WellFormed.mem_placed_of_resolve (h : l.WellFormed) (hr : l.resolve = .ok ()) {i : Insn}
    (hi : i ∈ l.insns) (hlbl : lbl ∈ i.labels) : lbl ∈ l.insns.filterMap Insn.placed? := by
  obtain ⟨r, hb⟩ := exists_binding_of_resolve hr hi hlbl
  obtain ⟨hmem, hp⟩ := h.labelled.sound hb
  rw [h.placed_eq]
  exact List.mem_filterMap.mpr ⟨r, hmem, hp⟩

/-- A label that is placed has a number below that of the next one. -/
theorem WellFormed.lt_numLabels (h : l.WellFormed) (h0 : 0 ≤ lbl)
    (hlbl : lbl ∈ l.insns.filterMap Insn.placed?) : lbl.toNat < l.numLabels := by
  rw [h.placed_eq] at hlbl
  obtain ⟨r, hmem, hp⟩ := List.mem_filterMap.mp hlbl
  obtain ⟨q, hq⟩ := h.labelled.complete hmem hp h0
  rw [binding, if_neg (Int.not_lt.mpr h0), Option.join_eq_some_iff] at hq
  exact (Array.getElem?_eq_some_iff.mp hq).1

/-- Placing a label that was handed out takes no new one. -/
theorem numLabels_bind (h : ∀ k, l.placedAt r = some k → k < l.numLabels) :
    (l.bind r).numLabels = l.numLabels := by
  unfold bind
  split
  · rfl
  · next k hk =>
    split
    · rfl
    · next hneg =>
      have hlt : k.toNat < l.bound.size := (Int.toNat_lt (Int.not_lt.mp hneg)).mpr (h k hk)
      have hsize : (l.reserve (k.toNat + 1)).bound.size = l.bound.size := by
        rw [reserve, Array.size_append, Array.size_replicate]
        omega
      dsimp only
      split
      · split
        · exact hsize
        · exact hsize
      · rw [numLabels, Array.size_setIfInBounds, hsize]
        rfl

theorem Spells.numLabels_append {rs : List Ref} {i : Insn} (hl : l.Spells rs)
    (h : ∀ k, i.placed? = some k → k < l.numLabels) : (l.append i).2.numLabels = l.numLabels := by
  have hlast : l.last ≠ some l.nodes.size := fun heq =>
    hl.size_notMem (List.mem_of_getLast? (hl.last_eq ▸ heq))
  have hinsn : (l.append i).2.insn? l.nodes.size = some i :=
    (insn?_link_alloc i hlast (s := none) nofun _).trans (if_pos rfl)
  have hbound : ∀ (l : Listing) (p s : Option Ref) (r : Ref),
      ((l.setNext p (some r)).setPrev s (some r)).bound = l.bound := by
    intro l p s r
    cases p <;> cases s <;> rfl
  obtain ⟨pre, hpre, hsize⟩ : ∃ pre : Listing, (l.append i).2 = pre.bind l.nodes.size ∧
      pre.numLabels = l.numLabels := ⟨_, rfl, congrArg Array.size (hbound _ _ _ _)⟩
  rw [hpre, insn?, bind_nodes] at hinsn
  rw [hpre, numLabels_bind, hsize]
  intro k hk
  rw [hsize]
  rw [placedAt, insn?, hinsn] at hk
  exact h k hk

/-- A listing has as many labels as were handed out, if no other is placed. -/
theorem numLabels_ofInsns {n : Nat} {is : List Insn}
    (h : ∀ i ∈ is, ∀ k, i.placed? = some k → k < n) : (ofInsns n is).numLabels = n := by
  have happend : ∀ (is : List Insn) (l : Listing) (rs : List Ref), l.Spells rs →
      (∀ i ∈ is, ∀ k, i.placed? = some k → k < l.numLabels) →
        (l.appendAll is).numLabels = l.numLabels := by
    intro is
    induction is with
    | nil => exact fun _ _ _ _ => rfl
    | cons i is ih =>
      intro l rs hl his
      have hi := hl.numLabels_append (his i List.mem_cons_self)
      refine (ih _ _ (hl.append i) fun j hj => ?_).trans hi
      rw [hi]
      exact his j (List.mem_cons_of_mem _ hj)
  have hzero : (empty.newLabels n).numLabels = n := by simp [newLabels_eq, numLabels, empty]
  refine (happend is _ _ (spells_empty.newLabels n) ?_).trans hzero
  rwa [hzero]

theorem placements_eq_count (l : Listing) (k : Label) :
    l.placements k = (l.insns.filterMap Insn.placed?).count k := by
  rw [placements, ← List.countP_eq_length_filter, List.count, List.countP_filterMap]
  refine List.countP_congr fun i _ => ?_
  cases i.placed? <;> simp

/-- A listing resolves if every label is placed once at most and those referred to are placed. -/
theorem WellFormed.resolve_of_placed (h : l.WellFormed)
    (hnodup : (l.insns.filterMap Insn.placed?).Nodup)
    (hlabels : ∀ i ∈ l.insns, ∀ lbl ∈ i.labels, 0 ≤ lbl ∧ lbl ∈ l.insns.filterMap Insn.placed?) :
    l.resolve = .ok () := by
  have hplacements : l.checkPlacements = .ok () := by
    have hone : ∀ lbl, l.placements lbl ≤ 1 := by
      intro lbl
      rw [placements_eq_count]
      exact List.nodup_iff_count_le_one.mp hnodup lbl
    have hnone : (l.doubled.find? fun lbl => 1 < l.placements lbl) = none := by
      rw [Array.find?_eq_none]
      intro lbl _
      simpa using hone lbl
    rw [checkPlacements, hnone]
  have hreferences : l.checkReferences = .ok () := by
    have hnone : (l.insns.findSome? fun i => (l.dangling? i).map (i, ·)) = none := by
      rw [List.findSome?_eq_none_iff]
      intro i hi
      rw [Option.map_eq_none_iff, dangling?, List.find?_eq_none]
      intro lbl hlbl hb
      obtain ⟨h0, hplaced⟩ := hlabels i hi lbl hlbl
      rw [h.placed_eq] at hplaced
      obtain ⟨r, hmem, hp⟩ := List.mem_filterMap.mp hplaced
      exact (h.binding_eq_none_iff h0).mp (of_decide_eq_true hb) r hmem hp
    rw [checkReferences, hnone]
  rw [resolve, hplacements]
  exact hreferences

end ClassWeaver.Listing
