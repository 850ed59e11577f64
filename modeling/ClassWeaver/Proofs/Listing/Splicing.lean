import ClassWeaver.Proofs.Listing.Editing

/-!
# Splices

A listing is spliced when new code takes the place of one of its nodes, or goes between two
(`Spliced`). Everything else stays: the other nodes in their order, their instructions, and the
nodes that labels are bound to. What stands behind a node is then what stood there before, but for
the node in front of the code (`Spliced.next_kept`).

Inserting behind a node is a splice (`Spliced.insertAfter`), and so is inserting code behind a node
that is removed afterwards, as long as the labels that the code places are not bound
(`Spliced.replace`). -/

namespace ClassWeaver.Listing

/-! ### Splices -/

variable {l l' : Listing} {xs ys : List Ref} {old : Option Ref} {code : List Insn}
variable {r t : Ref} {k : Nat} {lbl : Label}

/-- The listing `l'` holds new nodes with the code where `l` has the node `old`, or between two
nodes where there is none. Labels that were bound are bound to the same nodes, and the labels that
the code places to nodes of it. -/
structure Spliced (l l' : Listing) (xs : List Ref) (old : Option Ref) (code : List Insn)
    (ys : List Ref) : Prop where
  built : l'.Built
  refs_eq : l.refs = xs ++ (old.toList ++ ys)
  mirrors : l'.Mirrors
    ⟨xs ++ (List.range' l.nodes.size code.length ++ ys), l.texts ++ code⟩
  binding : ∀ {lbl r}, l.binding lbl = some r → l'.binding lbl = some r
  placed : ∀ {k lbl}, code[k]?.bind Insn.placed? = some lbl →
    l'.binding lbl = some (l.nodes.size + k)

namespace Spliced

/-- The places of the code are its nodes. -/
theorem slot_new {n : Nat} (hk : k < code.length) :
    (List.range' n code.length ++ ys)[k]? = some (n + k) := by
  rw [List.getElem?_append_left (by simpa using hk), List.getElem?_range' hk, Nat.one_mul]

/-- Behind the last place of the code stands what stood behind it before. -/
theorem slot_behind {n : Nat} : (List.range' n code.length ++ ys)[code.length]? = ys.head? := by
  rw [List.getElem?_append_right (by simp), List.head?_eq_getElem?]
  simp

variable (hs : l.Spliced l' xs old code ys)

include hs

theorem spells' : l'.Spells (xs ++ (List.range' l.nodes.size code.length ++ ys)) :=
  hs.mirrors.spells

theorem refs_eq' : l'.refs = xs ++ (List.range' l.nodes.size code.length ++ ys) :=
  hs.spells'.refs_eq

theorem size_eq : l'.nodes.size = l.nodes.size + code.length := by
  rw [← hs.mirrors.length_texts, List.length_append, length_texts]

/-- No node changes its instruction. -/
theorem insn?_old (hr : r < l.nodes.size) : l'.insn? r = l.insn? r := by
  rw [hs.mirrors.insn?_eq, List.getElem?_append_left (by rwa [length_texts]), getElem?_texts]

theorem insn?_new (k : Nat) : l'.insn? (l.nodes.size + k) = code[k]? := by
  rw [hs.mirrors.insn?_eq, List.getElem?_append_right
    (by rw [length_texts]; exact Nat.le_add_right ..),
    length_texts, Nat.add_sub_cancel_left]

/-- The nodes from the first of the code on, those behind it included. -/
theorem next_new (hk : k < code.length) : l'.next (some (l.nodes.size + k)) =
    (List.range' l.nodes.size code.length ++ ys)[k + 1]? := by
  have hsplit : List.range' l.nodes.size code.length =
      List.range' l.nodes.size k ++ (l.nodes.size + k) ::
        List.range' (l.nodes.size + k + 1) (code.length - (k + 1)) := by
    have hlen : code.length = k + (code.length - (k + 1) + 1) := by omega
    rw [← List.range'_succ, List.range'_append_1, ← hlen]
  have hsp := hs.spells'
  rw [hsplit, List.append_assoc, List.cons_append, ← List.append_assoc] at hsp
  rw [hsp.next_eq, hsplit, List.append_assoc, List.getElem?_append_right (by simp)]
  simp [List.head?_eq_getElem?]

/-- The nodes of the listing are those that stay and the one that goes. -/
theorem mem_refs : r ∈ l.refs ↔ r ∈ xs ++ ys ∨ some r = old := by
  rw [hs.refs_eq]
  cases old with
  | none => simp
  | some q =>
    simp only [Option.toList_some, List.mem_append, List.mem_singleton, Option.some.injEq]
    tauto

theorem mem_refs' : r ∈ l'.refs ↔ r ∈ xs ++ ys ∨ r ∈ List.range' l.nodes.size code.length := by
  rw [hs.refs_eq']
  simp only [List.mem_append]
  tauto

variable (hl : l.WellFormed)

include hl

theorem lt_size (hr : r ∈ xs ++ ys) : r < l.nodes.size :=
  hl.spells.lt_size (hs.mem_refs.mpr (.inl hr))

theorem ne_old (hr : r ∈ xs ++ ys) : some r ≠ old := by
  have hnd : (xs ++ (old.toList ++ ys)).Nodup := hs.refs_eq ▸ hl.spells.nodup
  rintro rfl
  rw [Option.toList_some, List.singleton_append, List.perm_middle.nodup_iff] at hnd
  exact (List.nodup_cons.mp hnd).1 hr

variable (ht : (old.toList ++ ys).head? = some t)

include ht

/-- The place that the code takes is that of the node that goes, or that of the node behind. -/
theorem head_of_kept (htk : t ∈ xs ++ ys) : ys.head? = some t := by
  cases old with
  | none => exact ht
  | some q => exact absurd ht (hs.ne_old hl htk ∘ Eq.symm)

theorem notMem_front : t ∉ xs := by
  have hnd : (xs ++ (old.toList ++ ys)).Nodup := hs.refs_eq ▸ hl.spells.nodup
  intro hx
  exact (List.nodup_append.mp hnd).2.2 t hx t (List.mem_of_head? ht) rfl

theorem notMem_tail {y : Ref} {zs : List Ref} (hy : ys = y :: zs) : t ∉ zs := by
  have hnd : (xs ++ (old.toList ++ ys)).Nodup := hs.refs_eq ▸ hl.spells.nodup
  have hnd' := (List.nodup_append.mp hnd).2.1
  subst hy
  cases old with
  | none =>
    obtain rfl : y = t := Option.some.inj ht
    exact (List.nodup_cons.mp hnd').1
  | some q =>
    obtain rfl : q = t := Option.some.inj ht
    exact fun hz => (List.nodup_cons.mp hnd').1 (List.mem_cons_of_mem _ hz)

variable (hcode : code ≠ [])

include hcode

/-- What stands behind a node stays behind it, or is the place where the code begins. -/
theorem next_kept {q : Ref} (hr : r ∈ xs ++ ys) (hq : l.next (some r) = some q) :
    (q ≠ t ∧ l'.next (some r) = some q ∧ q ∈ xs ++ ys) ∨
      (q = t ∧ l'.next (some r) = some l.nodes.size) := by
  have hsp : l.Spells (xs ++ (old.toList ++ ys)) := hs.refs_eq ▸ hl.spells
  have hsp' := hs.spells'
  rcases List.mem_append.mp hr with hx | hy
  · have hfront := hs.notMem_front hl ht
    obtain ⟨as, bs, rfl⟩ := List.append_of_mem hx
    rw [List.append_assoc, List.cons_append] at hsp hsp'
    rw [hsp.next_eq] at hq
    rw [hsp'.next_eq]
    cases bs with
    | nil =>
      -- the last node in front stands before the code
      rw [List.nil_append, ht, Option.some.injEq] at hq
      obtain ⟨m, hm⟩ := Nat.exists_eq_succ_of_ne_zero (mt List.length_eq_zero_iff.mp hcode)
      exact .inr ⟨hq.symm, by rw [hm, List.range'_succ]; rfl⟩
    | cons b bs =>
      rw [List.cons_append, List.head?_cons, Option.some.injEq] at hq
      subst hq
      have hbt : b ≠ t := by
        rintro rfl
        exact hfront (by simp)
      exact .inl ⟨hbt, rfl, by simp⟩
  · obtain ⟨as, bs, rfl⟩ := List.append_of_mem hy
    -- behind the code nothing moves
    have htail : t ∉ bs := by
      intro hb
      cases as with
      | nil => exact hs.notMem_tail hl ht rfl hb
      | cons a as => exact hs.notMem_tail hl ht rfl (by simp [hb])
    rw [← List.append_assoc, ← List.append_assoc] at hsp hsp'
    rw [hsp.next_eq] at hq
    have hqt : q ≠ t := fun e => htail (e ▸ List.mem_of_head? hq)
    rw [hsp'.next_eq, hq]
    exact .inl ⟨hqt, rfl, by simp [List.mem_of_head? hq]⟩

/-! ### Splicing by editing -/

omit hs hl ht hcode

/-- Inserting instructions behind a node. -/
theorem insertAllAfter_mirrors {p : Ref} (hs : l.Spells (xs ++ p :: ys)) (is : List Insn) :
    (l.insertAllAfter (some p) is).1 = (List.range' l.nodes.size is.length).getLast?.or (some p) ∧
      (l.insertAllAfter (some p) is).2.Mirrors
        ⟨xs ++ p :: (List.range' l.nodes.size is.length ++ ys), l.texts ++ is⟩ := by
  have hrefs := hs.refs_eq
  have hm : l.Mirrors ⟨l.refs, l.texts⟩ := ⟨hrefs ▸ hs, rfl⟩
  have hmem : ∀ a, some p = some a → a ∈ l.refs := by
    rintro a ⟨⟩
    simp [hrefs]
  obtain ⟨hanswer, hall⟩ : (l.insertAllAfter (some p) is).1 = _ ∧ _ := hm.insertAllAfter hmem
  have hfresh : (⟨l.refs, l.texts⟩ : Script).fresh is.length =
      List.range' l.nodes.size is.length := by
    rw [Script.fresh, length_texts]
  rw [hfresh] at hanswer
  refine ⟨hanswer, ?_⟩
  rw [Script.add, hfresh] at hall
  dsimp only at hall
  rwa [hrefs, Script.behind_eq hs.nodup] at hall

/-- A new node behind another is a splice. -/
theorem insertAfter {p : Ref} {i : Insn} (hl : l.Built) (hrefs : l.refs = xs ++ p :: ys)
    (hi : i.placed? = none) : l.Spliced (l.insertAfter (some p) i).2 (xs ++ [p]) none [i] ys where
  built := hl.insertAfter i (hl.wellFormed.spells.isLinked_iff.mpr (by simp [hrefs]))
  refs_eq := by simpa using hrefs
  mirrors := by
    have hall : (l.insertAfter (some p) i).2.Mirrors _ :=
      (insertAllAfter_mirrors (hrefs ▸ hl.wellFormed.spells) [i]).2
    simpa using hall
  binding := binding_insertAfter _ i
  placed {k lbl} hp := by
    cases k with
    | zero =>
      rw [List.getElem?_cons_zero, Option.bind_some, hi] at hp
      cases hp
    | succ k => cases hp

/-- New labels are bound to the nodes that the code places them at. -/
theorem binding_of_new (hl : l.WellFormed) (hl' : l'.WellFormed)
    (hm : l'.Mirrors ⟨xs ++ (List.range' l.nodes.size code.length ++ ys), l.texts ++ code⟩)
    (hold : ∀ q ∈ xs ++ ys, q ∈ l.refs)
    (hnew : ∀ i ∈ code, ∀ lbl, i.placed? = some lbl → 0 ≤ lbl ∧ l.binding lbl = none)
    (honce : (code.filterMap Insn.placed?).Nodup) (hk : code[k]?.bind Insn.placed? = some lbl) :
    l'.binding lbl = some (l.nodes.size + k) := by
  have hplaced : ∀ j, l'.placedAt (l.nodes.size + j) = code[j]?.bind Insn.placed? := by
    intro j
    rw [placedAt, hm.insn?_eq,
      List.getElem?_append_right (by rw [length_texts]; exact Nat.le_add_right ..), length_texts,
      Nat.add_sub_cancel_left]
  obtain ⟨i, hi, hlbl⟩ := Option.bind_eq_some_iff.mp hk
  obtain ⟨hklt, hik⟩ := List.getElem?_eq_some_iff.mp hi
  obtain ⟨h0, hfree⟩ := hnew i (List.mem_of_getElem? hi) lbl hlbl
  refine hl'.binding_of_unique ?_ ((hplaced k).trans hk) h0 fun q hq hp => ?_
  · rw [hm.spells.refs_eq]
    simp [hklt]
  rw [hm.spells.refs_eq] at hq
  have hcases : q ∈ xs ++ ys ∨ q ∈ List.range' l.nodes.size code.length := by
    simp only [List.mem_append] at hq ⊢
    tauto
  rcases hcases with hkept | hnode
  · -- a label that is not bound is not placed by a node from before
    have hmem := hold q hkept
    refine absurd ?_ ((hl.binding_eq_none_iff h0).mp hfree q hmem)
    rw [← hp, placedAt, placedAt, hm.insn?_eq,
      List.getElem?_append_left (by rw [length_texts]; exact hl.spells.lt_size hmem),
      getElem?_texts]
  · obtain ⟨j, hj, rfl⟩ := List.mem_range'.mp hnode
    rw [Nat.one_mul, hplaced] at hp
    obtain ⟨i', hi', hlbl'⟩ := Option.bind_eq_some_iff.mp hp
    obtain ⟨hjlt, hij⟩ := List.getElem?_eq_some_iff.mp hi'
    rw [Nat.one_mul, Nat.add_left_cancel_iff]
    by_contra hne
    have hpair := List.pairwise_iff_getElem.mp (List.pairwise_filterMap.mp honce)
    rcases Nat.lt_or_gt_of_ne hne with hlt | hgt
    · exact hpair j k hjlt hklt hlt lbl (hij ▸ hlbl') lbl (hik ▸ hlbl) rfl
    · exact hpair k j hklt hjlt hgt lbl (hik ▸ hlbl) lbl (hij ▸ hlbl') rfl

/-- Code in place of a node that places no label is a splice, if the labels that the code places are
not bound and each is placed once. -/
theorem replace {p : Ref} (hl : l.Built) (hrefs : l.refs = xs ++ p :: ys)
    (hp : l.placedAt p = none) (hnew : ∀ i ∈ code, ∀ lbl, i.placed? = some lbl → 0 ≤ lbl ∧
    l.binding lbl = none)
    (honce : (code.filterMap Insn.placed?).Nodup) :
    l.Spliced ((l.insertAllAfter (some p) code).2.remove p) xs (some p) code ys := by
  have hwf := hl.wellFormed
  obtain ⟨-, hm⟩ := insertAllAfter_mirrors (hrefs ▸ hwf.spells) code
  have hbuilt : (l.insertAllAfter (some p) code).2.Built :=
    hl.insertAllAfter (hwf.spells.isLinked_iff.mpr (by simp [hrefs]))
  have hlt : p < l.nodes.size := hwf.spells.lt_size (by simp [hrefs])
  have hp' : (l.insertAllAfter (some p) code).2.placedAt p = none := by
    rw [placedAt, hm.insn?_eq, List.getElem?_append_left (by rwa [length_texts]), getElem?_texts]
    exact hp
  have hm' := hm.remove p
  have herase : (xs ++ p :: (List.range' l.nodes.size code.length ++ ys)).erase p =
      xs ++ (List.range' l.nodes.size code.length ++ ys) := by
    have hnd := List.nodup_append.mp hm.spells.nodup
    have hx : p ∉ xs := fun hx => hnd.2.2 p hx p (by simp) rfl
    rw [List.erase_append_right _ hx, List.erase_cons_head]
  dsimp only at hm'
  rw [herase] at hm'
  have hbind := hbuilt.wellFormed.binding_remove hp'
  refine ⟨hbuilt.remove p, hrefs, hm', fun hb => ?_, fun {k lbl} hk => ?_⟩
  · rw [hbind, binding_insertAllAfter hb]
  · refine binding_of_new hwf (hbuilt.remove p).wellFormed hm' (fun q hq => ?_) hnew honce hk
    rw [hrefs]
    simp only [List.mem_append, List.mem_cons] at hq ⊢
    tauto

/-- A splice into a listing in which a label was handed out is one into the listing before. -/
theorem of_newLabel (hl : l.WellFormed) (hs : l.newLabel.2.Spliced l' xs old code ys) :
    l.Spliced l' xs old code ys where
  built := hs.built
  refs_eq := by rw [← hs.refs_eq, hl.spells.newLabel.refs_eq]
  mirrors := hs.mirrors
  binding {lbl r} hb := hs.binding ((binding_newLabel lbl).trans hb)
  placed := hs.placed

end Spliced

end ClassWeaver.Listing
