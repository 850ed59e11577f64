import ClassWeaver.Proofs.Generator.Execution
import ClassWeaver.Proofs.Listing.Splicing

/-!
# Running a listing that was spliced

Code takes the place of a node that places no label (`Listing.Spliced`). The nodes that stay do what
they did: a step from one of them leads where it led, but that control which came to the node comes
to the first of the code (`Spliced.step_kept`). Jumps are right because bound labels stay bound
where they are, and exceptions because an entry tells what it covers by the placements in front of
and behind it, so that it covers the nodes of the code exactly if it covered the node
(`Spliced.handler?_eq`). What a run inside the code does is told by executing the code
(`Spliced.runs_execAll`). -/

namespace ClassWeaver

/-! ### Steps and runs -/

/-- A handler stands where its label is placed. -/
theorem Listing.exists_binding_of_handler? (l : Listing) {catches : Text → Bool} {q r : Ref}
    (h : l.handler? catches q = some r) : ∃ lbl, l.binding lbl = some r := by
  obtain ⟨i, -, hi⟩ := List.exists_of_findSome?_eq_some h
  unfold entryHandler? at hi
  split at hi
  · split at hi
    · exact ⟨_, hi⟩
    · cases hi
  · cases hi

section Runs

variable {V Heap : Type}

/-- The activation with control at `t` in place of `r`. -/
def Activation.redirect (r t : Ref) (s : Activation V Heap) : Activation V Heap :=
  { s with pc := if s.pc = r then t else s.pc }

/-- The same transfer, but to `t` in place of `r`. -/
def Transfer.redirect (r t : Ref) : Transfer V Heap → Transfer V Heap
  | .goes s => .goes (s.redirect r t)
  | .returned v heap fields => .returned v heap fields
  | .threw e heap => .threw e heap

end Runs

namespace Machine

variable {V Heap : Type} [DecidableEq V] (M : Machine V Heap) (added : List FieldKey)
variable (l : Listing)

/-- One step: an instruction, and where control goes then. -/
def step (s : Activation V Heap) : Option (Transfer V Heap) := do
  let i ← l.insn? s.pc
  let (ending, fields) ← M.exec added i s.frame s.fields
  M.transfer l s fields ending

/-- Steps that stay in the method lead from one activation to another. -/
inductive Runs : Activation V Heap → Activation V Heap → Prop
  | refl (s : Activation V Heap) : Runs s s
  | step {s t u : Activation V Heap} : M.step added l s = some (.goes t) → Runs t u → Runs s u

/-- A run comes to a step that ends in a transfer. -/
def Ends (s : Activation V Heap) (out : Transfer V Heap) : Prop :=
  ∃ u, M.Runs added l s u ∧ M.step added l u = some out

/-- The instruction that stands for control throws. -/
def Throws (s : Activation V Heap) : Prop :=
  ∃ i e heap, l.insn? s.pc = some i ∧ M.exec added i s.frame s.fields =
    some (.throws e heap, s.fields)

variable {M added l} {s t u : Activation V Heap} {i : Insn} {f f' : Frame V Heap}
variable {fields fields' : Fields V} {ending : Completion V Heap}

theorem step_eq (hi : l.insn? s.pc = some i)
    (he : M.exec added i s.frame s.fields = some (ending, fields)) :
    M.step added l s = M.transfer l s fields ending := by
  simp [step, hi, he]

theorem Runs.trans (h : M.Runs added l s t) (h' : M.Runs added l t u) : M.Runs added l s u := by
  induction h with
  | refl => exact h'
  | step hs _ ih => exact .step hs (ih h')

theorem Runs.single (h : M.step added l s = some (.goes t)) : M.Runs added l s t :=
  .step h (.refl t)

/-- Only the access to an instance field can be no matter of the machine. -/
theorem exec_of_opcode (hget : i.opcode ≠ .getField) (hput : i.opcode ≠ .putField) :
    M.exec added i f fields = some (M.run i f, fields) := by
  have hkey : i.instanceField? = none := by rw [Insn.instanceField?, if_neg (by simp [hget, hput])]
  rw [exec, hkey]
  rfl

theorem exec_jump {op : Opcode} {target : Label} :
    M.exec added (.jump op target) f fields = some (M.run (.jump op target) f, fields) := by
  have hshape : (Insn.jump op target).operand.shape ≠ .field := nofun
  exact exec_of_shape hshape

/-- An instruction branches to labels of its own only. -/
theorem mem_branches_of_exec {target : Label}
    (he : M.exec added i f fields = some (.jumps target f', fields')) : target ∈ i.branches := by
  unfold exec at he
  split at he
  · exact M.mem_branches_of_jumps (Prod.mk.inj (Option.some.inj he)).1
  · split at he
    · split at he <;> cases he
    · split at he <;> cases he

end Machine

/-! ### Nodes that stay -/

namespace Listing

/-- The node of `l` that a node stands for: a new one stands for `r`. -/
def standsFor (l : Listing) (r q : Ref) : Ref := if q < l.nodes.size then q else r

namespace Spliced

variable {l l' : Listing} {xs ys : List Ref} {r p q : Ref} {code : List Insn}
    {lbl : Label} {i : Insn}
variable (hs : l.Spliced l' xs (some r) code ys) (hl : l.WellFormed)

include hs hl

theorem standsFor_kept (hq : q ∈ xs ++ ys) : l.standsFor r q = q := if_pos (hs.lt_size hl hq)

omit hs hl in
theorem standsFor_new {n : Nat} (hq : q ∈ List.range' l.nodes.size n) : l.standsFor r q = r :=
  if_neg (Nat.not_lt.mpr (List.mem_range'_1.mp hq).1)

omit hl in
theorem mem_cases (hq : q ∈ l'.refs) :
    q ∈ xs ∨ q ∈ ys ∨ q ∈ List.range' l.nodes.size code.length := by
  rcases hs.mem_refs'.mp hq with hkept | hnew
  · exact (List.mem_append.mp hkept).imp_right .inl
  · exact .inr (.inr hnew)

omit hl in
/-- What is in front of the code stands where it stood. -/
theorem position_front (hq : q ∈ xs) : l'.position q = l.position q ∧ l.position q < xs.length := by
  rw [position, position, hs.refs_eq, hs.refs_eq', List.idxOf_append_of_mem hq,
    List.idxOf_append_of_mem hq]
  exact ⟨rfl, List.idxOf_lt_length_of_mem hq⟩

theorem position_old : l.position r = xs.length := by
  have hnd : (xs ++ r :: ys).Nodup := (hs.refs_eq : l.refs = xs ++ r :: ys) ▸ hl.spells.nodup
  have hx : r ∉ xs := fun h => (List.nodup_append.mp hnd).2.2 r h r (by simp) rfl
  rw [position, hs.refs_eq, List.idxOf_append_of_notMem hx]
  simp

omit hl in
theorem position_new (hq : q ∈ List.range' l.nodes.size code.length) :
    xs.length ≤ l'.position q ∧ l'.position q < xs.length + code.length := by
  have hx : q ∉ xs := fun h =>
    (List.nodup_append.mp hs.spells'.nodup).2.2 q h q (List.mem_append_left _ hq) rfl
  have hlt := List.idxOf_lt_length_of_mem hq
  rw [List.length_range'] at hlt
  rw [position, hs.refs_eq', List.idxOf_append_of_notMem hx, List.idxOf_append_of_mem hq]
  omega

/-- What is behind the code stands further behind, as the code is longer than one node. -/
theorem position_behind (hq : q ∈ ys) :
    l'.position q + 1 = l.position q + code.length ∧ xs.length < l.position q := by
  have hnd : (xs ++ r :: ys).Nodup := (hs.refs_eq : l.refs = xs ++ r :: ys) ▸ hl.spells.nodup
  have hnd' := hs.spells'.nodup
  have hx : q ∉ xs := fun h => (List.nodup_append.mp hnd).2.2 q h q (by simp [hq]) rfl
  have hr : r ≠ q := fun e =>
    (List.nodup_cons.mp (List.nodup_append.mp hnd).2.1).1 (e ▸ hq)
  have hn : q ∉ List.range' l.nodes.size code.length := fun h =>
    (List.nodup_append.mp (List.nodup_append.mp hnd').2.1).2.2 q h q hq rfl
  rw [position, position, hs.refs_eq, hs.refs_eq', List.idxOf_append_of_notMem hx,
    List.idxOf_append_of_notMem hx, List.idxOf_append_of_notMem hn, Option.toList_some,
    List.singleton_append, List.idxOf_cons_ne _ hr, List.length_range']
  omega

/-- The nodes that stay keep their order, and the code stands where the node stood. -/
theorem position_lt_iff (hp : p ∈ xs ++ ys) (hq : q ∈ l'.refs) :
    l'.position q < l'.position p ↔ l.position (l.standsFor r q) < l.position p := by
  have hold := hs.position_old hl
  rcases hs.mem_cases hq with hq | hq | hq
  · rw [hs.standsFor_kept hl (by simp [hq])]
    have hq' := hs.position_front hq
    rcases List.mem_append.mp hp with hp | hp
    · have hp' := hs.position_front hp
      omega
    · have hp' := hs.position_behind hl hp
      omega
  · rw [hs.standsFor_kept hl (by simp [hq])]
    have hq' := hs.position_behind hl hq
    rcases List.mem_append.mp hp with hp | hp
    · have hp' := hs.position_front hp
      omega
    · have hp' := hs.position_behind hl hp
      omega
  · rw [standsFor_new hq]
    have hq' := hs.position_new hq
    rcases List.mem_append.mp hp with hp | hp
    · have hp' := hs.position_front hp
      omega
    · have hp' := hs.position_behind hl hp
      omega

variable (hp : l.placedAt r = none)

include hp

/-- Labels are bound to nodes that stay. -/
theorem mem_of_binding (hb : l.binding lbl = some p) : p ∈ xs ++ ys := by
  obtain ⟨hmem, hplaced⟩ := hl.labelled.sound hb
  refine (hs.mem_refs.mp hmem).resolve_right ?_
  rintro ⟨⟩
  rw [hp] at hplaced
  cases hplaced

theorem ne_of_binding (hb : l.binding lbl = some p) : p ≠ r := fun e =>
  hs.ne_old hl (hs.mem_of_binding hl hp hb) (e ▸ rfl)

theorem covers_eq {start stop : Label} {a b : Ref} (ha : l.binding start = some a)
    (hb : l.binding stop = some b) (hq : q ∈ l'.refs) :
    l'.covers start stop q = l.covers start stop (l.standsFor r q) := by
  have hstart := hs.position_lt_iff hl (hs.mem_of_binding hl hp ha) hq
  have hstop := hs.position_lt_iff hl (hs.mem_of_binding hl hp hb) hq
  simp only [covers, ha, hb, hs.binding ha, hs.binding hb]
  rw [decide_eq_decide.mpr hstop, decide_eq_decide.mpr (Nat.not_lt.symm.trans
    ((not_congr hstart).trans Nat.not_lt))]

variable (hres : l.resolve = .ok ())

include hres

omit hl hp in
theorem binding_eq (hi : i ∈ l.insns) (hlbl : lbl ∈ i.labels) :
    l'.binding lbl = l.binding lbl := by
  obtain ⟨a, ha⟩ := exists_binding_of_resolve hres hi hlbl
  rw [ha, hs.binding ha]

theorem entryHandler?_eq (catches : Text → Bool) (hi : i ∈ l.insns) (hq : q ∈ l'.refs) :
    l'.entryHandler? catches q i = l.entryHandler? catches (l.standsFor r q) i := by
  unfold entryHandler?
  split
  · next start stop handler caught hoperand =>
    have hlabels : i.labels = [start, stop, handler] := by rw [Insn.labels, hoperand]; rfl
    have hbound : ∀ lbl ∈ [start, stop, handler], ∃ a, l.binding lbl = some a := fun lbl hlbl =>
      exists_binding_of_resolve hres hi (hlabels ▸ hlbl)
    obtain ⟨a, ha⟩ := hbound start (by simp)
    obtain ⟨b, hb⟩ := hbound stop (by simp)
    obtain ⟨c, hc⟩ := hbound handler (by simp)
    rw [hs.covers_eq hl hp ha hb hq, hc, hs.binding hc]
  · rfl

variable (hold : ∀ j, l.insn? r = some j → j.opcode ≠ .tryCatch)
variable (hcode : ∀ j ∈ code, j.opcode ≠ .tryCatch)

include hold hcode

/-- The exception entries apply at a node as they did at the node it stands for. -/
theorem handler?_eq (catches : Text → Bool) (hq : q ∈ l'.refs) :
    l'.handler? catches q = l.handler? catches (l.standsFor r q) := by
  have hnone : ∀ (m : Listing) (t : Ref) (j : Insn), j.opcode ≠ .tryCatch →
      m.entryHandler? catches t j = none := by
    intro m t j hj
    unfold entryHandler?
    split
    · rw [if_neg fun h => hj h.1]
    · rfl
  have hkept : ∀ zs : List Ref, (∀ t ∈ zs, t ∈ xs ++ ys) →
      (zs.filterMap l'.insn?).findSome? (l'.entryHandler? catches q) =
        (zs.filterMap l.insn?).findSome? (l.entryHandler? catches (l.standsFor r q)) := by
    intro zs hzs
    induction zs with
    | nil => rfl
    | cons t zs ih =>
      have hmem := hzs t (by simp)
      have hrest := ih fun u hu => hzs u (by simp [hu])
      rw [List.filterMap_cons, List.filterMap_cons, hs.insn?_old (hs.lt_size hl hmem)]
      cases hj : l.insn? t with
      | none => exact hrest
      | some j =>
        have hmem' : j ∈ l.insns := List.mem_filterMap.mpr ⟨t, hs.mem_refs.mpr (.inl hmem), hj⟩
        rw [List.findSome?_cons, List.findSome?_cons, hrest,
          hs.entryHandler?_eq hl hp hres catches hmem' hq]
  -- neither the code nor what it replaces is an entry
  have hnew : ((List.range' l.nodes.size code.length).filterMap l'.insn?).findSome?
      (l'.entryHandler? catches q) = none := by
    refine List.findSome?_eq_none_iff.mpr fun j hj => hnone _ _ j (hcode j ?_)
    obtain ⟨t, ht, hjt⟩ := List.mem_filterMap.mp hj
    obtain ⟨k, -, rfl⟩ := List.mem_range'.mp ht
    rw [Nat.one_mul, hs.insn?_new] at hjt
    exact List.mem_of_getElem? hjt
  have hgone : ([r].filterMap l.insn?).findSome? (l.entryHandler? catches (l.standsFor r q)) =
      none := by
    refine List.findSome?_eq_none_iff.mpr fun j hj => hnone _ _ j (hold j ?_)
    obtain ⟨t, ht, hjt⟩ := List.mem_filterMap.mp hj
    rwa [List.mem_singleton.mp ht] at hjt
  have hrefs : l.refs = xs ++ ([r] ++ ys) := hs.refs_eq
  rw [handler?, handler?, insns, insns, hs.refs_eq', hrefs, List.filterMap_append,
    List.filterMap_append, List.filterMap_append, List.filterMap_append, List.findSome?_append,
    List.findSome?_append, List.findSome?_append, List.findSome?_append, hnew, hgone,
    hkept xs fun t ht => by simp [ht], hkept ys fun t ht => by simp [ht]]

/-! ### Steps -/

omit hp hres hold hcode

/-- What stood behind a node stands behind it, but for the code in place of the node. -/
theorem next_redirect (hne : code ≠ []) (hq : q ∈ xs ++ ys) :
    l'.next (some q) = (l.next (some q)).map fun t => if t = r then l.nodes.size else t := by
  cases hnext : l.next (some q) with
  | some t =>
    rcases hs.next_kept hl rfl hne hq hnext with ⟨htr, hnext', -⟩ | ⟨rfl, hnext'⟩
    · rw [hnext', Option.map_some, if_neg htr]
    · rw [hnext', Option.map_some, if_pos rfl]
  | none =>
    -- nothing stands behind the last node, which is not in front of the code
    have hsp : l.Spells (xs ++ r :: ys) :=
      (hs.refs_eq : l.refs = xs ++ r :: ys) ▸ hl.spells
    have hsp' := hs.spells'
    rcases List.mem_append.mp hq with hx | hy
    · obtain ⟨as, bs, rfl⟩ := List.append_of_mem hx
      rw [List.append_assoc, List.cons_append] at hsp
      rw [hsp.next_eq] at hnext
      simp at hnext
    · obtain ⟨as, bs, rfl⟩ := List.append_of_mem hy
      rw [← List.cons_append, ← List.append_assoc] at hsp
      rw [← List.append_assoc, ← List.append_assoc] at hsp'
      rw [hsp.next_eq] at hnext
      rw [hsp'.next_eq, hnext, Option.map_none]

variable {V Heap : Type} [DecidableEq V] {M : Machine V Heap} {added : List FieldKey}
variable {s : Activation V Heap} {f f' : Frame V Heap} {fields fields' : Fields V} {k : Nat}
variable {ending : Completion V Heap}

include hp hres hold hcode in
/-- A node that stays does what it did, and comes to the code where it came to the node. -/
theorem step_kept (hne : code ≠ []) (hq : s.pc ∈ xs ++ ys) :
    M.step added l' s = (M.step added l s).map (Transfer.redirect r l.nodes.size) := by
  have hmem : s.pc ∈ l.refs := hs.mem_refs.mpr (.inl hq)
  obtain ⟨i, hi⟩ := hl.spells.exists_insn hmem
  have hi' : l'.insn? s.pc = some i := (hs.insn?_old (hs.lt_size hl hq)).trans hi
  cases he : M.exec added i s.frame s.fields with
  | none => simp [Machine.step, hi, hi', he]
  | some p =>
    obtain ⟨ending, fields⟩ := p
    rw [Machine.step_eq hi' he, Machine.step_eq hi he]
    cases ending with
    | falls f =>
      rw [Machine.transfer, Machine.transfer, hs.next_redirect hl hne hq, Option.map_map,
        Option.map_map]
      rfl
    -- labels are kept where they were, and the node itself has none
    | jumps target f =>
      have hlbl : target ∈ i.labels :=
        Insn.mem_labels_of_mem_branches (Machine.mem_branches_of_exec he)
      obtain ⟨t, ht⟩ := exists_binding_of_resolve hres (List.mem_filterMap.mpr ⟨_, hmem, hi⟩) hlbl
      have htr := hs.ne_of_binding hl hp ht
      simp [Machine.transfer, ht, hs.binding ht, Transfer.redirect, Activation.redirect, htr]
    | returns v heap => rfl
    | throws e heap =>
      have hq' : s.pc ∈ l'.refs := hs.mem_refs'.mpr (.inl hq)
      have hhandler := hs.handler?_eq hl hp hres hold hcode
        (fun caught => M.catches caught e heap) hq'
      rw [hs.standsFor_kept hl hq] at hhandler
      rw [Machine.transfer, Machine.transfer, hhandler]
      cases ht : l.handler? (fun caught => M.catches caught e heap) s.pc with
      | none => rfl
      | some t =>
        obtain ⟨lbl, hlbl⟩ := l.exists_binding_of_handler? ht
        have htr : t ≠ r := hs.ne_of_binding hl hp hlbl
        simp [Transfer.redirect, Activation.redirect, htr]

omit hl

/-- A node of the code that control falls through leads to the next one. -/
theorem step_falls (hk : code[k]? = some i) (hlt : k + 1 < code.length)
    (he : M.exec added i f fields = some (.falls f', fields')) :
    M.step added l' ⟨l.nodes.size + k, f, fields⟩ =
      some (.goes ⟨l.nodes.size + (k + 1), f', fields'⟩) := by
  rw [Machine.step_eq ((hs.insn?_new k).trans hk) he, Machine.transfer,
    hs.next_new (Nat.lt_of_succ_lt hlt), slot_new hlt, Option.map_some]

/-- A node of the code that jumps to a label of the code leads to where the code places it. -/
theorem step_jumps {j : Nat} (hk : code[k]? = some i) (hj : code[j]? = some (.place lbl))
    (he : M.exec added i f fields = some (.jumps lbl f', fields')) :
    M.step added l' ⟨l.nodes.size + k, f, fields⟩ =
      some (.goes ⟨l.nodes.size + j, f', fields'⟩) := by
  have hplaced : code[j]?.bind Insn.placed? = some lbl := by rw [hj]; rfl
  rw [Machine.step_eq ((hs.insn?_new k).trans hk) he, Machine.transfer, hs.placed hplaced,
    Option.map_some]

/-- A straight stretch of the code is executed at a go. -/
theorem runs_execAll {pre is post : List Insn} (hsplit : code = pre ++ (is ++ post))
    (hpost : post ≠ [])
    (he : M.execAll added is f fields = some (f', fields')) :
    M.Runs added l' ⟨l.nodes.size + pre.length, f, fields⟩
      ⟨l.nodes.size + (pre ++ is).length, f', fields'⟩ := by
  induction is generalizing pre f fields with
  | nil =>
    obtain ⟨rfl, rfl⟩ := Prod.mk.inj (Option.some.inj he)
    rw [List.append_nil]
    exact .refl _
  | cons i is ih =>
    rw [Machine.execAll] at he
    split at he
    · next f₁ fields₁ hone =>
      have hk : code[pre.length]? = some i := by simp [hsplit]
      have hlt : pre.length + 1 < code.length := by
        have := List.length_pos_iff.mpr hpost
        simp [hsplit]
        omega
      have hsplit' : code = (pre ++ [i]) ++ (is ++ post) := by simpa using hsplit
      have hrest := ih hsplit' he
      rw [List.length_append, List.length_singleton, List.append_assoc,
        List.singleton_append] at hrest
      exact .step (hs.step_falls hk hlt hone) hrest
    · cases he

/-! ### Labels -/

omit hs

variable (hs : l.Spliced l' xs (some r) code ys) (hl : l.WellFormed)
variable (hres : l.resolve = .ok ())

include hs

/-- The labels that the code places are bound to its nodes. -/
theorem binding_new (hq : q ∈ List.range' l.nodes.size code.length)
    (hlbl : l'.placedAt q = some lbl) : l'.binding lbl = some q := by
  obtain ⟨k, -, rfl⟩ := List.mem_range'.mp hq
  rw [Nat.one_mul] at hlbl ⊢
  rw [placedAt, hs.insn?_new] at hlbl
  exact hs.placed hlbl

include hl hres

/-- The labels that the code places are new: no node placed one or referred to one. -/
theorem fresh (hq : q ∈ List.range' l.nodes.size code.length) (hlbl : l'.placedAt q = some lbl)
    (hi : i ∈ l.insns) : i.placed? ≠ some lbl ∧ lbl ∉ i.labels := by
  have hb := hs.binding_new hq hlbl
  have hnone : ∀ t ∈ l.refs, l.binding lbl ≠ some t := fun t ht e => by
    have htq : t = q := Option.some.inj ((hs.binding e).symm.trans hb)
    exact absurd (hl.spells.lt_size ht) (Nat.not_lt.mpr (htq ▸ (List.mem_range'_1.mp hq).1))
  refine ⟨fun hplaced => ?_, fun hmem => ?_⟩
  · obtain ⟨t, ht, hti⟩ := List.mem_filterMap.mp hi
    have hpt : l.placedAt t = some lbl := by rw [placedAt, hti, Option.bind_some, hplaced]
    exact hnone t ht (hl.binding_of_resolve hres ht hpt (nonneg_of_binding hb))
  · obtain ⟨t, ht⟩ := exists_binding_of_resolve hres hi hmem
    exact hnone t (hl.labelled.sound ht).1 ht

/-- A listing that resolves still does if the code refers to labels that it places. -/
theorem resolve_eq_ok (hcode : ∀ j ∈ code, ∀ lbl ∈ j.labels, lbl ∈ code.filterMap Insn.placed?) :
    l'.resolve = .ok () := by
  have hwf' := hs.built.wellFormed
  -- each label is placed by one node only: one that was kept, or one of the code
  have hbound : ∀ q ∈ l'.refs, ∀ lbl, l'.placedAt q = some lbl → 0 ≤ lbl →
      l'.binding lbl = some q := by
    intro q hq lbl hlbl h0
    rcases hs.mem_refs'.mp hq with hkept | hnew
    · rw [placedAt, hs.insn?_old (hs.lt_size hl hkept)] at hlbl
      exact hs.binding (hl.binding_of_resolve hres (hs.mem_refs.mpr (.inl hkept)) hlbl h0)
    · exact hs.binding_new hnew hlbl
  refine hs.built.resolve_iff.mpr ⟨fun lbl h0 p hp q hq hpp hqp => ?_, fun i hi lbl hlbl => ?_⟩
  · exact Option.some.inj ((hbound p hp lbl hpp h0).symm.trans (hbound q hq lbl hqp h0))
  · have hsome : ∃ t, l'.binding lbl = some t := by
      obtain ⟨q, hq, hqi⟩ := List.mem_filterMap.mp hi
      rcases hs.mem_refs'.mp hq with hkept | hnew
      · rw [hs.insn?_old (hs.lt_size hl hkept)] at hqi
        have hmem : i ∈ l.insns :=
          List.mem_filterMap.mpr ⟨q, hs.mem_refs.mpr (.inl hkept), hqi⟩
        obtain ⟨t, ht⟩ := exists_binding_of_resolve hres hmem hlbl
        exact ⟨t, hs.binding ht⟩
      · obtain ⟨k, -, rfl⟩ := List.mem_range'.mp hnew
        rw [Nat.one_mul, hs.insn?_new] at hqi
        obtain ⟨j, hj, hplaced⟩ :=
          List.mem_filterMap.mp (hcode i (List.mem_of_getElem? hqi) lbl hlbl)
        obtain ⟨m, hm⟩ := List.mem_iff_getElem?.mp hj
        exact ⟨_, hs.placed (by rw [hm, Option.bind_some, hplaced])⟩
    obtain ⟨t, ht⟩ := hsome
    obtain ⟨hmem, hplaced⟩ := hwf'.labelled.sound ht
    exact ⟨nonneg_of_binding ht, t, hmem, hplaced⟩

end Spliced

end Listing

end ClassWeaver
