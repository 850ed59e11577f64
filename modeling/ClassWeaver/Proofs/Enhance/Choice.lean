import ClassWeaver.Proofs.Enhance.ByteArrays
import ClassWeaver.Proofs.Enhance.Failures
import ClassWeaver.Proofs.Enhance.Running

/-!
# What the choice between two accesses does

What takes the place of a byte access looks at the array to choose between two reflective calls. On
every machine with arrays (`Machine.ByteArrays`) it does what the access did
(`Machine.ByteArrays.Refines`): the operands are arranged so that a copy of the array lies on top
(`execAll_arrangement`), the test takes the copy away again (`runs_test`), and both calls are made
on the frame that the access was made on and come to the same end (`ends_choice`). A null array
throws already when its class is asked for, with the same handlers in reach (`throws_choice`).

A step of the old listing is thus a step of the new one or, at the access, several. The standard
rules put such a choice in place of every byte access they visit, and leave a listing to which all
this applies again (`Chain.visit_refines`). -/

namespace ClassWeaver

open Enhance

/-! ### Choices -/

theorem Insn.opcode_of_isByteAccess {i : Insn} (h : i.IsByteAccess) :
    i.opcode ≠ .label ∧ i.opcode ≠ .tryCatch ∧ i.opcode ≠ .getField ∧ i.opcode ≠ .putField := by
  rcases h with hop | hop <;> rw [hop] <;> decide

namespace Enhance

/-- What puts a copy of the array on top of the operands. -/
def arrangement (op : Opcode) : List Insn :=
  if op = .bastore then
    [.plain .dupX2, .plain .pop, .plain .dupX2, .plain .pop, .plain .dupX2]
  else [.plain .swap, .plain .dupX1]

/-- What takes the place of a byte access. -/
def choice (op : Opcode) : Label → Label → List Insn :=
  dispatchCode (arrangement op) (reflective op .boolean) (reflective op .byte)

variable {l : Listing} {r : Ref} {i : Insn} {op : Opcode} {byteLabel join : Label}

theorem placedAt_of_isByteAccess (hi : l.insn? r = some i) (h : i.IsByteAccess) :
    l.placedAt r = none := by
  rw [Listing.placedAt, hi, Option.bind_some,
    Insn.placed?_of_ne_label (Insn.opcode_of_isByteAccess h).1]

/-- A byte access is no exception entry. -/
theorem not_entry_of_isByteAccess (hi : l.insn? r = some i) (h : i.IsByteAccess) :
    ∀ j, l.insn? r = some j → j.opcode ≠ .tryCatch := by
  intro j hj
  obtain rfl := Option.some.inj (hi.symm.trans hj)
  exact (Insn.opcode_of_isByteAccess h).2.1

theorem length_choice (op : Opcode) (byteLabel join : Label) :
    (choice op byteLabel join).length = (arrangement op).length + 9 := by
  simp [choice, dispatchCode]

theorem getElem?_choice (op : Opcode) (byteLabel join : Label) (k : Nat) :
    (choice op byteLabel join)[(arrangement op).length + k]? =
      [getClass, getComponentType, booleanType, .jump .ifAcmpNe byteLabel, reflective op .boolean,
        .jump .goto join, .place byteLabel, reflective op .byte, .place join][k]? := by
  rw [choice, dispatchCode, List.getElem?_append_right (Nat.le_add_right ..),
    Nat.add_sub_cancel_left]
  rfl

theorem opcode_choice : ∀ j ∈ choice op byteLabel join, j.opcode ≠ .tryCatch := by
  have hall : ∀ o ∈ (choice op byteLabel join).map Insn.opcode, o ≠ .tryCatch := by
    unfold choice arrangement reflective
    split
    · exact (by decide : ∀ o ∈ (storeChoice 0 1).map Insn.opcode, o ≠ .tryCatch)
    · exact (by decide : ∀ o ∈ (loadChoice 0 1).map Insn.opcode, o ≠ .tryCatch)
  exact fun j hj => hall _ (List.mem_map_of_mem hj)

/-- A choice refers to the labels that it places. -/
theorem labels_choice : ∀ j ∈ choice op byteLabel join, ∀ lbl ∈ j.labels,
    lbl ∈ (choice op byteLabel join).filterMap Insn.placed? := by
  have hlabels : (choice op byteLabel join).flatMap Insn.labels =
      (choice op byteLabel join).filterMap Insn.placed? := by
    unfold choice arrangement reflective
    split <;> rfl
  intro j hj lbl hlbl
  rw [← hlabels]
  exact List.mem_flatMap.mpr ⟨j, hj, hlbl⟩

end Enhance

/-! ### Replaced nodes -/

/-- The nodes `news` of `l'` have taken the place of the node `r` of `l`. The other nodes have their
instructions, bound labels are bound to the same nodes, and no instruction has another target. The
labels that the new nodes place are new: no node of `l` places one or refers to one. -/
structure Listing.Replaces (l : Listing) (r : Ref) (l' : Listing) (news : List Ref) : Prop where
  built : l'.Built
  resolves : l'.resolve = .ok ()
  refs : ∃ xs ys, l.refs = xs ++ r :: ys ∧ l'.refs = xs ++ (news ++ ys)
  notMem : ∀ q ∈ news, q ∉ l.refs
  insn : ∀ q ∈ l.refs, l'.insn? q = l.insn? q
  binding : ∀ lbl q, l.binding lbl = some q → l'.binding lbl = some q
  targets : ∀ i ∈ l.insns, ∀ lbl ∈ i.labels, l'.binding lbl = l.binding lbl
  fresh : ∀ q ∈ news, ∀ lbl, l'.placedAt q = some lbl →
    ∀ i ∈ l.insns, i.placed? ≠ some lbl ∧ lbl ∉ i.labels

section Refines

variable {V Heap : Type} [DecidableEq V] {M : Machine V Heap}

/-- On a machine with arrays, running `l'` from `entry` on does what the byte access at `r` does in
`l`, and running it from any other node of `l` does what it did in `l`.

An access to an array ends in the same transfer, be it to the node behind with the same frame, or an
exception. If there is no array, the access throws, and so does what stands in for it, when it has
changed nothing but the stack and where the same handlers are in reach. -/
structure Machine.ByteArrays.Refines (A : M.ByteArrays) (added : List FieldKey) (l : Listing)
    (r : Ref) (l' : Listing) (entry : Ref) : Prop where
  access : ∀ i, l.insn? r = some i → ∀ a f fields e, Operands A.Single a i.opcode f.stack →
    A.elements? a f.heap = some e → ∀ out, M.step added l ⟨r, f, fields⟩ = some out →
      M.Ends added l' ⟨entry, f, fields⟩ out
  null : ∀ i, l.insn? r = some i → ∀ a f fields, Operands A.Single a i.opcode f.stack →
    A.IsNull a → M.Throws added l ⟨r, f, fields⟩ ∧
      ∃ u, M.Runs added l' ⟨entry, f, fields⟩ u ∧ M.Throws added l' u ∧
        u.frame.locals = f.locals ∧ u.frame.heap = f.heap ∧ u.fields = fields ∧
        ∀ catches, l'.handler? catches u.pc = l.handler? catches r
  other : ∀ s : Activation V Heap, s.pc ∈ l.refs → s.pc ≠ r →
    M.step added l' s = (M.step added l s).map (Transfer.redirect r entry)

end Refines

/-! ### Running the choice -/

namespace Machine.ByteArrays

variable {V Heap : Type} [DecidableEq V] {M : Machine V Heap} (A : M.ByteArrays)
variable {added : List FieldKey} {a v n w : V} {rest : List V} {locals : UInt16 → V} {heap : Heap}
variable {fields : Fields V}

/-- Before a store the operands go round once, which leaves a copy of the array on top. -/
theorem execAll_arrangement_bastore (ha : A.Single a) (hv : A.Single v) (hn : A.Single n) :
    M.execAll added (arrangement .bastore) ⟨v :: n :: a :: rest, locals, heap⟩ fields =
      some (⟨a :: v :: n :: a :: rest, locals, heap⟩, fields) := by
  have hdup : ∀ {x y z : V} (below : List V), A.Single x → A.Single y → A.Single z →
      M.exec added (.plain .dupX2) ⟨x :: y :: z :: below, locals, heap⟩ fields =
        some (.falls ⟨x :: y :: z :: x :: below, locals, heap⟩, fields) := fun _ hx hy hz => by
    rw [exec_of_opcode (by decide) (by decide), A.run_dupX2 rfl hx hy hz]
  have hpop : ∀ {x : V} (below : List V), A.Single x →
      M.exec added (.plain .pop) ⟨x :: below, locals, heap⟩ fields =
        some (.falls ⟨below, locals, heap⟩, fields) := fun _ hx => by
    rw [exec_of_opcode (by decide) (by decide), A.run_pop rfl hx]
  rw [arrangement, if_pos rfl, execAll_cons (hdup rest hv hn ha), execAll_cons (hpop _ hv),
    execAll_cons (hdup _ hn ha hv), execAll_cons (hpop _ hn), execAll_cons (hdup _ ha hv hn)]
  rfl

/-- Before a load the array goes on top, and a copy of it back under the index. -/
theorem execAll_arrangement_baload (ha : A.Single a) (hn : A.Single n) :
    M.execAll added (arrangement .baload) ⟨n :: a :: rest, locals, heap⟩ fields =
      some (⟨a :: n :: a :: rest, locals, heap⟩, fields) := by
  have hswap : M.exec added (.plain .swap) ⟨n :: a :: rest, locals, heap⟩ fields =
      some (.falls ⟨a :: n :: rest, locals, heap⟩, fields) := by
    rw [exec_of_opcode (by decide) (by decide), A.run_swap rfl hn ha]
  have hdup : M.exec added (.plain .dupX1) ⟨a :: n :: rest, locals, heap⟩ fields =
      some (.falls ⟨a :: n :: a :: rest, locals, heap⟩, fields) := by
    rw [exec_of_opcode (by decide) (by decide), A.run_dupX1 rfl ha hn]
  rw [arrangement, if_neg (by decide), execAll_cons hswap, execAll_cons hdup]
  rfl

theorem execAll_arrangement {op : Opcode} {f : Frame V Heap} (h : Operands A.Single a op f.stack)
    (ha : A.Single a) : M.execAll added (arrangement op) f fields =
      some ({ f with stack := a :: f.stack }, fields) := by
  obtain ⟨stack, locals, heap⟩ := f
  cases h with
  | store hv hn => exact A.execAll_arrangement_bastore ha hv hn
  | load hn => exact A.execAll_arrangement_baload ha hn

/-- The classes that the choice compares. -/
theorem execAll_classes {f : Frame V Heap} {e : Elements} (hstack : f.stack = a :: rest)
    (he : A.elements? a f.heap = some e) :
    M.execAll added [getClass, getComponentType, booleanType] f fields =
      some ({ f with stack := A.elementClass .boolean :: A.elementClass e :: rest }, fields) := by
  have hclass : M.exec added getClass f fields =
      some (.falls { f with stack := A.arrayClass e :: rest }, fields) := by
    rw [exec_of_opcode (by decide) (by decide), A.run_getClass hstack he]
  have hcomponent : M.exec added getComponentType
    { f with stack := A.arrayClass e :: rest } fields =
      some (.falls { f with stack := A.elementClass e :: rest }, fields) := by
    rw [exec_of_opcode (by decide) (by decide), A.run_getComponentType rfl]
  have htype : M.exec added booleanType { f with stack := A.elementClass e :: rest } fields =
      some (.falls { f with stack := A.elementClass .boolean :: A.elementClass e :: rest },
        fields) := by
    rw [exec_of_opcode (by decide) (by decide), A.run_booleanType]
  rw [execAll_cons hclass, execAll_cons hcomponent, execAll_cons htype]
  rfl

section Choice

variable {l l' : Listing} {xs ys : List Ref} {r : Ref} {i : Insn} {op : Opcode}
    {byteLabel join : Label}
variable {f f' : Frame V Heap} {e : Elements}

/-- Where a choice makes its call, told from behind the arranging of the operands. -/
def callPlace : Elements → Nat
  | .boolean => 4
  | .byte => 7

theorem getElem?_choice_call (op : Opcode) (byteLabel join : Label) (e : Elements) :
    (choice op byteLabel join)[(arrangement op).length + callPlace e]? =
    some (reflective op e) := by
  rw [getElem?_choice]
  cases e <;> rfl

/-- A call neither branches nor reads a field. -/
theorem exec_reflective (op : Opcode) (e : Elements) (f : Frame V Heap) (fields : Fields V) :
    M.exec added (reflective op e) f fields = some (M.run (reflective op e) f, fields) := by
  refine exec_of_shape ?_
  unfold reflective
  split <;> cases e <;> exact nofun

theorem branches_reflective (op : Opcode) (e : Elements) : (reflective op e).branches = [] := by
  unfold reflective
  split <;> cases e <;> rfl

variable (hs : l.Spliced l' xs (some r) (choice op byteLabel join) ys)

include hs

/-- Up to the test of the classes. -/
theorem runs_classes (h : Operands A.Single a op f.stack) (he : A.elements? a f.heap = some e) :
    M.Runs added l' ⟨l.nodes.size, f, fields⟩ ⟨l.nodes.size + ((arrangement op).length + 3),
      { f with stack := A.elementClass .boolean :: A.elementClass e :: f.stack }, fields⟩ := by
  obtain ⟨tail, htail⟩ : ∃ tail, tail = [.jump .ifAcmpNe byteLabel, reflective op .boolean,
    .jump .goto join, .place byteLabel, reflective op .byte, .place join] := ⟨_, rfl⟩
  have hsplit : choice op byteLabel join =
      [] ++ ((arrangement op ++ [getClass, getComponentType, booleanType]) ++ tail) := by
    rw [htail, List.nil_append, List.append_assoc]
    rfl
  have hexec : M.execAll added (arrangement op ++
    [getClass, getComponentType, booleanType]) f fields =
      some ({ f with stack := A.elementClass .boolean :: A.elementClass e :: f.stack },
        fields) := by
    rw [execAll_append (A.execAll_arrangement h (A.single_of_elements he))]
    exact A.execAll_classes rfl he
  have hruns := hs.runs_execAll hsplit (by simp [htail]) hexec
  rwa [List.nil_append, List.length_append] at hruns

/-- The test comes to the call for what the array holds, on the frame that the choice began with. -/
theorem runs_test (h : Operands A.Single a op f.stack) (he : A.elements? a f.heap = some e) :
    M.Runs added l' ⟨l.nodes.size, f, fields⟩
      ⟨l.nodes.size + ((arrangement op).length + callPlace e), f, fields⟩ := by
  refine (A.runs_classes hs h he).trans ?_
  have hcompare : M.exec added (.jump .ifAcmpNe byteLabel)
      { f with stack := A.elementClass .boolean :: A.elementClass e :: f.stack } fields =
        some (if A.elementClass e = A.elementClass .boolean then .falls f else .jumps byteLabel f,
          fields) := by
    rw [exec_jump, A.run_ifAcmpNe rfl]
  cases e with
  | boolean =>
    rw [if_pos rfl] at hcompare
    exact .single (hs.step_falls (getElem?_choice _ _ _ 3) (by rw [length_choice]; omega) hcompare)
  | byte =>
    rw [if_neg A.elementClass_ne] at hcompare
    refine .step (hs.step_jumps (getElem?_choice _ _ _ 3) (getElem?_choice _ _ _ 6) hcompare)
      (.single ?_)
    exact hs.step_falls (getElem?_choice _ _ _ 6) (by rw [length_choice]; omega)
      (exec_place byteLabel)

include A in
/-- Behind either call control comes to the end of the choice. -/
theorem runs_join (hcall : M.run (reflective op e) f = .falls f') :
    M.Runs added l' ⟨l.nodes.size + ((arrangement op).length + callPlace e), f, fields⟩
      ⟨l.nodes.size + ((arrangement op).length + 8), f', fields⟩ := by
  have hexec : M.exec added (reflective op e) f fields = some (.falls f', fields) := by
    rw [exec_reflective, hcall]
  cases e with
  | boolean =>
    refine .step (hs.step_falls (getElem?_choice _ _ _ 4) (by rw [length_choice, callPlace]; omega)
      hexec) (.single ?_)
    refine hs.step_jumps (getElem?_choice _ _ _ 5) (getElem?_choice _ _ _ 8) ?_
    rw [exec_jump, A.run_goto]
  | byte =>
    exact .single (hs.step_falls (getElem?_choice _ _ _ 7)
      (by rw [length_choice, callPlace]; omega) hexec)

/-- Behind the end of the choice stands what stood behind the access. -/
theorem step_join (hl : l.WellFormed) : M.step added l'
      ⟨l.nodes.size + ((arrangement op).length + 8), f, fields⟩ =
    M.transfer l ⟨r, f', fields⟩ fields (.falls f) := by
  have hlen := length_choice op byteLabel join
  have hsp : l.Spells (xs ++ r :: ys) := (hs.refs_eq : l.refs = xs ++ r :: ys) ▸ hl.spells
  have hend : (List.range' l.nodes.size (choice op byteLabel join).length ++ ys)[
      (choice op byteLabel join).length]? = ys.head? := Listing.Spliced.slot_behind
  have hnext : l'.next (some (l.nodes.size + ((arrangement op).length + 8))) = l.next (some r) := by
    rw [hs.next_new (by omega), hsp.next_eq, ← hend, hlen]
  rw [step_eq ((hs.insn?_new _).trans (getElem?_choice _ _ _ 8)) (exec_place join),
    transfer, transfer,
    hnext]

/-- A null array throws when its class is asked for. Only the stack has changed by then. -/
theorem throws_choice (h : Operands A.Single a op f.stack) (ha : A.IsNull a) :
    ∃ k < (choice op byteLabel join).length, ∃ f', f'.locals = f.locals ∧ f'.heap = f.heap ∧
      M.Runs added l' ⟨l.nodes.size, f, fields⟩ ⟨l.nodes.size + k, f', fields⟩ ∧
      M.Throws added l' ⟨l.nodes.size + k, f', fields⟩ := by
  obtain ⟨tail, htail⟩ : ∃ tail, choice op byteLabel join = [] ++
    (arrangement op ++ getClass :: tail) :=
    ⟨_, rfl⟩
  have hlen : (arrangement op).length < (choice op byteLabel join).length := by
    rw [length_choice]
    omega
  have hexec : M.execAll added (arrangement op) f fields =
      some ({ f with stack := a :: f.stack }, fields) :=
    A.execAll_arrangement h (A.single_of_isNull ha)
  have hruns := hs.runs_execAll htail (by simp) hexec
  obtain ⟨x, heap, hx⟩ := A.throws_getClass (f := { f with stack := a :: f.stack }) rfl ha
  refine ⟨_, hlen, { f with stack := a :: f.stack }, rfl, rfl, hruns, getClass, x, heap,
    (hs.insn?_new _).trans (getElem?_choice _ _ _ 0), ?_⟩
  rw [exec_of_opcode (by decide) (by decide), hx]

end Choice

/-! ### The choice in place of the access -/

section Replacing

variable {l l' : Listing} {xs ys : List Ref} {r : Ref} {i : Insn} {byteLabel join : Label}
variable {f : Frame V Heap} {e : Elements} {out : Transfer V Heap}
variable (hl : l.WellFormed) (hres : l.resolve = .ok ()) (hi : l.insn? r = some i)
variable (hbyte : i.IsByteAccess)
variable (hs : l.Spliced l' xs (some r) (choice i.opcode byteLabel join) ys)

include hl hres hi hbyte hs

/-- The handlers in reach of the choice are those in reach of the access. -/
theorem handler?_choice {k : Nat} (hk : k < (choice i.opcode byteLabel join).length)
    (catches : Text → Bool) :
    l'.handler? catches (l.nodes.size + k) = l.handler? catches r := by
  have hmem : l.nodes.size + k ∈ List.range' l.nodes.size (choice i.opcode byteLabel join).length :=
    List.mem_range'_1.mpr ⟨Nat.le_add_right .., Nat.add_lt_add_left hk _⟩
  rw [hs.handler?_eq hl (placedAt_of_isByteAccess hi hbyte) hres
    (not_entry_of_isByteAccess hi hbyte)
    opcode_choice catches (hs.mem_refs'.mpr (.inr hmem)), Listing.Spliced.standsFor_new hmem]

/-- The choice ends as the access to an array does. -/
theorem ends_choice (h : Operands A.Single a i.opcode f.stack) (he : A.elements? a f.heap = some e)
    (hout : M.step added l ⟨r, f, fields⟩ = some out) :
    M.Ends added l' ⟨l.nodes.size, f, fields⟩ out := by
  obtain ⟨-, -, hget, hput⟩ := Insn.opcode_of_isByteAccess hbyte
  have hexec : M.exec added i f fields = some (M.run (reflective i.opcode e) f, fields) := by
    rw [exec_of_opcode hget hput, A.run_access h he]
  rw [step_eq hi hexec] at hout
  have hcall : M.step added l'
      ⟨l.nodes.size + ((arrangement i.opcode).length + callPlace e), f, fields⟩ = _ :=
    step_eq ((hs.insn?_new _).trans (getElem?_choice_call ..)) (exec_reflective ..)
  have htest : M.Runs added l' ⟨l.nodes.size, f, fields⟩
      ⟨l.nodes.size + ((arrangement i.opcode).length + callPlace e), f, fields⟩ :=
    A.runs_test hs h he
  -- however the chosen access ends, the access of the original does the same
  cases hrun : M.run (reflective i.opcode e) f with
  | falls f' =>
    rw [hrun] at hout
    exact ⟨_, htest.trans (A.runs_join hs hrun), (step_join hs hl).trans hout⟩
  | jumps target f' =>
    have hmem := M.mem_branches_of_jumps hrun
    rw [branches_reflective] at hmem
    cases hmem
  | returns v heap =>
    rw [hrun] at hout hcall
    exact ⟨_, htest, hcall.trans hout⟩
  | throws x heap =>
    rw [hrun] at hout hcall
    refine ⟨_, htest, hcall.trans (Eq.trans ?_ hout)⟩
    have hlt : (arrangement i.opcode).length + callPlace e <
        (choice i.opcode byteLabel join).length := by
      rw [length_choice]
      cases e <;> rw [callPlace] <;> omega
    rw [transfer, transfer, handler?_choice hl hres hi hbyte hs hlt]

variable (added) in
/-- On every machine with arrays the choice does what the access did. -/
theorem refines_choice : A.Refines added l r l' l.nodes.size where
  access j hj a f fields e h he out hout := by
    obtain rfl := Option.some.inj (hi.symm.trans hj)
    exact A.ends_choice hl hres hi hbyte hs h he hout
  null j hj a f fields h ha := by
    obtain rfl := Option.some.inj (hi.symm.trans hj)
    obtain ⟨-, -, hget, hput⟩ := Insn.opcode_of_isByteAccess hbyte
    obtain ⟨x, heap, hx⟩ := A.throws_access h ha
    obtain ⟨k, hk, f', hlocals, hheap, hruns, hthrows⟩ := A.throws_choice hs h ha
    refine ⟨⟨i, x, heap, hi, ?_⟩, _, hruns, hthrows, hlocals, hheap, rfl,
      handler?_choice hl hres hi hbyte hs hk⟩
    rw [exec_of_opcode hget hput, hx]
  other s hs' hne := by
    have hkept : s.pc ∈ xs ++ ys :=
      (hs.mem_refs.mp hs').resolve_right fun e => hne (Option.some.inj e)
    refine hs.step_kept hl (placedAt_of_isByteAccess hi hbyte) hres
      (not_entry_of_isByteAccess hi hbyte) opcode_choice ?_ hkept
    rw [ne_eq, ← List.length_eq_zero_iff, length_choice]
    omega

end Replacing

end Machine.ByteArrays

/-! ### The rules -/

namespace Chain

variable {l l' : Listing} {xs ys : List Ref} {r : Ref} {i : Insn}

/-- A visit of a byte access puts a choice in its place and goes on behind it. -/
theorem visit_of_isByteAccess (ctx : Context) (hl : l.Built)
    (hrefs : l.refs = xs ++ r :: ys) (hi : l.insn? r = some i) (hbyte : i.IsByteAccess) :
    ∃ l' byteLabel join last, standard.visit ctx l r = (l', .ok (some last)) ∧
      l.Spliced l' xs (some r) (choice i.opcode byteLabel join) ys ∧
      (List.range' l.nodes.size (choice i.opcode byteLabel join).length).getLast? = some last := by
  obtain ⟨l', resume, hd⟩ : ∃ l' resume, dispatch (arrangement i.opcode)
      (reflective i.opcode .boolean) (reflective i.opcode .byte) l r =
      (l', .ok resume) := ⟨_, _, rfl⟩
  obtain ⟨e, heights, hc⟩ : ∃ e heights, IsChoice (choice i.opcode) e heights := by
    rcases hbyte with hop | hop <;> rw [hop]
    · exact ⟨_, _, isChoice_store⟩
    · exact ⟨_, _, isChoice_load⟩
  obtain ⟨byteLabel, join, hs, hresume⟩ :=
    spliced_dispatch hl hrefs hc hd (placedAt_of_isByteAccess hi hbyte)
  have hne : List.range' l.nodes.size (choice i.opcode byteLabel join).length ≠ [] := by
    rw [length_choice]
    simp
  obtain ⟨last, hlast⟩ : ∃ last, (List.range' l.nodes.size
      (choice i.opcode byteLabel join).length).getLast? = some last :=
    ⟨_, List.getLast?_eq_some_getLast hne⟩
  have hresume' : resume = some last := hresume.trans hlast
  subst hresume'
  have hlinked : l'.isLinked last = true := hs.built.wellFormed.spells.isLinked_iff.mpr
    (hs.mem_refs'.mpr (.inr (List.mem_of_getLast? hlast)))
  refine ⟨l', byteLabel, join, last, ?_, hs, hlast⟩
  rcases hbyte with hop | hop <;> rw [hop] at hd
  · have hstore : i.opcode.isArrayStore = true := by rw [hop]; decide
    refine visit_of_replace hi (by rw [find?_standard, if_pos hstore]) ?_ hlinked
    simp only [Rule.arrayStore, hi, hop, if_true]
    exact hd
  · have hstore : ¬i.opcode.isArrayStore = true := by rw [hop]; decide
    refine visit_of_replace hi (by rw [find?_standard, if_neg hstore, if_pos hop]) ?_ hlinked
    exact hd

/-- **The choice means what the access meant.** Let a listing resolve, and let one of its nodes hold
a byte access. A visit of the node puts new nodes in its place and nothing else: the listing still
resolves, every other instruction is what it was and has the targets it had, and the labels that the
new nodes place are in use nowhere else. On every machine with arrays, running the new listing from
the first of these nodes does what the access did, whatever lies below its operands and whatever the
locals and the heap are, and running it from any other node does what that node did. -/
theorem visit_refines (ctx : Context) (hl : l.Built)
    (hres : l.resolve = .ok ()) (hr : r ∈ l.refs) (hi : l.insn? r = some i)
    (hop : i.opcode = .bastore ∨ i.opcode = .baload) :
    ∃ l' entry news last, standard.visit ctx l r = (l', .ok (some last)) ∧
      (entry :: news).getLast? = some last ∧ l.Replaces r l' (entry :: news) ∧
      ∀ {V Heap : Type} [DecidableEq V] (M : Machine V Heap) (A : M.ByteArrays)
        (added : List FieldKey), A.Refines added l r l' entry := by
  have hwf := hl.wellFormed
  obtain ⟨xs, ys, hrefs⟩ := List.append_of_mem hr
  obtain ⟨l', byteLabel, join, last, hvisit, hs, hlast⟩ :=
    visit_of_isByteAccess ctx hl hrefs hi hop
  obtain ⟨n, hn⟩ : ∃ n, (choice i.opcode byteLabel join).length = n + 1 := ⟨_, length_choice ..⟩
  have hnews : List.range' l.nodes.size (choice i.opcode byteLabel join).length =
      l.nodes.size :: List.range' (l.nodes.size + 1) n := by rw [hn, List.range'_succ]
  refine ⟨l', l.nodes.size, _, last, hvisit, hnews ▸ hlast, hnews ▸ ?_, fun M A added =>
    A.refines_choice added hwf hres hi hop hs⟩
  exact
    { built := hs.built
      resolves := hs.resolve_eq_ok hwf hres labels_choice
      refs := ⟨xs, ys, hrefs, hs.refs_eq'⟩
      notMem := fun q hq hmem =>
        absurd (hwf.spells.lt_size hmem) (Nat.not_lt.mpr (List.mem_range'_1.mp hq).1)
      insn := fun q hq => hs.insn?_old (hwf.spells.lt_size hq)
      binding := fun lbl q hb => hs.binding hb
      targets := fun j hj lbl hlbl => hs.binding_eq hres hj hlbl
      fresh := fun q hq lbl hlbl j hj => hs.fresh hwf hres hq hlbl hj }

/-- Operands of a store into an array of bytes, on top of another value. -/
def storeFrame : Frame Int32 Memory.Cells := ⟨[300, 1, 2, 9], fun _ => 0, fun _ _ => 0⟩

/-- The store of the byte copy: the choice comes to the node behind it, with the low byte of the
value in the second element. -/
theorem visit_refines_byteCopy : ∃ l' entry last,
    standard.visit {} byteCopy 7 = (l', .ok (some last)) ∧ l'.resolve = .ok () ∧
      Machine.memory.Ends [] l' ⟨entry, storeFrame, fun _ _ => 0⟩ (.goes ⟨8, ⟨[9], fun _ => 0,
        Function.update (fun _ _ => 0) 2 (Function.update (fun _ => 0) 1 44)⟩, fun _ _ => 0⟩) := by
  have hl : byteCopy.Built := .ofInsns _ _
  have hres : byteCopy.resolve = .ok () := Outcome.eq_ok_of_toOption (by decide +kernel)
  have hi : byteCopy.insn? 7 = some (.plain .bastore) := by decide +kernel
  have hnext : byteCopy.next (some 7) = some 8 := by decide +kernel
  have hexec : Machine.memory.exec [] (.plain .bastore) storeFrame (fun _ _ => 0) =
      some (.falls ⟨[9], fun _ => 0, Function.update (fun _ _ => 0) 2
        (Function.update (fun _ => 0) 1 44)⟩, fun _ _ => 0) := rfl
  have hstep := Machine.step_eq (s := ⟨7, storeFrame, fun _ _ => 0⟩) hi hexec
  rw [Machine.transfer_falls (s := ⟨7, storeFrame, fun _ _ => 0⟩) hnext] at hstep
  obtain ⟨l', entry, news, last, hvisit, -, hr, hrefines⟩ :=
    visit_refines {} hl hres (r := 7) (by decide +kernel) hi (.inl rfl)
  exact ⟨l', entry, last, hvisit, hr.resolves,
    (hrefines Machine.memory Machine.memoryArrays []).access _ hi 2 _ _ .byte
      (.store trivial trivial) rfl _ hstep⟩

end Chain

end ClassWeaver
