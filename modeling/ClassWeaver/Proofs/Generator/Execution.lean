import ClassWeaver.Proofs.Generator.Places

/-!
# What spliced code does

Spliced code runs straight ahead, apart from the dispatch in the head and the return of a
suspension. `Machine.execAll` executes such a stretch at a go, and the lemmas here say what
each kind of stretch does to the locals and to the added fields of the receiver: clearing,
saving and restoring are one update for each slot. Since the slots have different locals and
different fields, restoring what was saved gives every slot its value back
(`Generator.saved_of_mem`, `Generator.restored_eq`).
-/

namespace ClassWeaver

theorem Insn.instanceField?_eq_none {i : Insn} (h : i.operand.shape ≠ .field) :
    i.instanceField? = none := by
  unfold instanceField?
  split
  · split
    · next e => exact absurd (by rw [e]; rfl) h
    · rfl
  · rfl

/-! ### Straight stretches -/

namespace Machine

variable {V Heap : Type} [DecidableEq V] (M : Machine V Heap) (added : List FieldKey)

/-- Executes instructions one after the other, as long as control falls through. -/
def execAll : List Insn → Frame V Heap → Fields V → Option (Frame V Heap × Fields V)
  | [], f, fields => some (f, fields)
  | i :: is, f, fields =>
    match M.exec added i f fields with
    | some (.falls f, fields) => execAll is f fields
    | _ => none

variable {M added} {is js : List Insn} {i : Insn} {f f' : Frame V Heap} {fields fields' : Fields V}

theorem execAll_cons (h : M.exec added i f fields = some (.falls f', fields')) :
    M.execAll added (i :: is) f fields = M.execAll added is f' fields' := by
  rw [execAll, h]

theorem execAll_append (h : M.execAll added is f fields = some (f', fields')) :
    M.execAll added (is ++ js) f fields = M.execAll added js f' fields' := by
  induction is generalizing f fields with
  | nil =>
    obtain ⟨rfl, rfl⟩ := Prod.mk.inj (Option.some.inj h)
    rfl
  | cons i is ih =>
    rw [execAll] at h
    split at h
    · next he =>
      rw [List.cons_append, execAll_cons he]
      exact ih h
    · cases h

theorem exec_of_shape (h : i.operand.shape ≠ .field) :
    M.exec added i f fields = some (M.run i f, fields) := by
  rw [exec, i.instanceField?_eq_none h]
  rfl

/-! ### Single instructions -/

theorem exec_load (family : Family) (n : UInt16) :
    M.exec added (.load family.load n) f fields =
      some (.falls { f with stack := f.locals n :: f.stack }, fields) := by
  have hshape : (Insn.load family.load n).operand.shape ≠ .field := nofun
  rw [exec_of_shape hshape, M.run_load]

theorem exec_aload : M.exec added (.load .aload 0) f fields =
    some (.falls { f with stack := f.locals 0 :: f.stack }, fields) :=
  exec_load .reference 0

theorem exec_store (family : Family) (n : UInt16) {v : V} {rest : List V}
    (h : f.stack = v :: rest) :
    M.exec added (.load family.store n) f fields =
      some (.falls { f with stack := rest, locals := Function.update f.locals n v }, fields) := by
  have hshape : (Insn.load family.store n).operand.shape ≠ .field := nofun
  rw [exec_of_shape hshape, M.run_store _ _ _ _ _ h]

theorem exec_push (k : Int32) : M.exec added (Generator.push k) f fields =
    some (.falls { f with stack := M.int k :: f.stack }, fields) := by
  have hshape : (Generator.push k).operand.shape ≠ .field := by
    unfold Generator.push
    split
    · exact nofun
    · split
      · exact nofun
      · split <;> exact nofun
  rw [exec_of_shape hshape, M.run_push]

theorem exec_zero (family : Family) : M.exec added (Generator.zero family) f fields =
    some (.falls { f with stack := M.zero family :: f.stack }, fields) := by
  have hshape : (Generator.zero family).operand.shape ≠ .field := by
    cases family <;> exact nofun
  rw [exec_of_shape hshape, M.run_zero]

theorem exec_place (lbl : Label) : M.exec added (.place lbl) f fields =
    some (.falls f, fields) := by
  have hshape : (Insn.place lbl).operand.shape ≠ .field := nofun
  rw [exec_of_shape hshape, M.run_pseudo f rfl]

theorem exec_table (low high : Int32) (dflt : Label) (targets : List Label) {k : Int32}
    {rest : List V} (h : f.stack = M.int k :: rest) :
    M.exec added ⟨.tableSwitch, .tableSwitch low high dflt targets⟩ f fields =
      some (.jumps (tableTarget low high dflt targets k) { f with stack := rest }, fields) := by
  have hshape : (Operand.tableSwitch low high dflt targets).shape ≠ .field := nofun
  rw [exec_of_shape hshape, M.run_table _ _ _ _ k rest _ h]

theorem exec_ireturn {v : V} {rest : List V} (h : f.stack = v :: rest) :
    M.exec added (.plain .ireturn) f fields = some (.returns (some v) f.heap, fields) := by
  have hshape : (Insn.plain .ireturn).operand.shape ≠ .field := nofun
  rw [exec_of_shape hshape, M.run_ireturn _ _ _ h]

theorem exec_getField {owner name desc : Text} (hadded : (owner, name, desc) ∈ added) {v : V}
    {rest : List V} (h : f.stack = v :: rest) :
    M.exec added (.access .getField owner name desc) f fields =
      some (.falls { f with stack := fields v (owner, name, desc) :: rest }, fields) := by
  have hkey : (Insn.access .getField owner name desc).instanceField? =
      some (owner, name, desc) := by simp [Insn.instanceField?, Insn.access]
  rw [exec, hkey, Option.filter_some, if_pos (by simpa using hadded)]
  simp [Insn.access, h]

theorem exec_putField {owner name desc : Text} (hadded : (owner, name, desc) ∈ added) {v w : V}
    {rest : List V} (h : f.stack = w :: v :: rest) :
    M.exec added (.access .putField owner name desc) f fields =
      some (.falls { f with stack := rest }, fields.put v (owner, name, desc) w) := by
  have hkey : (Insn.access .putField owner name desc).instanceField? =
      some (owner, name, desc) := by simp [Insn.instanceField?, Insn.access]
  have hop : Opcode.putField ≠ Opcode.getField := by decide
  rw [exec, hkey, Option.filter_some, if_pos (by simpa using hadded)]
  simp [Insn.access, h, hop]

end Machine

/-! ### Slots -/

namespace Generator

section Slots

variable {V Heap : Type} [DecidableEq V] {M : Machine V Heap} {added : List FieldKey}
variable {g : Generator} {slots : List Slot} {f : Frame V Heap} {fields : Fields V}
variable {locals : UInt16 → V}

/-- The field that keeps a slot. -/
def slotKey (g : Generator) (s : Slot) : FieldKey := (g.owner, s.name, s.desc)

/-- The field that keeps the state. -/
def stateKey (g : Generator) : FieldKey := (g.owner, g.stateField, "I")

/-- The fields that weaving adds. -/
def addedFields (g : Generator) (slots : List Slot) : List FieldKey :=
  g.stateKey :: slots.map g.slotKey

/-- The locals after some slots are cleared. -/
def cleared (M : Machine V Heap) : List Slot → (UInt16 → V) → UInt16 → V
  | [], locals => locals
  | s :: slots, locals =>
    cleared M slots (Function.update locals s.index (M.zero (.ofDescriptor s.desc)))

/-- The fields after some slots of the receiver are saved. -/
def saved (g : Generator) (this : V) (locals : UInt16 → V) : List Slot → Fields V → Fields V
  | [], fields => fields
  | s :: slots, fields =>
    saved g this locals slots (fields.put this (g.slotKey s) (locals s.index))

/-- The locals after some slots of the receiver are restored. -/
def restored (g : Generator) (this : V) (fields : Fields V) :
    List Slot → (UInt16 → V) → UInt16 → V
  | [], locals => locals
  | s :: slots, locals =>
    restored g this fields slots (Function.update locals s.index (fields this (g.slotKey s)))

theorem execAll_clear (slots : List Slot) (f : Frame V Heap) :
    M.execAll added (slots.flatMap clear) f fields =
      some ({ f with locals := cleared M slots f.locals }, fields) := by
  induction slots generalizing f with
  | nil => rfl
  | cons s slots ih =>
    have hone : M.execAll added (clear s) f fields = some ({ f with
        locals := Function.update f.locals s.index (M.zero (.ofDescriptor s.desc)) }, fields) := by
      rw [clear, Machine.execAll_cons (Machine.exec_zero _)]
      exact Machine.execAll_cons (Machine.exec_store (.ofDescriptor s.desc) s.index rfl)
    rw [List.flatMap_cons, Machine.execAll_append hone, ih]
    rfl

theorem execAll_save (hadded : ∀ s ∈ slots, g.slotKey s ∈ added) :
    M.execAll added (slots.flatMap g.save) f fields =
      some (f, g.saved (f.locals 0) f.locals slots fields) := by
  induction slots generalizing fields with
  | nil => rfl
  | cons s slots ih =>
    have hone : M.execAll added (g.save s) f fields =
        some (f, fields.put (f.locals 0) (g.slotKey s) (f.locals s.index)) := by
      have hload : M.exec added (.load s.load s.index)
          { f with stack := f.locals 0 :: f.stack } fields = _ :=
        Machine.exec_load (.ofDescriptor s.desc) s.index
      rw [save, Machine.execAll_cons Machine.exec_aload, Machine.execAll_cons hload]
      exact Machine.execAll_cons (Machine.exec_putField (hadded s (by simp)) rfl)
    rw [List.flatMap_cons, Machine.execAll_append hone, ih fun t ht => hadded t (by simp [ht])]
    rfl

theorem execAll_restore (hadded : ∀ s ∈ slots, g.slotKey s ∈ added)
    (hzero : ∀ s ∈ slots, s.index ≠ 0) (f : Frame V Heap) :
    M.execAll added (slots.flatMap g.restore) f fields =
      some ({ f with locals := g.restored (f.locals 0) fields slots f.locals }, fields) := by
  induction slots generalizing f with
  | nil => rfl
  | cons s slots ih =>
    have hone : M.execAll added (g.restore s) f fields = some ({ f with
        locals := Function.update f.locals s.index (fields (f.locals 0) (g.slotKey s)) },
        fields) := by
      rw [restore, Machine.execAll_cons Machine.exec_aload,
        Machine.execAll_cons (Machine.exec_getField (hadded s (by simp)) rfl)]
      exact Machine.execAll_cons (Machine.exec_store (.ofDescriptor s.desc) s.index rfl)
    have hthis : Function.update f.locals s.index (fields (f.locals 0) (g.slotKey s)) 0 =
        f.locals 0 := Function.update_of_ne (hzero s (by simp)).symm _ _
    rw [List.flatMap_cons, Machine.execAll_append hone,
      ih (fun t ht => hadded t (by simp [ht])) fun t ht => hzero t (by simp [ht])]
    simp only [hthis]
    rfl

/-! ### What is saved comes back -/

omit [DecidableEq V] in
theorem cleared_of_notMem {n : UInt16} (h : ∀ s ∈ slots, s.index ≠ n) :
    cleared M slots locals n = locals n := by
  induction slots generalizing locals with
  | nil => rfl
  | cons s slots ih =>
    rw [cleared, ih fun t ht => h t (by simp [ht])]
    exact Function.update_of_ne (h s (by simp)).symm _ _

/-- Two tables that agree off some slots still do when one more gets the same value. -/
theorem update_agree {α : Type} {s : Slot} {t w : UInt16 → α} {v v' : α}
    (h : ∀ n, (∀ u ∈ s :: slots, u.index ≠ n) → t n = w n) (hv : v = v') (n : UInt16)
    (hn : ∀ u ∈ slots, u.index ≠ n) :
    Function.update t s.index v n = Function.update w s.index v' n := by
  by_cases he : n = s.index
  · rw [he, Function.update_self, Function.update_self, hv]
  · rw [Function.update_of_ne he, Function.update_of_ne he]
    refine h n fun u hu => ?_
    rcases List.mem_cons.mp hu with rfl | hu
    · exact fun e => he e.symm
    · exact hn u hu

omit [DecidableEq V] in
/-- Locals that differ only in slots are the same when these are cleared. -/
theorem cleared_congr {locals' : UInt16 → V}
    (h : ∀ n, (∀ s ∈ slots, s.index ≠ n) → locals n = locals' n) :
    cleared M slots locals = cleared M slots locals' := by
  induction slots generalizing locals locals' with
  | nil =>
    funext n
    exact h n (by simp)
  | cons s slots ih => exact ih (update_agree h rfl)

theorem put_self (fields : Fields V) (v : V) (key : FieldKey) (w : V) :
    fields.put v key w v key = w := by
  rw [Fields.put, Function.update_self, Function.update_self]

theorem put_of_ne (fields : Fields V) (v : V) {key key' : FieldKey} (h : key' ≠ key) (w : V) :
    fields.put v key w v key' = fields v key' := by
  rw [Fields.put, Function.update_self, Function.update_of_ne h]

theorem saved_of_notMem {this : V} {key : FieldKey} (h : ∀ s ∈ slots, g.slotKey s ≠ key) :
    g.saved this locals slots fields this key = fields this key := by
  induction slots generalizing fields with
  | nil => rfl
  | cons s slots ih =>
    rw [saved, ih fun t ht => h t (by simp [ht])]
    exact put_of_ne _ _ (h s (by simp)).symm _

/-- A field holds the value of the slots that are kept in it. -/
theorem saved_of_mem {this v : V} {key : FieldKey}
    (hkey : ∀ s ∈ slots, g.slotKey s = key → locals s.index = v)
    (hmem : ∃ s ∈ slots, g.slotKey s = key) :
    g.saved this locals slots fields this key = v := by
  induction slots generalizing fields with
  | nil =>
    obtain ⟨s, hs, -⟩ := hmem
    cases hs
  | cons t slots ih =>
    rw [saved]
    by_cases hin : ∃ s ∈ slots, g.slotKey s = key
    · exact ih (fun s hs => hkey s (by simp [hs])) hin
    · rw [saved_of_notMem fun s hs e => hin ⟨s, hs, e⟩]
      obtain ⟨s, hs, rfl⟩ := hmem
      rcases List.mem_cons.mp hs with rfl | hs
      · rw [put_self]
        exact hkey s (by simp) rfl
      · exact absurd ⟨s, hs, rfl⟩ hin

omit [DecidableEq V] in
/-- Restoring gives every slot the value of its field and leaves the other locals alone. -/
theorem restored_eq {this : V} {locals' : UInt16 → V}
    (hslots : ∀ s ∈ slots, fields this (g.slotKey s) = locals' s.index)
    (hother : ∀ n, (∀ s ∈ slots, s.index ≠ n) → locals n = locals' n) :
    g.restored this fields slots locals = locals' := by
  induction slots generalizing locals with
  | nil =>
    funext n
    exact hother n (by simp)
  | cons s slots ih =>
    refine ih (fun t ht => hslots t (by simp [ht])) fun n hn => ?_
    have hself := update_agree (w := locals') hother (hslots s (by simp)) n hn
    rw [hself, Function.update_eq_self]

end Slots

end Generator

end ClassWeaver
