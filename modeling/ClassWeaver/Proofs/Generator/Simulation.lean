import Mathlib.Algebra.Order.Ring.Int
import ClassWeaver.Generator.Weaving
import ClassWeaver.Proofs.Generator.Execution

/-!
# Woven methods do what their bodies do

One run of the body is followed step by step by calling the woven method again and again. The
two are related while the body runs (`Generator.Weaves`): the woven method stands at the place
of the body's node, with the same stack, the same locals and the same heap. A step of the body
is a step of the call, except behind a yield call. There the call saves the slots, records the
state and returns true; the next call clears its locals, jumps behind the return and restores
the slots. The relation holds again then, because the stack is empty behind a yield call and a
local that is no slot is never written.
-/

namespace ClassWeaver

/-! ### Several steps -/

namespace Course

variable {V Heap : Type} {step : Course V Heap → Option (Course V Heap)} {c d e : Course V Heap}

/-- The course at another activation. -/
def moveTo (c : Course V Heap) (s : Activation V Heap) : Course V Heap :=
  { c with standing := .running s }

theorem after_one (h : step c = some d) : after step 1 c = some d := by
  simp [after, h]

theorem after_add {m n : Nat} (h : after step m c = some d) (h' : after step n d = some e) :
    after step (m + n) c = some e := by
  induction m generalizing c with
  | zero =>
    obtain rfl := Option.some.inj h
    rwa [Nat.zero_add]
  | succ m ih =>
    obtain ⟨c', hc', h⟩ := Option.bind_eq_some_iff.mp h
    rw [Nat.succ_add, after, hc']
    exact ih h

end Course

/-! ### Steps of a call -/

namespace Machine

variable {V Heap : Type} [DecidableEq V] {M : Machine V Heap} {added : List FieldKey}
variable {l : Listing} {own : List Ref} {locals : Nat → UInt16 → V} {c : Course V Heap}
variable {s s' : Activation V Heap} {i : Insn} {ending : Completion V Heap} {fields : Fields V}

omit [DecidableEq V] in
theorem transfer_falls {r : Ref} {f : Frame V Heap} (h : l.next (some s.pc) = some r) :
    M.transfer l s fields (.falls f) = some (.goes ⟨r, f, fields⟩) := by
  simp [transfer, h]

omit [DecidableEq V] in
theorem transfer_jumps {r : Ref} {f : Frame V Heap} {target : Label}
    (h : l.binding target = some r) :
    M.transfer l s fields (.jumps target f) = some (.goes ⟨r, f, fields⟩) := by
  simp [transfer, h]

section Step

variable (hc : c.standing = .running s) (hi : l.insn? s.pc = some i)
variable (he : M.exec added i s.frame s.fields = some (ending, fields))

include hc hi he

theorem callStep_goes (ht : M.transfer l s fields ending = some (.goes s')) :
    M.callStep added l own locals c = some
      ⟨if s.pc ∈ own then c.trace ++ [(i, s.frame)] else c.trace, c.answers, .running s'⟩ := by
  simp [callStep, hc, hi, he, ht]

theorem callStep_returned {v : Option V} {heap : Heap} {fields' : Fields V} {entry : Ref}
    (ht : M.transfer l s fields ending = some (.returned v heap fields'))
    (hf : l.first = some entry) :
    M.callStep added l own locals c = some
      ⟨if s.pc ∈ own then c.trace ++ [(i, s.frame)] else c.trace, c.answers ++ [v],
        .running ⟨entry, ⟨[], locals (c.answers.length + 1), heap⟩, fields'⟩⟩ := by
  simp [callStep, hc, hi, he, ht, hf]

theorem callStep_threw {e : V} {heap : Heap}
    (ht : M.transfer l s fields ending = some (.threw e heap)) :
    M.callStep added l own locals c = some
      ⟨if s.pc ∈ own then c.trace ++ [(i, s.frame)] else c.trace, c.answers,
        .failed e heap⟩ := by
  simp [callStep, hc, hi, he, ht]

end Step

variable (locals) in
/-- A straight stretch that is not traced is executed at a go. -/
theorem after_execAll {text pre is post : List Insn} {f f' : Frame V Heap}
    {fields' : Fields V} (hl : l.Lists text) (htext : text = pre ++ (is ++ post))
    (hpost : post ≠ []) (hown : ∀ k < is.length, pre.length + k ∉ own)
    (hexec : M.execAll added is f fields = some (f', fields'))
    (hc : c.standing = .running ⟨pre.length, f, fields⟩) :
    Course.after (M.callStep added l own locals) is.length c =
      some (c.moveTo ⟨pre.length + is.length, f', fields'⟩) := by
  induction is generalizing pre f fields c with
  | nil =>
    obtain ⟨rfl, rfl⟩ := Prod.mk.inj (Option.some.inj hexec)
    obtain ⟨trace, answers, standing⟩ := c
    obtain rfl : standing = _ := hc
    rfl
  | cons i is ih =>
    rw [execAll] at hexec
    split at hexec
    · next f₁ fields₁ he =>
      have hlen : pre.length + 1 < text.length := by
        have := List.length_pos_iff.mpr hpost
        rw [htext]
        simp
        omega
      -- something always stands behind the stretch, so each of its nodes has a next one
      have hnext : M.transfer l ⟨pre.length, f, fields⟩ fields₁ (.falls f₁) =
          some (.goes ⟨pre.length + 1, f₁, fields₁⟩) := transfer_falls (hl.next_eq hlen)
      have hmiddle : text = pre ++ i :: (is ++ post) := by simpa using htext
      have hout : pre.length ∉ own := by simpa using hown 0 (by simp)
      have hstep : M.callStep added l own locals c =
          some (c.moveTo ⟨(pre ++ [i]).length, f₁, fields₁⟩) := by
        rw [callStep_goes hc (hl.insn?_middle hmiddle) he hnext, if_neg hout, List.length_append,
          List.length_singleton]
        rfl
      have htext' : text = (pre ++ [i]) ++ (is ++ post) := by simpa using htext
      have hown' : ∀ k < is.length, (pre ++ [i]).length + k ∉ own := by
        intro k hk
        have := hown (k + 1) (by simpa using hk)
        simpa [Nat.add_assoc, Nat.add_comm 1] using this
      have hrest := ih htext' hown' hexec
        (c := c.moveTo ⟨(pre ++ [i]).length, f₁, fields₁⟩) rfl
      rw [List.length_cons, Course.after, hstep, Option.bind_some, hrest]
      simp [Course.moveTo, Nat.add_comm 1, Nat.add_assoc]
    · cases hexec

end Machine

/-! ### Steps of the body -/

/-- The course that leaving an instruction of the body leads to. -/
def Transfer.bodyCourse {V Heap : Type} (trace : List (Insn × Frame V Heap))
    (answers : List (Option V)) : Transfer V Heap → Course V Heap
  | goes s => ⟨trace, answers, .running s⟩
  | returned v heap _ => ⟨trace, answers ++ [v], .ended heap⟩
  | threw e heap => ⟨trace, answers, .failed e heap⟩

namespace Generator

section Step

variable {V Heap : Type} [DecidableEq V] {g : Generator} {M : Machine V Heap}
variable {added : List FieldKey} {body : Listing} {c : Course V Heap} {s s' : Activation V Heap}
variable {i : Insn} {f : Frame V Heap} {ending : Completion V Heap} {fields : Fields V}
variable (hc : c.standing = .running s) (hi : body.insn? s.pc = some i)

include hc hi

theorem bodyStep_breaks (he : M.exec added i s.frame s.fields = some (.falls f, fields))
    (hrole : g.role i = .breaks) :
    g.bodyStep M added body c = some
      ⟨c.trace ++ [(i, s.frame)], c.answers ++ [some (M.int 0)], .ended f.heap⟩ := by
  simp [bodyStep, hc, hi, he, hrole]

theorem bodyStep_yields {r : Ref}
    (he : M.exec added i s.frame s.fields = some (.falls f, fields))
    (hrole : g.role i = .yields) (hr : body.next (some s.pc) = some r) :
    g.bodyStep M added body c = some
      ⟨c.trace ++ [(i, s.frame)], c.answers ++ [some (M.int 1)], .running ⟨r, f, fields⟩⟩ := by
  simp [bodyStep, hc, hi, he, hrole, hr]

variable (he : M.exec added i s.frame s.fields = some (ending, fields))
variable (hplain : g.role i = .plain ∨ ∀ f, ending ≠ .falls f)

include he hplain

theorem bodyStep_of_transfer {out : Transfer V Heap}
    (ht : M.transfer body s fields ending = some out) :
    g.bodyStep M added body c =
      some (out.bodyCourse (c.trace ++ [(i, s.frame)]) c.answers) := by
  simp only [bodyStep, hc, hi, he, Option.bind_eq_bind, Option.bind_some]
  split
  · next hrole =>
    exact hplain.elim (fun h => nomatch hrole.symm.trans h) fun h => absurd rfl (h _)
  · next hrole =>
    exact hplain.elim (fun h => nomatch hrole.symm.trans h) fun h => absurd rfl (h _)
  · rw [ht]
    cases out <;> rfl

end Step

/-! ### Woven bodies -/

/-- A body and its woven listing, with all that weaving it has established. -/
structure Weaves (g : Generator) (body woven : Listing) (H : Heights) (slots : List Slot)
    (count : Nat) : Prop where
  wellFormed : body.WellFormed
  heights : body.FlowHeights H.at?
  lists : woven.Lists (g.wovenText body H slots count)
  resolves : woven.resolve = .ok ()
  labels : ∀ i ∈ body.insns, ∀ lbl ∈ i.labels, lbl < body.numLabels
  noSubroutine : ∀ i ∈ body.insns, i.callsSubroutine = false
  count_eq : body.refs.countP (g.suspendsAt body H) = count
  count_pos : 0 < count
  count_lt : count < 2 ^ 31
  statements : ∀ r ∈ body.refs, g.IsStatement body H r
  index_ne : ∀ s ∈ slots, s.index ≠ 0
  name_inj : ∀ s ∈ slots, ∀ t ∈ slots, s.name = t.name → s.index = t.index
  state_ne : ∀ s ∈ slots, s.name ≠ g.stateField
  slot_of_write : ∀ i ∈ body.insns, ∀ n, i.overwrites n → ∃ s ∈ slots, s.index = n
  oblivious : ∀ i ∈ body.insns, ∀ key, i.instanceField? = some key → key ∉ g.addedFields slots

/-- The slots that the head clears. -/
def freshSlots (g : Generator) (slots : List Slot) : List Slot :=
  slots.filter fun s => !(s.index < g.paramEnd)

/-- The locals that the body starts with: those of the call, with its slots cleared unless
they are parameters. -/
def startLocals {V Heap : Type} (g : Generator) (M : Machine V Heap) (slots : List Slot)
    (args : UInt16 → V) : UInt16 → V :=
  cleared M (g.freshSlots slots) args

/-- The nodes of the woven listing that come from the body. -/
def ownNodes (g : Generator) (body : Listing) (H : Heights) (slots : List Slot) (count : Nat) :
    List Ref :=
  body.refs.map (g.place body H slots count)

/-- One step of calling the woven method again and again. -/
abbrev wovenStep {V Heap : Type} [DecidableEq V] (g : Generator) (M : Machine V Heap)
    (body woven : Listing) (H : Heights) (slots : List Slot) (count : Nat)
    (locals : Nat → UInt16 → V) : Course V Heap → Option (Course V Heap) :=
  M.callStep (g.addedFields slots) woven (g.ownNodes body H slots count) locals

theorem wovenHead_eq (g : Generator) (body : Listing) (slots : List Slot) {count : Nat}
    (h : 0 < count) : g.wovenHead body slots count =
      ((g.freshSlots slots).flatMap clear ++
        [.load .aload 0, .access .getField g.owner g.stateField "I"]) ++
      ⟨.tableSwitch, .tableSwitch 1 (Int32.ofNat count) (startLabel body)
        (resumeLabels body count)⟩ :: [.place (startLabel body)] := by
  have hlen : (resumeLabels body count).length = count := by simp [resumeLabels]
  have hne : (resumeLabels body count).isEmpty = false := by
    rw [Bool.eq_false_iff, ne_eq, List.isEmpty_iff_length_eq_zero, hlen]
    omega
  rw [wovenHead, head, resumption, hne, table_one, hlen, freshSlots]
  simp

section Simulation

variable {V Heap : Type} [DecidableEq V] {M : Machine V Heap}
variable {g : Generator} {body woven : Listing} {H : Heights} {slots : List Slot} {count : Nat}
variable {args : UInt16 → V} {locals : Nat → UInt16 → V} {c : Course V Heap}
variable {fields : Fields V} {heap : Heap} {r : Ref} {i : Insn}

theorem Weaves.notMem_own_head (h : g.Weaves body woven H slots count) {p : Nat}
    (hp : p < (g.wovenHead body slots count).length) : p ∉ g.ownNodes body H slots count := by
  intro hmem
  obtain ⟨r, hr, rfl⟩ := List.mem_map.mp hmem
  have := length_head_le_place g H slots count h.wellFormed hr
  omega

theorem Weaves.notMem_own_splice (h : g.Weaves body woven H slots count) (hr : r ∈ body.refs)
    {k : Nat} (hk : k < (g.spliceBehind body H slots count r).length) :
    g.place body H slots count r + 1 + k ∉ g.ownNodes body H slots count := by
  intro hmem
  obtain ⟨t, ht, he⟩ := List.mem_map.mp hmem
  have hcases := place_cases g H slots count h.wellFormed hr ht
  omega

omit [DecidableEq V] in
theorem Weaves.startLocals_zero (h : g.Weaves body woven H slots count) :
    g.startLocals M slots args 0 = args 0 :=
  cleared_of_notMem fun s hs => h.index_ne s (List.mem_of_mem_filter hs)

theorem stateKey_mem : (g.owner, g.stateField, utf8 "I") ∈ g.addedFields slots :=
  List.mem_cons_self

theorem mem_addedFields {s : Slot} (hs : s ∈ slots) : g.slotKey s ∈ g.addedFields slots :=
  List.mem_cons_of_mem _ (List.mem_map_of_mem hs)

variable (locals) in
/-- The head of a call clears its slots and goes where the recorded state says. -/
theorem Weaves.dispatch (h : g.Weaves body woven H slots count) {k : Int32} {p : Ref}
    {own : UInt16 → V} (hown : ∀ n, (∀ s ∈ g.freshSlots slots, s.index ≠ n) → own n = args n)
    (hstate : fields (args 0) g.stateKey = M.int k)
    (hp : woven.binding (tableTarget 1 (Int32.ofNat count) (startLabel body)
      (resumeLabels body count) k) = some p)
    (hc : c.standing = .running ⟨0, ⟨[], own, heap⟩, fields⟩) :
    ∃ m, Course.after (g.wovenStep M body woven H slots count locals) m c =
      some (c.moveTo ⟨p, ⟨[], g.startLocals M slots args, heap⟩, fields⟩) := by
  -- clearing the slots and reading the state is straight; the switch goes where the state says
  obtain ⟨front, hfront⟩ : ∃ front, front = (g.freshSlots slots).flatMap clear ++
      [.load .aload 0, .access .getField g.owner g.stateField "I"] := ⟨_, rfl⟩
  obtain ⟨rest, hrest⟩ : ∃ rest, rest = g.wovenNodes body H slots count body.refs := ⟨_, rfl⟩
  have hhead := wovenHead_eq g body slots h.count_pos
  rw [← hfront] at hhead
  have htext : g.wovenText body H slots count = front ++
      ⟨.tableSwitch, .tableSwitch 1 (Int32.ofNat count) (startLabel body)
        (resumeLabels body count)⟩ :: (.place (startLabel body) :: rest) := by
    rw [wovenText, ← wovenHead, hhead, hrest]
    simp
  have hlt : front.length < (g.wovenHead body slots count).length := by simp [hhead]
  have hcleared : cleared M (g.freshSlots slots) own = g.startLocals M slots args :=
    cleared_congr hown
  have hexec : M.execAll (g.addedFields slots) front ⟨[], own, heap⟩ fields =
      some (⟨[M.int k], g.startLocals M slots args, heap⟩, fields) := by
    rw [hfront, Machine.execAll_append (execAll_clear _ _), hcleared,
      Machine.execAll_cons Machine.exec_aload]
    refine (Machine.execAll_cons (Machine.exec_getField stateKey_mem rfl)).trans ?_
    dsimp only
    rw [h.startLocals_zero, show (g.owner, g.stateField, utf8 "I") = g.stateKey from rfl, hstate]
    rfl
  have hwalk : Course.after (g.wovenStep M body woven H slots count locals) front.length c =
      some (c.moveTo ⟨front.length, ⟨[M.int k], g.startLocals M slots args, heap⟩, fields⟩) := by
    have hnil : g.wovenText body H slots count = [] ++ (front ++ _) := htext
    rw [Machine.after_execAll locals h.lists hnil (by simp)
      (fun j hj => h.notMem_own_head (by simp; omega)) hexec hc, List.length_nil, Nat.zero_add]
  refine ⟨front.length + 1, Course.after_add hwalk (Course.after_one ?_)⟩
  rw [wovenStep, Machine.callStep_goes rfl (h.lists.insn?_middle htext)
    (Machine.exec_table _ _ _ _ rfl) (Machine.transfer_jumps hp),
    if_neg (h.notMem_own_head hlt)]
  rfl

/-- A label is bound where the woven text places it. -/
theorem Weaves.binding_of_text (h : g.Weaves body woven H slots count) {pre post : List Insn}
    {n : Nat} (htext : g.wovenText body H slots count = pre ++ .place (n : Int) :: post) :
    woven.binding (n : Int) = some pre.length := by
  have hinsn := h.lists.insn?_middle htext
  refine h.lists.wellFormed.binding_of_resolve h.resolves (h.lists.mem_refs ?_) ?_
    (Int.natCast_nonneg n)
  · simp [htext]
  · rw [Listing.placedAt, hinsn]
    rfl

theorem Weaves.exists_first (h : g.Weaves body woven H slots count) :
    ∃ entry, body.first = some entry := by
  obtain ⟨r, hr, -⟩ := List.countP_pos_iff.mp (h.count_eq ▸ h.count_pos)
  rw [h.wellFormed.spells.first_eq]
  cases hrefs : body.refs with
  | nil =>
    rw [hrefs] at hr
    cases hr
  | cons entry rest => exact ⟨entry, rfl⟩

variable (locals) in
/-- The first call enters the body at its start. -/
theorem Weaves.start (h : g.Weaves body woven H slots count) {own : UInt16 → V}
    (hown : ∀ n, (∀ s ∈ g.freshSlots slots, s.index ≠ n) → own n = args n)
    (hstate : fields (args 0) g.stateKey = M.int 0) (hfirst : body.first = some r)
    (hc : c.standing = .running ⟨0, ⟨[], own, heap⟩, fields⟩) :
    ∃ m, Course.after (g.wovenStep M body woven H slots count locals) m c =
      some (c.moveTo ⟨g.place body H slots count r,
        ⟨[], g.startLocals M slots args, heap⟩, fields⟩) := by
  obtain ⟨front, hfront⟩ : ∃ front, g.wovenHead body slots count =
      front ++ [.place (startLabel body)] := ⟨_, rfl⟩
  have hplace : g.place body H slots count r = front.length + 1 := by
    rw [place, wovenBefore_first h.wellFormed hfirst, hfront]
    simp
  have hr : r ∈ body.refs := List.mem_of_head? (h.wellFormed.spells.first_eq ▸ hfirst)
  have hne : g.wovenNodes body H slots count body.refs ≠ [] := by
    obtain ⟨i, hi⟩ := h.wellFormed.spells.exists_insn hr
    obtain ⟨ys, hs⟩ := List.head?_eq_some_iff.mp (h.wellFormed.spells.first_eq ▸ hfirst)
    rw [hs, wovenNodes, hi]
    simp
  have htext : g.wovenText body H slots count = front ++
      ([.place (startLabel body)] ++ g.wovenNodes body H slots count body.refs) := by
    rw [wovenText, ← wovenHead, hfront, List.append_assoc]
  -- the state zero is out of the range of the table, so the default is taken
  have htarget : tableTarget 1 (Int32.ofNat count) (startLabel body) (resumeLabels body count) 0 =
      startLabel body := by
    rw [tableTarget, if_neg fun hle => absurd hle.1 (by decide)]
  have hbind : woven.binding (tableTarget 1 (Int32.ofNat count) (startLabel body)
      (resumeLabels body count) 0) = some front.length := by
    rw [htarget]
    exact h.binding_of_text htext
  obtain ⟨m, hm⟩ := h.dispatch locals hown hstate hbind hc
  have hexec : M.execAll (g.addedFields slots) [.place (startLabel body)]
      ⟨[], g.startLocals M slots args, heap⟩ fields =
      some (⟨[], g.startLocals M slots args, heap⟩, fields) :=
    Machine.execAll_cons (Machine.exec_place _)
  have hlast := Machine.after_execAll locals
    (c := c.moveTo ⟨front.length, ⟨[], g.startLocals M slots args, heap⟩, fields⟩)
    h.lists htext hne (fun k hk => h.notMem_own_head (by simp at hk; simp [hfront]; omega))
    hexec rfl
  refine ⟨m + 1, Course.after_add hm ?_⟩
  rw [hplace]
  exact hlast

/-! ### Suspension -/

/-- A reached yield call has a state. -/
theorem Weaves.leftAt_bounds (h : g.Weaves body woven H slots count) (hr : r ∈ body.refs)
    (hs : g.suspendsAt body H r = true) :
    1 ≤ g.leftAt body H count r ∧ g.leftAt body H count r ≤ count := by
  obtain ⟨xs, ys, hsplit⟩ := List.append_of_mem hr
  have hnd : (xs ++ r :: ys).Nodup := hsplit ▸ h.wellFormed.spells.nodup
  have hcount := h.count_eq
  rw [hsplit, List.countP_append, List.countP_cons, if_pos hs] at hcount
  rw [leftAt, hsplit, Listing.takeWhile_ne hnd]
  omega

theorem tableTarget_resume {id : Nat} (h1 : 1 ≤ id) (hle : id ≤ count) (hlt : count < 2 ^ 31) :
    tableTarget 1 (Int32.ofNat count) (startLabel body) (resumeLabels body count)
      (Int32.ofNat id) = resumeLabel body id := by
  have hid : (Int32.ofNat id).toInt = id := Int32.toInt_ofNat_of_lt (by omega)
  have hcount : (Int32.ofNat count).toInt = count := Int32.toInt_ofNat_of_lt hlt
  have hone : (1 : Int32).toInt = 1 := rfl
  rw [tableTarget, if_pos, hid, hone]
  · have hget : (resumeLabels body count)[id - 1]? = some (resumeLabel body id) := by
      have hid' : id - 1 + 1 = id := by omega
      simp [resumeLabels, show id - 1 < count by omega, hid']
    rw [List.getD_eq_getElem?_getD, show ((id : Int) - 1).toNat = id - 1 by omega, hget]
    rfl
  · rw [Int32.le_iff_toInt_le, Int32.le_iff_toInt_le, hid, hcount, hone]
    omega

/-- The part of a suspension in front of its return. -/
def leaving (g : Generator) (slots : List Slot) (id : Nat) : List Insn :=
  slots.flatMap g.save ++ [.load .aload 0, push (Int32.ofNat id),
    .access .putField g.owner g.stateField "I", .plain .iconst1]

theorem suspension_eq (g : Generator) (slots : List Slot) (id : Nat) (resume : Label) :
    g.suspension slots id resume = g.leaving slots id ++
      .plain .ireturn :: (.place resume :: slots.flatMap g.restore) := by
  simp [suspension, leaving]

theorem execAll_leaving {f : Frame V Heap} (hf : f.stack = []) (id : Nat) :
    M.execAll (g.addedFields slots) (g.leaving slots id) f fields =
      some ({ f with stack := [M.int 1] },
        (g.saved (f.locals 0) f.locals slots fields).put (f.locals 0) g.stateKey
          (M.int (Int32.ofNat id))) := by
  have hone : Insn.plain .iconst1 = push 1 := by rfl
  rw [leaving, Machine.execAll_append (execAll_save fun s hs => mem_addedFields hs),
    Machine.execAll_cons Machine.exec_aload, Machine.execAll_cons (Machine.exec_push _),
    Machine.execAll_cons (Machine.exec_putField stateKey_mem rfl), hone,
    Machine.execAll_cons (Machine.exec_push _)]
  simp [Machine.execAll, hf, stateKey]

/-- The way out of a suspension, and the way back in. -/
def returning (g : Generator) (body : Listing) (slots : List Slot) (id : Nat) : List Insn :=
  .place (resumeLabel body id) :: slots.flatMap g.restore

section Resume

variable {f : Frame V Heap} {t : Ref} {id : Nat} {pre post : List Insn}

/-- The stretches of a suspension in the woven text. -/
theorem Weaves.suspension_split (h : g.Weaves body woven H slots count) (hr : r ∈ body.refs)
    (hi : body.insn? r = some i) (hs : g.suspendsAt body H r = true)
    (ht : body.next (some r) = some t) :
    ∃ id pre post, 1 ≤ id ∧ id ≤ count ∧ post ≠ [] ∧
      pre.length = g.place body H slots count r + 1 ∧
      g.wovenText body H slots count =
        pre ++ (g.leaving slots id ++ .plain .ireturn :: (g.returning body slots id ++ post)) ∧
      g.place body H slots count t =
        pre.length + (g.leaving slots id).length + 1 + (g.returning body slots id).length ∧
      ∀ k < (g.leaving slots id).length + 1 + (g.returning body slots id).length,
        pre.length + k ∉ g.ownNodes body H slots count := by
  obtain ⟨xs, ys, hsplit⟩ := List.append_of_mem hr
  have hspell : body.Spells (xs ++ r :: ys) := hsplit ▸ h.wellFormed.spells
  obtain ⟨post, htext, hnext⟩ := wovenText_split g H slots count h.wellFormed hsplit hi
  obtain ⟨hbefore, hpost⟩ := hnext t (hspell.next_eq ▸ ht)
  obtain ⟨h1, hle⟩ := h.leftAt_bounds hr hs
  have hsplice : g.spliceBehind body H slots count r =
      g.leaving slots (g.leftAt body H count r) ++
        .plain .ireturn :: g.returning body slots (g.leftAt body H count r) := by
    simp only [suspendsAt, Bool.and_eq_true, Option.isSome_iff_exists, hi, Option.any_some,
      decide_eq_true_eq] at hs
    obtain ⟨⟨n, hn⟩, hrole⟩ := hs
    simp [spliceBehind, spliceAt, hn, hi, hrole, suspension_eq, returning]
  have hlen : (g.wovenBefore body H slots count r ++ [i]).length =
      g.place body H slots count r + 1 := by simp [place]
  rw [hsplice] at htext hbefore
  refine ⟨_, g.wovenBefore body H slots count r ++ [i], post, h1, hle, hpost, hlen, ?_, ?_, ?_⟩
  · simp [htext]
  · rw [place, hbefore]
    simp
    omega
  · intro k hk
    rw [hlen]
    exact h.notMem_own_splice hr (by simp [hsplice]; omega)

variable (locals) in
/-- A stretch that ends in a return answers the top of the stack, and the next call begins. -/
theorem Weaves.answer (h : g.Weaves body woven H slots count) {is : List Insn}
    {f' : Frame V Heap} {fields' : Fields V} {v : V} {rest : List V}
    (htext : g.wovenText body H slots count = pre ++ (is ++ .plain .ireturn :: post))
    (hown : ∀ k < is.length + 1, pre.length + k ∉ g.ownNodes body H slots count)
    (hexec : M.execAll (g.addedFields slots) is f fields = some (f', fields'))
    (hv : f'.stack = v :: rest) (hc : c.standing = .running ⟨pre.length, f, fields⟩) :
    ∃ m, Course.after (g.wovenStep M body woven H slots count locals) m c =
      some ⟨c.trace, c.answers ++ [some v],
        .running ⟨0, ⟨[], locals (c.answers.length + 1), f'.heap⟩, fields'⟩⟩ := by
  have hwalk := Machine.after_execAll locals h.lists htext (by simp)
    (fun k hk => hown k (by omega)) hexec hc
  refine ⟨_, Course.after_add hwalk (Course.after_one ?_)⟩
  have hreturn : g.wovenText body H slots count = (pre ++ is) ++ .plain .ireturn :: post := by
    simp [htext]
  have hinsn := h.lists.insn?_middle hreturn
  rw [List.length_append] at hinsn
  have hfirst : woven.first = some 0 := h.lists.first_eq (by simp [htext])
  rw [wovenStep, Machine.callStep_returned rfl hinsn (Machine.exec_ireturn hv) rfl hfirst,
    if_neg (hown _ (by omega))]
  rfl

variable (locals) in
/-- A call in a recorded state comes back behind the return, with the slots restored. -/
theorem Weaves.comeBack (h : g.Weaves body woven H slots count)
    (htext : g.wovenText body H slots count = pre ++ (g.returning body slots id ++ post))
    (hpost : post ≠ []) (h1 : 1 ≤ id) (hle : id ≤ count)
    (hown : ∀ k < (g.returning body slots id).length,
      pre.length + k ∉ g.ownNodes body H slots count) {own : UInt16 → V}
    (hcall : ∀ n, (∀ s ∈ g.freshSlots slots, s.index ≠ n) → own n = args n)
    (hstate : fields (args 0) g.stateKey = M.int (Int32.ofNat id))
    (hc : c.standing = .running ⟨0, ⟨[], own, heap⟩, fields⟩) :
    ∃ m, Course.after (g.wovenStep M body woven H slots count locals) m c =
      some (c.moveTo ⟨pre.length + (g.returning body slots id).length,
        ⟨[], g.restored (args 0) fields slots (g.startLocals M slots args), heap⟩, fields⟩) := by
  have hbind : woven.binding (tableTarget 1 (Int32.ofNat count) (startLabel body)
      (resumeLabels body count) (Int32.ofNat id)) = some pre.length := by
    rw [tableTarget_resume h1 hle h.count_lt]
    have hplace : g.wovenText body H slots count =
        pre ++ .place (resumeLabel body id) :: (slots.flatMap g.restore ++ post) := by
      rw [htext, returning, List.cons_append]
    exact h.binding_of_text hplace
  obtain ⟨m, hm⟩ := h.dispatch locals hcall hstate hbind hc
  have hexec : M.execAll (g.addedFields slots) (g.returning body slots id)
      ⟨[], g.startLocals M slots args, heap⟩ fields =
      some (⟨[], g.restored (args 0) fields slots (g.startLocals M slots args), heap⟩,
        fields) := by
    rw [returning, Machine.execAll_cons (Machine.exec_place _),
      execAll_restore (fun s hs => mem_addedFields hs) h.index_ne]
    simp only [h.startLocals_zero]
  have hwalk := Machine.after_execAll locals h.lists htext hpost hown hexec
    (c := c.moveTo ⟨pre.length, ⟨[], g.startLocals M slots args, heap⟩, fields⟩) rfl
  exact ⟨_, Course.after_add hm hwalk⟩

variable (locals) in
/-- Behind a yield call the call returns true, and the next call goes on right behind the
splice with the same locals. -/
theorem Weaves.resume (h : g.Weaves body woven H slots count)
    (hlocals : ∀ k n, (∀ s ∈ g.freshSlots slots, s.index ≠ n) → locals k n = args n)
    (hr : r ∈ body.refs) (hi : body.insn? r = some i) (hs : g.suspendsAt body H r = true)
    (ht : body.next (some r) = some t) (hf : f.stack = [])
    (hkeep : ∀ n, (∀ s ∈ slots, s.index ≠ n) → f.locals n = g.startLocals M slots args n)
    (hc : c.standing = .running ⟨g.place body H slots count r + 1, f, fields⟩) :
    ∃ m fields', Course.after (g.wovenStep M body woven H slots count locals) m c =
      some ⟨c.trace, c.answers ++ [some (M.int 1)],
        .running ⟨g.place body H slots count t, f, fields'⟩⟩ := by
  obtain ⟨id, pre, post, h1, hle, hpost, hlen, htext, hplace, hown⟩ :=
    h.suspension_split hr hi hs ht
  rw [← hlen] at hc
  obtain ⟨m, hleave⟩ := h.answer locals htext (fun k hk => hown k (by omega))
    (execAll_leaving (M := M) hf id) rfl hc
  have hthis : f.locals 0 = args 0 := by
    rw [hkeep 0 h.index_ne, h.startLocals_zero]
  rw [hthis] at hleave
  have hback : g.wovenText body H slots count =
      (pre ++ g.leaving slots id ++ [Insn.plain .ireturn]) ++
        (g.returning body slots id ++ post) := by
    simp [htext]
  have hown' : ∀ k < (g.returning body slots id).length,
      (pre ++ g.leaving slots id ++ [Insn.plain .ireturn]).length + k ∉
        g.ownNodes body H slots count := by
    intro k hk
    have := hown ((g.leaving slots id).length + 1 + k) (by omega)
    simpa [Nat.add_assoc] using this
  obtain ⟨n, hcome⟩ := h.comeBack locals hback hpost h1 hle hown'
    (hlocals (c.answers.length + 1)) (put_self ..)
    (c := ⟨c.trace, c.answers ++ [some (M.int 1)], .running ⟨0, ⟨[], _, _⟩, _⟩⟩) rfl
  -- what is restored was saved: slots from their fields, other locals from the arguments
  have hrestored : g.restored (args 0) ((g.saved (args 0) f.locals slots fields).put (args 0)
      g.stateKey (M.int (Int32.ofNat id))) slots (g.startLocals M slots args) = f.locals := by
    refine restored_eq (fun s hs => ?_) fun n hn => (hkeep n hn).symm
    have hne : g.slotKey s ≠ g.stateKey := fun e =>
      h.state_ne s hs (congrArg (fun key => key.2.1) e)
    rw [put_of_ne _ _ hne]
    refine saved_of_mem (fun u hu e => ?_) ⟨s, hs, rfl⟩
    rw [h.name_inj u hu s hs (congrArg (fun key => key.2.1) e)]
  have hframe : (⟨[], f.locals, f.heap⟩ : Frame V Heap) = f := by rw [← hf]
  have hpc : (pre ++ g.leaving slots id ++ [Insn.plain .ireturn]).length +
      (g.returning body slots id).length = g.place body H slots count t := by
    rw [hplace]
    simp [Nat.add_assoc]
  rw [hrestored, hframe, hpc] at hcome
  exact ⟨m + n, _, Course.after_add hleave hcome⟩

variable (locals) in
/-- Behind a break call the call returns false. -/
theorem Weaves.breakOff (h : g.Weaves body woven H slots count) (hr : r ∈ body.refs)
    (hi : body.insn? r = some i) {n : Nat} (hn : H.at? r = some n) (hrole : g.role i = .breaks)
    (hc : c.standing = .running ⟨g.place body H slots count r + 1, f, fields⟩) :
    ∃ m, Course.after (g.wovenStep M body woven H slots count locals) m c =
      some ⟨c.trace, c.answers ++ [some (M.int 0)],
        .running ⟨0, ⟨[], locals (c.answers.length + 1), f.heap⟩, fields⟩⟩ := by
  obtain ⟨xs, ys, hsplit⟩ := List.append_of_mem hr
  obtain ⟨post, htext, -⟩ := wovenText_split g H slots count h.wellFormed hsplit hi
  have hsplice : g.spliceBehind body H slots count r = [.plain .iconst0, .plain .ireturn] := by
    simp [spliceBehind, spliceAt, hn, hi, hrole, termination]
  have hlen : (g.wovenBefore body H slots count r ++ [i]).length =
      g.place body H slots count r + 1 := by simp [place]
  have hstretch : g.wovenText body H slots count =
      (g.wovenBefore body H slots count r ++ [i]) ++
        ([.plain .iconst0] ++ .plain .ireturn :: post) := by
    simp [htext, hsplice]
  have hzero : Insn.plain .iconst0 = push 0 := by rfl
  have hexec : M.execAll (g.addedFields slots) [.plain .iconst0] f fields =
      some ({ f with stack := M.int 0 :: f.stack }, fields) := by
    rw [hzero]
    exact Machine.execAll_cons (Machine.exec_push 0)
  have hown : ∀ k < [Insn.plain .iconst0].length + 1,
      (g.wovenBefore body H slots count r ++ [i]).length + k ∉ g.ownNodes body H slots count := by
    intro k hk
    rw [hlen]
    exact h.notMem_own_splice hr (by simpa [hsplice] using hk)
  rw [← hlen] at hc
  obtain ⟨m, hm⟩ := h.answer locals hstretch hown hexec rfl hc
  exact ⟨m, hm⟩

end Resume

/-! ### One step of the body -/

/-- The body stands at its analysed height, and only slots have been written. -/
structure Tracks (g : Generator) (M : Machine V Heap) (H : Heights) (slots : List Slot)
    (args : UInt16 → V) (s : Activation V Heap) : Prop where
  height : H.at? s.pc = some s.frame.stack.length
  locals : ∀ n, (∀ t ∈ slots, t.index ≠ n) →
    s.frame.locals n = g.startLocals M slots args n

/-- Where the calls stand when the body stands somewhere: at the same instruction with the
same frame, or at the start of another call when the body has come to its end. -/
inductive Follows (g : Generator) (M : Machine V Heap) (body : Listing) (H : Heights)
    (slots : List Slot) (count : Nat) (args : UInt16 → V) :
    Standing V Heap → Standing V Heap → Prop
  | running {s : Activation V Heap} (fields : Fields V) : Tracks g M H slots args s →
      Follows g M body H slots count args (.running s)
        (.running ⟨g.place body H slots count s.pc, s.frame, fields⟩)
  | ended {heap : Heap} (locals : UInt16 → V) (fields : Fields V) :
      Follows g M body H slots count args (.ended heap) (.running ⟨0, ⟨[], locals, heap⟩, fields⟩)
  | failed {e : V} {heap : Heap} :
      Follows g M body H slots count args (.failed e heap) (.failed e heap)

/-- Two courses with the same trace and the same answers that stand alike. -/
structure Agrees (g : Generator) (M : Machine V Heap) (body : Listing) (H : Heights)
    (slots : List Slot) (count : Nat) (args : UInt16 → V) (c d : Course V Heap) : Prop where
  trace_eq : d.trace = c.trace
  answers_eq : d.answers = c.answers
  follows : Follows g M body H slots count args c.standing d.standing

section Step

variable {s : Activation V Heap} {f : Frame V Heap}

omit [DecidableEq V] in
/-- An instruction that leaves a frame keeps the locals that are no slots. -/
theorem Weaves.locals_after (h : g.Weaves body woven H slots count)
    (hs : Tracks g M H slots args s) (hi : i ∈ body.insns)
    (hf : (M.run i s.frame).after? = some f) (n : UInt16) (hn : ∀ t ∈ slots, t.index ≠ n) :
    f.locals n = g.startLocals M slots args n := by
  have hover : ¬i.overwrites n := fun ho => by
    obtain ⟨t, ht, he⟩ := h.slot_of_write i hi n ho
    exact hn t ht he
  rw [M.locals_eq hf hover, hs.locals n hn]

/-- The machine executes the instructions of the body, whatever the added fields hold. -/
theorem Weaves.exec_body (h : g.Weaves body woven H slots count) (hi : i ∈ body.insns)
    (f : Frame V Heap) (fields : Fields V) :
    M.exec (g.addedFields slots) i f fields = some (M.run i f, fields) := by
  have hnone : i.instanceField?.filter (· ∈ g.addedFields slots) = none := by
    rw [Option.filter_eq_none_iff]
    intro key hkey
    simpa using h.oblivious i hi key hkey
  rw [Machine.exec, hnone]

theorem finalNeed?_of_exit (hexit : i.branches ≠ [] ∨ i.fallsThrough = true) :
    i.finalNeed? = none := by
  cases hf : i.finalNeed? with
  | none => rfl
  | some need =>
    obtain ⟨hb, hft⟩ := Insn.no_exit_of_final hf
    rcases hexit with h | h
    · exact absurd hb h
    · rw [hft] at h
      cases h

omit [DecidableEq V] in
/-- The successors of an instruction that leaves a frame have the height of its stack. -/
theorem flow_of_after {l : Listing} {h : Ref → Option Nat}
    (heq : l.FlowEquation h r s.frame.stack.length i)
    (hexit : i.branches ≠ [] ∨ i.fallsThrough = true)
    (hf : (M.run i s.frame).after? = some f) :
    (∃ e, i.effect = .ok e ∧ e.pops ≤ s.frame.stack.length ∧
      f.stack.length = s.frame.stack.length - e.pops + e.pushes) ∧
    (∀ lbl ∈ i.branches, ∃ t, l.binding lbl = some t ∧ h t = some f.stack.length) ∧
      (i.fallsThrough = true → i.callsSubroutine = false → ∃ t, l.next (some r) = some t ∧
        h t = some f.stack.length) := by
  rw [Listing.FlowEquation, finalNeed?_of_exit hexit] at heq
  obtain ⟨e, he, hpops, hbr, hfall⟩ := heq
  have hlen := M.length_stack he hpops hf
  rw [← hlen] at hbr hfall
  refine ⟨⟨e, he, hpops, hlen⟩, hbr, fun hft hsub => ?_⟩
  obtain ⟨t, ht, hk⟩ := hfall hft
  rw [hsub] at hk
  exact ⟨t, ht, hk⟩

section Tracked

variable (h : g.Weaves body woven H slots count) (hs : Tracks g M H slots args s)
variable (hi : body.insn? s.pc = some i)

include h hs hi

omit [DecidableEq V] in
theorem Weaves.mem_insns_of_tracks : s.pc ∈ body.refs ∧ i ∈ body.insns ∧
    body.FlowEquation H.at? s.pc s.frame.stack.length i := by
  have hr : s.pc ∈ body.refs :=
    h.wellFormed.mem_refs_of_reached ((h.heights.domain _).mp ⟨_, hs.height⟩)
  obtain ⟨j, hj, heq⟩ := h.heights.equation _ _ hs.height
  obtain rfl := Option.some.inj (hi.symm.trans hj)
  exact ⟨hr, List.mem_filterMap.mpr ⟨_, hr, hi⟩, heq⟩

omit [DecidableEq V] in
theorem Weaves.tracks_falls (hrun : M.run i s.frame = .falls f) :
    ∃ t, body.next (some s.pc) = some t ∧
      ∀ fields, Tracks g M H slots args ⟨t, f, fields⟩ := by
  obtain ⟨-, hmem, heq⟩ := h.mem_insns_of_tracks hs hi
  have hft := M.fallsThrough_of_falls hrun
  have hafter : (M.run i s.frame).after? = some f := by rw [hrun]; rfl
  obtain ⟨t, ht, hk⟩ := (flow_of_after heq (.inr hft) hafter).2.2 hft (h.noSubroutine i hmem)
  exact ⟨t, ht, fun fields => ⟨hk, h.locals_after hs hmem hafter⟩⟩

omit [DecidableEq V] in
theorem Weaves.tracks_jumps {target : Label} (hrun : M.run i s.frame = .jumps target f) :
    ∃ t, body.binding target = some t ∧ ∀ fields, Tracks g M H slots args ⟨t, f, fields⟩ := by
  obtain ⟨-, hmem, heq⟩ := h.mem_insns_of_tracks hs hi
  have hbr := M.mem_branches_of_jumps hrun
  have hafter : (M.run i s.frame).after? = some f := by rw [hrun]; rfl
  obtain ⟨t, ht, hk⟩ := (flow_of_after heq (.inl (List.ne_nil_of_mem hbr)) hafter).2.1 _ hbr
  exact ⟨t, ht, fun fields => ⟨hk, h.locals_after hs hmem hafter⟩⟩

omit hi [DecidableEq V] in
theorem Weaves.tracks_handler {catches : Text → Bool} {t : Ref} {e : V} {heap : Heap}
    (ht : body.handler? catches s.pc = some t) (fields : Fields V) :
    Tracks g M H slots args ⟨t, ⟨[e], s.frame.locals, heap⟩, fields⟩ := by
  refine ⟨?_, hs.locals⟩
  obtain ⟨j, hj, hjt⟩ := List.exists_of_findSome?_eq_some ht
  unfold Listing.entryHandler? at hjt
  split at hjt
  · next start stop handler caught hop =>
    split at hjt
    · next hcond =>
      have hentry : (⟨.tryCatch, .tryCatch start stop handler caught⟩ : Insn) ∈ body.insns := by
        obtain ⟨op, operand⟩ := j
        obtain rfl : op = .tryCatch := hcond.1
        obtain rfl : operand = _ := hop
        exact hj
      obtain ⟨q, hq, hone⟩ := h.heights.handlers _ _ _ _ hentry
      obtain rfl := Option.some.inj (hjt.symm.trans hq)
      exact hone
    · cases hjt
  · cases hjt

omit [DecidableEq V] in
/-- A yield or break call leaves the stack empty. -/
theorem Weaves.stack_of_falls (hrun : M.run i s.frame = .falls f) (hrole : g.role i ≠ .plain) :
    f.stack = [] := by
  obtain ⟨hr, -, heq⟩ := h.mem_insns_of_tracks hs hi
  have hft := M.fallsThrough_of_falls hrun
  have hafter : (M.run i s.frame).after? = some f := by rw [hrun]; rfl
  obtain ⟨⟨e, he, hpops, hlen⟩, -⟩ := flow_of_after heq (.inr hft) hafter
  obtain ⟨e', he', hzero⟩ := h.statements s.pc hr _ i hs.height hi hrole
  obtain rfl := Except.ok.inj (he.symm.trans he')
  rw [List.eq_nil_iff_length_eq_zero]
  omega

/-- The woven method executes the instruction of a node of the body, and it is traced. -/
theorem Weaves.own_node : s.pc ∈ body.refs ∧
    g.place body H slots count s.pc ∈ g.ownNodes body H slots count ∧
    woven.insn? (g.place body H slots count s.pc) = some i ∧
    ∀ fields, M.exec (g.addedFields slots) i s.frame fields = some (M.run i s.frame, fields) := by
  obtain ⟨hr, hmem, -⟩ := h.mem_insns_of_tracks hs hi
  exact ⟨hr, List.mem_map_of_mem hr, (insn?_place h.wellFormed h.lists hr).trans hi,
    h.exec_body hmem _⟩

end Tracked

/-- The body takes a step, the calls take some, and the two agree again. -/
def Advances (g : Generator) (M : Machine V Heap) (body woven : Listing) (H : Heights)
    (slots : List Slot) (count : Nat) (args : UInt16 → V) (locals : Nat → UInt16 → V)
    (c d : Course V Heap) : Prop :=
  ∃ c' m d', g.bodyStep M (g.addedFields slots) body c = some c' ∧
    Course.after (g.wovenStep M body woven H slots count locals) (m + 1) d = some d' ∧
    Agrees g M body H slots count args c' d'

section Advance

variable {d : Course V Heap} {e : V}
variable (h : g.Weaves body woven H slots count) (hs : Tracks g M H slots args s)
variable (hi : body.insn? s.pc = some i) (hc : c.standing = .running s)
variable (hd : d.standing = .running ⟨g.place body H slots count s.pc, s.frame, fields⟩)
variable (htrace : d.trace = c.trace) (hanswers : d.answers = c.answers)

include h hs hi hc hd htrace hanswers

/-- An instruction after which control stays in the body. -/
theorem Weaves.advance_goes {ending : Completion V Heap} {t : Activation V Heap}
    (hrun : M.run i s.frame = ending) (hplain : g.role i = .plain ∨ ∀ f, ending ≠ .falls f)
    (ht : M.transfer body s s.fields ending = some (.goes t))
    (hw : M.transfer woven ⟨g.place body H slots count s.pc, s.frame, fields⟩ fields ending =
      some (.goes ⟨g.place body H slots count t.pc, t.frame, fields⟩))
    (htracks : Tracks g M H slots args t) :
    Advances g M body woven H slots count args locals c d := by
  obtain ⟨-, hown, hi', hexec⟩ := h.own_node hs hi
  rw [hrun] at hexec
  refine ⟨_, 0, _, bodyStep_of_transfer hc hi (hexec _) hplain ht,
    Course.after_one (Machine.callStep_goes hd hi' (hexec _) hw), ⟨?_, hanswers, ?_⟩⟩
  · rw [if_pos hown, htrace]
    rfl
  · exact .running fields htracks

theorem Weaves.advance_plain (hrun : M.run i s.frame = .falls f) (hrole : g.role i = .plain) :
    Advances g M body woven H slots count args locals c d := by
  obtain ⟨hr, -⟩ := h.own_node hs hi
  obtain ⟨t, ht, htracks⟩ := h.tracks_falls hs hi hrun
  have hnil : g.spliceBehind body H slots count s.pc = [] := by
    simp [spliceBehind, spliceAt, hi, hrole]
  exact h.advance_goes hs hi hc hd htrace hanswers hrun (.inl hrole) (Machine.transfer_falls ht)
    (Machine.transfer_falls (next_place h.wellFormed h.lists hr ht hnil)) (htracks _)

theorem Weaves.advance_jumps {target : Label} (hrun : M.run i s.frame = .jumps target f) :
    Advances g M body woven H slots count args locals c d := by
  have hne : ∀ f', Completion.jumps target f ≠ .falls f' := nofun
  obtain ⟨t, ht, htracks⟩ := h.tracks_jumps hs hi hrun
  exact h.advance_goes hs hi hc hd htrace hanswers hrun (.inr hne) (Machine.transfer_jumps ht)
    (Machine.transfer_jumps (binding_place h.wellFormed h.lists h.resolves ht)) (htracks _)

theorem Weaves.advance_returns {v : Option V} (hrun : M.run i s.frame = .returns v heap) :
    Advances g M body woven H slots count args locals c d := by
  have hne : ∀ f' : Frame V Heap, Completion.returns v heap ≠ .falls f' := nofun
  obtain ⟨hr, hown, hi', hexec⟩ := h.own_node hs hi
  rw [hrun] at hexec
  have hfirst : woven.first = some 0 := h.lists.first_eq (by simp [wovenText, head])
  refine ⟨_, 0, _, bodyStep_of_transfer hc hi (hexec _) (.inr hne) rfl,
    Course.after_one (Machine.callStep_returned hd hi' (hexec _) rfl hfirst), ⟨?_, ?_, ?_⟩⟩
  · rw [if_pos hown, htrace]
    rfl
  · rw [hanswers]
    rfl
  · exact .ended _ fields

/-- An exception is caught by the same entry of the woven text, or by none. -/
theorem Weaves.advance_throws (hrun : M.run i s.frame = .throws e heap) :
    Advances g M body woven H slots count args locals c d := by
  have hne : ∀ f' : Frame V Heap, Completion.throws e heap ≠ .falls f' := nofun
  obtain ⟨hr, hown, hi', hexec⟩ := h.own_node hs hi
  have hplace := handler?_place h.wellFormed h.lists h.resolves h.labels hr
    fun caught => M.catches caught e heap
  cases ht : body.handler? (fun caught => M.catches caught e heap) s.pc with
  | some t =>
    rw [ht, Option.map_some] at hplace
    exact h.advance_goes hs hi hc hd htrace hanswers hrun (.inr hne)
      (t := ⟨t, ⟨[e], s.frame.locals, heap⟩, s.fields⟩) (by simp [Machine.transfer, ht])
      (by simp [Machine.transfer, hplace]) (h.tracks_handler hs ht _)
  | none =>
    rw [ht, Option.map_none] at hplace
    rw [hrun] at hexec
    have hthrew : M.transfer body s s.fields (.throws e heap) = some (.threw e heap) := by
      simp [Machine.transfer, ht]
    have hthrew' : M.transfer woven ⟨g.place body H slots count s.pc, s.frame, fields⟩ fields
        (.throws e heap) = some (.threw e heap) := by
      simp [Machine.transfer, hplace]
    refine ⟨_, 0, _, bodyStep_of_transfer hc hi (hexec _) (.inr hne) hthrew,
      Course.after_one (Machine.callStep_threw hd hi' (hexec _) hthrew'), ⟨?_, hanswers, ?_⟩⟩
    · rw [if_pos hown, htrace]
      rfl
    · exact .failed

variable (locals) in
omit hc in
/-- The woven method goes from a yield or break call to its splice. -/
theorem Weaves.enter_splice (hrun : M.run i s.frame = .falls f) (hrole : g.role i ≠ .plain) :
    g.wovenStep M body woven H slots count locals d = some ⟨c.trace ++ [(i, s.frame)], c.answers,
      .running ⟨g.place body H slots count s.pc + 1, f, fields⟩⟩ := by
  obtain ⟨hr, hown, hi', hexec⟩ := h.own_node hs hi
  rw [hrun] at hexec
  have hne : g.spliceBehind body H slots count s.pc ≠ [] := by
    cases hcase : g.role i with
    | plain => exact absurd hcase hrole
    | yields => simp [spliceBehind, spliceAt, hi, hs.height, hcase, suspension]
    | breaks => simp [spliceBehind, spliceAt, hi, hs.height, hcase, termination]
  rw [wovenStep, Machine.callStep_goes hd hi' (hexec _)
    (Machine.transfer_falls (next_place_of_splice h.wellFormed h.lists hr hne)), if_pos hown,
    htrace, hanswers]

theorem Weaves.advance_breaks (hrun : M.run i s.frame = .falls f) (hrole : g.role i = .breaks) :
    Advances g M body woven H slots count args locals c d := by
  obtain ⟨hr, -, -, hexec⟩ := h.own_node hs hi
  rw [hrun] at hexec
  have henter := h.enter_splice locals hs hi hd htrace hanswers hrun (by simp [hrole])
  obtain ⟨m, hm⟩ := h.breakOff locals hr hi hs.height hrole
    (c := ⟨c.trace ++ [(i, s.frame)], c.answers, .running ⟨_, f, fields⟩⟩) rfl
  have hcalls := Course.after_add (Course.after_one henter) hm
  rw [Nat.add_comm] at hcalls
  exact ⟨_, m, _, bodyStep_breaks hc hi (hexec _) hrole, hcalls, ⟨rfl, rfl, .ended _ fields⟩⟩

/-- A yield call leaves the stack empty, so that the next call finds all that there was. -/
theorem Weaves.advance_yields (hlocals : ∀ k n, (∀ s ∈ g.freshSlots slots, s.index ≠ n) →
    locals k n = args n) (hrun : M.run i s.frame = .falls f) (hrole : g.role i = .yields) :
    Advances g M body woven H slots count args locals c d := by
  obtain ⟨hr, -, -, hexec⟩ := h.own_node hs hi
  rw [hrun] at hexec
  obtain ⟨t, ht, htracks⟩ := h.tracks_falls hs hi hrun
  have henter := h.enter_splice locals hs hi hd htrace hanswers hrun (by simp [hrole])
  have hsuspends : g.suspendsAt body H s.pc = true := by
    simp [suspendsAt, hs.height, hi, hrole]
  have hstack := h.stack_of_falls hs hi hrun (by simp [hrole])
  obtain ⟨m, fields', hm⟩ := h.resume locals hlocals hr hi hsuspends ht hstack
    (htracks fields).locals
    (c := ⟨c.trace ++ [(i, s.frame)], c.answers, .running ⟨_, f, fields⟩⟩) rfl
  have hcalls := Course.after_add (Course.after_one henter) hm
  rw [Nat.add_comm] at hcalls
  exact ⟨_, m, _, bodyStep_yields hc hi (hexec _) hrole ht, hcalls,
    ⟨rfl, rfl, .running fields' (htracks _)⟩⟩

end Advance

variable (locals) in
/-- A body that has not come to its end takes another step, and the calls follow it. -/
theorem Weaves.advance (h : g.Weaves body woven H slots count)
    (hlocals : ∀ k n, (∀ s ∈ g.freshSlots slots, s.index ≠ n) → locals k n = args n)
    {d : Course V Heap} (hagree : Agrees g M body H slots count args c d)
    (hc : c.standing = .running s) :
    Advances g M body woven H slots count args locals c d := by
  obtain ⟨htrace, hanswers, hfollows⟩ := hagree
  rw [hc] at hfollows
  generalize hd : d.standing = standing at hfollows
  obtain ⟨fields, hs⟩ := hfollows
  obtain ⟨i, hi, -⟩ := h.heights.equation _ _ hs.height
  cases hrun : M.run i s.frame with
  | falls f =>
    cases hrole : g.role i with
    | plain => exact h.advance_plain hs hi hc hd htrace hanswers hrun hrole
    | yields => exact h.advance_yields hs hi hc hd htrace hanswers hlocals hrun hrole
    | breaks => exact h.advance_breaks hs hi hc hd htrace hanswers hrun hrole
  | jumps target f => exact h.advance_jumps hs hi hc hd htrace hanswers hrun
  | returns v heap => exact h.advance_returns hs hi hc hd htrace hanswers hrun
  | throws e heap => exact h.advance_throws hs hi hc hd htrace hanswers hrun

end Step

/-! ### Whole runs -/

variable (locals) in
/-- The calls follow the body as far as it goes. -/
theorem Weaves.after_agrees (h : g.Weaves body woven H slots count)
    (hlocals : ∀ k n, (∀ s ∈ g.freshSlots slots, s.index ≠ n) → locals k n = args n)
    {c d c' : Course V Heap} (hagree : Agrees g M body H slots count args c d) {n : Nat}
    (hbody : Course.after (g.bodyStep M (g.addedFields slots) body) n c = some c') :
    ∃ m d', n ≤ m ∧ Course.after (g.wovenStep M body woven H slots count locals) m d = some d' ∧
      Agrees g M body H slots count args c' d' := by
  induction n generalizing c d with
  | zero =>
    obtain rfl := Option.some.inj hbody
    exact ⟨0, d, Nat.le_refl 0, rfl, hagree⟩
  | succ n ih =>
    obtain ⟨e, he, hbody⟩ := Option.bind_eq_some_iff.mp hbody
    obtain ⟨s, hs⟩ : ∃ s, c.standing = .running s := by
      unfold bodyStep at he
      split at he
      · next s hs => exact ⟨s, hs⟩
      · cases he
    obtain ⟨e', k, f, he', hf, hnext⟩ := h.advance locals hlocals hagree hs
    obtain rfl := Option.some.inj (he.symm.trans he')
    obtain ⟨m, d', hle, hd', hlast⟩ := ih hnext hbody
    exact ⟨k + 1 + m, d', by omega, Course.after_add hf hd', hlast⟩

end Simulation

end Generator

end ClassWeaver
