import Mathlib.Algebra.GroupWithZero.Nat
import ClassWeaver.Proofs.Codec.Offsets
import ClassWeaver.Proofs.Codec.Replacing
import ClassWeaver.Proofs.Codec.Truncation

/-!
# Operands that do not fit

Instructions are written by their operands: the operand chooses how many bytes there are, and the
opcode is put in front of them, whether it calls for such an operand or not. An instruction with
bytes is a misfit (`Insn.Misfit`) if it does not.

A misfit is `fitted` by an opcode that calls for its operand. The main result is
`ClassFile.encode_fitted`: a class with misfits is written whenever the fitted class is, and the
files differ in at most one byte for each misfit. The only misfits that keep a class from being
written are those without operand bytes whose opcode the machine does not have or whose labels are
not bound. -/

namespace ClassWeaver

/-! ### Bytes that differ -/

/-- The bytes are as many, and at no more than `n` places they are different. -/
def Near (n : Nat) (as bs : List UInt8) : Prop :=
  as.length = bs.length ∧ (as.zip bs).countP (fun ab => ab.1 ≠ ab.2) ≤ n

namespace Near

variable {m n : Nat} {as as' bs bs' : List UInt8}

@[refl] theorem refl (as : List UInt8) : Near 0 as as := by
  refine ⟨rfl, Nat.le_of_eq (List.countP_eq_zero.mpr ?_)⟩
  intro ab hab
  rw [List.zip_eq_zipWith, List.zipWith_self, List.mem_map] at hab
  obtain ⟨a, -, rfl⟩ := hab
  simp

theorem mono (h : Near m as bs) (hmn : m ≤ n) : Near n as bs := ⟨h.1, Nat.le_trans h.2 hmn⟩

theorem append (h : Near m as bs) (h' : Near n as' bs') : Near (m + n) (as ++ as') (bs ++ bs') := by
  refine ⟨by rw [List.length_append, List.length_append, h.1, h'.1], ?_⟩
  rw [List.zip_append h.1, List.countP_append]
  exact Nat.add_le_add h.2 h'.2

/-- Bytes with another one in front. -/
theorem head (a b : UInt8) (as : List UInt8) : Near 1 (a :: as) (b :: as) := by
  have hone : Near 1 [a] [b] := ⟨rfl, List.countP_le_length⟩
  exact hone.append (.refl as)

theorem append_right (h : Near n as bs) (back : List UInt8) : Near n (as ++ back) (bs ++ back) :=
  h.append (.refl back)

theorem append_left (h : Near n as bs) (front : List UInt8) :
    Near n (front ++ as) (front ++ bs) := by
  have hall := (Near.refl front).append h
  rwa [Nat.zero_add] at hall

/-- One more part behind those that were written, newest first. -/
theorem cons_seen {seen seen' : List (List UInt8)}
    (h : Near m seen.reverse.flatten seen'.reverse.flatten) (h' : Near n as bs) :
    Near (m + n) (as :: seen).reverse.flatten (bs :: seen').reverse.flatten := by
  rw [List.reverse_cons, List.reverse_cons, List.flatten_concat, List.flatten_concat]
  exact h.append h'

end Near

/-! ### Misfits -/

/-- An opcode that calls for operands of the shape, as far as instructions have such operands. -/
def Shape.opcode : Shape → Opcode
  | int => .bipush
  | slot => .ret
  | increment => .iinc
  | type => .newObject
  | field => .getStatic
  | method => .invokeVirtual
  | dynamic => .invokeDynamic
  | jump => .ifNull
  | constant => .ldc
  | tableSwitch => .tableSwitch
  | lookupSwitch => .lookupSwitch
  | multiArray => .multiNewArray
  | _ => .nop

theorem Shape.isPseudo_opcode (s : Shape) : s.opcode.isPseudo = false := by cases s <;> rfl

namespace Insn

variable {i : Insn}

/-- The instruction has bytes, and its operand is not what its opcode calls for. -/
def Misfit (i : Insn) : Prop := i.isReal = true ∧ ¬i.WellShaped

instance (i : Insn) : Decidable i.Misfit := inferInstanceAs (Decidable (_ ∧ _))

/-- The instruction, or if it is a misfit one that fits its operand. An operand that no instruction
has is dropped. -/
def fitted (i : Insn) : Insn :=
  if i.Misfit then
    ⟨i.operand.shape.opcode, if i.operand.shape.isBare then .none else i.operand⟩
  else i

theorem fitted_of_not_misfit (h : ¬i.Misfit) : i.fitted = i := if_neg h

theorem not_misfit_fitted (i : Insn) : ¬i.fitted.Misfit := by
  by_cases h : i.Misfit
  · rw [fitted, if_pos h]
    refine fun hfitted => hfitted.2 (.inl ?_)
    cases i.operand <;> rfl
  · rwa [fitted_of_not_misfit h]

/-- The opcode is that of an instruction with bytes, and does not call for the operand. -/
structure Odd (op : Opcode) (z : Operand) : Prop where
  real : op.isPseudo = false
  shape : op.shape ≠ z.shape

theorem Misfit.odd (h : i.Misfit) : Odd i.opcode i.operand where
  real := by simpa [isReal] using h.1
  shape heq := h.2 (.inl heq.symm)

theorem Odd.ne {op op' : Opcode} {z : Operand} (h : Odd op z) (h' : op'.shape = z.shape) :
    op ≠ op' := by
  rintro rfl
  exact h.shape h'

theorem Odd.not_isIndexedLocal {op : Opcode} {n : UInt16} (h : Odd op (.slot n)) :
    op.isIndexedLocal = false := by
  refine Bool.eq_false_iff.mpr fun hindexed => h.shape ?_
  have hlisted : Opcode.ListedCode op.code := by
    by_contra hno
    simp [Opcode.isIndexedLocal, Opcode.within_of_unlisted hno] at hindexed
  exact Opcode.forall_listed (P := fun op => op.isIndexedLocal = true → op.shape = .slot)
    (by decide +kernel) hlisted hindexed

theorem fitted_of_isPseudo (h : i.opcode.isPseudo = true) : i.fitted = i := by
  refine fitted_of_not_misfit fun hi => ?_
  rw [hi.odd.real] at h
  cases h

theorem isPseudo_fitted (i : Insn) : i.fitted.opcode.isPseudo = i.opcode.isPseudo := by
  by_cases h : i.Misfit
  · rw [h.odd.real, fitted, if_pos h]
    exact Shape.isPseudo_opcode _
  · rw [fitted_of_not_misfit h]

theorem placed?_fitted (i : Insn) : i.fitted.placed? = i.placed? := by
  cases h : i.opcode.isPseudo with
  | true => rw [fitted_of_isPseudo h]
  | false =>
    have hlabel : ∀ {op : Opcode}, op.isPseudo = false → op ≠ .label := by
      rintro _ hreal rfl
      cases hreal
    rw [placed?_of_ne_label (hlabel h),
      placed?_of_ne_label (hlabel ((isPseudo_fitted i).trans h))]

/-- A misfit keeps its labels, unless it loses its operand. -/
theorem labels_fitted (h : ¬(i.Misfit ∧ i.operand.shape.isBare = true)) :
    i.fitted.labels = i.labels := by
  by_cases hi : i.Misfit
  · rw [fitted, if_pos hi, if_neg fun hbare => h ⟨hi, hbare⟩]
    rfl
  · rw [fitted_of_not_misfit hi]

theorem labels_fitted_of_isBare (hi : i.Misfit) (h : i.operand.shape.isBare = true) :
    i.fitted.labels = [] := by
  rw [fitted, if_pos hi, if_pos h]
  rfl

theorem operand_fitted (h : i.operand.shape.isBare = false) : i.fitted.operand = i.operand := by
  unfold fitted
  split
  · rw [h]
    rfl
  · rfl

theorem isBare_fitted (h : i.operand.shape.isBare = true) :
    i.fitted.operand.shape.isBare = true := by
  by_cases hi : i.Misfit
  · rw [fitted, if_pos hi, if_pos h]
    rfl
  · rwa [fitted_of_not_misfit hi]

theorem isUnconditional_fitted {target : Label} (h : i.operand = .jump target) :
    i.fitted.opcode.isUnconditional = i.opcode.isUnconditional := by
  by_cases hi : i.Misfit
  · have hodd := hi.odd
    rw [h] at hodd
    have hne : i.opcode ≠ .goto ∧ i.opcode ≠ .jsr ∧ i.opcode ≠ .gotoW ∧ i.opcode ≠ .jsrW :=
      ⟨hodd.ne rfl, hodd.ne rfl, hodd.ne rfl, hodd.ne rfl⟩
    rw [fitted, if_pos hi, h]
    simp only [Opcode.isUnconditional, hne]
    rfl
  · rw [fitted_of_not_misfit hi]

/-- Whether an instruction has a text does not depend on its opcode. -/
theorem text?_fitted (i : Insn) : Option.Rel (fun _ _ => True) i.text? i.fitted.text? := by
  obtain ⟨op, z⟩ := i
  unfold fitted
  split
  · cases z with
    | lookupSwitch dflt keys targets =>
      change Option.Rel _ ((casesText? keys targets).map _) ((casesText? keys targets).map _)
      cases casesText? keys targets with
      | none => exact .none
      | some cases => exact .some trivial
    | _ => exact .some trivial
  · cases (⟨op, z⟩ : Insn).text? with
    | none => exact .none
    | some t => exact .some trivial

end Insn

/-! ### Constants, sizes and rounds -/

namespace Code

open Insn

variable {p : Pool} {pc : Nat} {x : Item} {y : Layout}

theorem addConstant_fitted (p : Pool) (i : Insn) : addConstant p i.fitted = addConstant p i := by
  by_cases h : i.Misfit
  · obtain ⟨op, z⟩ := i
    have hodd : Odd op z := h.odd
    rw [fitted, if_pos h]
    cases z with
    | method owner name desc onInterface =>
      have hcall : op ≠ .invokeInterface := hodd.ne rfl
      simp only [addConstant, hcall, decide_false]
      rfl
    | _ => rfl
  · rw [fitted_of_not_misfit h]

theorem Item.mapInsn_of_not_misfit (h : ¬x.insn.Misfit) : x.mapInsn Insn.fitted = x := by
  rw [mapInsn, fitted_of_not_misfit h]

theorem size_fitted (p : Pool) (pc : Nat) (x : Item) :
    (x.mapInsn Insn.fitted).size p pc = x.size p pc := by
  by_cases h : x.insn.Misfit
  · obtain ⟨⟨op, z⟩, n, wide⟩ := x
    have hodd : Odd op z := h.odd
    have hreal := hodd.real
    unfold Item.mapInsn
    rw [fitted, if_pos h]
    -- where the size depends on the opcode too, a misfit has none of those that make a difference
    cases z with
    | int v =>
      have hne : op ≠ .sipush := hodd.ne rfl
      simp only [Item.size, hreal, hne]
      rfl
    | slot index =>
      simp only [Item.size, hreal, hodd.not_isIndexedLocal]
      rfl
    | jump target =>
      have hfar : op ≠ .gotoW := hodd.ne rfl
      have hfar' : op ≠ .jsrW := hodd.ne rfl
      simp only [Item.size, Item.isFar, hreal, hfar, hfar']
      rfl
    | method owner name desc onInterface =>
      have hne : op ≠ .invokeInterface := hodd.ne rfl
      simp only [Item.size, hreal, hne]
      rfl
    | _ =>
      simp only [Item.size, hreal]
      rfl
  · rw [Item.mapInsn_of_not_misfit h]

theorem widenAlike_fitted (y : Layout) :
    Layout.WidenAlike Insn.fitted y (y.mapInsn Insn.fitted) := by
  intro x pc
  cases hbare : x.insn.operand.shape.isBare with
  | true =>
    have hbare' : (x.mapInsn Insn.fitted).insn.operand.shape.isBare = true := isBare_fitted hbare
    rw [widen_of_isBare hbare, widen_of_isBare hbare']
    exact rfl
  | false =>
    have hoperand : (x.mapInsn Insn.fitted).insn.operand = x.insn.operand := operand_fitted hbare
    unfold Layout.widen
    rw [hoperand]
    cases hz : x.insn.operand with
    | jump target =>
      have hdelta : (y.mapInsn Insn.fitted).displacement pc target = y.displacement pc target := rfl
      refine .ite Iff.rfl (fun _ => rfl) fun _ => ?_
      rw [hdelta]
      refine (Outcome.Agree.of_eq rfl).bind ?_
      rintro delta _ rfl
      refine .ite Iff.rfl (fun _ => rfl) fun _ => .ite ?_ (fun _ => rfl) fun _ =>
        blame_agree_of_text? (text?_fitted x.insn) ..
      rw [← isUnconditional_fitted hz]
      rfl
    | _ => exact rfl

/-! ### Bytes -/

theorem slotBytes_near {op : Opcode} {index : UInt16} (h : op.isIndexedLocal = false) :
    Near 1 (slotBytes op index) (slotBytes .ret index) := by
  have hret : Opcode.isIndexedLocal .ret = false := rfl
  simp only [slotBytes, h, hret, Bool.false_and, Bool.false_eq_true, if_false]
  split
  · exact .head ..
  · exact (Near.head ..).append_left [opcodeByte .wide]

theorem jumpBytes_near {op : Opcode} {target : Label} (h : Odd op (.jump target)) (n : UInt16)
    (wide : Bool) (delta : Int) :
    Near 1 (jumpBytes ⟨⟨op, .jump target⟩, n, wide⟩ delta)
      (jumpBytes ⟨⟨.ifNull, .jump target⟩, n, wide⟩ delta) := by
  have hne : op ≠ .jsr ∧ op ≠ .gotoW ∧ op ≠ .jsrW := ⟨h.ne rfl, h.ne rfl, h.ne rfl⟩
  cases wide with
  | true =>
    -- a wide form is that of `goto` for all jumps but subroutine calls
    simp only [jumpBytes, Item.isFar, hne]
    exact .head ..
  | false =>
    simp only [jumpBytes, Item.isFar, hne]
    exact .head ..

theorem switchHead_near (y : Layout) (op op' : Opcode) (pc : Nat) (dflt : Label) :
    Outcome.Agree (Near 1) (switchHead y op pc dflt) (switchHead y op' pc dflt) := by
  refine (Outcome.Agree.of_eq rfl).bind ?_
  rintro delta _ rfl
  exact (Near.head ..).append_right _

theorem tableBytes_near (y : Layout) (op op' : Opcode) (pc : Nat) (low high : Int32) (dflt : Label)
    (targets : List Label) :
    Outcome.Agree (Near 1) (tableBytes y op pc low high dflt targets)
      (tableBytes y op' pc low high dflt targets) := by
  refine .ite Iff.rfl (fun _ => .fail _ _) fun _ =>
    (switchHead_near y op op' pc dflt).bind fun head head' hhead => ?_
  refine (Outcome.Agree.of_eq rfl).bind ?_
  rintro deltas _ rfl
  exact ((hhead.append_right _).append_right _).append_right _

theorem lookupBytes_near (y : Layout) (op op' : Opcode) (pc : Nat) (dflt : Label)
    (keys : List Int32) (targets : List Label) :
    Outcome.Agree (Near 1) (lookupBytes y op pc dflt keys targets)
      (lookupBytes y op' pc dflt keys targets) := by
  refine .ite Iff.rfl (fun _ => .fail _ _) fun _ =>
    (switchHead_near y op op' pc dflt).bind fun head head' hhead => ?_
  refine (Outcome.Agree.of_eq rfl).bind ?_
  rintro deltas _ rfl
  exact (hhead.append_right _).append_right _

/-- A misfit is written as its operand wants it, and an opcode that fits would change one byte. -/
theorem itemBytes_of_misfit (h : x.insn.Misfit)
    (hvalid : x.insn.operand.shape.isBare = true → x.insn.opcode.isValid = true) (p : Pool)
    (y : Layout) (pc : Nat) :
    Outcome.Agree (Near 1) (itemBytes p y x pc) (itemBytes p y (x.mapInsn Insn.fitted) pc) := by
  obtain ⟨⟨op, z⟩, n, wide⟩ := x
  have hodd : Odd op z := h.odd
  have hreal := hodd.real
  unfold Item.mapInsn
  rw [fitted, if_pos h]
  -- the operand tells the bytes, and the opcode is the first of them or is written between them
  cases z with
  | int v =>
    have hne : op ≠ .sipush := hodd.ne rfl
    simp only [itemBytes, hreal, hne]
    exact Near.head ..
  | slot index =>
    simp only [itemBytes, hreal]
    exact slotBytes_near hodd.not_isIndexedLocal
  | increment _ _ | constant _ =>
    simp only [itemBytes, hreal]
    exact (Near.refl _).mono (Nat.zero_le 1)
  | jump target =>
    simp only [itemBytes, hreal]
    refine (Outcome.Agree.of_eq rfl).bind ?_
    rintro delta _ rfl
    exact jumpBytes_near hodd n wide delta
  | tableSwitch low high dflt targets =>
    simp only [itemBytes, hreal]
    exact tableBytes_near ..
  | lookupSwitch dflt keys targets =>
    simp only [itemBytes, hreal]
    exact lookupBytes_near ..
  | field _ _ _ | type _ =>
    simp only [itemBytes, hreal]
    exact Near.head ..
  | method owner name desc onInterface =>
    have hne : op ≠ .invokeInterface := hodd.ne rfl
    simp only [itemBytes, hreal, hne]
    exact Near.head ..
  | dynamic _ _ _ | multiArray _ _ =>
    simp only [itemBytes, hreal]
    exact (Near.head ..).append_right _
  | _ =>
    have hop : op.isValid = true := hvalid rfl
    simp only [itemBytes, hreal, hop]
    exact Near.head ..

/-- Without operand bytes a misfit is written only if the machine has its opcode. -/
theorem isValid_of_itemBytes {bs : List UInt8} (h : x.insn.Misfit)
    (hbare : x.insn.operand.shape.isBare = true) (hbs : itemBytes p y x pc = .ok bs) :
    x.insn.opcode.isValid = true := by
  obtain ⟨⟨op, z⟩, n, wide⟩ := x
  have hreal := h.odd.real
  by_contra hop
  cases z with
  | none | label _ | line _ _ | frame _ | tryCatch _ _ _ _ | localVariable _ _ _ _ _ =>
    simp only [itemBytes, hreal, hop] at hbs
    cases hbs
  | _ => cases hbare

/-- The bytes of an item depend on where labels are, and not on other items. -/
theorem itemBytes_mapInsn (g : Insn → Insn) (p : Pool) (y : Layout) (x : Item) (pc : Nat) :
    itemBytes p (y.mapInsn g) x pc = itemBytes p y x pc := by
  have hsame : (y.mapInsn g).Knows id (y.mapInsn g) x.insn.labels := fun _ _ => rfl
  have hknows : (y.mapInsn g).Knows id y x.insn.labels := fun _ _ => rfl
  rw [← itemBytes_relabel hsame, itemBytes_relabel hknows]

/-- The bytes of all items, with as many differences as there are misfits. -/
theorem codeBytes_fitted (p : Pool) (y : Layout) {placed : List (Item × Nat)}
    (hvalid : ∀ xp ∈ placed, xp.1.insn.Misfit → xp.1.insn.operand.shape.isBare = true →
      xp.1.insn.opcode.isValid = true) {n : Nat} {seen seen' : List (List UInt8)}
    (hseen : Near n seen.reverse.flatten seen'.reverse.flatten) :
    Outcome.Agree (Near (n + placed.countP fun xp => xp.1.insn.Misfit)) (codeBytes p y seen placed)
      (codeBytes p (y.mapInsn Insn.fitted) seen'
        (placed.map (Prod.map (Item.mapInsn Insn.fitted) id))) := by
  induction placed generalizing n seen seen' with
  | nil => exact hseen
  | cons xp placed ih =>
    obtain ⟨x, pc⟩ := xp
    have hbytes : Outcome.Agree (Near (if x.insn.Misfit then 1 else 0)) (itemBytes p y x pc)
        (itemBytes p (y.mapInsn Insn.fitted) (x.mapInsn Insn.fitted) pc) := by
      rw [itemBytes_mapInsn]
      by_cases h : x.insn.Misfit
      · rw [if_pos h]
        exact itemBytes_of_misfit h (hvalid (x, pc) List.mem_cons_self h) p y pc
      · rw [if_neg h, Item.mapInsn_of_not_misfit h]
        cases itemBytes p y x pc with
        | error e => exact Failure.Agree.refl e
        | ok bs => exact .refl bs
    refine (hbytes.mapFault _ _).bind fun bs bs' hbs => ?_
    have hrest := ih (fun xp hxp => hvalid xp (List.mem_cons_of_mem _ hxp)) (hseen.cons_seen hbs)
    simp only [List.countP_cons, decide_eq_true_eq]
    rw [Nat.add_comm (List.countP ..), ← Nat.add_assoc]
    exact hrest

end Code

/-! ### Listings -/

namespace Listing

variable {l : Listing}

/-- The listing with its misfits fitted. -/
def fitted (l : Listing) : Listing :=
  { l with nodes := l.nodes.map fun n => { n with insn := n.insn.fitted } }

/-- The misfits without operand bytes have opcodes of the machine, and their labels are bound. -/
def Bearable (l : Listing) : Prop :=
  ∀ i ∈ l.insns, i.Misfit → i.operand.shape.isBare = true →
    i.opcode.isValid = true ∧ ∀ k ∈ i.labels, ∃ r, l.binding k = some r

theorem insns_fitted (l : Listing) : l.fitted.insns = l.insns.map Insn.fitted := by
  have hcell (r : Ref) : l.fitted.nodes[r]? =
      l.nodes[r]?.map fun n => { n with insn := n.insn.fitted } := Array.getElem?_map
  have hrefs : l.fitted.refs = l.refs := by
    refine refs_congr Array.size_map fun r => ?_
    cases r with
    | none => rfl
    | some r =>
      rw [next, next, hcell]
      cases l.nodes[r]? <;> rfl
  rw [insns, insns, hrefs, List.map_filterMap]
  refine List.filterMap_congr fun r _ => ?_
  rw [insn?, insn?, hcell]
  cases l.nodes[r]? <;> rfl

theorem checkPlacements_fitted (l : Listing) : l.fitted.checkPlacements = l.checkPlacements := by
  have hplacements : l.fitted.placements = l.placements := by
    funext k
    rw [placements, placements, insns_fitted, List.filter_map, List.length_map]
    simp only [Function.comp_def, Insn.placed?_fitted]
  unfold checkPlacements
  rw [hplacements]
  rfl

theorem dangling?_fitted (h : l.Bearable) {i : Insn} (hi : i ∈ l.insns) :
    l.fitted.dangling? i.fitted = l.dangling? i := by
  by_cases hbare : i.Misfit ∧ i.operand.shape.isBare = true
  · -- the labels that are dropped are bound
    have hbound : l.dangling? i = none := by
      refine List.find?_eq_none.mpr fun k hk => ?_
      obtain ⟨r, hr⟩ := (h i hi hbare.1 hbare.2).2 k hk
      simp [hr]
    rw [hbound, dangling?, Insn.labels_fitted_of_isBare hbare.1 hbare.2]
    rfl
  · rw [dangling?, dangling?, Insn.labels_fitted hbare]
    rfl

theorem resolve_fitted (h : l.Bearable) : Outcome.Agree (· = ·) l.resolve l.fitted.resolve := by
  have hfind : (l.fitted.insns.findSome? fun i => (l.fitted.dangling? i).map (i, ·)) =
      (l.insns.findSome? fun i => (l.dangling? i).map (i, ·)).map
        fun (i, k) => (i.fitted, k) := by
    rw [insns_fitted, List.findSome?_map, List.map_findSome?, ← List.head?_filterMap,
      ← List.head?_filterMap]
    refine congrArg List.head? (List.filterMap_congr fun i hi => ?_)
    simp only [Function.comp_apply, dangling?_fitted h hi]
    cases l.dangling? i <;> rfl
  have hreferences : Outcome.Agree (· = ·) l.checkReferences l.fitted.checkReferences := by
    unfold checkReferences
    rw [hfind]
    cases l.insns.findSome? fun i => (l.dangling? i).map (i, ·) with
    | none => exact rfl
    | some x => exact Insn.blame_agree_of_text? (Insn.text?_fitted x.1) ..
  rw [resolve, resolve, checkPlacements_fitted]
  exact (Outcome.Agree.of_eq rfl).bind fun _ _ _ => hreferences

end Listing

/-! ### Code attributes -/

namespace Code

open Insn

variable {p : Pool} {l : Listing}

/-- Entries without bytes are as before. -/
theorem entriesUnder_fitted {op : Opcode} (hop : op.isPseudo = true) (is : List Insn) :
    entriesUnder op (is.map Insn.fitted) = entriesUnder op is := by
  have hsame : ∀ i : Insn, i.fitted.opcode = op ↔ i.opcode = op := by
    intro i
    constructor
    · intro hi
      rwa [fitted_of_isPseudo (by rw [← isPseudo_fitted, hi, hop])] at hi
    · intro hi
      rwa [fitted_of_isPseudo (by rw [hi, hop])]
  rw [entriesUnder, entriesUnder, List.filter_map]
  simp only [Function.comp_def, hsame]
  refine (List.map_congr_left fun i hi => ?_).trans (List.map_id _)
  have hi := of_decide_eq_true (List.mem_filter.mp hi).2
  exact fitted_of_isPseudo (by rw [hi, hop])

theorem settle_fitted (p : Pool) (n fuel : Nat) (items : List Item) :
    Outcome.Agree (fun y y' => y' = y.mapInsn Insn.fitted) (Layout.settle p n fuel items)
      (Layout.settle p n fuel (items.map (Item.mapInsn Insn.fitted))) := by
  refine Layout.settle_mapInsn ?_ ?_
    (Layout.ofItems_mapInsn (size_fitted p) placed?_fitted n) fuel items
  · rintro y _ rfl
    rfl
  · rintro y _ rfl
    exact widenAlike_fitted y

/-- If a listing is written, its misfits have what is asked of them. -/
theorem Draft.Of.bearable {d : Draft} (hd : d.Of p l) : l.Bearable := by
  obtain ⟨items, hlist, hy, -⟩ := hd.exists_items
  obtain ⟨body, -, hwritten, -⟩ :=
    Layout.written_of_codeBytes (Layout.ofItems_eq_ok hy).1 hd.bytes
  intro i hi hmisfit hbare
  refine ⟨?_, fun k hk => Listing.exists_binding_of_resolve hd.resolved hi hk⟩
  -- the instruction was laid out, and its bytes were written
  rw [← hlist, ← Layout.insns_ofItems hy] at hi
  obtain ⟨⟨x, n⟩, hx, rfl⟩ := List.mem_map.mp hi
  obtain ⟨-, bs, -, -, -, hbs⟩ := hwritten.exists_middle hx
  exact isValid_of_itemBytes hmisfit hbare hbs

/-- The code attribute of a listing has as many bytes as that of the fitted one, and differs from it
in at most one byte for each misfit. -/
theorem write_fitted (h : l.Bearable) (p : Pool) {m m' : Method} (hstack : m'.maxStack = m.maxStack)
    (hlocals : m'.maxLocals = m.maxLocals) (hattributes : m'.codeAttributes = m.codeAttributes) :
    Outcome.Agree
      (fun out out' => Near (l.insns.countP fun i => i.Misfit) out.1 out'.1 ∧ out'.2 = out.2)
      (write p m l) (write p m' l.fitted) := by
  unfold write
  rw [l.insns_fitted, hstack, hlocals, hattributes]
  refine (l.resolve_fitted h).bind fun _ _ _ => ?_
  refine (addConstants_mapInsn addConstant_fitted [] p l.insns).bind_of_ok ?_
  rintro ⟨items, q⟩ ⟨items', q'⟩ hitems - ⟨hitems', hq⟩
  obtain rfl : items' = items.map (Item.mapInsn Insn.fitted) := hitems'
  obtain rfl : q = q' := hq.symm
  dsimp only
  rw [List.length_map]
  refine (settle_fitted _ _ items.length items).bind_of_ok ?_
  rintro y _ hy - rfl
  refine .ite Iff.rfl (fun _ => .fail _ _) fun _ => ?_
  -- the layout is one of the instructions of the listing
  have hplaced : y.placed.map (fun xp => xp.1.insn) = l.insns := by
    obtain ⟨new, hnew, hinsns, hnarrow⟩ := insns_addConstants (lift_eq_ok.mp hitems)
    obtain rfl : items = new := hnew
    obtain ⟨items', hlist, hy, -⟩ := Layout.exists_items_of_settle hnarrow hy
    rw [Layout.insns_ofItems hy, hlist, hinsns]
  have hvalid : ∀ xp ∈ y.placed, xp.1.insn.Misfit → xp.1.insn.operand.shape.isBare = true →
      xp.1.insn.opcode.isValid = true := by
    intro xp hxp hmisfit hbare
    exact (h _ (hplaced ▸ List.mem_map_of_mem hxp) hmisfit hbare).1
  have hnone : Near 0 ([] : List (List UInt8)).reverse.flatten [] := .refl []
  have hcode := @codeBytes_fitted q y y.placed hvalid 0 [] [] hnone
  have hcount : y.placed.countP (fun xp => xp.1.insn.Misfit) =
      l.insns.countP fun i => i.Misfit := by
    rw [← hplaced, List.countP_map]
    rfl
  rw [hcount, Nat.zero_add] at hcode
  refine hcode.bind fun code code' hcode => ?_
  have hunder {op : Opcode} (hop : op.isPseudo = true) :
      ((l.insns.map Insn.fitted).filter fun i => i.opcode = op) =
        l.insns.filter fun i => i.opcode = op := entriesUnder_fitted hop l.insns
  have hhandler : handlerEntry (y.mapInsn Insn.fitted) = handlerEntry y := rfl
  have hline : lineEntry (y.mapInsn Insn.fitted) = lineEntry y := rfl
  have hlocal : localEntry (y.mapInsn Insn.fitted) = localEntry y := rfl
  rw [hunder rfl, hunder rfl, hunder rfl, hhandler, hline, hlocal]
  refine (Outcome.Agree.of_eq rfl).bind ?_
  rintro ⟨handlers, q⟩ _ rfl
  refine (Outcome.Agree.of_eq rfl).bind ?_
  rintro ⟨lines, q⟩ _ rfl
  refine (Outcome.Agree.of_eq rfl).bind ?_
  rintro ⟨locals, q⟩ _ rfl
  exact ⟨((hcode.append_left _).append_right _).append_right _, rfl⟩

/-- Attributes that are the same, or one attribute with almost the same bytes. -/
def Resembles (n : Nat) (as as' : List Attribute) : Prop :=
  as' = as ∨ ∃ name data data', as = [⟨name, data⟩] ∧ as' = [⟨name, data'⟩] ∧ Near n data data'

theorem attributeBytes_near {n : Nat} {seen seen' : List (List UInt8)}
    (h : Near n seen.reverse.flatten seen'.reverse.flatten) (p : Pool) (as : List Attribute) :
    Near n (attributeBytes p seen as).1 (attributeBytes p seen' as).1 ∧
      (attributeBytes p seen' as).2 = (attributeBytes p seen as).2 := by
  induction as generalizing p seen seen' with
  | nil => exact ⟨h, rfl⟩
  | cons a as ih =>
    exact ih (h.cons_seen (.refl _)) _

theorem writeAttributes_near {n : Nat} {as as' : List Attribute} (h : Resembles n as as')
    (p : Pool) (rest : List Attribute) :
    Near n (writeAttributes p (as ++ rest)).1 (writeAttributes p (as' ++ rest)).1 ∧
      (writeAttributes p (as' ++ rest)).2 = (writeAttributes p (as ++ rest)).2 := by
  rcases h with rfl | ⟨name, data, data', rfl, rfl, hdata⟩
  · exact ⟨(Near.refl _).mono (Nat.zero_le n), rfl⟩
  · -- equally many bytes are announced, and the name gets the same index
    have hfirst : Near n
        [u2 (p.addText name).1 ++ bigEndian 4 data.length ++ data].reverse.flatten
        [u2 (p.addText name).1 ++ bigEndian 4 data'.length ++ data'].reverse.flatten := by
      rw [List.reverse_singleton, List.reverse_singleton, List.flatten_singleton,
        List.flatten_singleton, hdata.1]
      exact hdata.append_left _
    obtain ⟨hbytes, hpool⟩ := attributeBytes_near hfirst (p.addText name).2 rest
    exact ⟨hbytes.append_left _, hpool⟩

end Code

/-! ### Classes -/

/-- The method with the misfits of its code fitted. -/
def Method.fitted (m : Method) : Method := { m with code := m.code.map Listing.fitted }

/-- How many misfits there are in the code of the method. -/
def Method.misfits (m : Method) : Nat :=
  match m.code with
  | none => 0
  | some l => l.insns.countP fun i => i.Misfit

namespace ClassFile

open Code

/-- The class with all misfits fitted. -/
def fitted (c : ClassFile) : ClassFile := { c with methods := c.methods.map Method.fitted }

/-- How many misfits there are in the code of the class. -/
def misfits (c : ClassFile) : Nat := (c.methods.map Method.misfits).sum

/-- What the writer asks of misfits holds of those in all methods. -/
def Bearable (c : ClassFile) : Prop := ∀ m ∈ c.methods, ∀ l, m.code = some l → l.Bearable

theorem methodCodes_fitted {ms : List Method}
    (h : ∀ m ∈ ms, ∀ l, m.code = some l → l.Bearable) (p : Pool)
    (seen seen' : List (List Attribute)) :
    Outcome.Agree
      (fun out out' => out'.2 = out.2 ∧ ∃ ks : List (Method × List Attribute × List Attribute),
        ks.map Prod.fst = ms ∧ out.1 = seen.reverse ++ ks.map (fun k => k.2.1) ∧
          out'.1 = seen'.reverse ++ ks.map (fun k => k.2.2) ∧
          ∀ k ∈ ks, Resembles k.1.misfits k.2.1 k.2.2)
      (methodCodes p seen ms) (methodCodes p seen' (ms.map Method.fitted)) := by
  induction ms generalizing p seen seen' with
  | nil => exact ⟨rfl, [], rfl, by simp, by simp, nofun⟩
  | cons m rest ih =>
    have hrest := ih fun m hm => h m (List.mem_cons_of_mem _ hm)
    have hcode : m.fitted.code = m.code.map Listing.fitted := rfl
    rw [List.map_cons, methodCodes, methodCodes, hcode]
    cases hl : m.code with
    | none =>
      refine (hrest p ([] :: seen) ([] :: seen')).imp ?_
      rintro out out' ⟨hpool, ks, rfl, hks, hks', hall⟩
      refine ⟨hpool, (m, [], []) :: ks, rfl, by simpa using hks, by simpa using hks', ?_⟩
      exact List.forall_mem_cons.mpr ⟨.inl rfl, hall⟩
    | some l =>
      have hwrite := @write_fitted l (h m List.mem_cons_self l hl) p m m.fitted rfl rfl rfl
      refine (hwrite.mapFault _ _).bind ?_
      rintro ⟨data, q⟩ ⟨data', q'⟩ ⟨hdata, hq⟩
      -- both leave the same pool, so the bodies behind start from the same one
      obtain rfl : q = q' := hq.symm
      refine (hrest q _ _).imp ?_
      rintro out out' ⟨hpool, ks, rfl, hks, hks', hall⟩
      refine ⟨hpool, (m, _, _) :: ks, rfl, by simpa using hks, by simpa using hks', ?_⟩
      refine List.forall_mem_cons.mpr ⟨.inr ⟨_, _, _, rfl, rfl, ?_⟩, hall⟩
      rw [Method.misfits, hl]
      exact hdata

theorem memberBytes_near {n : Nat} {as as' : List Attribute} (h : Resembles n as as') (p : Pool)
    (access : UInt16) (name desc : Text) (rest : List Attribute) :
    Near n (memberBytes p access name desc (as ++ rest)).1
        (memberBytes p access name desc (as' ++ rest)).1 ∧
      (memberBytes p access name desc (as' ++ rest)).2 =
        (memberBytes p access name desc (as ++ rest)).2 := by
  obtain ⟨hbytes, hpool⟩ := writeAttributes_near h ((p.addText name).2.addText desc).2 rest
  exact ⟨hbytes.append_left _, hpool⟩

theorem methodBytes_near {n : Nat} {ks : List (Method × List Attribute × List Attribute)}
    (hks : ∀ k ∈ ks, Resembles k.1.misfits k.2.1 k.2.2) (p : Pool) {seen seen' : List (List UInt8)}
    (hseen : Near n seen.reverse.flatten seen'.reverse.flatten) :
    Near (n + (ks.map fun k => k.1.misfits).sum)
        (methodBytes p seen (ks.map fun k => (k.1, k.2.1))).1
        (methodBytes p seen' (ks.map fun k => (k.1.fitted, k.2.2))).1 ∧
      (methodBytes p seen' (ks.map fun k => (k.1.fitted, k.2.2))).2 =
        (methodBytes p seen (ks.map fun k => (k.1, k.2.1))).2 := by
  induction ks generalizing n p seen seen' with
  | nil => exact ⟨hseen, rfl⟩
  | cons k ks ih =>
    obtain ⟨m, as, as'⟩ := k
    obtain ⟨hk, hks⟩ := List.forall_mem_cons.mp hks
    obtain ⟨hbytes, hpool⟩ := memberBytes_near hk p m.access m.name m.desc m.attributes
    have hrest := ih hks (memberBytes p m.access m.name m.desc (as ++ m.attributes)).2
      (hseen.cons_seen hbytes)
    have hfitted : methodBytes p seen' (((m, as, as') :: ks).map fun k => (k.1.fitted, k.2.2)) =
        methodBytes (memberBytes p m.access m.name m.desc (as' ++ m.attributes)).2
          ((memberBytes p m.access m.name m.desc (as' ++ m.attributes)).1 :: seen')
          (ks.map fun k => (k.1.fitted, k.2.2)) := rfl
    rw [hfitted, hpool, List.map_cons, List.map_cons, List.sum_cons, ← Nat.add_assoc]
    exact hrest

/-- Only the bytes of the misfits are different in the part behind the pool. -/
theorem framed_near (c : ClassFile) {ks : List (Method × List Attribute × List Attribute)}
    (hms : ks.map Prod.fst = c.methods) (hks : ∀ k ∈ ks, Resembles k.1.misfits k.2.1 k.2.2)
    (p : Pool) :
    Near c.misfits (c.framed (ks.map fun k => k.2.1) p).1
        (c.fitted.framed (ks.map fun k => k.2.2) p).1 ∧
      (c.fitted.framed (ks.map fun k => k.2.2) p).2 = (c.framed (ks.map fun k => k.2.1) p).2 := by
  have hfitted : c.fitted.methods = ks.map fun k => k.1.fitted := by
    rw [fitted, ← hms, List.map_map]
    rfl
  have hmisfits : c.misfits = (ks.map fun k => k.1.misfits).sum := by
    rw [misfits, ← hms, List.map_map]
    rfl
  have hlength : c.fitted.methods.length = c.methods.length := List.length_map ..
  -- the pool behind the fields does not depend on methods
  let q := (fieldBytes (classIndices (addNamed (p.addClass c.name).2 c.super).2 []
    c.interfaces).2 [] c.fields).2
  obtain ⟨hbytes, hpool⟩ := @methodBytes_near 0 ks hks q [] [] (.refl [])
  rw [← List.zip_map', ← List.zip_map', ← hfitted, hms] at hbytes hpool
  rw [Nat.zero_add, ← hmisfits] at hbytes
  unfold framed
  dsimp only
  change Near _ _ (_ ++ (methodBytes q [] _).1 ++ (writeAttributes (methodBytes q [] _).2 _).1) ∧
    (writeAttributes (methodBytes q [] _).2 _).2 = _
  rw [hpool, hlength]
  exact ⟨(hbytes.append_left _).append_right _, rfl⟩

theorem encode_near {c : ClassFile} (h : c.Bearable) :
    Outcome.Agree (fun out out' => Near c.misfits out.1 out'.1 ∧ out'.2.pool = out.2.pool) c.encode
      c.fitted.encode := by
  have hbody : Outcome.Agree (fun body body' => Near c.misfits body.1 body'.1 ∧ body'.2 = body.2)
      (c.bodyBytes (c.pool.getD .empty)) (c.fitted.bodyBytes (c.pool.getD .empty)) := by
    rw [bodyBytes_eq, bodyBytes_eq]
    refine (methodCodes_fitted h _ [] []).bind ?_
    rintro ⟨codes, q⟩ ⟨codes', q'⟩ ⟨hq, ks, hms, hcodes, hcodes', hks⟩
    obtain rfl : q = q' := hq.symm
    obtain rfl : codes = ks.map fun k => k.2.1 := hcodes
    obtain rfl : codes' = ks.map fun k => k.2.2 := hcodes'
    exact framed_near c hms hks q
  refine hbody.bind ?_
  rintro ⟨body, q⟩ ⟨body', q'⟩ ⟨hbody, hq⟩
  obtain rfl : q = q' := hq.symm
  refine (Outcome.Agree.of_eq rfl).bind ?_
  rintro pool _ rfl
  exact ⟨hbody.append_left _, rfl⟩

theorem bearable_of_encode {c : ClassFile} {out : List UInt8 × ClassFile} (h : c.encode = .ok out) :
    c.Bearable := by
  obtain ⟨codes, p, pool, hcodes, -, -⟩ := encode_eq_ok_iff.mp h
  obtain ⟨ks, -, hdrawn⟩ := (methodCodes_eq_ok_iff.mp hcodes).drawn
  intro m hm l hl
  obtain ⟨n, hn, rfl⟩ := List.mem_iff_getElem.mp hm
  have hk := List.Forall₂.get hdrawn hn (hdrawn.length_eq ▸ hn)
  rw [Drawn, List.get_eq_getElem, hl] at hk
  obtain ⟨p, d, hd, -⟩ := hk
  exact hd.bearable

/-- **Misfits are written.** Fitting all misfits of a class leaves none. The class is written if and
only if the fitted one is and the misfits without operand bytes have what is asked of them: opcodes
of the machine and bound labels. The files then have the same length and the same pool, and they
differ in at most as many bytes as there are misfits. -/
theorem encode_fitted (c : ClassFile) :
    (∀ m ∈ c.fitted.methods, ∀ l, m.code = some l → ∀ i ∈ l.insns, ¬i.Misfit) ∧
      ((∃ out, c.encode = .ok out) ↔ c.Bearable ∧ ∃ out, c.fitted.encode = .ok out) ∧
      ∀ out out', c.encode = .ok out → c.fitted.encode = .ok out' →
        Near c.misfits out.1 out'.1 ∧ out'.2.pool = out.2.pool := by
  refine ⟨?_, ⟨?_, ?_⟩, ?_⟩
  · intro m hm l hl i hi
    obtain ⟨m, -, rfl⟩ := List.mem_map.mp hm
    obtain ⟨l, -, rfl⟩ := Option.map_eq_some_iff.mp hl
    rw [Listing.insns_fitted] at hi
    obtain ⟨i, -, rfl⟩ := List.mem_map.mp hi
    exact i.not_misfit_fitted
  · rintro ⟨out, hout⟩
    have hbearable := bearable_of_encode hout
    obtain ⟨out', hout', -⟩ := (encode_near hbearable).eq_ok hout
    exact ⟨hbearable, out', hout'⟩
  · rintro ⟨hbearable, out', hout'⟩
    obtain ⟨out, hout, -⟩ := (encode_near hbearable).ok_eq hout'
    exact ⟨out, hout⟩
  · intro out out' hout hout'
    obtain ⟨_, hok, hnear⟩ := (encode_near (bearable_of_encode hout)).eq_ok hout
    obtain rfl := Except.ok.inj (hok.symm.trans hout')
    exact hnear

/-! ### An instruction without its operand -/

/-- A method that pushes a number and does not say which. -/
def cropped : Method where
  access := 9
  name := "f"
  desc := "()V"
  code := some (.ofInsns 0 [.plain .bipush, .plain .voidReturn])
  maxStack := 1

/-- The code attribute of the method. -/
def croppedData : List UInt8 := [0, 1, 0, 0, 0, 0, 0, 2, 0x10, 0xB1, 0, 0, 0, 0]

/-- The file of a class with the method. -/
def croppedFile : List UInt8 :=
  spinningFile.take 51 ++ [0, 9, 0, 3, 0, 4, 0, 1, 0, 5, 0, 0, 0, 14] ++ croppedData ++ [0, 0]

theorem write_cropped : ∃ l, cropped.code = some l ∧ l.Built ∧
    l.insns = [.plain .bipush, .plain .voidReturn] ∧
    Code.write spinningPool cropped l = .ok (croppedData, spinningPool) :=
  ⟨_, rfl, .ofInsns _ _, rfl, by rfl⟩

theorem encode_cropped : ({ spinning with methods := [cropped] } : ClassFile).encode =
    .ok (croppedFile, { spinning with methods := [cropped] }) := by
  obtain ⟨l, hcode, -, -, hwrite⟩ := write_cropped
  have hencode := encode_single hcode rfl rfl rfl hwrite
  exact hencode

theorem encode_fitted_cropped : ∃ (c : ClassFile) (data : List UInt8) (c' : ClassFile),
    c.misfits = 1 ∧ c.Bearable ∧ c.encode = .ok (croppedFile, c) ∧
      c.fitted.encode = .ok (data, c') ∧ Near 1 croppedFile data := by
  have hmisfits : ({ spinning with methods := [cropped] } : ClassFile).misfits = 1 := by
    decide +kernel
  obtain ⟨-, hwritten, hnear⟩ := encode_fitted { spinning with methods := [cropped] }
  obtain ⟨hbearable, ⟨data, c'⟩, hfitted⟩ := hwritten.mp ⟨_, encode_cropped⟩
  refine ⟨_, data, c', hmisfits, hbearable, encode_cropped, hfitted, ?_⟩
  rw [← hmisfits]
  exact (hnear _ _ encode_cropped hfitted).1

/-- A `bipush` without a number is written without a fault. The code has the opcode and that of the
return behind it, which stands where the number should. -/
theorem cropped_astray : ∃ c : ClassFile,
    (∃ m ∈ c.methods, ∃ l, m.code = some l ∧ l.Built ∧
      l.insns = [.plain .bipush, .plain .voidReturn]) ∧
      (Insn.plain .bipush).Misfit ∧ c.encode = .ok (croppedFile, c) ∧
      (croppedFile.drop 69).take 6 = [0, 0, 0, 2, 0x10, 0xB1] ∧
      Code.Raw.width [0x10, 0xB1] 0 = 2 := by
  obtain ⟨l, hcode, hbuilt, hinsns, -⟩ := write_cropped
  exact ⟨_, ⟨cropped, List.mem_singleton_self _, l, hcode, hbuilt, hinsns⟩, by decide,
    encode_cropped, by decide +kernel, by decide +kernel⟩

end ClassFile

end ClassWeaver
