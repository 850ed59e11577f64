import ClassWeaver.Enhance.Arrays
import ClassWeaver.Proofs.Generator.Weaving
import ClassWeaver.Proofs.Stack.Tokens

/-!
# Machines with arrays of bytes and truth values

A byte access works on arrays of bytes and on arrays of truth values. `Machine.ByteArrays` is what a
machine has to do with such arrays so that one kind can be told from the other: stack instructions
move values that take one place, the class of an array leads to that of its elements, an access to
an array is the reflective access to arrays of its kind, and an access to no array throws.
Everything else is open, what the reflective calls do and when they throw included.

The machine of integers becomes one when it is given a memory (`Machine.memory`): two references
lead to short arrays, one of each kind, and a third is null. -/

namespace ClassWeaver

/-- The elements of the arrays that byte accesses work on. -/
inductive Elements where
  | boolean
  | byte
  deriving DecidableEq

namespace Enhance

/-- The reflective store of an element. -/
def setter : Elements → Insn
  | .boolean => accessor "setBoolean" "(Ljava/lang/Object;IZ)V"
  | .byte => accessor "setByte" "(Ljava/lang/Object;IB)V"

/-- The reflective load of an element. -/
def getter : Elements → Insn
  | .boolean => accessor "getBoolean" "(Ljava/lang/Object;I)Z"
  | .byte => accessor "getByte" "(Ljava/lang/Object;I)B"

/-- The reflective form of a byte access. -/
def reflective (op : Opcode) : Elements → Insn := if op = .bastore then setter else getter

def getClass : Insn := .call .invokeVirtual "java/lang/Object" "getClass" "()Ljava/lang/Class;"

def getComponentType : Insn :=
  .call .invokeVirtual "java/lang/Class" "getComponentType" "()Ljava/lang/Class;"

def booleanType : Insn := .access .getStatic "java/lang/Boolean" "TYPE" "Ljava/lang/Class;"

/-- A byte access finds its operands on a stack: the array `a`, the index above it, and above that
the value of a store. Index and value take one place each. -/
inductive Operands {V : Type} (single : V → Prop) (a : V) : Opcode → List V → Prop
  | store {v n : V} {rest : List V} :
      single v → single n → Operands single a .bastore (v :: n :: a :: rest)
  | load {n : V} {rest : List V} : single n → Operands single a .baload (n :: a :: rest)

end Enhance

open Enhance

/-! ### Machines with arrays -/

/-- What a machine does with arrays of bytes and of truth values, and with their classes. -/
structure Machine.ByteArrays {V Heap : Type} [DecidableEq V] (M : Machine V Heap) where
  /-- The values that take one place on the stack. -/
  Single : V → Prop
  IsNull : V → Prop
  /-- What an array holds, if the value is one. -/
  elements? : V → Heap → Option Elements
  arrayClass : Elements → V
  elementClass : Elements → V
  elementClass_ne : elementClass .byte ≠ elementClass .boolean
  single_of_isNull {a : V} : IsNull a → Single a
  single_of_elements {a : V} {heap : Heap} {e : Elements} : elements? a heap = some e → Single a
  run_pop {v : V} {rest : List V} {f : Frame V Heap} : f.stack = v :: rest → Single v →
    M.run (.plain .pop) f = .falls { f with stack := rest }
  run_swap {v w : V} {rest : List V} {f : Frame V Heap} : f.stack = v :: w :: rest →
    Single v → Single w → M.run (.plain .swap) f = .falls { f with stack := w :: v :: rest }
  run_dupX1 {v w : V} {rest : List V} {f : Frame V Heap} : f.stack = v :: w :: rest →
    Single v → Single w → M.run (.plain .dupX1) f = .falls { f with stack := v :: w :: v :: rest }
  run_dupX2 {v w x : V} {rest : List V} {f : Frame V Heap} : f.stack = v :: w :: x :: rest →
    Single v → Single w → Single x →
      M.run (.plain .dupX2) f = .falls { f with stack := v :: w :: x :: v :: rest }
  run_getClass {a : V} {rest : List V} {f : Frame V Heap} {e : Elements} : f.stack = a :: rest →
    elements? a f.heap = some e →
      M.run getClass f = .falls { f with stack := arrayClass e :: rest }
  run_getComponentType {rest : List V} {f : Frame V Heap} {e : Elements} :
    f.stack = arrayClass e :: rest →
      M.run getComponentType f = .falls { f with stack := elementClass e :: rest }
  run_booleanType (f : Frame V Heap) :
    M.run booleanType f = .falls { f with stack := elementClass .boolean :: f.stack }
  run_ifAcmpNe {d e : Elements} {rest : List V} {f : Frame V Heap} {target : Label} :
    f.stack = elementClass d :: elementClass e :: rest →
      M.run (.jump .ifAcmpNe target) f =
        if elementClass e = elementClass d then .falls { f with stack := rest }
        else .jumps target { f with stack := rest }
  run_goto (target : Label) (f : Frame V Heap) : M.run (.jump .goto target) f = .jumps target f
  run_access {i : Insn} {a : V} {f : Frame V Heap} {e : Elements} :
    Operands Single a i.opcode f.stack → elements? a f.heap = some e →
      M.run i f = M.run (reflective i.opcode e) f
  throws_access {i : Insn} {a : V} {f : Frame V Heap} : Operands Single a i.opcode f.stack →
    IsNull a → ∃ x heap, M.run i f = .throws x heap
  throws_getClass {a : V} {rest : List V} {f : Frame V Heap} : f.stack = a :: rest → IsNull a →
    ∃ x heap, M.run getClass f = .throws x heap

/-! ### A memory with two arrays -/

namespace Memory

/-- What the arrays hold, by reference and index. -/
abbrev Cells := Int32 → Int32 → Int32

/-- What an instruction pushes, what it leaves in memory, and where it jumps. -/
structure Answer where
  pushed : List Int32
  cells : Cells
  target? : Option Label := none

def elements? (a : Int32) : Option Elements :=
  if a = 1 then some .boolean else if a = 2 then some .byte else none

def arrayClass : Elements → Int32
  | .boolean => 3
  | .byte => 4

def elementClass : Elements → Int32
  | .boolean => 5
  | .byte => 6

/-- What an element keeps of an integer. -/
def stored : Elements → Int32 → Int32
  | .boolean, v => v &&& 1
  | .byte, v => v.toInt8.toInt32

/-- Both arrays have four elements. -/
def inBounds (n : Int32) : Bool := 0 ≤ n && n < 4

def write (e : Elements) (f : Frame Int32 Cells) : Option Answer :=
  match f.stack with
  | v :: n :: a :: _ =>
    if elements? a = some e ∧ inBounds n = true then
      some ⟨[], Function.update f.heap a (Function.update (f.heap a) n (stored e v)), none⟩
    else none
  | _ => none

def read (e : Elements) (f : Frame Int32 Cells) : Option Answer :=
  match f.stack with
  | n :: a :: _ =>
    if elements? a = some e ∧ inBounds n = true then some ⟨[f.heap a n], f.heap, none⟩ else none
  | _ => none

/-- What an access does that finds its array at a depth. -/
def onElements (depth : Nat) (access : Elements → Frame Int32 Cells → Option Answer)
    (f : Frame Int32 Cells) : Option Answer :=
  (f.stack[depth]?.bind elements?).bind (access · f)

/-- The calls that the machine knows. -/
inductive Call where
  | set (e : Elements)
  | get (e : Elements)
  | arrayClass
  | elementClass
  | booleanType
  deriving DecidableEq

def Call.insn : Call → Insn
  | set e => setter e
  | get e => getter e
  | arrayClass => getClass
  | elementClass => getComponentType
  | booleanType => Enhance.booleanType

def calls : List Call :=
  [.set .boolean, .set .byte, .get .boolean, .get .byte, .arrayClass, .elementClass, .booleanType]

def Call.answer? (f : Frame Int32 Cells) : Call → Option Answer
  | set e => write e f
  | get e => read e f
  | arrayClass => (f.stack.head?.bind elements?).map fun e => ⟨[Memory.arrayClass e], f.heap, none⟩
  | elementClass => ([.boolean, .byte].find? fun e => f.stack.head? =
    some (Memory.arrayClass e)).map
      fun e => ⟨[Memory.elementClass e], f.heap, none⟩
  | booleanType => some ⟨[Memory.elementClass .boolean], f.heap, none⟩

/-- The opcodes that the memory has to do with, the stack instructions included. -/
def opcodes : List Opcode :=
  [.bastore, .baload, .pop, .swap, .dupX1, .dupX2, .ifAcmpNe, .goto, .invokeVirtual, .invokeStatic,
    .getStatic]

/-- What becomes of an instruction with one of these opcodes, unless it throws. -/
def answer? (i : Insn) (f : Frame Int32 Cells) : Option Answer :=
  if i.opcode = .bastore then onElements 2 write f
  else if i.opcode = .baload then onElements 1 read f
  else if i.opcode = .pop then some ⟨[], f.heap, none⟩
  else
    match i.opcode.arrangement?, i.operand with
    | some places, _ => some ⟨places.filterMap (f.stack[·]?), f.heap, none⟩
    | none, .jump target =>
      if i.opcode = .ifAcmpNe ∧ f.stack[0]? = f.stack[1]? then some ⟨[], f.heap, none⟩
      else some ⟨[], f.heap, some target⟩
    | none, _ => (calls.find? fun c => c.insn = i).bind (Call.answer? f)

/-- The frame after an answer. -/
def left (e : Effect) (f : Frame Int32 Cells) (x : Answer) : Frame Int32 Cells :=
  ⟨x.pushed ++ f.stack.drop e.pops, f.locals, x.cells⟩

/-- An instruction that is answered ends as it can end. What makes no sense throws. -/
def finish (i : Insn) (f : Frame Int32 Cells) (e : Effect) (x : Answer) :
    Completion Int32 Cells :=
  if x.pushed.length = e.pushes then
    match x.target? with
    | some target => if target ∈ i.branches then .jumps target (left e f x) else .throws 0 f.heap
    | none => if i.fallsThrough then .falls (left e f x) else .throws 0 f.heap
  else .throws 0 f.heap

/-- The same ending beside a memory. -/
def beside (cells : Cells) : Completion Int32 Unit → Completion Int32 Cells
  | .falls f => .falls ⟨f.stack, f.locals, cells⟩
  | .jumps target f => .jumps target ⟨f.stack, f.locals, cells⟩
  | .returns v _ => .returns v cells
  | .throws x _ => .throws x cells

/-- Instructions on integers and arrays. -/
def run (i : Insn) (f : Frame Int32 Cells) : Completion Int32 Cells :=
  if i.opcode ∈ opcodes then
    match i.effect, answer? i f with
    | .ok e, some x => finish i f e x
    | _, _ => .throws 0 f.heap
  else beside f.heap (Ints.run i ⟨f.stack, f.locals, ()⟩)

variable {i : Insn} {f f' : Frame Int32 Cells} {e : Effect} {x : Answer}

theorem run_answered (hop : i.opcode ∈ opcodes) (he : i.effect = .ok e)
    (hx : answer? i f = some x) :
    run i f = finish i f e x := by
  rw [run, if_pos hop, he, hx]

theorem run_throws (hop : i.opcode ∈ opcodes) (hx : answer? i f = none) :
    run i f = .throws 0 f.heap := by
  rw [run, if_pos hop, hx]
  split
  · next h => cases h
  · rfl

theorem run_unanswered (hop : i.opcode ∉ opcodes) :
    run i f = beside f.heap (Ints.run i ⟨f.stack, f.locals, ()⟩) := if_neg hop

/-- An instruction that leaves a frame is no matter of the memory, or leaves what its effect
says. -/
theorem run_cases (i : Insn) (f : Frame Int32 Cells) :
    (run i f).after? = none ∨ run i f = beside f.heap (Ints.run i ⟨f.stack, f.locals, ()⟩) ∨
      ∃ e x, i.effect = .ok e ∧ x.pushed.length = e.pushes ∧
        ((i.fallsThrough = true ∧ run i f = .falls (left e f x)) ∨
          ∃ target ∈ i.branches, run i f = .jumps target (left e f x)) := by
  by_cases hop : i.opcode ∈ opcodes
  · cases hx : answer? i f with
    | none => exact .inl (by rw [run_throws hop hx]; rfl)
    | some x =>
      cases he : i.effect with
      | error failure => exact .inl (by rw [run, if_pos hop, he]; rfl)
      | ok e =>
        rw [run_answered hop he hx]
        unfold finish
        split
        · next hlen =>
          split
          · next target ht =>
            split
            · next hb => exact .inr (.inr ⟨e, x, rfl, hlen, .inr ⟨target, hb, rfl⟩⟩)
            · exact .inl rfl
          · split
            · next hf => exact .inr (.inr ⟨e, x, rfl, hlen, .inl ⟨hf, rfl⟩⟩)
            · exact .inl rfl
        · exact .inl rfl
  · exact .inr (.inl (run_unanswered hop))

theorem after?_beside (cells : Cells) (c : Completion Int32 Unit) :
    (beside cells c).after? = c.after?.map fun f => ⟨f.stack, f.locals, cells⟩ := by
  cases c <;> rfl

theorem length_stack (he : i.effect = .ok e) (hpops : e.pops ≤ f.stack.length)
    (h : (run i f).after? = some f') :
    f'.stack.length = f.stack.length - e.pops + e.pushes := by
  have hleft : ∀ x : Answer, x.pushed.length = e.pushes →
      (left e f x).stack.length = f.stack.length - e.pops + e.pushes := by
    intro x hx
    simp only [left, List.length_append, List.length_drop]
    omega
  rcases run_cases i f with hr | hr | ⟨e', x, he', hlen, ⟨-, hr⟩ | ⟨target, -, hr⟩⟩
  · rw [hr] at h
    cases h
  · rw [hr, after?_beside] at h
    obtain ⟨g, hg, rfl⟩ := Option.map_eq_some_iff.mp h
    exact Ints.length_stack he hpops hg
  all_goals
    rw [hr] at h
    obtain rfl := Option.some.inj h
    obtain rfl := Except.ok.inj (he.symm.trans he')
    exact hleft x hlen

theorem locals_eq {n : UInt16} (h : (run i f).after? = some f') (ho : ¬i.overwrites n) :
    f'.locals n = f.locals n := by
  rcases run_cases i f with hr | hr | ⟨e, x, -, -, ⟨-, hr⟩ | ⟨target, -, hr⟩⟩
  · rw [hr] at h
    cases h
  · rw [hr, after?_beside] at h
    obtain ⟨g, hg, rfl⟩ := Option.map_eq_some_iff.mp h
    exact Ints.locals_eq hg ho
  all_goals
    rw [hr] at h
    obtain rfl := Option.some.inj h
    rfl

/-- Constants are pushed by opcodes below all of these. -/
theorem push_notMem (k : Int32) : (Generator.push k).opcode ∉ opcodes := by
  have habove : ∀ op ∈ opcodes, 20 < op.code := by decide
  have hbelow : (Generator.push k).opcode.code ≤ 20 := by
    unfold Generator.push
    split
    · next hk =>
      simp only [Bool.and_eq_true, decide_eq_true_eq, Int32.le_iff_toInt_le] at hk
      have hhigh : k.toInt ≤ 5 := hk.2
      change 3 + k.toInt ≤ 20
      omega
    · split
      · exact (by decide : Opcode.bipush.code ≤ 20)
      · split
        · exact (by decide : Opcode.sipush.code ≤ 20)
        · exact (by decide : Opcode.ldc.code ≤ 20)
  exact fun h => absurd (habove _ h) (Int.not_lt.mpr hbelow)

end Memory

/-- The machine of integers with a memory of arrays. -/
def Machine.memory : Machine Int32 Memory.Cells where
  run := Memory.run
  catches := fun _ _ _ => false
  int := id
  zero := fun _ => 0
  fallsThrough_of_falls := by
    intro i f f' h
    rcases Memory.run_cases i f with hr | hr | ⟨e, x, -, -, ⟨hf, -⟩ | ⟨target, -, hr⟩⟩
    · rw [h] at hr
      cases hr
    · cases hints : Ints.run i ⟨f.stack, f.locals, ()⟩ with
      | falls g => exact Machine.ints.fallsThrough_of_falls hints
      | _ => rw [h, hints] at hr; cases hr
    · exact hf
    · rw [h] at hr
      cases hr
  mem_branches_of_jumps := by
    intro i f f' target h
    rcases Memory.run_cases i f with hr | hr | ⟨e, x, -, -, ⟨-, hr⟩ | ⟨target', hb, hr⟩⟩
    · rw [h] at hr
      cases hr
    · cases hints : Ints.run i ⟨f.stack, f.locals, ()⟩ with
      | jumps target' g =>
        rw [h, hints] at hr
        obtain ⟨rfl, -⟩ := Completion.jumps.inj hr
        exact Machine.ints.mem_branches_of_jumps hints
      | _ => rw [h, hints] at hr; cases hr
    · rw [h] at hr
      cases hr
    · obtain ⟨rfl, -⟩ := Completion.jumps.inj (h.symm.trans hr)
      exact hb
  length_stack := Memory.length_stack
  locals_eq := Memory.locals_eq
  run_pseudo := by
    intro i f hp
    have hop : i.opcode ∉ Memory.opcodes := fun h => by
      have hall : ∀ op ∈ Memory.opcodes, op.isPseudo = false := by decide
      rw [hall _ h] at hp
      cases hp
    rw [Memory.run_unanswered hop, Ints.run, if_pos hp]
    rfl
  run_load := fun family n f => by
    have hop : family.load ∉ Memory.opcodes := by cases family <;> decide
    rw [Memory.run_unanswered hop, Ints.run_load]
    rfl
  run_store := fun family n v rest f h => by
    have hop : family.store ∉ Memory.opcodes := by cases family <;> decide
    rw [Memory.run_unanswered hop, Ints.run_store family n v rest h]
    rfl
  run_push := fun k f => by
    rw [Memory.run_unanswered (Memory.push_notMem k), (Ints.pushes_push k).run_eq]
    rfl
  run_zero := fun family f => by
    have hop : (Generator.zero family).opcode ∉ Memory.opcodes := by cases family <;> decide
    rw [Memory.run_unanswered hop, (Ints.pushes_zero family).run_eq]
    rfl
  run_table := fun low high dflt targets k rest f h => by
    have hop : Opcode.tableSwitch ∉ Memory.opcodes := by decide
    rw [Memory.run_unanswered hop, Ints.run_table low high dflt targets k rest h]
    rfl
  run_ireturn := fun v rest f h => by
    have hop : Opcode.ireturn ∉ Memory.opcodes := by decide
    rw [Memory.run_unanswered hop, Ints.run_ireturn h]
    rfl

namespace Memory

variable {i j : Insn} {f : Frame Int32 Cells} {locals : UInt16 → Int32} {cells : Cells}
variable {v w a n : Int32} {rest : List Int32} {e : Elements}

/-- An instruction that is answered without a jump falls through. -/
theorem run_falls (effect : Effect) (x : Answer) (hop : i.opcode ∈ opcodes)
    (he : i.effect = .ok effect) (hx : answer? i f = some x)
    (hlen : x.pushed.length = effect.pushes) (ht : x.target? = none)
    (hf : i.fallsThrough = true) : run i f = .falls (left effect f x) := by
  rw [run_answered hop he hx, finish, if_pos hlen, ht]
  exact if_pos hf

theorem run_jumps (effect : Effect) (x : Answer) {target : Label} (hop : i.opcode ∈ opcodes)
    (he : i.effect = .ok effect) (hx : answer? i f = some x)
    (hlen : x.pushed.length = effect.pushes) (ht : x.target? = some target)
    (hb : target ∈ i.branches) : run i f = .jumps target (left effect f x) := by
  rw [run_answered hop he hx, finish, if_pos hlen, ht]
  exact if_pos hb

/-- Instructions that end alike and have the same answer do the same. -/
theorem run_congr (hi : i.opcode ∈ opcodes) (hj : j.opcode ∈ opcodes) (he : i.effect = j.effect)
    (hf : i.fallsThrough = j.fallsThrough) (hb : i.branches = j.branches)
    (hx : answer? i f = answer? j f) : run i f = run j f := by
  rw [run, run, if_pos hi, if_pos hj, he, hx]
  simp only [finish, hf, hb]

theorem answer?_call (c : Call) : answer? c.insn f = c.answer? f := by
  have hfind : calls.find? (fun d => d.insn = c.insn) = some c := by
    rcases c with ⟨_ | _⟩ | ⟨_ | _⟩ | _ | _ | _ <;> decide +kernel
  have hanswer : answer? c.insn f =
      (calls.find? fun d => d.insn = c.insn).bind (Call.answer? f) := by
    rcases c with ⟨_ | _⟩ | ⟨_ | _⟩ | _ | _ | _ <;> rfl
  rw [hanswer, hfind, Option.bind_some]

/-- A byte access does what its array asks for. -/
theorem answer?_access (h : Operands (fun _ => True) a i.opcode f.stack) :
    i.opcode ∈ opcodes ∧ answer? i f =
      (elements? a).bind fun e => answer? (reflective i.opcode e) f := by
  have hset : ∀ e, answer? (setter e) f = write e f := fun e => answer?_call (.set e)
  have hget : ∀ e, answer? (getter e) f = read e f := fun e => answer?_call (.get e)
  obtain ⟨op, x⟩ := i
  obtain ⟨stack, locals, cells⟩ := f
  cases h with
  | store =>
    have hop : Opcode.bastore ∈ opcodes := by decide
    exact ⟨hop, congrArg (elements? a).bind (funext fun e => (hset e).symm)⟩
  | load =>
    have hop : Opcode.baload ∈ opcodes := by decide
    exact ⟨hop, congrArg (elements? a).bind (funext fun e => (hget e).symm)⟩

theorem accessor_mem (name desc : Text) : (accessor name desc).opcode ∈ opcodes := by
  have hop : Opcode.invokeStatic ∈ opcodes := by decide
  exact hop

theorem effect_setter (e : Elements) : (setter e).effect = .ok ⟨3, 0⟩ := by
  cases e <;> exact Outcome.eq_ok_of_toOption (by decide +kernel)

theorem effect_getter (e : Elements) : (getter e).effect = .ok ⟨2, 1⟩ := by
  cases e <;> exact Outcome.eq_ok_of_toOption (by decide +kernel)

/-- An access to an array is the reflective access to arrays of its kind. -/
theorem run_access (h : Operands (fun _ => True) a i.opcode f.stack) (he : elements? a = some e) :
    run i f = run (reflective i.opcode e) f := by
  obtain ⟨hop, hanswer⟩ := answer?_access h
  rw [he, Option.bind_some] at hanswer
  obtain ⟨op, x⟩ := i
  obtain ⟨stack, locals, cells⟩ := f
  cases h with
  | store =>
    exact run_congr hop (by cases e <;> exact accessor_mem _ _) (effect_setter e).symm
      (by cases e <;> rfl) (by cases e <;> rfl) hanswer
  | load =>
    exact run_congr hop (by cases e <;> exact accessor_mem _ _) (effect_getter e).symm
      (by cases e <;> rfl) (by cases e <;> rfl) hanswer

theorem run_getClass (h : f.stack = a :: rest) (he : elements? a = some e) :
    run getClass f = .falls { f with stack := arrayClass e :: rest } := by
  have hx : answer? getClass f = some ⟨[arrayClass e], f.heap, none⟩ := by
    rw [show getClass = Call.arrayClass.insn from rfl, answer?_call, Call.answer?, h,
      List.head?_cons, Option.bind_some, he, Option.map_some]
  rw [run_falls ⟨1, 1⟩ _ (by decide) (Outcome.eq_ok_of_toOption (by decide +kernel)) hx rfl rfl rfl,
    left, h]
  rfl

theorem run_getComponentType (h : f.stack = arrayClass e :: rest) :
    run getComponentType f = .falls { f with stack := elementClass e :: rest } := by
  have hfind : ([.boolean, .byte].find? fun d => f.stack.head? = some (arrayClass d)) = some e := by
    rw [h]
    cases e <;> rfl
  have hx : answer? getComponentType f = some ⟨[elementClass e], f.heap, none⟩ := by
    rw [show getComponentType = Call.elementClass.insn from rfl, answer?_call, Call.answer?, hfind,
      Option.map_some]
  rw [run_falls ⟨1, 1⟩ _ (by decide) (Outcome.eq_ok_of_toOption (by decide +kernel)) hx rfl rfl rfl,
    left, h]
  rfl

theorem run_ifAcmpNe {d : Elements} {target : Label}
    (h : f.stack = elementClass d :: elementClass e :: rest) :
    run (.jump .ifAcmpNe target) f =
      if elementClass e = elementClass d then .falls { f with stack := rest }
      else .jumps target { f with stack := rest } := by
  obtain ⟨stack, locals, cells⟩ := f
  obtain rfl : stack = _ := h
  have hop : Opcode.ifAcmpNe ∈ opcodes := by decide
  cases d <;> cases e
  · exact run_falls ⟨2, 0⟩ ⟨[], cells, none⟩ hop rfl rfl rfl rfl rfl
  · exact run_jumps ⟨2, 0⟩ ⟨[], cells, some target⟩ hop rfl rfl rfl rfl List.mem_cons_self
  · exact run_jumps ⟨2, 0⟩ ⟨[], cells, some target⟩ hop rfl rfl rfl rfl List.mem_cons_self
  · exact run_falls ⟨2, 0⟩ ⟨[], cells, none⟩ hop rfl rfl rfl rfl rfl

end Memory

/-- The machine with a memory has arrays of both kinds. -/
def Machine.memoryArrays : Machine.memory.ByteArrays where
  Single := fun _ => True
  IsNull a := a = 0
  elements? a _ := Memory.elements? a
  arrayClass := Memory.arrayClass
  elementClass := Memory.elementClass
  elementClass_ne := by decide
  single_of_isNull _ := trivial
  single_of_elements _ := trivial
  run_pop := fun {v rest f} h _ => by
    obtain ⟨stack, locals, cells⟩ := f
    obtain rfl : stack = _ := h
    have hop : Opcode.pop ∈ Memory.opcodes := by decide
    exact Memory.run_falls (i := .plain .pop) (f := ⟨v :: rest, locals, cells⟩) ⟨1, 0⟩
      ⟨[], cells, none⟩ hop rfl rfl rfl rfl rfl
  run_swap := fun {v w rest f} h _ _ => by
    obtain ⟨stack, locals, cells⟩ := f
    obtain rfl : stack = _ := h
    have hop : Opcode.swap ∈ Memory.opcodes := by decide
    exact Memory.run_falls (i := .plain .swap) (f := ⟨v :: w :: rest, locals, cells⟩) ⟨2, 2⟩
      ⟨[w, v], cells, none⟩ hop rfl rfl rfl rfl rfl
  run_dupX1 := fun {v w rest f} h _ _ => by
    obtain ⟨stack, locals, cells⟩ := f
    obtain rfl : stack = _ := h
    have hop : Opcode.dupX1 ∈ Memory.opcodes := by decide
    exact Memory.run_falls (i := .plain .dupX1) (f := ⟨v :: w :: rest, locals, cells⟩) ⟨2, 3⟩
      ⟨[v, w, v], cells, none⟩ hop rfl rfl rfl rfl rfl
  run_dupX2 := fun {v w x rest f} h _ _ _ => by
    obtain ⟨stack, locals, cells⟩ := f
    obtain rfl : stack = _ := h
    have hop : Opcode.dupX2 ∈ Memory.opcodes := by decide
    exact Memory.run_falls (i := .plain .dupX2) (f := ⟨v :: w :: x :: rest, locals, cells⟩) ⟨3, 4⟩
      ⟨[v, w, x, v], cells, none⟩ hop rfl rfl rfl rfl rfl
  run_getClass := Memory.run_getClass
  run_getComponentType := Memory.run_getComponentType
  run_booleanType := fun f => by
    have hx : Memory.answer? booleanType f = some ⟨[Memory.elementClass .boolean], f.heap, none⟩ :=
      Memory.answer?_call .booleanType
    exact Memory.run_falls ⟨0, 1⟩ _ (by decide) rfl hx rfl rfl rfl
  run_ifAcmpNe := Memory.run_ifAcmpNe
  run_goto := fun target f =>
    have hop : Opcode.goto ∈ Memory.opcodes := by decide
    Memory.run_jumps (i := .jump .goto target) ⟨0, 0⟩ ⟨[], f.heap, some target⟩ hop rfl rfl rfl rfl
      List.mem_cons_self
  run_access := Memory.run_access
  throws_access := fun {i a f} h ha => by
    obtain ⟨hop, hanswer⟩ := Memory.answer?_access h
    rw [ha] at hanswer
    exact ⟨_, _, Memory.run_throws hop hanswer⟩
  throws_getClass := fun {a rest f} h ha => by
    have hx : Memory.answer? getClass f = none := by
      rw [show getClass = Memory.Call.arrayClass.insn from rfl, Memory.answer?_call,
        Memory.Call.answer?, h, ha]
      rfl
    exact ⟨_, _, Memory.run_throws (by decide) hx⟩

end ClassWeaver
