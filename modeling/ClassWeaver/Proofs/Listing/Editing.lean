import ClassWeaver.Proofs.Listing.Labels

/-!
# Editing sessions

A session is any sequence of editing operations on a new listing. What it does to the listing can
be said without links, arena or label table: `Script` is a plain list of handles beside the
instructions of all handles ever given out, and `Script.step` edits it with list operations only.
The listing follows the script through every session (`perform_refines`): both ways along the links
lead through the handles of the script, and every node holds the instruction that the script has
for it.

The label table takes part in the session as well. `binding_exact` says of every listing that a
session can give that its bindings are exact, and that it resolves exactly if no label is placed
twice and every label referred to is placed.
-/

namespace ClassWeaver.Listing

/-! ### Sessions -/

/-- An editing operation. No anchor stands for the head of the sequence when inserting behind, and
for its tail when inserting in front. -/
inductive Operation where
  | newLabel
  | append (i : Insn)
  | prepend (i : Insn)
  | insertAfter (anchor : Option Ref) (i : Insn)
  | insertBefore (anchor : Option Ref) (i : Insn)
  | insertAllAfter (anchor : Option Ref) (is : List Insn)
  | insertAllBefore (anchor : Option Ref) (is : List Insn)
  | remove (r : Ref)
  | set (r : Ref) (i : Insn)
  /-- Takes an instruction as a consumer of instructions does. -/
  | visit (i : Insn)

namespace Operation

/-- Performs an operation: the node it answers, if it answers one, and the listing afterwards. -/
def perform (l : Listing) : Operation → Option Ref × Listing
  | newLabel => (none, l.newLabel.2)
  | append i => (l.append i).map some id
  | prepend i => (l.prepend i).map some id
  | insertAfter anchor i => (l.insertAfter anchor i).map some id
  | insertBefore anchor i => (l.insertBefore anchor i).map some id
  | insertAllAfter anchor is => l.insertAllAfter anchor is
  | insertAllBefore anchor is => l.insertAllBefore anchor is
  | remove r => (none, l.remove r)
  | set r i => (none, l.set r i)
  | visit i => (none, (l.append i).2)

/-- Whether an operation may be performed: an anchor is part of the sequence, and a node that is
removed or gets another instruction was given out. -/
def isAdmitted (l : Listing) : Operation → Bool
  | insertAfter anchor _ | insertBefore anchor _
  | insertAllAfter anchor _ | insertAllBefore anchor _ => anchor.all l.isLinked
  | remove r | set r _ => l.isAllocated r
  | newLabel | append _ | prepend _ | visit _ => true

end Operation

/-- Performs operations one after the other: the nodes answered, and the listing afterwards. -/
def performAll : Listing → List Operation → List (Option Ref) × Listing
  | l, [] => ([], l)
  | l, op :: ops =>
    let (answer, l) := op.perform l
    let (answers, l) := performAll l ops
    (answer :: answers, l)

/-- Whether each operation may be performed when its turn comes. -/
def areAdmitted : Listing → List Operation → Bool
  | _, [] => true
  | l, op :: ops => op.isAdmitted l && areAdmitted (op.perform l).2 ops

/-! ### Scripts -/

/-- A sequence as plain lists. -/
structure Script where
  /-- The handles of the sequence in order. -/
  order : List Ref := []
  /-- The instruction of every handle given out so far. -/
  texts : List Insn := []

namespace Script

/-- Puts handles right behind an anchor, or at the head without one. -/
def behind (anchor : Option Ref) (new order : List Ref) : List Ref :=
  match anchor with
  | none => new ++ order
  | some a => order.flatMap fun r => if r = a then r :: new else [r]

/-- Puts handles right in front of an anchor, or at the tail without one. -/
def before (anchor : Option Ref) (new order : List Ref) : List Ref :=
  match anchor with
  | none => order ++ new
  | some a => order.flatMap fun r => if r = a then new ++ [r] else [r]

/-- The next handles to be given out. -/
def fresh (s : Script) (count : Nat) : List Ref := List.range' s.texts.length count

/-- Gives out a handle for each instruction and places the handles. -/
def add (s : Script) (place : List Ref → List Ref → List Ref) (is : List Insn) : Script where
  order := place (s.fresh is.length) s.order
  texts := s.texts ++ is

/-- An editing operation on plain lists: the handle it answers, and the script afterwards. -/
def step (s : Script) : Operation → Option Ref × Script
  | .newLabel => (none, s)
  | .append i => (s.texts.length, s.add (before none) [i])
  | .prepend i => (s.texts.length, s.add (behind none) [i])
  | .insertAfter anchor i => (s.texts.length, s.add (behind anchor) [i])
  | .insertBefore anchor i => (s.texts.length, s.add (before anchor) [i])
  | .insertAllAfter anchor is => ((s.fresh is.length).getLast?.or anchor, s.add (behind anchor) is)
  | .insertAllBefore anchor is => ((s.fresh is.length).head?.or anchor, s.add (before anchor) is)
  | .remove r => (none, { s with order := s.order.erase r })
  | .set r i => (none, { s with texts := s.texts.set r i })
  | .visit i => (none, s.add (before none) [i])

/-- Edits plain lists one operation after the other. -/
def steps : Script → List Operation → List (Option Ref) × Script
  | s, [] => ([], s)
  | s, op :: ops =>
    let (answer, s) := s.step op
    let (answers, s) := steps s ops
    (answer :: answers, s)

/-! ### Placing handles -/

variable {a r : Ref} {anchor : Option Ref} {new xs ys order : List Ref}

theorem flatMap_of_notMem {f : Ref → List Ref} (h : a ∉ order) :
    (order.flatMap fun r => if r = a then f r else [r]) = order := by
  induction order with
  | nil => rfl
  | cons r order ih =>
    rw [List.mem_cons, not_or] at h
    rw [List.flatMap_cons, if_neg (Ne.symm h.1), ih h.2]
    rfl

@[simp] theorem behind_nil : behind anchor [] order = order := by
  cases anchor <;> simp [behind]

@[simp] theorem before_nil : before anchor [] order = order := by
  cases anchor <;> simp [before]

theorem behind_eq (h : (xs ++ a :: ys).Nodup) :
    behind (some a) new (xs ++ a :: ys) = xs ++ a :: (new ++ ys) := by
  have hnd := List.nodup_cons.mp (List.perm_middle.nodup_iff.mp h)
  rw [List.mem_append, not_or] at hnd
  simp only [behind, List.flatMap_append, List.flatMap_cons, if_true]
  rw [flatMap_of_notMem hnd.1.1, flatMap_of_notMem hnd.1.2, List.cons_append]

theorem before_eq (h : (xs ++ a :: ys).Nodup) :
    before (some a) new (xs ++ a :: ys) = xs ++ (new ++ a :: ys) := by
  have hnd := List.nodup_cons.mp (List.perm_middle.nodup_iff.mp h)
  rw [List.mem_append, not_or] at hnd
  simp only [before, List.flatMap_append, List.flatMap_cons, if_true]
  rw [flatMap_of_notMem hnd.1.1, flatMap_of_notMem hnd.1.2, List.append_assoc]
  rfl

/-- Handles go behind a handle that was placed before them. -/
theorem behind_behind (h : order.Nodup) (ha : ∀ a, anchor = some a → a ∈ order)
    (hr : r ∉ order) : behind (some r) new (behind anchor [r] order) =
    behind anchor (r :: new) order := by
  cases anchor with
  | none =>
    have hnd : ([] ++ r :: order).Nodup := List.nodup_cons.mpr ⟨hr, h⟩
    exact behind_eq hnd
  | some a =>
    obtain ⟨xs, ys, rfl⟩ := List.append_of_mem (ha a rfl)
    have hnd : (xs ++ a :: r :: ys).Nodup := by
      have hperm : (xs ++ a :: r :: ys).Perm (r :: (xs ++ a :: ys)) := by
        have hmiddle : ((xs ++ [a]) ++ r :: ys).Perm (r :: ((xs ++ [a]) ++ ys)) := List.perm_middle
        simpa using hmiddle
      exact hperm.nodup_iff.mpr (List.nodup_cons.mpr ⟨hr, h⟩)
    rw [behind_eq h, behind_eq h]
    have hsplit : xs ++ a :: ([r] ++ ys) = (xs ++ [a]) ++ r :: ys := by simp
    rw [hsplit, behind_eq (by simpa using hnd)]
    simp

/-- Handles go in front of the same anchor one after the other. -/
theorem before_before (h : order.Nodup) (ha : ∀ a, anchor = some a → a ∈ order)
    (hr : r ∉ order) :
    before anchor new (before anchor [r] order) = before anchor (r :: new) order := by
  cases anchor with
  | none => simp [before]
  | some a =>
    obtain ⟨xs, ys, rfl⟩ := List.append_of_mem (ha a rfl)
    have hnd : ((xs ++ [r]) ++ a :: ys).Nodup := by
      rw [List.append_assoc]
      exact List.perm_middle.nodup_iff.mpr (List.nodup_cons.mpr ⟨hr, h⟩)
    rw [before_eq h, before_eq h]
    have hsplit : xs ++ ([r] ++ a :: ys) = (xs ++ [r]) ++ a :: ys := by simp
    rw [hsplit, before_eq hnd]
    simp

theorem mem_behind (h : r ∈ behind anchor new order) : r ∈ order ∨ r ∈ new := by
  cases anchor with
  | none => exact (List.mem_append.mp h).symm
  | some a =>
    obtain ⟨q, hq, hr⟩ := List.mem_flatMap.mp h
    split at hr
    · rcases List.mem_cons.mp hr with rfl | hr
      · exact .inl hq
      · exact .inr hr
    · exact .inl (List.mem_singleton.mp hr ▸ hq)

theorem mem_before (h : r ∈ before anchor new order) : r ∈ order ∨ r ∈ new := by
  cases anchor with
  | none => exact List.mem_append.mp h
  | some a =>
    obtain ⟨q, hq, hr⟩ := List.mem_flatMap.mp h
    split at hr
    · rcases List.mem_append.mp hr with hr | hr
      · exact .inr hr
      · exact .inl (List.mem_singleton.mp hr ▸ hq)
    · exact .inl (List.mem_singleton.mp hr ▸ hq)

variable {s : Script} {op : Operation}

/-- Only new handles join the sequence. -/
theorem mem_step (h : r ∈ (s.step op).2.order) : r ∈ s.order ∨ s.texts.length ≤ r := by
  have hfresh : ∀ {count : Nat}, r ∈ s.fresh count → s.texts.length ≤ r := fun hr =>
    (List.mem_range'_1.mp hr).1
  have hbehind : ∀ {anchor is}, r ∈ (s.add (behind anchor) is).order →
      r ∈ s.order ∨ s.texts.length ≤ r := fun h => (mem_behind h).imp_right hfresh
  have hbefore : ∀ {anchor is}, r ∈ (s.add (before anchor) is).order →
      r ∈ s.order ∨ s.texts.length ≤ r := fun h => (mem_before h).imp_right hfresh
  cases op with
  | newLabel | set _ _ => exact .inl h
  | append _ | insertBefore _ _ | insertAllBefore _ _ | visit _ => exact hbefore h
  | prepend _ | insertAfter _ _ | insertAllAfter _ _ => exact hbehind h
  | remove _ => exact .inl (List.mem_of_mem_erase h)

/-- A handle keeps its instruction until it is replaced. -/
theorem texts_step {i : Insn} (h : s.texts[r]? = some i) (hop : ∀ j, op ≠ .set r j) :
    (s.step op).2.texts[r]? = some i := by
  have hlt : r < s.texts.length := (List.getElem?_eq_some_iff.mp h).1
  cases op with
  | newLabel | remove _ => exact h
  | set q j =>
    have hq : q ≠ r := fun e => hop j (e ▸ rfl)
    exact (List.getElem?_set_ne hq).trans h
  | _ => exact (List.getElem?_append_left hlt).trans h

end Script

/-! ### A listing and its script -/

/-- The instructions of all nodes of the arena. -/
def texts (l : Listing) : List Insn := l.nodes.toList.map Node.insn

/-- The links of the listing spell the order of the script, and its arena holds the texts. -/
structure Mirrors (l : Listing) (s : Script) : Prop where
  spells : l.Spells s.order
  texts_eq : l.texts = s.texts

variable {l : Listing} {s : Script} {anchor : Option Ref} {xs ys : List Ref}

theorem getElem?_texts (l : Listing) (r : Ref) : l.texts[r]? = l.insn? r := by
  simp [texts, insn?]

theorem length_texts (l : Listing) : l.texts.length = l.nodes.size := by simp [texts]

theorem texts_link (h : l.Spells (xs ++ ys)) (i : Insn) :
    ((l.alloc i).2.link l.nodes.size xs.getLast? ys.head?).texts = l.texts ++ [i] := by
  have hnew := h.size_notMem
  have hp : xs.getLast? ≠ some l.nodes.size := fun e =>
    hnew (List.mem_append_left _ (List.mem_of_getLast? e))
  have hs : ys.head? ≠ some l.nodes.size := fun e =>
    hnew (List.mem_append_right _ (List.mem_of_head? e))
  refine List.ext_getElem? fun q => ?_
  rw [getElem?_texts, insn?_link_alloc i hp hs, List.getElem?_append, length_texts]
  rcases Nat.lt_trichotomy q l.nodes.size with hq | rfl | hq
  · rw [if_neg (Nat.ne_of_lt hq), if_pos hq, getElem?_texts]
  · simp
  · rw [if_neg (Nat.ne_of_gt hq), if_neg (Nat.lt_asymm hq), insn?,
      Array.getElem?_eq_none (Nat.le_of_lt hq)]
    exact (List.getElem?_eq_none (by simp; omega)).symm

namespace Mirrors

theorem length_texts (h : l.Mirrors s) : s.texts.length = l.nodes.size := by
  rw [← h.texts_eq, Listing.length_texts]

/-- The next handle is not part of the sequence. -/
theorem length_notMem (h : l.Mirrors s) : s.texts.length ∉ s.order := by
  rw [h.length_texts]
  exact h.spells.size_notMem

theorem insn?_eq (h : l.Mirrors s) (r : Ref) : l.insn? r = s.texts[r]? := by
  rw [← h.texts_eq, getElem?_texts]

theorem mem_order (h : l.Mirrors s) (ha : anchor.all l.isLinked = true) {a : Ref}
    (he : anchor = some a) : a ∈ s.order := by
  subst he
  exact h.spells.isLinked_iff.mp ha

theorem prepend (h : l.Mirrors s) (i : Insn) :
    (l.prepend i).2.Mirrors (s.add (Script.behind none) [i]) where
  spells := by
    rw [Script.add, Script.fresh, h.length_texts]
    exact h.spells.prepend i
  texts_eq := by
    have hs : l.Spells ([] ++ s.order) := h.spells
    have htexts := texts_link hs i
    rw [List.getLast?_nil, ← h.spells.first_eq, h.texts_eq] at htexts
    exact htexts

theorem append (h : l.Mirrors s) (i : Insn) :
    (l.append i).2.Mirrors (s.add (Script.before none) [i]) where
  spells := by
    rw [Script.add, Script.fresh, h.length_texts]
    exact h.spells.append i
  texts_eq := by
    have hs : l.Spells (s.order ++ []) := by simpa using h.spells
    have htexts := texts_link hs i
    rw [List.head?_nil, ← h.spells.last_eq, h.texts_eq] at htexts
    exact htexts

theorem insertAfter (h : l.Mirrors s) (ha : ∀ a, anchor = some a → a ∈ s.order) (i : Insn) :
    (l.insertAfter anchor i).2.Mirrors (s.add (Script.behind anchor) [i]) := by
  cases anchor with
  | none => exact h.prepend i
  | some a =>
    obtain ⟨xs, ys, hsplit⟩ := List.append_of_mem (ha a rfl)
    have hs : l.Spells (xs ++ a :: ys) := hsplit ▸ h.spells
    refine ⟨?_, ?_⟩
    · rw [Script.add, Script.fresh, h.length_texts, hsplit, Script.behind_eq hs.nodup]
      exact hs.insertAfter i
    · have hcut : l.Spells ((xs ++ [a]) ++ ys) := by simpa using hs
      have hne : a ≠ l.nodes.size := fun e => hs.size_notMem (by simp [e])
      have hnext : (l.alloc i).2.next (some a) = ys.head? := by
        rw [← hs.next_eq]
        simp [next, alloc, Array.getElem?_push, hne]
      have htexts := texts_link hcut i
      rw [List.getLast?_concat, h.texts_eq] at htexts
      simp only [Listing.insertAfter, hnext]
      exact htexts

theorem insertBefore (h : l.Mirrors s) (ha : ∀ a, anchor = some a → a ∈ s.order) (i : Insn) :
    (l.insertBefore anchor i).2.Mirrors (s.add (Script.before anchor) [i]) := by
  cases anchor with
  | none => exact h.append i
  | some a =>
    obtain ⟨xs, ys, hsplit⟩ := List.append_of_mem (ha a rfl)
    have hs : l.Spells (xs ++ a :: ys) := hsplit ▸ h.spells
    refine ⟨?_, ?_⟩
    · rw [Script.add, Script.fresh, h.length_texts, hsplit, Script.before_eq hs.nodup]
      exact hs.insertBefore i
    · have hne : a ≠ l.nodes.size := fun e => hs.size_notMem (by simp [e])
      have hprev : (l.alloc i).2.prev (some a) = xs.getLast? := by
        rw [← hs.prev_eq]
        simp [prev, alloc, Array.getElem?_push, hne]
      have htexts := texts_link hs i
      rw [List.head?_cons, h.texts_eq] at htexts
      simp only [Listing.insertBefore, hprev]
      exact htexts

/-- The node that inserting one instruction gives out. -/
theorem insertAfter_fst (h : l.Mirrors s) (i : Insn) :
    (l.insertAfter anchor i).1 = s.texts.length := by
  rw [h.length_texts]
  cases anchor <;> rfl

theorem insertBefore_fst (h : l.Mirrors s) (i : Insn) :
    (l.insertBefore anchor i).1 = s.texts.length := by
  rw [h.length_texts]
  cases anchor <;> rfl

/-- Placing handles one after the other behind each other places them all at once. -/
theorem insertAllAfter {is : List Insn} (h : l.Mirrors s)
    (ha : ∀ a, anchor = some a → a ∈ s.order) :
    (l.insertAllAfter anchor is).1 = (s.fresh is.length).getLast?.or anchor ∧
      (l.insertAllAfter anchor is).2.Mirrors (s.add (Script.behind anchor) is) := by
  induction is generalizing l s anchor with
  | nil =>
    have hadd : s.add (Script.behind anchor) [] = s := by simp [Script.add, Script.fresh]
    rw [hadd]
    exact ⟨by simp [Listing.insertAllAfter, Script.fresh], h⟩
  | cons i is ih =>
    set n := s.texts.length with hn
    have hone := h.insertAfter ha i
    have hnew : ∀ a, some n = some a → a ∈ (s.add (Script.behind anchor) [i]).order := by
      rintro a ⟨⟩
      cases anchor with
      | none => simp [Script.add, Script.fresh, Script.behind, hn]
      | some b =>
        obtain ⟨xs, ys, hsplit⟩ := List.append_of_mem (ha b rfl)
        rw [Script.add, hsplit, Script.behind_eq (hsplit ▸ h.spells.nodup)]
        simp [Script.fresh, hn]
    obtain ⟨hanswer, hrest⟩ := ih hone hnew
    have hfresh : (s.add (Script.behind anchor) [i]).fresh is.length
        = List.range' (n + 1) is.length := by
      simp [Script.fresh, Script.add, hn]
    have hadd : (s.add (Script.behind anchor) [i]).add (Script.behind (some n)) is =
        s.add (Script.behind anchor) (i :: is) := by
      -- the rest goes behind the handle placed first, which stands behind the anchor
      have horder : Script.behind (some n) (List.range' (n + 1) is.length)
            (Script.behind anchor [n] s.order) =
          Script.behind anchor (n :: List.range' (n + 1) is.length) s.order :=
        Script.behind_behind h.spells.nodup ha h.length_notMem
      rw [Script.add, hfresh]
      simp only [Script.add, Script.fresh, List.length_cons, List.length_nil, List.range'_succ,
        List.range'_zero, List.append_assoc, List.singleton_append, ← hn]
      rw [← horder]
    have hstep : l.insertAllAfter anchor (i :: is) =
        (l.insertAfter anchor i).2.insertAllAfter (some n) is := by
      have hfst : (l.insertAfter anchor i).1 = n := h.insertAfter_fst i
      rw [← hfst]
      rfl
    rw [hstep, ← hadd]
    refine ⟨?_, hrest⟩
    rw [hanswer, hfresh, Script.fresh, List.length_cons, List.range'_succ, List.getLast?_cons]
    cases (List.range' (n + 1) is.length).getLast? <;> rfl

/-- Placing handles one after the other in front of an anchor places them all at once. -/
theorem foldl_insertBefore (h : l.Mirrors s) (is : List Insn)
    (ha : ∀ a, anchor = some a → a ∈ s.order) :
    (is.foldl (fun l i => (l.insertBefore anchor i).2) l).Mirrors
      (s.add (Script.before anchor) is) := by
  induction is generalizing l s with
  | nil =>
    have hadd : s.add (Script.before anchor) [] = s := by simp [Script.add, Script.fresh]
    rw [hadd]
    exact h
  | cons i is ih =>
    have hold : ∀ a, anchor = some a → a ∈ (s.add (Script.before anchor) [i]).order := by
      rintro a rfl
      obtain ⟨xs, ys, hsplit⟩ := List.append_of_mem (ha a rfl)
      rw [Script.add, hsplit, Script.before_eq (hsplit ▸ h.spells.nodup)]
      simp
    have hadd : (s.add (Script.before anchor) [i]).add (Script.before anchor) is =
        s.add (Script.before anchor) (i :: is) := by
      -- each handle goes between those before it and the anchor
      have horder : Script.before anchor (List.range' (s.texts.length + 1) is.length)
            (Script.before anchor [s.texts.length] s.order) =
          Script.before anchor (s.texts.length :: List.range' (s.texts.length + 1) is.length)
            s.order :=
        Script.before_before h.spells.nodup ha h.length_notMem
      simp only [Script.add, Script.fresh, List.length_cons, List.length_nil, List.range'_succ,
        List.range'_zero, List.append_assoc, List.singleton_append, List.length_append]
      rw [← horder]
    rw [List.foldl_cons, ← hadd]
    exact ih (h.insertBefore ha i) hold

theorem insertAllBefore {is : List Insn} (h : l.Mirrors s)
    (ha : ∀ a, anchor = some a → a ∈ s.order) :
    (l.insertAllBefore anchor is).1 = (s.fresh is.length).head?.or anchor ∧
      (l.insertAllBefore anchor is).2.Mirrors (s.add (Script.before anchor) is) := by
  cases is with
  | nil => exact ⟨by simp [Listing.insertAllBefore, Script.fresh], h.foldl_insertBefore [] ha⟩
  | cons i is =>
    refine ⟨?_, h.foldl_insertBefore (i :: is) ha⟩
    simp only [Listing.insertAllBefore, h.insertBefore_fst, Script.fresh, List.length_cons,
      List.range'_succ, List.head?_cons]
    rfl

theorem remove (h : l.Mirrors s) (r : Ref) :
    (l.remove r).Mirrors { s with order := s.order.erase r } where
  spells := by
    by_cases hr : r ∈ s.order
    · obtain ⟨xs, ys, hsplit⟩ := List.append_of_mem hr
      have hs : l.Spells (xs ++ r :: ys) := hsplit ▸ h.spells
      have hnd := List.nodup_cons.mp (List.perm_middle.nodup_iff.mp hs.nodup)
      have herase : s.order.erase r = xs ++ ys := by
        rw [hsplit, List.erase_append_right _ fun hx => hnd.1 (List.mem_append_left _ hx),
          List.erase_cons_head]
      rw [herase]
      exact hs.remove
    · rw [h.spells.remove_of_notMem hr, List.erase_of_not_mem hr]
      exact h.spells
  texts_eq := by
    rw [← h.texts_eq]
    refine List.ext_getElem? fun q => ?_
    rw [getElem?_texts, getElem?_texts, insn?_remove]

theorem set (h : l.Mirrors s) (r : Ref) (i : Insn) :
    (l.set r i).Mirrors { s with texts := s.texts.set r i } where
  spells := h.spells.set r i
  texts_eq := by
    refine List.ext_getElem? fun q => ?_
    rw [getElem?_texts, insn?_set, List.getElem?_set, ← h.insn?_eq]
    by_cases hq : q = r
    · subst hq
      rw [if_pos rfl, if_pos rfl, h.length_texts]
      by_cases hlt : q < l.nodes.size
      · simp [insn?, hlt]
      · simp [insn?, hlt]
    · rw [if_neg hq, if_neg (Ne.symm hq)]

/-- One operation does to the listing what it does to the script. -/
theorem perform {op : Operation} (h : l.Mirrors s) (hop : op.isAdmitted l = true) :
    (op.perform l).1 = (s.step op).1 ∧ (op.perform l).2.Mirrors (s.step op).2 := by
  cases op with
  | newLabel => exact ⟨rfl, h.spells.newLabel, h.texts_eq⟩
  | append i => exact ⟨congrArg some h.length_texts.symm, h.append i⟩
  | prepend i => exact ⟨congrArg some h.length_texts.symm, h.prepend i⟩
  | insertAfter anchor i =>
    exact ⟨congrArg some (h.insertAfter_fst i), h.insertAfter (fun _ => h.mem_order hop) i⟩
  | insertBefore anchor i =>
    exact ⟨congrArg some (h.insertBefore_fst i), h.insertBefore (fun _ => h.mem_order hop) i⟩
  | insertAllAfter anchor is => exact h.insertAllAfter fun _ => h.mem_order hop
  | insertAllBefore anchor is => exact h.insertAllBefore fun _ => h.mem_order hop
  | remove r => exact ⟨rfl, h.remove r⟩
  | set r i => exact ⟨rfl, h.set r i⟩
  | visit i => exact ⟨rfl, h.append i⟩

theorem performAll {ops : List Operation} (h : l.Mirrors s) (hops : l.areAdmitted ops = true) :
    (l.performAll ops).1 = (s.steps ops).1 ∧ (l.performAll ops).2.Mirrors (s.steps ops).2 := by
  induction ops generalizing l s with
  | nil => exact ⟨rfl, h⟩
  | cons op ops ih =>
    rw [areAdmitted, Bool.and_eq_true] at hops
    obtain ⟨hanswer, hstep⟩ := h.perform hops.1
    obtain ⟨hanswers, hsteps⟩ := ih hstep hops.2
    exact ⟨congrArg₂ List.cons hanswer hanswers, hsteps⟩

end Mirrors

theorem mirrors_empty : empty.Mirrors {} := ⟨spells_empty, rfl⟩

/-! ### Walking along the links -/

/-- Following the links `step` from a node leads through these nodes, and then to no node. -/
inductive Walk (step : Option Ref → Option Ref) : Option Ref → List Ref → Prop
  | stop : Walk step none []
  | go {r : Ref} {rs : List Ref} : Walk step (step (some r)) rs → Walk step (some r) (r :: rs)

theorem Spells.walk_next (h : l.Spells (xs ++ ys)) : Walk l.next ys.head? ys := by
  induction ys generalizing xs with
  | nil => exact .stop
  | cons r ys ih =>
    refine .go ?_
    rw [h.next_eq]
    have h' : l.Spells ((xs ++ [r]) ++ ys) := by simpa using h
    exact ih h'

theorem Spells.walk_prev (h : l.Spells (xs ++ ys)) : Walk l.prev xs.getLast? xs.reverse := by
  induction xs using List.reverseRecOn generalizing ys with
  | nil => exact .stop
  | append_singleton xs r ih =>
    have h' : l.Spells (xs ++ r :: ys) := by simpa using h
    rw [List.getLast?_concat, List.reverse_concat]
    refine .go ?_
    rw [h'.prev_eq]
    exact ih h'

/-- The listing shows the script: both walks lead through its handles, each once, and the nodes
hold its texts. -/
structure Shows (l : Listing) (s : Script) : Prop where
  forward : Walk l.next l.first s.order
  backward : Walk l.prev l.last s.order.reverse
  nodup : s.order.Nodup
  length_eq : l.length = s.order.length
  linked_iff : ∀ r, l.isLinked r = true ↔ r ∈ s.order
  insn?_eq : ∀ r, l.insn? r = s.texts[r]?

theorem Mirrors.shows (h : l.Mirrors s) : l.Shows s where
  forward := by
    have hs : l.Spells ([] ++ s.order) := h.spells
    rw [h.spells.first_eq]
    exact hs.walk_next
  backward := by
    have hs : l.Spells (s.order ++ []) := by simpa using h.spells
    rw [h.spells.last_eq]
    exact hs.walk_prev
  nodup := h.spells.nodup
  length_eq := h.spells.length_eq
  linked_iff _ := h.spells.isLinked_iff
  insn?_eq := h.insn?_eq

/-- **A listing is a sequence.** Through every session the listing answers what the script answers
and shows the script, and so after every further operation. Handles that become part of the
sequence were never given out before, and a handle keeps its instruction until it is replaced.
Removing a node that is not part of the sequence, such as one that was removed before, changes
nothing at all. -/
theorem perform_refines {ops : List Operation} {answers : List (Option Ref)}
    (hops : empty.areAdmitted ops = true) (hl : empty.performAll ops = (answers, l)) :
    answers = (Script.steps {} ops).1 ∧ l.Shows (Script.steps {} ops).2 ∧
      (∀ op : Operation, op.isAdmitted l = true →
        (op.perform l).1 = ((Script.steps {} ops).2.step op).1 ∧
        (op.perform l).2.Shows ((Script.steps {} ops).2.step op).2 ∧
        (∀ r, (op.perform l).2.isLinked r = true → l.isLinked r = false →
          l.isAllocated r = false) ∧
        ∀ r i, l.insn? r = some i → (∀ j, op ≠ .set r j) →
          (op.perform l).2.insn? r = some i) ∧
      ∀ r, l.isLinked r = false → l.remove r = l := by
  obtain ⟨hanswers, hm⟩ := mirrors_empty.performAll hops
  rw [hl] at hanswers hm
  refine ⟨hanswers, hm.shows, fun op hop => ?_, fun r hr => ?_⟩
  · obtain ⟨hanswer, hm'⟩ := hm.perform hop
    refine ⟨hanswer, hm'.shows, fun r hr hr' => ?_, fun r i hi hset => ?_⟩
    · -- a handle that the script links anew is numbered behind all texts
      have hnew : r ∉ (Script.steps {} ops).2.order := fun hmem => by
        rw [hm.spells.isLinked_iff.mpr hmem] at hr'
        cases hr'
      have hle := (Script.mem_step (hm'.spells.isLinked_iff.mp hr)).resolve_left hnew
      rw [hm.length_texts] at hle
      exact decide_eq_false (Nat.not_lt.mpr hle)
    · rw [hm.insn?_eq] at hi
      rw [hm'.insn?_eq]
      exact Script.texts_step hi hset
  · refine hm.spells.remove_of_notMem fun hmem => ?_
    rw [hm.spells.isLinked_iff.mpr hmem] at hr
    cases hr

/-- A session that inserts at both ends and around nodes, removes a node twice, and turns a label
entry into an instruction. -/
def session : List Operation :=
  [.newLabel, .append (.plain .pop), .prepend (.place 0), .insertAllBefore (some 0) [.jump .goto 0],
    .insertAllAfter (some 1) [.plain .nop, .plain .dupX1], .insertAfter none (.place 0), .remove 0,
    .remove 0, .set 1 (.plain .swap), .visit (.plain .athrow)]

/-- What the session leaves. -/
def sessionScript : Script where
  order := [5, 1, 3, 4, 2, 6]
  texts := [.plain .pop, .plain .swap, .jump .goto 0, .plain .nop, .plain .dupX1, .place 0,
    .plain .athrow]

theorem perform_refines_session :
    empty.areAdmitted session = true ∧
      (empty.performAll session).1 =
        [none, some 0, some 1, some 2, some 4, some 5, none, none, none, none] ∧
      (empty.performAll session).2.Shows sessionScript := by
  have hops : empty.areAdmitted session = true := by decide +kernel
  have hsteps : Script.steps {} session =
      ([none, some 0, some 1, some 2, some 4, some 5, none, none, none, none], sessionScript) := by
    rfl
  obtain ⟨hanswers, hshows, -⟩ := perform_refines hops (Prod.eta (empty.performAll session)).symm
  rw [hsteps] at hanswers hshows
  exact ⟨hops, hanswers, hshows⟩

/-! ### Labels in a session -/

theorem isLinked_insertAfter (h : l.WellFormed) (ha : anchor.all l.isLinked = true) (i : Insn) :
    (l.insertAfter anchor i).2.isLinked (l.insertAfter anchor i).1 = true := by
  cases anchor with
  | none => exact (h.spells.prepend i).isLinked_iff.mpr List.mem_cons_self
  | some a =>
    obtain ⟨xs, ys, hsplit⟩ := List.append_of_mem (h.spells.isLinked_iff.mp ha)
    have hs : l.Spells (xs ++ a :: ys) := hsplit ▸ h.spells
    refine (hs.insertAfter i).isLinked_iff.mpr ?_
    change l.nodes.size ∈ _
    simp

theorem isLinked_insertBefore (h : l.WellFormed) (ha : anchor.all l.isLinked = true) (i : Insn) :
    anchor.all (l.insertBefore anchor i).2.isLinked = true := by
  cases anchor with
  | none => rfl
  | some a =>
    obtain ⟨xs, ys, hsplit⟩ := List.append_of_mem (h.spells.isLinked_iff.mp ha)
    have hs : l.Spells (xs ++ a :: ys) := hsplit ▸ h.spells
    exact (hs.insertBefore i).isLinked_iff.mpr (by simp)

namespace Built

theorem insertAt (h : l.Built) (ha : anchor.all l.isLinked = true) (i : Insn) :
    (l.insertAfter anchor i).2.Built ∧ (l.insertBefore anchor i).2.Built := by
  cases anchor with
  | none => exact ⟨h.prepend i, h.append i⟩
  | some a => exact ⟨h.insertAfter i ha, h.insertBefore i ha⟩

theorem insertAllAfter {is : List Insn} (h : l.Built) (ha : anchor.all l.isLinked = true) :
    (l.insertAllAfter anchor is).2.Built := by
  induction is generalizing l anchor with
  | nil => exact h
  | cons i is ih => exact ih (h.insertAt ha i).1 (isLinked_insertAfter h.wellFormed ha i)

theorem foldl_insertBefore {is : List Insn} (h : l.Built) (ha : anchor.all l.isLinked = true) :
    (is.foldl (fun l i => (l.insertBefore anchor i).2) l).Built := by
  induction is generalizing l with
  | nil => exact h
  | cons i is ih => exact ih (h.insertAt ha i).2 (isLinked_insertBefore h.wellFormed ha i)

theorem insertAllBefore {is : List Insn} (h : l.Built) (ha : anchor.all l.isLinked = true) :
    (l.insertAllBefore anchor is).2.Built := by
  cases is with
  | nil => exact h
  | cons i is =>
    exact (h.insertAt ha i).2.foldl_insertBefore (isLinked_insertBefore h.wellFormed ha i)

theorem perform {op : Operation} (h : l.Built) (hop : op.isAdmitted l = true) :
    (op.perform l).2.Built := by
  cases op with
  | newLabel => exact h.newLabel
  | append i => exact h.append i
  | prepend i => exact h.prepend i
  | insertAfter anchor i => exact (h.insertAt hop i).1
  | insertBefore anchor i => exact (h.insertAt hop i).2
  | insertAllAfter anchor is => exact h.insertAllAfter hop
  | insertAllBefore anchor is => exact h.insertAllBefore hop
  | remove r => exact h.remove r
  | set r i => exact h.set r i
  | visit i => exact h.append i

/-- Sessions give listings that editing can give. -/
theorem performAll {ops : List Operation} (h : l.Built) (hops : l.areAdmitted ops = true) :
    (l.performAll ops).2.Built := by
  induction ops generalizing l with
  | nil => exact h
  | cons op ops ih =>
    rw [areAdmitted, Bool.and_eq_true] at hops
    exact ih (h.perform hops.1) hops.2

end Built

/-! ### The record of doubled labels -/

/-- Only numbered labels are put on record as doubled. -/
def RecordsNumbered (l : Listing) : Prop := ∀ lbl ∈ l.doubled, 0 ≤ lbl

theorem RecordsNumbered.bind (h : l.RecordsNumbered) (r : Ref) : (l.bind r).RecordsNumbered := by
  intro k hk
  unfold Listing.bind at hk
  split at hk
  · exact h k hk
  · next lbl _ =>
    split at hk
    · exact h k hk
    · next hneg =>
      dsimp only at hk
      split at hk
      · split at hk
        · exact h k hk
        · rcases Array.mem_push.mp hk with hk | rfl
          · exact h k hk
          · exact Int.not_lt.mp hneg
      · exact h k hk

theorem unbind_doubled (l : Listing) (r : Ref) : (l.unbind r).doubled = l.doubled := by
  unfold Listing.unbind
  split
  · rfl
  · split <;> rfl

theorem RecordsNumbered.link (h : l.RecordsNumbered) (i : Insn) (r : Ref) (p q : Option Ref) :
    ((l.alloc i).2.link r p q).RecordsNumbered := by
  refine RecordsNumbered.bind (fun lbl hlbl => h lbl ?_) r
  change lbl ∈ (Listing.setPrev _ q _).doubled at hlbl
  rwa [(setPrev_table _ _).2, (setNext_table _ _).2] at hlbl

theorem RecordsNumbered.remove (h : l.RecordsNumbered) (r : Ref) :
    (l.remove r).RecordsNumbered := by
  intro lbl hlbl
  unfold Listing.remove at hlbl
  split at hlbl
  · exact h lbl hlbl
  · split at hlbl
    · change lbl ∈ (Listing.setPrev _ _ _).doubled at hlbl
      rw [(setPrev_table _ _).2, (setNext_table _ _).2, unbind_doubled] at hlbl
      exact h lbl hlbl
    · exact h lbl hlbl

theorem RecordsNumbered.set (h : l.RecordsNumbered) (r : Ref) (i : Insn) :
    (l.set r i).RecordsNumbered := by
  unfold Listing.set
  dsimp only
  split
  · refine RecordsNumbered.bind (fun lbl hlbl => h lbl ?_) r
    change lbl ∈ (l.unbind r).doubled at hlbl
    rwa [unbind_doubled] at hlbl
  · exact h

theorem Built.recordsNumbered (h : l.Built) : l.RecordsNumbered := by
  induction h with
  | empty | fork _ _ => exact fun lbl hlbl => absurd hlbl (Array.not_mem_empty lbl)
  | newLabel _ ih => exact ih
  | append i _ ih | prepend i _ ih | insertAfter i _ _ ih | insertBefore i _ _ ih =>
    exact ih.link i _ _ _
  | remove r _ ih => exact ih.remove r
  | set r i _ ih => exact ih.set r i

/-! ### Resolution -/

/-- A listing resolves exactly if no label is placed twice and every label referred to is placed. -/
theorem Built.resolve_iff (h : l.Built) :
    l.resolve = .ok () ↔
      (∀ lbl, 0 ≤ lbl → ∀ r ∈ l.refs, ∀ q ∈ l.refs, l.placedAt r = some lbl →
        l.placedAt q = some lbl → r = q) ∧
      ∀ i ∈ l.insns, ∀ lbl ∈ i.labels, 0 ≤ lbl ∧ ∃ r ∈ l.refs, l.placedAt r = some lbl := by
  have hw := h.wellFormed
  constructor
  · intro hr
    refine ⟨fun lbl h0 r hmem q hmem' hp hp' => ?_, fun i hi lbl hlbl => ?_⟩
    · have hbound := hw.binding_of_resolve hr hmem hp h0
      rw [hw.binding_of_resolve hr hmem' hp' h0] at hbound
      exact (Option.some.inj hbound).symm
    · obtain ⟨r, hb⟩ := exists_binding_of_resolve hr hi hlbl
      obtain ⟨hmem, hp⟩ := hw.labelled.sound hb
      exact ⟨nonneg_of_binding hb, r, hmem, hp⟩
  · rintro ⟨honce, hplaced⟩
    have hplacements : l.checkPlacements = .ok () := by
      have hnone : (l.doubled.find? fun lbl => 1 < l.placements lbl) = none := by
        rw [Array.find?_eq_none]
        intro lbl hlbl htwo
        -- two nodes in a sequence without repetitions are different
        rw [decide_eq_true_eq, hw.placements_eq, List.countP_eq_length_filter] at htwo
        obtain ⟨r, q, rest, hlist⟩ : ∃ r q rest,
            l.refs.filter (fun t => l.placedAt t = some lbl) = r :: q :: rest := by
          match hfilter : l.refs.filter (fun t => l.placedAt t = some lbl) with
          | [] | [_] => rw [hfilter] at htwo; exact absurd htwo (by simp)
          | r :: q :: rest => exact ⟨r, q, rest, rfl⟩
        have hnd := hw.spells.nodup.filter fun t => decide (l.placedAt t = some lbl)
        rw [hlist] at hnd
        have hr := List.mem_filter.mp (hlist ▸ List.mem_cons_self : r ∈ l.refs.filter _)
        have hq := List.mem_filter.mp
          (hlist ▸ List.mem_cons_of_mem _ List.mem_cons_self : q ∈ l.refs.filter _)
        have heq := honce lbl (h.recordsNumbered lbl hlbl) r hr.1 q hq.1 (of_decide_eq_true hr.2)
          (of_decide_eq_true hq.2)
        exact (List.nodup_cons.mp hnd).1 (heq ▸ List.mem_cons_self)
      rw [checkPlacements, hnone]
    have hreferences : l.checkReferences = .ok () := by
      have hnone : (l.insns.findSome? fun i => (l.dangling? i).map (i, ·)) = none := by
        rw [List.findSome?_eq_none_iff]
        intro i hi
        rw [Option.map_eq_none_iff, dangling?, List.find?_eq_none]
        intro lbl hlbl hb
        obtain ⟨h0, r, hmem, hp⟩ := hplaced i hi lbl hlbl
        exact (hw.binding_eq_none_iff h0).mp (of_decide_eq_true hb) r hmem hp
      rw [checkReferences, hnone]
    rw [resolve, hplacements]
    exact hreferences

/-- **Label bindings are exact.** After every session a numbered label is bound if and only if a
node of the sequence places it, and then to such a node. The listing resolves if and only if no
numbered label is placed by two nodes and every label that a node refers to is numbered and
placed. -/
theorem binding_exact {ops : List Operation} {answers : List (Option Ref)}
    (hops : empty.areAdmitted ops = true) (hl : empty.performAll ops = (answers, l)) :
    (∀ lbl, 0 ≤ lbl →
      (l.binding lbl = none ↔ ∀ r, l.isLinked r = true → l.placedAt r ≠ some lbl) ∧
      ∀ r, l.binding lbl = some r → l.isLinked r = true ∧ l.placedAt r = some lbl) ∧
    (l.resolve = .ok () ↔
      (∀ lbl, 0 ≤ lbl → ∀ r q, l.isLinked r = true → l.isLinked q = true →
        l.placedAt r = some lbl → l.placedAt q = some lbl → r = q) ∧
      ∀ r i, l.isLinked r = true → l.insn? r = some i → ∀ lbl ∈ i.labels,
        0 ≤ lbl ∧ ∃ q, l.isLinked q = true ∧ l.placedAt q = some lbl) := by
  have hb : l.Built := by
    have hbuilt := Built.empty.performAll hops
    rwa [hl] at hbuilt
  have hw := hb.wellFormed
  have hlinked : ∀ r, l.isLinked r = true ↔ r ∈ l.refs := fun r => hw.spells.isLinked_iff
  simp only [hlinked]
  refine ⟨fun lbl h0 => ⟨hw.binding_eq_none_iff h0, fun r hr => hw.labelled.sound hr⟩, ?_⟩
  rw [hb.resolve_iff]
  refine and_congr ⟨fun h lbl h0 r q hr hq => h lbl h0 r hr q hq,
    fun h lbl h0 r hr q hq => h lbl h0 r q hr hq⟩ ⟨fun h r i hr hi => ?_, fun h i hi => ?_⟩
  · exact h i (List.mem_filterMap.mpr ⟨r, hr, hi⟩)
  · obtain ⟨r, hr, hri⟩ := List.mem_filterMap.mp hi
    exact h r i hr hri

/-- A session that places a label three times, removes the placement it is bound to, turns another
into an instruction and back, and leaves a jump to it. -/
def placing : List Operation :=
  [.append (.place 3), .append (.place 3), .prepend (.jump .goto 3), .append (.place 3), .remove 0,
    .set 1 (.plain .nop), .set 1 (.place 3), .remove 3]

theorem binding_exact_placing :
    empty.areAdmitted placing = true ∧
      (empty.performAll placing).2.isLinked 1 = true ∧
      (empty.performAll placing).2.placedAt 1 = some 3 ∧
      ∀ r, (empty.performAll placing).2.isLinked r = true →
        (empty.performAll placing).2.placedAt r = some 3 → r = 1 := by
  have hops : empty.areAdmitted placing = true := by decide +kernel
  have hb : (empty.performAll placing).2.binding 3 = some 1 := by decide +kernel
  have hr : (empty.performAll placing).2.resolve = .ok () :=
    Outcome.eq_ok_of_toOption (by decide +kernel)
  obtain ⟨hbound, hresolve⟩ := binding_exact hops (Prod.eta (empty.performAll placing)).symm
  obtain ⟨hlinked, hplaced⟩ := (hbound 3 (by decide)).2 1 hb
  exact ⟨hops, hlinked, hplaced, fun r hr' hp =>
    (hresolve.mp hr).1 3 (by decide) r 1 hr' hlinked hp hplaced⟩

end ClassWeaver.Listing
