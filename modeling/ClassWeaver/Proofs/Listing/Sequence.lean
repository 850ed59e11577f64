import Mathlib.Data.List.Induction
import Mathlib.Data.List.Nodup
import Mathlib.Data.List.Perm.Subperm
import Mathlib.Tactic.Common
import ClassWeaver.Listing.Basic

/-!
# The sequence a listing spells

A listing is an arena of doubly linked nodes, and every statement about it goes through the
sequence of handles that the links spell. `Listing.Spells l rs` says that they spell `rs`:
walking forward from the head and backward from the tail gives `rs` and its reverse, no handle
occurs twice, and exactly the handles of `rs` are marked as linked.

Each editing operation then changes the sequence as the list operation of the same name does:
`Spells.link` puts a new handle between two parts, `Spells.remove` takes one out, and
everything else leaves the sequence alone. `Spells.refs_eq` turns the invariant back into a
statement about `Listing.refs`.
-/

namespace ClassWeaver.Listing

/-- The links of `l` spell the handles `rs`. A node is described by the parts of the sequence
in front of it and behind it. -/
structure Spells (l : Listing) (rs : List Ref) : Prop where
  nodup : rs.Nodup
  first_eq : l.first = rs.head?
  last_eq : l.last = rs.getLast?
  length_eq : l.length = rs.length
  node : ∀ xs r ys, rs = xs ++ r :: ys →
    ∃ i, l.nodes[r]? = some ⟨i, xs.getLast?, ys.head?, true⟩
  unlinked : ∀ r n, l.nodes[r]? = some n → r ∉ rs → n.linked = false

variable {l l' : Listing} {rs xs ys : List Ref} {r : Ref}

namespace Spells

/-- The invariant looks at the arena and its ends only, never at the label table. -/
theorem congr (h : l.Spells rs) (hn : l'.nodes = l.nodes) (hf : l'.first = l.first)
    (hl : l'.last = l.last) (hc : l'.length = l.length) : l'.Spells rs where
  nodup := h.nodup
  first_eq := by rw [hf, h.first_eq]
  last_eq := by rw [hl, h.last_eq]
  length_eq := by rw [hc, h.length_eq]
  node := by rw [hn]; exact h.node
  unlinked := by rw [hn]; exact h.unlinked

theorem exists_node (h : l.Spells rs) (hr : r ∈ rs) :
    ∃ xs ys i, rs = xs ++ r :: ys ∧ l.nodes[r]? = some ⟨i, xs.getLast?, ys.head?, true⟩ := by
  obtain ⟨xs, ys, rfl⟩ := List.append_of_mem hr
  obtain ⟨i, hi⟩ := h.node xs r ys rfl
  exact ⟨xs, ys, i, rfl, hi⟩

theorem lt_size (h : l.Spells rs) (hr : r ∈ rs) : r < l.nodes.size := by
  obtain ⟨xs, ys, i, -, hi⟩ := h.exists_node hr
  exact (Array.getElem?_eq_some_iff.mp hi).1

theorem next_eq (h : l.Spells (xs ++ r :: ys)) : l.next (some r) = ys.head? := by
  obtain ⟨i, hi⟩ := h.node xs r ys rfl
  simp [next, hi]

theorem prev_eq (h : l.Spells (xs ++ r :: ys)) : l.prev (some r) = xs.getLast? := by
  obtain ⟨i, hi⟩ := h.node xs r ys rfl
  simp [prev, hi]

/-- The links lead back the way they came. -/
theorem prev_of_next (h : l.Spells rs) (hr : r ∈ rs) {t : Ref} (ht : l.next (some r) = some t) :
    l.prev (some t) = some r := by
  obtain ⟨xs, ys, rfl⟩ := List.append_of_mem hr
  rw [h.next_eq] at ht
  obtain ⟨zs, rfl⟩ := List.head?_eq_some_iff.mp ht
  have h' : l.Spells ((xs ++ [r]) ++ t :: zs) := by simpa using h
  rw [h'.prev_eq, List.getLast?_concat]

theorem prev_first (h : l.Spells rs) (hr : l.first = some r) : l.prev (some r) = none := by
  rw [h.first_eq] at hr
  obtain ⟨zs, rfl⟩ := List.head?_eq_some_iff.mp hr
  have h' : l.Spells ([] ++ r :: zs) := h
  rw [h'.prev_eq, List.getLast?_nil]

theorem isLinked_iff (h : l.Spells rs) : l.isLinked r = true ↔ r ∈ rs := by
  constructor
  · intro hr
    by_contra hmem
    unfold isLinked at hr
    split at hr
    · next n hn => rw [h.unlinked r n hn hmem] at hr; exact absurd hr (by simp)
    · exact absurd hr (by simp)
  · intro hr
    obtain ⟨xs, ys, i, -, hi⟩ := h.exists_node hr
    simp [isLinked, hi]

theorem exists_insn (h : l.Spells rs) (hr : r ∈ rs) : ∃ i, l.insn? r = some i := by
  obtain ⟨xs, ys, i, -, hi⟩ := h.exists_node hr
  exact ⟨i, by simp [insn?, hi]⟩

/-- A duplicate-free sequence of handles is no longer than the arena. -/
theorem length_le (h : l.Spells rs) : rs.length ≤ l.nodes.size := by
  have hsub : rs ⊆ List.range l.nodes.size := fun r hr => List.mem_range.mpr (h.lt_size hr)
  simpa using (h.nodup.subperm hsub).length_le

/-- The nodes in front of a node are fewer than the handles. -/
theorem front_lt (h : l.Spells (xs ++ r :: ys)) : xs.length < l.nodes.size := by
  have hle := h.length_le
  rw [List.length_append, List.length_cons] at hle
  omega

/-- So are the nodes between two nodes. -/
theorem between_lt {q : Ref} {zs : List Ref} (h : l.Spells (xs ++ q :: (ys ++ r :: zs))) :
    ys.length < l.nodes.size := by
  have hle := h.length_le
  simp only [List.length_append, List.length_cons] at hle
  omega

/-- The walk from a node on collects the rest of the sequence. -/
theorem walk_eq (h : l.Spells (xs ++ ys)) (seen : List Ref) {fuel : Nat}
    (hf : ys.length ≤ fuel) : l.walk seen fuel ys.head? = seen.reverse ++ ys := by
  induction ys generalizing xs seen fuel with
  | nil => cases fuel <;> simp [walk]
  | cons r ys ih =>
    obtain ⟨fuel, rfl⟩ : ∃ n, fuel = n + 1 := ⟨fuel - 1, by simp at hf; omega⟩
    have h' : l.Spells ((xs ++ [r]) ++ ys) := by simpa using h
    rw [List.head?_cons, walk, h.next_eq, ih h' (r :: seen) (by simpa using hf)]
    simp

/-- The sequence is what `refs` lists. -/
theorem refs_eq (h : l.Spells rs) : l.refs = rs := by
  have h' : l.Spells ([] ++ rs) := h
  simpa [refs, h.first_eq] using h'.walk_eq [] h.length_le

theorem length_insns (h : l.Spells rs) : l.insns.length = rs.length := by
  rw [insns, h.refs_eq, List.filterMap_length_eq_length]
  intro r hr
  obtain ⟨i, hi⟩ := h.exists_insn hr
  simp [hi]

theorem unique (h : l.Spells rs) {rs' : List Ref} (h' : l.Spells rs') : rs = rs' := by
  rw [← h.refs_eq, ← h'.refs_eq]

end Spells

/-- The sequence depends on the links forward only. -/
theorem refs_congr (hsize : l'.nodes.size = l.nodes.size) (hnext : ∀ r, l'.next r = l.next r) :
    l'.refs = l.refs := by
  have hwalk : ∀ fuel seen r, l'.walk seen fuel r = l.walk seen fuel r := by
    intro fuel
    induction fuel with
    | zero => intro seen r; cases r <;> rfl
    | succ fuel ih =>
      intro seen r
      cases r with
      | none => rfl
      | some r => rw [walk, walk, hnext, ih]
  have hfirst : l'.first = l.first := hnext none
  rw [refs, refs, hsize, hfirst, hwalk]

/-! ### What editing leaves alone -/

@[simp] theorem reserve_nodes (n : Nat) : (l.reserve n).nodes = l.nodes := rfl
@[simp] theorem reserve_first (n : Nat) : (l.reserve n).first = l.first := rfl
@[simp] theorem reserve_last (n : Nat) : (l.reserve n).last = l.last := rfl
@[simp] theorem reserve_length (n : Nat) : (l.reserve n).length = l.length := rfl

/-- Binding touches the label table only. -/
theorem bind_frame (l : Listing) (r : Ref) :
    (l.bind r).nodes = l.nodes ∧ (l.bind r).first = l.first ∧ (l.bind r).last = l.last ∧
      (l.bind r).length = l.length := by
  unfold bind
  split
  · simp
  · split
    · simp
    · dsimp only
      split
      · split <;> simp
      · simp

/-- Unbinding touches the label table only. -/
theorem unbind_frame (l : Listing) (r : Ref) :
    (l.unbind r).nodes = l.nodes ∧ (l.unbind r).first = l.first ∧
      (l.unbind r).last = l.last ∧ (l.unbind r).length = l.length := by
  unfold unbind
  split
  · simp
  · split <;> simp

@[simp] theorem bind_nodes : (l.bind r).nodes = l.nodes := (bind_frame l r).1
@[simp] theorem unbind_nodes : (l.unbind r).nodes = l.nodes := (unbind_frame l r).1

theorem Spells.bind (h : l.Spells rs) (r : Ref) : (l.bind r).Spells rs := by
  obtain ⟨h1, h2, h3, h4⟩ := bind_frame l r
  exact h.congr h1 h2 h3 h4

theorem Spells.unbind (h : l.Spells rs) (r : Ref) : (l.unbind r).Spells rs := by
  obtain ⟨h1, h2, h3, h4⟩ := unbind_frame l r
  exact h.congr h1 h2 h3 h4

theorem Spells.newLabel (h : l.Spells rs) : l.newLabel.2.Spells rs := h.congr rfl rfl rfl rfl

theorem spells_empty : empty.Spells [] where
  nodup := List.nodup_nil
  first_eq := rfl
  last_eq := rfl
  length_eq := rfl
  node := by simp
  unlinked := by simp [empty]

theorem spells_fork (l : Listing) : l.fork.Spells [] := spells_empty.congr rfl rfl rfl rfl

/-! ### Links -/

theorem getElem?_setNext (p t : Option Ref) (q : Ref) :
    (l.setNext p t).nodes[q]? =
      (l.nodes[q]?).map fun n => { n with next := if p = some q then t else n.next } := by
  cases p with
  | none => simp [setNext]
  | some a =>
    by_cases h : a = q
    · subst h; simp [setNext, Array.getElem?_modify]
    · simp [setNext, Array.getElem?_modify, h]

theorem getElem?_setPrev (p t : Option Ref) (q : Ref) :
    (l.setPrev p t).nodes[q]? =
      (l.nodes[q]?).map fun n => { n with prev := if p = some q then t else n.prev } := by
  cases p with
  | none => simp [setPrev]
  | some a =>
    by_cases h : a = q
    · subst h; simp [setPrev, Array.getElem?_modify]
    · simp [setPrev, Array.getElem?_modify, h]

theorem setNext_ends (p t : Option Ref) :
    (l.setNext p t).first = (if p = none then t else l.first) ∧
      (l.setNext p t).last = l.last ∧ (l.setNext p t).length = l.length := by
  cases p <;> simp [setNext]

theorem setPrev_ends (p t : Option Ref) :
    (l.setPrev p t).last = (if p = none then t else l.last) ∧
      (l.setPrev p t).first = l.first ∧ (l.setPrev p t).length = l.length := by
  cases p <;> simp [setPrev]

/-! ### Linking a new node -/

/-- The arena after a new node was linked between `p` and `s`. -/
theorem getElem?_link_alloc (l : Listing) (i : Insn) {p s : Option Ref}
    (hp : p ≠ some l.nodes.size) (hs : s ≠ some l.nodes.size) (q : Ref) :
    ((l.alloc i).2.link l.nodes.size p s).nodes[q]? =
      if q = l.nodes.size then some ⟨i, p, s, true⟩
      else (l.nodes[q]?).map fun n =>
        { n with
          next := if p = some q then some l.nodes.size else n.next
          prev := if s = some q then some l.nodes.size else n.prev } := by
  simp only [alloc, link, bind_nodes, getElem?_setPrev, getElem?_setNext, Array.getElem?_modify,
    Array.getElem?_push]
  by_cases hq : q = l.nodes.size
  · subst hq
    simp [hp, hs]
  · simp [hq, Ne.symm hq, Function.comp_def]

theorem link_alloc_ends (l : Listing) (i : Insn) (p s : Option Ref) :
    ((l.alloc i).2.link l.nodes.size p s).first
        = (if p = none then some l.nodes.size else l.first)
      ∧ ((l.alloc i).2.link l.nodes.size p s).last
        = (if s = none then some l.nodes.size else l.last)
      ∧ ((l.alloc i).2.link l.nodes.size p s).length = l.length + 1 := by
  simp only [alloc, link]
  rw [(bind_frame _ _).2.1, (bind_frame _ _).2.2.1, (bind_frame _ _).2.2.2]
  simp [setPrev_ends, setNext_ends]

/-- Where a handle of a sequence can stand relative to a given one: it is that handle, or it
stands in the part behind it, or in the part in front. -/
theorem split_cases {xs ys xs' ys' : List Ref} {a r : Ref}
    (h : xs ++ a :: ys = xs' ++ r :: ys') :
    (r = a ∧ xs' = xs ∧ ys' = ys) ∨ (∃ zs, ys = zs ++ r :: ys' ∧ xs' = xs ++ a :: zs) ∨
      ∃ zs, xs = xs' ++ r :: zs ∧ ys' = zs ++ a :: ys := by
  rcases List.append_eq_append_iff.mp h with ⟨zs, rfl, hz⟩ | ⟨zs, rfl, hz⟩
  · cases zs with
    | nil => simp only [List.nil_append, List.cons.injEq] at hz; simp [hz]
    | cons z zs => simp only [List.cons_append, List.cons.injEq] at hz; simp [hz]
  · cases zs with
    | nil => simp only [List.nil_append, List.cons.injEq] at hz; simp [hz]
    | cons z zs => simp only [List.cons_append, List.cons.injEq] at hz; simp [hz]

/-- The handle in front of a place in a duplicate-free sequence is a given one only if that
one stands directly in front. -/
theorem getLast?_eq_some_iff_of_nodup {xs zs : List Ref} (h : (xs ++ r :: zs).Nodup) :
    (xs ++ r :: zs).getLast? = some r ↔ zs = [] := by
  cases zs using List.reverseRecOn with
  | nil => simp
  | append_singleton zs a =>
    have ha : a ≠ r := fun e =>
      (List.nodup_cons.mp (List.nodup_append.mp h).2.1).1 (by simp [e])
    simp [List.getLast?_cons, ha]

theorem head?_eq_some_iff_of_nodup {ys zs : List Ref} (h : (zs ++ r :: ys).Nodup) :
    (zs ++ r :: ys).head? = some r ↔ zs = [] := by
  cases zs with
  | nil => simp
  | cons a zs =>
    have ha : a ≠ r := fun e => (List.nodup_cons.mp h).1 (by simp [e])
    simp [ha]

/-- What stands in front of a handle in a duplicate-free sequence. -/
theorem takeWhile_ne {xs ys : List Ref} (hnd : (xs ++ r :: ys).Nodup) :
    (xs ++ r :: ys).takeWhile (· ≠ r) = xs := by
  have hr : r ∉ xs := fun h => (List.nodup_append.mp hnd).2.2 r h r (by simp) rfl
  rw [List.takeWhile_append_of_pos, List.takeWhile_cons_of_neg, List.append_nil]
  · simp
  · intro q hq
    have : q ≠ r := fun e => hr (e ▸ hq)
    simpa using this

/-- A handle of a duplicate-free sequence has one place in it. -/
theorem front_unique {xs ys xs' ys' : List Ref} (hnd : (xs ++ r :: ys).Nodup)
    (h : xs ++ r :: ys = xs' ++ r :: ys') : xs = xs' := by
  rw [← takeWhile_ne hnd, h, takeWhile_ne (h ▸ hnd)]

namespace Spells

/-- A handle that the arena has not given out yet is not part of the sequence. -/
theorem size_notMem (h : l.Spells rs) : l.nodes.size ∉ rs :=
  fun hmem => Nat.lt_irrefl _ (h.lt_size hmem)

/-- A new node that is linked between the two parts of a sequence stands between them. -/
theorem link (h : l.Spells (xs ++ ys)) (i : Insn) :
    ((l.alloc i).2.link l.nodes.size xs.getLast? ys.head?).Spells
      (xs ++ l.nodes.size :: ys) := by
  have hnew := h.size_notMem
  obtain ⟨hx, hy, hdis⟩ := List.nodup_append.mp h.nodup
  have hp : xs.getLast? ≠ some l.nodes.size := fun e =>
    hnew (List.mem_append_left _ (List.mem_of_getLast? e))
  have hs : ys.head? ≠ some l.nodes.size := fun e =>
    hnew (List.mem_append_right _ (List.mem_of_head? e))
  obtain ⟨hfirst, hlast, hlen⟩ := link_alloc_ends l i xs.getLast? ys.head?
  refine ⟨?_, ?_, ?_, ?_, fun xs' r ys' hsplit => ?_, fun q n hq hmem => ?_⟩
  · exact (List.perm_middle.nodup_iff).mpr (List.nodup_cons.mpr ⟨hnew, h.nodup⟩)
  · rw [hfirst, h.first_eq]
    cases xs <;> simp
  · rw [hlast, h.last_eq]
    cases ys using List.reverseRecOn <;> simp [List.getLast?_cons]
  · rw [hlen, h.length_eq]
    simp only [List.length_append, List.length_cons]
    omega
  · rw [getElem?_link_alloc l i hp hs]
    rcases split_cases hsplit with ⟨rfl, rfl, rfl⟩ | ⟨zs, rfl, rfl⟩ | ⟨zs, rfl, rfl⟩
    · exact ⟨i, by simp⟩
    · -- behind the new node only the link back of its neighbour changes
      obtain ⟨j, hj⟩ := h.node (xs ++ zs) r ys' (by simp)
      have hr : r ≠ l.nodes.size := fun e => hnew (by simp [e])
      have hnext : xs.getLast? ≠ some r := fun e =>
        hdis r (List.mem_of_getLast? e) r (by simp) rfl
      refine ⟨j, ?_⟩
      rw [if_neg hr, hj]
      simp only [Option.map_some, hnext, if_false, head?_eq_some_iff_of_nodup hy]
      cases zs <;> simp [List.getLast?_append, List.getLast?_cons]
    · -- in front of it only the link forward of its neighbour
      obtain ⟨j, hj⟩ := h.node xs' r (zs ++ ys) (by simp)
      have hr : r ≠ l.nodes.size := fun e => hnew (by simp [e])
      have hprev : ys.head? ≠ some r := fun e =>
        hdis r (by simp) r (List.mem_of_head? e) rfl
      refine ⟨j, ?_⟩
      rw [if_neg hr, hj]
      simp only [Option.map_some, hprev, if_false, getLast?_eq_some_iff_of_nodup hx]
      cases zs <;> simp
  · have hne : q ≠ l.nodes.size := fun e => hmem (by simp [e])
    have hold : q ∉ xs ++ ys := fun e => hmem (by
      rcases List.mem_append.mp e with e | e <;> simp [e])
    rw [getElem?_link_alloc l i hp hs, if_neg hne, Option.map_eq_some_iff] at hq
    obtain ⟨n', hn', rfl⟩ := hq
    exact h.unlinked q n' hn' hold

end Spells

/-! ### Inserting -/

theorem Spells.append (h : l.Spells rs) (i : Insn) :
    (l.append i).2.Spells (rs ++ [l.nodes.size]) := by
  have h' : l.Spells (rs ++ []) := by simpa using h
  have hlink := h'.link i
  rwa [← h.last_eq, List.head?_nil] at hlink

theorem Spells.prepend (h : l.Spells rs) (i : Insn) :
    (l.prepend i).2.Spells (l.nodes.size :: rs) := by
  have h' : l.Spells ([] ++ rs) := h
  have hlink := h'.link i
  rwa [List.getLast?_nil, ← h.first_eq] at hlink

theorem Spells.insertAfter (h : l.Spells (xs ++ r :: ys)) (i : Insn) :
    (l.insertAfter (some r) i).2.Spells (xs ++ r :: l.nodes.size :: ys) := by
  have h' : l.Spells ((xs ++ [r]) ++ ys) := by simpa using h
  have hr : r ≠ l.nodes.size := fun e => h.size_notMem (by simp [e])
  have hnext : (l.alloc i).2.next (some r) = ys.head? := by
    rw [← h.next_eq]
    simp [next, alloc, Array.getElem?_push, hr]
  have hlink := h'.link i
  rw [List.getLast?_concat, List.append_assoc] at hlink
  simp only [Listing.insertAfter, hnext]
  exact hlink

theorem Spells.insertBefore (h : l.Spells (xs ++ r :: ys)) (i : Insn) :
    (l.insertBefore (some r) i).2.Spells (xs ++ l.nodes.size :: r :: ys) := by
  have hr : r ≠ l.nodes.size := fun e => h.size_notMem (by simp [e])
  have hprev : (l.alloc i).2.prev (some r) = xs.getLast? := by
    rw [← h.prev_eq]
    simp [prev, alloc, Array.getElem?_push, hr]
  have hlink := h.link i
  rw [List.head?_cons] at hlink
  simp only [Listing.insertBefore, hprev]
  exact hlink

/-! ### Removing and replacing -/

/-- The arena after the node at `r` was taken out. -/
theorem getElem?_remove {n : Node} (hn : l.nodes[r]? = some n) (hl : n.linked = true) (q : Ref) :
    (l.remove r).nodes[q]? =
      if q = r then some ⟨n.insn, none, none, false⟩
      else (l.nodes[q]?).map fun m =>
        { m with
          next := if n.prev = some q then n.next else m.next
          prev := if n.next = some q then n.prev else m.prev } := by
  simp only [remove, hn, hl, if_true, Array.getElem?_modify, getElem?_setPrev, getElem?_setNext,
    unbind_nodes]
  by_cases hq : q = r
  · subst hq
    simp [hn]
  · simp [hq, Ne.symm hq, Function.comp_def]

theorem remove_ends {n : Node} (hn : l.nodes[r]? = some n) (hl : n.linked = true) :
    (l.remove r).first = (if n.prev = none then n.next else l.first)
      ∧ (l.remove r).last = (if n.next = none then n.prev else l.last)
      ∧ (l.remove r).length = l.length - 1 := by
  obtain ⟨-, hf, hla, hc⟩ := unbind_frame l r
  simp [remove, hn, hl, setPrev_ends, setNext_ends, hf, hla, hc]

namespace Spells

/-- Removing a linked node takes its handle out of the sequence. -/
theorem remove (h : l.Spells (xs ++ r :: ys)) : (l.remove r).Spells (xs ++ ys) := by
  obtain ⟨i, hi⟩ := h.node xs r ys rfl
  have hnd : (r :: (xs ++ ys)).Nodup := List.perm_middle.nodup_iff.mp h.nodup
  obtain ⟨hr, hxy⟩ := List.nodup_cons.mp hnd
  obtain ⟨hx, hy, hdis⟩ := List.nodup_append.mp hxy
  obtain ⟨hfirst, hlast, hlen⟩ := remove_ends hi rfl
  refine ⟨hxy, ?_, ?_, ?_, fun xs' q ys' hsplit => ?_, fun q n hq hmem => ?_⟩
  · rw [hfirst, h.first_eq]
    cases xs <;> simp
  · rw [hlast, h.last_eq]
    cases ys using List.reverseRecOn <;> simp [List.getLast?_cons]
  · rw [hlen, h.length_eq]
    simp
  · rw [getElem?_remove hi rfl]
    have hq : q ≠ r := fun e => hr (by rw [hsplit, e]; simp)
    rw [if_neg hq]
    rcases List.append_eq_append_iff.mp hsplit with ⟨zs, rfl, rfl⟩ | ⟨zs, rfl, hz⟩
    · -- behind the removed node only the link back of its neighbour changes
      obtain ⟨j, hj⟩ := h.node (xs ++ r :: zs) q ys' (by simp)
      have hnext : xs.getLast? ≠ some q := fun e =>
        hdis q (List.mem_of_getLast? e) q (by simp) rfl
      refine ⟨j, ?_⟩
      rw [hj]
      simp only [Option.map_some, hnext, if_false, head?_eq_some_iff_of_nodup hy]
      cases zs <;> simp [List.getLast?_append, List.getLast?_cons]
    · cases zs with
      | nil =>
        -- the first node behind the removed one
        obtain rfl : q :: ys' = ys := by simpa using hz
        obtain ⟨j, hj⟩ := h.node (xs' ++ [r]) q ys' (by simp)
        have hnext : xs'.getLast? ≠ some q := fun e =>
          hdis q (by simpa using List.mem_of_getLast? e) q (by simp) rfl
        refine ⟨j, ?_⟩
        rw [hj]
        simp [hnext]
      | cons z zs =>
        -- in front of it only the link forward of its neighbour changes
        obtain ⟨rfl, rfl⟩ : q = z ∧ ys' = zs ++ ys := by simpa using hz
        obtain ⟨j, hj⟩ := h.node xs' q (zs ++ r :: ys) (by simp)
        have hprev : ys.head? ≠ some q := fun e =>
          hdis q (by simp) q (List.mem_of_head? e) rfl
        refine ⟨j, ?_⟩
        rw [hj]
        simp only [Option.map_some, hprev, if_false, getLast?_eq_some_iff_of_nodup hx]
        cases zs <;> simp
  · rw [getElem?_remove hi rfl] at hq
    by_cases hqr : q = r
    · rw [if_pos hqr, Option.some.injEq] at hq
      rw [← hq]
    · rw [if_neg hqr, Option.map_eq_some_iff] at hq
      obtain ⟨m, hm, rfl⟩ := hq
      refine h.unlinked q m hm fun e => hmem ?_
      rcases List.mem_append.mp e with e | e
      · exact List.mem_append_left _ e
      · exact List.mem_append_right _ ((List.mem_cons.mp e).resolve_left hqr)

/-- Removing a handle outside the sequence changes nothing. -/
theorem remove_of_notMem (h : l.Spells rs) (hr : r ∉ rs) : l.remove r = l := by
  unfold Listing.remove
  split
  · rfl
  · next n hn => simp [h.unlinked r n hn hr]

theorem set (h : l.Spells rs) (r : Ref) (i : Insn) : (l.set r i).Spells rs := by
  have hput : ∀ {m : Listing}, m.Spells rs →
      ({ m with nodes := m.nodes.modify r fun n => { n with insn := i } } : Listing).Spells rs := by
    intro m hm
    refine ⟨hm.nodup, hm.first_eq, hm.last_eq, hm.length_eq, fun xs q ys hsplit => ?_,
      fun q n hq hmem => ?_⟩
    · obtain ⟨j, hj⟩ := hm.node xs q ys hsplit
      rw [Array.getElem?_modify, hj]
      by_cases hq : r = q
      · exact ⟨i, by simp [hq]⟩
      · exact ⟨j, by simp [hq]⟩
    · rw [Array.getElem?_modify] at hq
      split at hq
      · obtain ⟨m', hm', rfl⟩ := Option.map_eq_some_iff.mp hq
        exact hm.unlinked q m' hm' hmem
      · exact hm.unlinked q n hq hmem
  unfold Listing.set
  dsimp only
  split
  · exact (hput (h.unbind r)).bind r
  · exact hput h

end Spells

/-! ### The instructions of the sequence -/

theorem Spells.insns_eq (h : l.Spells rs) : l.insns = rs.filterMap l.insn? := by
  rw [insns, h.refs_eq]

/-- Linking a new node gives it its instruction and leaves those of all other nodes alone. -/
theorem insn?_link_alloc (i : Insn) {p s : Option Ref} (hp : p ≠ some l.nodes.size)
    (hs : s ≠ some l.nodes.size) (q : Ref) :
    ((l.alloc i).2.link l.nodes.size p s).insn? q =
      if q = l.nodes.size then some i else l.insn? q := by
  rw [insn?, getElem?_link_alloc l i hp hs]
  by_cases hq : q = l.nodes.size
  · simp [hq]
  · simp [hq, insn?, Function.comp_def]

/-- Removing a node leaves all instructions in the arena. -/
theorem insn?_remove (q : Ref) : (l.remove r).insn? q = l.insn? q := by
  cases hn : l.nodes[r]? with
  | none => simp [remove, hn]
  | some n =>
    by_cases hl : n.linked = true
    · rw [insn?, getElem?_remove hn hl]
      by_cases hq : q = r
      · subst hq
        simp [insn?, hn]
      · simp [hq, insn?, Function.comp_def]
    · simp [remove, hn, hl]

/-- Linked or not, only the replaced node gets another instruction. -/
theorem insn?_set (i : Insn) (q : Ref) :
    (l.set r i).insn? q = if q = r then (l.insn? q).map fun _ => i else l.insn? q := by
  have hput : (l.set r i).nodes = l.nodes.modify r fun n => { n with insn := i } := by
    unfold set
    dsimp only
    split <;> simp
  rw [insn?, hput, Array.getElem?_modify]
  by_cases hq : q = r
  · simp [hq, insn?, Function.comp_def]
  · simp [hq, Ne.symm hq, insn?]

theorem filterMap_insn?_congr {rs : List Ref} (h : ∀ r ∈ rs, l'.insn? r = l.insn? r) :
    rs.filterMap l'.insn? = rs.filterMap l.insn? := List.filterMap_congr h

/-- A new instruction stands where its node was linked. -/
theorem Spells.insns_link (h : l.Spells (xs ++ ys)) (i : Insn) :
    ((l.alloc i).2.link l.nodes.size xs.getLast? ys.head?).insns =
      xs.filterMap l.insn? ++ i :: ys.filterMap l.insn? := by
  have hnew := h.size_notMem
  have hp : xs.getLast? ≠ some l.nodes.size := fun e =>
    hnew (List.mem_append_left _ (List.mem_of_getLast? e))
  have hs : ys.head? ≠ some l.nodes.size := fun e =>
    hnew (List.mem_append_right _ (List.mem_of_head? e))
  have hold : ∀ q ∈ xs ++ ys,
      ((l.alloc i).2.link l.nodes.size xs.getLast? ys.head?).insn? q = l.insn? q := by
    intro q hq
    have hne : q ≠ l.nodes.size := fun e => hnew (e ▸ hq)
    rw [insn?_link_alloc i hp hs, if_neg hne]
  rw [(h.link i).insns_eq, List.filterMap_append, List.filterMap_cons,
    filterMap_insn?_congr fun q hq => hold q (List.mem_append_left _ hq),
    filterMap_insn?_congr fun q hq => hold q (List.mem_append_right _ hq),
    insn?_link_alloc i hp hs, if_pos rfl]

theorem Spells.insns_append (h : l.Spells rs) (i : Insn) :
    (l.append i).2.insns = l.insns ++ [i] := by
  have h' : l.Spells (rs ++ []) := by simpa using h
  have hi := h'.insns_link i
  rw [← h.last_eq, List.head?_nil] at hi
  rw [h.insns_eq]
  exact hi

theorem size_append (l : Listing) (i : Insn) :
    (l.append i).2.nodes.size = l.nodes.size + 1 := by
  have hnext : ∀ (l : Listing) p t, (l.setNext p t).nodes.size = l.nodes.size := by
    intro l p t
    cases p <;> simp [setNext]
  have hprev : ∀ (l : Listing) p t, (l.setPrev p t).nodes.size = l.nodes.size := by
    intro l p t
    cases p <;> simp [setPrev]
  simp [append, link, hnext, hprev, alloc]

/-- Appending instructions one after the other appends their list, on new nodes in order. -/
theorem Spells.appendAll (h : l.Spells rs) (is : List Insn) :
    (l.appendAll is).Spells (rs ++ List.range' l.nodes.size is.length) ∧
      (l.appendAll is).insns = l.insns ++ is := by
  induction is generalizing l rs with
  | nil => exact ⟨by simpa [Listing.appendAll] using h, by simp [Listing.appendAll]⟩
  | cons i is ih =>
    obtain ⟨hs, he⟩ := ih (h.append i)
    rw [h.insns_append] at he
    rw [size_append] at hs
    refine ⟨?_, by simpa [Listing.appendAll] using he⟩
    rw [List.length_cons, List.range'_succ]
    simpa [Listing.appendAll] using hs

theorem Spells.insns_appendAll (h : l.Spells []) (is : List Insn) :
    (l.appendAll is).insns = is := by
  rw [(h.appendAll is).2, h.insns_eq]
  rfl

/-- Labels are handed out all at once. -/
theorem newLabels_eq (l : Listing) (n : Nat) :
    l.newLabels n = { l with bound := l.bound ++ Array.replicate n none } := by
  induction n generalizing l with
  | zero => simp [newLabels]
  | succ n ih =>
    rw [newLabels, ih]
    simp [newLabel, Array.replicate_succ', ← Array.append_assoc]

theorem Spells.newLabels (h : l.Spells rs) (n : Nat) : (l.newLabels n).Spells rs := by
  induction n generalizing l with
  | zero => exact h
  | succ n ih => exact ih h.newLabel

theorem insns_ofInsns (n : Nat) (is : List Insn) : (ofInsns n is).insns = is :=
  (spells_empty.newLabels n).insns_appendAll is

/-- The instructions stand in the order of their nodes. -/
theorem Spells.getElem?_insns (h : l.Spells rs) (k : Nat) :
    l.insns[k]? = (rs[k]?).bind l.insn? := by
  have hmap : ∀ ts : List Ref, (∀ r ∈ ts, ∃ i, l.insn? r = some i) →
      ∀ k : Nat, (ts.filterMap l.insn?)[k]? = (ts[k]?).bind l.insn? := by
    intro ts
    induction ts with
    | nil => simp
    | cons r ts ih =>
      intro hts k
      obtain ⟨i, hi⟩ := hts r (by simp)
      rw [List.filterMap_cons_some hi]
      cases k with
      | zero => simp [hi]
      | succ k => simpa using ih (fun q hq => hts q (by simp [hq])) k
  rw [h.insns_eq]
  exact hmap rs (fun r hr => h.exists_insn hr) k

end ClassWeaver.Listing
