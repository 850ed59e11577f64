import Std.Data.HashSet.Lemmas
import ClassWeaver.Proofs.Codec.Instruction
import ClassWeaver.Proofs.Listing.Labels

/-!
# Outlines

Two listings can differ in their label numbers, in the forms of their instructions and in where
entries without bytes stand, and still be the same code. The outline of a listing is what is left
without these differences: the instructions in general form with positions in place of labels,
the exception and the local variable entries in order, and the line entries sorted by position.

The main result is about reading: the listing that is made of a body with offsets has the outline
of the body, in which offsets are told apart by the number of instructions in front of them
(`Body.outline_listing`).
-/

namespace ClassWeaver

/-! ### Stable sorting -/

section Sorting

variable {α : Type} {key : α → Int}

/-- Sorts by a key and keeps the order of what has the same key. -/
def sortBy (key : α → Int) (xs : List α) : List α := xs.mergeSort fun a b => key a ≤ key b

theorem pairwise_sortBy (key : α → Int) (xs : List α) :
    (sortBy key xs).Pairwise fun a b => key a ≤ key b := by
  have h := @List.pairwise_mergeSort _ (fun a b => decide (key a ≤ key b))
    (fun a b c hab hbc => by simp only [decide_eq_true_eq] at hab hbc ⊢; omega)
    (fun a b => by simp only [Bool.or_eq_true, decide_eq_true_eq]; omega) xs
  exact h.imp fun hab => of_decide_eq_true hab

theorem filter_sortBy (key : α → Int) (xs : List α) (k : Int) :
    (sortBy key xs).filter (fun a => key a = k) = xs.filter fun a => key a = k := by
  have hsub : (xs.filter fun a => key a = k).Sublist (sortBy key xs) := by
    refine List.sublist_mergeSort (fun a b c hab hbc => ?_) (fun a b => ?_) ?_ List.filter_sublist
    · simp only [decide_eq_true_eq] at hab hbc ⊢
      omega
    · simp only [Bool.or_eq_true, decide_eq_true_eq]
      omega
    · refine List.pairwise_of_forall_mem_list fun a ha b hb => ?_
      simp only [List.mem_filter, decide_eq_true_eq] at ha hb ⊢
      omega
  have hfilter := hsub.filter fun a => key a = k
  simp only [List.filter_filter, Bool.and_self] at hfilter
  refine (hfilter.eq_of_length ?_).symm
  exact ((List.mergeSort_perm xs _).filter _).length_eq.symm

/-- Sorted lists are equal if they hold the same under every key. -/
theorem eq_of_sorted {xs ys : List α} (hx : xs.Pairwise fun a b => key a ≤ key b)
    (hy : ys.Pairwise fun a b => key a ≤ key b)
    (h : ∀ k, xs.filter (fun a => key a = k) = ys.filter fun a => key a = k) : xs = ys := by
  induction xs generalizing ys with
  | nil =>
    cases ys with
    | nil => rfl
    | cons b ys => simpa using h (key b)
  | cons a xs ih =>
    cases ys with
    | nil => simpa using h (key a)
    | cons b ys =>
      -- each head is in the other list, so neither has a smaller key
      have hab : b = a ∨ key b ≤ key a := by
        have hmem : a ∈ (b :: ys).filter fun c => key c = key a := by
          rw [← h (key a)]
          simp
        rcases List.mem_cons.mp (List.mem_filter.mp hmem).1 with rfl | hmem
        · exact .inl rfl
        · exact .inr (List.rel_of_pairwise_cons hy hmem)
      have hba : a = b ∨ key a ≤ key b := by
        have hmem : b ∈ (a :: xs).filter fun c => key c = key b := by
          rw [h (key b)]
          simp
        rcases List.mem_cons.mp (List.mem_filter.mp hmem).1 with rfl | hmem
        · exact .inl rfl
        · exact .inr (List.rel_of_pairwise_cons hx hmem)
      have hkey : key a = key b := by
        rcases hab with rfl | hab
        · rfl
        · rcases hba with rfl | hba
          · rfl
          · omega
      -- both are the first under their key
      have heq : a = b := by
        have hhead := h (key a)
        rw [List.filter_cons_of_pos (by simp), List.filter_cons_of_pos (by simp [hkey])] at hhead
        exact (List.cons.inj hhead).1
      subst heq
      congr 1
      refine ih hx.of_cons hy.of_cons fun k => ?_
      have hk := h k
      by_cases hka : key a = k
      · rw [List.filter_cons_of_pos (by simpa using hka),
          List.filter_cons_of_pos (by simpa using hka)] at hk
        exact (List.cons.inj hk).2
      · rwa [List.filter_cons_of_neg (by simpa using hka),
          List.filter_cons_of_neg (by simpa using hka)] at hk

/-- Lists that hold the same under every key are sorted into the same list. -/
theorem sortBy_congr {xs ys : List α}
    (h : ∀ k, xs.filter (fun a => key a = k) = ys.filter fun a => key a = k) :
    sortBy key xs = sortBy key ys := by
  refine eq_of_sorted (pairwise_sortBy key xs) (pairwise_sortBy key ys) fun k => ?_
  rw [filter_sortBy, filter_sortBy, h]

end Sorting

/-! ### Renaming labels -/

namespace Insn

/-- Only the labels that an instruction mentions matter. -/
theorem mapLabels_congr {f g : Label → Label} {i : Insn} (h : ∀ l ∈ i.mentions, f l = g l) :
    i.mapLabels f = i.mapLabels g := by
  obtain ⟨op, x⟩ := i
  cases x <;> simp_all [mapLabels, Operand.mapLabels, mentions, labels, Operand.labels]

/-- Without an operand an instruction is a compact load or store, or in its general form. -/
theorem general_none (op : Opcode) :
    (∃ op' index, (⟨op, .none⟩ : Insn).general = ⟨op', .slot index⟩) ∨
      (⟨op, .none⟩ : Insn).general = ⟨op, .none⟩ := by
  by_cases hload : op.isCompactLoad = true
  · exact .inl (Code.general_of_compact (.inl hload))
  · by_cases hstore : op.isCompactStore = true
    · exact .inl (Code.general_of_compact (.inr hstore))
    · exact .inr ((if_neg hload).trans (if_neg hstore))

theorem general_mapLabels (f : Label → Label) (i : Insn) :
    (i.mapLabels f).general = i.general.mapLabels f := by
  obtain ⟨op, x⟩ := i
  cases x with
  | none =>
    change (⟨op, .none⟩ : Insn).general = (⟨op, .none⟩ : Insn).general.mapLabels f
    rcases general_none op with ⟨op', index, h⟩ | h
    all_goals
      rw [h]
      rfl
  | _ => rfl

theorem general_general (i : Insn) : i.general.general = i.general := by
  obtain ⟨op, x⟩ := i
  cases x with
  | none =>
    rcases general_none op with ⟨op', index, h⟩ | h
    · rw [h]
      rfl
    · rw [h, h]
  | jump target =>
    simp only [general]
    split
    · rfl
    · split
      · rfl
      · rfl
  | method owner name desc onInterface =>
    have hflag : (onInterface || op = .invokeInterface || op = .invokeInterface) =
        (onInterface || op = .invokeInterface) := by rw [Bool.or_assoc, Bool.or_self]
    exact congrArg (fun b => (⟨op, .method owner name desc b⟩ : Insn)) hflag
  | _ => rfl

/-- An entry that places no label mentions those that it refers to. -/
theorem mentions_of_opcode {p : Pool} {i : Insn} (h : i.Encodable p) (hop : i.opcode ≠ .label) :
    i.mentions = i.labels := by
  obtain ⟨op, x⟩ := i
  cases x with
  | label l => exact absurd h hop
  | _ => rfl

theorem mentions_mapLabels {i : Insn} (f : Label → Label) (h : i.mentions = i.labels) :
    (i.mapLabels f).mentions = (i.mapLabels f).labels := by
  obtain ⟨op, x⟩ := i
  cases x with
  | label l => cases h
  | _ => rfl

theorem isReal_general {i : Insn} (h : i.isReal = true) : i.general.isReal = true := by
  obtain ⟨op, x⟩ := i
  cases x with
  | none =>
    simp only [isReal, general, Opcode.isPseudo, Bool.not_eq_true', decide_eq_false_iff_not] at h ⊢
    split
    · change ¬((21 : Int) + _ < 0)
      omega
    · split
      · change ¬((54 : Int) + _ < 0)
        omega
      · exact h
  | jump target =>
    simp only [isReal, general] at h ⊢
    split
    · rfl
    · split
      · rfl
      · exact h
  | constant v => rfl
  | _ => exact h

theorem labels_general (i : Insn) : i.general.labels = i.labels := by
  obtain ⟨op, x⟩ := i
  cases x with
  | none =>
    rcases general_none op with ⟨op', index, h⟩ | h
    · rw [h]
      rfl
    · rw [h]
  | _ => rfl

theorem mentions_general {i : Insn} (h : i.mentions = i.labels) :
    i.general.mentions = i.general.labels := by
  obtain ⟨op, x⟩ := i
  cases x with
  | none =>
    rcases general_none op with ⟨op', index, hgeneral⟩ | hgeneral
    all_goals
      rw [hgeneral]
      rfl
  | label l => cases h
  | _ => rfl

end Insn

/-! ### Positions -/

/-- The position of a label: the number of instructions in front of the entry that places it.
A label that is not placed has none. -/
def position (is : List Insn) (l : Label) : Int :=
  if l ∈ is.filterMap Insn.placed? then
    (is.takeWhile fun i => i.placed? ≠ some l).countP Insn.isReal
  else -1

theorem position_eq {xs ys : List Insn} {i : Insn} {l : Label} (hi : i.placed? = some l)
    (hl : l ∉ xs.filterMap Insn.placed?) : position (xs ++ i :: ys) l = xs.countP Insn.isReal := by
  have hmem : l ∈ (xs ++ i :: ys).filterMap Insn.placed? := by
    rw [List.filterMap_append, List.filterMap_cons_some hi]
    simp
  have hxs : ∀ j ∈ xs, decide (j.placed? ≠ some l) = true := by
    intro j hj
    rw [decide_eq_true_eq]
    intro hp
    exact hl (List.mem_filterMap.mpr ⟨j, hj, hp⟩)
  have htake : ((xs ++ i :: ys).takeWhile fun i => i.placed? ≠ some l) = xs := by
    rw [List.takeWhile_append_of_pos hxs, List.takeWhile_cons_of_neg (by simp [hi]),
      List.append_nil]
  rw [position, if_pos hmem, htake]

/-! ### Outlines -/

/-- What is left of a listing without label numbers, forms of instructions and the places of
entries without bytes. Labels are replaced by their positions. -/
structure Outline where
  insns : List Insn
  handlers : List Insn
  locals : List Insn
  /-- Line entries as position and line, sorted by position. -/
  lines : List (Int × UInt16)
  deriving DecidableEq

/-- Label and line of a line entry. -/
def Insn.line? (i : Insn) : Option (Label × UInt16) :=
  match i.operand with
  | .line number start => if i.opcode = .lineNumber then some (start, number) else none
  | _ => none

theorem Insn.line_of_opcode {p : Pool} {i : Insn} (h : i.Encodable p)
    (hop : i.opcode = .lineNumber) : ∃ number start, i = ⟨.lineNumber, .line number start⟩ := by
  have hshape := (Code.wellShaped_of_encodable h).shape_operand (by rw [hop]; decide)
  obtain ⟨op, x⟩ := i
  obtain rfl : op = .lineNumber := hop
  cases x with
  | line number start => exact ⟨number, start, rfl⟩
  | _ => cases hshape

theorem Insn.line?_of_opcode {i : Insn} (h : i.opcode ≠ .lineNumber) : i.line? = none := by
  unfold line?
  split
  · exact if_neg h
  · rfl

/-- An entry that places no label has none after renaming either. -/
theorem Insn.placed?_mapLabels {i : Insn} (h : i.mentions = i.labels) (f : Label → Label) :
    (i.mapLabels f).placed? = none := by
  obtain ⟨op, x⟩ := i
  cases x with
  | label l => cases h
  | _ => rfl

/-- The entries under an opcode. -/
def entriesUnder (op : Opcode) (is : List Insn) : List Insn := is.filter fun i => i.opcode = op

/-- The outline of a sequence. -/
def outlineOf (is : List Insn) : Outline where
  insns := (is.filter Insn.isReal).map fun i => i.general.mapLabels (position is)
  handlers := (entriesUnder .tryCatch is).map (Insn.mapLabels (position is))
  locals := (entriesUnder .localVariable is).map (Insn.mapLabels (position is))
  lines := sortBy Prod.fst ((is.filterMap Insn.line?).map fun e => (position is e.1, e.2))

/-- The outline of a listing. -/
def Listing.outline (l : Listing) : Outline := outlineOf l.insns

/-- Listings with the same outline have the same instructions up to their forms and labels. -/
theorem Listing.exists_of_outline {l l' : Listing} (h : l'.outline = l.outline) {i' : Insn}
    (hi' : i' ∈ l'.insns) (hreal : i'.isReal = true) :
    ∃ i ∈ l.insns, i.general.mapLabels (position l.insns) =
      i'.general.mapLabels (position l'.insns) := by
  have hmem : i'.general.mapLabels (position l'.insns) ∈ l.outline.insns := by
    rw [← h]
    exact List.mem_map_of_mem (List.mem_filter.mpr ⟨hi', hreal⟩)
  obtain ⟨i, hi, heq⟩ := List.mem_map.mp hmem
  exact ⟨i, (List.mem_filter.mp hi).1, heq⟩

/-! ### Label numbers -/

/-- The labels in `S` are numbered, each with a number of its own. -/
structure Numbers (m : Std.HashMap Label Nat) (S : Label → Prop) : Prop where
  numbered : ∀ l, (∃ n, m[l]? = some n) ↔ S l
  lt_size : ∀ {l : Label} {n : Nat}, m[l]? = some n → n < m.size
  injective : ∀ {l k : Label} {n : Nat}, m[l]? = some n → m[k]? = some n → l = k

section Numbering

variable {m : Std.HashMap Label Nat} {l : Label}

/-- Nothing is numbered anew when a label has its number already. -/
theorem getElem?_insertIfNew_of_mem (hl : l ∈ m) (k : Label) :
    (m.insertIfNew l m.size)[k]? = m[k]? := by
  rw [Std.HashMap.getElem?_insertIfNew, if_neg fun hk => hk.2 hl]

/-- A label that has no number yet takes the next one, and the others keep theirs. -/
theorem getElem?_insertIfNew_eq_some_iff (hl : l ∉ m) {k : Label} {n : Nat} :
    (m.insertIfNew l m.size)[k]? = some n ↔ k = l ∧ n = m.size ∨ m[k]? = some n := by
  rw [Std.HashMap.getElem?_insertIfNew]
  by_cases hk : k = l
  · subst hk
    rw [if_pos ⟨beq_self_eq_true _, hl⟩, Std.HashMap.getElem?_eq_none hl]
    simp [eq_comm]
  · rw [if_neg fun he => hk (eq_of_beq he.1).symm]
    simp [hk]

theorem Numbers.insertIfNew {S : Label → Prop} (h : Numbers m S) (l : Label) :
    Numbers (m.insertIfNew l m.size) fun k => k = l ∨ S k := by
  by_cases hl : l ∈ m
  · have hS : S l := (h.numbered l).mp ⟨m[l], Std.HashMap.getElem?_eq_some_getElem hl⟩
    have hsize : (m.insertIfNew l m.size).size = m.size := by
      rw [Std.HashMap.size_insertIfNew, if_pos hl]
    refine ⟨fun k => ?_, fun hk => ?_, fun hk hk' => ?_⟩
    · rw [getElem?_insertIfNew_of_mem hl, h.numbered]
      exact ⟨.inr, fun hk => hk.elim (fun e => e ▸ hS) id⟩
    · rw [getElem?_insertIfNew_of_mem hl] at hk
      rw [hsize]
      exact h.lt_size hk
    · rw [getElem?_insertIfNew_of_mem hl] at hk hk'
      exact h.injective hk hk'
  · have hsize : (m.insertIfNew l m.size).size = m.size + 1 := by
      rw [Std.HashMap.size_insertIfNew, if_neg hl]
    refine ⟨fun k => ?_, fun hk => ?_, fun hj hk => ?_⟩
    · simp only [getElem?_insertIfNew_eq_some_iff hl, exists_or, exists_and_left,
        exists_eq, and_true, h.numbered]
    · rw [hsize]
      rcases (getElem?_insertIfNew_eq_some_iff hl).mp hk with ⟨-, rfl⟩ | hk
      · exact Nat.lt_succ_self _
      · exact Nat.lt_succ_of_lt (h.lt_size hk)
    · -- the new number is that of no other label
      rw [getElem?_insertIfNew_eq_some_iff hl] at hj hk
      rcases hj with ⟨rfl, rfl⟩ | hj <;> rcases hk with ⟨rfl, hn⟩ | hk
      · rfl
      · exact absurd (h.lt_size hk) (Nat.lt_irrefl _)
      · exact absurd (h.lt_size hj) (Nat.not_lt.mpr (Nat.le_of_eq hn.symm))
      · exact h.injective hj hk

end Numbering

theorem numbers_labelNumbers (labels : List Label) :
    Numbers (labelNumbers labels) (· ∈ labels) := by
  have hfold : ∀ (labels : List Label) (m : Std.HashMap Label Nat) (S : Label → Prop),
      Numbers m S → Numbers (labels.foldl (fun m l => m.insertIfNew l m.size) m)
        fun k => S k ∨ k ∈ labels := by
    intro labels
    induction labels with
    | nil =>
      intro m S h
      simpa using h
    | cons l rest ih =>
      intro m S h
      have hrest := ih _ _ (h.insertIfNew l)
      simp only [or_assoc, or_left_comm (a := _ = l)] at hrest
      simpa [or_left_comm] using hrest
  have hempty : Numbers ∅ fun _ => False :=
    ⟨fun l => by simp, fun h => by simp at h, fun h => by simp at h⟩
  simpa [labelNumbers] using hfold labels ∅ _ hempty

/-- Every number below the size is that of a label. -/
theorem exists_of_lt_size {labels : List Label} {n : Nat} (h : n < (labelNumbers labels).size) :
    ∃ l : Label, (labelNumbers labels)[l]? = some n := by
  refine List.foldlRecOn (motive := fun m => ∀ n < m.size, ∃ k : Label, m[k]? = some n)
    labels _ (by simp) (fun m hm l _ n hn => ?_) n h
  by_cases hl : l ∈ m
  · rw [Std.HashMap.size_insertIfNew, if_pos hl] at hn
    exact (hm n hn).imp fun k hk => (getElem?_insertIfNew_of_mem hl k).trans hk
  · rw [Std.HashMap.size_insertIfNew, if_neg hl] at hn
    simp only [getElem?_insertIfNew_eq_some_iff hl]
    rcases Nat.lt_succ_iff_lt_or_eq.mp hn with hn | rfl
    · exact (hm n hn).imp fun k hk => .inr hk
    · exact ⟨l, .inl ⟨rfl, rfl⟩⟩

/-! ### Bodies -/

namespace Code.Body

/-- The number of instructions in front of an offset. -/
def rank (b : Body) (o : Int) : Int := b.insns.countP fun e => (e.1 : Int) < o

/-- The outline of a body with offsets. -/
def outline (b : Body) : Outline where
  insns := b.insns.map fun e => e.2.general.mapLabels b.rank
  handlers := b.handlers.map (Insn.mapLabels b.rank)
  locals := b.tables.locals.toList.map (Insn.mapLabels b.rank)
  lines := sortBy Prod.fst (b.tables.lines.toList.map fun e => (b.rank e.1, e.2))

/-- Instructions follow each other up to the end of the code, every entry is of its kind, and the
offsets of all tables are listed. -/
structure Orderly (b : Body) : Prop where
  sorted : b.insns.Pairwise fun e e' => e.1 < e'.1
  below : ∀ e ∈ b.insns, e.1 < b.size
  real : ∀ e ∈ b.insns, e.2.isReal = true ∧ e.2.mentions = e.2.labels
  handler : ∀ i ∈ b.handlers, i.opcode = .tryCatch ∧ i.mentions = i.labels
  localVariable : ∀ i ∈ b.tables.locals, i.opcode = .localVariable ∧ i.mentions = i.labels
  localOffset : ∀ i ∈ b.tables.locals, ∀ o ∈ i.labels, o ∈ b.tables.offsets
  lineOffset : ∀ e ∈ b.tables.lines, (e.1 : Label) ∈ b.tables.offsets

section Sequence

variable (b : Body) (m : Std.HashMap Label Nat)

/-- The number of an offset as a label. -/
def number (o : Label) : Label := m.getD o 0

/-- The lines of an offset in order. -/
def linesAt (pc : Nat) : List UInt16 :=
  (b.tables.lines.toList.filter fun e => e.1 = pc).map Prod.snd

/-- The entries in front of the instruction at an offset. -/
def entriesAt (pc : Nat) : List Insn :=
  match m[(pc : Label)]? with
  | some l => .place l :: (b.linesByOffset.getD pc []).map fun line => .line line l
  | none => []

theorem linesByOffset_getD (pc : Nat) : b.linesByOffset.getD pc [] = b.linesAt pc := by
  unfold linesByOffset linesAt
  rw [← Array.foldr_toList]
  induction b.tables.lines.toList with
  | nil => simp
  | cons e rest ih =>
    rw [List.foldr_cons]
    dsimp only
    rw [Std.HashMap.getD_insert]
    by_cases he : e.1 = pc
    · subst he
      rw [if_pos (beq_self_eq_true _), ih, List.filter_cons_of_pos (by simp), List.map_cons]
    · rw [if_neg (by simpa using he), ih, List.filter_cons_of_neg (by simpa using he)]

/-- The instructions of a stretch of the code, each with the entries in front of it. -/
def stretch (b : Body) (m : Std.HashMap Label Nat) (es : List (Nat × Insn)) : List Insn :=
  es.flatMap fun e => b.entriesAt m e.1 ++ [e.2.mapLabels (number m)]

theorem stretch_cons (e : Nat × Insn) (es : List (Nat × Insn)) :
    b.stretch m (e :: es) =
      b.entriesAt m e.1 ++ e.2.mapLabels (number m) :: b.stretch m es := by
  rw [stretch, List.flatMap_cons, List.append_assoc]
  rfl

theorem stretch_append (es fs : List (Nat × Insn)) :
    b.stretch m (es ++ fs) = b.stretch m es ++ b.stretch m fs :=
  List.flatMap_append

theorem sequence_eq :
    b.sequence m = b.handlers.map (Insn.mapLabels (number m)) ++
      (b.stretch m b.insns ++
        (b.entriesAt m b.size ++ b.tables.locals.toList.map (Insn.mapLabels (number m)))) := by
  simp only [sequence, List.append_assoc]
  rfl

variable {m} in
theorem number_of_some {o : Label} {n : Nat} (h : m[o]? = some n) : number m o = n := by
  rw [number, Std.HashMap.getD_eq_getD_getElem?, h, Option.getD_some]

theorem entriesAt_of_some {pc n : Nat} (h : m[(pc : Label)]? = some n) :
    b.entriesAt m pc =
      .place (number m pc) :: (b.linesAt pc).map fun line => .line line (number m pc) := by
  rw [entriesAt, h, linesByOffset_getD, number_of_some h]

theorem entriesAt_of_none {pc : Nat} (h : m[(pc : Label)]? = none) : b.entriesAt m pc = [] := by
  rw [entriesAt, h]

variable {b m}

theorem opcode_of_mem_entriesAt {pc : Nat} {i : Insn} (h : i ∈ b.entriesAt m pc) :
    i.opcode = .label ∨ i.opcode = .lineNumber := by
  cases hm : m[(pc : Label)]? with
  | none =>
    rw [entriesAt_of_none b m hm] at h
    cases h
  | some n =>
    rw [entriesAt_of_some b m hm, List.mem_cons, List.mem_map] at h
    rcases h with rfl | ⟨line, -, rfl⟩
    · exact .inl rfl
    · exact .inr rfl

theorem filter_of_opcode {is : List Insn} {P : Opcode → Bool} {v : Bool}
    (h : ∀ i ∈ is, P i.opcode = v) :
    (is.filter fun i => P i.opcode) = if v then is else [] := by
  cases v with
  | true => exact List.filter_eq_self.mpr h
  | false => exact List.filter_eq_nil_iff.mpr fun i hi => by rw [h i hi]; decide

/-- Only label and line entries stand in front of an instruction. -/
theorem filter_entriesAt {P : Opcode → Bool} (hlabel : P .label = false)
    (hline : P .lineNumber = false) (pc : Nat) :
    (b.entriesAt m pc).filter (fun i => P i.opcode) = [] := by
  refine filter_of_opcode (v := false) fun i hi => ?_
  rcases opcode_of_mem_entriesAt hi with hi | hi
  · rw [hi, hlabel]
  · rw [hi, hline]

theorem filter_mapLabels (P : Opcode → Bool) (f : Label → Label) (is : List Insn) :
    (is.map (Insn.mapLabels f)).filter (fun i => P i.opcode) =
      (is.filter fun i => P i.opcode).map (Insn.mapLabels f) :=
  List.filter_map

theorem filter_stretch {P : Opcode → Bool} (hlabel : P .label = false)
    (hline : P .lineNumber = false) (es : List (Nat × Insn)) :
    (b.stretch m es).filter (fun i => P i.opcode) =
      ((es.map Prod.snd).filter fun i => P i.opcode).map (Insn.mapLabels (number m)) := by
  induction es with
  | nil => rfl
  | cons e es ih =>
    rw [stretch_cons, List.filter_append, filter_entriesAt hlabel hline, List.nil_append,
      List.map_cons, ← filter_mapLabels, List.map_cons, List.filter_cons, List.filter_cons, ih,
      filter_mapLabels]

/-- What a sequence holds under some opcodes, which are all instructions or none, and neither
label nor line entries. -/
theorem filter_sequence (ho : b.Orderly) {P : Opcode → Bool} {v : Bool}
    (hlabel : P .label = false) (hline : P .lineNumber = false)
    (hreal : ∀ op : Opcode, op.isPseudo = false → P op = v) :
    (b.sequence m).filter (fun i => P i.opcode) =
      (if P .tryCatch then b.handlers else []).map (Insn.mapLabels (number m)) ++
        ((if v then b.insns.map Prod.snd else []).map (Insn.mapLabels (number m)) ++
          (if P .localVariable then b.tables.locals.toList else []).map
            (Insn.mapLabels (number m))) := by
  rw [sequence_eq, List.filter_append, List.filter_append, List.filter_append, filter_mapLabels,
    filter_mapLabels, filter_entriesAt hlabel hline, filter_stretch hlabel hline, List.nil_append]
  congr 2
  · exact filter_of_opcode fun i hi => by rw [(ho.handler i hi).1]
  · congr 1
    refine filter_of_opcode (List.forall_mem_map.mpr fun e he => hreal _ ?_)
    simpa [Insn.isReal] using (ho.real e he).1
  · congr 1
    exact filter_of_opcode fun i hi => by
      rw [(ho.localVariable i (Array.mem_toList_iff.mp hi)).1]

theorem ne_of_isReal {i : Insn} {op : Opcode} (h : i.isReal = true) (hop : op.isPseudo = true) :
    i.opcode ≠ op := by
  rintro rfl
  rw [Insn.isReal, hop] at h
  cases h

theorem filter_sequence_real (ho : b.Orderly) :
    (b.sequence m).filter Insn.isReal =
      (b.insns.map Prod.snd).map (Insn.mapLabels (number m)) := by
  have h := filter_sequence (m := m) ho (P := fun op => !op.isPseudo) (v := true) rfl rfl
    fun op hop => by rw [hop]; rfl
  rw [if_neg (by decide), if_pos rfl, if_neg (by decide), List.map_nil, List.nil_append,
    List.append_nil] at h
  exact h

theorem entriesUnder_tryCatch (ho : b.Orderly) :
    entriesUnder .tryCatch (b.sequence m) = b.handlers.map (Insn.mapLabels (number m)) := by
  have h := filter_sequence (m := m) ho (P := fun op => op = .tryCatch) (v := false) rfl rfl
    fun op hop => decide_eq_false (by rintro rfl; exact absurd hop (by decide))
  rw [if_pos (by decide), if_neg (by decide), if_neg (by decide), List.map_nil, List.append_nil,
    List.append_nil] at h
  exact h

theorem entriesUnder_localVariable (ho : b.Orderly) :
    entriesUnder .localVariable (b.sequence m) =
      b.tables.locals.toList.map (Insn.mapLabels (number m)) := by
  have h := filter_sequence (m := m) ho (P := fun op => op = .localVariable) (v := false) rfl rfl
    fun op hop => decide_eq_false (by rintro rfl; exact absurd hop (by decide))
  rw [if_neg (by decide), if_neg (by decide), if_pos (by decide), List.map_nil, List.nil_append,
    List.nil_append] at h
  exact h

/-! Where labels are placed and lines noted. -/

/-- The sequence, seen from one of the instructions. -/
theorem sequence_of_split {xs ys : List (Nat × Insn)} {e : Nat × Insn}
    (h : b.insns = xs ++ e :: ys) :
    b.sequence m = b.handlers.map (Insn.mapLabels (number m)) ++
      (b.stretch m xs ++ (b.entriesAt m e.1 ++ (e.2.mapLabels (number m) ::
        (b.stretch m ys ++ (b.entriesAt m b.size ++
          b.tables.locals.toList.map (Insn.mapLabels (number m))))))) := by
  rw [sequence_eq, h, stretch_append, stretch_cons]
  simp only [List.append_assoc, List.cons_append]

theorem countP_stretch {es : List (Nat × Insn)} (hes : ∀ e ∈ es, e.2.isReal = true) :
    (b.stretch m es).countP Insn.isReal = es.length := by
  induction es with
  | nil => rfl
  | cons e es ih =>
    have hentries : (b.entriesAt m e.1).countP Insn.isReal = 0 := by
      refine List.countP_eq_zero.mpr fun i hi => ?_
      rcases opcode_of_mem_entriesAt hi with hi | hi <;> rw [Insn.isReal, hi] <;> decide
    have hreal : (e.2.mapLabels (number m)).isReal = true := hes e List.mem_cons_self
    rw [stretch_cons, List.countP_append, hentries, List.countP_cons_of_pos hreal,
      ih fun e he => hes e (List.mem_cons_of_mem _ he), List.length_cons, Nat.zero_add]

/-- A stretch places the numbers of the offsets of its instructions only. -/
theorem mem_placed_stretch {es : List (Nat × Insn)}
    (hes : ∀ e ∈ es, e.2.mentions = e.2.labels) {l : Label}
    (h : l ∈ (b.stretch m es).filterMap Insn.placed?) :
    ∃ e ∈ es, ∃ n : Nat, m[(e.1 : Label)]? = some n ∧ l = n := by
  obtain ⟨i, hi, hl⟩ := List.mem_filterMap.mp h
  obtain ⟨e, he, hi⟩ := List.mem_flatMap.mp hi
  refine ⟨e, he, ?_⟩
  rcases List.mem_append.mp hi with hi | hi
  · cases hm : m[(e.1 : Label)]? with
    | none =>
      rw [entriesAt_of_none b m hm] at hi
      cases hi
    | some n =>
      refine ⟨n, rfl, ?_⟩
      rw [entriesAt, hm, List.mem_cons, List.mem_map] at hi
      rcases hi with rfl | ⟨line, -, rfl⟩
      · exact (Option.some.inj hl).symm
      · cases hl
  · obtain rfl := List.mem_singleton.mp hi
    rw [Insn.placed?_mapLabels (hes e he)] at hl
    cases hl

theorem placed_handlers (ho : b.Orderly) :
    (b.handlers.map (Insn.mapLabels (number m))).filterMap Insn.placed? = [] := by
  rw [List.filterMap_eq_nil_iff, List.forall_mem_map]
  exact fun i hi => Insn.placed?_mapLabels (ho.handler i hi).2 _

theorem countP_handlers (ho : b.Orderly) :
    (b.handlers.map (Insn.mapLabels (number m))).countP Insn.isReal = 0 := by
  rw [List.countP_eq_zero, List.forall_mem_map]
  intro i hi
  rw [Insn.isReal, Insn.mapLabels, (ho.handler i hi).1]
  decide

/-- A label is placed in front of the instruction whose offset it stands for. -/
theorem position_number {S : Label → Prop} (hm : Numbers m S) (ho : b.Orderly)
    {es : List (Nat × Insn)} {pc : Nat} {tail : List Insn}
    (hes : ∀ e ∈ es, e ∈ b.insns ∧ e.1 ≠ pc) (hpc : S pc) :
    position (b.handlers.map (Insn.mapLabels (number m)) ++
      (b.stretch m es ++ (b.entriesAt m pc ++ tail))) (number m pc) = es.length := by
  obtain ⟨n, hn⟩ := (hm.numbered pc).mpr hpc
  have hnumber : number m pc = n := number_of_some hn
  rw [entriesAt_of_some b m hn, List.cons_append, ← List.append_assoc]
  have hfresh : number m pc ∉ (b.handlers.map (Insn.mapLabels (number m)) ++
      b.stretch m es).filterMap Insn.placed? := by
    rw [List.filterMap_append, placed_handlers ho, List.nil_append]
    intro hmem
    obtain ⟨e, he, k, hk, heq⟩ := mem_placed_stretch (fun e he => (ho.real e (hes e he).1).2) hmem
    rw [hnumber] at heq
    obtain rfl : n = k := by exact_mod_cast heq
    exact (hes e he).2 (by exact_mod_cast hm.injective hk hn)
  rw [position_eq rfl hfresh, List.countP_append, countP_handlers ho, Nat.zero_add,
    countP_stretch fun e he => (ho.real e (hes e he).1).1]

/-- Where an instruction starts, or the end of the code. -/
def Boundary (b : Body) (o : Label) : Prop := o = b.size ∨ ∃ e ∈ b.insns, o = e.1

theorem boundary_of_misplaced? (h : b.misplaced? = none) {o : Label} (ho : o ∈ b.offsets) :
    b.Boundary o := by
  have hmem := List.find?_eq_none.mp h o ho
  rw [Bool.not_eq_true, Bool.not_eq_false', boundaries, Std.HashSet.contains_insert,
    Bool.or_eq_true, Std.HashSet.contains_ofList, List.contains_eq_mem, decide_eq_true_eq] at hmem
  rcases hmem with hsize | hmem
  · exact .inl (eq_of_beq hsize).symm
  · obtain ⟨e, he, heq⟩ := List.mem_map.mp hmem
    exact .inr ⟨e, he, heq.symm⟩

/-- A body with a listing has boundaries for offsets, and its sequence is that of the listing. -/
theorem listing_eq_ok {l : Listing} (h : b.listing = .ok l) :
    (∀ o ∈ b.offsets, b.Boundary o) ∧
      l = .ofInsns (labelNumbers b.offsets).size (b.sequence (labelNumbers b.offsets)) := by
  unfold listing at h
  split at h
  · cases h
  · next hplaced =>
    exact ⟨fun o ho => boundary_of_misplaced? hplaced ho, (Except.ok.inj h).symm⟩

theorem rank_insn (ho : b.Orderly) {xs ys : List (Nat × Insn)} {e : Nat × Insn}
    (h : b.insns = xs ++ e :: ys) : b.rank e.1 = xs.length := by
  have hsorted := ho.sorted
  rw [h, List.pairwise_append] at hsorted
  obtain ⟨-, htail, hcross⟩ := hsorted
  have hxs : xs.countP (fun d => decide ((d.1 : Int) < e.1)) = xs.length := by
    refine List.countP_eq_length.mpr fun d hd => decide_eq_true ?_
    exact_mod_cast hcross d hd e List.mem_cons_self
  have hys : (e :: ys).countP (fun d => decide ((d.1 : Int) < e.1)) = 0 := by
    refine List.countP_eq_zero.mpr fun d hd => ?_
    rw [decide_eq_true_eq]
    rcases List.mem_cons.mp hd with rfl | hd
    · exact Int.lt_irrefl _
    · have := List.rel_of_pairwise_cons htail hd
      omega
  rw [rank, h, List.countP_append, hxs, hys, Nat.add_zero]

theorem rank_size (ho : b.Orderly) : b.rank b.size = b.insns.length := by
  rw [rank, List.countP_eq_length.mpr fun d hd => decide_eq_true ?_]
  exact_mod_cast ho.below d hd

/-- In the sequence of a body a label has the position of its offset. -/
theorem position_sequence {S : Label → Prop} (hm : Numbers m S) (ho : b.Orderly) {o : Label}
    (hS : S o) (hb : b.Boundary o) : position (b.sequence m) (number m o) = b.rank o := by
  rcases hb with rfl | ⟨e, he, rfl⟩
  · rw [rank_size ho, sequence_eq]
    exact position_number hm ho (fun e he => ⟨he, Nat.ne_of_lt (ho.below e he)⟩) hS
  · obtain ⟨xs, ys, hsplit⟩ := List.append_of_mem he
    have hne : ∀ d ∈ xs, d ∈ b.insns ∧ d.1 ≠ e.1 := by
      intro d hd
      refine ⟨by rw [hsplit]; exact List.mem_append_left _ hd, ?_⟩
      have hsorted := ho.sorted
      rw [hsplit, List.pairwise_append] at hsorted
      exact Nat.ne_of_lt (hsorted.2.2 d hd e List.mem_cons_self)
    rw [rank_insn ho hsplit, sequence_of_split hsplit]
    exact position_number hm ho hne hS

/-! ### Lines -/

/-- The line entries of an offset. -/
def lineEntries (b : Body) (pc : Nat) : List (Nat × UInt16) :=
  b.tables.lines.toList.filter fun e => e.1 = pc

theorem lines_entriesAt {S : Label → Prop} (hm : Numbers m S)
    (hlines : ∀ e ∈ b.tables.lines, S e.1) (pc : Nat) :
    (b.entriesAt m pc).filterMap Insn.line? =
      (b.lineEntries pc).map fun e => (number m e.1, e.2) := by
  cases hpc : m[(pc : Label)]? with
  | none =>
    have hnil : b.lineEntries pc = [] := by
      refine List.filter_eq_nil_iff.mpr fun e he => ?_
      rw [decide_eq_true_eq]
      rintro rfl
      obtain ⟨n, hn⟩ := (hm.numbered e.1).mpr (hlines e (Array.mem_toList_iff.mp he))
      rw [hpc] at hn
      cases hn
    rw [entriesAt_of_none b m hpc, hnil]
    rfl
  | some n =>
    have hplace : (Insn.place (number m pc)).line? = none := rfl
    have hline : ∀ line, (Insn.line line (number m pc)).line? = some (number m pc, line) :=
      fun _ => rfl
    rw [entriesAt_of_some b m hpc, List.filterMap_cons_none hplace, List.filterMap_map, linesAt,
      List.filterMap_map]
    simp only [Function.comp_def, hline]
    rw [List.filterMap_eq_map']
    refine List.map_congr_left fun e he => ?_
    rw [of_decide_eq_true (List.mem_filter.mp he).2]

/-- Where the code can be entered: the starts of its instructions, and its end. -/
def bounds (b : Body) : List Nat := b.insns.map Prod.fst ++ [b.size]

theorem lines_stretch {S : Label → Prop} (hm : Numbers m S)
    (hlines : ∀ e ∈ b.tables.lines, S e.1) {es : List (Nat × Insn)}
    (hes : ∀ e ∈ es, e.2.isReal = true) :
    (b.stretch m es).filterMap Insn.line? =
      ((es.map Prod.fst).flatMap b.lineEntries).map fun e => (number m e.1, e.2) := by
  induction es with
  | nil => rfl
  | cons e es ih =>
    have hreal : (e.2.mapLabels (number m)).line? = none :=
      Insn.line?_of_opcode (ne_of_isReal (hes e List.mem_cons_self) (by decide))
    rw [stretch_cons, List.filterMap_append, List.filterMap_cons_none hreal,
      lines_entriesAt hm hlines, ih fun e he => hes e (List.mem_cons_of_mem _ he), List.map_cons,
      List.flatMap_cons, List.map_append]

theorem lines_sequence {S : Label → Prop} (hm : Numbers m S) (ho : b.Orderly)
    (hlines : ∀ e ∈ b.tables.lines, S e.1) :
    (b.sequence m).filterMap Insn.line? =
      (b.bounds.flatMap b.lineEntries).map fun e => (number m e.1, e.2) := by
  have hnone : ∀ is : List Insn, (∀ i ∈ is, i.opcode ≠ .lineNumber) →
      (is.map (Insn.mapLabels (number m))).filterMap Insn.line? = [] := by
    intro is his
    rw [List.filterMap_eq_nil_iff, List.forall_mem_map]
    exact fun i hi => Insn.line?_of_opcode (his i hi)
  rw [sequence_eq, List.filterMap_append, List.filterMap_append, List.filterMap_append,
    lines_stretch hm hlines fun e he => (ho.real e he).1, lines_entriesAt hm hlines,
    hnone b.handlers fun i hi => by rw [(ho.handler i hi).1]; decide,
    hnone b.tables.locals.toList fun i hi => by
      rw [(ho.localVariable i (Array.mem_toList_iff.mp hi)).1]; decide,
    List.nil_append, List.append_nil, bounds, List.flatMap_append, List.map_append]
  simp

/-- More instructions are in front of an offset behind an instruction. -/
theorem rank_lt (ho : b.Orderly) {e : Nat × Insn} (he : e ∈ b.insns) {o : Nat} (h : e.1 < o) :
    b.rank e.1 < b.rank o := by
  obtain ⟨xs, ys, hsplit⟩ := List.append_of_mem he
  have hsorted := ho.sorted
  rw [hsplit, List.pairwise_append] at hsorted
  have hxs : xs.countP (fun d => decide ((d.1 : Int) < o)) = xs.length := by
    refine List.countP_eq_length.mpr fun d hd => decide_eq_true ?_
    have := hsorted.2.2 d hd e List.mem_cons_self
    omega
  have he : (decide ((e.1 : Int) < o)) = true := decide_eq_true (by exact_mod_cast h)
  rw [rank_insn ho hsplit, rank, hsplit, List.countP_append, hxs, List.countP_cons, if_pos he]
  omega

theorem rank_bounds (ho : b.Orderly) :
    b.bounds.Pairwise fun (pc pc' : Nat) => b.rank pc ≠ b.rank pc' := by
  refine List.pairwise_append.mpr ⟨?_, List.pairwise_singleton _ _, ?_⟩
  · refine List.pairwise_map.mpr (ho.sorted.imp_of_mem fun he _ hlt => ?_)
    exact Int.ne_of_lt (rank_lt ho he hlt)
  · rw [List.forall_mem_map]
    intro e he pc hpc
    obtain rfl := List.mem_singleton.mp hpc
    exact Int.ne_of_lt (rank_lt ho he (ho.below e he))

/-- Going through the boundaries sorts entries into those of one boundary after the other, and
leaves the order of those at the same boundary. -/
theorem filter_lineEntries {es : List (Nat × UInt16)} {bounds : List Nat} {r : Nat → Int}
    (hr : bounds.Pairwise fun pc pc' => r pc ≠ r pc') (hes : ∀ e ∈ es, e.1 ∈ bounds) (k : Int) :
    (bounds.flatMap fun pc => es.filter fun e => e.1 = pc).filter (fun e => r e.1 = k) =
      es.filter fun e => r e.1 = k := by
  have hnil : ∀ pcs : List Nat, (∀ pc ∈ pcs, r pc ≠ k) →
      (pcs.flatMap fun pc => es.filter fun e => e.1 = pc).filter (fun e => r e.1 = k) = [] := by
    intro pcs hpcs
    refine List.filter_eq_nil_iff.mpr fun e he => ?_
    obtain ⟨pc, hpc, he⟩ := List.mem_flatMap.mp he
    rw [of_decide_eq_true (List.mem_filter.mp he).2, decide_eq_true_eq]
    exact hpcs pc hpc
  -- one boundary at most has the position, and all entries of that position are its own
  by_cases hk : ∃ pc ∈ bounds, r pc = k
  · obtain ⟨pc, hpc, rfl⟩ := hk
    obtain ⟨xs, ys, rfl⟩ := List.append_of_mem hpc
    rw [List.pairwise_append] at hr
    have hxs : ∀ q ∈ xs, r q ≠ r pc := fun q hq => hr.2.2 q hq pc List.mem_cons_self
    have hys : ∀ q ∈ ys, r q ≠ r pc := fun q hq => (List.rel_of_pairwise_cons hr.2.1 hq).symm
    rw [List.flatMap_append, List.flatMap_cons, List.filter_append, List.filter_append,
      hnil xs hxs, hnil ys hys, List.nil_append, List.append_nil, List.filter_filter]
    refine List.filter_congr fun e he => ?_
    by_cases heq : e.1 = pc
    · simp [heq]
    · have hne : r e.1 ≠ r pc := by
        rcases List.mem_append.mp (hes e he) with hmem | hmem
        · exact hxs _ hmem
        · exact hys _ ((List.mem_cons.mp hmem).resolve_left heq)
      simp [heq, hne]
  · have hk : ∀ pc ∈ bounds, r pc ≠ k := fun pc hpc h => hk ⟨pc, hpc, h⟩
    rw [hnil bounds hk]
    refine (List.filter_eq_nil_iff.mpr fun e he => ?_).symm
    rw [decide_eq_true_eq]
    exact hk _ (hes e he)

/-! ### The outline of a sequence -/

theorem mem_offsetsOf {i : Insn} {o : Label} : o ∈ offsetsOf i ↔ o ∈ i.labels := by
  unfold offsetsOf Insn.labels
  split
  · next h => rw [h]; simp [Operand.labels, or_comm]
  · next h => rw [h]; simp [Operand.labels, or_comm]
  · rfl

/-- The sequence of a body has its outline. -/
theorem outline_sequence (ho : b.Orderly) (hb : ∀ o ∈ b.offsets, b.Boundary o)
    (hm : Numbers m (· ∈ b.offsets)) : outlineOf (b.sequence m) = b.outline := by
  have hpos : ∀ o ∈ b.offsets, position (b.sequence m) (number m o) = b.rank o := fun o h =>
    position_sequence hm ho h (hb o h)
  -- an entry whose labels are offsets of the body
  have hrename : ∀ i : Insn, i.mentions = i.labels → (∀ o ∈ i.labels, o ∈ b.offsets) →
      (i.mapLabels (number m)).mapLabels (position (b.sequence m)) = i.mapLabels b.rank := by
    intro i hi hlabels
    rw [Insn.mapLabels_mapLabels]
    refine Insn.mapLabels_congr fun o h => hpos o (hlabels o ?_)
    rwa [← hi]
  have htable : ∀ o ∈ b.tables.offsets, o ∈ b.offsets := fun o h =>
    List.mem_append_right _ (Array.mem_toList_iff.mpr h)
  rw [outlineOf, outline]
  congr 1
  · rw [filter_sequence_real ho, List.map_map, List.map_map]
    refine List.map_congr_left fun e he => ?_
    change (e.2.mapLabels (number m)).general.mapLabels _ = _
    rw [Insn.general_mapLabels]
    refine hrename _ (Insn.mentions_general (ho.real e he).2) fun o h => ?_
    rw [Insn.labels_general] at h
    exact List.mem_append_left _ (List.mem_append_left _
      (List.mem_flatMap.mpr ⟨e, he, mem_offsetsOf.mpr h⟩))
  · rw [entriesUnder_tryCatch ho, List.map_map]
    refine List.map_congr_left fun i hi => hrename i (ho.handler i hi).2 fun o h => ?_
    exact List.mem_append_left _ (List.mem_append_right _ (List.mem_flatMap.mpr ⟨i, hi, h⟩))
  · rw [entriesUnder_localVariable ho, List.map_map]
    refine List.map_congr_left fun i hi => ?_
    have hi := Array.mem_toList_iff.mp hi
    exact hrename i (ho.localVariable i hi).2 fun o h => htable o (ho.localOffset i hi o h)
  · have hlines : ∀ e ∈ b.tables.lines, (e.1 : Label) ∈ b.offsets := fun e he =>
      htable _ (ho.lineOffset e he)
    have hbounds : ∀ e ∈ b.tables.lines.toList, e.1 ∈ b.bounds := by
      intro e he
      rcases hb _ (hlines e (Array.mem_toList_iff.mp he)) with hsize | ⟨d, hd, hpc⟩
      · exact List.mem_append_right _ (List.mem_singleton.mpr (by exact_mod_cast hsize))
      · refine List.mem_append_left _ (List.mem_map.mpr ⟨d, hd, ?_⟩)
        exact_mod_cast hpc.symm
    have hmap : ((b.bounds.flatMap b.lineEntries).map fun e => (number m e.1, e.2)).map
        (fun e => (position (b.sequence m) e.1, e.2)) =
          (b.bounds.flatMap b.lineEntries).map fun e => (b.rank e.1, e.2) := by
      rw [List.map_map]
      refine List.map_congr_left fun e he => ?_
      obtain ⟨pc, -, he⟩ := List.mem_flatMap.mp he
      have he := Array.mem_toList_iff.mp (List.mem_filter.mp he).1
      exact congrArg (·, e.2) (hpos _ (hlines e he))
    rw [lines_sequence hm ho hlines, hmap]
    refine sortBy_congr fun k => ?_
    rw [List.filter_map, List.filter_map]
    exact congrArg (List.map _) (filter_lineEntries (rank_bounds ho) hbounds k)

/-- The listing of a body whose offsets are boundaries has its outline. -/
theorem outline_listing (ho : b.Orderly) (hb : ∀ o ∈ b.offsets, b.Boundary o) :
    ∃ l, b.listing = .ok l ∧ l.outline = b.outline := by
  have hplaced : b.misplaced? = none := by
    refine List.find?_eq_none.mpr fun o h => ?_
    rw [Bool.not_eq_true, Bool.not_eq_false', boundaries, Std.HashSet.contains_insert,
      Bool.or_eq_true, Std.HashSet.contains_ofList, List.contains_eq_mem, decide_eq_true_eq]
    rcases hb o h with rfl | ⟨e, he, rfl⟩
    · exact .inl (beq_self_eq_true _)
    · exact .inr (List.mem_map.mpr ⟨e, he, rfl⟩)
  refine ⟨.ofInsns (labelNumbers b.offsets).size (b.sequence (labelNumbers b.offsets)), ?_, ?_⟩
  · rw [listing, hplaced]
  · rw [Listing.outline, Listing.insns_ofInsns]
    exact outline_sequence ho hb (numbers_labelNumbers b.offsets)

end Sequence

end Code.Body

end ClassWeaver
