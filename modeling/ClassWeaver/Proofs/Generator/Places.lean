import ClassWeaver.Proofs.Generator.Machine

/-!
# Where the body stands in the woven listing

A listing made by appending has its nodes in the order of its text (`Listing.Lists`). The node
of the body at which `xs` ends stands behind the head and the woven form of `xs`, at
`Generator.place`. The places keep the order of the body, each is followed by the splice of its
node, and between two of them nothing else stands. A label that the body places is bound to
the place of its node.
-/

namespace ClassWeaver

/-! ### Listings in the order of their text -/

namespace Listing

/-- The nodes of the listing are the places of the text. -/
structure Lists (l : Listing) (text : List Insn) : Prop where
  wellFormed : l.WellFormed
  spells : l.Spells (List.range text.length)
  insns_eq : l.insns = text

namespace Lists

variable {l : Listing} {text pre post : List Insn} {i : Insn}

theorem appendAll_fork (l : Listing) (text : List Insn) : (l.fork.appendAll text).Lists text := by
  obtain ⟨hs, -⟩ := (spells_fork l).appendAll text
  refine ⟨(WellFormed.fork l).appendAll text, ?_, Generator.insns_fork_appendAll l text⟩
  rw [List.range_eq_range']
  exact hs

theorem insn?_eq (h : l.Lists text) {p : Nat} (hp : p < text.length) : l.insn? p = text[p]? := by
  rw [← h.insns_eq, h.spells.getElem?_insns, List.getElem?_range hp]
  rfl

theorem insn?_middle (h : l.Lists text) (ht : text = pre ++ i :: post) :
    l.insn? pre.length = some i := by
  have hlt : pre.length < text.length := by simp [ht]
  rw [h.insn?_eq hlt, ht]
  simp

theorem next_eq (h : l.Lists text) {p : Nat} (hp : p + 1 < text.length) :
    l.next (some p) = some (p + 1) := by
  have hsplit : List.range text.length =
      List.range p ++ p :: (p + 1) :: List.range' (p + 2) (text.length - (p + 2)) := by
    obtain ⟨k, hk⟩ : ∃ k, text.length = p + (k + 2) := ⟨text.length - (p + 2), by omega⟩
    have hk' : text.length - (p + 2) = k := by omega
    rw [hk', hk, List.range_eq_range', List.range_eq_range', ← List.range'_append_1,
      List.range'_succ, List.range'_succ]
    simp
  have hs := h.spells
  rw [hsplit] at hs
  rw [hs.next_eq]
  rfl

theorem next_last (h : l.Lists text) {p : Nat} (hp : text.length = p + 1) :
    l.next (some p) = none := by
  have hs := h.spells
  rw [hp, List.range_succ] at hs
  rw [hs.next_eq]
  rfl

theorem first_eq (h : l.Lists text) (hne : text ≠ []) : l.first = some 0 := by
  have hlen : text.length ≠ 0 := by simpa using hne
  obtain ⟨n, hn⟩ := Nat.exists_eq_succ_of_ne_zero hlen
  rw [h.spells.first_eq, hn, List.range_succ_eq_map]
  rfl

theorem position_eq (h : l.Lists text) {p : Nat} (hp : p < text.length) : l.position p = p := by
  have hget : (List.range text.length)[p]? = some p := List.getElem?_range hp
  obtain ⟨hlt, hval⟩ := List.getElem?_eq_some_iff.mp hget
  have hidx := List.nodup_range.idxOf_getElem p hlt
  rw [hval] at hidx
  rw [position, h.spells.refs_eq, hidx]

theorem mem_refs (h : l.Lists text) {p : Nat} (hp : p < text.length) : p ∈ l.refs := by
  rw [h.spells.refs_eq]
  exact List.mem_range.mpr hp

end Lists

end Listing

/-! ### Places -/

namespace Generator

section Places

variable (g : Generator) (body : Listing) (H : Heights) (slots : List Slot) (count : Nat)

/-- The head of the woven text. -/
def wovenHead : List Insn := g.head slots (startLabel body) (resumeLabels body count)

/-- The woven text in front of the instruction of a node. -/
def wovenBefore (r : Ref) : List Insn :=
  g.wovenHead body slots count ++
    g.wovenNodes body H slots count (body.refs.takeWhile (· ≠ r))

/-- Where the instruction of a node stands in the woven text. -/
def place (r : Ref) : Nat := (g.wovenBefore body H slots count r).length

/-- The states that are left when a node is woven. -/
def leftAt (r : Ref) : Nat :=
  count - (body.refs.takeWhile (· ≠ r)).countP (g.suspendsAt body H)

/-- What is spliced in behind a node. -/
def spliceBehind (r : Ref) : List Insn :=
  g.spliceAt body H slots (g.leftAt body H count r) r

end Places

section Splits

variable {g : Generator} {body : Listing} {H : Heights} {slots : List Slot} {count : Nat}
variable {xs ys : List Ref} {r t : Ref} {i : Insn}

theorem wovenBefore_eq (hl : body.WellFormed) (hs : body.refs = xs ++ r :: ys) :
    g.wovenBefore body H slots count r =
      g.wovenHead body slots count ++ g.wovenNodes body H slots count xs := by
  have hnd : (xs ++ r :: ys).Nodup := hs ▸ hl.spells.nodup
  rw [wovenBefore, hs, Listing.takeWhile_ne hnd]

variable (g H slots count) in
/-- The woven text around a node of the body. -/
theorem wovenText_split (hl : body.WellFormed) (hs : body.refs = xs ++ r :: ys)
    (hi : body.insn? r = some i) :
    ∃ post, g.wovenText body H slots count =
        g.wovenBefore body H slots count r ++
          i :: (g.spliceBehind body H slots count r ++ post) ∧
      ∀ t, ys.head? = some t → g.wovenBefore body H slots count t =
        g.wovenBefore body H slots count r ++ i :: g.spliceBehind body H slots count r ∧
        post ≠ [] := by
  have hnd : (xs ++ r :: ys).Nodup := hs ▸ hl.spells.nodup
  have hleft : g.leftAt body H count r = count - xs.countP (g.suspendsAt body H) := by
    rw [leftAt, hs, Listing.takeWhile_ne hnd]
  have hcons : ∀ zs, xs ++ r :: zs = (xs ++ [r]) ++ zs := by simp
  refine ⟨g.wovenNodes body H slots (count - (xs ++ [r]).countP (g.suspendsAt body H)) ys,
    ?_, fun t ht => ?_⟩
  · rw [wovenBefore_eq hl hs, wovenText, hs, hcons, wovenNodes_append, wovenNodes_concat, hi,
      spliceBehind, hleft, wovenHead]
    simp
  · obtain ⟨zs, rfl⟩ := List.head?_eq_some_iff.mp ht
    have hs' : body.refs = (xs ++ [r]) ++ t :: zs := by simp [hs]
    obtain ⟨j, hj⟩ := hl.spells.exists_insn (r := t) (by simp [hs])
    refine ⟨?_, by simp [wovenNodes, hj]⟩
    rw [wovenBefore_eq hl hs', wovenBefore_eq hl hs, wovenNodes_concat, hi, spliceBehind, hleft]
    simp

/-- Behind the head stands the first instruction of the body. -/
theorem wovenBefore_first (hl : body.WellFormed) (hf : body.first = some r) :
    g.wovenBefore body H slots count r = g.wovenHead body slots count := by
  rw [hl.spells.first_eq] at hf
  obtain ⟨ys, hs⟩ := List.head?_eq_some_iff.mp hf
  have hs' : body.refs = [] ++ r :: ys := hs
  rw [wovenBefore_eq hl hs', wovenNodes, List.append_nil]

end Splits

/-! ### Order and labels -/

section Woven

variable {g : Generator} {body woven : Listing} {H : Heights} {slots : List Slot} {count : Nat}
variable {xs ys : List Ref} {r t : Ref} {i : Insn} {lbl : Label}
variable (hl : body.WellFormed)

include hl

variable (g H slots count) in
/-- A node further behind stands behind the splice. -/
theorem place_behind (hs : body.refs = xs ++ r :: ys) (ht : t ∈ ys) :
    g.place body H slots count r + (g.spliceBehind body H slots count r).length <
      g.place body H slots count t := by
  obtain ⟨us, vs, rfl⟩ := List.append_of_mem ht
  obtain ⟨i, hi⟩ := hl.spells.exists_insn (r := r) (by simp [hs])
  have hs' : body.refs = (xs ++ r :: us) ++ t :: vs := by simp [hs]
  have hnd : (xs ++ r :: (us ++ t :: vs)).Nodup := hs ▸ hl.spells.nodup
  have hleft : g.leftAt body H count r = count - xs.countP (g.suspendsAt body H) := by
    rw [leftAt, hs, Listing.takeWhile_ne hnd]
  rw [place, place, wovenBefore_eq hl hs, wovenBefore_eq hl hs', wovenNodes_append, wovenNodes,
    hi, spliceBehind, hleft]
  simp
  omega

variable (g H slots count) in
/-- The places of other nodes lie in front of a node or behind its splice. -/
theorem place_cases (hr : r ∈ body.refs) (ht : t ∈ body.refs) :
    g.place body H slots count t ≤ g.place body H slots count r ∨
      g.place body H slots count r + (g.spliceBehind body H slots count r).length <
        g.place body H slots count t := by
  obtain ⟨xs, ys, hs⟩ := List.append_of_mem hr
  rw [hs] at ht
  rcases List.mem_append.mp ht with ht | ht
  · obtain ⟨us, vs, rfl⟩ := List.append_of_mem ht
    have hs' : body.refs = us ++ t :: (vs ++ r :: ys) := by simp [hs]
    have hlt := place_behind g H slots count hl hs' (t := r) (by simp)
    exact .inl (by omega)
  · rcases List.mem_cons.mp ht with rfl | ht
    · exact .inl (Nat.le_refl _)
    · exact .inr (place_behind g H slots count hl hs ht)

variable (g H slots count) in
theorem length_head_le_place (hr : r ∈ body.refs) :
    (g.wovenHead body slots count).length ≤ g.place body H slots count r := by
  obtain ⟨xs, ys, hs⟩ := List.append_of_mem hr
  rw [place, wovenBefore_eq hl hs]
  simp

theorem place_lt_place_iff (hr : r ∈ body.refs) (ht : t ∈ body.refs) :
    g.place body H slots count r < g.place body H slots count t ↔
      body.position r < body.position t := by
  have hmono : ∀ {r t : Ref}, r ∈ body.refs → t ∈ body.refs →
      body.position r < body.position t →
        g.place body H slots count r < g.place body H slots count t := by
    intro r t hr ht hlt
    obtain ⟨xs, ys, hs⟩ := List.append_of_mem hr
    have hnd : (xs ++ r :: ys).Nodup := hs ▸ hl.spells.nodup
    have hr' : r ∉ xs := fun h => (List.nodup_append.mp hnd).2.2 r h r (by simp) rfl
    have hpos : body.position r = xs.length := by
      rw [Listing.position, hs, List.idxOf_append_of_notMem hr', List.idxOf_cons_self]
      rfl
    have hty : t ∈ ys := by
      rw [hs] at ht
      rcases List.mem_append.mp ht with ht | ht
      · have : body.position t < xs.length := by
          rw [Listing.position, hs, List.idxOf_append_of_mem ht]
          exact List.idxOf_lt_length_of_mem ht
        omega
      · rcases List.mem_cons.mp ht with rfl | ht
        · omega
        · exact ht
    have hb := place_behind g H slots count hl hs hty
    omega
  -- places are strictly monotone, so they reflect the order as well
  refine ⟨fun hlt => ?_, hmono hr ht⟩
  rcases Nat.lt_trichotomy (body.position r) (body.position t) with h | h | h
  · exact h
  · have : r = t := (List.idxOf_inj hr).mp h
    subst this
    omega
  · have := hmono ht hr h
    omega

variable (hw : woven.Lists (g.wovenText body H slots count))

include hw

theorem insn?_place (hr : r ∈ body.refs) :
    woven.insn? (g.place body H slots count r) = body.insn? r := by
  obtain ⟨xs, ys, hs⟩ := List.append_of_mem hr
  obtain ⟨i, hi⟩ := hl.spells.exists_insn hr
  obtain ⟨post, htext, -⟩ := wovenText_split g H slots count hl hs hi
  rw [hi]
  exact hw.insn?_middle htext

omit hw in
theorem place_lt_length (hr : r ∈ body.refs) :
    g.place body H slots count r < (g.wovenText body H slots count).length := by
  obtain ⟨xs, ys, hs⟩ := List.append_of_mem hr
  obtain ⟨i, hi⟩ := hl.spells.exists_insn hr
  obtain ⟨post, htext, -⟩ := wovenText_split g H slots count hl hs hi
  rw [htext, place]
  simp

theorem place_mem_refs (hr : r ∈ body.refs) : g.place body H slots count r ∈ woven.refs :=
  hw.mem_refs (place_lt_length hl hr)

/-- Behind the instruction of a node stands its splice. -/
theorem next_place_of_splice (hr : r ∈ body.refs)
    (hne : g.spliceBehind body H slots count r ≠ []) :
    woven.next (some (g.place body H slots count r)) =
      some (g.place body H slots count r + 1) := by
  obtain ⟨xs, ys, hs⟩ := List.append_of_mem hr
  obtain ⟨i, hi⟩ := hl.spells.exists_insn hr
  obtain ⟨post, htext, -⟩ := wovenText_split g H slots count hl hs hi
  refine hw.next_eq ?_
  have := List.length_pos_iff.mpr hne
  rw [htext, place]
  simp
  omega

/-- Where nothing is spliced in, the next instruction of the body follows. -/
theorem next_place (hr : r ∈ body.refs) (ht : body.next (some r) = some t)
    (hnil : g.spliceBehind body H slots count r = []) :
    woven.next (some (g.place body H slots count r)) = some (g.place body H slots count t) := by
  obtain ⟨xs, ys, hs⟩ := List.append_of_mem hr
  obtain ⟨i, hi⟩ := hl.spells.exists_insn hr
  obtain ⟨post, htext, hnext⟩ := wovenText_split g H slots count hl hs hi
  have hspell : body.Spells (xs ++ r :: ys) := hs ▸ hl.spells
  obtain ⟨hbefore, hpost⟩ := hnext t (hspell.next_eq ▸ ht)
  have hplace : g.place body H slots count t = g.place body H slots count r + 1 := by
    rw [place, hbefore, hnil, place]
    simp
  rw [hplace]
  refine hw.next_eq ?_
  have := List.length_pos_iff.mpr hpost
  rw [htext, place]
  simp
  omega

variable (hres : woven.resolve = .ok ())

include hres

/-- A label of the body is bound to the place of its node. -/
theorem binding_place (hb : body.binding lbl = some r) :
    woven.binding lbl = some (g.place body H slots count r) := by
  obtain ⟨hr, hp⟩ := hl.labelled.sound hb
  refine hw.wellFormed.binding_of_resolve hres (place_mem_refs hl hw hr) ?_
    (Listing.nonneg_of_binding hb)
  rw [Listing.placedAt, insn?_place hl hw hr]
  exact hp

end Woven

/-! ### Spliced code is straight -/

/-- Instructions that neither place a label nor enter an exception. -/
def Straight (i : Insn) : Prop := i.operand.shape ≠ .label ∧ i.operand.shape ≠ .tryCatch

instance (i : Insn) : Decidable (Straight i) := inferInstanceAs (Decidable (_ ∧ _))

theorem Straight.placed?_eq {i : Insn} (h : Straight i) : i.placed? = none := by
  unfold Insn.placed?
  split
  · next e => exact absurd (by rw [e]; rfl) h.1
  · rfl

theorem Straight.entryHandler?_eq {i : Insn} (h : Straight i) (l : Listing)
    (catches : Text → Bool) (r : Ref) : l.entryHandler? catches r i = none := by
  unfold Listing.entryHandler?
  split
  · next e => exact absurd (by rw [e]; rfl) h.2
  · rfl

theorem entryHandler?_place (l : Listing) (catches : Text → Bool) (r : Ref) (lbl : Label) :
    l.entryHandler? catches r (.place lbl) = none := rfl

section Spliced

variable {g : Generator} {body : Listing} {H : Heights} {slots : List Slot} {count left : Nat}
variable {r : Ref} {i : Insn}

theorem straight_push (k : Int32) : Straight (push k) := by
  unfold push
  split
  · exact of_decide_eq_true rfl
  · split
    · exact of_decide_eq_true rfl
    · split <;> exact of_decide_eq_true rfl

theorem straight_zero (family : Family) : Straight (zero family) := by
  cases family <;> exact of_decide_eq_true rfl

theorem mem_head (hi : i ∈ g.wovenHead body slots count) :
    i = .place (startLabel body) ∨ Straight i := by
  simp only [wovenHead, head, resumption, List.mem_append, List.mem_flatMap, List.mem_singleton]
    at hi
  rcases hi with (⟨s, -, hi⟩ | hi) | hi
  · simp only [clear, List.mem_cons, List.not_mem_nil, or_false] at hi
    rcases hi with rfl | rfl
    · exact .inr (straight_zero _)
    · exact .inr (of_decide_eq_true rfl)
  · split at hi
    · cases hi
    · simp only [List.mem_cons, List.not_mem_nil, or_false] at hi
      rcases hi with rfl | rfl | rfl <;> exact .inr (of_decide_eq_true rfl)
  · exact .inl hi

theorem mem_suspension {resume : Label} (hi : i ∈ g.suspension slots left resume) :
    i = .place resume ∨ Straight i := by
  simp only [suspension, List.mem_append, List.mem_flatMap, List.mem_cons, List.not_mem_nil,
    or_false] at hi
  rcases hi with (⟨s, -, hi⟩ | hi) | ⟨s, -, hi⟩
  · simp only [save, List.mem_cons, List.not_mem_nil, or_false] at hi
    rcases hi with rfl | rfl | rfl <;> exact .inr (of_decide_eq_true rfl)
  · rcases hi with rfl | rfl | rfl | rfl | rfl | rfl
    · exact .inr (of_decide_eq_true rfl)
    · exact .inr (straight_push _)
    · exact .inr (of_decide_eq_true rfl)
    · exact .inr (of_decide_eq_true rfl)
    · exact .inr (of_decide_eq_true rfl)
    · exact .inl rfl
  · simp only [restore, List.mem_cons, List.not_mem_nil, or_false] at hi
    rcases hi with rfl | rfl | rfl <;> exact .inr (of_decide_eq_true rfl)

theorem mem_spliceAt (hi : i ∈ g.spliceAt body H slots left r) :
    i = .place (resumeLabel body left) ∨ Straight i := by
  unfold spliceAt at hi
  split at hi
  · exact mem_suspension hi
  · simp only [termination, List.mem_cons, List.not_mem_nil, or_false] at hi
    rcases hi with rfl | rfl <;> exact .inr (of_decide_eq_true rfl)
  · cases hi

theorem mem_wovenNodes {rs : List Ref} (hi : i ∈ g.wovenNodes body H slots left rs) :
    (∃ r ∈ rs, body.insn? r = some i) ∨ (∃ id, i = .place (resumeLabel body id)) ∨
      Straight i := by
  induction rs generalizing left with
  | nil => cases hi
  | cons r rs ih =>
    rw [wovenNodes, List.mem_append, List.mem_append] at hi
    rcases hi with (hi | hi) | hi
    · exact .inl ⟨r, List.mem_cons_self, by simpa using hi⟩
    · rcases mem_spliceAt hi with hi | hi
      · exact .inr (.inl ⟨left, hi⟩)
      · exact .inr (.inr hi)
    · rcases ih hi with ⟨t, ht, hti⟩ | hi
      · exact .inl ⟨t, List.mem_cons_of_mem _ ht, hti⟩
      · exact .inr hi

/-- A label below those of the head is placed in the woven text only by the body. -/
theorem exists_placedAt_of_mem {lbl : Label} (hi : i ∈ g.wovenText body H slots count)
    (hp : i.placed? = some lbl) (hlt : lbl < body.numLabels) :
    ∃ r ∈ body.refs, body.placedAt r = some lbl := by
  have hplace : ∀ {k : Nat}, body.numLabels ≤ k → i ≠ .place (k : Int) := by
    rintro k hk rfl
    obtain rfl : (k : Int) = lbl := Option.some.inj hp
    exact absurd hk (Nat.not_le.mpr (Int.ofNat_lt.mp hlt))
  have hstraight : ¬Straight i := fun h => by
    rw [h.placed?_eq] at hp
    cases hp
  rcases List.mem_append.mp hi with hi | hi
  · rcases mem_head hi with hi | hi
    · exact absurd hi (hplace (Nat.le_refl _))
    · exact absurd hi hstraight
  · rcases mem_wovenNodes hi with ⟨r, hr, hri⟩ | ⟨id, hid⟩ | hi
    · exact ⟨r, hr, by rw [Listing.placedAt, hri]; exact hp⟩
    · exact absurd hid (hplace (Nat.le_add_right _ _))
    · exact absurd hi hstraight

end Spliced

/-! ### Exception entries -/

/-- What is spliced in holds no exception entry. -/
theorem findSome?_spliced {l : Listing} {is : List Insn}
    (his : ∀ i ∈ is, (∃ lbl, i = .place lbl) ∨ Straight i) (catches : Text → Bool) (p : Ref) :
    is.findSome? (l.entryHandler? catches p) = none := by
  rw [List.findSome?_eq_none_iff]
  intro i hi
  rcases his i hi with ⟨lbl, rfl⟩ | hi
  · exact entryHandler?_place ..
  · exact hi.entryHandler?_eq ..

section Handlers

variable {g : Generator} {body woven : Listing} {H : Heights} {slots : List Slot} {count : Nat}
variable {r : Ref} {i : Insn} {lbl : Label}
variable (hl : body.WellFormed) (hw : woven.Lists (g.wovenText body H slots count))
variable (hres : woven.resolve = .ok ())
variable (hlabels : ∀ i ∈ body.insns, ∀ lbl ∈ i.labels, lbl < body.numLabels)

include hl hw hres hlabels

/-- If the woven listing resolves, every label that the body refers to is bound in it. -/
theorem exists_binding_of_woven (hi : i ∈ body.insns) (hlbl : lbl ∈ i.labels) :
    ∃ r, body.binding lbl = some r := by
  obtain ⟨q, hq, hqi⟩ := List.mem_filterMap.mp hi
  have hiw : i ∈ woven.insns := List.mem_filterMap.mpr
    ⟨g.place body H slots count q, place_mem_refs hl hw hq, (insn?_place hl hw hq).trans hqi⟩
  obtain ⟨p, hp⟩ := Listing.exists_binding_of_resolve hres hiw hlbl
  obtain ⟨hpmem, hplaced⟩ := hw.wellFormed.labelled.sound hp
  obtain ⟨j, hj, hjp⟩ := Option.bind_eq_some_iff.mp hplaced
  have hjt : j ∈ g.wovenText body H slots count := by
    rw [← hw.insns_eq]
    exact List.mem_filterMap.mpr ⟨p, hpmem, hj⟩
  obtain ⟨r, hr, hrp⟩ := exists_placedAt_of_mem hjt hjp (hlabels i hi lbl hlbl)
  exact hl.labelled.complete hr hrp (Listing.nonneg_of_binding hp)

omit hlabels in
/-- An exception entry covers the place of a node exactly if it covers the node. -/
theorem covers_place (hr : r ∈ body.refs) {start stop : Label} {a b : Ref}
    (ha : body.binding start = some a) (hb : body.binding stop = some b) :
    woven.covers start stop (g.place body H slots count r) = body.covers start stop r := by
  have hpos : ∀ {q : Ref}, q ∈ body.refs →
      woven.position (g.place body H slots count q) = g.place body H slots count q := fun hq =>
    hw.position_eq (place_lt_length hl hq)
  obtain ⟨hamem, -⟩ := hl.labelled.sound ha
  obtain ⟨hbmem, -⟩ := hl.labelled.sound hb
  simp only [Listing.covers, ha, hb, binding_place hl hw hres ha, binding_place hl hw hres hb,
    hpos hr, hpos hamem, hpos hbmem]
  have hle : g.place body H slots count a ≤ g.place body H slots count r ↔
      body.position a ≤ body.position r := by
    rw [← Nat.not_lt, ← Nat.not_lt]
    exact not_congr (place_lt_place_iff hl hr hamem)
  rw [decide_eq_decide.mpr (place_lt_place_iff hl hr hbmem), decide_eq_decide.mpr hle]

theorem entryHandler?_woven (hr : r ∈ body.refs) (hi : i ∈ body.insns)
    (catches : Text → Bool) :
    woven.entryHandler? catches (g.place body H slots count r) i =
      (body.entryHandler? catches r i).map (g.place body H slots count) := by
  unfold Listing.entryHandler?
  split
  · next start stop handler caught hop =>
    have hlab : i.labels = [start, stop, handler] := by rw [Insn.labels, hop]; rfl
    have hbound : ∀ lbl ∈ i.labels, ∃ r, body.binding lbl = some r := fun lbl hlbl =>
      exists_binding_of_woven hl hw hres hlabels hi hlbl
    rw [hlab] at hbound
    obtain ⟨a, ha⟩ := hbound start (by simp)
    obtain ⟨b, hb⟩ := hbound stop (by simp)
    obtain ⟨c, hc⟩ := hbound handler (by simp)
    rw [covers_place hl hw hres hr ha hb, binding_place hl hw hres hc, hc]
    split <;> rfl
  · rfl

/-- Going through the woven nodes meets the entries of the body in their order. -/
theorem findSome?_wovenNodes (hr : r ∈ body.refs) (catches : Text → Bool) {rs : List Ref}
    (hrs : ∀ q ∈ rs, q ∈ body.refs) (left : Nat) :
    (g.wovenNodes body H slots left rs).findSome?
        (woven.entryHandler? catches (g.place body H slots count r)) =
      ((rs.filterMap body.insn?).findSome? (body.entryHandler? catches r)).map
        (g.place body H slots count) := by
  induction rs generalizing left with
  | nil => rfl
  | cons q rs ih =>
    rw [List.forall_mem_cons] at hrs
    obtain ⟨i, hi⟩ := hl.spells.exists_insn hrs.1
    have hmem : i ∈ body.insns := List.mem_filterMap.mpr ⟨q, hrs.1, hi⟩
    have hsplice : ∀ j ∈ g.spliceAt body H slots left q, (∃ lbl, j = .place lbl) ∨ Straight j :=
      fun j hj => (mem_spliceAt hj).imp_left fun hj => ⟨_, hj⟩
    rw [wovenNodes, List.findSome?_append, List.findSome?_append, findSome?_spliced hsplice, hi,
      List.filterMap_cons_some hi, List.findSome?_cons, ih hrs.2]
    simp only [Option.toList_some, List.findSome?_cons, List.findSome?_nil, Option.or_none,
      entryHandler?_woven hl hw hres hlabels hr hmem]
    cases body.entryHandler? catches r i <;> rfl

/-- An exception at the place of a node goes to the place of its handler. -/
theorem handler?_place (hr : r ∈ body.refs) (catches : Text → Bool) :
    woven.handler? catches (g.place body H slots count r) =
      (body.handler? catches r).map (g.place body H slots count) := by
  have hhead : ∀ j ∈ g.wovenHead body slots count, (∃ lbl, j = .place lbl) ∨ Straight j :=
    fun j hj => (mem_head hj).imp_left fun hj => ⟨_, hj⟩
  rw [Listing.handler?, hw.insns_eq, wovenText, ← wovenHead, List.findSome?_append,
    findSome?_spliced hhead, Option.none_or,
    findSome?_wovenNodes hl hw hres hlabels hr catches fun q hq => hq]
  rfl

end Handlers

end Generator

end ClassWeaver
