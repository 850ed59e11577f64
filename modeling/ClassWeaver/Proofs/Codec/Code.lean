import ClassWeaver.Proofs.Codec.Layout
import ClassWeaver.Proofs.Codec.Outline
import ClassWeaver.Proofs.Codec.Tables

/-!
# Code attributes

A listing that is written and read back keeps its outline. On the way its items are laid out; the
reader meets the items with bytes at their offsets (`readInsns_of_codeBytes`), and the number of
instructions in front of the offset of a label is the position of the label
(`Layout.Lists.rank_at`). What is read is the body of the layout (`Layout.body`), and the listing
of a body has its outline.
-/

namespace ClassWeaver

/-! ### Listings that can be written -/

/-- A local variable entry starts no later than it stops. -/
def Insn.Spans (is : List Insn) (i : Insn) : Prop :=
  match i.operand with
  | .localVariable _ _ start stop _ =>
    start = stop ∨ [Insn.place start, Insn.place stop].Sublist is
  | _ => True

/-- A listing whose entries can be written as what they are. -/
structure Listing.Faithful (p : Pool) (l : Listing) : Prop where
  wellFormed : l.WellFormed
  encodable : ∀ i ∈ l.insns, i.Encodable p
  spans : ∀ i ∈ l.insns, i.Spans l.insns

/-- The tables of a listing have no more entries than can be counted. -/
structure Listing.TablesFit (l : Listing) : Prop where
  handlers : (entriesUnder .tryCatch l.insns).length ≤ 65535
  lines : (entriesUnder .lineNumber l.insns).length ≤ 65535
  locals : (entriesUnder .localVariable l.insns).length ≤ 65535

namespace Code

open Pool

/-! ### Constants -/

/-- What holds of every instruction when its constant is added holds of all in the end. -/
theorem adds_addConstants {P : Pool → Insn → UInt16 → Prop} {p : Pool} {seen : List Item}
    {is : List Insn} {out : List Item × Pool} (hp : p.Sound)
    (hone : ∀ p₁ i out, p.Within p₁ → p₁.Sound → i ∈ is → addConstant p₁ i = .ok out →
      Adds p₁ out fun q n => P q i n)
    (h : addConstants seen p is = .ok out) :
    ∃ new, out.1 = seen.reverse ++ new ∧ new.map Item.insn = is ∧ (∀ x ∈ new, x.wide = false) ∧
      Adds p (new, out.2) fun q new => ∀ x ∈ new, P q x.insn x.constant := by
  induction is generalizing p seen with
  | nil =>
    obtain rfl := Except.ok.inj h
    refine ⟨[], (List.append_nil _).symm, rfl, ?_, ⟨hp, .refl p, fun q _ _ => ?_⟩⟩
    all_goals
      intro x hx
      cases hx
  | cons i rest ih =>
    unfold addConstants at h
    split at h
    · next n p₁ hadd =>
      -- what was found for the first instruction is still found in the later pools
      have hfirst := hone p i (n, p₁) (.refl p) hp List.mem_cons_self hadd
      obtain ⟨new, hout, hinsns, hwide, hrest⟩ := ih hfirst.sound
        (fun p₂ j out hp₂ hs hj => hone p₂ j out (hfirst.within.trans hp₂) hs
          (List.mem_cons_of_mem _ hj)) h
      refine ⟨⟨i, n, false⟩ :: new, by rw [hout]; simp, by rw [List.map_cons, hinsns], ?_, ?_⟩
      · intro x hx
        rcases List.mem_cons.mp hx with rfl | hx
        · rfl
        · exact hwide x hx
      · have hboth := hfirst.andThen hrest
        refine ⟨hboth.sound, hboth.within, fun q hq hfits x hx => ?_⟩
        obtain ⟨hhead, htail⟩ := hboth.found q hq hfits
        rcases List.mem_cons.mp hx with rfl | hx
        · exact hhead
        · exact htail x hx
    · cases h

/-! ### Layouts of a sequence -/

namespace Layout

variable {p q : Pool} {y : Layout} {is : List Insn} {l : Label}

/-- A layout of the entries of a sequence that knows the offset of every label it places. -/
structure Lists (p : Pool) (is : List Insn) (y : Layout) : Prop where
  laid : Laid p 0 y.placed y.size
  insns : y.placed.map (fun xp => xp.1.insn) = is
  nodup : (is.filterMap Insn.placed?).Nodup
  offset_eq : ∀ {x : Item} {n : Nat} {l : Label}, (x, n) ∈ y.placed → x.insn.placed? = some l →
    y.offset l = .ok n

theorem Lists.at_eq (h : Lists p is y) {x : Item} {n : Nat} (hx : (x, n) ∈ y.placed)
    (hl : x.insn.placed? = some l) : y.at l = n :=
  (offset_eq_ok (h.offset_eq hx hl)).2.2

theorem placedLabels_eq {placed : List (Item × Nat)} (h : placed.map (fun xp => xp.1.insn) = is) :
    placedLabels placed = is.filterMap Insn.placed? := by
  rw [placedLabels, ← h, List.filterMap_map]
  rfl

theorem offset_of_getElem? {n : Nat} (h0 : 0 ≤ l) (h : y.labels[l.toNat]? = some n) :
    y.offset l = .ok n := by
  rw [offset, if_neg (Int.not_lt.mpr h0), h]

theorem lists_of_ofItems {n : Nat} {items : List Item} (hy : ofItems p n items = .ok y)
    (hinsns : items.map Item.insn = is) (hnodup : (is.filterMap Insn.placed?).Nodup) :
    Lists p is y := by
  obtain ⟨hlaid, hitems, hlabels⟩ := ofItems_eq_ok hy
  have hlist : y.placed.map (fun xp => xp.1.insn) = is := by
    rw [← hinsns, ← hitems, List.map_map]
    rfl
  refine ⟨hlaid, hlist, hnodup, fun {x n k} hx hk => ?_⟩
  obtain ⟨h0, hat⟩ := recordLabels_of_mem hlabels (placedLabels_eq hlist ▸ hnodup) hx hk
  exact offset_of_getElem? h0 hat

/-- The instructions of a layout as they are read. -/
def decoded (y : Layout) : List (Nat × Insn) :=
  (y.placed.filter fun xp => xp.1.insn.isReal).map fun xp =>
    (xp.2, xp.1.insn.general.mapLabels y.at)

/-- The body of a layout, with the attributes that are not interpreted. -/
def body (y : Layout) (is : List Insn) (others : List Attribute) : Body where
  size := y.size
  insns := y.decoded
  handlers := (entriesUnder .tryCatch is).map (Insn.mapLabels y.at)
  tables :=
    { lines := ((entriesUnder .lineNumber is).map (lineAt y)).toArray
      locals := ((entriesUnder .localVariable is).map (Insn.mapLabels y.at)).toArray
      offsets := (((entriesUnder .lineNumber is).map (lineAt y)).map (fun e => (e.1 : Label)) ++
        ((entriesUnder .localVariable is).map (Insn.mapLabels y.at)).flatMap Insn.labels).toArray
      others := others.toArray }

theorem Lists.split (h : Lists p is y) (hl : l ∈ is.filterMap Insn.placed?) :
    ∃ (xs ys : List (Item × Nat)) (x : Item) (n : Nat), y.placed = xs ++ (x, n) :: ys ∧
      x.insn.placed? = some l ∧ y.at l = n ∧
      l ∉ (xs.map fun xp => xp.1.insn).filterMap Insn.placed? := by
  have hnodup := h.nodup
  rw [← h.insns] at hl hnodup
  obtain ⟨i, hi, hp⟩ := List.mem_filterMap.mp hl
  obtain ⟨⟨x, n⟩, hx, rfl⟩ := List.mem_map.mp hi
  obtain ⟨xs, ys, hsplit⟩ := List.append_of_mem hx
  refine ⟨xs, ys, x, n, hsplit, hp, h.at_eq hx hp, fun hmem => ?_⟩
  rw [hsplit, List.map_append, List.map_cons, List.filterMap_append, List.filterMap_cons_some hp,
    List.nodup_append] at hnodup
  exact hnodup.2.2 l hmem l List.mem_cons_self rfl

/-- The position of a label is the number of instructions in front of its offset. -/
theorem Lists.rank_at (h : Lists p is y) (hl : l ∈ is.filterMap Insn.placed?)
    (others : List Attribute) : (y.body is others).rank (y.at l) = position is l := by
  obtain ⟨xs, ys, x, n, hsplit, hp, hat, hfresh⟩ := h.split hl
  have hlaid := h.laid
  rw [hsplit] at hlaid
  obtain ⟨mid, hxs, hrest⟩ := hlaid.append
  obtain rfl : mid = n := by
    cases hrest
    rfl
  have hposition : position is l = xs.countP fun xp => xp.1.insn.isReal := by
    rw [← h.insns, hsplit, List.map_append, List.map_cons, position_eq hp hfresh, List.countP_map]
    rfl
  have hcount : (y.body is others).rank mid =
      y.placed.countP fun xp => xp.1.insn.isReal && decide ((xp.2 : Int) < mid) := by
    change ((y.decoded.countP _ : Nat) : Int) = _
    rw [decoded, List.countP_map, List.countP_filter]
    congr 2
    funext xp
    rw [Bool.and_comm]
    rfl
  -- instructions in front of the label start before its offset, those behind do not
  have hfront : xs.countP (fun xp => xp.1.insn.isReal && decide ((xp.2 : Int) < mid)) =
      xs.countP fun xp => xp.1.insn.isReal := by
    refine List.countP_congr fun xp hxp => ?_
    cases hreal : xp.1.insn.isReal with
    | false => simp
    | true =>
      have hbounds := hxs.bounds hxp
      have hsize : 1 ≤ xp.1.size p xp.2 := one_le_size hreal
      simp only [Bool.true_and, decide_eq_true_eq, iff_true]
      omega
  have hback : ((x, mid) :: ys).countP
      (fun xp => xp.1.insn.isReal && decide ((xp.2 : Int) < mid)) = 0 := by
    refine List.countP_eq_zero.mpr fun xp hxp => ?_
    have hbounds := hrest.bounds hxp
    simp only [Bool.and_eq_true, decide_eq_true_eq]
    omega
  rw [hat, hcount, hposition, hsplit, List.countP_append, hfront, hback, Nat.add_zero]

/-- The offset of a label is where an instruction starts, or the end of the code. -/
theorem Lists.boundary_at (h : Lists p is y) (hl : l ∈ is.filterMap Insn.placed?)
    (others : List Attribute) : (y.body is others).Boundary (y.at l) := by
  obtain ⟨xs, ys, x, n, hsplit, hp, hat, -⟩ := h.split hl
  have hlaid := h.laid
  rw [hsplit] at hlaid
  obtain ⟨mid, -, hrest⟩ := hlaid.append
  obtain rfl : mid = n := by
    cases hrest
    rfl
  rw [hat]
  rcases hrest.start with rfl | ⟨z, hz, hreal⟩
  · exact .inl rfl
  · refine .inr ⟨(mid, z.insn.general.mapLabels y.at), ?_, rfl⟩
    refine List.mem_map.mpr ⟨(z, mid), List.mem_filter.mpr ⟨?_, hreal⟩, rfl⟩
    rw [hsplit]
    exact List.mem_append_right _ hz

/-- Labels that are placed in order have their offsets in order. -/
theorem Lists.at_le (h : Lists p is y) {l' : Label}
    (hs : [Insn.place l, Insn.place l'].Sublist is) : y.at l ≤ y.at l' := by
  rw [← h.insns, List.sublist_map_iff] at hs
  obtain ⟨pair, hpair, heq⟩ := hs
  obtain ⟨⟨x, n⟩, rest, rfl, hx, hrest⟩ := List.map_eq_cons_iff.mp heq.symm
  obtain ⟨⟨x', n'⟩, more, rfl, hx', hnil⟩ := List.map_eq_cons_iff.mp hrest
  obtain rfl := List.map_eq_nil_iff.mp hnil
  have hle : n ≤ n' :=
    List.rel_of_pairwise_cons (h.laid.pairwise.sublist hpair) (List.mem_singleton.mpr rfl)
  have hn : y.at l = n := h.at_eq (hpair.subset List.mem_cons_self) (by rw [hx]; rfl)
  have hn' : y.at l' = n' :=
    h.at_eq (hpair.subset (List.mem_cons_of_mem _ List.mem_cons_self)) (by rw [hx']; rfl)
  rw [hn, hn']
  exact_mod_cast hle

/-- An entry that spans a stretch of the sequence has its offsets in order. -/
theorem Lists.ordered (h : Lists p is y) {i : Insn} (hspan : i.Spans is) :
    y.Ordered i.operand := by
  unfold Insn.Spans at hspan
  unfold Layout.Ordered
  split
  · next heq =>
    rw [heq] at hspan
    rcases hspan with rfl | hsub
    · exact Int.le_refl _
    · exact h.at_le hsub
  · trivial

/-! ### The body of a layout -/

variable {r : Pool} {others : List Attribute}

theorem Lists.sorted_decoded (h : Lists p is y) : y.decoded.Pairwise fun e e' => e.1 < e'.1 := by
  have hplaced : ∀ {pc stop : Nat} {placed : List (Item × Nat)}, Laid p pc placed stop →
      placed.Pairwise fun xp xq => xp.1.insn.isReal = true → xp.2 < xq.2 := by
    intro pc stop placed hlaid
    induction hlaid with
    | nil => exact .nil
    | cons hrest ih =>
      refine .cons (fun xq hq hreal => ?_) ih
      exact Nat.lt_of_lt_of_le (Nat.lt_add_of_pos_right (one_le_size hreal)) (hrest.bounds hq).1
  rw [decoded, List.pairwise_map, List.pairwise_filter]
  exact (hplaced h.laid).imp fun hlt hreal _ => hlt hreal

theorem Lists.mem_insns (h : Lists p is y) {x : Item} {n : Nat} (hx : (x, n) ∈ y.placed) :
    x.insn ∈ is := by
  rw [← h.insns]
  exact List.mem_map_of_mem hx

/-- What is under an opcode that places no label has that opcode still, and mentions only the
offsets that it refers to. -/
theorem entry_mapLabels (hi : ∀ i ∈ is, i.Encodable r) {op : Opcode} (hop : op ≠ .label)
    {j : Insn} (hj : j ∈ (entriesUnder op is).map (Insn.mapLabels y.at)) :
    j.opcode = op ∧ j.mentions = j.labels := by
  obtain ⟨i, hmem, rfl⟩ := List.mem_map.mp hj
  obtain ⟨hmem, hunder⟩ := List.mem_filter.mp hmem
  have hunder : i.opcode = op := of_decide_eq_true hunder
  exact ⟨hunder, Insn.mentions_mapLabels _ (Insn.mentions_of_opcode (hi i hmem) (hunder ▸ hop))⟩

theorem Lists.orderly (h : Lists p is y) (hi : ∀ i ∈ is, i.Encodable r) :
    (y.body is others).Orderly where
  sorted := h.sorted_decoded
  below := by
    intro e he
    obtain ⟨⟨x, n⟩, hx, rfl⟩ := List.mem_map.mp he
    obtain ⟨hx, hreal⟩ := List.mem_filter.mp hx
    have hbounds := h.laid.bounds hx
    have hsize : 1 ≤ x.size p n := one_le_size hreal
    change n < y.size
    omega
  real := by
    intro e he
    obtain ⟨⟨x, n⟩, hx, rfl⟩ := List.mem_map.mp he
    obtain ⟨hx, hreal⟩ := List.mem_filter.mp hx
    refine ⟨Insn.isReal_general hreal, Insn.mentions_mapLabels _ (Insn.mentions_general ?_)⟩
    refine Insn.mentions_of_opcode (hi _ (h.mem_insns hx)) ?_
    exact Body.ne_of_isReal hreal (by decide)
  handler i hmem := entry_mapLabels hi (by decide) hmem
  localVariable i hmem := entry_mapLabels hi (by decide) (List.mem_toArray.mp hmem)
  localOffset := by
    intro i hmem o ho
    refine List.mem_toArray.mpr (List.mem_append_right _ ?_)
    exact List.mem_flatMap.mpr ⟨i, List.mem_toArray.mp hmem, ho⟩
  lineOffset := by
    intro e hmem
    refine List.mem_toArray.mpr (List.mem_append_left _ ?_)
    exact List.mem_map.mpr ⟨e, List.mem_toArray.mp hmem, rfl⟩

theorem lineAt_line (y : Layout) (number : UInt16) (start : Label) :
    ((lineAt y ⟨.lineNumber, .line number start⟩).1 : Int) = y.at start :=
  Int.toNat_of_nonneg (Int.natCast_nonneg _)

/-- Every offset of the body is that of a label. -/
theorem Lists.boundary (h : Lists p is y) (hi : ∀ i ∈ is, i.Encodable r)
    (hlabels : ∀ i ∈ is, ∀ l ∈ i.labels, l ∈ is.filterMap Insn.placed?) :
    ∀ o ∈ (y.body is others).offsets, (y.body is others).Boundary o := by
  have hat : ∀ i ∈ is, ∀ o ∈ (i.mapLabels y.at).labels, (y.body is others).Boundary o := by
    intro i hmem o ho
    rw [Insn.labels_mapLabels] at ho
    obtain ⟨l, hl, rfl⟩ := List.mem_map.mp ho
    exact h.boundary_at (hlabels i hmem l hl) others
  intro o ho
  -- the offsets of instructions, handlers, line entries and local variables, in this order
  rcases List.mem_append.mp ho with ho | ho
  · rcases List.mem_append.mp ho with ho | ho
    · obtain ⟨e, he, ho⟩ := List.mem_flatMap.mp ho
      obtain ⟨⟨x, n⟩, hx, rfl⟩ := List.mem_map.mp he
      have ho := Body.mem_offsetsOf.mp ho
      rw [Insn.labels_mapLabels, Insn.labels_general, ← Insn.labels_mapLabels] at ho
      exact hat x.insn (h.mem_insns (List.mem_filter.mp hx).1) o ho
    · obtain ⟨j, hj, ho⟩ := List.mem_flatMap.mp ho
      obtain ⟨i, hmem, rfl⟩ := List.mem_map.mp hj
      exact hat i (List.mem_filter.mp hmem).1 o ho
  · rcases List.mem_append.mp (List.mem_toArray.mp (Array.mem_toList_iff.mp ho)) with ho | ho
    · obtain ⟨e, he, rfl⟩ := List.mem_map.mp ho
      obtain ⟨i, hmem, rfl⟩ := List.mem_map.mp he
      obtain ⟨hmem, hop⟩ := List.mem_filter.mp hmem
      obtain ⟨number, start, rfl⟩ := Insn.line_of_opcode (hi i hmem) (of_decide_eq_true hop)
      refine hat _ hmem _ ?_
      rw [lineAt_line]
      exact List.mem_singleton.mpr rfl
    · obtain ⟨j, hj, ho⟩ := List.mem_flatMap.mp ho
      obtain ⟨i, hmem, rfl⟩ := List.mem_map.mp hj
      exact hat i (List.mem_filter.mp hmem).1 o ho

section Outline

variable (h : Lists p is y) (hi : ∀ i ∈ is, i.Encodable r)
variable (hlabels : ∀ i ∈ is, ∀ l ∈ i.labels, l ∈ is.filterMap Insn.placed?)

include h hi hlabels

/-- An offset in place of a label is as good as the label itself. -/
theorem Lists.mapLabels_rank {i : Insn} (hmem : i ∈ is) (hop : i.opcode ≠ .label) :
    (i.mapLabels y.at).mapLabels (y.body is others).rank = i.mapLabels (position is) := by
  rw [Insn.mapLabels_mapLabels]
  refine Insn.mapLabels_congr fun l hl => h.rank_at (hlabels i hmem l ?_) others
  rwa [← Insn.mentions_of_opcode (hi i hmem) hop]

theorem Lists.insns_body : (y.body is others).insns.map (fun e =>
      e.2.general.mapLabels (y.body is others).rank) =
    (is.filter Insn.isReal).map fun i => i.general.mapLabels (position is) := by
  have hfilter : is.filter Insn.isReal =
      (y.placed.filter fun xp => xp.1.insn.isReal).map fun xp => xp.1.insn := by
    rw [← h.insns, List.filter_map]
    rfl
  rw [hfilter]
  change y.decoded.map _ = _
  rw [decoded, List.map_map, List.map_map]
  refine List.map_congr_left fun xp hxp => ?_
  obtain ⟨hxp, hreal⟩ := List.mem_filter.mp hxp
  have hop : xp.1.insn.opcode ≠ .label := Body.ne_of_isReal hreal (by decide)
  change (xp.1.insn.general.mapLabels y.at).general.mapLabels _ = _
  -- what is read is in general form already
  rw [Insn.general_mapLabels, Insn.general_general, ← Insn.general_mapLabels,
    ← Insn.general_mapLabels, h.mapLabels_rank hi hlabels (h.mem_insns hxp) hop,
    Insn.general_mapLabels]
  rfl

theorem Lists.entries_body {op : Opcode} (hop : op ≠ .label) :
    ((entriesUnder op is).map (Insn.mapLabels y.at)).map
        (Insn.mapLabels (y.body is others).rank) =
      (entriesUnder op is).map (Insn.mapLabels (position is)) := by
  rw [List.map_map]
  refine List.map_congr_left fun i hmem => ?_
  obtain ⟨hmem, hunder⟩ := List.mem_filter.mp hmem
  have hunder : i.opcode = op := of_decide_eq_true hunder
  exact h.mapLabels_rank hi hlabels hmem (hunder ▸ hop)

theorem Lists.lines_body : ((entriesUnder .lineNumber is).map (lineAt y)).map
      (fun e => ((y.body is others).rank e.1, e.2)) =
    (is.filterMap Insn.line?).map fun e => (position is e.1, e.2) := by
  -- offsets and positions are those of the whole sequence, so the induction is on a part of it
  suffices hpart : ∀ js : List Insn, (∀ j ∈ js, j ∈ is) →
      ((entriesUnder .lineNumber js).map (lineAt y)).map
        (fun e => ((y.body is others).rank e.1, e.2)) =
      (js.filterMap Insn.line?).map fun e => (position is e.1, e.2) from
    hpart is fun _ hj => hj
  intro js hjs
  induction js with
  | nil => rfl
  | cons j js ih =>
    have hrest := ih fun k hk => hjs k (List.mem_cons_of_mem _ hk)
    have hmem := hjs j List.mem_cons_self
    by_cases hop : j.opcode = .lineNumber
    · obtain ⟨number, start, rfl⟩ := Insn.line_of_opcode (hi j hmem) hop
      have hstart := h.rank_at (hlabels _ hmem start (List.mem_singleton.mpr rfl)) others
      have hline : Insn.line? ⟨.lineNumber, .line number start⟩ = some (start, number) := rfl
      rw [entriesUnder] at hrest
      rw [entriesUnder, List.filter_cons_of_pos (by simp), List.map_cons, List.map_cons,
        hrest, lineAt_line, hstart, List.filterMap_cons_some hline, List.map_cons]
      rfl
    · rw [entriesUnder] at hrest
      rw [entriesUnder, List.filter_cons_of_neg (by simpa using hop), hrest,
        List.filterMap_cons_none (Insn.line?_of_opcode hop)]

/-- The body of a layout has the outline of the sequence. -/
theorem Lists.outline_body : (y.body is others).outline = outlineOf is := by
  rw [Body.outline, outlineOf]
  congr 1
  · exact h.insns_body hi hlabels
  · exact h.entries_body hi hlabels (by decide)
  · exact h.entries_body hi hlabels (by decide)
  · exact congrArg _ (h.lines_body hi hlabels)

end Outline

end Layout

/-! ### Reading the instructions of a layout -/

section Stream

variable {p q r : Pool} {y : Layout}

theorem under_eq_ok {α : Type} {text : Text} {x : Outcome α} {a : α} :
    x.under text = .ok a ↔ x = .ok a := by
  cases x with
  | error e => simp [Outcome.under, Outcome.mapFault]
  | ok b => rfl

/-- What the writer knows of the items it writes. -/
structure Layout.Readable (r q : Pool) (y : Layout) (x : Item) (pc : Nat) : Prop where
  encodable : x.insn.Encodable r
  finds : x.insn.Finds q x.constant
  settled : x.Settled y pc

/-- While there are bytes, one more instruction is read. -/
theorem readInsns_cons {data bs rest : List UInt8} {pc fuel : Nat} {before : Array (Nat × Insn)}
    {e : Nat × Insn} (hread : Reads (readInsn q) pc bs e) (hbs : bs ≠ [])
    (hdata : data.drop pc = bs ++ rest) (hpc : pc ≤ data.length) :
    readInsns q (fuel + 1) before ⟨data, pc, bs ++ rest⟩ =
      readInsns q fuel (before.push e) ⟨data, pc + bs.length, rest⟩ := by
  have hmore : (bs ++ rest).isEmpty = false := by
    rw [List.isEmpty_eq_false_iff]
    exact fun hnil => hbs (List.append_eq_nil_iff.mp hnil).1
  change (if (bs ++ rest).isEmpty = true then _ else _ : Read _) ⟨data, pc, bs ++ rest⟩ = _
  rw [hmore]
  change Bind.bind (readInsn q ⟨data, pc, bs ++ rest⟩) _ = _
  rw [hread data rest hdata hpc]
  rfl

/-- The reader meets the items with bytes at their offsets. -/
theorem readInsns_of_codeBytes (hy : y.Short) {pc stop : Nat} {placed : List (Item × Nat)}
    (hlaid : Layout.Laid p pc placed stop) (hstop : stop ≤ 65535)
    (hplaced : ∀ x n, (x, n) ∈ placed → y.Readable r q x n)
    {seen : List (List UInt8)} {bytes : List UInt8}
    (h : codeBytes p y seen placed = .ok bytes) :
    ∃ body, bytes = seen.reverse.flatten ++ body ∧ pc + body.length = stop ∧
      ∀ (data : List UInt8) (before : Array (Nat × Insn)) (fuel : Nat), data.drop pc = body →
        pc ≤ data.length → body.length < fuel →
        readInsns q fuel before ⟨data, pc, body⟩ = .ok
          (before.toList ++ (placed.filter fun xp => xp.1.insn.isReal).map fun xp =>
            (xp.2, xp.1.insn.general.mapLabels y.at), ⟨data, stop, []⟩) := by
  induction hlaid generalizing seen with
  | nil pc =>
    obtain rfl := Except.ok.inj h
    refine ⟨[], (List.append_nil _).symm, rfl, fun data before fuel _ _ hfuel => ?_⟩
    obtain ⟨fuel, rfl⟩ : ∃ k, fuel = k + 1 := ⟨fuel - 1, by simp at hfuel; omega⟩
    rw [List.filter_nil, List.map_nil, List.append_nil]
    rfl
  | @cons pc stop x rest hrest ih =>
    obtain ⟨bs, hbs, h⟩ := Except.bind_eq_ok_iff.mp h
    rw [under_eq_ok] at hbs
    obtain ⟨body, rfl, hlen, hread⟩ := ih hstop
      (fun x n hx => hplaced x n (List.mem_cons_of_mem _ hx)) h
    have hx := hplaced x pc List.mem_cons_self
    have hle := hrest.le
    cases hreal : x.insn.isReal with
    | false =>
      -- an entry without bytes is passed over by the reader
      obtain ⟨hnil, hsize⟩ : itemBytes p y x pc = .ok [] ∧ x.size p pc = 0 :=
        itemBytes_pseudo (by rwa [Insn.isReal, Bool.not_eq_false'] at hreal)
      obtain rfl : [] = bs := Except.ok.inj (hnil.symm.trans hbs)
      rw [hsize, Nat.add_zero] at hlen hread
      refine ⟨body, by simp, hlen, ?_⟩
      rw [List.filter_cons_of_neg (by simp [hreal])]
      exact hread
    | true =>
      have hpseudo : x.insn.opcode.isPseudo = false := by
        rwa [Insn.isReal, Bool.not_eq_true'] at hreal
      have hone : 1 ≤ x.size p pc := Layout.one_le_size hreal
      obtain ⟨hbytes, hfirst⟩ := reads_of_itemBytes hx.encodable hpseudo hx.finds hy
        (by omega) (by omega) hx.settled hbs
      rw [← hbytes] at hone hlen hread
      refine ⟨bs ++ body, by simp, by rw [List.length_append]; omega, ?_⟩
      intro data before fuel hdata hpc hfuel
      rw [List.length_append] at hfuel
      obtain ⟨fuel, rfl⟩ : ∃ k, fuel = k + 1 := ⟨fuel - 1, by omega⟩
      have hdrop : data.drop (pc + bs.length) = body := by
        rw [← List.drop_drop, hdata, List.drop_left]
      have hroom : pc + bs.length ≤ data.length := by
        have := congrArg List.length hdata
        simp only [List.length_drop, List.length_append] at this
        omega
      have hlast := hread data (before.push (pc, x.insn.general.mapLabels y.at)) fuel hdrop hroom
        (by omega)
      rw [Array.toList_push, List.append_assoc, List.singleton_append] at hlast
      rw [readInsns_cons hfirst (List.ne_nil_of_length_pos hone) hdata hpc, hlast,
        List.filter_cons_of_pos (by simpa using hreal), List.map_cons]

end Stream

/-! ### Drafts -/

/-- The parts of a code attribute, with the pool after each that adds to it. -/
structure Draft where
  items : List Item
  coded : Pool
  layout : Layout
  code : List UInt8
  handlers : List UInt8
  handled : Pool
  lines : List Attribute
  lined : Pool
  locals : List Attribute
  last : Pool

namespace Draft

/-- The steps in which the draft of a listing is made. -/
structure Of (p : Pool) (l : Listing) (d : Draft) : Prop where
  resolved : l.resolve = .ok ()
  constants : addConstants [] p l.insns = .ok (d.items, d.coded)
  settled : Layout.settle d.coded l.numLabels d.items.length d.items = .ok d.layout
  size_ne : d.layout.size ≠ 0
  size_le : d.layout.size ≤ 65535
  bytes : codeBytes d.coded d.layout [] d.layout.placed = .ok d.code
  handlersOf : tableOf (handlerEntry d.layout) d.coded (entriesUnder .tryCatch l.insns) =
    .ok (d.handlers, d.handled)
  linesOf : tableAttribute Attribute.lineNumbers (lineEntry d.layout) d.handled
    (entriesUnder .lineNumber l.insns) = .ok (d.lines, d.lined)
  localsOf : tableAttribute Attribute.localVariables (localEntry d.layout) d.lined
    (entriesUnder .localVariable l.insns) = .ok (d.locals, d.last)

/-- The attributes of the code attribute. -/
def attributes (d : Draft) (m : Method) : List Attribute := d.lines ++ d.locals ++ m.codeAttributes

/-- The code attribute of a method from its draft, and the pool afterwards. -/
def out (d : Draft) (m : Method) : List UInt8 × Pool :=
  (u2 m.maxStack ++ u2 m.maxLocals ++ bigEndian 4 d.layout.size ++ d.code ++ d.handlers ++
    (writeAttributes d.last (d.attributes m)).1, (writeAttributes d.last (d.attributes m)).2)

end Draft

theorem lift_eq_ok {α : Type} {x : Except Fault α} {a : α} : lift x = .ok a ↔ x = .ok a := by
  cases x with
  | error f => simp [lift, Outcome.fail]
  | ok b => simp [lift]

/-- Writing a listing is making a draft of it. -/
theorem write_eq_ok_iff {p : Pool} {m : Method} {l : Listing} {out : List UInt8 × Pool} :
    write p m l = .ok out ↔ ∃ d : Draft, d.Of p l ∧ out = d.out m := by
  constructor
  · intro h
    obtain ⟨⟨⟩, hresolve, h⟩ := Except.bind_eq_ok_iff.mp h
    obtain ⟨⟨items, p₁⟩, hitems, h⟩ := Except.bind_eq_ok_iff.mp h
    obtain ⟨y, hy, h⟩ := Except.bind_eq_ok_iff.mp h
    split at h
    · cases h
    · next hsize =>
      simp only [Bool.or_eq_true, decide_eq_true_eq, not_or, Nat.not_lt] at hsize
      obtain ⟨code, hcode, h⟩ := Except.bind_eq_ok_iff.mp h
      obtain ⟨⟨handlers, p₂⟩, hhandlers, h⟩ := Except.bind_eq_ok_iff.mp h
      obtain ⟨⟨lines, p₃⟩, hlines, h⟩ := Except.bind_eq_ok_iff.mp h
      obtain ⟨⟨locals, p₄⟩, hlocals, h⟩ := Except.bind_eq_ok_iff.mp h
      exact ⟨⟨items, p₁, y, code, handlers, p₂, lines, p₃, locals, p₄⟩, ⟨hresolve,
        lift_eq_ok.mp hitems, hy, hsize.1, hsize.2, hcode, hhandlers, hlines, hlocals⟩,
        (Except.ok.inj h).symm⟩
  · rintro ⟨d, h, rfl⟩
    have hsize : ¬(d.layout.size = 0 || 65535 < d.layout.size) = true := by
      simp only [Bool.or_eq_true, decide_eq_true_eq, not_or, Nat.not_lt]
      exact ⟨h.size_ne, h.size_le⟩
    -- each step of the draft rewrites the bind that it belongs to
    rw [write, h.resolved]
    change (lift (addConstants [] p l.insns) >>= _) = _
    rw [h.constants]
    change (Layout.settle d.coded l.numLabels d.items.length d.items >>= _) = _
    rw [h.settled]
    change (if _ then _ else _) = _
    rw [if_neg hsize, h.bytes]
    change (tableOf (handlerEntry d.layout) d.coded (entriesUnder .tryCatch l.insns) >>= _) = _
    rw [h.handlersOf]
    change (tableAttribute Attribute.lineNumbers (lineEntry d.layout) d.handled
      (entriesUnder .lineNumber l.insns) >>= _) = _
    rw [h.linesOf]
    change (tableAttribute Attribute.localVariables (localEntry d.layout) d.lined
      (entriesUnder .localVariable l.insns) >>= _) = _
    rw [h.localsOf]
    rfl

/-! ### What is read back -/

section ReadBack

variable {p : Pool} {l : Listing} {d : Draft} {m : Method}

/-- The layout of a draft lists the instructions, and each can be read from its bytes with every
pool around the one it was added to. -/
theorem Draft.Of.lists (hp : p.Sound) (hl : l.Faithful p) (hd : d.Of p l) :
    d.layout.Lists d.coded l.insns ∧ d.layout.Short ∧
      Adds p (d.layout, d.coded) fun q y => ∀ x n, (x, n) ∈ y.placed → y.Readable p q x n := by
  obtain ⟨new, hnew, hinsns, hnarrow, hadds⟩ := adds_addConstants hp
    (fun p₁ i out hp₁ hs hi hout => adds_addConstant hs ((hl.encodable i hi).mono hp₁) hout)
    hd.constants
  obtain rfl : d.items = new := hnew
  -- items are narrow at first, so only those that the layout widened are wide
  have hnotWide : ∀ x ∈ d.items, x.wide = true → x.insn.opcode.isUnconditional = true := by
    intro x hx hw
    rw [hnarrow x hx] at hw
    cases hw
  obtain ⟨items, hsame, hy, hsettled⟩ :=
    ((Layout.settle_eq_ok_iff List.countP_le_length).mp hd.settled).same hnotWide
  obtain ⟨hlaid, hitems, hlabels⟩ := Layout.ofItems_eq_ok hy
  have hcore : d.layout.placed.map (fun xp => Layout.core xp.1) = d.items.map Layout.core := by
    rw [← hsame.core, ← hitems, List.map_map]
    rfl
  have hlist : items.map Item.insn = l.insns := by
    have := congrArg (List.map Prod.fst) hsame.core
    rw [List.map_map, List.map_map] at this
    exact this.trans hinsns
  have hplaced : d.layout.placed.map (fun xp => xp.1.insn) = l.insns := by
    rw [← hlist, ← hitems, List.map_map]
    rfl
  have hnonneg : ∀ k ∈ l.insns.filterMap Insn.placed?, 0 ≤ k := by
    rw [← Layout.placedLabels_eq hplaced]
    exact Layout.recordLabels_nonneg hlabels
  have hnodup := hl.wellFormed.nodup_placed hd.resolved hnonneg
  refine ⟨Layout.lists_of_ofItems hy hlist hnodup, fun k n hk => ?_, ?_⟩
  · have hmem := (offset_eq_ok hk).2.1
    have hle : n ≤ d.layout.size := by
      refine Layout.recordLabels_le hlabels (fun x n hx => ?_) ?_ n (Array.mem_of_getElem? hmem)
      · exact Nat.le_trans (Nat.le_add_right ..) (hlaid.bounds hx).2
      · intro n hn
        rw [Array.mem_replicate] at hn
        omega
    exact Nat.lt_of_le_of_lt hle (Nat.lt_succ_of_le hd.size_le)
  · refine ⟨hadds.sound, hadds.within, fun q hq hfits x n hx => ⟨?_, ?_, hsettled x n hx⟩⟩
    · exact hl.encodable _ (hplaced ▸ List.mem_map_of_mem hx)
    · -- widening changes neither an instruction nor its constant
      have hmem : Layout.core x ∈ d.items.map Layout.core :=
        hcore ▸ List.mem_map_of_mem (f := fun xp : Item × Nat => Layout.core xp.1) hx
      obtain ⟨z, hz, heq⟩ := List.mem_map.mp hmem
      obtain ⟨hinsn, hconstant⟩ := Prod.mk.inj heq
      rw [← hinsn, ← hconstant]
      exact hadds.found q hq hfits z hz

/-- A table becomes an attribute unless it is empty. -/
theorem tableAttribute_eq_ok {name : Text} {entry : Pool → Operand → Outcome (List UInt8 × Pool)}
    {entries : List Insn} {out : List Attribute × Pool}
    (h : tableAttribute name entry p entries = .ok out) :
    entries = [] ∧ out = ([], p) ∨
      ∃ data, tableOf entry p entries = .ok (data, out.2) ∧ out.1 = [⟨name, data⟩] := by
  unfold tableAttribute at h
  split at h
  · next hempty => exact .inl ⟨List.isEmpty_iff.mp hempty, (Except.ok.inj h).symm⟩
  · obtain ⟨⟨data, p'⟩, hdata, h⟩ := Except.bind_eq_ok_iff.mp h
    obtain rfl := Except.ok.inj h
    exact .inr ⟨data, hdata, rfl⟩

/-- Line entries are found again when the attributes are interpreted. -/
theorem adds_lines {y : Layout} {entries : List Insn} {out : List Attribute × Pool} (hp : p.Sound)
    (hy : y.Short) (hcount : entries.length < 65536)
    (h : tableAttribute Attribute.lineNumbers (lineEntry y) p entries = .ok out) :
    Adds p out fun q as => ∀ t : Tables, as.foldlM (Tables.add q) t = .ok { t with
      lines := t.lines ++ entries.map (lineAt y)
      offsets := t.offsets ++ (entries.map (lineAt y)).map fun e => (e.1 : Label) } := by
  rcases tableAttribute_eq_ok h with ⟨rfl, rfl⟩ | ⟨data, hdata, hout⟩
  · refine ⟨hp, .refl p, fun q _ _ t => ?_⟩
    simp
    rfl
  · have hwrites := writes_tableOf hp hcount
      (fun p i out hp _ hout => adds_lineEntry hp hy hout) hdata
    refine ⟨hwrites.sound, hwrites.within, fun q hq hfits t => ?_⟩
    have hread : ((readLines).under Attribute.lineNumbers).run data =
        .ok (entries.map (lineAt y)) := ((hwrites.found q hq hfits 0).under _).run
    rw [hout, List.foldlM_cons, Tables.add]
    dsimp only
    rw [if_pos rfl, hread]
    rfl

/-- Local variable entries are found again when the attributes are interpreted. -/
theorem adds_locals {y : Layout} {entries : List Insn} {out : List Attribute × Pool}
    (hp : p.Sound) (hy : y.Short) (hcount : entries.length < 65536)
    (hentries : ∀ i ∈ entries, i.opcode = .localVariable ∧ y.Ordered i.operand)
    (h : tableAttribute Attribute.localVariables (localEntry y) p entries = .ok out) :
    Adds p out fun q as => ∀ t : Tables, as.foldlM (Tables.add q) t = .ok { t with
      locals := t.locals ++ entries.map (Insn.mapLabels y.at)
      offsets := t.offsets ++ (entries.map (Insn.mapLabels y.at)).flatMap Insn.labels } := by
  rcases tableAttribute_eq_ok h with ⟨rfl, rfl⟩ | ⟨data, hdata, hout⟩
  · refine ⟨hp, .refl p, fun q _ _ t => ?_⟩
    simp
    rfl
  · have hwrites := writes_tableOf hp hcount (fun p i out hp hi hout =>
      adds_localEntry hp hy hout (hentries i hi).1 (hentries i hi).2) hdata
    refine ⟨hwrites.sound, hwrites.within, fun q hq hfits t => ?_⟩
    have hread : ((readLocals q).under Attribute.localVariables).run data =
        .ok (entries.map (Insn.mapLabels y.at)) := ((hwrites.found q hq hfits 0).under _).run
    have hne : Attribute.localVariables ≠ Attribute.lineNumbers := by decide
    rw [hout, List.foldlM_cons, Tables.add]
    dsimp only
    rw [if_neg hne, if_pos rfl, hread]
    rfl

/-- The attribute is not one of the tables that are interpreted. -/
def Uninterpreted (a : Attribute) : Prop :=
  a.name ≠ Attribute.lineNumbers ∧ a.name ≠ Attribute.localVariables

theorem foldlM_others (q : Pool) {as : List Attribute} (h : ∀ a ∈ as, Uninterpreted a)
    (t : Tables) :
    as.foldlM (Tables.add q) t = .ok { t with others := t.others ++ as } := by
  induction as generalizing t with
  | nil =>
    simp
    rfl
  | cons a as ih =>
    obtain ⟨hlines, hlocals⟩ := h a List.mem_cons_self
    have hrest := ih (fun b hb => h b (List.mem_cons_of_mem _ hb))
      { t with others := t.others.push a }
    rw [List.foldlM_cons, Tables.add]
    dsimp only
    rw [if_neg hlines, if_neg hlocals]
    refine hrest.trans ?_
    simp

/-- What is read from the bytes of a draft: a listing with the same outline, whichever method it
is read into, and the attributes that are not interpreted. -/
theorem Draft.Of.reads_out (hp : p.Sound) (hl : l.Faithful p) (hd : d.Of p l)
    (hfit : l.TablesFit) (hothers : ∀ a ∈ m.codeAttributes, Uninterpreted a)
    (hcount : (d.attributes m).length ≤ 65535) (hlen : (d.out m).1.length < 2 ^ 32) :
    ∃ l', (d.layout.body l.insns m.codeAttributes).listing = .ok l' ∧ l'.outline = l.outline ∧
      Adds p (d.out m) fun q bs => ∀ (m₀ : Method) pos, Reads (readInto q m₀) pos bs { m₀ with
        code := some l', maxStack := m.maxStack, maxLocals := m.maxLocals
        codeAttributes := m₀.codeAttributes ++ m.codeAttributes } := by
  obtain ⟨hlists, hshort, hcoded⟩ := hd.lists hp hl
  have hlabels : ∀ i ∈ l.insns, ∀ k ∈ i.labels, k ∈ l.insns.filterMap Insn.placed? :=
    fun i hi k hk => hl.wellFormed.mem_placed_of_resolve hd.resolved hi hk
  obtain ⟨l', hlisting, houtline⟩ := Body.outline_listing
    (hlists.orderly hl.encodable)
    (hlists.boundary hl.encodable hlabels)
  refine ⟨l', hlisting, houtline.trans (hlists.outline_body hl.encodable hlabels), ?_⟩
  have hhandlers := writes_tableOf hcoded.sound (Nat.lt_succ_of_le hfit.handlers)
    (fun p i out hp hi hout => adds_handlerEntry hp hshort hout
      (of_decide_eq_true (List.mem_filter.mp hi).2)) hd.handlersOf
  have hlines := adds_lines hhandlers.sound hshort (Nat.lt_succ_of_le hfit.lines) hd.linesOf
  have hordered : ∀ i ∈ entriesUnder .localVariable l.insns,
      i.opcode = .localVariable ∧ d.layout.Ordered i.operand := by
    intro i hi
    obtain ⟨hmem, hop⟩ := List.mem_filter.mp hi
    exact ⟨of_decide_eq_true hop, hlists.ordered (hl.spans i hmem)⟩
  have hlocals := adds_locals hlines.sound hshort (Nat.lt_succ_of_le hfit.locals) hordered
    hd.localsOf
  have hattributes := writes_attributes hlocals.sound (Nat.lt_succ_of_le hcount) fun a ha =>
    Nat.lt_of_le_of_lt (length_le_writeAttributes ha d.last) (Nat.lt_of_le_of_lt
      (by rw [Draft.out, List.length_append]; exact Nat.le_add_left ..) hlen)
  have hall := hcoded.andThen (hhandlers.andThen (hlines.andThen (hlocals.andThen hattributes)))
  refine ⟨hall.sound, hall.within, fun q hq hfits m₀ pos => ?_⟩
  obtain ⟨hitems, htable, hline, hlocal, hattribute⟩ := hall.found q hq hfits
  -- the code is read to its end, whatever follows it in the file
  obtain ⟨body, hbody, hsize, hread⟩ := readInsns_of_codeBytes hshort hlists.laid hd.size_le
    hitems hd.bytes
  obtain rfl : d.code = body := hbody
  rw [Nat.zero_add] at hsize
  have hinsns : (readInsns q (d.code.length + 1) #[]).run d.code = .ok d.layout.decoded := by
    rw [Read.run, Cursor.start,
      hread d.code #[] (d.code.length + 1) rfl (Nat.zero_le _) (Nat.lt_succ_self _)]
    rfl
  -- the attributes are read in the order of the draft: lines, local variables, all others
  have htables : (d.attributes m).foldlM (Tables.add q) {} =
      .ok (d.layout.body l.insns m.codeAttributes).tables := by
    rw [Draft.attributes, List.append_assoc, List.foldlM_append, hline]
    change ((d.locals ++ m.codeAttributes).foldlM (Tables.add q) _) = _
    rw [List.foldlM_append, hlocal]
    change (m.codeAttributes.foldlM (Tables.add q) _) = _
    rw [foldlM_others q hothers]
    simp [Layout.body]
  have hword : d.layout.size.toUInt32.toNat = d.code.length := by
    rw [hsize, toNat_toUInt32 (Nat.lt_of_le_of_lt hd.size_le (by decide))]
  rw [Draft.out]
  simp only [List.append_assoc]
  refine (Reads.word m.maxStack).bind ((Reads.word m.maxLocals).bind ((Reads.u4
    (Nat.lt_of_le_of_lt hd.size_le (by decide))).bind ?_))
  rw [hword]
  refine ((Reads.bytes d.code).under _).bind (@Reads.bind _ _ _ _ _ [] _ _ _ (Reads.lift hinsns) ?_)
  refine Reads.assoc ((htable _).bind ((hattribute _).last ?_))
  refine (Reads.lift htables).last ?_
  rw [hsize]
  exact (Reads.lift hlisting).map _

end ReadBack

end Code

end ClassWeaver
