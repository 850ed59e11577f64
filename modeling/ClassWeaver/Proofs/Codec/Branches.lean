import ClassWeaver.Proofs.Codec.Offsets

/-!
# Branches of code that was read

Reading puts labels in place of byte offsets. A label is made for every offset that a branch or a
table names, before it is known where instructions start, and is placed when the sequence is put
together. `Raw.Depicts` says that nothing is lost or moved on the way: the listing resolves, every
label is placed exactly once, and it stands where its offset is in the bytes. `Raw` tells both the
offsets and the starts of instructions from the bytes alone.

The main result is `depicts_of_readInto`. Code that is read is depicted by its listing, and code
that names an offset which is negative, past the end or inside an instruction is not read.
-/

namespace ClassWeaver

namespace Code

/-! ### Where labels stand -/

/-- A label entry with line entries of the label behind it. -/
def heading (k : Label) (lines : List UInt16) : List Insn :=
  .place k :: lines.map fun line => .line line k

/-- The label is placed for an offset of code of a size whose instructions start at the given
offsets: in front of the instruction that starts there, or behind all instructions if the offset is
the end of the code. In between there are the line entries of the label and nothing else. -/
inductive Stands (starts : List Nat) (size : Nat) (k : Label) (lines : List UInt16) :
    List Insn → Int → Prop where
  /-- As many instructions are in front as start at earlier offsets. -/
  | front {xs ys : List Insn} {i : Insn} {pc : Nat} (hi : i.isReal = true)
      (hpc : starts[xs.countP Insn.isReal]? = some pc) :
      Stands starts size k lines (xs ++ heading k lines ++ i :: ys) pc
  | behind {xs ys : List Insn} (hys : ∀ i ∈ ys, i.isReal = false) :
      Stands starts size k lines (xs ++ heading k lines ++ ys) size

namespace Body

variable {b : Body} {m : Std.HashMap Label Nat}

/-- In the sequence of a body the number of a boundary stands for it. -/
theorem stands_sequence (ho : b.Orderly) {o : Label} (hb : b.Boundary o)
    (hm : ∃ n, m[o]? = some n) :
    Stands (b.insns.map Prod.fst) b.size (number m o)
      ((b.tables.lines.toList.filter fun e => (e.1 : Label) = o).map Prod.snd)
      (b.sequence m) o := by
  have hlines : ∀ pc : Nat, b.linesAt pc =
      (b.tables.lines.toList.filter fun e => (e.1 : Label) = pc).map Prod.snd := by
    intro pc
    rw [linesAt]
    congr 2
    funext e
    exact decide_eq_decide.mpr Int.natCast_inj.symm
  obtain ⟨n, hn⟩ := hm
  rcases hb with rfl | ⟨e, he, rfl⟩
  · -- at the end of the code nothing but local variable entries follows
    have hsequence : b.sequence m =
        (b.handlers.map (Insn.mapLabels (number m)) ++ b.stretch m b.insns) ++
          heading (number m b.size) (b.linesAt b.size) ++
            b.tables.locals.toList.map (Insn.mapLabels (number m)) := by
      rw [sequence_eq, entriesAt_of_some b m hn, heading]
      simp only [List.append_assoc]
    rw [hsequence, hlines]
    refine .behind (List.forall_mem_map.mpr fun i hi => ?_)
    rw [Insn.isReal, Insn.mapLabels, (ho.localVariable i (Array.mem_toList_iff.mp hi)).1]
    rfl
  · -- in front of an instruction the label heads the entries of its offset
    obtain ⟨xs, ys, hsplit⟩ := List.append_of_mem he
    have hsequence : b.sequence m =
        (b.handlers.map (Insn.mapLabels (number m)) ++ b.stretch m xs) ++
          heading (number m e.1) (b.linesAt e.1) ++ e.2.mapLabels (number m) ::
            (b.stretch m ys ++ (b.entriesAt m b.size ++
              b.tables.locals.toList.map (Insn.mapLabels (number m)))) := by
      rw [sequence_of_split hsplit, entriesAt_of_some b m hn, heading]
      simp only [List.append_assoc]
    have hcount : (b.handlers.map (Insn.mapLabels (number m)) ++ b.stretch m xs).countP
        Insn.isReal = xs.length := by
      rw [List.countP_append, countP_handlers ho, Nat.zero_add,
        countP_stretch fun d hd => (ho.real d (hsplit ▸ List.mem_append_left _ hd)).1]
    rw [hsequence, hlines]
    refine .front (ho.real e he).1 ?_
    rw [hcount, hsplit, List.map_append, List.map_cons,
      List.getElem?_append_right (Nat.le_of_eq (List.length_map ..)), List.length_map, Nat.sub_self]
    rfl

/-- The numbers that are given out are those of the offsets. -/
theorem lt_size_iff {k : Label} : 0 ≤ k ∧ k < (labelNumbers b.offsets).size ↔
    ∃ o ∈ b.offsets, number (labelNumbers b.offsets) o = k := by
  have hm := numbers_labelNumbers b.offsets
  constructor
  · rintro ⟨hk, hlt⟩
    obtain ⟨n, rfl⟩ := Int.eq_ofNat_of_zero_le hk
    obtain ⟨o, hn⟩ := exists_of_lt_size (Int.ofNat_lt.mp hlt)
    exact ⟨o, (hm.numbered o).mp ⟨n, hn⟩, number_of_some hn⟩
  · rintro ⟨o, ho, rfl⟩
    obtain ⟨n, hn⟩ := (hm.numbered o).mpr ho
    rw [number_of_some hn]
    exact ⟨Int.natCast_nonneg n, Int.ofNat_lt.mpr (hm.lt_size hn)⟩

/-- If all offsets are boundaries, the labels that are placed are the numbers given out. -/
theorem mem_placed_iff (ho : b.Orderly) (hb : ∀ o ∈ b.offsets, b.Boundary o) {k : Label} :
    k ∈ (b.sequence (labelNumbers b.offsets)).filterMap Insn.placed? ↔
      0 ≤ k ∧ k < (labelNumbers b.offsets).size := by
  have hm := numbers_labelNumbers b.offsets
  rw [placed_sequence ho, List.mem_filterMap]
  constructor
  · rintro ⟨pc, -, hk⟩
    obtain ⟨n, hn, rfl⟩ := Option.map_eq_some_iff.mp hk
    exact ⟨Int.natCast_nonneg n, Int.ofNat_lt.mpr (hm.lt_size hn)⟩
  · intro hk
    obtain ⟨o, hoffset, rfl⟩ := lt_size_iff.mp hk
    obtain ⟨n, hn⟩ := (hm.numbered o).mpr hoffset
    have hbound : ∃ pc ∈ b.bounds, o = (pc : Nat) := by
      rcases hb o hoffset with rfl | ⟨e, he, rfl⟩
      · exact ⟨b.size, List.mem_append_right _ List.mem_cons_self, rfl⟩
      · exact ⟨e.1, List.mem_append_left _ (List.mem_map.mpr ⟨e, he, rfl⟩), rfl⟩
    obtain ⟨pc, hpc, rfl⟩ := hbound
    refine ⟨pc, hpc, ?_⟩
    rw [labelAt, hn, number_of_some hn]
    rfl

end Body

/-! ### Listings that depict code -/

/-- The listing shows the code of a code attribute, with the labels that a function makes of
offsets in place of them. -/
structure Raw.Depicts (p : Pool) (data : List UInt8) (l : Listing) (labelOf : Int → Label) :
    Prop where
  resolves : l.resolve = .ok ()
  /-- The labels handed out are those of the offsets that the bytes name. -/
  allocated : ∀ k : Label, 0 ≤ k ∧ k < l.numLabels ↔ ∃ o ∈ Raw.offsets p data, labelOf o = k
  /-- Every label that was handed out is placed once, and no other. -/
  placements : ∀ k : Label, l.placements k = if 0 ≤ k ∧ k < l.numLabels then 1 else 0
  /-- The label of an offset stands in front of the instruction that starts there, or at the end. -/
  stands : ∀ o ∈ Raw.offsets p data,
    Stands (Raw.starts (Raw.code data)) (Raw.code data).length (labelOf o)
      (((Raw.lines p data).filter fun e => (e.1 : Int) = o).map Prod.snd) l.insns o
  /-- The instructions are those that are read at the starts told by the bytes, in that order, and
  branch to the labels of the offsets that the bytes tell. -/
  insns : List.Forall₂ (fun pc i => ∃ j, Raw.ReadAt p (Raw.code data) pc j ∧
      i = j.mapLabels labelOf ∧ i.labels = (Raw.targets (Raw.code data) pc).map labelOf)
    (Raw.starts (Raw.code data)) (l.insns.filter Insn.isReal)
  handlers : (entriesUnder .tryCatch l.insns).map Insn.labels =
    (Raw.handlers data).map (List.map labelOf)
  locals : (entriesUnder .localVariable l.insns).map Insn.labels =
    (Raw.locals p data).map (List.map labelOf)
  /-- Line entries stand in the order of their offsets, and under the label of theirs. -/
  lines : l.insns.filterMap Insn.line? =
    ((Raw.starts (Raw.code data) ++ [(Raw.code data).length]).flatMap fun pc =>
      (Raw.lines p data).filter fun e => e.1 = pc).map fun e => (labelOf e.1, e.2)

namespace Raw.Found

variable {p : Pool} {data : List UInt8} {b : Body} {l : Listing}

/-- The listing of a body depicts the code that the body was read from. -/
theorem depicts (h : Found p data b) (hs : b.Sound p) (hl : b.listing = .ok l) :
    Depicts p data l (Body.number (labelNumbers b.offsets)) := by
  obtain ⟨hfaithful, htidy⟩ := hs.faithful hl
  obtain ⟨hb, rfl⟩ := Body.listing_eq_ok hl
  have ho := hs.orderly
  have hm := numbers_labelNumbers b.offsets
  have hsize : (Listing.ofInsns (labelNumbers b.offsets).size
      (b.sequence (labelNumbers b.offsets))).numLabels = (labelNumbers b.offsets).size :=
    Listing.numLabels_ofInsns fun i hi k hk =>
      ((Body.mem_placed_iff ho hb).mp (List.mem_filterMap.mpr ⟨i, hi, hk⟩)).2
  have hlines : b.tables.lines.toList = Raw.lines p data := h.tables.lines
  -- renaming the entries renames their operands
  have hmap : ∀ is : List Insn, (is.map (Insn.mapLabels (Body.number (labelNumbers b.offsets)))).map
      Insn.labels = (is.map Insn.labels).map
        (List.map (Body.number (labelNumbers b.offsets))) := by
    intro is
    rw [List.map_map, List.map_map]
    exact List.map_congr_left fun i _ => Insn.labels_mapLabels ..
  refine { resolves := resolve_of_tidy hfaithful htidy, allocated := fun k => ?allocated,
           placements := fun k => ?placements, stands := fun o hoffset => ?stands,
           insns := ?insns, handlers := ?handlers, locals := ?locals, lines := ?lines }
  case allocated =>
    rw [hsize, Body.lt_size_iff]
    simp only [h.mem_offsets hs]
  case placements =>
    have hnodup := htidy.nodup
    rw [Listing.insns_ofInsns] at hnodup
    rw [Listing.placements_eq_count, hsize, Listing.insns_ofInsns]
    split
    · next hk => exact List.count_eq_one_of_mem hnodup ((Body.mem_placed_iff ho hb).mpr hk)
    · next hk => exact List.count_eq_zero.mpr (mt (Body.mem_placed_iff ho hb).mp hk)
  case stands =>
    have hoffset := (h.mem_offsets hs).mpr hoffset
    have hstands := Body.stands_sequence ho (hb o hoffset) ((hm.numbered o).mpr hoffset)
    rwa [← h.starts_eq, h.size, hlines, ← Listing.insns_ofInsns (labelNumbers b.offsets).size
      (b.sequence (labelNumbers b.offsets))] at hstands
  case insns =>
    rw [Listing.insns_ofInsns, Body.filter_sequence_real ho, List.map_map]
    refine List.forall₂_map_right_iff.mpr (h.insns.imp fun pc e he => ⟨e.2, he.2, rfl, ?_⟩)
    rw [← he.2.labels]
    exact Insn.labels_mapLabels ..
  case handlers =>
    rw [Listing.insns_ofInsns, Body.entriesUnder_tryCatch ho, hmap, h.handlers]
  case locals =>
    rw [Listing.insns_ofInsns, Body.entriesUnder_localVariable ho, hmap, h.tables.locals]
    rfl
  case lines =>
    rw [Listing.insns_ofInsns, Body.lines_sequence hm ho fun e he =>
      List.mem_append_right _ (Array.mem_toList_iff.mpr (hs.tables.lines e he)), Body.bounds,
      ← h.starts_eq, h.size, ← hlines]
    rfl

/-- No offset of a body that has a listing is astray. -/
theorem not_astray (h : Found p data b) (hs : b.Sound p) (hl : b.listing = .ok l) {o : Int}
    (ho : o ∈ offsets p data) : ¬Astray data o := by
  have hboundary : o = ((code data).length : Int) ∨ ∃ e ∈ b.insns, o = (e.1 : Int) :=
    h.size ▸ (Body.listing_eq_ok hl).1 o ((h.mem_offsets hs).mpr ho)
  rcases hboundary with rfl | ⟨e, he, rfl⟩
  · rintro (hneg | hlt | ⟨pc, hpc, hlo, hhi⟩)
    · omega
    · omega
    · rw [h.starts_eq] at hpc
      obtain ⟨e, he, rfl⟩ := List.mem_map.mp hpc
      have := (h.readAt e he).complete
      omega
  · have hmem : e.1 ∈ starts (code data) := by
      rw [h.starts_eq]
      exact List.mem_map.mpr ⟨e, he, rfl⟩
    have hbelow := hs.insns.below e he
    rw [h.size] at hbelow
    rintro (hneg | hlt | ⟨pc, hpc, hlo, hhi⟩)
    · omega
    · omega
    · have := end_le_of_lt hpc hmem (Int.ofNat_lt.mp hlo)
      omega

end Raw.Found

/-- Code that is read is depicted by its listing, and code that names an offset astray is not
read. -/
theorem depicts_of_readInto (p : Pool) (m : Method) (data : List UInt8) :
    (∀ m', (readInto p m).run data = .ok m' →
      ∃ l labelOf, m'.code = some l ∧ Raw.Depicts p data l labelOf) ∧
      ((∃ o ∈ Raw.offsets p data, Raw.Astray data o) →
        ∃ e, (readInto p m).run data = .error e) := by
  refine ⟨fun m' h => ?_, fun ⟨o, ho, hastray⟩ => ?_⟩
  · obtain ⟨b, l, hfound, hsound, hl, hcode⟩ := exists_found h
    exact ⟨l, _, hcode, hfound.depicts hsound hl⟩
  · cases h : (readInto p m).run data with
    | error e => exact ⟨e, rfl⟩
    | ok m' =>
      obtain ⟨b, l, hfound, hsound, hl, -⟩ := exists_found h
      exact absurd hastray (hfound.not_astray hsound hl ho)

/-! ### Code with branches of all kinds -/

/-- A pool with the name of one attribute. -/
def branchPool : Pool := { entries := #[.unused, .utf8 Attribute.lineNumbers] }

/-- A method without code. -/
def branchMethod : Method := { name := "f", desc := "()V" }

/-- A jump forward, a wide jump back, a switch that is padded and a return. One handler covers them
all and starts at the return, where the only line entry is too. -/
def branchData : List UInt8 :=
  [0, 0, 0, 0, 0, 0, 0, 29] ++
    [0xA7, 0, 3, 0xC8, 0xFF, 0xFF, 0xFF, 0xFD, 0xAA, 0, 0, 0, 0, 0, 0, 20, 0, 0, 0, 0, 0, 0, 0, 0,
      0xFF, 0xFF, 0xFF, 0xF8, 0xB1] ++
    [0, 1, 0, 0, 0, 29, 0, 28, 0, 0] ++ [0, 1, 0, 1, 0, 0, 0, 6, 0, 1, 0, 28, 0, 7]

example : Raw.offsets branchPool branchData = [3, 0, 28, 0, 0, 29, 28, 28] := by decide +kernel

/-- A jump into itself. -/
def astrayData : List UInt8 := [0, 0, 0, 0, 0, 0, 0, 3, 0xA7, 0, 1, 0, 0, 0, 0]

/-- The code with its offsets. -/
def branchBody : Body where
  size := 29
  insns := [(0, .jump .goto 3), (3, .jump .goto 0),
    (8, ⟨.tableSwitch, .tableSwitch 0 0 28 [0]⟩), (28, .plain .voidReturn)]
  handlers := [⟨.tryCatch, .tryCatch 0 29 28 []⟩]
  tables := { lines := #[(28, 7)], offsets := #[28] }

theorem listing_branchBody : ∃ l, branchBody.listing = .ok l := by
  have ho : branchBody.Orderly :=
    ⟨by decide, by decide, by decide, by decide, nofun, nofun, by decide +kernel⟩
  have hb : ∀ o ∈ branchBody.offsets, branchBody.Boundary o := by
    unfold Body.Boundary
    decide +kernel
  obtain ⟨l, hl, -⟩ := Body.outline_listing ho hb
  exact ⟨l, hl⟩

theorem reads_branchData : ∃ m', Reads (readInto branchPool branchMethod) 0 branchData m' := by
  obtain ⟨l, hl⟩ := listing_branchBody
  have hinsns : (readInsns branchPool 30 #[]).run (Raw.code branchData) = .ok branchBody.insns := by
    rfl
  have hwords : ∀ pos, Reads (do return (← Read.u2, ← Read.u2, ← Read.u2, ← Read.u2) :
      Read (UInt16 × UInt16 × UInt16 × UInt16)) pos [0, 0, 0, 29, 0, 28, 0, 0] (0, 29, 28, 0) :=
    fun pos => (Reads.word 0).bind ((Reads.word 29).bind ((Reads.word 28).bind
      ((Reads.word 0).map _)))
  have hhandler : ∀ n pos, Reads (readHandler branchPool n) pos [0, 0, 0, 29, 0, 28, 0, 0]
      ⟨.tryCatch, .tryCatch 0 29 28 []⟩ := fun n pos => ((hwords pos).under _).last (.pure _)
  have hhandlers : ∀ pos, Reads (Read.repeated (readHandler branchPool) 1) pos
      [0, 0, 0, 29, 0, 28, 0, 0] branchBody.handlers := fun pos =>
    Reads.repeated (.cons hhandler .nil)
  have hattributes : ∀ pos, Reads (readAttributes branchPool) pos
      [0, 1, 0, 1, 0, 0, 0, 6, 0, 1, 0, 28, 0, 7]
        [⟨Attribute.lineNumbers, [0, 1, 0, 28, 0, 7]⟩] := by
    intro pos data rest _ _
    rfl
  have htables : [(⟨Attribute.lineNumbers, [0, 1, 0, 28, 0, 7]⟩ : Attribute)].foldlM
      (Tables.add branchPool) {} = .ok branchBody.tables := by rfl
  refine ⟨{ branchMethod with code := some l }, ?_⟩
  refine (Reads.word 0).bind ((Reads.word 0).bind ((Reads.u4 (n := 29) (by decide)).bind
    (((Reads.bytes (Raw.code branchData)).under _).bind ?_)))
  refine @Reads.bind _ _ _ _ _ [] _ _ _ (Reads.lift hinsns) ?_
  refine (Reads.word 1).bind ((hhandlers _).bind ((hattributes _).last ?_))
  exact (Reads.lift htables).last ((Reads.lift hl).map _)

theorem depicts_branchData :
    (∃ m', (readInto branchPool branchMethod).run branchData = .ok m' ∧
      ∃ l labelOf, m'.code = some l ∧ Raw.Depicts branchPool branchData l labelOf) ∧
      (∃ o ∈ Raw.offsets branchPool astrayData, Raw.Astray astrayData o) ∧
        ∃ e, (readInto branchPool branchMethod).run astrayData = .error e := by
  obtain ⟨m', hread⟩ := reads_branchData
  have hastray : ∃ o ∈ Raw.offsets branchPool astrayData, Raw.Astray astrayData o := by
    have hoffsets : Raw.offsets branchPool astrayData = [1] := by decide +kernel
    have hstarts : Raw.starts (Raw.code astrayData) = [0] := by decide +kernel
    refine ⟨1, ?_, .inr (.inr ⟨0, ?_, by decide, by decide +kernel⟩)⟩
    · rw [hoffsets]
      exact List.mem_singleton_self 1
    · rw [hstarts]
      exact List.mem_singleton_self 0
  exact ⟨⟨m', hread.run, (depicts_of_readInto _ _ _).1 m' hread.run⟩, hastray,
    (depicts_of_readInto _ _ _).2 hastray⟩

end Code

end ClassWeaver
