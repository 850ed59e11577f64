import ClassWeaver.Proofs.Codec.Adding

/-!
# Pools that survive being written

Whoever reads a pool skips the place behind a wide entry, and whoever writes it does the same.
Adding a constant appends it behind the last entry. These three agree as long as the last entry is
not wide and without its second place, as that of a pool that was read can be: then the first
constant that is added gets the place that is skipped, and is lost when the pool is written. So a
pool that constants were added to comes back with its entries exactly if it had all its places, or
nothing that is new was added (`survives_iff`); besides, references must have the tag of an entry
with two indices. -/

namespace ClassWeaver

namespace Pool

variable {p p₀ q : Pool} {c : Constant} {cs : List Constant}

/-! ### Entries as they are read -/

theorem Loose.tagged (h : Loose cs) : ∀ c ∈ cs, c = .unused ∨ c.Tagged := by
  induction h with
  | nil => exact fun c hc => nomatch hc
  | narrow hc _ _ ih => exact List.forall_mem_cons.mpr ⟨.inr hc, ih⟩
  | wide hc _ _ ih =>
    exact List.forall_mem_cons.mpr ⟨.inr hc, List.forall_mem_cons.mpr ⟨.inl rfl, ih⟩⟩
  | cut hc _ => exact List.forall_mem_cons.mpr ⟨.inr hc, fun c hc => nomatch hc⟩

/-- What stands behind entries that have all their places is a table of its own. -/
theorem Loose.of_append {rs : List Constant} (hrs : Regular rs) (h : Loose (rs ++ cs)) :
    Loose cs := by
  induction hrs with
  | nil => exact h
  | @narrow c rest hc hw _ ih =>
    rw [List.cons_append] at h
    generalize rest ++ cs = tail at h ih
    cases h with
    | narrow _ _ htail => exact ih htail
    | wide _ hwide _ => simp [hw] at hwide
    | cut _ hwide => simp [hw] at hwide
  | @wide c rest hc hw _ ih =>
    rw [List.cons_append, List.cons_append] at h
    generalize rest ++ cs = tail at h ih
    cases h with
    | narrow _ hnarrow _ => simp [hw] at hnarrow
    | wide _ _ htail => exact ih htail

/-- Only an unused entry stands behind a wide one. -/
theorem Loose.eq_unused (h : Loose (c :: cs)) (hc : c.isWide = true) :
    ∀ d ∈ cs.head?, d = .unused := by
  cases h with
  | narrow _ hnarrow _ => simp [hc] at hnarrow
  | wide _ _ _ => simp
  | cut _ _ => simp

/-- A pool that was read has entries as they are read. -/
theorem entries_of_read {x x' : Cursor} (h : Pool.read x = .ok (p, x')) :
    ∃ cs, p.entries.toList = .unused :: cs ∧ Loose cs := by
  obtain ⟨entries, cs, rfl, hcs, hloose⟩ := yields_read x p x' h
  exact ⟨cs, hcs, hloose⟩

end Pool

/-! ### Additions that leave a pool sound -/

namespace Addition

variable {p q : Pool} {a : Addition} {i : UInt16}

/-- A reference has the tag of an entry with two indices. -/
def Proper : Addition → Prop
  | member tag _ _ _ => Tag.isPair tag = true
  | _ => True

theorem sound_of_on (hp : p.Sound) (ha : a.Proper) {out : UInt16 × Pool} (h : a.on p = .ok out) :
    out.2.Sound := by
  cases a with
  | text t => exact Except.ok.inj h ▸ (Pool.adds_addText hp t).sound
  | classRef name => exact Except.ok.inj h ▸ (Pool.adds_addClass hp name).sound
  | string t => exact Except.ok.inj h ▸ (Pool.adds_addSingle hp (by decide) t).sound
  | nameAndType name desc => exact Except.ok.inj h ▸ (Pool.adds_addNameAndType hp name desc).sound
  | member tag owner name desc =>
    obtain rfl := Except.ok.inj h
    have howner := Pool.adds_addClass hp owner
    have hnat := Pool.adds_addNameAndType howner.sound name desc
    rw [Pool.addMember_eq]
    exact (Pool.adds_add (c := .pair tag _ _) hnat.sound ha).sound
  | loadable v =>
    by_cases hv : ∃ j, v = .pooled j
    · obtain ⟨j, rfl⟩ := hv
      obtain ⟨c, -, h⟩ := Except.bind_eq_ok_iff.mp h
      exact Except.ok.inj h ▸ hp
    · exact (Pool.adds_addLoadable hp (fun j hj => absurd ⟨j, hj⟩ hv) h).sound

/-- What is found depends on the entries only. -/
theorem Resolves.congr (h : a.Resolves p i) (hpq : p.Preserved q) (hqp : q.Preserved p) :
    a.Resolves q i := by
  cases a with
  | text t => exact hpq.textAt h
  | classRef name => exact hpq.className h
  | string t => exact hpq.loadable h
  | nameAndType name desc => exact hpq.nameAndType h
  | member tag owner name desc => exact fun htag => hpq.member (h htag)
  | loadable v =>
    refine fun hv => hpq.loadable (h fun j hj => ?_)
    obtain ⟨c, hc, htag⟩ := hv j hj
    exact ⟨c, hqp.get hc, htag⟩

end Addition

namespace Pool

variable {p₀ p q : Pool} {as : List Addition} {bytes : List UInt8}

theorem Sound.after (hp : p.Sound) (has : ∀ a ∈ as, a.Proper) : (p.after as).Sound := by
  induction as generalizing p with
  | nil => exact hp
  | cons a as ih =>
    obtain ⟨ha, has⟩ := List.forall_mem_cons.mp has
    unfold Pool.after
    split
    · next i q hq => exact ih (Addition.sound_of_on hp ha hq) has
    · exact ih hp has

theorem after_append (p : Pool) (as bs : List Addition) :
    p.after (as ++ bs) = (p.after as).after bs := by
  induction as generalizing p with
  | nil => rfl
  | cons a as ih =>
    rw [List.cons_append, Pool.after, Pool.after]
    split <;> exact ih _

/-- What was added stands in the pool in the end. -/
theorem Keyed.standsAt (hp : p₀.Keyed) {before later : List Addition} {a : Addition}
    {out : UInt16 × Pool} (ha : a.on (p₀.after before) = .ok out) :
    a.StandsAt (p₀.after (before ++ a :: later)) out.1 := by
  have hputs := Addition.puts (hp.after before).1 ha
  have hstep : p₀.after (before ++ a :: later) = out.2.after later := by
    rw [after_append, Pool.after, ha]
  rw [hstep]
  exact hputs.kept _ (hputs.keyed.after later).2

/-- The bytes of a pool that constants were added to are read back, without anything left over, as
a pool with the same entries, where all indices that were given out find what was added. -/
structure Survives (p₀ : Pool) (as : List Addition) (bytes : List UInt8) (q : Pool) : Prop where
  reads : ∀ pos, Reads Pool.read pos bytes q
  entries : q.entries = (p₀.after as).entries
  resolves : ∀ {before a later i p}, as = before ++ a :: later →
    a.on (p₀.after before) = .ok (i, p) → a.Resolves q i

/-- The entries of a pool as they are read come back. -/
theorem survives_of_loose (hp : p₀.Keyed) {cs : List Constant}
    (hcs : (p₀.after as).entries.toList = .unused :: cs) (hloose : Loose cs)
    (hwrite : (p₀.after as).write = .ok bytes) :
    p₀.Survives as bytes (ofEntries (p₀.after as).entries) where
  reads := fun pos => (reads_of_write_loose hcs hloose hwrite pos).2
  entries := rfl
  resolves := fun {before a later i p} heq ha => by
    have hfits := (reads_of_write_loose hcs hloose hwrite 0).1
    subst heq
    have hstands : a.StandsAt (p₀.after (before ++ a :: later)) i := hp.standsAt ha
    exact (hstands.resolves hfits).congr (preserved_of_get fun h => h) (preserved_of_get fun h => h)

/-- What survives has entries as they are read. -/
theorem Survives.loose (h : p₀.Survives as bytes q) :
    ∃ cs, (p₀.after as).entries.toList = .unused :: cs ∧ Loose cs := by
  have hread := h.reads 0 bytes [] (by simp) (Nat.zero_le _)
  rw [← h.entries]
  exact entries_of_read hread

/-- A reference that survives has the tag of an entry with two indices. -/
theorem Survives.proper (h : p₀.Survives as bytes q) (hp : p₀.Keyed) : ∀ a ∈ as, a.Proper := by
  intro a ha
  obtain ⟨cs, hcs, hloose⟩ := h.loose
  obtain ⟨before, later, rfl⟩ := List.append_of_mem ha
  cases a with
  | member tag owner name desc =>
    have hadd : Addition.on (p₀.after before) (.member tag owner name desc) =
        .ok ((p₀.after before).addMember tag owner name desc) := rfl
    have hstands : MemberAt (p₀.after (before ++ .member tag owner name desc :: later)) _ _ _ _ _ :=
      hp.standsAt hadd
    obtain ⟨j, k, -, -, n, -, hn, hentry, -⟩ := hstands
    rw [← Array.getElem?_toList, hcs] at hentry
    obtain ⟨n, rfl⟩ := Nat.exists_eq_succ_of_ne_zero hn
    rcases hloose.tagged _ (List.mem_of_getElem? hentry) with hunused | htagged
    · cases hunused
    · exact htagged
  | _ => trivial

/-- Nothing survives behind a wide entry that lacks its second place. -/
theorem Survives.paired_or_count (h : p₀.Survives as bytes q) (hgrows : p₀.Grows (p₀.after as))
    {cs₀ : List Constant} (hcs₀ : p₀.entries.toList = .unused :: cs₀) (hloose₀ : Loose cs₀) :
    p₀.Paired ∨ (p₀.after as).count = p₀.count := by
  obtain ⟨cs, hcs, hloose⟩ := h.loose
  obtain ⟨new, hnew, hadded⟩ := hgrows.added
  rcases hloose₀.regular_or_cut with hregular | ⟨rs, c, rfl, hrs, hwide⟩
  · exact .inl (paired_of_regular hcs₀ hregular)
  right
  cases new with
  | nil =>
    rw [List.flatMap_nil, List.append_nil] at hadded
    rw [count, count, ← Array.length_toList, ← Array.length_toList, hadded]
  | cons d new =>
    -- the first new constant would have to be unused
    rw [hcs, hcs₀, List.cons_append, List.append_assoc] at hadded
    have htail : Loose ([c] ++ (d :: new).flatMap newEntries) :=
      .of_append hrs ((List.cons.inj hadded).2 ▸ hloose)
    have hhead : ((d :: new).flatMap newEntries).head? = some d := by
      rw [List.flatMap_cons, newEntries]
      split <;> rfl
    exact absurd (htail.eq_unused hwide d hhead) (hnew d List.mem_cons_self)

/-- **Which pools survive being written.** A pool that was read and that constants were added to
comes back from the bytes that are written, with every entry in its place, exactly if each of its
wide entries had a second place or nothing was appended, and all references have proper tags. -/
theorem survives_iff {x x' : Cursor} (hread : Pool.read x = .ok (p₀, x'))
    (hwrite : (p₀.after as).write = .ok bytes) :
    (∃ q, p₀.Survives as bytes q) ↔
      (p₀.Paired ∨ (p₀.after as).count = p₀.count) ∧ ∀ a ∈ as, a.Proper := by
  have hkeyed : p₀.Keyed := Initial.keyed (.inr ⟨x, x', hread⟩)
  obtain ⟨cs₀, hcs₀, hloose₀⟩ := entries_of_read hread
  obtain ⟨-, hgrows⟩ := hkeyed.after as
  constructor
  · rintro ⟨q, hq⟩
    exact ⟨hq.paired_or_count hgrows hcs₀ hloose₀, hq.proper hkeyed⟩
  · rintro ⟨hpaired | hcount, hproper⟩
    · have hsound : (p₀.after as).Sound := (sound_of_read x p₀ x' hread hpaired).after hproper
      obtain ⟨cs, hcs, hregular⟩ := hsound.regular
      exact ⟨_, survives_of_loose hkeyed hcs hregular.loose hwrite⟩
    · have hsame : p₀.entries.toList = (p₀.after as).entries.toList := by
        refine hgrows.within.eq_of_length ?_
        rw [Array.length_toList, Array.length_toList]
        exact hcount.symm
      exact ⟨_, survives_of_loose hkeyed (hsame ▸ hcs₀) hloose₀ hwrite⟩

/-- The bytes of a pool with a class and a `long` that has its second place. -/
def pairedBytes : List UInt8 :=
  [0, 5] ++ [1, 0, 1, 65] ++ [7, 0, 1] ++ [5, 0, 0, 0, 0, 0, 0, 0, 9]

theorem read_pairedBytes : ∃ p x', Pool.read (.start pairedBytes) = .ok (p, x') ∧
    p.entries = #[.unused, .utf8 "A", .single Tag.classRef 1, .long 9, .unused] :=
  exists_of_read (by decide +kernel)

/-- A new text behind some entries. -/
theorem addText_eq {t : Text} (hp : p.Keyed) (hnew : .utf8 t ∉ p.entries.toList) :
    p.addText t = (p.count.toUInt16, p.after [.text t]) ∧
      (p.after [.text t]).entries.toList = p.entries.toList ++ [.utf8 t] := by
  have hadd : p.addText t = (p.count.toUInt16, p.extended (.utf8 t)) :=
    hp.add_of_new fun h => hnew h.1
  have hafter : p.after [.text t] = (p.addText t).2 := rfl
  rw [hafter, hadd]
  exact ⟨rfl, entries_extended p _⟩

/-- A pool whose `long` has its second place survives with a text behind it. -/
theorem survives_paired : ∃ p₀ x' bytes q,
    Pool.read (.start pairedBytes) = .ok (p₀, x') ∧
    (p₀.after [.text "B"]).write = .ok bytes ∧ p₀.Survives [.text "B"] bytes q := by
  obtain ⟨p₀, x', hread, hentries⟩ := read_pairedBytes
  have hnew : (.utf8 "B" : Constant) ∉ p₀.entries.toList := by
    rw [hentries]
    decide
  have hlist : p₀.entries.toList =
      .unused :: [.utf8 "A", .single Tag.classRef 1, .long 9, .unused] := by rw [hentries]
  have hpaired : p₀.Paired := paired_of_regular hlist
    (.narrow trivial rfl (.narrow (show Tag.isSingle Tag.classRef = true by decide) rfl
      (.wide trivial rfl .nil)))
  obtain ⟨bytes, hwrite⟩ : ∃ bytes, (p₀.after [.text "B"]).write = .ok bytes := by
    have htable := (addText_eq (Initial.keyed (.inr ⟨_, x', hread⟩)) hnew).2
    rw [hlist] at htable
    rw [write, count, ← Array.length_toList, htable]
    exact ⟨_, rfl⟩
  obtain ⟨q, hq⟩ := (survives_iff hread hwrite).mpr
    ⟨.inl hpaired, List.forall_mem_singleton.mpr trivial⟩
  exact ⟨p₀, x', bytes, q, hread, hwrite, hq⟩

/-- The text behind a `long` without a second place is written to the place that is skipped: the
bytes are those of a pool without it, in which its index leads nowhere. -/
theorem survives_astray : ∃ p₀ x' i p q y', Pool.read (.start cutBytes) = .ok (p₀, x') ∧
    Addition.on p₀ (.text "B") = .ok (i, p) ∧ p.textAt i = .ok "B" ∧ p.write = .ok pairedBytes ∧
    Pool.read (.start pairedBytes) = .ok (q, y') ∧ q.entries ≠ p.entries ∧
    q.textAt i ≠ .ok "B" := by
  obtain ⟨p₀, x', hread, hentries⟩ := read_cutBytes
  obtain ⟨q, y', hback, hfound⟩ := read_pairedBytes
  have hkeyed : p₀.Keyed := Initial.keyed (.inr ⟨_, x', hread⟩)
  have hnew : (.utf8 "B" : Constant) ∉ p₀.entries.toList := by
    rw [hentries]
    decide
  obtain ⟨hadd, htable⟩ := addText_eq hkeyed hnew
  -- the `long` takes one place here, so the text is at index 4
  have hindex : p₀.count.toUInt16 = 4 := by
    rw [count, hentries]
    rfl
  have htable : (p₀.after [.text "B"]).entries =
      #[.unused, .utf8 "A", .single Tag.classRef 1, .long 9, .utf8 "B"] := by
    rw [← Array.toList_inj, htable, hentries]
    rfl
  have hget : (p₀.after [.text "B"]).get 4 = .ok (.utf8 "B") := by
    rw [get, htable]
    rfl
  refine ⟨p₀, x', 4, p₀.after [.text "B"], q, y', hread, ?_, textAt_of_get hget, ?_, hback, ?_, ?_⟩
  · exact congrArg Except.ok (hindex ▸ hadd)
  · rw [write, count, htable]
    rfl
  · rw [hfound, htable]
    decide
  · rw [textAt, expect, get, hfound]
    intro h
    cases h

end Pool

end ClassWeaver
