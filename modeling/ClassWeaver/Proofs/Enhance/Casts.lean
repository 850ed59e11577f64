import ClassWeaver.Proofs.Enhance.Arrays
import ClassWeaver.Proofs.Stack.Tokens

/-!
# What a cast hits

A cast that the standard rules insert for a store stands in front of straight code that ends at the
store (`stretch_of_narrow`). The value that it checks is the one on top of the stack, and whether
that is the array which the store takes, third from the top, can be read off the code in between: it
is if and only if the origin of the third value is the top (`cast_hits_iff`). It is so whenever
nothing in between takes that value or puts another one under it. The scan has counted only, but it
has counted from the store back, and ended as soon as the count was right. So what is highest when
the cast runs is not the highest again before the store.

Counting does not see what `dup_x2` and its like move. In a chained assignment the stored value is
put under the array, and the cast hits the index (`chained_astray`). -/

namespace ClassWeaver

namespace Listing

variable {l : Listing} {xs bs ys : List Ref} {c r : Ref}

/-- The instructions behind a node and in front of another one. -/
def between (l : Listing) (c r : Ref) : List Insn :=
  (((l.refs.takeWhile (· ≠ r)).dropWhile (· ≠ c)).drop 1).filterMap l.insn?

theorem between_eq (hl : l.Spells (xs ++ c :: (bs ++ r :: ys))) :
    l.between c r = bs.filterMap l.insn? := by
  have hsplit : xs ++ c :: (bs ++ r :: ys) = (xs ++ c :: bs) ++ r :: ys := by simp
  have hnd : ((xs ++ c :: bs) ++ r :: ys).Nodup := hsplit ▸ hl.nodup
  have hc : ∀ q ∈ xs, q ≠ c := by
    rintro q hq rfl
    have hnd' := (List.nodup_append.mp hnd).1
    exact (List.nodup_append.mp hnd').2.2 q hq q List.mem_cons_self rfl
  rw [between, hl.refs_eq, hsplit, takeWhile_ne hnd,
    List.dropWhile_append_of_pos (by simpa using hc),
    List.dropWhile_cons_of_neg (by simp), List.drop_one, List.tail_cons]

end Listing

namespace Chain

open Listing Enhance

variable {ctx : Context} {l l₁ : Listing}
variable {h : Ref → Option Nat} {xs rest : List Ref} {r : Ref}
    {start resume : Option Ref} {i : Insn}

/-! ### How far a scan gets -/

/-- A scan that gets to a node has carried everything on. -/
theorem Reaches.carried (hr : standard.Reaches ctx start l r l₁) (hl : l.Built)
    (hh : l.FlowHeights h) (hret : ∀ i ∈ l.insns, i.opcode ≠ .ret)
    (hrefs : l.refs = xs ++ rest) (hstart : start = rest.head?)
    (hbyte : ∀ q ∈ xs, ∀ i, l.insn? q = some i → ¬i.IsByteAccess) :
    ∃ front back h₁, l₁.refs = front ++ r :: back ∧ l.Carried h l₁ h₁ := by
  induction hr generalizing h xs rest with
  | @here r l =>
    obtain ⟨back, rfl⟩ := List.head?_eq_some_iff.mp hstart.symm
    exact ⟨xs, back, h, hrefs, .refl hl hh⟩
  | @visit r q l l₁ l₂ resume hvisit _ ih =>
    obtain ⟨back, rfl⟩ := List.head?_eq_some_iff.mp hstart.symm
    -- what is behind the visited node is as it was, and the scan goes on there
    obtain ⟨front, h₁, hrefs₁, rfl, hcarried, hfront⟩ :=
      visit_standard hl hh hret hrefs hbyte hvisit
    have hret₁ : ∀ i ∈ l₁.insns, i.opcode ≠ .ret := fun i hi =>
      (hcarried.insns i hi).elim (hret i) And.right
    have hnext : l₁.next front.getLast? = back.head? :=
      next_getLast? (hrefs₁ ▸ hcarried.built.wellFormed.spells)
    obtain ⟨front', back', h₂, hrefs₂, hcarried₂⟩ :=
      ih hcarried.built hcarried.flow hret₁ hrefs₁ hnext hfront
    exact ⟨front', back', h₂, hrefs₂, hcarried.trans hl.wellFormed hcarried₂⟩

/-- A store of anything but a byte or truth value is visited by narrowing its array. -/
theorem narrow_of_visit (hi : l.insn? r = some i) (hstore : i.opcode.isArrayStore = true)
    (hbyte : i.opcode ≠ .bastore)
    (hv : standard.visit ctx l r = (l₁, .ok resume)) :
    narrow ctx.boundary (storedArray i.opcode) l r = (l₁, .ok resume) := by
  have hrule : standard.find? (·.applies i) = some .arrayStore :=
    List.find?_cons_of_pos hstore
  rcases visit_eq_ok hi hv with ⟨hnone, -⟩ | ⟨rule, hrule', hd, -⟩
  · rw [hrule] at hnone
    cases hnone
  · obtain rfl := Option.some.inj (hrule.symm.trans hrule')
    simpa [Rule.arrayStore, hi, hbyte] using hd

end Chain

/-! ### The stretch behind a cast -/

namespace Enhance

open Listing

variable {l l₂ : Listing} {h : Ref → Option Nat} {xs bs ys : List Ref} {r : Ref} {i : Insn}

/-- The stretch looks at its instructions only. -/
theorem Stretch.congr (hs : Stretch l bs r) (h : ∀ b ∈ bs ++ [r], l₂.insn? b = l.insn? b) :
    Stretch l₂ bs r := by
  have hrise : ∀ ds, ds <:+ bs → l₂.rise (ds ++ [r]) = l.rise (ds ++ [r]) := by
    intro ds hds
    have hsub : ∀ b ∈ ds ++ [r], l₂.insn? b = l.insn? b := by
      intro b hb
      refine h b (List.mem_append.mpr ((List.mem_append.mp hb).imp_left fun hd => ?_))
      exact hds.subset hd
    rw [Listing.rise, Listing.rise, List.filterMap_congr hsub]
  refine ⟨fun b hb => ?_, fun t ht => ?_, ?_, fun ds hds hne => ?_⟩
  · rw [h b (List.mem_append_left _ hb)]
    exact hs.straight b hb
  · rw [placedAt, h t (List.mem_of_mem_head? ht)]
    exact hs.placed t ht
  · rw [hrise bs List.suffix_rfl]
    exact hs.rise
  · rw [hrise ds hds]
    exact hs.short ds hds hne

/-- The origin of the array below index and value, if nothing on the way moves it. -/
theorem Stretch.origin?_of_spares (hs : Stretch l bs r) (hi : l.insn? r = some i)
    (hstore : i.opcode.isArrayStore = true) (hspares : spares 0 (bs.filterMap l.insn?) = true) :
    origin? (bs.filterMap l.insn?) 2 = some 0 := by
  -- the store takes three values, so it stands two values above the array
  have hlast : l.rise [r] = -3 := rise_of_changeAt (changeAt_arrayStore hi hstore)
  have hsum : l.rise bs + -3 = -1 := by
    rw [← hlast, ← rise_append]
    exact hs.rise
  refine ClassWeaver.origin?_of_spares hspares ?_ fun code' hsuffix hne heq => ?_
  · rw [← Listing.rise]
    omega
  · obtain ⟨front, hfront⟩ := hsuffix
    obtain ⟨cs, ds, rfl, -, rfl⟩ := List.filterMap_eq_append_iff.mp hfront.symm
    have hne' : ds ≠ cs ++ ds := fun heq => hne (congrArg (List.filterMap l.insn?) heq)
    refine hs.short ds (List.suffix_append cs ds) hne' ?_
    rw [rise_append, hlast, Listing.rise, heq]
    rfl

/-- Straight code can be run on as many tokens as the heights promise. -/
theorem exists_run_of_straight (hl : l.Spells (xs ++ (bs ++ r :: ys))) (hh : l.FlowHeights h)
    (hstraight : ∀ b ∈ bs, ∃ i e, l.insn? b = some i ∧ i.Straight e) {t : Ref}
    (ht : (bs ++ [r]).head? = some t) {s : Tokens} (hs : h t = some s.stack.length) :
    ∃ s', s.run (bs.filterMap l.insn?) = some s' ∧ h r = some s'.stack.length := by
  induction bs generalizing xs t s with
  | nil =>
    obtain rfl : r = t := Option.some.inj ht
    exact ⟨s, rfl, hs⟩
  | cons b bs ih =>
    obtain rfl : b = t := Option.some.inj ht
    obtain ⟨i, e, hi, he⟩ := hstraight b List.mem_cons_self
    obtain ⟨hpops, q, hq, hheight⟩ := straight_height hh hi he hs
    obtain ⟨m, hm⟩ := Tokens.exists_step he.effect hpops
    have hnext : l.next (some b) = (bs ++ [r]).head? := by
      rw [List.cons_append] at hl
      rw [hl.next_eq]
      cases bs <;> rfl
    have hl' : l.Spells ((xs ++ [b]) ++ (bs ++ r :: ys)) := by simpa using hl
    rw [hnext] at hq
    rw [← Tokens.length_step he.effect hm] at hheight
    obtain ⟨s', hs', hlength⟩ :=
      ih hl' (fun b hb => hstraight b (List.mem_cons_of_mem _ hb)) hq hheight
    refine ⟨s', ?_, hlength⟩
    rw [List.filterMap_cons_some hi, Tokens.run_cons, hm]
    exact hs'

/-- Straight code can be run on the tokens that a cast in front of it leaves as they are. -/
theorem exists_run_of_cast {c : Ref} {desc : Text} (hl : l.Spells (xs ++ c :: (bs ++ r :: ys)))
    (hh : l.FlowHeights h) (hstraight : ∀ b ∈ bs, ∃ i e, l.insn? b = some i ∧ i.Straight e)
    (hc : l.insn? c = some ⟨.checkCast, .type desc⟩) {s : Tokens} (hs : h c = some s.stack.length) :
    ∃ s', s.run (bs.filterMap l.insn?) = some s' ∧ h r = some s'.stack.length := by
  obtain ⟨hone, t, hnext, ht⟩ :=
    straight_height hh hc (Insn.straight_of_effect rfl rfl rfl nofun) hs
  rw [hl.next_eq] at hnext
  have hhead : (bs ++ [r]).head? = some t := by
    rw [← hnext]
    cases bs <;> rfl
  have hl' : l.Spells ((xs ++ [c]) ++ (bs ++ r :: ys)) := by simpa using hl
  rw [Nat.sub_add_cancel hone] at ht
  exact exists_run_of_straight hl' hh hstraight hhead ht

/-- Narrowing either leaves a listing alone or inserts the cast behind the producer. -/
theorem narrow_eq_ok {desc : Text} {boundary : Boundary} {resume : Option Ref}
    (hd : narrow boundary desc l r = (l₂, .ok resume)) (hne : l₂ ≠ l) :
    ∃ p, producer? boundary l r = .ok (some p) ∧
      l₂ = (l.insertAfter (some p) ⟨.checkCast, .type desc⟩).2 := by
  unfold narrow at hd
  split at hd
  · cases hd
  · exact absurd (Prod.mk.inj hd).1.symm hne
  · next p hp =>
    dsimp only at hd
    split at hd
    · exact absurd (Prod.mk.inj hd).1.symm hne
    · exact ⟨p, hp, (Prod.mk.inj hd).1.symm⟩

/-- A cast that narrowing inserts stands in front of a stretch up to the store. -/
theorem stretch_of_narrow {boundary : Boundary} {desc : Text} {resume : Option Ref} (hl : l.Built)
    (hrefs : l.refs = xs ++ r :: ys) (hh : l.FlowHeights h) (hret : ∀ i ∈ l.insns, i.opcode ≠ .ret)
    (hi : l.insn? r = some i) (hstore : i.opcode.isArrayStore = true)
    (hd : narrow boundary desc l r = (l₂, .ok resume)) (hne : l₂ ≠ l) :
    ∃ as bs h₂, l₂.refs = as ++ l.nodes.size :: (bs ++ r :: ys) ∧
      l₂.insn? l.nodes.size = some ⟨.checkCast, .type desc⟩ ∧ l₂.insn? r = some i ∧
      Stretch l₂ bs r ∧ l.Carried h l₂ h₂ := by
  have hsp : l.Spells (xs ++ r :: ys) := hrefs ▸ hl.wellFormed.spells
  have hret' : ∀ b ∈ l.refs, ∀ i, l.insn? b = some i → i.opcode ≠ .ret := fun b hb j hj =>
    hret j (List.mem_filterMap.mpr ⟨b, hb, hj⟩)
  obtain ⟨-, -, h₂, -, hcarried, -⟩ := carried_narrow hl hrefs hh hret hi hstore hd
  obtain ⟨p, hp, rfl⟩ := narrow_eq_ok hd hne
  obtain ⟨as, bs, rfl, hstretch⟩ := stretch_of_producer? hsp hret' hi hstore hp
  have hrefs' : l.refs = as ++ p :: (bs ++ r :: ys) := by simpa using hrefs
  have hs := Spliced.insertAfter (i := ⟨.checkCast, .type desc⟩) hl hrefs' rfl
  have hold : ∀ b ∈ bs ++ [r], (l.insertAfter (some p) ⟨.checkCast, .type desc⟩).2.insn? b =
      l.insn? b := by
    intro b hb
    refine hs.insn?_old (hl.wellFormed.spells.lt_size ?_)
    rw [hrefs']
    simp only [List.mem_append, List.mem_cons, List.not_mem_nil, or_false] at hb ⊢
    tauto
  refine ⟨as ++ [p], bs, h₂, hs.refs_eq', hs.insn?_new 0, ?_, hstretch.congr hold, hcarried⟩
  rw [hold r (by simp), hi]

end Enhance

/-! ### What the cast hits -/

namespace Chain

open Listing Enhance

variable {ctx : Context} {l l₁ l₂ : Listing} {r : Ref} {resume : Option Ref} {i : Insn}

/-- **What a cast hits.** The scan of a listing with heights inserts a cast for a store of anything
but a byte or truth value. The cast stands in front of straight code that ends at the store, and the
code can be run on tokens for the values at the cast. Then the store takes as its array the value
that was checked, the token on top, if and only if that is the origin of the third value from the
top: nothing else is needed than to read the code backwards. That is so whenever nothing in between
takes the checked value and no `swap`, `dup_x1` or the like reaches it. -/
theorem cast_hits_iff {H : Heights} (hb : l.Built) (hshape : ∀ i ∈ l.insns, i.WellShaped)
    (hret : ∀ i ∈ l.insns, i.opcode ≠ .ret) (hH : l.heights = .ok H)
    (hreach : standard.Reaches ctx l.first l r l₁) (hi : l₁.insn? r = some i)
    (hstore : i.opcode.isArrayStore = true) (hbyte : i.opcode ≠ .bastore)
    (hv : standard.visit ctx l₁ r = (l₂, .ok resume)) (hcast : l₂ ≠ l₁) :
    standard.Ends ctx (l₂.next resume) l₂ (standard.run ctx l) ∧
    (∃ xs bs ys, l₂.refs = xs ++ l₁.nodes.size :: (bs ++ r :: ys)) ∧
    l₂.insn? l₁.nodes.size = some ⟨.checkCast, .type (storedArray i.opcode)⟩ ∧
    (∀ j ∈ l₂.between l₁.nodes.size r, ∃ e, j.Straight e) ∧
    (∃ H₂, l₂.heights = .ok H₂ ∧ ∀ s : Tokens, H₂.at? l₁.nodes.size = some s.stack.length →
      ∃ s', s.run (l₂.between l₁.nodes.size r) = some s' ∧ H₂.at? r = some s'.stack.length) ∧
    (∀ t rest fresh s', t < fresh → t ∉ rest →
      (⟨t :: rest, fresh⟩ : Tokens).run (l₂.between l₁.nodes.size r) = some s' →
      (s'.stack[2]? = some t ↔ origin? (l₂.between l₁.nodes.size r) 2 = some 0)) ∧
    (spares 0 (l₂.between l₁.nodes.size r) = true →
      origin? (l₂.between l₁.nodes.size r) 2 = some 0) := by
  have hwf := hb.wellFormed
  -- how the scan got to the store, and what it does there
  have hrefs : l.refs = [] ++ l.refs := rfl
  obtain ⟨front, back, h₁, hrefs₁, hcarried₁⟩ := hreach.carried hb
    (flowHeights_heights hwf hshape hH) hret hrefs hwf.spells.first_eq (by simp)
  have hends := (((standard_advances ctx).ends_run hwf.spells).of_reaches hreach).of_ok hv
  have hret₁ : ∀ i ∈ l₁.insns, i.opcode ≠ .ret := fun i hi =>
    (hcarried₁.insns i hi).elim (hret i) And.right
  obtain ⟨as, bs, h₂, hrefs₂, hinsn, hi₂, hstretch, hcarried₂⟩ :=
    stretch_of_narrow hcarried₁.built hrefs₁ hcarried₁.flow hret₁ hi hstore
      (narrow_of_visit hi hstore hbyte hv) hcast
  -- the heights afterwards
  have hwf₂ := hcarried₂.built.wellFormed
  have hsp₂ : l₂.Spells (as ++ l₁.nodes.size :: (bs ++ r :: back)) := hrefs₂ ▸ hwf₂.spells
  have hcarried := hcarried₁.trans hwf hcarried₂
  obtain ⟨H₂, hH₂⟩ := exists_heights hwf₂
    (fun j hj => (hcarried.insns j hj).elim (hshape j) And.left) hcarried₂.flow
  have hflow₂ := flowHeights_heights hwf₂
    (fun j hj => (hcarried.insns j hj).elim (hshape j) And.left) hH₂
  rw [between_eq hsp₂]
  refine ⟨hends, ⟨as, bs, back, hrefs₂⟩, hinsn, fun j hj => ?_,
    ⟨H₂, hH₂, fun s hheight => ?_⟩, fun t rest fresh s' ht hrest hrun => ?_, ?_⟩
  · obtain ⟨b, hb, hbj⟩ := List.mem_filterMap.mp hj
    obtain ⟨i', e, hi', he⟩ := hstretch.straight b hb
    obtain rfl : i' = j := Option.some.inj (hi'.symm.trans hbj)
    exact ⟨e, he⟩
  · exact exists_run_of_cast hsp₂ hflow₂ hstretch.straight hinsn hheight
  · exact Tokens.getElem?_run_iff ht hrest hrun 2
  · exact hstretch.origin?_of_spares hi₂ hstore

/-- Adds to an element of an array. -/
def increased : Listing :=
  ofInsns 0 [.load .aload 1, .load .iload 2, .plain ⟨0x5C⟩, .plain ⟨0x2E⟩, .load .iload 3,
    .plain ⟨0x60⟩, .plain .iastore, .plain .voidReturn]

theorem cast_hits_increased : ∃ H l₂ H₂, increased.Built ∧ (∀ i ∈ increased.insns, i.WellShaped) ∧
    (∀ i ∈ increased.insns, i.opcode ≠ .ret) ∧ increased.heights = .ok H ∧
    standard.Reaches {} increased.first increased 6 increased ∧
    increased.insn? 6 = some (.plain .iastore) ∧
    standard.visit {} increased 6 = (l₂, .ok (some 6)) ∧ l₂ ≠ increased ∧
    l₂.insn? 8 = some ⟨.checkCast, .type "[I"⟩ ∧ l₂.heights = .ok H₂ ∧
    (∀ s : Tokens, H₂.at? 8 = some s.stack.length → ∃ s', s.run (l₂.between 8 6) = some s') ∧
    ∀ t rest fresh s', t < fresh → t ∉ rest →
      (⟨t :: rest, fresh⟩ : Tokens).run (l₂.between 8 6) = some s' → s'.stack[2]? = some t := by
  have hb : increased.Built := .ofInsns _ _
  have hshape : ∀ i ∈ increased.insns, i.WellShaped := by decide +kernel
  have hret : ∀ i ∈ increased.insns, i.opcode ≠ .ret := by decide +kernel
  obtain ⟨H, hH⟩ : ∃ H, increased.heights.toOption = some H :=
    Option.isSome_iff_exists.mp (by decide +kernel)
  have hreach : standard.Reaches {} increased.first increased 6 increased :=
    .visit rfl <| .visit rfl <| .visit rfl <| .visit rfl <| .visit rfl <| .visit rfl .here
  obtain ⟨l₂, hl₂⟩ : ∃ l₂, l₂ = (standard.visit {} increased 6).1 := ⟨_, rfl⟩
  have hok : (standard.visit {} increased 6).2 = .ok (some 6) :=
    Outcome.eq_ok_of_toOption (by decide +kernel)
  have hv : standard.visit {} increased 6 = (l₂, .ok (some 6)) := by
    rw [hl₂, ← hok]
  have hne : l₂ ≠ increased := by
    intro heq
    have hrefs := hl₂ ▸ congrArg Listing.refs heq
    revert hrefs
    decide +kernel
  obtain ⟨-, -, hcast, -, ⟨H₂, hH₂, hrun⟩, hhits, hspares⟩ := cast_hits_iff hb hshape hret
    (Outcome.eq_ok_of_toOption hH) hreach rfl (by decide) (by decide) hv hne
  have horigin := hspares (by rw [hl₂]; decide +kernel)
  refine ⟨H, l₂, H₂, hb, hshape, hret, Outcome.eq_ok_of_toOption hH, hreach, rfl, hv,
    hne, hcast, hH₂,
    fun s hs => ?_, fun t rest fresh s' ht hrest hs' =>
      (hhits t rest fresh s' ht hrest hs').mpr horigin⟩
  obtain ⟨s', hs', -⟩ := hrun s hs
  exact ⟨s', hs'⟩

/-- Stores the same value in two arrays. -/
def chained : Listing :=
  ofInsns 0 [.load .aload 1, .plain .iconst0, .load .aload 2, .plain .iconst1, .plain ⟨0x05⟩,
    .plain .dupX2, .plain .iastore, .plain .iastore, .plain .voidReturn]

/-- In a chained assignment the cast for the inner store hits the index: the token 3 is on top of
the stack at the cast, and the store takes the token 2. -/
theorem chained_astray : ∃ H l₂ H₂ s, chained.Built ∧ (∀ i ∈ chained.insns, i.WellShaped) ∧
    (∀ i ∈ chained.insns, i.opcode ≠ .jsr ∧ i.opcode ≠ .jsrW ∧ i.opcode ≠ .ret) ∧
    chained.heights = .ok H ∧
    (standard.run {} chained).2 = .ok () ∧
    standard.Reaches {} chained.first chained 6 chained ∧
    chained.insn? 6 = some (.plain .iastore) ∧
    standard.visit {} chained 6 = (l₂, .ok (some 6)) ∧
    l₂.refs = [0, 1, 2, 3, 9, 4, 5, 6, 7, 8] ∧ l₂.insn? 9 = some ⟨.checkCast, .type "[I"⟩ ∧
    l₂.heights = .ok H₂ ∧ H₂.at? 9 = some 4 ∧
    (⟨[3, 2, 1, 0], 4⟩ : Tokens).run (l₂.between 9 6) = some s ∧ s.stack[2]? = some 2 := by
  obtain ⟨H, hH⟩ : ∃ H, chained.heights.toOption = some H :=
    Option.isSome_iff_exists.mp (by decide +kernel)
  have hheight : (standard.visit {} chained 6).1.heights.toOption.map
      (fun H₂ => H₂.at? 9) = some (some 4) := by decide +kernel
  obtain ⟨H₂, hH₂, hat⟩ := Option.map_eq_some_iff.mp hheight
  have hok : (standard.visit {} chained 6).2 = .ok (some 6) :=
    Outcome.eq_ok_of_toOption (by decide +kernel)
  have hrun : (standard.run {} chained).2 = .ok () := Outcome.eq_ok_of_toOption (by
    decide +kernel)
  have hreach : standard.Reaches {} chained.first chained 6 chained :=
    .visit rfl <| .visit rfl <| .visit rfl <| .visit rfl <| .visit rfl <| .visit rfl .here
  refine ⟨H, (standard.visit {} chained 6).1, H₂, ⟨[4, 3, 2, 4, 1, 0], 5⟩,
    .ofInsns _ _, by decide +kernel, by decide +kernel, Outcome.eq_ok_of_toOption hH,
    hrun, hreach, rfl,
    ?_, by decide +kernel, by decide +kernel, Outcome.eq_ok_of_toOption hH₂, hat,
    by decide +kernel, rfl⟩
  rw [← hok]

end Chain

end ClassWeaver
