import ClassWeaver.Generator.Discovery
import ClassWeaver.Proofs.Instructions

/-!
# What the survey of a body finds

The states of a body are as many as its yield calls, none of them handed out or labelled yet.
Its slots ascend in their locals, none is the receiver, and every local that the body writes
has one.
-/

namespace ClassWeaver

/-! ### Field names -/

namespace Text

/-- A number can be read back from its numeral. -/
theorem ofNat_injective {m n : Nat} (h : ofNat m = ofNat n) : m = n := by
  have hback : ∀ k, (ofNat k).map (fun b => Char.ofNat b.toNat) = Nat.toDigits 10 k := by
    intro k
    rw [ofNat, List.map_map]
    refine (List.map_congr_left fun c hc => ?_).trans (List.map_id _)
    have hdigit := Nat.isDigit_of_mem_toDigits (by decide) (by decide) hc
    have hle : c.toNat ≤ 57 := by
      simp only [Char.isDigit, Bool.and_eq_true, decide_eq_true_eq] at hdigit
      exact hdigit.2
    have hmod : c.toNat % 2 ^ 8 = c.toNat := Nat.mod_eq_of_lt (by omega)
    rw [Function.comp_apply, Nat.toUInt8, UInt8.toNat_ofNat', hmod, Char.ofNat_toNat]
    rfl
  have hdigits : Nat.toDigits 10 m = Nat.toDigits 10 n := by rw [← hback, ← hback, h]
  rw [← Nat.ofDigitChars_ten_toDigits (n := m), hdigits, Nat.ofDigitChars_ten_toDigits]

end Text

/-- Different locals of a method are kept in different fields. -/
theorem Settings.slotFieldName_injective {settings : Settings} {method : Text} {m n : UInt16}
    (h : settings.slotFieldName method m = settings.slotFieldName method n) : m = n := by
  have hnum := Text.ofNat_injective (List.append_cancel_left h)
  exact UInt16.toNat_inj.mp hnum

/-! ### Ascending slots -/

namespace Slot

variable {s t : Slot} {ts : List Slot}

theorem mem_of_mem_insert (h : t ∈ s.insert ts) : t = s ∨ t ∈ ts := by
  induction ts with
  | nil => simpa [insert] using h
  | cons u ts ih =>
    unfold insert at h
    split at h
    · simpa using h
    · split at h
      · simp only [List.mem_cons] at h ⊢
        tauto
      · simp only [List.mem_cons] at h ⊢
        rcases h with h | h
        · exact .inr (.inl h)
        · rcases ih h with h | h
          · exact .inl h
          · exact .inr (.inr h)

theorem mem_insert_self (s : Slot) (ts : List Slot) : s ∈ s.insert ts := by
  induction ts with
  | nil => simp [insert]
  | cons u ts ih =>
    unfold insert
    split
    · simp
    · split
      · simp
      · simp [ih]

/-- Only a slot of the same local is replaced. -/
theorem mem_insert_of_ne (h : t ∈ ts) (hne : t.index ≠ s.index) : t ∈ s.insert ts := by
  induction ts with
  | nil => cases h
  | cons u ts ih =>
    unfold insert
    split
    · exact List.mem_cons_of_mem _ h
    · split
      · next he =>
        rcases List.mem_cons.mp h with rfl | h
        · exact absurd he.symm hne
        · exact List.mem_cons_of_mem _ h
      · rcases List.mem_cons.mp h with rfl | h
        · exact List.mem_cons_self
        · exact List.mem_cons_of_mem _ (ih h)

theorem pairwise_insert (s : Slot) (h : ts.Pairwise (·.index < ·.index)) :
    (s.insert ts).Pairwise (·.index < ·.index) := by
  induction ts with
  | nil => simp [insert]
  | cons u ts ih =>
    obtain ⟨hu, hts⟩ := List.pairwise_cons.mp h
    unfold insert
    split
    · next hlt =>
      refine List.pairwise_cons.mpr ⟨fun v hv => ?_, h⟩
      rcases List.mem_cons.mp hv with rfl | hv
      · exact hlt
      · exact UInt16.lt_trans hlt (hu v hv)
    · next hge =>
      split
      · next he =>
        refine List.pairwise_cons.mpr ⟨fun v hv => ?_, hts⟩
        rw [he]
        exact hu v hv
      · next hne =>
        refine List.pairwise_cons.mpr ⟨fun v hv => ?_, ih hts⟩
        rcases mem_of_mem_insert hv with rfl | hv
        · exact UInt16.lt_of_le_of_ne (UInt16.not_lt.mp hge) fun e => hne e.symm
        · exact hu v hv

theorem pairwise_foldl_insert (ss : List Slot) (h : ts.Pairwise (·.index < ·.index)) :
    (ss.foldl (fun sorted s => s.insert sorted) ts).Pairwise (·.index < ·.index) := by
  induction ss generalizing ts with
  | nil => exact h
  | cons s ss ih => exact ih (pairwise_insert s h)

theorem mem_of_mem_foldl_insert {ss : List Slot}
    (h : t ∈ ss.foldl (fun sorted s => s.insert sorted) ts) : t ∈ ss ∨ t ∈ ts := by
  induction ss generalizing ts with
  | nil => exact .inr h
  | cons s ss ih =>
    rcases ih h with h | h
    · exact .inl (List.mem_cons_of_mem _ h)
    · rcases mem_of_mem_insert h with rfl | h
      · exact .inl List.mem_cons_self
      · exact .inr h

/-- An index that was inserted stays taken. -/
theorem exists_mem_foldl_insert {ss : List Slot} {n : UInt16}
    (h : (∃ s ∈ ss, s.index = n) ∨ ∃ s ∈ ts, s.index = n) :
    ∃ s ∈ ss.foldl (fun sorted s => s.insert sorted) ts, s.index = n := by
  induction ss generalizing ts with
  | nil => simpa using h
  | cons s ss ih =>
    refine ih ?_
    by_cases hn : s.index = n
    · exact .inr ⟨s, mem_insert_self s ts, hn⟩
    · rcases h with ⟨t, ht, rfl⟩ | ⟨t, ht, rfl⟩
      · rcases List.mem_cons.mp ht with rfl | ht
        · exact absurd rfl hn
        · exact .inl ⟨t, ht, rfl⟩
      · exact .inr ⟨t, mem_insert_of_ne ht fun e => hn e.symm, rfl⟩

end Slot

/-! ### The survey -/

namespace Survey

variable {site : CallSite} {s s' : Survey} {i : Insn} {is : List Insn}

/-- A call is none of the instructions that write a local. -/
theorem writtenFamily?_of_isCall (h : site.isCall i = true) : writtenFamily? i.opcode = none := by
  unfold CallSite.isCall at h
  simp only [Bool.and_eq_true, Bool.or_eq_true, decide_eq_true_eq] at h
  rcases h.1 with (e | e) | e <;> rw [e] <;> decide

/-- The local that an instruction writes; the receiver is never counted. -/
def writes? (i : Insn) : Option UInt16 :=
  if (writtenFamily? i.opcode).isSome then i.slot?.filter (· ≠ 0) else none

theorem writes?_eq_some_iff {n : UInt16} :
    writes? i = some n ↔ (writtenFamily? i.opcode).isSome ∧ i.slot? = some n ∧ n ≠ 0 := by
  unfold writes?
  split
  · next hfamily => simp [hfamily, Option.filter_eq_some_iff]
  · next hfamily => simp [hfamily]

theorem writes?_of_family_none (h : writtenFamily? i.opcode = none) : writes? i = none := by
  rw [writes?, h]
  rfl

/-- A declaration has nothing to do with yields and writes. -/
theorem declare_frame (s : Survey) (index : UInt16) (desc : Text) :
    (s.declare index desc).yields = s.yields ∧ (s.declare index desc).written = s.written ∧
      (s.declare index desc).conflict = s.conflict := by
  unfold declare
  split
  · exact ⟨rfl, rfl, rfl⟩
  · split <;> exact ⟨rfl, rfl, rfl⟩

/-- A write puts its local on record and forgets none. -/
theorem write_eq_ok {index : UInt16} {family : Family} (h : s.write i index family = .ok s') :
    s'.yields = s.yields ∧ (∃ p ∈ s'.written, p.1 = index) ∧
      (∀ p ∈ s.written, p ∈ s'.written) ∧ ∀ p ∈ s'.written, p ∈ s.written ∨ p.1 = index := by
  unfold write at h
  split at h
  · obtain rfl := (Except.ok.inj h).symm
    refine ⟨rfl, ⟨_, List.mem_cons_self, rfl⟩, fun p hp => List.mem_cons_of_mem _ hp, ?_⟩
    intro p hp
    rcases List.mem_cons.mp hp with rfl | hp
    · exact .inr rfl
    · exact .inl hp
  · next known hknown =>
    have hmem : ∃ p ∈ s.written, p.1 = index := by
      obtain ⟨p, hp, -⟩ := Option.map_eq_some_iff.mp hknown
      have hpi := List.find?_some hp
      exact ⟨p, List.mem_of_find?_eq_some hp, by simpa using hpi⟩
    have hkeep : s'.yields = s.yields ∧ s'.written = s.written := by
      split at h
      · obtain rfl := (Except.ok.inj h).symm
        exact ⟨rfl, rfl⟩
      · split at h
        · obtain rfl := (Except.ok.inj h).symm
          exact ⟨rfl, rfl⟩
        · cases h
    rw [hkeep.2]
    exact ⟨hkeep.1, hmem, fun p hp => hp, fun p hp => .inl hp⟩

/-- An instruction writes a local, or the survey learns nothing about writes from it. -/
theorem visit_cases (h : visit site s i = .ok s') :
    (∃ n f, writes? i = some n ∧ writtenFamily? i.opcode = some f ∧ site.isCall i = false ∧
      s.write i n f = .ok s') ∨
    writes? i = none ∧ s'.yields = s.yields + (if site.isCall i then 1 else 0) ∧
      s'.written = s.written ∧ s'.conflict = s.conflict := by
  unfold visit at h
  split at h
  · next hcall =>
    obtain rfl := Except.ok.inj h
    exact .inr ⟨writes?_of_family_none (writtenFamily?_of_isCall hcall), by rw [if_pos hcall], rfl,
      rfl⟩
  · next hcall =>
    rw [if_neg hcall, Nat.add_zero]
    split at h
    · next hop =>
      split at h
      · obtain rfl := Except.ok.inj h
        exact .inr ⟨writes?_of_family_none (by rw [hop]; rfl), declare_frame ..⟩
      · cases h
    · split at h
      · next hnone =>
        obtain rfl := Except.ok.inj h
        exact .inr ⟨writes?_of_family_none hnone, rfl, rfl, rfl⟩
      · next family hfamily =>
        split at h
        · next hzero =>
          -- what is written is the receiver, or nothing that has an index
          obtain rfl := Except.ok.inj h
          refine .inr ⟨Option.eq_none_iff_forall_not_mem.mpr fun n hn => ?_, rfl, rfl, rfl⟩
          obtain ⟨-, hslot, hne⟩ := writes?_eq_some_iff.mp hn
          exact hne (by rwa [hslot] at hzero)
        · next hnonzero =>
          refine .inl ⟨_, family, writes?_eq_some_iff.mpr ⟨by rw [hfamily]; rfl, ?_, hnonzero⟩,
            hfamily, Bool.eq_false_iff.mpr hcall, h⟩
          cases hslot : i.slot? with
          | none => exact absurd (by rw [hslot]; rfl) hnonzero
          | some n => rfl

/-- What one instruction adds to the survey. -/
theorem visit_eq_ok (h : visit site s i = .ok s') :
    s'.yields = s.yields + (if site.isCall i then 1 else 0) ∧
      (∀ n, writes? i = some n → ∃ p ∈ s'.written, p.1 = n) ∧
      (∀ p ∈ s.written, p ∈ s'.written) ∧
      ∀ p ∈ s'.written, p ∈ s.written ∨ p.1 ≠ 0 := by
  rcases visit_cases h with ⟨n, f, hn, -, hcall, hw⟩ | ⟨hnone, hyields, hw, -⟩
  · obtain ⟨hyields, hmem, hold, hnew⟩ := write_eq_ok hw
    refine ⟨by simp [hyields, hcall], fun k hk => ?_, hold, fun p hp =>
      (hnew p hp).imp_right fun heq => heq.trans_ne (writes?_eq_some_iff.mp hn).2.2⟩
    obtain rfl := Option.some.inj (hn.symm.trans hk)
    exact hmem
  · rw [hnone, hw]
    exact ⟨hyields, nofun, fun p hp => hp, fun p hp => .inl hp⟩

theorem foldlM_visit_eq_ok (h : is.foldlM (visit site) s = .ok s') :
    s'.yields = s.yields + is.countP site.isCall ∧
      (∀ i ∈ is, ∀ n, writes? i = some n → ∃ p ∈ s'.written, p.1 = n) ∧
      (∀ p ∈ s.written, p ∈ s'.written) ∧
      ∀ p ∈ s'.written, p ∈ s.written ∨ p.1 ≠ 0 := by
  induction is generalizing s with
  | nil =>
    obtain rfl := Except.ok.inj h
    exact ⟨by simp, by simp, fun p hp => hp, fun p hp => .inl hp⟩
  | cons i is ih =>
    rw [List.foldlM_cons] at h
    obtain ⟨m, hm, h⟩ := Except.bind_eq_ok_iff.mp h
    obtain ⟨hy, hw, hold, hnew⟩ := visit_eq_ok hm
    obtain ⟨hy', hw', hold', hnew'⟩ := ih h
    refine ⟨?_, ?_, fun p hp => hold' p (hold p hp), fun p hp => ?_⟩
    · rw [hy', hy, List.countP_cons]
      omega
    · intro j hj n hn
      rcases List.mem_cons.mp hj with rfl | hj
      · obtain ⟨p, hp, hpn⟩ := hw n hn
        exact ⟨p, hold' p hp, hpn⟩
      · exact hw' j hj n hn
    · rcases hnew' p hp with hp | hp
      · exact hnew p hp
      · exact .inr hp

end Survey

/-! ### The states of a body -/

section Discover

variable {settings : Settings} {l : Listing} {method desc : Text} {states : States}

/-- The number of yield calls in a listing. -/
def Listing.yieldCount (l : Listing) (settings : Settings) : Nat :=
  l.insns.countP settings.yieldSite.isCall

theorem discover_eq_ok (h : discover settings l method desc = .ok states) :
    ∃ s, Survey.ofInsns settings.yieldSite l.insns = .ok s ∧
      states = States.create s.yields (s.slots settings method) := by
  unfold discover at h
  split at h
  · cases h
  · obtain ⟨s, hs, h⟩ := Except.bind_eq_ok_iff.mp h
    refine ⟨s, hs, ?_⟩
    split at h
    · split at h
      · cases h
      · exact (Except.ok.inj h).symm
    · exact (Except.ok.inj h).symm

/-- The states of a body are fresh, and as many as its yield calls. -/
theorem fresh_of_discover (h : discover settings l method desc = .ok states) :
    states.labels = Array.replicate (l.yieldCount settings) none ∧
      states.remaining = l.yieldCount settings := by
  obtain ⟨s, hs, rfl⟩ := discover_eq_ok h
  have hy : s.yields = l.yieldCount settings := by
    rw [(Survey.foldlM_visit_eq_ok hs).1]
    exact Nat.zero_add _
  rw [← hy]
  exact ⟨rfl, rfl⟩

theorem slots_pairwise_of_discover (h : discover settings l method desc = .ok states) :
    states.slots.Pairwise (·.index < ·.index) := by
  obtain ⟨s, hs, rfl⟩ := discover_eq_ok h
  exact Slot.pairwise_foldl_insert _ List.Pairwise.nil

/-- The receiver is no slot, and a slot is kept in the field that is named for its local. -/
theorem slot_of_discover (h : discover settings l method desc = .ok states) {t : Slot}
    (ht : t ∈ states.slots) :
    t.index ≠ 0 ∧ t.name = settings.slotFieldName method t.index := by
  obtain ⟨s, hs, rfl⟩ := discover_eq_ok h
  rcases Slot.mem_of_mem_foldl_insert ht with ht | ht
  · obtain ⟨p, hp, rfl⟩ := List.mem_map.mp ht
    rcases (Survey.foldlM_visit_eq_ok hs).2.2.2 p hp with hp | hp
    · cases hp
    · exact ⟨hp, rfl⟩
  · cases ht

/-- Every local that the body writes has a slot. -/
theorem exists_slot_of_discover (h : discover settings l method desc = .ok states) {i : Insn}
    (hi : i ∈ l.insns) {n : UInt16} (hn : Survey.writes? i = some n) :
    ∃ t ∈ states.slots, t.index = n := by
  obtain ⟨s, hs, rfl⟩ := discover_eq_ok h
  obtain ⟨p, hp, hpn⟩ := (Survey.foldlM_visit_eq_ok hs).2.1 i hi n hn
  exact Slot.exists_mem_foldl_insert (.inl ⟨_, List.mem_map.mpr ⟨p, hp, rfl⟩, hpn⟩)

end Discover

end ClassWeaver
