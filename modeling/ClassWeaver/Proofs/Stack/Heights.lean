import Mathlib.Data.List.Count
import Mathlib.Order.Bounds.Basic
import ClassWeaver.Proofs.Stack.ControlFlow

/-!
# Stack heights are the solution of the flow equations

The work list of `Listing.heights` is related to the flow equations by one invariant,
`Flow.Progress`: every recorded node is reached, and satisfies its equation unless it still
waits. A failure is excluded by a second one: every height recorded so far is the height that
a given solution assigns (`Flow.Within`). Each invariant is kept by `reach`, hence by `follow`,
`step` and `run`, and the work list runs empty because every node enters it once.
-/

namespace ClassWeaver

/-! ### The analysis in progress -/

namespace Flow

open Listing

variable {l : Listing} {s s' : Flow} {xs : List Ref} {r t : Ref} {n k : Nat} {i : Insn}

/-- The heights recorded so far stay recorded. -/
structure Extends (s s' : Flow) : Prop where
  at? : ∀ r n, s.heights.at? r = some n → s'.heights.at? r = some n
  max_le : s.heights.max ≤ s'.heights.max

theorem Extends.refl (s : Flow) : Extends s s := ⟨fun _ _ hr => hr, Nat.le_refl _⟩

theorem Extends.trans {s'' : Flow} (h : Extends s s') (h' : Extends s' s'') : Extends s s'' :=
  ⟨fun r n hr => h'.at? r n (h.at? r n hr), Nat.le_trans h.max_le h'.max_le⟩

/-- What is true of an analysis in progress. The nodes in `xs` and in the work list may not
satisfy their flow equation yet; all other nodes with a height do. -/
structure Progress (l : Listing) (xs : List Ref) (s : Flow) : Prop where
  size_eq : s.heights.entry.size = l.nodes.size
  reached : ∀ r n, s.heights.at? r = some n → l.Reached r
  work : ∀ r ∈ s.work, ∃ n, s.heights.at? r = some n
  settled : ∀ r n, s.heights.at? r = some n → r ∉ xs → r ∉ s.work →
    ∃ i, l.insn? r = some i ∧ l.FlowEquation s.heights.at? r n i
  entry_le : ∀ r n, s.heights.at? r = some n → n ≤ s.heights.max
  exit_le : ∀ r k, r ∉ xs → r ∉ s.work → l.exitHeight? s.heights.at? r = some k →
    k ≤ s.heights.max
  attained : s.heights.max = 0 ∨ ∃ r, s.heights.at? r = some s.heights.max ∨
    l.exitHeight? s.heights.at? r = some s.heights.max

/-- The nodes without a height and those that wait. Every step of the analysis takes one. -/
def budget (s : Flow) : Nat := s.heights.entry.toList.count none + s.work.length

theorem at?_record {H : Heights} {m : Nat} (hr : r < H.entry.size) (q : Ref) :
    Heights.at? { entry := H.entry.setIfInBounds r (some k), max := m } q =
      if q = r then some k else H.at? q := by
  simp only [Heights.at?, Array.getElem?_setIfInBounds]
  by_cases hq : q = r
  · subst hq
    simp [hr]
  · simp [hq, Ne.symm hq]

theorem count_none_record {H : Heights} (hr : r < H.entry.size) (hnone : H.at? r = none) :
    (H.entry.setIfInBounds r (some k)).toList.count none + 1 = H.entry.toList.count none := by
  have hlt : r < H.entry.toList.length := by simpa using hr
  have hval : H.entry.toList[r] = none := by
    simpa [Heights.at?, Array.getElem?_eq_getElem hr] using hnone
  have hpos : 0 < H.entry.toList.count none :=
    List.count_pos_iff.mpr (hval ▸ List.getElem_mem hlt)
  rw [Array.toList_setIfInBounds, List.count_set hlt, hval]
  simp only [beq_self_eq_true, if_true]
  have : ((some k : Option Nat) == none) = false := rfl
  simp only [this, Bool.false_eq_true, if_false]
  omega

/-- Gives a node its height and puts it on the work list. -/
def record (t : Ref) (k : Nat) (s : Flow) : Flow where
  heights := { entry := s.heights.entry.setIfInBounds t (some k), max := Nat.max s.heights.max k }
  work := t :: s.work

/-- Reaching a node either finds it at the right height or gives it that height. -/
theorem reach_eq_ok_iff {source : Insn} {target : Option Ref} :
    s.reach l source target k = .ok s' ↔ ∃ t, target = some t ∧
      ((s.heights.at? t = some k ∧ s' = s) ∨ (s.heights.at? t = none ∧ s' = s.record t k)) := by
  unfold reach
  split
  · simp
  · next t =>
    simp only [Option.some.injEq, exists_eq_left']
    split
    · next known hk =>
      split
      · next e => simp [hk, e, eq_comm]
      · next e =>
        simp only [hk, Option.some.injEq, e, false_and, reduceCtorEq, or_false, iff_false]
        intro hbad
        obtain ⟨i, -, hi⟩ := Except.bind_eq_ok_iff.mp hbad
        cases hi
    · next hk => simp [hk, record, eq_comm]

section Record

variable (hl : l.WellFormed) (hp : Progress l xs s) (ht : l.Reached t)
  (hnone : s.heights.at? t = none)

include hl hp ht

theorem Progress.lt_size : t < s.heights.entry.size := by
  rw [hp.size_eq]
  exact hl.spells.lt_size (hl.mem_refs_of_reached ht)

theorem Progress.at?_record (q : Ref) :
    (s.record t k).heights.at? q = if q = t then some k else s.heights.at? q :=
  Flow.at?_record (hp.lt_size hl ht) q

include hnone

theorem Progress.extends_record : Extends s (s.record t k) := by
  refine ⟨fun q n hq => ?_, Nat.le_max_left _ _⟩
  have hne : q ≠ t := fun e => by rw [e, hnone] at hq; cases hq
  rw [hp.at?_record hl ht, if_neg hne, hq]

theorem Progress.budget_record : (s.record t k).budget = s.budget := by
  have hcount := count_none_record (k := k) (hp.lt_size hl ht) hnone
  simp only [budget, record, List.length_cons]
  omega

/-- A node that gets its height waits, so nothing is claimed of it beyond that. -/
theorem Progress.record : Progress l xs (s.record t k) := by
  have hat := hp.at?_record hl ht (k := k)
  have hext := hp.extends_record hl ht hnone (k := k)
  -- the other nodes leave at the heights they left at before
  have hexit : ∀ q, q ≠ t → l.exitHeight? (s.record t k).heights.at? q
      = l.exitHeight? s.heights.at? q := by
    intro q hq
    simp only [exitHeight?, hat, if_neg hq]
  refine ⟨?_, fun q n hq => ?_, fun q hq => ?_, fun q n hq hx hw => ?_, fun q n hq => ?_,
    fun q m hx hw hq => ?_, ?_⟩
  · simp [Flow.record, hp.size_eq]
  · rw [hat] at hq
    split at hq
    · next e => exact e ▸ ht
    · exact hp.reached q n hq
  · rcases List.mem_cons.mp hq with rfl | hq
    · exact ⟨k, by rw [hat, if_pos rfl]⟩
    · obtain ⟨n, hn⟩ := hp.work q hq
      exact ⟨n, hext.at? q n hn⟩
  · simp only [Flow.record, List.mem_cons, not_or] at hw
    obtain ⟨hqt, hw⟩ := hw
    rw [hat, if_neg hqt] at hq
    obtain ⟨i, hi, heq⟩ := hp.settled q n hq hx hw
    exact ⟨i, hi, heq.mono hext.at?⟩
  · rw [hat] at hq
    split at hq
    · cases hq
      exact Nat.le_max_right _ _
    · exact Nat.le_trans (hp.entry_le q n hq) (Nat.le_max_left _ _)
  · simp only [Flow.record, List.mem_cons, not_or] at hw
    obtain ⟨hqt, hw⟩ := hw
    rw [hexit q hqt] at hq
    exact Nat.le_trans (hp.exit_le q m hx hw hq) (Nat.le_max_left _ _)
  · -- the new height is the maximum, or the old maximum is attained elsewhere
    rcases Nat.le_total s.heights.max k with hle | hle
    · exact .inr ⟨t, .inl (by rw [hat, if_pos rfl]; simp [Flow.record, Nat.max_eq_right hle])⟩
    · have hmax : (s.record t k).heights.max = s.heights.max := Nat.max_eq_left hle
      rw [hmax]
      rcases hp.attained with h0 | ⟨q, hq | hq⟩
      · exact .inl h0
      · exact .inr ⟨q, .inl (hext.at? q _ hq)⟩
      · have hqt : q ≠ t := by
          rintro rfl
          obtain ⟨n, _, _, hn, _⟩ := exitHeight?_eq_some_iff.mp hq
          rw [hnone] at hn
          cases hn
        exact .inr ⟨q, .inr (by rw [hexit q hqt, hq])⟩

end Record

/-- Reaching a node that control reaches. -/
theorem reach_progress {source : Insn} {target : Option Ref} (hl : l.WellFormed)
    (hp : Progress l xs s) (hr : ∀ t, target = some t → l.Reached t)
    (h : s.reach l source target k = .ok s') :
    Progress l xs s' ∧ Extends s s' ∧ s'.budget = s.budget ∧
      ∃ t, target = some t ∧ s'.heights.at? t = some k := by
  obtain ⟨t, ht, ⟨hk, rfl⟩ | ⟨hnone, rfl⟩⟩ := reach_eq_ok_iff.mp h
  · exact ⟨hp, .refl _, rfl, t, ht, hk⟩
  · refine ⟨hp.record hl (hr t ht) hnone, hp.extends_record hl (hr t ht) hnone,
      hp.budget_record hl (hr t ht) hnone, t, ht, ?_⟩
    rw [hp.at?_record hl (hr t ht), if_pos rfl]

/-! ### Following the exits of a node -/

/-- The node that an exit of `r` leads to. -/
def destination (l : Listing) (r : Ref) : Exit → Option Ref
  | .branch lbl => l.binding lbl
  | .fall => l.next (some r)

theorem target_eq_ok_iff {source : Insn} {lbl : Label} :
    target l source lbl = .ok t ↔ l.binding lbl = some t := by
  unfold target
  split <;> simp_all

/-- Following an exit is reaching its destination; only a label that is not placed is refused
on other grounds. -/
theorem follow_cons_eq_ok_iff {x : Exit} {rest : List (Exit × Nat)} :
    follow l r i ((x, k) :: rest) s = .ok s' ↔
      ∃ m, s.reach l i (destination l r x) k = .ok m ∧ follow l r i rest m = .ok s' := by
  cases x with
  | fall => simp only [follow, Except.bind_eq_ok_iff, destination]
  | branch lbl =>
    simp only [follow, Except.bind_eq_ok_iff, destination, target_eq_ok_iff]
    constructor
    · rintro ⟨t, ht, m, hm, hf⟩
      exact ⟨m, ht ▸ hm, hf⟩
    · rintro ⟨m, hm, hf⟩
      obtain ⟨t, ht, -⟩ := reach_eq_ok_iff.mp hm
      exact ⟨t, ht, m, ht ▸ hm, hf⟩

theorem follow_progress (hl : l.WellFormed) {exits : List (Exit × Nat)}
    (hp : Progress l xs s)
    (hr : ∀ x k t, (x, k) ∈ exits → destination l r x = some t → l.Reached t)
    (h : follow l r i exits s = .ok s') :
    Progress l xs s' ∧ Extends s s' ∧ s'.budget = s.budget ∧
      ∀ x k, (x, k) ∈ exits → ∃ t, destination l r x = some t ∧ s'.heights.at? t = some k := by
  induction exits generalizing s with
  | nil =>
    obtain rfl : s = s' := by simpa [follow] using h
    exact ⟨hp, .refl _, rfl, by simp⟩
  | cons xk rest ih =>
    obtain ⟨x, k⟩ := xk
    obtain ⟨m, hm, hf⟩ := follow_cons_eq_ok_iff.mp h
    obtain ⟨hp', hext, hbud, t, ht, hk⟩ :=
      reach_progress hl hp (fun t ht => hr x k t (by simp) ht) hm
    obtain ⟨hp'', hext', hbud', hall⟩ :=
      ih hp' (fun x k t hx ht => hr x k t (by simp [hx]) ht) hf
    refine ⟨hp'', hext.trans hext', hbud'.trans hbud, fun y j hy => ?_⟩
    rcases List.mem_cons.mp hy with e | hy
    · cases e
      exact ⟨t, ht, hext'.at? t k hk⟩
    · exact hall y j hy

/-! ### One step -/

theorem fetch_eq_ok_iff : l.fetch r = .ok i ↔ l.insn? r = some i := by
  unfold fetch
  split <;> simp_all [Outcome.undefined]

/-- A node that leaves the work list may still violate its equation. -/
theorem Progress.pop {rest : List Ref} (hp : Progress l [] s) (hw : s.work = r :: rest) :
    Progress l [r] { s with work := rest } where
  size_eq := hp.size_eq
  reached := hp.reached
  work q hq := hp.work q (by simp [hw, hq])
  settled q n hq hx hq' := hp.settled q n hq (by simp) (by rw [hw]; simp_all)
  entry_le := hp.entry_le
  exit_le q k hx hq' hq := hp.exit_le q k (by simp) (by rw [hw]; simp_all) hq
  attained := hp.attained

/-- Noting the height that an instruction leaves. -/
theorem Progress.note (hp : Progress l xs s) (hr : l.exitHeight? s.heights.at? r = some k) :
    Progress l xs (s.note k) where
  size_eq := hp.size_eq
  reached := hp.reached
  work := hp.work
  settled := hp.settled
  entry_le q n hq := Nat.le_trans (hp.entry_le q n hq) (Nat.le_max_left _ _)
  exit_le q m hx hw hq := Nat.le_trans (hp.exit_le q m hx hw hq) (Nat.le_max_left _ _)
  attained := by
    rcases Nat.le_total s.heights.max k with hle | hle
    · have hmax : (s.note k).heights.max = k := Nat.max_eq_right hle
      rw [hmax]
      exact .inr ⟨r, .inr hr⟩
    · have hmax : (s.note k).heights.max = s.heights.max := Nat.max_eq_left hle
      rw [hmax]
      exact hp.attained

/-- A node that satisfies its equation, and whose exit height is noted, is done with. -/
theorem Progress.settle (hp : Progress l [r] s)
    (heq : ∀ n, s.heights.at? r = some n → ∃ i, l.insn? r = some i ∧
      l.FlowEquation s.heights.at? r n i)
    (hexit : ∀ k, l.exitHeight? s.heights.at? r = some k → k ≤ s.heights.max) :
    Progress l [] s where
  size_eq := hp.size_eq
  reached := hp.reached
  work := hp.work
  settled q n hq _ hw := by
    by_cases e : q = r
    · exact e ▸ heq n (e ▸ hq)
    · exact hp.settled q n hq (by simpa using e) hw
  entry_le := hp.entry_le
  exit_le q k _ hw hq := by
    by_cases e : q = r
    · exact hexit k (e ▸ hq)
    · exact hp.exit_le q k (by simpa using e) hw hq
  attained := hp.attained

section Step

variable (hl : l.WellFormed) (hshape : ∀ i ∈ l.insns, i.WellShaped)

include hl hshape

/-- The destinations of a reached node are reached. -/
theorem reached_destination {x : Exit} {before after : Nat} (hr : l.Reached r)
    (hi : l.insn? r = some i) (hf : i.finalNeed? = none) (hx : (x, k) ∈ i.exits before after)
    (ht : destination l r x = some t) : l.Reached t := by
  obtain ⟨i', hi', hmem⟩ := hl.insn_of_reached hr
  obtain rfl : i = i' := Option.some.inj (hi.symm.trans hi')
  rw [Insn.exits_eq (hshape i hmem) hf, List.mem_append, List.mem_map] at hx
  rcases hx with ⟨lbl, hlbl, e⟩ | hx
  · cases e
    exact .edge hr (.branch hi hlbl ht)
  · split at hx
    · next hfall =>
      obtain ⟨rfl, -⟩ : x = .fall ∧ k = if i.callsSubroutine then before else after := by
        simpa using hx
      exact .edge hr (.fall hi hfall ht)
    · simp at hx

/-- A node whose exits all lead to the right heights satisfies its equation. -/
theorem flowEquation_of_exits {h : Ref → Option Nat} {e : Effect} (hr : l.Reached r)
    (hi : l.insn? r = some i) (hf : i.finalNeed? = none) (he : i.effect = .ok e)
    (hpop : e.pops ≤ n)
    (hex : ∀ x k, (x, k) ∈ i.exits n (n - e.pops + e.pushes) →
      ∃ t, destination l r x = some t ∧ h t = some k) : l.FlowEquation h r n i := by
  obtain ⟨i', hi', hmem⟩ := hl.insn_of_reached hr
  obtain rfl : i = i' := Option.some.inj (hi.symm.trans hi')
  rw [Insn.exits_eq (hshape i hmem) hf] at hex
  unfold FlowEquation
  rw [hf]
  refine ⟨e, he, hpop, fun lbl hlbl => ?_, fun hfall => ?_⟩
  · exact hex (.branch lbl) _ (List.mem_append_left _ (List.mem_map.mpr ⟨lbl, hlbl, rfl⟩))
  · exact hex .fall _ (List.mem_append_right _ (by simp [hfall]))

/-- A step settles the node it takes off the work list. -/
theorem step_progress {rest : List Ref} (hp : Progress l [] s) (hw : s.work = r :: rest)
    (hn : s.heights.at? r = some n) (h : step l r n { s with work := rest } = .ok s') :
    Progress l [] s' ∧ s'.budget + 1 = s.budget ∧ Extends s s' := by
  have hpop := hp.pop hw
  have hreach := hp.reached r n hn
  have hbud : ({ s with work := rest } : Flow).budget + 1 = s.budget := by
    simp [budget, hw]
    omega
  obtain ⟨i, hi, h⟩ := Except.bind_eq_ok_iff.mp h
  rw [fetch_eq_ok_iff] at hi
  -- an instruction that ends the method has no exits to follow
  cases hf : i.finalNeed? with
  | some need =>
    simp only [hf] at h
    split at h
    · cases h
    · next hlt =>
      cases h
      refine ⟨hpop.settle (fun m hm => ⟨i, hi, ?_⟩) (fun k hk => ?_), hbud,
        ⟨fun _ _ hq => hq, Nat.le_refl _⟩⟩
      · obtain rfl : n = m := Option.some.inj (hn.symm.trans hm)
        unfold FlowEquation
        rw [hf]
        exact Nat.not_lt.mp hlt
      · obtain ⟨_, j, _, _, hj, hfj, _⟩ := exitHeight?_eq_some_iff.mp hk
        obtain rfl : i = j := Option.some.inj (hi.symm.trans hj)
        rw [hf] at hfj
        cases hfj
  | none =>
    simp only [hf] at h
    obtain ⟨e, he, h⟩ := Except.bind_eq_ok_iff.mp h
    split at h
    · cases h
    · next hlt =>
      have hexit : l.exitHeight? s.heights.at? r = some (n - e.pops + e.pushes) :=
        exitHeight?_eq_some_iff.mpr ⟨n, i, e, hn, hi, hf, he, rfl⟩
      obtain ⟨hp', hext, hbud', hall⟩ := follow_progress hl (hpop.note hexit)
        (fun x k t hx ht => reached_destination hl hshape hreach hi hf hx ht) h
      have hn' : s'.heights.at? r = some n := hext.at? r n hn
      refine ⟨hp'.settle (fun m hm => ⟨i, hi, ?_⟩) (fun k hk => ?_), ?_, ?_⟩
      · obtain rfl : n = m := Option.some.inj (hn'.symm.trans hm)
        exact flowEquation_of_exits hl hshape hreach hi hf he (Nat.not_lt.mp hlt) hall
      · obtain ⟨m, j, e', hm, hj, -, he', rfl⟩ := exitHeight?_eq_some_iff.mp hk
        obtain rfl : n = m := Option.some.inj (hn'.symm.trans hm)
        obtain rfl : i = j := Option.some.inj (hi.symm.trans hj)
        obtain rfl : e = e' := Except.ok.inj (he.symm.trans he')
        exact Nat.le_trans (Nat.le_max_right _ _) hext.max_le
      · rw [hbud']
        exact hbud
      · exact ⟨hext.at?, Nat.le_trans (Nat.le_max_left _ _) hext.max_le⟩

/-- A run with enough fuel settles every node. -/
theorem run_progress {fuel : Nat} (hp : Progress l [] s) (hfuel : s.budget ≤ fuel)
    (h : run l fuel s = .ok s') : Progress l [] s' ∧ s'.work = [] ∧ Extends s s' := by
  induction fuel generalizing s with
  | zero =>
    obtain rfl : s = s' := by simpa [run] using h
    have hlen : s.work.length = 0 := by unfold budget at hfuel; omega
    exact ⟨hp, List.length_eq_zero_iff.mp hlen, .refl _⟩
  | succ fuel ih =>
    cases hw : s.work with
    | nil =>
      obtain rfl : s = s' := by simpa [run, hw] using h
      exact ⟨hp, hw, .refl _⟩
    | cons r rest =>
      simp only [run, hw] at h
      obtain ⟨m, hm, h⟩ := Except.bind_eq_ok_iff.mp h
      obtain ⟨n, hn⟩ := hp.work r (by simp [hw])
      rw [hn, Option.getD_some] at hm
      obtain ⟨hp', hbud, hext⟩ := step_progress hl hshape hp hw hn hm
      obtain ⟨hp'', hnil, hext'⟩ := ih hp' (by omega) h
      exact ⟨hp'', hnil, hext.trans hext'⟩

end Step

/-- Entering the handlers gives each of them the height one. -/
theorem enterHandlers_progress (hl : l.WellFormed) {is : List Insn}
    (hsub : ∀ i ∈ is, i ∈ l.insns) (hp : Progress l [] s)
    (h : enterHandlers l is s = .ok s') :
    Progress l [] s' ∧ Extends s s' ∧ s'.budget = s.budget ∧
      ∀ start stop handler caught,
        (⟨.tryCatch, .tryCatch start stop handler caught⟩ : Insn) ∈ is →
        ∃ t, l.binding handler = some t ∧ s'.heights.at? t = some 1 := by
  induction is generalizing s with
  | nil =>
    obtain rfl : s = s' := by simpa [enterHandlers] using h
    exact ⟨hp, .refl _, rfl, by simp⟩
  | cons i rest ih =>
    have hrest : ∀ i ∈ rest, i ∈ l.insns := fun j hj => hsub j (by simp [hj])
    rw [enterHandlers] at h
    split at h
    · next hop =>
      obtain ⟨op, operand⟩ := i
      obtain rfl : op = .tryCatch := hop
      split at h
      · next start stop handler caught hoperand =>
        obtain rfl : operand = .tryCatch start stop handler caught := hoperand
        obtain ⟨t, ht, h⟩ := Except.bind_eq_ok_iff.mp h
        obtain ⟨m, hm, h⟩ := Except.bind_eq_ok_iff.mp h
        rw [target_eq_ok_iff] at ht
        -- a handler is an entry, so control reaches it
        have hreach : l.Reached t := .entry (.handler (hsub _ List.mem_cons_self) ht)
        obtain ⟨hp', hext, hbud, t', ht', hk⟩ := reach_progress hl hp
          (fun q hq => Option.some.inj hq ▸ hreach) hm
        obtain rfl : t = t' := Option.some.inj ht'
        obtain ⟨hp'', hext', hbud', hall⟩ := ih hrest hp' h
        refine ⟨hp'', hext.trans hext', hbud'.trans hbud, fun a b c d hmem => ?_⟩
        rcases List.mem_cons.mp hmem with e | hmem
        · cases e
          exact ⟨t, ht, hext'.at? t 1 hk⟩
        · exact hall a b c d hmem
      · cases h
    · next hop =>
      obtain ⟨hp', hext, hbud, hall⟩ := ih hrest hp h
      refine ⟨hp', hext, hbud, fun a b c d hmem => ?_⟩
      rcases List.mem_cons.mp hmem with e | hmem
      · exact absurd (congrArg Insn.opcode e).symm hop
      · exact hall a b c d hmem

/-- The analysis before any node is recorded. -/
def blank (l : Listing) : Flow where
  heights := { entry := Array.replicate l.nodes.size none }

theorem at?_blank (q : Ref) : (blank l).heights.at? q = none := by
  simp only [Heights.at?, blank, Array.getElem?_replicate]
  split <;> rfl

theorem progress_blank : Progress l [] (blank l) where
  size_eq := by simp [blank]
  reached r n hr := by rw [at?_blank] at hr; cases hr
  work := by simp [blank]
  settled r n hr := by rw [at?_blank] at hr; cases hr
  entry_le r n hr := by rw [at?_blank] at hr; cases hr
  exit_le r k _ _ hk := by
    obtain ⟨n, _, _, hn, -⟩ := exitHeight?_eq_some_iff.mp hk
    rw [at?_blank] at hn
    cases hn
  attained := .inl rfl

theorem budget_blank : (blank l).budget = l.nodes.size := by simp [budget, blank]

end Flow

namespace Listing

open ClassWeaver.Flow

variable {l : Listing} {h : Ref → Option Nat} {H : Heights}

/-! ### Soundness -/

/-- The heights of a listing are heights of an analysis in which no node waits any more. -/
theorem heights_progress (hl : l.WellFormed) (hshape : ∀ i ∈ l.insns, i.WellShaped)
    (hH : l.heights = .ok H) :
    (∃ s, s.heights = H ∧ s.work = [] ∧ Progress l [] s) ∧
      (∀ r, l.first = some r → H.at? r = some 0) ∧
      ∀ start stop handler caught,
        (⟨.tryCatch, .tryCatch start stop handler caught⟩ : Insn) ∈ l.insns →
        ∃ t, l.binding handler = some t ∧ H.at? t = some 1 := by
  unfold heights at hH
  dsimp only at hH
  split at hH
  · next hfirst =>
    -- an empty listing has no handlers either
    have hnil : l.insns = [] := by
      rw [hl.spells.first_eq, List.head?_eq_none_iff] at hfirst
      simp [insns, hfirst]
    cases hH
    exact ⟨⟨blank l, rfl, rfl, progress_blank⟩, by simp [hfirst], by simp [hnil]⟩
  · next head hfirst =>
    obtain ⟨s₁, h₁, hH⟩ := Except.bind_eq_ok_iff.mp hH
    obtain ⟨s₂, h₂, hH⟩ := Except.bind_eq_ok_iff.mp hH
    cases hH
    have hreach : l.Reached head := .entry (.head hfirst)
    -- the head waits at height zero, then the handlers, then the work list is run
    have hhead : ((blank l).record head 0).heights.at? head = some 0 := by
      rw [progress_blank.at?_record hl hreach, if_pos rfl]
    have hp := progress_blank.record hl hreach (at?_blank head) (k := 0)
    have hbud : ((blank l).record head 0).budget = l.nodes.size := by
      rw [progress_blank.budget_record hl hreach (at?_blank head), budget_blank]
    obtain ⟨hp₁, hext₁, hbud₁, hall⟩ := enterHandlers_progress hl (fun i hi => hi) hp h₁
    obtain ⟨hp₂, hnil, hext₂⟩ := run_progress hl hshape hp₁ (by omega) h₂
    refine ⟨⟨s₂, rfl, hnil, hp₂⟩, fun r hr => ?_, fun a b c d hmem => ?_⟩
    · obtain rfl : head = r := Option.some.inj (hfirst.symm.trans hr)
      exact hext₂.at? _ _ (hext₁.at? _ _ hhead)
    · obtain ⟨t, ht, hk⟩ := hall a b c d hmem
      exact ⟨t, ht, hext₂.at? _ _ hk⟩

/-- What a flow equation says of an edge: the height at its end is determined. -/
theorem FlowEquation.edge {r t : Ref} {n : Nat} {i : Insn} (hi : l.insn? r = some i)
    (he : l.Edge r t) (heq : l.FlowEquation h r n i) :
    ∃ k, h t = some k ∧ ∀ h', l.FlowEquation h' r n i → h' t = some k := by
  unfold FlowEquation at heq ⊢
  cases hf : i.finalNeed? with
  | some need =>
    -- no edge leaves an instruction that ends the method
    obtain ⟨hbr, hfall⟩ := Insn.no_exit_of_final hf
    cases he with
    | branch hi' hmem _ =>
      rw [Option.some.inj (hi'.symm.trans hi), hbr] at hmem
      cases hmem
    | fall hi' hft _ =>
      rw [Option.some.inj (hi'.symm.trans hi), hfall] at hft
      cases hft
  | none =>
    rw [hf] at heq
    obtain ⟨e, heff, -, hbr, hfall⟩ := heq
    cases he with
    | branch hi' hmem hb =>
      rw [Option.some.inj (hi'.symm.trans hi)] at hmem
      obtain ⟨q, hq, hk⟩ := hbr _ hmem
      rw [hb, Option.some.injEq] at hq
      refine ⟨_, hq ▸ hk, fun h' heq' => ?_⟩
      obtain ⟨e', heff', -, hbr', -⟩ := heq'
      obtain ⟨q', hq', hk'⟩ := hbr' _ hmem
      rw [hb, Option.some.injEq] at hq'
      rw [Except.ok.inj (heff.symm.trans heff'), hq', hk']
    | fall hi' hft hnext =>
      rw [Option.some.inj (hi'.symm.trans hi)] at hft
      obtain ⟨q, hq, hk⟩ := hfall hft
      rw [hnext, Option.some.injEq] at hq
      refine ⟨_, hq ▸ hk, fun h' heq' => ?_⟩
      obtain ⟨e', heff', -, -, hfall'⟩ := heq'
      obtain ⟨q', hq', hk'⟩ := hfall' hft
      rw [hnext, Option.some.injEq] at hq'
      rw [Except.ok.inj (heff.symm.trans heff'), hq', hk']

/-- Heights that solve the flow equations agree. -/
theorem FlowHeights.agree {h' : Ref → Option Nat} (hh : l.FlowHeights h) (hh' : l.FlowHeights h')
    {r : Ref} (hr : l.Reached r) : ∃ n, h r = some n ∧ h' r = some n := by
  induction hr with
  | entry he =>
    cases he with
    | head hf => exact ⟨0, hh.head _ hf, hh'.head _ hf⟩
    | handler hmem hb =>
      obtain ⟨t, ht, hk⟩ := hh.handlers _ _ _ _ hmem
      obtain ⟨t', ht', hk'⟩ := hh'.handlers _ _ _ _ hmem
      rw [hb, Option.some.injEq] at ht ht'
      subst ht
      subst ht'
      exact ⟨1, hk, hk'⟩
  | edge _ he ih =>
    obtain ⟨n, hn, hn'⟩ := ih
    obtain ⟨i, hi, heq⟩ := hh.equation _ _ hn
    obtain ⟨i', hi', heq'⟩ := hh'.equation _ _ hn'
    obtain rfl : i = i' := Option.some.inj (hi.symm.trans hi')
    obtain ⟨k, hk, hdet⟩ := heq.edge hi he
    exact ⟨k, hk, hdet h' heq'⟩

theorem FlowHeights.unique {h' : Ref → Option Nat} (hh : l.FlowHeights h)
    (hh' : l.FlowHeights h') : h = h' := by
  funext r
  by_cases hr : l.Reached r
  · obtain ⟨n, hn, hn'⟩ := hh.agree hh' hr
    rw [hn, hn']
  · have hnone : h r = none := Option.eq_none_iff_forall_ne_some.mpr
      fun n hn => hr ((hh.domain r).mp ⟨n, hn⟩)
    have hnone' : h' r = none := Option.eq_none_iff_forall_ne_some.mpr
      fun n hn => hr ((hh'.domain r).mp ⟨n, hn⟩)
    rw [hnone, hnone']

/-- Heights that satisfy the equations and are given to no node beyond those that control reaches
are given to all of these. -/
theorem FlowHeights.of_reached (hreached : ∀ r n, h r = some n → l.Reached r)
    (hhead : ∀ r, l.first = some r → h r = some 0)
    (hhandlers : ∀ start stop handler caught,
      (⟨.tryCatch, .tryCatch start stop handler caught⟩ : Insn) ∈ l.insns →
        ∃ t, l.binding handler = some t ∧ h t = some 1)
    (heq : ∀ r n, h r = some n → ∃ i, l.insn? r = some i ∧ l.FlowEquation h r n i) :
    l.FlowHeights h := by
  refine ⟨fun r => ⟨fun ⟨n, hn⟩ => hreached r n hn, fun hr => ?_⟩, hhead, hhandlers, heq⟩
  -- the nodes with a height contain the entries and are closed under edges
  induction hr with
  | entry he =>
    cases he with
    | head hf => exact ⟨0, hhead _ hf⟩
    | handler hmem hb =>
      obtain ⟨t, ht, hk⟩ := hhandlers _ _ _ _ hmem
      rw [hb, Option.some.injEq] at ht
      exact ⟨1, ht ▸ hk⟩
  | edge _ he ih =>
    obtain ⟨n, hn⟩ := ih
    obtain ⟨i, hi, heqn⟩ := heq _ n hn
    obtain ⟨k, hk, -⟩ := heqn.edge hi he
    exact ⟨k, hk⟩

/-- The heights of a listing solve the flow equations. -/
theorem flowHeights_heights (hl : l.WellFormed) (hshape : ∀ i ∈ l.insns, i.WellShaped)
    (hH : l.heights = .ok H) : l.FlowHeights H.at? := by
  obtain ⟨⟨s, rfl, hnil, hp⟩, hhead, hhandlers⟩ := heights_progress hl hshape hH
  exact .of_reached hp.reached hhead hhandlers fun r n hr =>
    hp.settled r n hr (by simp) (by simp [hnil])

/-- The deepest stack is the greatest of all entry and exit heights, and zero if there are
none. -/
theorem isGreatest_max (hl : l.WellFormed) (hshape : ∀ i ∈ l.insns, i.WellShaped)
    (hH : l.heights = .ok H) :
    IsGreatest {k | k = 0 ∨ ∃ r, H.at? r = some k ∨ l.exitHeight? H.at? r = some k} H.max := by
  obtain ⟨⟨s, rfl, hnil, hp⟩, -, -⟩ := heights_progress hl hshape hH
  refine ⟨hp.attained, ?_⟩
  rintro k (rfl | ⟨r, hr | hr⟩)
  · exact Nat.zero_le _
  · exact hp.entry_le r k hr
  · exact hp.exit_le r k (by simp) (by simp [hnil]) hr

end Listing

/-! ### Completeness -/

namespace Flow

open Listing

variable {l : Listing} {h : Ref → Option Nat} {s : Flow} {xs : List Ref} {r t : Ref} {n k : Nat}
  {i : Insn}

/-- All heights recorded so far are those of `h`. -/
def Within (h : Ref → Option Nat) (s : Flow) : Prop :=
  ∀ r n, s.heights.at? r = some n → h r = some n

section Within

variable (hl : l.WellFormed) (hh : l.FlowHeights h)

include hl hh

/-- Reaching a node with the height that a solution assigns to it cannot fail. -/
theorem reach_within (source : Insn) (hp : Progress l xs s) (hw : Within h s)
    (ht : h t = some k) :
    ∃ s', s.reach l source (some t) k = .ok s' ∧ Progress l xs s' ∧ Within h s' := by
  have hreach : l.Reached t := (hh.domain t).mp ⟨k, ht⟩
  cases hat : s.heights.at? t with
  | some known =>
    obtain rfl : known = k := Option.some.inj ((hw t known hat).symm.trans ht)
    exact ⟨s, reach_eq_ok_iff.mpr ⟨t, rfl, .inl ⟨hat, rfl⟩⟩, hp, hw⟩
  | none =>
    refine ⟨s.record t k, reach_eq_ok_iff.mpr ⟨t, rfl, .inr ⟨hat, rfl⟩⟩,
      hp.record hl hreach hat, fun q m hq => ?_⟩
    rw [hp.at?_record hl hreach] at hq
    split at hq
    · next e => rw [e, ht]; exact hq
    · exact hw q m hq

theorem follow_within {exits : List (Exit × Nat)} (hp : Progress l xs s) (hw : Within h s)
    (hex : ∀ x k, (x, k) ∈ exits → ∃ t, destination l r x = some t ∧ h t = some k) :
    ∃ s', follow l r i exits s = .ok s' ∧ Progress l xs s' ∧ Within h s' := by
  induction exits generalizing s with
  | nil => exact ⟨s, rfl, hp, hw⟩
  | cons xk rest ih =>
    obtain ⟨x, k⟩ := xk
    obtain ⟨t, ht, hk⟩ := hex x k (by simp)
    obtain ⟨m, hm, hp', hw'⟩ := reach_within hl hh i hp hw hk
    obtain ⟨s', hs', hp'', hw''⟩ := ih hp' hw' fun y j hy => hex y j (by simp [hy])
    exact ⟨s', follow_cons_eq_ok_iff.mpr ⟨m, ht ▸ hm, hs'⟩, hp'', hw''⟩

variable (hshape : ∀ i ∈ l.insns, i.WellShaped)

include hshape

/-- The exits of a node lead where its flow equation says. -/
theorem exits_within {e : Effect} (hn : h r = some n) (hi : l.insn? r = some i)
    (hf : i.finalNeed? = none) (he : i.effect = .ok e) (heq : l.FlowEquation h r n i) {x : Exit}
    (hx : (x, k) ∈ i.exits n (n - e.pops + e.pushes)) :
    ∃ t, destination l r x = some t ∧ h t = some k := by
  obtain ⟨i', hi', hmem⟩ := hl.insn_of_reached ((hh.domain r).mp ⟨n, hn⟩)
  obtain rfl : i = i' := Option.some.inj (hi.symm.trans hi')
  unfold FlowEquation at heq
  rw [hf] at heq
  obtain ⟨e', he', -, hbr, hfall⟩ := heq
  obtain rfl : e = e' := Except.ok.inj (he.symm.trans he')
  rw [Insn.exits_eq (hshape i hmem) hf, List.mem_append, List.mem_map] at hx
  rcases hx with ⟨lbl, hlbl, hxk⟩ | hx
  · cases hxk
    exact hbr lbl hlbl
  · split at hx
    · next hft =>
      obtain ⟨rfl, rfl⟩ : x = .fall ∧ k = if i.callsSubroutine then n else n - e.pops + e.pushes :=
        by simpa using hx
      exact hfall hft
    · simp at hx

theorem step_within {rest : List Ref} (hp : Progress l [] s) (hwork : s.work = r :: rest)
    (hn : s.heights.at? r = some n) (hw : Within h s) :
    ∃ s', step l r n { s with work := rest } = .ok s' ∧ Within h s' := by
  obtain ⟨i, hi, heq⟩ := hh.equation r n (hw r n hn)
  have hfetch := fetch_eq_ok_iff.mpr hi
  cases hf : i.finalNeed? with
  | some need =>
    -- the equation demands what the step checks
    have hle : need ≤ n := by
      unfold FlowEquation at heq
      rwa [hf] at heq
    refine ⟨{ s with work := rest }, Except.bind_eq_ok_iff.mpr ⟨i, hfetch, ?_⟩, hw⟩
    simp [hf, Nat.not_lt.mpr hle]
  | none =>
    have heq' := heq
    unfold FlowEquation at heq'
    rw [hf] at heq'
    obtain ⟨e, he, hpop, -, -⟩ := heq'
    have hexit : l.exitHeight? s.heights.at? r = some (n - e.pops + e.pushes) :=
      exitHeight?_eq_some_iff.mpr ⟨n, i, e, hn, hi, hf, he, rfl⟩
    obtain ⟨s', hs', -, hw'⟩ := follow_within hl hh (i := i) ((hp.pop hwork).note hexit) hw
      fun x k hx => exits_within hl hh hshape (hw r n hn) hi hf he heq hx
    refine ⟨s', Except.bind_eq_ok_iff.mpr ⟨i, hfetch, ?_⟩, hw'⟩
    simp only [hf]
    refine Except.bind_eq_ok_iff.mpr ⟨e, he, ?_⟩
    rw [if_neg (Nat.not_lt.mpr hpop)]
    exact hs'

theorem run_within (fuel : Nat) (hp : Progress l [] s) (hw : Within h s) :
    ∃ s', run l fuel s = .ok s' := by
  induction fuel generalizing s with
  | zero => exact ⟨s, rfl⟩
  | succ fuel ih =>
    cases hwork : s.work with
    | nil => exact ⟨s, by simp [run, hwork]⟩
    | cons r rest =>
      obtain ⟨n, hn⟩ := hp.work r (by simp [hwork])
      obtain ⟨m, hm, hw'⟩ := step_within hl hh hshape hp hwork hn hw
      obtain ⟨hp', -, -⟩ := step_progress hl hshape hp hwork hn hm
      obtain ⟨s', hs'⟩ := ih hp' hw'
      refine ⟨s', ?_⟩
      simp only [run, hwork, hn, Option.getD_some]
      exact Except.bind_eq_ok_iff.mpr ⟨m, hm, hs'⟩

theorem enterHandlers_within {is : List Insn} (hsub : ∀ i ∈ is, i ∈ l.insns)
    (hp : Progress l [] s) (hw : Within h s) :
    ∃ s', enterHandlers l is s = .ok s' ∧ Progress l [] s' ∧ Within h s' := by
  induction is generalizing s with
  | nil => exact ⟨s, rfl, hp, hw⟩
  | cons i rest ih =>
    have hrest : ∀ i ∈ rest, i ∈ l.insns := fun j hj => hsub j (by simp [hj])
    have hmem : i ∈ l.insns := hsub i (by simp)
    by_cases hop : i.opcode = .tryCatch
    · obtain ⟨op, operand⟩ := i
      obtain rfl : op = .tryCatch := hop
      have hsh : operand.shape = .tryCatch :=
        (hshape _ hmem).shape_operand (by rw [Opcode.shape_tryCatch]; exact nofun)
      cases operand <;> simp only [Operand.shape, reduceCtorEq] at hsh
      obtain ⟨t, ht, hk⟩ := hh.handlers _ _ _ _ hmem
      obtain ⟨m, hm, hp', hw'⟩ := reach_within hl hh _ hp hw hk
      obtain ⟨s', hs', hrest'⟩ := ih hrest hp' hw'
      refine ⟨s', ?_, hrest'⟩
      rw [enterHandlers, if_pos rfl]
      exact Except.bind_eq_ok_iff.mpr ⟨t, target_eq_ok_iff.mpr ht,
        Except.bind_eq_ok_iff.mpr ⟨m, hm, hs'⟩⟩
    · obtain ⟨s', hs', hrest'⟩ := ih hrest hp hw
      exact ⟨s', by rw [enterHandlers, if_neg hop]; exact hs', hrest'⟩

end Within

end Flow

namespace Listing

open ClassWeaver.Flow

variable {l : Listing} {h : Ref → Option Nat} {H : Heights}

/-- If the flow equations have a solution, the analysis finds heights. -/
theorem exists_heights (hl : l.WellFormed) (hshape : ∀ i ∈ l.insns, i.WellShaped)
    (hh : l.FlowHeights h) : ∃ H, l.heights = .ok H := by
  cases hfirst : l.first with
  | none => exact ⟨(blank l).heights, by simp [heights, hfirst, blank]⟩
  | some head =>
    have hreach : l.Reached head := .entry (.head hfirst)
    have hp := progress_blank.record hl hreach (at?_blank head) (k := 0)
    have hw : Within h ((blank l).record head 0) := fun q n hq => by
      rw [progress_blank.at?_record hl hreach, at?_blank] at hq
      split at hq
      · next e => rw [e, hh.head _ hfirst]; exact hq
      · cases hq
    obtain ⟨s₁, h₁, hp₁, hw₁⟩ := enterHandlers_within hl hh hshape (fun i hi => hi) hp hw
    obtain ⟨s₂, h₂⟩ := run_within hl hh hshape (l.nodes.size + 1) hp₁ hw₁
    refine ⟨s₂.heights, ?_⟩
    simp only [heights, hfirst]
    exact Except.bind_eq_ok_iff.mpr ⟨s₁, h₁, Except.bind_eq_ok_iff.mpr ⟨s₂, h₂, rfl⟩⟩

/-! ### Executions -/

/-- An execution can arrive at the node `r` with `n` values on the stack. -/
inductive Arrives (l : Listing) : Ref → Nat → Prop
  | entry {r : Ref} {n : Nat} : l.Entry r n → Arrives l r n
  | branch {r t : Ref} {n : Nat} {i : Insn} {e : Effect} {lbl : Label} : Arrives l r n →
      l.insn? r = some i → i.finalNeed? = none → i.effect = .ok e → lbl ∈ i.branches →
      l.binding lbl = some t → Arrives l t (n - e.pops + e.pushes)
  | fall {r t : Ref} {n : Nat} {i : Insn} {e : Effect} : Arrives l r n →
      l.insn? r = some i → i.finalNeed? = none → i.effect = .ok e → i.fallsThrough = true →
      l.next (some r) = some t →
      Arrives l t (if i.callsSubroutine then n else n - e.pops + e.pushes)

/-- The instruction at `r` can be executed with `n` values on a stack of at most `bound`: it
finds its operands, leaves no more than `bound`, and control has somewhere to go. -/
def Executes (l : Listing) (bound : Nat) (r : Ref) (n : Nat) : Prop :=
  n ≤ bound ∧ ∃ i, l.insn? r = some i ∧
    match i.finalNeed? with
    | some need => need ≤ n
    | none => ∃ e, i.effect = .ok e ∧ e.pops ≤ n ∧ n - e.pops + e.pushes ≤ bound ∧
        (∀ lbl ∈ i.branches, ∃ t, l.binding lbl = some t) ∧
        (i.fallsThrough = true → ∃ t, l.next (some r) = some t)

/-- Executions arrive with the heights that solve the flow equations. -/
theorem FlowHeights.arrives (hh : l.FlowHeights h) {r : Ref} {n : Nat} (ha : l.Arrives r n) :
    h r = some n := by
  induction ha with
  | entry he =>
    cases he with
    | head hf => exact hh.head _ hf
    | handler hmem hb =>
      obtain ⟨t, ht, hk⟩ := hh.handlers _ _ _ _ hmem
      rw [hb, Option.some.injEq] at ht
      exact ht ▸ hk
  | branch _ hi hf he hlbl hb ih =>
    obtain ⟨j, hj, heq⟩ := hh.equation _ _ ih
    rw [← Option.some.inj (hi.symm.trans hj), FlowEquation, hf] at heq
    obtain ⟨e', he', -, hbr, -⟩ := heq
    obtain ⟨t, ht, hk⟩ := hbr _ hlbl
    rw [hb, Option.some.injEq] at ht
    rw [Except.ok.inj (he.symm.trans he'), ht, hk]
  | fall _ hi hf he hft hnext ih =>
    obtain ⟨j, hj, heq⟩ := hh.equation _ _ ih
    rw [← Option.some.inj (hi.symm.trans hj), FlowEquation, hf] at heq
    obtain ⟨e', he', -, -, hfall⟩ := heq
    obtain ⟨t, ht, hk⟩ := hfall hft
    rw [hnext, Option.some.injEq] at ht
    rw [Except.ok.inj (he.symm.trans he'), ht, hk]

/-- Wherever an execution arrives, the instruction there can be executed on a stack of the
greatest height. -/
theorem executes_of_arrives (hl : l.WellFormed) (hshape : ∀ i ∈ l.insns, i.WellShaped)
    (hH : l.heights = .ok H) {r : Ref} {n : Nat} (ha : l.Arrives r n) :
    l.Executes H.max r n := by
  have hh := flowHeights_heights hl hshape hH
  have hmax := (isGreatest_max hl hshape hH).2
  have hn := hh.arrives ha
  obtain ⟨i, hi, heq⟩ := hh.equation r n hn
  refine ⟨hmax (.inr ⟨r, .inl hn⟩), i, hi, ?_⟩
  unfold FlowEquation at heq
  split
  · next need hf => rw [hf] at heq; exact heq
  · next hf =>
    rw [hf] at heq
    obtain ⟨e, he, hpop, hbr, hfall⟩ := heq
    refine ⟨e, he, hpop, hmax (.inr ⟨r, .inr ?_⟩), fun lbl hlbl => ?_, fun hft => ?_⟩
    · exact exitHeight?_eq_some_iff.mpr ⟨n, i, e, hn, hi, hf, he, rfl⟩
    · obtain ⟨t, ht, -⟩ := hbr lbl hlbl
      exact ⟨t, ht⟩
    · obtain ⟨t, ht, -⟩ := hfall hft
      exact ⟨t, ht⟩

/-- **Soundness and completeness of the height analysis.** A listing has heights exactly if
its flow equations have a solution. The heights found are the only solution, the maximum is
the greatest of all entry and exit heights, and no execution takes values that are not there,
runs off the end or exceeds the maximum. -/
theorem heights_iff_flowHeights (hb : l.Built) (hshape : ∀ i ∈ l.insns, i.WellShaped) :
    ((∃ H, l.heights = .ok H) ↔ ∃ h, l.FlowHeights h) ∧
      ∀ H, l.heights = .ok H →
        (∀ h, l.FlowHeights h ↔ h = H.at?) ∧
        IsGreatest {k | k = 0 ∨ ∃ r, H.at? r = some k ∨ l.exitHeight? H.at? r = some k} H.max ∧
        ∀ r n, l.Arrives r n → l.Executes H.max r n := by
  have hl := hb.wellFormed
  refine ⟨⟨fun ⟨H, hH⟩ => ⟨_, flowHeights_heights hl hshape hH⟩,
    fun ⟨h, hh⟩ => exists_heights hl hshape hh⟩, fun H hH => ⟨fun h => ⟨fun hh => ?_, ?_⟩, ?_, ?_⟩⟩
  · exact hh.unique (flowHeights_heights hl hshape hH)
  · rintro rfl
    exact flowHeights_heights hl hshape hH
  · exact isGreatest_max hl hshape hH
  · exact fun r n ha => executes_of_arrives hl hshape hH ha

/-- A loop under a handler that stands where the loop is left. -/
def retryLoop : Listing :=
  ofInsns 2 [⟨.tryCatch, .tryCatch 0 1 1 []⟩, .place 0, .plain .aconstNull, .jump .ifNonNull 0,
    .plain .aconstNull, .place 1, .plain .athrow]

theorem flowHeights_retryLoop :
    retryLoop.Built ∧ (∀ i ∈ retryLoop.insns, i.WellShaped) ∧
      ∃ H, retryLoop.heights = .ok H ∧ H.max = 1 ∧ retryLoop.FlowHeights H.at? ∧
        ∀ r n, retryLoop.Arrives r n → retryLoop.Executes 1 r n := by
  have hb : retryLoop.Built := .ofInsns _ _
  have hshape : ∀ i ∈ retryLoop.insns, i.WellShaped := by decide +kernel
  have hH : retryLoop.heights =
      .ok ⟨#[some 0, some 0, some 0, some 1, some 0, some 1, some 1], 1⟩ := by rfl
  obtain ⟨huniq, -, hexec⟩ := (heights_iff_flowHeights hb hshape).2 _ hH
  exact ⟨hb, hshape, _, hH, rfl, (huniq _).mpr rfl, hexec⟩

end Listing

end ClassWeaver
