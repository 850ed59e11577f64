import ClassWeaver.Proofs.Generator.Weaving
import ClassWeaver.Proofs.Listing.Editing
import ClassWeaver.Proofs.Stack.Levels

/-!
# Heights of the woven listing

Weaving adds edges to the control-flow graph of a body: the dispatch of the head leads into the
middle of it, and the returns of the splices cut it off in places. The heights of the body fit all
the same. The woven text is scored with them (`Generator.scoredText`): an instruction of the body
has the height that it has there, and spliced code starts at height zero. For it stands behind a
call that leaves the stack empty, and the labels it places are those that the dispatch leads to,
with nothing on the stack.

There are two cases in which this is not enough. A listing without instructions has heights, but its
woven form runs off its end. And a label that is placed twice may be bound to the later of the two
placements, while in the woven listing, which is filled in order, it is bound to the first
(`Listing.BindsFirst`). Apart from these, a woven listing has heights whenever it is built
(`Generator.heights_of_build`), so what the analysis has to say against a woven method is the doing
of the rules that ran over it. -/

namespace ClassWeaver

/-! ### Labels that are bound to their first placement -/

namespace Listing

variable {l : Listing} {lbl : Label} {pre post : List Insn} {i : Insn}

/-- No node in front of the one that a label is bound to places the label too. -/
def BindsFirst (l : Listing) (lbl : Label) : Prop :=
  ∀ xs r ys, l.refs = xs ++ r :: ys → l.binding lbl = some r → ∀ q ∈ xs, l.placedAt q ≠ some lbl

/-- In a listing that resolves there is but one placement. -/
theorem WellFormed.bindsFirst_of_resolve (hl : l.WellFormed) (hr : l.resolve = .ok ())
    (lbl : Label) :
    l.BindsFirst lbl := by
  intro xs r ys hs hb q hq hp
  have hnd : (xs ++ r :: ys).Nodup := hs ▸ hl.spells.nodup
  have hbq := hl.binding_of_resolve hr (by simp [hs, hq]) hp (nonneg_of_binding hb)
  obtain rfl : r = q := Option.some.inj (hb.symm.trans hbq)
  exact (List.nodup_append.mp hnd).2.2 r hq r (by simp) rfl

/-- A listing that is filled in order binds a label where its text places it first. -/
theorem binding_of_first (l : Listing) (h0 : 0 ≤ lbl) (hi : i.placed? = some lbl)
    (hpre : ∀ j ∈ pre, j.placed? ≠ some lbl) :
    (l.fork.appendAll (pre ++ i :: post)).binding lbl = some pre.length := by
  have hsplit : pre ++ i :: post = (pre ++ [i]) ++ post := by simp
  have happend : l.fork.appendAll (pre ++ i :: post) =
      (l.fork.appendAll (pre ++ [i])).appendAll post := by
    rw [hsplit, appendAll, List.foldl_append]
    rfl
  have hlists : (l.fork.appendAll (pre ++ [i])).Lists (pre ++ [i]) := .appendAll_fork l _
  have hlast : pre.length < (pre ++ [i]).length := by simp
  rw [happend]
  refine binding_appendAll (hlists.wellFormed.binding_of_unique (hlists.mem_refs hlast) ?_ h0 ?_)
  · rw [placedAt, hlists.insn?_middle rfl]
    exact hi
  · intro q hq hp
    rw [hlists.spells.refs_eq, List.mem_range] at hq
    rw [placedAt, hlists.insn?_eq hq] at hp
    by_contra hne
    have hlt : q < pre.length :=
      Nat.lt_of_le_of_ne (Nat.le_of_lt_succ (by simpa using hq)) hne
    rw [List.getElem?_append_left hlt, List.getElem?_eq_getElem hlt, Option.bind_some] at hp
    exact hpre _ (List.getElem_mem hlt) hp

end Listing

/-! ### Spliced code is straight -/

namespace Generator

section Moves

theorem moves_load (family : Family) (n : UInt16) : (Insn.load family.load n).Moves 0 1 := by
  cases family <;> exact ⟨rfl, rfl, .inl rfl, rfl, rfl, rfl, rfl⟩

theorem moves_store (family : Family) (n : UInt16) : (Insn.load family.store n).Moves 1 0 := by
  cases family <;> exact ⟨rfl, rfl, .inl rfl, rfl, rfl, rfl, rfl⟩

theorem moves_zero (family : Family) : (zero family).Moves 0 1 := by
  cases family <;> exact ⟨rfl, rfl, .inl rfl, rfl, rfl, rfl, rfl⟩

theorem moves_getField (owner name desc : Text) :
    (Insn.access .getField owner name desc).Moves 1 1 := ⟨rfl, rfl, .inl rfl, rfl, rfl, rfl, rfl⟩

theorem moves_putField (owner name desc : Text) :
    (Insn.access .putField owner name desc).Moves 2 0 := ⟨rfl, rfl, .inl rfl, rfl, rfl, rfl, rfl⟩

theorem moves_aload : (Insn.load .aload 0).Moves 0 1 := moves_load .reference 0

theorem moves_small {z : Int} (hlow : -1 ≤ z) (hhigh : z ≤ 5) :
    (Insn.plain ⟨Opcode.iconst0.code + z⟩).Moves 0 1 := by
  obtain rfl | rfl | rfl | rfl | rfl | rfl | rfl :
    z = -1 ∨ z = 0 ∨ z = 1 ∨ z = 2 ∨ z = 3 ∨ z = 4 ∨ z = 5 := by omega
  all_goals exact ⟨rfl, rfl, .inl rfl, rfl, rfl, rfl, rfl⟩

theorem moves_push (k : Int32) : (push k).Moves 0 1 := by
  unfold push
  split
  · next hk =>
    simp only [Bool.and_eq_true, decide_eq_true_eq, Int32.le_iff_toInt_le] at hk
    exact moves_small hk.1 hk.2
  · split
    · exact ⟨rfl, rfl, .inl rfl, rfl, rfl, rfl, rfl⟩
    · split <;> exact ⟨rfl, rfl, .inl rfl, rfl, rfl, rfl, rfl⟩

end Moves

section Climbs

variable (g : Generator) (slots : List Slot) (s : Slot)

theorem climbs_clear : Climbs 0 (clear s) 0 :=
  .cons (moves_zero _) (Nat.zero_le 0)
    (.cons (moves_store (.ofDescriptor s.desc) s.index) (Nat.le_refl 1) (.nil 0))

theorem climbs_save : Climbs 0 (g.save s) 0 :=
  .cons moves_aload (Nat.zero_le 0)
    (.cons (moves_load (.ofDescriptor s.desc) s.index) (Nat.zero_le 1)
      (.cons (moves_putField _ _ _) (Nat.le_refl 2) (.nil 0)))

theorem climbs_restore : Climbs 0 (g.restore s) 0 :=
  .cons moves_aload (Nat.zero_le 0)
    (.cons (moves_getField _ _ _) (Nat.le_refl 1)
      (.cons (moves_store (.ofDescriptor s.desc) s.index) (Nat.le_refl 1) (.nil 0)))

/-- The way out of a suspension leaves the answer on the stack. -/
theorem climbs_leaving (id : Nat) : Climbs 0 (g.leaving slots id) 1 :=
  (Climbs.flatMap fun s _ => g.climbs_save s).append
    (.cons moves_aload (Nat.zero_le 0)
      (.cons (moves_push _) (Nat.zero_le 1)
        (.cons (moves_putField _ _ _) (Nat.le_refl 2)
          (.cons (moves_push 1) (Nat.zero_le 0) (.nil 1)))))

/-- What the head does before it places the label of the start, or jumps. -/
def opening (g : Generator) (slots : List Slot) (count : Nat) : List Insn :=
  (g.freshSlots slots).flatMap clear ++
    if count = 0 then [] else [.load .aload 0, .access .getField g.owner g.stateField "I"]

theorem climbs_opening (count : Nat) :
    Climbs 0 (g.opening slots count) (if count = 0 then 0 else 1) := by
  refine (Climbs.flatMap fun s _ => climbs_clear s).append ?_
  split
  · exact .nil 0
  · exact .cons moves_aload (Nat.zero_le 0)
      (.cons (moves_getField _ _ _) (Nat.le_refl 1) (.nil 1))

end Climbs

/-! ### The woven text with its heights -/

section Scores

variable (g : Generator) (body : Listing) (H : Heights) (slots : List Slot) (count : Nat)

/-- The woven form of some nodes. The instructions of the body have the heights that they have
there, and spliced code starts at height zero. -/
def scoredNodes : (left : Nat) → List Ref → Scored
  | _, [] => []
  | left, r :: rs =>
    (body.insn? r).toList.map (·, H.at? r) ++ Scored.score 0 (g.spliceAt body H slots left r) ++
      scoredNodes (if g.suspendsAt body H r then left - 1 else left) rs

/-- The woven text with its heights. -/
def scoredText : Scored :=
  Scored.score 0 (g.wovenHead body slots count) ++ g.scoredNodes body H slots count body.refs

theorem map_fst_scoredNodes (left : Nat) (rs : List Ref) :
    (g.scoredNodes body H slots left rs).map Prod.fst = g.wovenNodes body H slots left rs := by
  induction rs generalizing left with
  | nil => rfl
  | cons r rs ih =>
    rw [scoredNodes, wovenNodes, List.map_append, List.map_append, ih, Scored.map_fst_score,
      List.map_map]
    simp [Function.comp_def]

theorem map_fst_scoredText :
    (g.scoredText body H slots count).map Prod.fst = g.wovenText body H slots count := by
  rw [scoredText, List.map_append, map_fst_scoredNodes, Scored.map_fst_score]
  rfl

theorem scoredNodes_append (left : Nat) (xs ys : List Ref) :
    g.scoredNodes body H slots left (xs ++ ys) = g.scoredNodes body H slots left xs ++
      g.scoredNodes body H slots (left - xs.countP (g.suspendsAt body H)) ys := by
  induction xs generalizing left with
  | nil => simp [scoredNodes]
  | cons r xs ih =>
    rw [List.cons_append, scoredNodes, ih, scoredNodes, List.append_assoc _ _ (scoredNodes ..),
      List.countP_cons]
    split
    · rw [Nat.sub_sub, Nat.add_comm 1]
    · rw [Nat.add_zero]

end Scores

section Text

variable {g : Generator} {body : Listing} {H : Heights} {slots : List Slot} {count : Nat}
variable {r : Ref} {i : Insn} {lbl : Label}

/-- At the place of a node the text has its instruction and its height. -/
theorem scoredText_place (hl : body.WellFormed) (hr : r ∈ body.refs) (hi : body.insn? r = some i) :
    (g.scoredText body H slots count)[g.place body H slots count r]? = some (i, H.at? r) := by
  obtain ⟨xs, ys, hs⟩ := List.append_of_mem hr
  have hlen : g.place body H slots count r =
      (Scored.score 0 (g.wovenHead body slots count) ++
      g.scoredNodes body H slots count xs).length := by
    rw [place, wovenBefore_eq hl hs, ← List.length_map Prod.fst, List.map_append,
      Scored.map_fst_score, map_fst_scoredNodes]
  rw [hlen, scoredText, hs, scoredNodes_append, scoredNodes, hi, ← List.append_assoc]
  simp

end Text

/-! ### The pieces of the text -/

section Pieces

variable (g : Generator) (body : Listing) (H : Heights) (slots : List Slot) (count : Nat)

/-- The jump of the head. -/
def dispatch (body : Listing) (count : Nat) : List Insn :=
  if count = 0 then []
  else [⟨.tableSwitch, .tableSwitch 1 (Int32.ofNat count) (startLabel body)
  (resumeLabels body count)⟩]

theorem wovenHead_split : g.wovenHead body slots count =
    g.opening slots count ++ (dispatch body count ++ [.place (startLabel body)]) := by
  rcases Nat.eq_zero_or_pos count with rfl | h
  · simp [wovenHead, head, resumption, opening, dispatch, freshSlots, resumeLabels]
  · rw [wovenHead_eq g body slots h, opening, dispatch, if_neg h.ne', if_neg h.ne']
    simp

theorem score_head : Scored.score 0 (g.wovenHead body slots count) =
    Scored.score 0 (g.opening slots count) ++
      ((dispatch body count).map (·, some 1) ++ [(.place (startLabel body), some 0)]) := by
  rw [wovenHead_split, (g.climbs_opening slots count).score_append, dispatch]
  split <;> rfl

theorem score_suspension (id : Nat) (resume : Label) :
    Scored.score 0 (g.suspension slots id resume) = Scored.score 0 (g.leaving slots id) ++
      (.plain .ireturn, some 1) :: (.place resume, some 0) ::
        Scored.score 0 (slots.flatMap g.restore) := by
  rw [suspension_eq, (g.climbs_leaving slots id).score_append]
  rfl

end Pieces

/-- Where an instruction of the woven text comes from. -/
inductive Origin (body : Listing) (count : Nat) : Insn × Option Nat → Prop
  | body {r : Ref} {i : Insn} {h : Option Nat} : r ∈ body.refs → body.insn? r = some i →
      Origin body count (i, h)
  | straight {pops pushes : Nat} {i : Insn} {h : Option Nat} : i.Moves pops pushes →
      Origin body count (i, h)
  | leave {h : Option Nat} : Origin body count (.plain .ireturn, h)
  | dispatch {i : Insn} {h : Option Nat} : i ∈ dispatch body count → Origin body count (i, h)
  | place {lbl : Label} : (body.numLabels : Int) ≤ lbl → Origin body count (.place lbl, some 0)

section Origins

variable {g : Generator} {body : Listing} {H : Heights} {slots : List Slot} {count : Nat}
variable {i : Insn} {r : Ref} {p : Insn × Option Nat} {lbl : Label}

theorem Origin.of_climbs {n m : Nat} {is : List Insn} (h : Climbs n is m)
    (hp : p ∈ Scored.score n is) :
    Origin body count p := by
  obtain ⟨a, b, hmoves⟩ := h.moves (Scored.mem_of_mem_score hp)
  exact .straight hmoves

theorem origin_head (hp : p ∈ Scored.score 0 (g.wovenHead body slots count)) :
    Origin body count p := by
  rw [score_head, List.mem_append, List.mem_append, List.mem_map, List.mem_singleton] at hp
  rcases hp with hp | ⟨i, hi, rfl⟩ | rfl
  · exact .of_climbs (g.climbs_opening slots count) hp
  · exact .dispatch hi
  · exact .place (Int.le_refl _)

theorem origin_splice {left : Nat} (hp : p ∈ Scored.score 0 (g.spliceAt body H slots left r)) :
    Origin body count p := by
  unfold spliceAt at hp
  split at hp
  · rw [score_suspension, List.mem_append, List.mem_cons, List.mem_cons] at hp
    rcases hp with hp | rfl | rfl | hp
    · exact .of_climbs (g.climbs_leaving slots left) hp
    · exact .leave
    · exact .place (Int.ofNat_le.mpr (Nat.le_add_right _ _))
    · exact .of_climbs (Climbs.flatMap fun s _ => g.climbs_restore s) hp
  · rcases List.mem_cons.mp hp with rfl | hp
    · exact .straight (moves_zero .int)
    · obtain rfl := List.mem_singleton.mp hp
      exact .leave
  · cases hp

theorem origin_text (hp : p ∈ g.scoredText body H slots count) : Origin body count p := by
  have hnodes : ∀ (rs : List Ref) (left : Nat), (∀ r ∈ rs, r ∈ body.refs) →
      p ∈ g.scoredNodes body H slots left rs → Origin body count p := by
    intro rs
    induction rs with
    | nil => exact fun _ _ hp => nomatch hp
    | cons r rs ih =>
      intro left hrs hp
      rw [scoredNodes, List.mem_append, List.mem_append] at hp
      rcases hp with (hp | hp) | hp
      · obtain ⟨i, hi, rfl⟩ := List.mem_map.mp hp
        exact .body (hrs r List.mem_cons_self) (by simpa using hi)
      · exact origin_splice hp
      · exact ih _ (fun t ht => hrs t (List.mem_cons_of_mem _ ht)) hp
  rcases List.mem_append.mp hp with hp | hp
  · exact origin_head hp
  · exact hnodes body.refs count (fun r hr => hr) hp

/-- An instruction of the woven text has a height and an origin. -/
theorem exists_origin (hi : i ∈ g.wovenText body H slots count) :
    ∃ h, Origin body count (i, h) := by
  rw [← map_fst_scoredText] at hi
  obtain ⟨⟨j, h⟩, hp, rfl⟩ := List.mem_map.mp hi
  exact ⟨h, origin_text hp⟩

theorem mem_dispatch (hi : i ∈ dispatch body count) :
    i.WellShaped ∧ i.placed? = none ∧ i.opcode = .tableSwitch ∧
      i.labels = startLabel body :: resumeLabels body count := by
  unfold dispatch at hi
  split at hi
  · cases hi
  · obtain rfl := List.mem_singleton.mp hi
    exact ⟨.inl rfl, rfl, rfl, rfl⟩

theorem Origin.wellShaped (hshape : ∀ i ∈ body.insns, i.WellShaped) (h : Origin body count p) :
    p.1.WellShaped := by
  cases h with
  | body hr hi => exact hshape _ (List.mem_filterMap.mpr ⟨_, hr, hi⟩)
  | straight hmoves => exact hmoves.shaped
  | leave | place _ => exact .inl rfl
  | dispatch hi => exact (mem_dispatch hi).1

/-- A label that the body has not used is placed at height zero. -/
theorem Origin.height_of_placed (hl : body.WellFormed) (h : Origin body count p)
    (hplaced : p.1.placed? = some lbl) (hnew : (body.numLabels : Int) ≤ lbl) : p.2 = some 0 := by
  cases h with
  | @body r i _ hr hi =>
    have hmem : lbl ∈ body.insns.filterMap Insn.placed? :=
      List.mem_filterMap.mpr ⟨i, List.mem_filterMap.mpr ⟨r, hr, hi⟩, hplaced⟩
    have hlt := hl.lt_numLabels (Int.le_trans (Int.natCast_nonneg _) hnew) hmem
    omega
  | straight hmoves =>
    rw [hmoves.placed] at hplaced
    cases hplaced
  | leave => cases hplaced
  | dispatch hi =>
    rw [(mem_dispatch hi).2.1] at hplaced
    cases hplaced
  | place _ => rfl

end Origins

/-- A yield or break call is a call, behind which control goes on. -/
theorem exits_of_role {g : Generator} {i : Insn} (h : g.role i ≠ .plain) :
    i.finalNeed? = none ∧ i.fallsThrough = true ∧ i.callsSubroutine = false := by
  have hcall : ∀ site : CallSite, site.isCall i = true →
      i.opcode = .invokeVirtual ∨ i.opcode = .invokeSpecial ∨ i.opcode = .invokeInterface := by
    intro site hs
    simp only [CallSite.isCall, Bool.and_eq_true, Bool.or_eq_true, decide_eq_true_eq,
      or_assoc] at hs
    exact hs.1
  have hop : i.opcode = .invokeVirtual ∨ i.opcode = .invokeSpecial ∨
      i.opcode = .invokeInterface := by
    unfold role at h
    split at h
    · exact hcall _ ‹_›
    · split at h
      · exact hcall _ ‹_›
      · exact absurd rfl h
  rcases hop with e | e | e <;>
    (unfold Insn.finalNeed? Insn.fallsThrough Insn.callsSubroutine; rw [e]; decide)

section Settled

open Scored

variable {g : Generator} {body : Listing} {H : Heights} {slots : List Slot} {count : Nat}
variable {target : Label → Option Nat} {last : Option Nat} {i : Insn} {r : Ref} {n : Nat}
    {lbl : Label}

theorem fits_place (lbl : Label) : (Insn.place lbl).Fits target (some 0) 0 :=
  ⟨⟨0, 0⟩, rfl, Nat.le_refl 0, nofun, fun _ => rfl⟩

theorem fits_ireturn : (Insn.plain .ireturn).Fits target last 1 := Nat.le_refl 1

theorem settled_dispatch (hstart : target (startLabel body) = some 0)
    (hresume : ∀ lbl ∈ resumeLabels body count, target lbl = some 0) :
    Settled target last ((dispatch body count).map (·, some 1)) := by
  unfold dispatch
  split
  · trivial
  · refine ⟨?_, trivial⟩
    rintro _ ⟨⟩
    refine ⟨⟨1, 0⟩, rfl, Nat.le_refl 1, fun lbl hlbl => ?_, nofun⟩
    rcases List.mem_cons.mp hlbl with rfl | hlbl
    · exact hstart
    · exact hresume lbl hlbl

theorem settled_head (hstart : target (startLabel body) = some 0)
    (hresume : ∀ lbl ∈ resumeLabels body count, target lbl = some 0) :
    Settled target (some 0) (score 0 (g.wovenHead body slots count)) := by
  have hentry : entry (some 0) ((dispatch body count).map (·, some 1) ++
      [(.place (startLabel body), some 0)]) = some (if count = 0 then 0 else 1) := by
    unfold dispatch
    split <;> rfl
  rw [score_head, settled_append, hentry]
  refine ⟨(g.climbs_opening slots count).settled target, ?_⟩
  rw [settled_append]
  refine ⟨settled_dispatch hstart hresume, ?_, trivial⟩
  rintro _ ⟨⟩
  exact fits_place _

theorem settled_suspension (id : Nat) (resume : Label) :
    Settled target (some 0) (score 0 (g.suspension slots id resume)) := by
  have hrestore : Climbs 0 (slots.flatMap g.restore) 0 :=
    Climbs.flatMap fun s _ => g.climbs_restore s
  rw [score_suspension, settled_append]
  refine ⟨(g.climbs_leaving slots id).settled target, ?_, ?_, hrestore.settled target⟩
  · rintro _ ⟨⟩
    exact fits_ireturn
  · rintro _ ⟨⟩
    rw [hrestore.entry_eq]
    exact fits_place resume

theorem settled_termination : Settled target last (score 0 termination) := by
  refine ⟨?_, ?_, trivial⟩
  · rintro _ ⟨⟩
    exact (moves_zero .int).fits (Nat.zero_le 0) target
  · rintro _ ⟨⟩
    exact fits_ireturn

/-- A call that leaves the stack empty goes on at height zero. -/
theorem next_of_statement (hrole : g.role i ≠ .plain) (hstatement : g.IsStatement body H r)
    (hn : H.at? r = some n) (hi : body.insn? r = some i) {next : Option Nat}
    (hfits : i.Fits target next n) : next = some 0 := by
  obtain ⟨hfinal, hfalls, hplain⟩ := exits_of_role hrole
  rw [Insn.Fits, hfinal] at hfits
  obtain ⟨e, he, hpops, -, hfall⟩ := hfits
  obtain ⟨e', he', hnet⟩ := hstatement n i hn hi hrole
  obtain rfl := Except.ok.inj (he.symm.trans he')
  rw [hfall hfalls, hplain]
  simp only [Bool.false_eq_true, if_false, Option.some.injEq]
  omega

/-- A reached instruction fits its splice, and the splice what follows in the body. -/
theorem settled_splice (left : Nat) (hstatement : g.IsStatement body H r) (hn : H.at? r = some n)
    (hi : body.insn? r = some i) {next : Option Nat} (hfits : i.Fits target next n) :
    i.Fits target (entry next (score 0 (g.spliceAt body H slots left r))) n ∧
      Settled target next (score 0 (g.spliceAt body H slots left r)) := by
  cases hrole : g.role i with
  | plain =>
    have hnil : g.spliceAt body H slots left r = [] := by simp [spliceAt, hn, hi, hrole]
    rw [hnil]
    exact ⟨hfits, trivial⟩
  | yields =>
    have hsplice : g.spliceAt body H slots left r =
        g.suspension slots left (resumeLabel body left) := by simp [spliceAt, hn, hi, hrole]
    obtain rfl := next_of_statement (by simp [hrole]) hstatement hn hi hfits
    rw [hsplice, entry_score 0 (by simp [suspension])]
    exact ⟨hfits, settled_suspension _ _⟩
  | breaks =>
    have hsplice : g.spliceAt body H slots left r = termination := by
      simp [spliceAt, hn, hi, hrole]
    obtain rfl := next_of_statement (by simp [hrole]) hstatement hn hi hfits
    rw [hsplice]
    exact ⟨hfits, settled_termination⟩

variable (hl : body.WellFormed) (hh : body.FlowHeights H.at?)
variable (hstatements : ∀ r ∈ body.refs, g.IsStatement body H r)
variable (hbody : ∀ i ∈ body.insns, ∀ lbl ∈ i.branches, ∀ n,
  (body.binding lbl).bind H.at? = some n → target lbl = some n)

include hl hh hstatements hbody

/-- The nodes of the body are settled, with their splices. Behind them stands what the body has
there. -/
theorem settled_nodes (left : Nat) {xs rs : List Ref} (hs : body.refs = xs ++ rs) :
    Settled target none (g.scoredNodes body H slots left rs) ∧
      entry none (g.scoredNodes body H slots left rs) = rs.head?.bind H.at? := by
  induction rs generalizing left xs with
  | nil => exact ⟨trivial, rfl⟩
  | cons r rs ih =>
    have hr : r ∈ body.refs := by simp [hs]
    obtain ⟨i, hi⟩ := hl.spells.exists_insn hr
    have hspell : body.Spells (xs ++ r :: rs) := hs ▸ hl.spells
    have hs' : body.refs = (xs ++ [r]) ++ rs := by simp [hs]
    obtain ⟨hrest, hentry⟩ := ih (if g.suspendsAt body H r then left - 1 else left) hs'
    rw [scoredNodes, hi]
    refine ⟨?_, rfl⟩
    change Settled target none ((i, H.at? r) :: (score 0 _ ++ _))
    rw [Settled, settled_append, hentry, entry_append, hentry]
    -- the instruction fits what follows it in the body
    have hfits : ∀ n, H.at? r = some n → i.Fits target (rs.head?.bind H.at?) n := by
      intro n hn
      obtain ⟨j, hj, hflow⟩ := hh.equation r n hn
      obtain rfl := Option.some.inj (hi.symm.trans hj)
      rw [Listing.flowEquation_iff_fits, hspell.next_eq] at hflow
      exact hflow.mono (hbody i (List.mem_filterMap.mpr ⟨r, hr, hi⟩))
    cases hn : H.at? r with
    | none =>
      have hnil : g.spliceAt body H slots left r = [] := by simp [spliceAt, hn]
      rw [hnil]
      refine ⟨?_, trivial, hrest⟩
      rintro _ ⟨⟩
    | some n =>
      obtain ⟨hat, hsplice⟩ := settled_splice left (hstatements r hr) hn hi (hfits n hn)
      refine ⟨?_, hsplice, hrest⟩
      rintro _ ⟨⟩
      exact hat

/-- The woven text is settled. -/
theorem settled_text (hne : body.refs ≠ []) (hstart : target (startLabel body) = some 0)
    (hresume : ∀ lbl ∈ resumeLabels body count, target lbl = some 0) :
    Settled target none (g.scoredText body H slots count) := by
  obtain ⟨hnodes, hentry⟩ : Settled target none (g.scoredNodes body H slots count body.refs) ∧ _ :=
    settled_nodes hl hh hstatements hbody count (List.nil_append body.refs).symm
  obtain ⟨r, rs, hrefs⟩ := List.exists_cons_of_ne_nil hne
  have hhead : H.at? r = some 0 := hh.head r (by rw [hl.spells.first_eq, hrefs]; rfl)
  rw [scoredText, settled_append, hentry, hrefs, List.head?_cons, Option.bind_some, hhead, ← hrefs]
  exact ⟨settled_head hstart hresume, hnodes⟩

end Settled

/-! ### The woven listing -/

section Woven

open Scored

variable {g : Generator} {body : Listing} {H : Heights} {slots : List Slot} {count : Nat}
variable {r p : Ref} {i : Insn} {h : Option Nat} {lbl : Label}

/-- The listing of the woven text, in which all labels of the body and of its states can be
placed. -/
def wovenListing (g : Generator) (body : Listing) (H : Heights) (slots : List Slot) (count : Nat) :
    Listing :=
  (body.newLabels (count + 1)).fork.appendAll (g.wovenText body H slots count)

variable (g body H slots count) in
theorem lists_woven :
    (g.wovenListing body H slots count).Lists (g.wovenText body H slots count) :=
  .appendAll_fork _ _

theorem insn?_of_scored (hp : (g.scoredText body H slots count)[p]? = some (i, h)) :
    p < (g.wovenText body H slots count).length ∧
      (g.wovenListing body H slots count).insn? p = some i := by
  have hget : (g.wovenText body H slots count)[p]? = some i := by
    rw [← map_fst_scoredText, List.getElem?_map, hp]
    rfl
  have hlt := (List.getElem?_eq_some_iff.mp hget).1
  exact ⟨hlt, ((lists_woven g body H slots count).insn?_eq hlt).trans hget⟩

theorem exists_scored (hp : p ∈ (g.wovenListing body H slots count).refs)
    (hi : (g.wovenListing body H slots count).insn? p = some i) :
    ∃ h, (g.scoredText body H slots count)[p]? = some (i, h) := by
  have hw := lists_woven g body H slots count
  rw [hw.spells.refs_eq, List.mem_range] at hp
  rw [hw.insn?_eq hp, ← map_fst_scoredText, List.getElem?_map, Option.map_eq_some_iff] at hi
  obtain ⟨⟨j, h⟩, hget, rfl⟩ := hi
  exact ⟨h, hget⟩

/-- A label of the body is bound to the place of its node, if that is the first to place it. -/
theorem binding_woven (hl : body.WellFormed) (hfirst : body.BindsFirst lbl)
    (hb : body.binding lbl = some r) :
    (g.wovenListing body H slots count).binding lbl = some (g.place body H slots count r) := by
  obtain ⟨hr, hp⟩ := hl.labelled.sound hb
  obtain ⟨i, hi, hplaced⟩ := Option.bind_eq_some_iff.mp hp
  obtain ⟨xs, ys, hs⟩ := List.append_of_mem hr
  obtain ⟨post, htext, -⟩ := wovenText_split g H slots count hl hs hi
  have hlt : lbl < body.numLabels := by
    by_contra hge
    rw [Listing.binding_of_numLabels_le (Int.not_lt.mp hge)] at hb
    cases hb
  have hnew : ∀ k : Nat, body.numLabels ≤ k → (Insn.place (k : Int)).placed? ≠ some lbl := by
    intro k hk e
    obtain rfl : (k : Int) = lbl := Option.some.inj e
    exact absurd hk (Nat.not_le.mpr (Int.ofNat_lt.mp hlt))
  rw [wovenListing, htext, place]
  refine Listing.binding_of_first _ (Listing.nonneg_of_binding hb) hplaced fun j hj => ?_
  rw [wovenBefore_eq hl hs, List.mem_append] at hj
  rcases hj with hj | hj
  · rcases mem_head hj with rfl | hj
    · exact hnew _ (Nat.le_refl _)
    · simp [hj.placed?_eq]
  · rcases mem_wovenNodes hj with ⟨t, ht, htj⟩ | ⟨id, rfl⟩ | hj
    · have hother := hfirst xs r ys hs hb t ht
      rwa [Listing.placedAt, htj] at hother
    · exact hnew _ (Nat.le_add_right _ _)
    · simp [hj.placed?_eq]

theorem heightAt_place (hl : body.WellFormed) (hr : r ∈ body.refs) :
    heightAt (g.scoredText body H slots count) (g.place body H slots count r) = H.at? r := by
  obtain ⟨i, hi⟩ := hl.spells.exists_insn hr
  rw [heightAt, scoredText_place hl hr hi]
  rfl

/-- A label that the body has not used is bound to a node at height zero. -/
theorem heightAt_new (hl : body.WellFormed) (hnew : (body.numLabels : Int) ≤ lbl)
    (hb : (g.wovenListing body H slots count).binding lbl = some p) :
    heightAt (g.scoredText body H slots count) p = some 0 := by
  obtain ⟨hp, hplaced⟩ := (lists_woven g body H slots count).wellFormed.labelled.sound hb
  obtain ⟨i, hi, hplaced⟩ := Option.bind_eq_some_iff.mp hplaced
  obtain ⟨h, hget⟩ := exists_scored hp hi
  rw [heightAt, hget]
  exact (origin_text (List.mem_of_getElem? hget)).height_of_placed hl hplaced hnew

/-- A label of the body is placed at the height that it has in the body. -/
theorem heightAt_binding (hl : body.WellFormed) (hfirst : body.BindsFirst lbl) {n : Nat}
    (hn : (body.binding lbl).bind H.at? = some n) :
    ((g.wovenListing body H slots count).binding lbl).bind
      (heightAt (g.scoredText body H slots count)) = some n := by
  obtain ⟨r, hr, hn⟩ := Option.bind_eq_some_iff.mp hn
  rw [binding_woven hl hfirst hr, Option.bind_some, heightAt_place hl (hl.labelled.sound hr).1, hn]

/-- The height behind a node is that of the text behind it, at the end as well. -/
theorem heightAt_next (hp : p < (g.wovenText body H slots count).length) :
    ((g.wovenListing body H slots count).next (some p)).bind
        (heightAt (g.scoredText body H slots count)) =
      heightAt (g.scoredText body H slots count) (p + 1) := by
  have hw := lists_woven g body H slots count
  rcases Nat.eq_or_lt_of_le (Nat.succ_le_of_lt hp) with hend | hbefore
  · have hlen : (g.scoredText body H slots count).length ≤ p + 1 := by
      rw [← List.length_map Prod.fst, map_fst_scoredText]
      exact hend.ge
    rw [hw.next_last hend.symm, heightAt, List.getElem?_eq_none hlen]
    rfl
  · rw [hw.next_eq hbefore]
    rfl

/-! ### The labels of the head -/

theorem place_start_mem : .place (startLabel body) ∈ g.wovenText body H slots count := by
  refine List.mem_append_left _ ?_
  change _ ∈ g.wovenHead body slots count
  rw [wovenHead_split]
  simp

theorem spliceAt_of_suspends {left : Nat} (hs : g.suspendsAt body H r = true) :
    g.spliceAt body H slots left r = g.suspension slots left (resumeLabel body left) := by
  obtain ⟨⟨n, hn⟩, i, hi, hrole⟩ : (∃ n, H.at? r = some n) ∧
      ∃ i, body.insn? r = some i ∧ g.role i = .yields := by
    simpa [suspendsAt, Option.isSome_iff_exists, Option.any_eq_true] using hs
  simp [spliceAt, hn, hi, hrole]

theorem place_resume_mem {left id : Nat} {rs : List Ref}
    (hlow : left < id + rs.countP (g.suspendsAt body H)) (hhigh : id ≤ left) :
    .place (resumeLabel body id) ∈ g.wovenNodes body H slots left rs := by
  induction rs generalizing left with
  | nil => exact absurd hhigh (Nat.not_le.mpr hlow)
  | cons r rs ih =>
    rw [List.countP_cons] at hlow
    rw [wovenNodes]
    by_cases hs : g.suspendsAt body H r = true
    · rw [if_pos hs] at hlow ⊢
      rcases Nat.eq_or_lt_of_le hhigh with rfl | hlt
      · refine List.mem_append_left _ (List.mem_append_right _ ?_)
        rw [spliceAt_of_suspends hs]
        simp [suspension]
      · exact List.mem_append_right _ (ih (by omega) (by omega))
    · rw [if_neg hs] at hlow ⊢
      exact List.mem_append_right _ (ih (by omega) hhigh)

/-- The labels that the head leads to are bound. -/
theorem exists_binding_head (hcount : body.refs.countP (g.suspendsAt body H) = count)
    (hlbl : lbl ∈ startLabel body :: resumeLabels body count) :
    ∃ p, (g.wovenListing body H slots count).binding lbl = some p := by
  have hw := lists_woven g body H slots count
  obtain ⟨k, rfl, hmem⟩ : ∃ k : Nat, lbl = (k : Int) ∧
      .place (k : Int) ∈ g.wovenText body H slots count := by
    rcases List.mem_cons.mp hlbl with rfl | hlbl
    · exact ⟨_, rfl, place_start_mem⟩
    · obtain ⟨k, hk, rfl⟩ := List.mem_map.mp hlbl
      rw [List.mem_range] at hk
      exact ⟨_, rfl, List.mem_append_right _ (place_resume_mem (by omega) hk)⟩
  rw [← hw.insns_eq] at hmem
  obtain ⟨p, hp, hpi⟩ := List.mem_filterMap.mp hmem
  have hplaced : (g.wovenListing body H slots count).placedAt p = some (k : Int) := by
    rw [Listing.placedAt, hpi]
    rfl
  exact hw.wellFormed.labelled.complete hp hplaced (Int.natCast_nonneg k)

theorem numLabels_le_of_head (hlbl : lbl ∈ startLabel body :: resumeLabels body count) :
    (body.numLabels : Int) ≤ lbl := by
  rcases List.mem_cons.mp hlbl with rfl | hlbl
  · exact Int.le_refl _
  · obtain ⟨k, -, rfl⟩ := List.mem_map.mp hlbl
    exact Int.ofNat_le.mpr (Nat.le_add_right _ _)

/-- The labels that the head leads to are placed at height zero. -/
theorem heightAt_head (hl : body.WellFormed)
    (hcount : body.refs.countP (g.suspendsAt body H) = count)
    (hlbl : lbl ∈ startLabel body :: resumeLabels body count) :
    ((g.wovenListing body H slots count).binding lbl).bind
      (heightAt (g.scoredText body H slots count)) = some 0 := by
  obtain ⟨p, hp⟩ := exists_binding_head hcount hlbl
  rw [hp, Option.bind_some]
  exact heightAt_new hl (numLabels_le_of_head hlbl) hp

/-! ### What the head reaches -/

/-- Control runs through straight code to what stands behind it. -/
theorem reached_of_falls {l : Listing} {pre post : List Insn} (hw : l.Lists (pre ++ post))
    (hpost : post ≠ []) (hfalls : ∀ i ∈ pre, i.fallsThrough = true) : l.Reached pre.length := by
  have hlt : pre.length < (pre ++ post).length := by
    simpa using List.length_pos_iff.mpr hpost
  have hupto : ∀ k ≤ pre.length, l.Reached k := by
    intro k
    induction k with
    | zero => exact fun _ => .entry (.head (hw.first_eq fun e => by simp [e] at hlt))
    | succ k ih =>
      intro hk
      have hget : (pre ++ post)[k]? = some pre[k] := by
        rw [List.getElem?_append_left hk, List.getElem?_eq_getElem hk]
      refine (ih (Nat.le_of_succ_le hk)).edge
        (.fall ((hw.insn?_eq (by omega)).trans hget) (hfalls _ (List.getElem_mem hk)) ?_)
      exact hw.next_eq (by omega)
  exact hupto _ (Nat.le_refl _)

variable (g body H slots count) in
theorem wovenText_opening : g.wovenText body H slots count =
    g.opening slots count ++ (dispatch body count ++ [.place (startLabel body)] ++
      g.wovenNodes body H slots count body.refs) := by
  rw [wovenText, ← wovenHead, wovenHead_split, List.append_assoc]

theorem reached_opening :
    (g.wovenListing body H slots count).Reached (g.opening slots count).length := by
  have hw := lists_woven g body H slots count
  rw [wovenText_opening] at hw
  refine reached_of_falls hw (by simp) fun i hi => ?_
  obtain ⟨a, b, hmoves⟩ := (g.climbs_opening slots count).moves hi
  exact hmoves.falls

/-- Control reaches the labels that the head leads to. -/
theorem reached_head (hlbl : lbl ∈ startLabel body :: resumeLabels body count)
    (hb : (g.wovenListing body H slots count).binding lbl = some p) :
    (g.wovenListing body H slots count).Reached p := by
  have htext := wovenText_opening g body H slots count
  rcases Nat.eq_zero_or_pos count with rfl | hpos
  · -- there is no dispatch, and the label of the start stands behind the opening
    obtain rfl : lbl = startLabel body := List.mem_singleton.mp hlbl
    have hsame : g.wovenText body H slots 0 = g.opening slots 0 ++
        .place (startLabel body) :: g.wovenNodes body H slots 0 body.refs := htext
    have hfirst : (g.wovenListing body H slots 0).binding (startLabel body) =
        some (g.opening slots 0).length := by
      rw [wovenListing, hsame]
      refine Listing.binding_of_first _ (Int.natCast_nonneg _) rfl fun j hj => ?_
      obtain ⟨a, b, hmoves⟩ := (g.climbs_opening slots 0).moves hj
      rw [hmoves.placed]
      exact nofun
    obtain rfl := Option.some.inj (hfirst.symm.trans hb)
    exact reached_opening
  · have hdispatch : dispatch body count = [⟨.tableSwitch, .tableSwitch 1 (Int32.ofNat count)
        (startLabel body) (resumeLabels body count)⟩] := if_neg hpos.ne'
    rw [hdispatch] at htext
    exact reached_opening.edge (.branch
      ((lists_woven g body H slots count).insn?_middle htext) hlbl hb)

/-! ### The flow equations of the woven listing -/

section Equations

variable (hl : body.WellFormed) (hh : body.FlowHeights H.at?) (hne : body.refs ≠ [])
variable (hstatements : ∀ r ∈ body.refs, g.IsStatement body H r)
variable (hfirst : ∀ i ∈ body.insns, ∀ lbl ∈ i.labels, body.BindsFirst lbl)
variable (hcount : body.refs.countP (g.suspendsAt body H) = count)

include hl hh hne hstatements hfirst hcount

variable (slots) in
open Classical in
/-- The heights of the woven text, where control gets, are those of the woven listing. -/
theorem flowHeights_woven : (g.wovenListing body H slots count).FlowHeights fun p =>
    if (g.wovenListing body H slots count).Reached p then
      heightAt (g.scoredText body H slots count) p
    else none := by
  have hw := lists_woven g body H slots count
  have hbody : ∀ i ∈ body.insns, ∀ lbl ∈ i.branches, ∀ n, (body.binding lbl).bind H.at? = some n →
      ((g.wovenListing body H slots count).binding lbl).bind
        (heightAt (g.scoredText body H slots count)) = some n := fun i hi lbl hlbl n hn =>
    heightAt_binding hl (hfirst i hi lbl (Insn.mem_labels_of_mem_branches hlbl)) hn
  have hsettled : Settled (fun lbl => ((g.wovenListing body H slots count).binding lbl).bind
      (heightAt (g.scoredText body H slots count))) none (g.scoredText body H slots count) :=
    settled_text hl hh hstatements hbody hne (heightAt_head hl hcount List.mem_cons_self)
      fun lbl hlbl => heightAt_head hl hcount (List.mem_cons_of_mem _ hlbl)
  refine Listing.flowHeights_of_equations (fun r hr => ?_) (fun a b c d hmem => ?_) fun p n hp => ?_
  · -- control enters at height zero
    have hsome : g.wovenText body H slots count ≠ [] := List.ne_nil_of_mem place_start_mem
    obtain rfl := Option.some.inj ((hw.first_eq hsome).symm.trans hr)
    have hopen : g.wovenHead body slots count ≠ [] := by
      rw [wovenHead_split]
      simp
    rw [heightAt_zero, scoredText, entry_append, entry_score 0 hopen]
  · rw [hw.insns_eq] at hmem
    -- exception entries come from the body alone
    obtain ⟨h, horigin⟩ := exists_origin hmem
    cases horigin with
    | body hr hi =>
      have hmem := List.mem_filterMap.mpr ⟨_, hr, hi⟩
      obtain ⟨t, ht, hk⟩ := hh.handlers a b c d hmem
      refine ⟨_, binding_woven hl (hfirst _ hmem c (by simp [Insn.labels, Operand.labels])) ht, ?_⟩
      rw [heightAt_place hl (hl.labelled.sound ht).1, hk]
    | straight hmoves => cases hmoves.labels
    | dispatch hi =>
      have hop : Opcode.tryCatch = Opcode.tableSwitch := (mem_dispatch hi).2.2.1
      exact absurd hop (by decide)
  · -- each place fits the height of the text in front of it
    obtain ⟨⟨i, h⟩, hget, rfl⟩ := Option.bind_eq_some_iff.mp hp
    obtain ⟨hlt, hi⟩ := insn?_of_scored hget
    refine ⟨i, hi, Listing.flowEquation_iff_fits.mpr ?_⟩
    rw [heightAt_next hlt]
    exact hsettled.fits hget

variable (slots) in
open Classical in
theorem exists_heights_woven (hshape : ∀ i ∈ body.insns, i.WellShaped) : ∃ H',
    (g.wovenListing body H slots count).heights = .ok H' ∧ H'.at? = fun p =>
      if (g.wovenListing body H slots count).Reached p then
        heightAt (g.scoredText body H slots count) p
      else none := by
  have hw := lists_woven g body H slots count
  have hflow := flowHeights_woven slots hl hh hne hstatements hfirst hcount
  have hshaped : ∀ i ∈ (g.wovenListing body H slots count).insns, i.WellShaped := by
    intro i hi
    rw [hw.insns_eq] at hi
    obtain ⟨h, horigin⟩ := exists_origin hi
    exact horigin.wellShaped hshape
  obtain ⟨H', hH'⟩ := Listing.exists_heights hw.wellFormed hshaped hflow
  exact ⟨H', hH', (Listing.flowHeights_heights hw.wellFormed hshaped hH').unique hflow⟩

end Equations

/-! ### Labels of the woven listing -/

/-- Where at most one element has a property, two places at which it holds are the same. -/
theorem eq_of_countP_le_one {α : Type} {P : α → Bool} {as : List α}
    (h : as.countP P ≤ 1) {p q : Nat}
    {a b : α} (hp : as[p]? = some a) (hq : as[q]? = some b) (ha : P a = true) (hb : P b = true) :
    p = q := by
  have hnot : ∀ {p q : Nat} {a b : α}, as[p]? = some a → as[q]? = some b → P a = true →
      P b = true → ¬p < q := by
    intro p q a b hp hq ha hb hlt
    obtain ⟨hq', rfl⟩ := List.getElem?_eq_some_iff.mp hq
    have hsplit : as = as.take q ++ as[q] :: as.drop (q + 1) := by
      rw [List.getElem_cons_drop, List.take_append_drop]
    have hfront : 0 < (as.take q).countP P := List.countP_pos_iff.mpr
      ⟨a, List.mem_of_getElem? ((List.getElem?_take_of_lt hlt).trans hp), ha⟩
    rw [hsplit, List.countP_append, List.countP_cons_of_pos hb] at h
    omega
  have h₁ := hnot hp hq ha hb
  have h₂ := hnot hq hp hb ha
  omega

theorem countP_placed_body (hb : body.Built) (hres : body.resolve = .ok ()) (h0 : 0 ≤ lbl) :
    body.refs.countP (fun r => body.placedAt r = some lbl) ≤
      if lbl < body.numLabels then 1 else 0 := by
  have hl := hb.wellFormed
  by_cases hnone : ∃ r ∈ body.refs, body.placedAt r = some lbl
  · obtain ⟨r, hr, hp⟩ := hnone
    obtain ⟨xs, ys, hs⟩ := List.append_of_mem hr
    have hnd : (xs ++ r :: ys).Nodup := hs ▸ hl.spells.nodup
    have hother : ∀ q, q ∈ xs ∨ q ∈ ys → ¬decide (body.placedAt q = some lbl) = true := by
      intro q hq hqp
      have hqr : q ∈ body.refs := by
        rw [hs]
        rcases hq with hq | hq <;> simp [hq]
      obtain rfl := (hb.resolve_iff.mp hres).1 lbl h0 q hqr r hr (of_decide_eq_true hqp) hp
      rcases hq with hq | hq
      · exact (List.nodup_append.mp hnd).2.2 q hq q (by simp) rfl
      · exact (List.nodup_cons.mp (List.nodup_append.mp hnd).2.1).1 hq
    have hlt : lbl < body.numLabels := by
      by_contra hge
      have hb := hl.binding_of_resolve hres hr hp h0
      rw [Listing.binding_of_numLabels_le (Int.not_lt.mp hge)] at hb
      cases hb
    have hfront := List.countP_eq_zero.mpr fun q hq => hother q (.inl hq)
    have hback := List.countP_eq_zero.mpr fun q hq => hother q (.inr hq)
    rw [if_pos hlt, hs, List.countP_append, List.countP_cons, hfront, hback]
    simp [hp]
  · rw [List.countP_eq_zero.mpr fun r hr hp => hnone ⟨r, hr, of_decide_eq_true hp⟩]
    exact Nat.zero_le _

theorem countP_placed_climbs {n m : Nat} {is : List Insn} (h : Climbs n is m) :
    is.countP (fun i => i.placed? = some lbl) = 0 := by
  refine List.countP_eq_zero.mpr fun i hi => ?_
  obtain ⟨a, b, hmoves⟩ := h.moves hi
  simp [hmoves.placed]

theorem countP_placed_head :
    (g.wovenHead body slots count).countP (fun i => i.placed? = some lbl) =
      if startLabel body = lbl then 1 else 0 := by
  have hdispatch : (dispatch body count).countP (fun i => i.placed? = some lbl) = 0 :=
    List.countP_eq_zero.mpr fun i hi => by simp [(mem_dispatch hi).2.1]
  rw [wovenHead_split, List.countP_append, List.countP_append, hdispatch,
    countP_placed_climbs (g.climbs_opening slots count), List.countP_singleton]
  simp [Insn.placed?, Insn.place]

theorem countP_placed_splice (left : Nat) : (g.spliceAt body H slots left r).countP
    (fun i => i.placed? = some lbl) =
      if g.suspendsAt body H r = true ∧ resumeLabel body left = lbl then 1 else 0 := by
  by_cases hs : g.suspendsAt body H r = true
  · rw [spliceAt_of_suspends hs, suspension_eq, List.countP_append, List.countP_cons,
      List.countP_cons, countP_placed_climbs (g.climbs_leaving slots left),
      countP_placed_climbs (Climbs.flatMap fun s _ => g.climbs_restore s)]
    simp [Insn.placed?, Insn.place, Insn.plain, hs]
  · rw [if_neg fun h => hs h.1, List.countP_eq_zero]
    intro i hi hp
    unfold spliceAt at hi
    split at hi
    · next hn hrole =>
      obtain ⟨j, hj, hrole⟩ := Option.map_eq_some_iff.mp hrole
      exact hs (by simp [suspendsAt, hn, hj, hrole])
    · simp only [termination, List.mem_cons, List.not_mem_nil, or_false] at hi
      rcases hi with rfl | rfl <;> cases of_decide_eq_true hp
    · cases hi

/-- A number of a state that is left is that of the next one or of one that is left then. -/
theorem ite_resume_add (body : Listing) (k : Int) {left : Nat} (hleft : 1 ≤ left) :
    (if resumeLabel body left = k then 1 else 0) +
        (if (body.numLabels : Int) < k ∧ k ≤ (body.numLabels + (left - 1) : Nat) then 1 else 0) ≤
      if (body.numLabels : Int) < k ∧ k ≤ (body.numLabels + left : Nat) then 1 else 0 := by
  have hself : resumeLabel body left = k ↔ ((body.numLabels + left : Nat) : Int) = k := Iff.rfl
  simp only [hself]
  split_ifs <;> omega

/-- The nodes place the labels that the body places, and each label of the states that are left
once. -/
theorem countP_placed_nodes {left : Nat} {rs : List Ref}
    (hroom : rs.countP (g.suspendsAt body H) ≤ left) :
    (g.wovenNodes body H slots left rs).countP (fun i => i.placed? = some lbl) ≤
      rs.countP (fun r => body.placedAt r = some lbl) +
        if (body.numLabels : Int) < lbl ∧ lbl ≤ (body.numLabels + left : Nat) then 1 else 0 := by
  induction rs generalizing left with
  | nil => exact Nat.zero_le _
  | cons r rs ih =>
    have hnode : (body.insn? r).toList.countP (fun i => i.placed? = some lbl) =
        if body.placedAt r = some lbl then 1 else 0 := by
      cases hi : body.insn? r <;> simp [Listing.placedAt, hi, List.countP_singleton]
    rw [List.countP_cons] at hroom
    rw [wovenNodes, List.countP_append, List.countP_append, hnode, countP_placed_splice,
      List.countP_cons]
    by_cases hs : g.suspendsAt body H r = true
    · rw [if_pos hs] at hroom ⊢
      have hroom' : rs.countP (g.suspendsAt body H) ≤ left - 1 := by omega
      have hrest := ih hroom'
      have hstates := ite_resume_add body lbl (Nat.le_of_add_left_le hroom)
      simp only [hs, true_and, decide_eq_true_eq] at hrest ⊢
      omega
    · rw [if_neg hs] at hroom ⊢
      have hrest := ih hroom
      simp only [hs, decide_eq_true_eq] at hrest ⊢
      simp only [Bool.false_eq_true, false_and, if_false] at hrest ⊢
      omega

/-- A label belongs to the body, to the start or to a state. -/
theorem ite_labels_add (body : Listing) (k : Int) (count : Nat) :
    (if startLabel body = k then 1 else 0) + ((if k < body.numLabels then 1 else 0) +
        if (body.numLabels : Int) < k ∧ k ≤ (body.numLabels + count : Nat) then 1 else 0) ≤ 1 := by
  have hstart : startLabel body = k ↔ (body.numLabels : Int) = k := Iff.rfl
  simp only [hstart]
  split_ifs <;> omega

/-- The woven listing of a body that resolves does so too. -/
theorem resolve_woven (hb : body.Built) (hcount : body.refs.countP (g.suspendsAt body H) = count)
    (hres : body.resolve = .ok ()) : (g.wovenListing body H slots count).resolve = .ok () := by
  have hw := lists_woven g body H slots count
  have hl := hb.wellFormed
  have hbuilt : (g.wovenListing body H slots count).Built :=
    .appendAll (.fork (hb.newLabels (count + 1))) _
  obtain ⟨-, hlabels⟩ := hb.resolve_iff.mp hres
  refine hbuilt.resolve_iff.mpr ⟨fun lbl h0 p hp q hq hpp hqp => ?_, fun i hi lbl hlbl => ?_⟩
  · -- a label of the body is placed once there, and the new ones once each
    have hone : (g.wovenText body H slots count).countP (fun i => i.placed? = some lbl) ≤ 1 := by
      have hhead : (g.wovenHead body slots count).countP (fun i => i.placed? = some lbl) = _ :=
        countP_placed_head
      have hnodes : (g.wovenNodes body H slots count body.refs).countP
          (fun i => i.placed? = some lbl) ≤ _ := countP_placed_nodes hcount.le
      have hbody := countP_placed_body hb hres h0
      have hsum := ite_labels_add body lbl count
      rw [wovenText, ← wovenHead, List.countP_append]
      omega
    rw [hw.spells.refs_eq, List.mem_range] at hp hq
    rw [Listing.placedAt, hw.insn?_eq hp] at hpp
    rw [Listing.placedAt, hw.insn?_eq hq] at hqp
    obtain ⟨i, hi, hip⟩ := Option.bind_eq_some_iff.mp hpp
    obtain ⟨j, hj, hjp⟩ := Option.bind_eq_some_iff.mp hqp
    exact eq_of_countP_le_one hone hi hj (decide_eq_true hip) (decide_eq_true hjp)
  · rw [hw.insns_eq] at hi
    -- labels that are referred to are those of the body, or those of the dispatch
    obtain ⟨h, horigin⟩ := exists_origin hi
    cases horigin with
    | body hr hri =>
      obtain ⟨h0, t, ht, htp⟩ := hlabels i (List.mem_filterMap.mpr ⟨_, hr, hri⟩) lbl hlbl
      refine ⟨h0, g.place body H slots count t, place_mem_refs hl hw ht, ?_⟩
      rw [Listing.placedAt, insn?_place hl hw ht]
      exact htp
    | straight hmoves =>
      rw [hmoves.labels] at hlbl
      cases hlbl
    | leave | place _ => cases hlbl
    | dispatch hdispatch =>
      rw [(mem_dispatch hdispatch).2.2.2] at hlbl
      obtain ⟨p, hp⟩ := exists_binding_head hcount hlbl
      obtain ⟨hmem, hplaced⟩ := hw.wellFormed.labelled.sound hp
      exact ⟨Listing.nonneg_of_binding hp, p, hmem, hplaced⟩

end Woven

/-! ### Building -/

/-- All labels that were handed out for states are bound if the resume labels are. -/
theorem checkBound_of_labels {states : States} {body l : Listing} {count : Nat}
    (hlabels : states.labels = ((resumeLabels body count).map some).toArray)
    (hbound : ∀ lbl ∈ resumeLabels body count, ∃ p, l.binding lbl = some p) :
    states.checkBound l = .ok () := by
  have hnone : (states.labelled.find? fun x => l.binding x.2 = none) = none := by
    refine List.find?_eq_none.mpr fun x hx hunbound => ?_
    obtain ⟨⟨o, n⟩, hmem, hox⟩ := List.mem_filterMap.mp hx
    obtain ⟨lbl, rfl, rfl⟩ := Option.map_eq_some_iff.mp hox
    have hlbl : some lbl ∈ states.labels.toList := List.fst_mem_of_mem_zipIdx hmem
    rw [hlabels, List.mem_map] at hlbl
    obtain ⟨lbl', hmem', ⟨⟩⟩ := hlbl
    obtain ⟨p, hp⟩ := hbound lbl hmem'
    rw [hp] at hunbound
    exact absurd hunbound (by simp)
  rw [States.checkBound, hnone]

/-- Woven code that no rule changes is accepted if it passes the checks. -/
theorem wovenCode_of_checks {settings : Settings} {owner : Text} {m : Method} {g : Generator}
    {body woven : Listing} {states : States} {resumes : List Ref} {H : Heights}
    (hg : create settings owner m.name m.desc = .ok g)
    (hw : (g.build body states).woven = .ok (woven, resumes))
    (hrun : settings.chain.run
      { boundary := (Std.HashSet.ofList resumes).contains, owner, method := m.key,
        states := (g.build body states).states } woven = (woven, .ok ()))
    (hH : woven.heights = .ok H) (hres : woven.resolve = .ok ())
    (hbound : (g.build body states).states.checkBound woven = .ok ()) :
    wovenCode settings owner m body states = .ok (woven, H) := by
  rw [wovenCode, hg]
  dsimp only
  rw [hw]
  refine Except.bind_eq_ok_iff.mpr ⟨(woven, resumes), rfl, ?_⟩
  dsimp only
  rw [hrun]
  refine Except.bind_eq_ok_iff.mpr ⟨H, Outcome.inMethod_eq_ok.mpr ?_, rfl⟩
  refine Except.bind_eq_ok_iff.mpr ⟨H, hH, Except.bind_eq_ok_iff.mpr ⟨(), hres, ?_⟩⟩
  rw [hbound]
  rfl

/-- **Building keeps the heights.** Let a listing with instructions have heights, let every label
that it refers to be bound to the first node that places it, and let it be built with the states
that are discovered in it. Then the woven listing has heights. An instruction of the body that
control reaches there has the height that it has in the body, and the label of the start and the
resume labels are entered with nothing on the stack. If the body resolves, so does the woven
listing, and the labels of all states are bound in it. So the woven code is accepted, unless a rule
changes it. -/
theorem heights_of_build {settings : Settings} {owner name desc method methodDesc : Text}
    {g : Generator} {body woven : Listing} {states : States} {resumes : List Ref} {H : Heights}
    (hb : body.Built) (hshape : ∀ i ∈ body.insns, i.WellShaped) (hH : body.heights = .ok H)
    (hd : discover settings body method methodDesc = .ok states)
    (hg : create settings owner name desc = .ok g)
    (hw : (g.build body states).woven = .ok (woven, resumes)) (hne : body.refs ≠ [])
    (hfirst : ∀ i ∈ body.insns, ∀ lbl ∈ i.labels, body.BindsFirst lbl) :
    ∃ H', woven.heights = .ok H' ∧
      (∀ r ∈ body.refs,
        woven.insn? (g.place body H states.slots (body.yieldCount settings) r) = body.insn? r ∧
        ∀ n, H'.at? (g.place body H states.slots (body.yieldCount settings) r) = some n →
          H.at? r = some n) ∧
      (∃ t, woven.binding (startLabel body) = some t ∧ H'.at? t = some 0) ∧
      (∀ id, 1 ≤ id → id ≤ body.yieldCount settings → ∃ lbl t,
        (g.build body states).states.label? id = some lbl ∧ woven.binding lbl = some t ∧
          H'.at? t = some 0) ∧
      (body.resolve = .ok () → woven.resolve = .ok ()) ∧
      (g.build body states).states.checkBound woven = .ok () ∧
      ∀ m : Method, m.name = name → m.desc = desc → body.resolve = .ok () →
        settings.chain.run
            { boundary := (Std.HashSet.ofList resumes).contains, owner, method := m.key,
              states := (g.build body states).states } woven = (woven, .ok ()) →
          wovenCode settings owner m body states = .ok (woven, H') := by
  have hl := hb.wellFormed
  have hh := Listing.flowHeights_heights hl hshape hH
  obtain ⟨hfresh, hleft⟩ := fresh_of_discover hd
  have hbuild : g.build body states = g.assemble H body states := by rw [build, hH]
  have hassemble := hw
  rw [hbuild] at hassemble
  obtain ⟨hwoven, hcount, hstatements⟩ := woven_assemble hl hh hfresh hleft hassemble
  have hlabels := labels_assemble hl hh hfresh hleft hassemble
  rw [← hbuild] at hlabels
  obtain rfl : woven = g.wovenListing body H states.slots (body.yieldCount settings) := hwoven
  have hlists := lists_woven g body H states.slots (body.yieldCount settings)
  obtain ⟨H', hH', hat⟩ := exists_heights_woven states.slots hl hh hne hstatements hfirst
    hcount hshape
  -- a label that the head leads to is reached at height zero
  have hhead : ∀ lbl ∈ startLabel body :: resumeLabels body (body.yieldCount settings), ∃ t,
      (g.wovenListing body H states.slots (body.yieldCount settings)).binding lbl = some t ∧
        H'.at? t = some 0 := by
    intro lbl hlbl
    obtain ⟨t, ht⟩ := exists_binding_head hcount hlbl
    refine ⟨t, ht, ?_⟩
    rw [hat]
    exact (if_pos (reached_head hlbl ht)).trans (heightAt_new hl (numLabels_le_of_head hlbl) ht)
  have hbound : (g.build body states).states.checkBound
      (g.wovenListing body H states.slots (body.yieldCount settings)) = .ok () :=
    checkBound_of_labels hlabels fun lbl hlbl =>
      exists_binding_head hcount (List.mem_cons_of_mem _ hlbl)
  refine ⟨H', hH', fun r hr => ⟨insn?_place hl hlists hr, fun n hn => ?_⟩,
    hhead _ List.mem_cons_self, fun id h1 hle => ?_, resolve_woven hb hcount, hbound,
    fun m hname hdesc hres hrun => ?_⟩
  · rw [hat] at hn
    dsimp only at hn
    split at hn
    · rwa [heightAt_place hl hr] at hn
    · cases hn
  · have hid : (g.build body states).states.label? id = some (resumeLabel body id) := by
      obtain ⟨k, rfl⟩ : ∃ k, id = k + 1 := ⟨id - 1, by omega⟩
      have hk : k < body.yieldCount settings := by omega
      simp [States.label?, hlabels, resumeLabels, hk]
    have hmem : resumeLabel body id ∈ resumeLabels body (body.yieldCount settings) :=
      List.mem_map.mpr ⟨id - 1, List.mem_range.mpr (by omega), by rw [Nat.sub_add_cancel h1]⟩
    obtain ⟨t, ht, hzero⟩ := hhead _ (List.mem_cons_of_mem _ hmem)
    exact ⟨_, t, hid, ht, hzero⟩
  · subst hname hdesc
    exact wovenCode_of_checks hg hw hrun hH' (resolve_woven hb hcount hres) hbound

theorem heights_of_build_countdown : ∃ (g : Generator) (H H' : Heights) (states : States)
    (woven : Listing) (resumes : List Ref), countdown.Built ∧
    (∀ i ∈ countdown.insns, i.WellShaped) ∧ countdown.heights = .ok H ∧
    discover {} countdown "next" "()Z" = .ok states ∧ create {} "Seq" "next" "()Z" = .ok g ∧
    (g.build countdown states).woven = .ok (woven, resumes) ∧ countdown.refs ≠ [] ∧
    (∀ i ∈ countdown.insns, ∀ lbl ∈ i.labels, countdown.BindsFirst lbl) ∧
    woven.heights = .ok H' ∧ woven.resolve = .ok () ∧
    ∃ t, woven.binding (startLabel countdown) = some t ∧ H'.at? t = some 0 := by
  have hb : countdown.Built := .ofInsns _ _
  have hshape : ∀ i ∈ countdown.insns, i.WellShaped := by decide +kernel
  have hd : discover {} countdown "next" "()Z" =
      .ok ⟨#[none], 1, [⟨1, "I", "$slot$next$1"⟩]⟩ := by rfl
  have hg : create {} "Seq" "next" "()Z" = .ok ⟨{}, "Seq", "next", "()Z", 1⟩ := by rfl
  obtain ⟨⟨woven, resumes⟩, hw⟩ : ∃ p, (build ⟨{}, "Seq", "next", "()Z", 1⟩ countdown
      ⟨#[none], 1, [⟨1, "I", "$slot$next$1"⟩]⟩).woven = .ok p := ⟨_, rfl⟩
  obtain ⟨H, hH⟩ : ∃ H, countdown.heights.toOption = some H :=
    Option.isSome_iff_exists.mp (by decide +kernel)
  have hne : countdown.refs ≠ [] := by decide +kernel
  have hres : countdown.resolve = .ok () := Outcome.eq_ok_of_toOption (by decide +kernel)
  have hfirst : ∀ i ∈ countdown.insns, ∀ lbl ∈ i.labels, countdown.BindsFirst lbl :=
    fun i _ lbl _ => hb.wellFormed.bindsFirst_of_resolve hres lbl
  obtain ⟨H', hH', -, hstart, -, hresolve, -, -⟩ :=
    heights_of_build hb hshape (Outcome.eq_ok_of_toOption hH) hd hg hw hne hfirst
  exact ⟨_, H, H', _, woven, resumes, hb, hshape, Outcome.eq_ok_of_toOption hH, hd, hg, hw, hne,
    hfirst, hH', hresolve hres, hstart⟩

/-- Jumps to a label and over a `pop`, in front of which the label is placed once more, later. -/
def shadowed : Listing :=
  let l := Listing.ofInsns 1 [.jump .goto 0, .place 0, .plain .iconst0, .plain .ireturn]
  (l.insertAllAfter (some 0) [.place 0, .plain .pop]).2

/-- The listing is well-shaped and has heights, and the state machine that is made of it has
none. -/
def GoesAstray (l : Listing) : Prop :=
  ∃ (g : Generator) (H : Heights) (states : States) (woven : Listing) (resumes : List Ref)
    (f : Failure), l.Built ∧ (∀ i ∈ l.insns, i.WellShaped) ∧ l.heights = .ok H ∧
    discover {} l "next" "()Z" = .ok states ∧ create {} "Seq" "next" "()Z" = .ok g ∧
    (g.build l states).woven = .ok (woven, resumes) ∧ woven.heights = .error f

/-- A listing without suspensions can be checked by building it. -/
theorem goesAstray_of_build {l : Listing} (hb : l.Built) (hshape : ∀ i ∈ l.insns, i.WellShaped)
    (hheights : l.heights.toOption.isSome = true)
    (hd : discover {} l "next" "()Z" = .ok ⟨#[], 0, []⟩)
    (hwoven : ((build ⟨{}, "Seq", "next", "()Z", 1⟩ l ⟨#[], 0, []⟩).woven.toOption.map fun w =>
      w.1.heights.toOption.isNone) = some true) : GoesAstray l := by
  have hg : create {} "Seq" "next" "()Z" = .ok ⟨{}, "Seq", "next", "()Z", 1⟩ := by rfl
  obtain ⟨H, hH⟩ := Option.isSome_iff_exists.mp hheights
  obtain ⟨⟨woven, resumes⟩, hw, hnone⟩ := Option.map_eq_some_iff.mp hwoven
  obtain ⟨f, hf⟩ : ∃ f, woven.heights = .error f := by
    cases hfail : woven.heights with
    | error f => exact ⟨f, rfl⟩
    | ok H' =>
      rw [hfail] at hnone
      cases hnone
  exact ⟨_, H, _, woven, resumes, f, hb, hshape, Outcome.eq_ok_of_toOption hH, hd, hg,
    Outcome.eq_ok_of_toOption hw, hf⟩

/-- The listing without instructions has heights, and the state machine that is made of it runs off
its end. The label of the second listing is bound to a place at height zero, with a `pop` in front
of it that nothing reaches; in the woven listing it is bound to a place in front of the `pop`. -/
theorem heights_astray : GoesAstray Listing.empty ∧ GoesAstray shadowed := by
  have hshadowed : shadowed.Built :=
    Listing.Built.insertAllAfter (.ofInsns _ _) (by decide +kernel)
  exact ⟨goesAstray_of_build .empty (by decide +kernel) (by decide +kernel) rfl (by decide +kernel),
    goesAstray_of_build hshadowed (by decide +kernel) (by decide +kernel) rfl (by decide +kernel)⟩

end Generator

end ClassWeaver
