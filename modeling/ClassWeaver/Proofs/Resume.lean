import Mathlib.Data.List.Pairwise
import ClassWeaver.Resume
import ClassWeaver.Proofs.Outcome

/-!
# Asking for states and labels

The states of a method are handed out while labels are asked for, those of states and others, in any
order. A run of such requests is told by its transcript, and `Tallies` says what the transcript
settles: the states come in order until they are used up, a state keeps the label it was given when
it was first asked about, and no two labels are the same otherwise. Each request keeps this
(`Tallies.answer`), so that it holds of every run (`create_run`). -/

namespace ClassWeaver.States

variable {s : States} {l l₀ : Listing} {n : Nat}

/-! ### Requests -/

/-- What the states of a listing are asked for, or the listing itself. -/
inductive Request where
  | take
  | label (id : Int)
  | newLabel
  deriving DecidableEq, Repr

inductive Reply where
  | state (id : Nat)
  | label (lbl : Label)
  | fault (f : Fault)

/-- The reply to a request, with the states and the listing afterwards. -/
def answer (s : States) (l : Listing) : Request → Reply × States × Listing
  | .take =>
    match s.take with
    | .ok (id, s) => (.state id, s, l)
    | .error f => (.fault f, s, l)
  | .label id =>
    match s.label l id with
    | .ok (lbl, s, l) => (.label lbl, s, l)
    | .error f => (.fault f, s, l)
  | .newLabel => (.label l.newLabel.1, s, l.newLabel.2)

/-- Requests in order: the transcript, and the states and the listing afterwards. -/
def run (s : States) (l : Listing) : List Request → List (Request × Reply) × States × Listing
  | [] => ([], s, l)
  | q :: qs =>
    let (r, s, l) := s.answer l q
    let (t, s, l) := run s l qs
    ((q, r) :: t, s, l)

/-- Every request has a reply. -/
theorem map_fst_run (s : States) (l : Listing) (qs : List Request) :
    (s.run l qs).1.map Prod.fst = qs := by
  induction qs generalizing s l with
  | nil => rfl
  | cons q qs ih => exact congrArg (q :: ·) (ih _ _)

/-- A request that ends in a fault changes nothing. -/
theorem answer_fault {q : Request} {f : Fault} (h : (s.answer l q).1 = .fault f) :
    (s.answer l q).2 = (s, l) := by
  cases q with
  | take =>
    rw [answer] at h ⊢
    split at h
    · cases h
    · rfl
  | label id =>
    rw [answer] at h ⊢
    split at h
    · cases h
    · rfl
  | newLabel => cases h

/-! ### Single requests -/

@[simp] theorem numLabels_newLabel (l : Listing) : l.newLabel.2.numLabels = l.numLabels + 1 :=
  Array.size_push ..

/-- The reply to the request for a state that follows `k` others, of `n` states. -/
def handout (n k : Nat) : Reply :=
  if k < n then .state (n - k)
  else .fault (.about .metadata .usage (Text.ofNat n)
    ("state budget of " ++ Text.ofNat n ++ " exhausted"))

/-- The fault about a state that is none of `n`. -/
def outside (n : Nat) (id : Int) : Fault :=
  .about .metadata .usage (Text.ofInt id)
    ("state " ++ Text.ofInt id ++ " outside [1, " ++ Text.ofNat n ++ "]")

theorem answer_take {k : Nat} (hcount : s.count = n) (hleft : s.remaining = n - k) :
    s.answer l .take = (handout n k, { s with remaining := n - (k + 1) }, l) := by
  rw [answer, take, hleft]
  by_cases hk : k < n
  · obtain ⟨m, hm⟩ := Nat.exists_eq_add_one_of_ne_zero (Nat.sub_ne_zero_of_lt hk)
    rw [handout, if_pos hk, hm, show n - (k + 1) = m by omega]
  · have hzero : n - k = 0 := by omega
    have hsame : { s with remaining := n - (k + 1) } = s := by
      rw [show n - (k + 1) = s.remaining by omega]
    rw [handout, if_neg hk, hzero, hsame, hcount]

/-- The states with a label for one more. -/
def give (s : States) (id : Nat) (lbl : Label) : States :=
  { s with labels := s.labels.setIfInBounds (id - 1) (some lbl) }

@[simp] theorem count_give (s : States) (id : Nat) (lbl : Label) :
    (s.give id lbl).count = s.count :=
  Array.size_setIfInBounds

theorem label?_give {id k : Nat} {lbl : Label} (h1 : 1 ≤ id) (hn : id ≤ s.count) :
    (s.give id lbl).label? k = if k = id then some lbl else s.label? k := by
  obtain ⟨m, rfl⟩ := Nat.exists_eq_add_one_of_ne_zero (Nat.ne_of_gt h1)
  cases k with
  | zero => rw [if_neg (by omega), label?, label?]
  | succ k =>
    rw [label?, label?, give, Nat.add_sub_cancel, Array.getElem?_setIfInBounds]
    by_cases hk : m = k
    · subst hk
      have hlt : m < s.labels.size := hn
      rw [if_pos rfl, if_pos hlt, if_pos rfl]
      rfl
    · rw [if_neg hk, if_neg (by omega)]

/-- A state that there is none of cannot be asked about. -/
theorem answer_label_outside {id : Int} (hcount : s.count = n) (h : ¬(1 ≤ id ∧ id ≤ n)) :
    s.answer l (.label id) = (.fault (outside n id), s, l) := by
  have hout : (id < 1 || s.count < id) = true := by
    rw [Bool.or_eq_true, decide_eq_true_eq, decide_eq_true_eq, hcount]
    omega
  rw [answer, label, index, if_pos hout, hcount]
  rfl

/-- A state has the label it was given, or gets a new one. -/
theorem answer_label_inside {id : Nat} (hcount : s.count = n) (h1 : 1 ≤ id) (hn : id ≤ n) :
    s.answer l (.label id) =
      match s.label? id with
      | some lbl => (.label lbl, s, l)
      | none => (.label l.numLabels, s.give id l.numLabels, l.newLabel.2) := by
  have hin : ¬((id : Int) < 1 || s.count < (id : Int)) = true := by
    rw [Bool.or_eq_true, decide_eq_true_eq, decide_eq_true_eq, hcount]
    omega
  obtain ⟨m, rfl⟩ := Nat.exists_eq_add_one_of_ne_zero (Nat.ne_of_gt h1)
  have hplace : (((m + 1 : Nat) : Int) - 1).toNat = m := by omega
  rw [answer, label, index, if_neg hin, hplace, label?]
  dsimp only [bind, Except.bind]
  cases (s.labels[m]?).join <;> rfl

/-! ### Transcripts -/

/-- The replies to the requests for a state, in order. -/
def takes (t : List (Request × Reply)) : List Reply :=
  t.filterMap fun x => if x.1 = .take then some x.2 else none

/-- Two entries of a transcript are told one label if and only if they ask about the same state. -/
def Apart (x y : Request × Reply) : Prop :=
  ∀ a b, x.2 = .label a → y.2 = .label b → (a = b ↔ ∃ id, x.1 = .label id ∧ y.1 = .label id)

/-- A transcript of requests to `n` states of a listing that was `l₀`, up to where the states are
`s` and the listing is `l`. -/
structure Tallies (n : Nat) (l₀ : Listing) (t : List (Request × Reply)) (s : States) (l : Listing) :
    Prop where
  /-- There are as many states as before. -/
  count : s.count = n
  /-- The states are handed out from the highest down, until they are used up. -/
  takes : takes t = (List.range (takes t).length).map (handout n)
  remaining : s.remaining = n - (States.takes t).length
  /-- A state that is asked about has a label, and what is no state is a fault. -/
  asked : ∀ (id : Int) (r : Reply), (.label id, r) ∈ t →
    if 1 ≤ id ∧ id ≤ n then ∃ lbl, r = .label lbl else r = .fault (outside n id)
  direct : ∀ r, (.newLabel, r) ∈ t → ∃ lbl, r = .label lbl
  le : l₀.numLabels ≤ l.numLabels
  /-- All labels are new to the listing. -/
  fresh : ∀ (q : Request) (lbl : Label), (q, .label lbl) ∈ t →
    (l₀.numLabels : Int) ≤ lbl ∧ lbl < (l.numLabels : Int)
  apart : t.Pairwise Apart
  /-- The labels that states have are those that were told. -/
  assigned : ∀ (id : Nat) (lbl : Label), s.label? id = some lbl ↔ (.label id, .label lbl) ∈ t

instance : Std.Symm Apart where
  symm x y h a b ha hb := by
    rw [eq_comm, h b a hb ha]
    exact exists_congr fun _ => and_comm

theorem takes_concat (t : List (Request × Reply)) (q : Request) (r : Reply) :
    takes (t ++ [(q, r)]) = if q = .take then takes t ++ [r] else takes t := by
  rw [takes, List.filterMap_append]
  by_cases hq : q = .take
  · rw [if_pos hq]
    simp [takes, hq]
  · rw [if_neg hq]
    simp [takes, hq]

theorem handout_ne_label {n k : Nat} {lbl : Label} : handout n k ≠ .label lbl := by
  rw [handout]
  split <;> exact nofun

namespace Tallies

variable {t : List (Request × Reply)} {lbl : Label}

theorem create (count : Int) (slots : List Slot) (l : Listing) :
    Tallies count.toNat l [] (create count slots) l where
  count := Array.size_replicate
  takes := rfl
  remaining := rfl
  asked := nofun
  direct := nofun
  le := Nat.le_refl _
  fresh := nofun
  apart := .nil
  assigned id lbl := by
    refine iff_of_false ?_ nofun
    cases id with
    | zero => exact nofun
    | succ k =>
      rw [label?, States.create, Array.getElem?_replicate]
      split <;> exact nofun

variable (h : Tallies n l₀ t s l)
include h

/-- One more request: its reply is one of those that the kind of request has, a label is told apart
from the others, and only a label of a state is assigned. -/
theorem add {q : Request} {r : Reply} {s' : States} {l' : Listing} (hcount : s'.count = n)
    (hremaining : s'.remaining =
      if q = .take then n - ((States.takes t).length + 1) else s.remaining)
    (htake : q = .take → r = handout n (States.takes t).length)
    (hasked : ∀ id : Int, q = .label id →
      if 1 ≤ id ∧ id ≤ n then ∃ lbl, r = .label lbl else r = .fault (outside n id))
    (hdirect : q = .newLabel → ∃ lbl, r = .label lbl) (hle : l.numLabels ≤ l'.numLabels)
    (hfresh : ∀ lbl : Label, r = .label lbl →
      (l₀.numLabels : Int) ≤ lbl ∧ lbl < (l'.numLabels : Int))
    (hapart : ∀ x ∈ t, Apart x (q, r))
    (hassigned : ∀ (id : Nat) (lbl : Label), s'.label? id = some lbl ↔
      s.label? id = some lbl ∨ q = .label id ∧ r = .label lbl) :
    Tallies n l₀ (t ++ [(q, r)]) s' l' where
  count := hcount
  remaining := by
    rw [hremaining, takes_concat]
    split
    · rw [List.length_append, List.length_singleton]
    · exact h.remaining
  takes := by
    rw [takes_concat]
    split
    · next hq =>
      rw [List.length_append, List.length_singleton, List.range_succ, List.map_append, ← h.takes,
        htake hq]
      rfl
    · exact h.takes
  asked id r' hr' := by
    rcases List.mem_append.mp hr' with hr' | hr'
    · exact h.asked id r' hr'
    · obtain ⟨rfl, rfl⟩ := Prod.mk.inj (List.mem_singleton.mp hr')
      exact hasked id rfl
  direct r' hr' := by
    rcases List.mem_append.mp hr' with hr' | hr'
    · exact h.direct r' hr'
    · obtain ⟨rfl, rfl⟩ := Prod.mk.inj (List.mem_singleton.mp hr')
      exact hdirect rfl
  le := Nat.le_trans h.le hle
  fresh q' lbl hlbl := by
    rcases List.mem_append.mp hlbl with hlbl | hlbl
    · obtain ⟨hlow, hhigh⟩ := h.fresh q' lbl hlbl
      exact ⟨hlow, Int.lt_of_lt_of_le hhigh (Int.ofNat_le.mpr hle)⟩
    · obtain ⟨rfl, rfl⟩ := Prod.mk.inj (List.mem_singleton.mp hlbl)
      exact hfresh lbl rfl
  apart := List.pairwise_append.mpr
    ⟨h.apart, .cons nofun .nil, fun x hx y hy => List.mem_singleton.mp hy ▸ hapart x hx⟩
  assigned id lbl := by
    rw [hassigned, h.assigned, List.mem_append, List.mem_singleton, Prod.mk.injEq]
    exact or_congr_right (and_congr eq_comm eq_comm)

/-- A label that is new now is apart from all that were told. -/
theorem apart_new {q : Request}
    (hq : ∀ (id : Int) (lbl : Label), q = .label id → (.label id, .label lbl) ∉ t) :
    ∀ x ∈ t, Apart x (q, .label l.numLabels) := by
  rintro ⟨q', r⟩ hx a b rfl hb
  obtain rfl := Reply.label.inj hb
  have hlt := (h.fresh _ _ hx).2
  refine iff_of_false (Int.ne_of_lt hlt) ?_
  rintro ⟨id, rfl, hid⟩
  exact hq id a hid hx

theorem take : Tallies n l₀ (t ++ [(.take, (s.answer l .take).1)]) (s.answer l .take).2.1
    (s.answer l .take).2.2 := by
  rw [answer_take h.count h.remaining]
  exact h.add h.count rfl (fun _ => rfl) nofun nofun (Nat.le_refl _)
    (fun lbl heq => absurd heq handout_ne_label)
    (fun x _ a b _ hb => absurd hb handout_ne_label)
    fun id lbl => (or_iff_left fun hnew => nomatch hnew.1).symm

theorem newLabel : Tallies n l₀ (t ++ [(.newLabel, (s.answer l .newLabel).1)])
    (s.answer l .newLabel).2.1 (s.answer l .newLabel).2.2 := by
  have hsize : l.newLabel.2.numLabels = l.numLabels + 1 := numLabels_newLabel l
  refine h.add h.count rfl nofun nofun (fun _ => ⟨_, rfl⟩) (Nat.le.intro hsize.symm)
    (fun lbl heq => ?_) (h.apart_new nofun)
    fun id lbl => (or_iff_left fun hnew => nomatch hnew.1).symm
  obtain rfl : (l.numLabels : Label) = lbl := Reply.label.inj heq
  exact ⟨Int.ofNat_le.mpr h.le, Int.ofNat_lt.mpr (Nat.le_of_eq hsize.symm)⟩

/-- A state that is asked about again has the label that it was told to have. -/
theorem apart_again {id : Nat} (hlbl : s.label? id = some lbl) :
    ∀ x ∈ t, Apart x (.label id, .label lbl) := by
  have hmem := (h.assigned id lbl).mp hlbl
  rintro ⟨q, r⟩ hx a b rfl hb
  obtain rfl := Reply.label.inj hb
  constructor
  · rintro rfl
    by_cases heq : (q, Reply.label a) = (.label id, .label a)
    · exact ⟨id, congrArg Prod.fst heq, rfl⟩
    · obtain ⟨id', hq, hid⟩ := (h.apart.forall hx hmem heq a a rfl rfl).mp rfl
      exact ⟨id', hq, hid⟩
  · rintro ⟨id', rfl, hid⟩
    obtain rfl := Request.label.inj hid
    exact Option.some.inj (((h.assigned id a).mpr hx).symm.trans hlbl)

theorem label_again {id : Nat} (h1 : 1 ≤ id) (hn : id ≤ n) (hlbl : s.label? id = some lbl) :
    Tallies n l₀ (t ++ [(.label id, .label lbl)]) s l := by
  have hmem := (h.assigned id lbl).mp hlbl
  refine h.add h.count rfl nofun (fun id' heq => ?_) nofun (Nat.le_refl _) (fun lbl' heq => ?_)
    (h.apart_again hlbl) fun id' lbl' => ⟨.inl, fun hor => hor.elim (fun h => h) ?_⟩
  · obtain rfl := Request.label.inj heq
    rw [if_pos ⟨by omega, by omega⟩]
    exact ⟨lbl, rfl⟩
  · obtain rfl := Reply.label.inj heq
    exact h.fresh _ _ hmem
  · rintro ⟨hid, heq⟩
    obtain rfl : id = id' := Int.ofNat_inj.mp (Request.label.inj hid)
    rw [hlbl, Reply.label.inj heq]

/-- A state that is asked about for the first time gets the next label. -/
theorem label_first {id : Nat} (h1 : 1 ≤ id) (hn : id ≤ n) (hlbl : s.label? id = none) :
    Tallies n l₀ (t ++ [(.label id, .label l.numLabels)]) (s.give id l.numLabels) l.newLabel.2 := by
  have hsize : l.newLabel.2.numLabels = l.numLabels + 1 := numLabels_newLabel l
  refine h.add ((count_give ..).trans h.count) rfl nofun (fun id' heq => ?_) nofun
    (Nat.le.intro hsize.symm) (fun lbl heq => ?_) (h.apart_new fun id' lbl heq hmem => ?_)
    fun id' lbl => ?_
  · obtain rfl := Request.label.inj heq
    rw [if_pos ⟨by omega, by omega⟩]
    exact ⟨_, rfl⟩
  · obtain rfl : (l.numLabels : Label) = lbl := Reply.label.inj heq
    exact ⟨Int.ofNat_le.mpr h.le, Int.ofNat_lt.mpr (Nat.le_of_eq hsize.symm)⟩
  · obtain rfl := Request.label.inj heq
    have hsome := (h.assigned id lbl).mpr hmem
    rw [hlbl] at hsome
    cases hsome
  · rw [label?_give h1 (h.count.symm ▸ hn)]
    by_cases heq : id' = id
    · subst heq
      rw [if_pos rfl, hlbl]
      simp
    · rw [if_neg heq]
      refine ⟨.inl, fun hor => hor.elim (fun h => h) fun hnew => ?_⟩
      exact absurd (Int.ofNat_inj.mp (Request.label.inj hnew.1)).symm heq

theorem label_outside {id : Int} (hout : ¬(1 ≤ id ∧ id ≤ n)) :
    Tallies n l₀ (t ++ [(.label id, .fault (outside n id))]) s l := by
  refine h.add h.count rfl nofun (fun id' heq => ?_) nofun (Nat.le_refl _) nofun
    (fun x _ a b _ hb => nomatch hb) fun id' lbl' => (or_iff_left fun hnew => nomatch hnew.2).symm
  obtain rfl := Request.label.inj heq
  rw [if_neg hout]

/-- **Requests keep the tally.** -/
theorem answer (q : Request) :
    Tallies n l₀ (t ++ [(q, (s.answer l q).1)]) (s.answer l q).2.1 (s.answer l q).2.2 := by
  cases q with
  | take => exact h.take
  | newLabel => exact h.newLabel
  | label id =>
    by_cases hin : 1 ≤ id ∧ id ≤ n
    · obtain ⟨k, rfl⟩ := Int.eq_ofNat_of_zero_le (Int.le_trans Int.one_nonneg hin.1)
      have h1 : 1 ≤ k := Int.ofNat_le.mp hin.1
      have hn : k ≤ n := Int.ofNat_le.mp hin.2
      rw [answer_label_inside h.count h1 hn]
      cases hlbl : s.label? k with
      | some lbl => exact h.label_again h1 hn hlbl
      | none => exact h.label_first h1 hn hlbl
    · rw [answer_label_outside h.count hin]
      exact h.label_outside hin

/-- So do runs. -/
theorem run (qs : List Request) :
    Tallies n l₀ (t ++ (s.run l qs).1) (s.run l qs).2.1 (s.run l qs).2.2 := by
  induction qs generalizing s l t with
  | nil => simpa [States.run] using h
  | cons q qs ih =>
    have hrest := ih (h.answer q)
    rwa [List.append_assoc, List.singleton_append] at hrest

end Tallies

/-! ### Runs -/

theorem mem_labelled {id : Nat} {lbl : Label} :
    (id, lbl) ∈ s.labelled ↔ s.label? id = some lbl := by
  rw [labelled, List.mem_filterMap]
  constructor
  · rintro ⟨⟨o, k⟩, hmem, heq⟩
    obtain ⟨lbl', rfl, hpair⟩ := Option.map_eq_some_iff.mp heq
    obtain ⟨rfl, rfl⟩ := Prod.mk.inj hpair
    rw [List.mem_zipIdx_iff_getElem?, Array.getElem?_toList] at hmem
    rw [label?, hmem]
    rfl
  · intro h
    cases id with
    | zero => cases h
    | succ k =>
      refine ⟨(some lbl, k), ?_, rfl⟩
      rw [List.mem_zipIdx_iff_getElem?, Array.getElem?_toList]
      exact Option.join_eq_some_iff.mp h

theorem checkBound_eq_ok_iff :
    s.checkBound l = .ok () ↔ ∀ id lbl, s.label? id = some lbl → l.binding lbl ≠ none := by
  rw [checkBound]
  constructor
  · intro h id lbl hlbl
    split at h
    · cases h
    · next hnone =>
      simpa using List.find?_eq_none.mp hnone _ (mem_labelled.mpr hlbl)
  · intro h
    split
    · next id lbl hfind =>
      have hbound := h id lbl (mem_labelled.mp (List.mem_of_find?_eq_some hfind))
      have hfree := List.find?_some hfind
      exact absurd (of_decide_eq_true hfree) hbound
    · rfl

/-- **States and labels are told apart.** Whatever the states of a method and its listing are asked
for, in any order, every request has a reply and the transcript tallies: the states are handed out
from the highest down and then no more, asking about a state fails outside the numbers of states
only, and labels are the same if and only if they are those of the same state. A request that fails
changes nothing. And the states are bound in a listing if and only if every label that was told for
a state is placed there. -/
theorem create_run (count : Int) (slots : List Slot) (l : Listing) (qs : List Request) :
    ((create count slots).run l qs).1.map Prod.fst = qs ∧
      Tallies count.toNat l ((create count slots).run l qs).1 ((create count slots).run l qs).2.1
        ((create count slots).run l qs).2.2 ∧
      (∀ (s : States) (l : Listing) q f, (s.answer l q).1 = .fault f → (s.answer l q).2 = (s, l)) ∧
      ∀ l' : Listing, ((create count slots).run l qs).2.1.checkBound l' = .ok () ↔
        ∀ (id : Int) (lbl : Label),
          (.label id, .label lbl) ∈ ((create count slots).run l qs).1 → l'.binding lbl ≠ none := by
  have htallies := (Tallies.create count slots l).run qs
  rw [List.nil_append] at htallies
  refine ⟨map_fst_run .., htallies, fun _ _ _ _ => answer_fault, fun l' => ?_⟩
  rw [checkBound_eq_ok_iff]
  constructor
  · intro h id lbl hmem
    have hin : 1 ≤ id ∧ id ≤ count.toNat := by
      by_contra hout
      have hfault := htallies.asked id _ hmem
      rw [if_neg hout] at hfault
      cases hfault
    obtain ⟨k, rfl⟩ := Int.eq_ofNat_of_zero_le (Int.le_trans Int.one_nonneg hin.1)
    exact h k lbl ((htallies.assigned k lbl).mpr hmem)
  · intro h id lbl hlbl
    exact h id lbl ((htallies.assigned id lbl).mp hlbl)

end ClassWeaver.States
