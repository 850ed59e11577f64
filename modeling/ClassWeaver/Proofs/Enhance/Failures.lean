import ClassWeaver.Proofs.Enhance.Search

/-!
# What makes enhancement fail

The scan with the standard rules fails for nothing but a store whose search stalls, and for every
such store (`standard_fails_iff`), whatever the listing is like. What the scan has done to the code
in front of a store does not matter to the search: a cast leaves the total as it is, and a choice
between two accesses holds a jump (`Listing.Passed`). So whether a scan fails can be read off the
listing as it was.

Code with consistent heights can make it fail: behind an `athrow` or a return a label may begin a
block in which a store finds its value, but not its array (`guarded_astray`). -/

namespace ClassWeaver

/-- The cast for the array of a store. -/
def Insn.castFor (i : Insn) : Insn := ⟨.checkCast, .type (Enhance.storedArray i.opcode)⟩

/-! ### What a visit leaves behind -/

namespace Listing

variable {l l' : Listing} {boundary : Boundary} {as bs xs ys front rest : List Ref} {q r : Ref}
variable {total : Int} {e : Failure} {i : Insn}

theorem endsSearch_congr (h : l'.insn? q = l.insn? q) :
    l'.endsSearch boundary q = l.endsSearch boundary q := by
  simp [endsSearch, isBarrier, h]

theorem endsSearch_of_isByteAccess (hi : l.insn? r = some i) (h : i.IsByteAccess) :
    l.endsSearch boundary r = true := by
  simp [endsSearch, hi, h]

/-- In front of the nodes `rest` the scan has made `front` of the nodes `xs`: there is no byte
access left, and a search that comes back to them fails as it would have failed before. -/
structure Passed (boundary : Boundary) (l : Listing) (xs : List Ref) (l' : Listing)
    (front rest : List Ref) : Prop where
  built : l'.Built
  refs_eq : l'.refs = front ++ rest
  free : ∀ q ∈ front, ∀ i, l'.insn? q = some i → ¬i.IsByteAccess
  size_le : l.nodes.size ≤ l'.nodes.size
  insn : ∀ q < l.nodes.size, l'.insn? q = l.insn? q
  sound : ∀ total e, l'.stall? (l'.endsSearch boundary) front.reverse total = some e →
    l.stall? (l.endsSearch boundary) xs.reverse total = some e
  complete : (∀ q, boundary q → q < l.nodes.size) → ∀ total e,
    l.stall? (l.endsSearch boundary) xs.reverse total = some e →
    l'.stall? (l'.endsSearch boundary) front.reverse total = some e

namespace Passed

theorem refl (hl : l.Built) (hrefs : l.refs = xs ++ rest)
    (hfree : ∀ q ∈ xs, ∀ i, l.insn? q = some i → ¬i.IsByteAccess) :
    l.Passed boundary xs l xs rest :=
  ⟨hl, hrefs, hfree, le_rfl, fun _ _ => rfl, fun _ _ h => h, fun _ _ _ h => h⟩

/-- What a search meets from further behind. -/
theorem sound_append (h : l.Passed boundary xs l' front rest) (has : ∀ q ∈ as, q < l.nodes.size)
    (hs : l'.stall? (l'.endsSearch boundary) (front ++ as).reverse total = some e) :
    l.stall? (l.endsSearch boundary) (xs ++ as).reverse total = some e := by
  rw [List.reverse_append] at hs ⊢
  refine stall?_append (fun q hq => ?_) h.sound hs
  have hq := h.insn q (has q (List.mem_reverse.mp hq))
  exact ⟨by rw [changeAt, changeAt, fetch, fetch, hq], endsSearch_congr hq⟩

theorem complete_append (h : l.Passed boundary xs l' front rest) (has : ∀ q ∈ as, q < l.nodes.size)
    (hb : ∀ q, boundary q → q < l.nodes.size)
    (hs : l.stall? (l.endsSearch boundary) (xs ++ as).reverse total = some e) :
    l'.stall? (l'.endsSearch boundary) (front ++ as).reverse total = some e := by
  rw [List.reverse_append] at hs ⊢
  refine stall?_append (fun q hq => ?_) (h.complete hb) hs
  have hq := h.insn q (has q (List.mem_reverse.mp hq))
  exact ⟨by rw [changeAt, changeAt, fetch, fetch, hq], (endsSearch_congr hq).symm⟩

end Passed

end Listing

namespace Enhance

open Listing

variable {l l' : Listing} {boundary : Boundary} {xs ys : List Ref} {p r : Ref}
variable {resume : Option Ref} {i : Insn}

/-- What a visit with the standard rules makes of the node `r` between the nodes `xs` and `ys`: it
leaves the node as it is, inserts the cast for it, or puts a choice in its place. It goes on behind
`front`. -/
inductive Visited (boundary : Boundary) (l : Listing) (xs : List Ref) (r : Ref) (i : Insn)
    (ys : List Ref) : (l' : Listing) → (front : List Ref) → Prop
  | kept (hbyte : ¬i.IsByteAccess)
      (hcast : i.IsNarrowed → ∃ o, producer? boundary l r = .ok o ∧
        ∀ p, o = some p → l.insn? p = some i.castFor) :
      Visited boundary l xs r i ys l (xs ++ [r])
  | cast {l' : Listing} {as bs : List Ref} {p : Ref} (hn : i.IsNarrowed)
      (hp : producer? boundary l r = .ok (some p)) (hne : l.insn? p ≠ some i.castFor)
      (hxs : xs = as ++ p :: bs)
      (hs : l.Spliced l' (as ++ [p]) none [i.castFor] (bs ++ r :: ys)) :
      Visited boundary l xs r i ys l' (as ++ p :: l.nodes.size :: (bs ++ [r]))
  | choice {l' : Listing} {code : List Insn} {a b : Label} (hbyte : i.IsByteAccess)
      (hcode : code = storeChoice a b ∨ code = loadChoice a b)
      (hs : l.Spliced l' xs (some r) code ys) :
      Visited boundary l xs r i ys l' (xs ++ List.range' l.nodes.size code.length)

/-- A choice holds no access that is visited. -/
theorem not_accessing_of_mem_choice {code : List Insn} {a b : Label} {j : Insn}
    (hcode : code = storeChoice a b ∨ code = loadChoice a b) (hj : j ∈ code) :
    ¬j.IsByteAccess ∧ ¬j.IsNarrowed := by
  have hnarrowed : ∀ c ∈ [storeChoice 0 0, loadChoice 0 0], ∀ k ∈ c,
      ¬(k.opcode.isArrayStore = true ∧ k.opcode ≠ .bastore) := by decide +kernel
  have hop : ∀ c : List Insn, code.map Insn.opcode = c.map Insn.opcode → ∃ k ∈ c,
    k.opcode = j.opcode := by
    intro c hmap
    exact List.mem_map.mp (hmap ▸ List.mem_map_of_mem hj)
  rcases hcode with rfl | rfl
  · refine ⟨(isChoice_store.insns a b j hj).2.2, ?_⟩
    obtain ⟨k, hk, heq⟩ := hop (storeChoice 0 0) rfl
    rw [Insn.IsNarrowed, ← heq]
    exact hnarrowed _ (by simp) k hk
  · refine ⟨(isChoice_load.insns a b j hj).2.2, ?_⟩
    obtain ⟨k, hk, heq⟩ := hop (loadChoice 0 0) rfl
    rw [Insn.IsNarrowed, ← heq]
    exact hnarrowed _ (by simp) k hk

/-- No search gets past a choice: behind its jump everything has an effect. -/
theorem stall?_choice {n : Nat} {arrange : List Insn} {onBoolean onByte : Insn} {a b : Label}
    {total : Int} (hbyte : ∃ c, onByte.change = .ok c)
    (hcode : ∀ k, l.insn? (n + k) = (dispatchCode arrange onBoolean onByte a b)[k]?) :
    l.stall? (l.endsSearch boundary) ((List.range' n
      (dispatchCode arrange onBoolean onByte a b).length).reverse ++ xs) total = none := by
  obtain ⟨m, hm⟩ : ∃ m, m = arrange.length := ⟨_, rfl⟩
  have hlen : (dispatchCode arrange onBoolean onByte a b).length = m + 5 + 4 := by
    simp [dispatchCode, hm]
  have hend : ∀ k, l.insn? (n + (m + 5 + k)) =
      [.jump .goto b, .place a, onByte, .place b][k]? := by
    intro k
    rw [hcode, dispatchCode, List.getElem?_append_right (by omega), hm]
    have hk : arrange.length + 5 + k - arrange.length = k + 5 := by omega
    rw [hk]
    rfl
  obtain ⟨c, hc⟩ := hbyte
  -- the last four nodes, from the end back
  have hsplit : (List.range' n (m + 5 + 4)).reverse ++ xs =
      [n + (m + 5 + 3), n + (m + 5 + 2), n + (m + 5 + 1)] ++
        (n + (m + 5 + 0)) :: ((List.range' n (m + 5)).reverse ++ xs) := by
    rw [← List.range'_append_1, List.reverse_append]
    rfl
  rw [hlen, hsplit]
  refine stall?_of_ends (fun q hq => ?_) ?_
  · simp only [List.mem_cons, List.not_mem_nil, or_false] at hq
    rcases hq with rfl | rfl | rfl
    · exact ⟨0, changeAt_eq (hend 3)⟩
    · exact ⟨c, (changeAt_eq (hend 2)).trans hc⟩
    · exact ⟨0, changeAt_eq (hend 1)⟩
  · have hgoto := hend 0
    simp only [List.getElem?_cons_zero] at hgoto
    have hjump : Opcode.goto.isJump = true := rfl
    simp [endsSearch, isBarrier, hgoto, Insn.jump, hjump]

/-- The scan has passed a node that a choice took the place of. -/
theorem passed_of_choice (boundary : Boundary) {code : List Insn} {a b : Label} (hl : l.WellFormed)
    (hcode : code = storeChoice a b ∨ code = loadChoice a b)
    (hfree : ∀ q ∈ xs, ∀ i, l.insn? q = some i → ¬i.IsByteAccess) (hi : l.insn? r = some i)
    (hop : i.IsByteAccess) (hs : l.Spliced l' xs (some r) code ys) :
    l.Passed boundary (xs ++ [r]) l' (xs ++ List.range' l.nodes.size code.length) ys := by
  have hlt : ∀ q ∈ xs, q < l.nodes.size := fun q hq => hs.lt_size hl (List.mem_append_left _ hq)
  have hstall : ∀ total, l'.stall? (l'.endsSearch boundary)
      ((List.range' l.nodes.size code.length).reverse ++ xs.reverse) total = none := by
    intro total
    rcases hcode with rfl | rfl
    · exact stall?_choice ⟨-3, Outcome.eq_ok_of_toOption (by decide +kernel)⟩ hs.insn?_new
    · exact stall?_choice ⟨-1, Outcome.eq_ok_of_toOption (by decide +kernel)⟩ hs.insn?_new
  refine ⟨hs.built, by simpa using hs.refs_eq', fun q hq j hj => ?_, ?_, fun q hq =>
    hs.insn?_old hq,
    fun total e h => ?_, fun _ total e h => ?_⟩
  · rcases List.mem_append.mp hq with hq | hq
    · exact hfree q hq j ((hs.insn?_old (hlt q hq)).symm.trans hj)
    · obtain ⟨k, -, rfl⟩ := List.mem_range'.mp hq
      rw [Nat.one_mul, hs.insn?_new] at hj
      exact (not_accessing_of_mem_choice hcode (List.mem_of_getElem? hj)).1
  · rw [hs.size_eq]
    exact Nat.le_add_right ..
  · rw [List.reverse_append, hstall] at h
    cases h
  · rw [List.reverse_append, List.reverse_singleton, List.singleton_append, stall?,
      endsSearch_of_isByteAccess hi hop] at h
    cases h

/-- The scan has passed a store behind whose producer a cast was inserted. -/
theorem passed_of_cast (boundary : Boundary) {desc : Text} {as bs : List Ref} (hl : l.WellFormed)
    (hs : l.Spliced l' (as ++ [p]) none [⟨.checkCast, .type desc⟩] (bs ++ ys))
    (hfree : ∀ q ∈ as ++ p :: bs, ∀ i, l.insn? q = some i → ¬i.IsByteAccess) :
    l.Passed boundary (as ++ p :: bs) l' (as ++ p :: l.nodes.size :: bs) ys := by
  have hlt : ∀ q ∈ as ++ p :: bs, q < l.nodes.size := by
    intro q hq
    refine hs.lt_size hl ?_
    simp only [List.mem_append, List.mem_cons, List.not_mem_nil, or_false] at hq ⊢
    tauto
  have hcast : l'.insn? l.nodes.size = some ⟨.checkCast, .type desc⟩ := hs.insn?_new 0
  have hneutral : l'.changeAt l.nodes.size = .ok 0 := changeAt_eq hcast
  have hbyte : ¬Insn.IsByteAccess ⟨.checkCast, .type desc⟩ :=
    not_or.mpr ⟨(by decide : Opcode.checkCast ≠ .bastore), (by decide : Opcode.checkCast ≠ .baload)⟩
  -- without the cast the same nodes are passed
  have hsame : ∀ q ∈ (as ++ p :: bs).reverse, l'.changeAt q = l.changeAt q ∧
      l'.endsSearch boundary q = l.endsSearch boundary q := by
    intro q hq
    have hold := hs.insn?_old (hlt q (List.mem_reverse.mp hq))
    exact ⟨by rw [changeAt, changeAt, fetch, fetch, hold], endsSearch_congr hold⟩
  have hsplit : (as ++ p :: l.nodes.size :: bs).reverse =
      bs.reverse ++ l.nodes.size :: (p :: as.reverse) := by simp
  have hkept : (as ++ p :: bs).reverse = bs.reverse ++ (p :: as.reverse) := by simp
  refine ⟨hs.built, by simpa using hs.refs_eq', fun q hq j hj => ?_, ?_, fun q hq =>
    hs.insn?_old hq,
    fun total e h => ?_, fun hb total e h => ?_⟩
  · by_cases hnew : q = l.nodes.size
    · rw [hnew, hcast, Option.some.injEq] at hj
      subst hj
      exact hbyte
    · have hq' : q ∈ as ++ p :: bs := by
        simp only [List.mem_append, List.mem_cons] at hq ⊢
        tauto
      exact hfree q hq' j ((hs.insn?_old (hlt q hq')).symm.trans hj)
  · rw [hs.size_eq]
    exact Nat.le_add_right ..
  · rw [hsplit] at h
    have hwithout := stall?_of_neutral hneutral h
    rwa [← hkept, stall?_congr hsame] at hwithout
  · have hno : l'.endsSearch boundary l.nodes.size = false := by
      have hfar : boundary l.nodes.size = false := by
        by_contra hbound
        exact Nat.lt_irrefl _ (hb _ (by simpa using hbound))
      have hplain : Opcode.checkCast.isJump = false ∧ Opcode.checkCast.isSwitch = false := by decide
      simp [endsSearch, isBarrier, hcast, hfar, hplain, hbyte]
    rwa [hsplit, stall?_neutral hneutral hno, ← hkept, stall?_congr hsame]

namespace Visited

variable {front : List Ref}

/-- The nodes afterwards: those that the scan has passed, and those that were behind. -/
theorem refs_eq (hv : Visited boundary l xs r i ys l' front) (hrefs : l.refs = xs ++ r :: ys) :
    l'.refs = front ++ ys := by
  cases hv with
  | kept => simpa using hrefs
  | cast _ _ _ _ hs => simpa using hs.refs_eq'
  | choice _ _ hs => simpa using hs.refs_eq'

theorem built (hv : Visited boundary l xs r i ys l' front) (hl : l.Built) : l'.Built := by
  cases hv with
  | kept => exact hl
  | cast _ _ _ _ hs => exact hs.built
  | choice _ _ hs => exact hs.built

/-- The search of a store that is passed has an answer. -/
theorem exists_producer? (hv : Visited boundary l xs r i ys l' front) (hn : i.IsNarrowed) :
    ∃ o, producer? boundary l r = .ok o := by
  cases hv with
  | kept _ hcast =>
    obtain ⟨o, ho, -⟩ := hcast hn
    exact ⟨o, ho⟩
  | cast _ hp => exact ⟨_, hp⟩
  | choice hbyte => exact absurd hbyte (Insn.not_isByteAccess_of_isNarrowed hn)

/-- The scan has passed the node. -/
theorem passed (hv : Visited boundary l xs r i ys l' front) (hl : l.Built)
    (hrefs : l.refs = xs ++ r :: ys)
    (hfree : ∀ q ∈ xs, ∀ i, l.insn? q = some i → ¬i.IsByteAccess) (hi : l.insn? r = some i) :
    l.Passed boundary (xs ++ [r]) l' front ys := by
  have hfree' : ¬i.IsByteAccess → ∀ q ∈ xs ++ [r], ∀ i, l.insn? q = some i → ¬i.IsByteAccess := by
    intro hbyte q hq j hj
    rcases List.mem_append.mp hq with hq | hq
    · exact hfree q hq j hj
    · rw [List.mem_singleton.mp hq, hi, Option.some.injEq] at hj
      exact hj ▸ hbyte
  cases hv with
  | kept hbyte => exact .refl hl (by simpa using hrefs) (hfree' hbyte)
  | @cast l' as bs p hn _ _ hxs hs =>
    have hfront : xs ++ [r] = as ++ p :: (bs ++ [r]) := by simp [hxs]
    rw [hfront]
    have hs' : l.Spliced l' (as ++ [p]) none [i.castFor] ((bs ++ [r]) ++ ys) := by simpa using hs
    exact passed_of_cast boundary hl.wellFormed hs'
      (hfront ▸ hfree' (Insn.not_isByteAccess_of_isNarrowed hn))
  | choice hbyte hcode hs => exact passed_of_choice boundary hl.wellFormed hcode hfree hi hbyte hs

end Visited

end Enhance

/-! ### Scans that fail -/

namespace Chain

open Listing Enhance

variable {ctx : Context} {boundary : Boundary} {l l₁ : Listing} {xs ys rest : List Ref} {r : Ref}
variable {start : Option Ref} {e f : Failure} {i : Insn} {total : Int}

/-- The rule that takes an instruction, if any does. -/
theorem find?_standard (i : Insn) : standard.find? (·.applies i) =
    if i.opcode.isArrayStore = true then some .arrayStore
    else if i.opcode = .baload then some .arrayLoad else none := by
  by_cases hstore : i.opcode.isArrayStore = true
  · rw [if_pos hstore]
    exact List.find?_cons_of_pos hstore
  · rw [if_neg hstore, standard, List.find?_cons_of_neg (by simpa [Rule.arrayStore] using hstore)]
    by_cases hload : i.opcode = .baload
    · rw [if_pos hload]
      exact List.find?_cons_of_pos (decide_eq_true hload)
    · rw [if_neg hload, List.find?_cons_of_neg (by simpa [Rule.arrayLoad] using hload),
        List.find?_nil]

/-- A visit of a node that a rule replaces by something linked. -/
theorem visit_of_replace {chain : Chain} {rule : Rule} {resume : Ref} (hi : l.insn? r = some i)
    (hrule : chain.find? (·.applies i) = some rule)
    (hd : rule.replace ctx l r = (l₁, .ok (some resume)))
    (hlinked : l₁.isLinked resume = true) :
    chain.visit ctx l r = (l₁, .ok (some resume)) := by
  rw [visit, hi]
  dsimp only
  rw [hrule]
  dsimp only
  rw [hd]
  exact if_pos hlinked

/-- A visit of a byte access puts a choice in its place. -/
theorem visit_of_dispatch {arrange : List Insn} {onBoolean onByte : Insn} {e : Effect}
    {heights : List Nat} (rule : Rule) (hl : l.Built)
    (hrefs : l.refs = xs ++ r :: ys)
    (hi : l.insn? r = some i) (hbyte : i.IsByteAccess)
    (hc : IsChoice (dispatchCode arrange onBoolean onByte) e heights)
    (hcode : ∀ a b, dispatchCode arrange onBoolean onByte a b = storeChoice a b ∨
      dispatchCode arrange onBoolean onByte a b = loadChoice a b)
    (hrule : standard.find? (·.applies i) = some rule)
    (hd : rule.replace ctx l r = dispatch arrange onBoolean onByte l r) :
    ∃ l' front, standard.visit ctx l r = (l', .ok front.getLast?) ∧
      Visited ctx.boundary l xs r i ys l' front := by
  have hplaced : l.placedAt r = none := by
    have hne : i.opcode ≠ .label := by rcases hbyte with hop | hop <;> rw [hop] <;> decide
    rw [placedAt, hi, Option.bind_some, Insn.placed?_of_ne_label hne]
  obtain ⟨l', resume, hd'⟩ : ∃ l' resume, dispatch arrange onBoolean onByte l r =
    (l', .ok resume) :=
    ⟨_, _, rfl⟩
  obtain ⟨a, b, hs, hres⟩ := spliced_dispatch hl hrefs hc hd' hplaced
  have hne : List.range' l.nodes.size (dispatchCode arrange onBoolean onByte a b).length ≠ [] := by
    simp [dispatchCode]
  refine ⟨l', _, ?_, .choice hbyte (hcode a b) hs⟩
  rw [List.getLast?_append_of_ne_nil _ hne, List.getLast?_eq_some_getLast hne]
  rw [List.getLast?_eq_some_getLast hne] at hres
  refine visit_of_replace hi hrule (by rw [hd, hd', hres]) (hs.spells'.isLinked_iff.mpr ?_)
  simp only [List.mem_append]
  exact .inr (.inl (List.getLast_mem hne))

/-- A visit fails if the node is a store and the search for its array fails. Otherwise it does one
of the three things that the rules can do. -/
theorem visit_visited (ctx : Context) (hl : l.Built)
    (hrefs : l.refs = xs ++ r :: ys)
    (hi : l.insn? r = some i) :
    (∃ e, i.IsNarrowed ∧ producer? ctx.boundary l r = .error e ∧
      standard.visit ctx l r = (l, .error (e.map (Fault.inMethod ctx.method)))) ∨
    ∃ l' front, standard.visit ctx l r = (l', .ok front.getLast?) ∧
      Visited ctx.boundary l xs r i ys l' front := by
  have hsp : l.Spells (xs ++ r :: ys) := hrefs ▸ hl.wellFormed.spells
  have hlinked : l.isLinked r = true := hsp.isLinked_iff.mpr (by simp)
  by_cases hn : i.IsNarrowed
  · have hrule : standard.find? (·.applies i) = some .arrayStore := by
      rw [find?_standard, if_pos hn.1]
    have hnarrow : Rule.arrayStore.replace ctx l r =
        narrow ctx.boundary (storedArray i.opcode) l r := by
      simp [Rule.arrayStore, hi, hn.2]
    have hbyte := Insn.not_isByteAccess_of_isNarrowed hn
    cases hp : producer? ctx.boundary l r with
    | error e =>
      refine .inl ⟨e, hn, rfl, ?_⟩
      rw [visit, hi]
      dsimp only
      rw [hrule]
      dsimp only
      rw [hnarrow, narrow, hp]
    | ok o =>
      refine .inr ?_
      -- nothing is cast if there is no array, or if it was cast before
      by_cases hcast : ∀ p, o = some p → l.insn? p = some i.castFor
      · refine ⟨l, xs ++ [r], ?_, .kept hbyte fun _ => ⟨o, hp, hcast⟩⟩
        rw [List.getLast?_concat]
        refine visit_of_replace hi hrule ?_ hlinked
        rw [hnarrow, narrow, hp]
        cases o with
        | none => rfl
        | some p => exact if_pos (hcast p rfl)
      · obtain ⟨p, rfl, hne⟩ : ∃ p, o = some p ∧ l.insn? p ≠ some i.castFor := by simpa using hcast
        obtain ⟨as, bs, rfl, -⟩ := split_of_producer? hsp hi hn.1 hp
        have hrefs' : l.refs = as ++ p :: (bs ++ r :: ys) := by simpa using hrefs
        have hs := Spliced.insertAfter (i := i.castFor) hl hrefs' rfl
        have hv : Visited ctx.boundary l (as ++ p :: bs) r i ys _ _ := .cast hn hp hne rfl hs
        refine ⟨_, _, ?_, hv⟩
        rw [← List.cons_append, ← List.cons_append, ← List.append_assoc, List.getLast?_concat]
        refine visit_of_replace hi hrule ?_ (hs.spells'.isLinked_iff.mpr (by simp))
        rw [hnarrow, narrow, hp]
        exact if_neg hne
  · refine .inr ?_
    by_cases hbyte : i.IsByteAccess
    · rcases hbyte with hop | hop
      · have hstore : i.opcode.isArrayStore = true := by rw [hop]; decide
        refine visit_of_dispatch .arrayStore hl hrefs hi (.inl hop) isChoice_store
          (fun _ _ => .inl rfl)
          (by rw [find?_standard, if_pos hstore]) ?_
        simp [Rule.arrayStore, hi, hop]
      · have hstore : ¬i.opcode.isArrayStore = true := by rw [hop]; decide
        exact visit_of_dispatch .arrayLoad hl hrefs hi (.inr hop) isChoice_load
          (fun _ _ => .inr rfl)
          (by rw [find?_standard, if_neg hstore, if_pos hop]) rfl
    · -- no rule takes the node
      have hnone : standard.find? (·.applies i) = none := by
        rw [find?_standard, if_neg fun hs => hn ⟨hs, fun hop => hbyte (.inl hop)⟩,
          if_neg fun hop => hbyte (.inr hop)]
      refine ⟨l, xs ++ [r], ?_, .kept hbyte fun h => absurd h hn⟩
      rw [visit, hi, List.getLast?_concat]
      dsimp only
      rw [hnone]

/-- The first visit of a scan either ends it, or does one of the three things and the scan goes
on. -/
theorem Ends.visited {out : Listing × Except Failure Unit}
    (hs : standard.Ends ctx (r :: ys).head? l out) (hl : l.Built) (hrefs : l.refs = xs ++ r :: ys)
    (hi : l.insn? r = some i) :
    (∃ e, i.IsNarrowed ∧ producer? ctx.boundary l r = .error e ∧
      out = (l, .error (e.map (Fault.inMethod ctx.method)))) ∨
    ∃ l' front, standard.Ends ctx ys.head? l' out ∧
      Visited ctx.boundary l xs r i ys l' front := by
  rw [List.head?_cons] at hs
  rcases visit_visited ctx hl hrefs hi with ⟨e, hn, hp, hv⟩ | ⟨l', front, hv, hvisited⟩
  · exact .inl ⟨e, hn, hp, hs.of_error hv⟩
  · have hnext := next_getLast?
      (hvisited.refs_eq hrefs ▸ (hvisited.built hl).wellFormed.spells)
    exact .inr ⟨l', front, hnext ▸ hs.of_ok hv, hvisited⟩

/-- A visit of a store fails if the search for its array does, and otherwise passes the store. -/
theorem visit_of_isNarrowed (ctx : Context) (hl : l.Built)
    (hrefs : l.refs = xs ++ r :: ys)
    (hfree : ∀ q ∈ xs, ∀ i, l.insn? q = some i → ¬i.IsByteAccess) (hi : l.insn? r = some i)
    (hn : i.IsNarrowed) :
    (∃ e, producer? ctx.boundary l r = .error e ∧
      standard.visit ctx l r = (l, .error (e.map (Fault.inMethod ctx.method)))) ∨
    (producer? ctx.boundary l r = .ok none ∧ standard.visit ctx l r = (l, .ok (some r))) ∨
    ∃ p l' front, producer? ctx.boundary l r = .ok (some p) ∧
      standard.visit ctx l r = (l', .ok (some r)) ∧
      l.Passed ctx.boundary (xs ++ [r]) l' (front ++ [r]) ys := by
  rcases visit_visited ctx hl hrefs hi with ⟨e, -, hp, hv⟩ | ⟨l', front, hv, hvisited⟩
  · exact .inl ⟨e, hp, hv⟩
  have hpassed := hvisited.passed hl hrefs hfree hi
  cases hvisited with
  | kept _ hcast =>
    obtain ⟨o, ho, -⟩ := hcast hn
    rw [List.getLast?_concat] at hv
    cases o with
    | none => exact .inr (.inl ⟨ho, hv⟩)
    | some p => exact .inr (.inr ⟨p, l, xs, ho, hv, hpassed⟩)
  | @cast l' as bs p _ hp =>
    have hfront : as ++ p :: l.nodes.size :: (bs ++ [r]) =
        (as ++ p :: l.nodes.size :: bs) ++ [r] := by
      simp
    rw [hfront] at hpassed hv
    rw [List.getLast?_concat] at hv
    exact .inr (.inr ⟨p, l', _, hp, hv, hpassed⟩)
  | choice hbyte => exact absurd hbyte (Insn.not_isByteAccess_of_isNarrowed hn)

/-- In front of a store only barriers end a search. -/
theorem producer?_eq_error_iff_of_free (hl : l.Built) (hrefs : l.refs = xs ++ r :: ys)
    (hfree : ∀ q ∈ xs, ∀ i, l.insn? q = some i → ¬i.IsByteAccess) (hi : l.insn? r = some i)
    (hn : i.IsNarrowed) : producer? boundary l r = .error e ↔
      l.stall? (l.endsSearch boundary) xs.reverse (-3) = some e := by
  have hsp : l.Spells (xs ++ r :: ys) := hrefs ▸ hl.wellFormed.spells
  have hends : ∀ q ∈ xs.reverse, l.changeAt q = l.changeAt q ∧
      l.isBarrier boundary q = l.endsSearch boundary q := by
    intro q hq
    obtain ⟨j, hj⟩ := hsp.exists_insn (r := q) (by simp [List.mem_reverse.mp hq])
    have hbyte := hfree q (List.mem_reverse.mp hq) j hj
    exact ⟨rfl, by simp [endsSearch, hj, hbyte]⟩
  rw [producer?_eq_error_iff hsp hi hn.1, stall?_congr hends]

/-- A visit fails for a store whose search does, and for nothing else. -/
theorem visit_cases (ctx : Context) (hl : l.Built)
    (hrefs : l.refs = xs ++ r :: ys)
    (hfree : ∀ q ∈ xs, ∀ i, l.insn? q = some i → ¬i.IsByteAccess) (hi : l.insn? r = some i) :
    (∃ e, i.IsNarrowed ∧ l.stall? (l.endsSearch ctx.boundary) xs.reverse (-3) = some e ∧
      standard.visit ctx l r = (l, .error (e.map (Fault.inMethod ctx.method)))) ∨
    ((i.IsNarrowed → l.stall? (l.endsSearch ctx.boundary) xs.reverse (-3) = none) ∧ ∃ l' front,
      standard.visit ctx l r = (l', .ok front.getLast?) ∧
      l.Passed ctx.boundary (xs ++ [r]) l' front ys) := by
  have hstall : i.IsNarrowed → ∀ e, producer? ctx.boundary l r = .error e ↔
      l.stall? (l.endsSearch ctx.boundary) xs.reverse (-3) = some e := fun hn e =>
    producer?_eq_error_iff_of_free hl hrefs hfree hi hn
  rcases visit_visited ctx hl hrefs hi with ⟨e, hn, hp, hv⟩ | ⟨l', front, hv, hvisited⟩
  · exact .inl ⟨e, hn, (hstall hn e).mp hp, hv⟩
  · refine .inr ⟨fun hn => ?_, l', front, hv, hvisited.passed hl hrefs hfree hi⟩
    rw [Option.eq_none_iff_forall_ne_some]
    intro e he
    obtain ⟨o, ho⟩ := hvisited.exists_producer? hn
    rw [(hstall hn e).mpr he] at ho
    cases ho

/-- The first visit of a scan either ends it, for a store whose search stalls, or passes the
node. -/
theorem Ends.passed {out : Listing × Except Failure Unit}
    (hs : standard.Ends ctx (r :: ys).head? l out) (hl : l.Built) (hrefs : l.refs = xs ++ r :: ys)
    (hfree : ∀ q ∈ xs, ∀ i, l.insn? q = some i → ¬i.IsByteAccess) (hi : l.insn? r = some i) :
    (∃ e, i.IsNarrowed ∧ l.stall? (l.endsSearch ctx.boundary) xs.reverse (-3) = some e ∧
      out = (l, .error (e.map (Fault.inMethod ctx.method)))) ∨
    ((i.IsNarrowed → l.stall? (l.endsSearch ctx.boundary) xs.reverse (-3) = none) ∧ ∃ l' front,
      standard.Ends ctx ys.head? l' out ∧ l.Passed ctx.boundary (xs ++ [r]) l' front ys) := by
  rw [List.head?_cons] at hs
  rcases visit_cases ctx hl hrefs hfree hi with
    ⟨e, hn, hstall, hv⟩ | ⟨hno, l', front, hv, hpassed⟩
  · exact .inl ⟨e, hn, hstall, hs.of_error hv⟩
  · have hnext := next_getLast? (hpassed.refs_eq ▸ hpassed.built.wellFormed.spells)
    exact .inr ⟨hno, l', front, hnext ▸ hs.of_ok hv, hpassed⟩

/-- A scan that fails has come to a store whose search stalls. -/
theorem Ends.exists_stall {out : Listing × Except Failure Unit}
    (hs : standard.Ends ctx rest.head? l out) (hl : l.Built) (hrefs : l.refs = xs ++ rest)
    (hfree : ∀ q ∈ xs, ∀ i, l.insn? q = some i → ¬i.IsByteAccess) (hout : out.2 = .error f) :
    ∃ as r bs i e, rest = as ++ r :: bs ∧ l.insn? r = some i ∧ i.IsNarrowed ∧
      l.stall? (l.endsSearch ctx.boundary) (xs ++ as).reverse (-3) = some e ∧
      f = e.map (Fault.inMethod ctx.method) := by
  induction rest generalizing l xs with
  | nil =>
    cases hs
    cases hout
  | cons r rest ih =>
    have hsp : l.Spells (xs ++ r :: rest) := hrefs ▸ hl.wellFormed.spells
    obtain ⟨i, hi⟩ := hsp.exists_insn (r := r) (by simp)
    -- either the search of this store stalls, or what stalls later would have stalled here too
    rcases hs.passed hl hrefs hfree hi with
      ⟨e, hn, hstall, rfl⟩ | ⟨-, l', front, hs', hpassed⟩
    · exact ⟨[], r, rest, i, e, rfl, hi, hn, by simpa using hstall, (Except.error.inj hout).symm⟩
    · obtain ⟨as, q, bs, j, e, rfl, hj, hn, hstall, hf⟩ :=
        ih hs' hpassed.built hpassed.refs_eq hpassed.free
      have hlt : ∀ t ∈ as ++ q :: bs, t < l.nodes.size := fun t ht =>
        hsp.lt_size (by simp only [List.mem_append, List.mem_cons] at ht ⊢; tauto)
      refine ⟨r :: as, q, bs, j, e, rfl, ?_, hn, ?_, hf⟩
      · rw [← hj, hpassed.insn q (hlt q (by simp))]
      · have hback := hpassed.sound_append (fun t ht => hlt t (by simp [ht])) hstall
        simpa using hback

/-- A scan over a store whose search stalls fails, there or before. -/
theorem Ends.fails_of_stall {as bs : List Ref} {out : Listing × Except Failure Unit}
    (hs : standard.Ends ctx (as ++ r :: bs).head? l out) (hl : l.Built)
    (hrefs : l.refs = xs ++ (as ++ r :: bs))
    (hfree : ∀ q ∈ xs, ∀ i, l.insn? q = some i → ¬i.IsByteAccess)
    (hb : ∀ q, ctx.boundary q → q < l.nodes.size) (hi : l.insn? r = some i) (hn : i.IsNarrowed)
    (hstall : l.stall? (l.endsSearch ctx.boundary) (xs ++ as).reverse (-3) = some e) :
    ∃ f, out.2 = .error f := by
  induction as generalizing l xs with
  | nil =>
    rw [List.append_nil] at hstall
    rcases hs.passed hl hrefs hfree hi with ⟨f, -, -, rfl⟩ | ⟨hno, -⟩
    · exact ⟨_, rfl⟩
    · rw [hno hn] at hstall
      cases hstall
  | cons a as ih =>
    have hsp : l.Spells (xs ++ (a :: as ++ r :: bs)) := hrefs ▸ hl.wellFormed.spells
    have hlt : ∀ t ∈ a :: as ++ r :: bs, t < l.nodes.size := fun t ht =>
      hsp.lt_size (List.mem_append_right _ ht)
    obtain ⟨j, hj⟩ := hsp.exists_insn (r := a) (by simp)
    -- an earlier store may fail first; if none does, the search still stalls at the last one
    rcases hs.passed hl hrefs hfree hj with ⟨f, -, -, rfl⟩ | ⟨-, l', front, hs', hpassed⟩
    · exact ⟨_, rfl⟩
    · refine ih hs' hpassed.built hpassed.refs_eq hpassed.free
        (fun q hq => (hb q hq).trans_le hpassed.size_le)
        ((hpassed.insn r (hlt r (by simp))).trans hi) ?_
      refine hpassed.complete_append (fun t ht => hlt t (by simp [ht])) hb ?_
      simpa using hstall

/-- A scan that gets to a node has left what is behind it as it was, and a search from there meets
what it would have met before. -/
theorem Reaches.passed (hr : standard.Reaches ctx start l r l₁) (hl : l.Built)
    (hrefs : l.refs = xs ++ rest) (hstart : start = rest.head?)
    (hfree : ∀ q ∈ xs, ∀ i, l.insn? q = some i → ¬i.IsByteAccess) :
    ∃ front as back, rest = as ++ r :: back ∧ l₁.refs = front ++ r :: back ∧ l₁.Built ∧
      l₁.insn? r = l.insn? r ∧ (∀ q ∈ front, ∀ i, l₁.insn? q = some i → ¬i.IsByteAccess) ∧
      ∀ total e, l₁.stall? (l₁.endsSearch ctx.boundary) front.reverse total = some e →
        l.stall? (l.endsSearch ctx.boundary) (xs ++ as).reverse total = some e := by
  induction hr generalizing xs rest with
  | @here r l =>
    obtain ⟨back, rfl⟩ := List.head?_eq_some_iff.mp hstart.symm
    exact ⟨xs, [], back, rfl, hrefs, hl, rfl, hfree, by simp⟩
  | @visit r q l l₁ l₂ resume hvisit _ ih =>
    obtain ⟨back, rfl⟩ := List.head?_eq_some_iff.mp hstart.symm
    have hsp : l.Spells (xs ++ r :: back) := hrefs ▸ hl.wellFormed.spells
    obtain ⟨i, hi⟩ := hsp.exists_insn (r := r) (by simp)
    rcases visit_cases ctx hl hrefs hfree hi with
      ⟨e, -, -, hv⟩ | ⟨-, l', front, hv, hpassed⟩
    · rw [hvisit] at hv
      cases hv
    · obtain ⟨rfl, hresume⟩ := Prod.mk.inj (hvisit.symm.trans hv)
      obtain rfl := Except.ok.inj hresume
      have hnext := next_getLast? (hpassed.refs_eq ▸ hpassed.built.wellFormed.spells)
      obtain ⟨front', as, back', rfl, hrefs₂, hl₂, hinsn, hfree₂, hstall⟩ :=
        ih hpassed.built hpassed.refs_eq hnext hpassed.free
      have hlt : ∀ t ∈ as ++ q :: back', t < l.nodes.size := fun t ht =>
        hsp.lt_size (by simp only [List.mem_append, List.mem_cons] at ht ⊢; tauto)
      refine ⟨front', r :: as, back', rfl, hrefs₂, hl₂,
        hinsn.trans (hpassed.insn q (hlt q (by simp))), hfree₂, fun total e h => ?_⟩
      simpa using hpassed.sound_append (fun t ht => hlt t (by simp [ht])) (hstall total e h)

/-- What the search of a store meets, told by the nodes in front of it. -/
theorem stalls_iff (hl : l.WellFormed) (hrefs : l.refs = xs ++ r :: ys) (hi : l.insn? r = some i)
    (hn : i.IsNarrowed) : l.Stalls boundary r e ↔
      l.stall? (l.endsSearch boundary) xs.reverse (-3) = some e := by
  have hthree := rise_of_changeAt (changeAt_arrayStore hi hn.1)
  -- `stall?` adds up backwards and starts with what the store does
  have hrise : ∀ ds, l.rise (ds ++ [r]) = -3 + l.rise ds.reverse := by
    intro ds
    rw [rise_append, hthree, rise_reverse]
    omega
  rw [stall?_eq_some_iff]
  constructor
  · rintro ⟨as, q, bs, ys', heq, hq, hbs, hends, hno⟩
    have hfront : xs = as ++ q :: bs := by
      have hsame : xs ++ r :: ys = (as ++ q :: bs) ++ r :: ys' := by rw [← hrefs, heq]; simp
      exact front_unique (hrefs ▸ hl.spells.nodup) hsame
    refine ⟨bs.reverse, q, as.reverse, by simp [hfront], hq, fun b hb =>
      hbs b (List.mem_reverse.mp hb),
      fun b hb => hends b (by simpa using hb), fun ds hds => ?_⟩
    have hds' : ds.reverse <:+ bs := List.reverse_prefix.mp (by simpa using hds)
    have hne := hno ds.reverse hds'
    rwa [hrise, List.reverse_reverse] at hne
  · rintro ⟨as, q, bs, heq, hq, has, hends, hno⟩
    have hfront : xs = bs.reverse ++ q :: as.reverse := by
      rw [← List.reverse_reverse xs, heq]
      simp
    refine ⟨bs.reverse, q, as.reverse, ys, by rw [hrefs, hfront]; simp, hq,
      fun b hb => has b (List.mem_reverse.mp hb), fun b hb => hends b (by simpa using hb),
      fun ds hds => ?_⟩
    rw [hrise]
    exact hno ds.reverse (List.reverse_suffix.mp (by simpa using hds))

/-- **What makes enhancement fail.** The scan with the standard rules fails for nothing but a store
whose search stalls: going back over the block of the store, it meets an instruction without an
effect, such as `athrow` or a return, before a jump, a switch, a boundary or a byte access, and
before it finds the array. The failure is that of the instruction. Every such store makes the scan
fail, if the boundary is made of nodes of the listing. And a store for which the block holds no code
that leaves just the array, so that there is nothing to find, is left alone, unless its search
stalls. -/
theorem standard_fails_iff (ctx : Context) (hb : l.Built) :
    (∀ f, (standard.run ctx l).2 = .error f → ∃ r ∈ l.refs, ∃ i e, l.insn? r = some i ∧
      i.IsNarrowed ∧ l.Stalls ctx.boundary r e ∧ f = e.map (Fault.inMethod ctx.method)) ∧
    ((∀ q, ctx.boundary q → q < l.nodes.size) → ∀ r ∈ l.refs, ∀ i e, l.insn? r = some i →
      i.IsNarrowed → l.Stalls ctx.boundary r e → ∃ f, (standard.run ctx l).2 = .error f) ∧
    ∀ l₁ r i, standard.Reaches ctx l.first l r l₁ → l₁.insn? r = some i → i.IsNarrowed →
      (∀ as bs ys, l₁.refs = as ++ (bs ++ r :: ys) →
        (∀ b ∈ bs, l₁.isBarrier ctx.boundary b = false) → l₁.rise (bs ++ [r]) ≠ -1) →
      standard.visit ctx l₁ r = (l₁, .ok (some r)) ∨ ∃ e, l.Stalls ctx.boundary r e ∧
        standard.visit ctx l₁ r = (l₁, .error (e.map (Fault.inMethod ctx.method))) := by
  have hwf := hb.wellFormed
  have hrefs : l.refs = [] ++ l.refs := rfl
  have hfirst := hwf.spells.first_eq
  have hends := (standard_advances ctx).ends_run hwf.spells
  rw [hfirst] at hends
  refine ⟨fun f hf => ?_, fun hbound r hr i e hi hn hstall => ?_,
    fun l₁ r i hreach hi hn hnone => ?_⟩
  · obtain ⟨as, r, bs, i, e, hsplit, hi, hn, hstall, hf⟩ :=
      hends.exists_stall hb hrefs (by simp) hf
    exact ⟨r, by simp [hsplit], i, e, hi, hn, (stalls_iff hwf hsplit hi hn).mpr hstall, hf⟩
  · obtain ⟨as, bs, hsplit⟩ := List.append_of_mem hr
    have hsplit' : l.refs = [] ++ (as ++ r :: bs) := hsplit
    rw [hsplit] at hends
    exact hends.fails_of_stall hb hsplit' (by simp) hbound hi hn
      ((stalls_iff hwf hsplit hi hn).mp hstall)
  · obtain ⟨front, as, back, hsplit, hrefs₁, hb₁, hinsn, hfree₁, hsound⟩ :=
      hreach.passed hb hrefs hfirst (by simp)
    rcases visit_of_isNarrowed ctx hb₁ hrefs₁ hfree₁ hi hn with
      ⟨e, hp, hv⟩ | ⟨-, hv⟩ | ⟨p, -, -, hp, -⟩
    · have hstall := (producer?_eq_error_iff_of_free hb₁ hrefs₁ hfree₁ hi hn).mp hp
      exact .inr ⟨e, (stalls_iff hwf hsplit (hinsn ▸ hi) hn).mpr (hsound (-3) e hstall), hv⟩
    · exact .inl hv
    · -- a producer that is found is the beginning of such code
      obtain ⟨cs, bs, hcs, hbar, -, -, hrise, -⟩ :=
        split_of_producer? (hrefs₁ ▸ hb₁.wellFormed.spells) hi hn.1 hp
      exact absurd hrise (hnone (cs ++ [p]) bs back (by rw [hrefs₁, hcs]; simp) hbar)

/-- Chooses what to store: throws if there is nothing to choose. -/
def guarded : Listing :=
  ofInsns 1 [.load .aload 1, .plain .iconst0, .load .iload 2, .jump ⟨0x99⟩ 0, .plain .aconstNull,
    .plain .athrow, .place 0, .plain ⟨0x08⟩, .plain .iastore, .plain .voidReturn]

theorem standard_fails_guarded : guarded.Built ∧ (∃ e, guarded.Stalls (fun _ => false) 8 e) ∧
    ∃ r ∈ guarded.refs, ∃ i e f, guarded.insn? r = some i ∧ i.IsNarrowed ∧
      guarded.Stalls (fun _ => false) r e ∧
      (standard.run {} guarded).2 = .error f ∧ f = e.map (Fault.inMethod []) := by
  have hb : guarded.Built := .ofInsns _ _
  obtain ⟨hfails, hstalls, -⟩ := standard_fails_iff {} hb
  obtain ⟨e, he⟩ : ∃ e, guarded.changeAt 5 = .error e := by
    have hnone : (guarded.changeAt 5).toOption = none := by decide +kernel
    cases h : guarded.changeAt 5 with
    | error e => exact ⟨e, rfl⟩
    | ok c =>
      rw [h] at hnone
      cases hnone
  have hstall : guarded.Stalls (fun _ => false) 8 e := by
    refine ⟨[0, 1, 2, 3, 4], 5, [6, 7], [9], by decide +kernel, he, fun b hb => ?_,
      by decide +kernel, fun ds hds => ?_⟩
    · have heffect : ∀ b ∈ [6, 7], ((guarded.changeAt b).toOption).isSome := by decide +kernel
      obtain ⟨c, hc⟩ := Option.isSome_iff_exists.mp (heffect b hb)
      exact ⟨c, Outcome.eq_ok_of_toOption hc⟩
    · rcases List.suffix_cons_iff.mp hds with rfl | hds
      · decide +kernel
      rcases List.suffix_cons_iff.mp hds with rfl | hds
      · decide +kernel
      rw [List.suffix_nil.mp hds]
      decide +kernel
  obtain ⟨f, hf⟩ := hstalls nofun 8 (by decide +kernel) (.plain .iastore) e rfl (by decide) hstall
  obtain ⟨r, hr, i, e', hi, hn, hstall', hmap⟩ := hfails f hf
  exact ⟨hb, ⟨e, hstall⟩, r, hr, i, e', f, hi, hn, hstall', hf, hmap⟩

/-- The heights of this listing are consistent: behind the `athrow` a label begins. But the search
of the store meets the `athrow`, and the scan fails instead of leaving the store alone. -/
theorem guarded_astray : guarded.Built ∧ (∀ i ∈ guarded.insns, i.WellShaped) ∧
    (∀ i ∈ guarded.insns, i.opcode ≠ .jsr ∧ i.opcode ≠ .jsrW ∧ i.opcode ≠ .ret) ∧
    (∃ H, guarded.heights = .ok H ∧ H.at? 5 = some 3 ∧ H.at? 8 = some 3) ∧
    (standard.run {} guarded).2 ≠ .ok () := by
  refine ⟨.ofInsns _ _, by decide +kernel, by decide +kernel, ?_, fun h => ?_⟩
  · have hheights : guarded.heights.toOption.map (fun H => (H.at? 5, H.at? 8)) =
        some (some 3, some 3) := by decide +kernel
    obtain ⟨H, hH, hat⟩ := Option.map_eq_some_iff.mp hheights
    exact ⟨H, Outcome.eq_ok_of_toOption hH, Prod.mk.inj hat⟩
  · have hnone : (standard.run {} guarded).2.toOption = none := by
      decide +kernel
    rw [h] at hnone
    cases hnone

end Chain

end ClassWeaver
