import ClassWeaver.Proofs.Generator.Capture

/-!
# Which locals are captured

The survey of a body goes over its instructions once and keeps two tables, for the locals that are
written and for those that the local variable table declares. What it knows in the end is a matter
of the writes and of the declarations in their order (`Survey.Tells`): a local has the family of its
first write, a declared type as long as all its declarations agree, and a conflict is on record once
a write has another family than the first write to its local. Well-shaped instructions leave it no
way to fail.

So whether a body can be woven at all, and which slots it needs, can be read off its writes
(`discover_captures`). What counts as a write is told by the forms that an instruction can have
(`Insn.Assigns`). -/

namespace ClassWeaver

/-! ### Assignments -/

/-- The store of the family to one of the first four locals that has no operand. -/
def Family.compactStore (f : Family) (k : Fin 4) : Opcode := ⟨0x3B + 4 * f.offset + k.val⟩

namespace Insn

/-- The instruction leaves a value of the family in the local. A compact store with an operand
stores to the local that the operand names. -/
inductive Assigns : Insn → UInt16 → Family → Prop
  | indexed (f : Family) (n : UInt16) : Assigns ⟨f.store, .slot n⟩ n f
  | compact (f : Family) (k : Fin 4) : Assigns ⟨f.compactStore k, .none⟩ (UInt16.ofNat k) f
  | compactIndexed (f : Family) (k : Fin 4) (n : UInt16) : Assigns ⟨f.compactStore k, .slot n⟩ n f
  | increment (n : UInt16) (delta : Int16) : Assigns ⟨.iinc, .increment n delta⟩ n .int

variable {i : Insn} {op : Opcode} {n : UInt16} {f : Family}

/-- The stores of a family. -/
theorem store_cases (h : op.isLocalStore = true) (hf : op.family? = some f) :
    op = f.store ∨ ∃ k, op = f.compactStore k := by
  have hall : ∀ j : Fin 25, (⟨0x36 + (j : Nat)⟩ : Opcode).family?.all (fun f =>
      decide ((⟨0x36 + (j : Nat)⟩ : Opcode) = f.store ∨
        ∃ k, (⟨0x36 + (j : Nat)⟩ : Opcode) = f.compactStore k)) = true := by
    decide +kernel
  obtain ⟨c⟩ := op
  simp only [Opcode.isLocalStore, Opcode.within, Bool.and_eq_true, decide_eq_true_eq] at h
  have hj := hall ⟨(c - 0x36).toNat, by omega⟩
  have hc : (0x36 : Int) + ((c - 0x36).toNat : Int) = c := by omega
  simp only [hc, hf, Option.all_some, decide_eq_true_eq] at hj
  exact hj

theorem store_spec (f : Family) : f.store.shape = .slot ∧ f.store ≠ .iinc ∧
    f.store.isLocalStore = true ∧ f.store.family? = some f ∧ f.store.isCompactLoad = false ∧
    f.store.isCompactStore = false := by
  cases f <;> decide

theorem compactStore_spec (f : Family) (k : Fin 4) : (f.compactStore k).shape = .slot ∧
    f.compactStore k ≠ .iinc ∧ (f.compactStore k).isLocalStore = true ∧
    (f.compactStore k).family? = some f ∧ slot? ⟨f.compactStore k, .none⟩ =
    some (UInt16.ofNat k) := by
  cases f <;> revert k <;> decide

/-- An operand that names a local. -/
theorem exists_slot {x : Operand} (h : x.shape = .slot) : ∃ m, x = .slot m := by
  cases x with
  | slot m => exact ⟨m, rfl⟩
  | _ => cases h

theorem writtenFamily?_of_store (hne : op ≠ .iinc) (hstore : op.isLocalStore = true) :
    Survey.writtenFamily? op = op.family? := by
  rw [Survey.writtenFamily?, if_neg hne, if_pos hstore]

/-- The survey sees the family of an assignment and its local. -/
theorem Assigns.writes (h : i.Assigns n f) :
    Survey.writtenFamily? i.opcode = some f ∧ i.slot? = some n := by
  cases h with
  | indexed f n =>
    obtain ⟨-, hne, hstore, hf, -⟩ := store_spec f
    exact ⟨(writtenFamily?_of_store hne hstore).trans hf, rfl⟩
  | compact f k =>
    obtain ⟨-, hne, hstore, hf, hk⟩ := compactStore_spec f k
    exact ⟨(writtenFamily?_of_store hne hstore).trans hf, hk⟩
  | compactIndexed f k n =>
    obtain ⟨-, hne, hstore, hf, -⟩ := compactStore_spec f k
    exact ⟨(writtenFamily?_of_store hne hstore).trans hf, rfl⟩
  | increment n delta => exact ⟨rfl, rfl⟩

/-- And it sees them of nothing else, if the operand is of the kind that the opcode calls for. -/
theorem assigns_of_writtenFamily? (hi : i.WellShaped)
    (hf : Survey.writtenFamily? i.opcode = some f) (hslot : i.slot? = some n) : i.Assigns n f := by
  obtain ⟨op, x⟩ := i
  unfold Survey.writtenFamily? at hf
  split at hf
  · next hop =>
    obtain rfl : op = .iinc := hop
    obtain rfl := Option.some.inj hf
    rcases hi with hshape | ⟨-, hcompact | hcompact⟩
    · cases x with
      | increment m delta =>
        obtain rfl : m = n := Option.some.inj hslot
        exact .increment m delta
      | _ => cases hshape
    · cases hcompact
    · cases hcompact
  · split at hf
    · next hstore =>
      rcases store_cases hstore hf with rfl | ⟨k, rfl⟩
      · obtain ⟨hop, -, -, -, hload, hcompact⟩ := store_spec f
        rcases hi with hshape | ⟨-, hc | hc⟩
        · obtain ⟨m, rfl⟩ := exists_slot (hshape.trans hop)
          obtain rfl : m = n := Option.some.inj hslot
          exact .indexed f m
        · rw [hload] at hc
          cases hc
        · rw [hcompact] at hc
          cases hc
      · -- a compact store names its local itself, or has an operand that does
        obtain ⟨hop, -, -, -, hk⟩ := compactStore_spec f k
        rcases hi with hshape | ⟨hnone, -⟩
        · obtain ⟨m, rfl⟩ := exists_slot (hshape.trans hop)
          obtain rfl : m = n := Option.some.inj hslot
          exact .compactIndexed f k m
        · obtain rfl : x = .none := hnone
          obtain rfl := Option.some.inj (hk.symm.trans hslot)
          exact .compact f k
    · cases hf

/-- The writes that a survey sees are the assignments to locals other than the receiver. -/
theorem writes_iff (hi : i.WellShaped) : i.Writes n f ↔ i.Assigns n f ∧ n ≠ 0 := by
  constructor
  · rintro ⟨hn, hf⟩
    obtain ⟨-, hslot, hzero⟩ := Survey.writes?_eq_some_iff.mp hn
    exact ⟨assigns_of_writtenFamily? hi hf hslot, hzero⟩
  · rintro ⟨h, hzero⟩
    obtain ⟨hf, hslot⟩ := h.writes
    exact ⟨Survey.writes?_eq_some_iff.mpr ⟨by rw [hf]; rfl, hslot, hzero⟩, hf⟩

/-- An assignment can be listed. -/
theorem Assigns.exists_text (h : i.Assigns n f) : ∃ text, i.text? = some text := by
  cases h <;> exact ⟨_, rfl⟩

end Insn

/-! ### Tables -/

namespace Survey

variable {α : Type} {n k : UInt16} {v : α} {table : List (UInt16 × α)}

theorem find?_cons : find? n ((k, v) :: table) = if k = n then some v else find? n table := by
  unfold find?
  by_cases h : k = n <;> simp [h]

theorem find?_append {table' : List (UInt16 × α)} :
    find? n (table ++ table') = (find? n table).or (find? n table') := by
  simp [find?, List.find?_append, Option.map_or]

theorem find?_map {β : Type} (g : UInt16 → α → β) (n : UInt16) (table : List (UInt16 × α)) :
    find? n (table.map fun p => (p.1, g p.1 p.2)) = (find? n table).map (g n) := by
  induction table with
  | nil => rfl
  | cons p table ih =>
    obtain ⟨k, v⟩ := p
    rw [List.map_cons, find?_cons, find?_cons, ih]
    by_cases h : k = n
    · simp [h]
    · rw [if_neg h, if_neg h]

theorem mem_of_find? (h : find? n table = some v) : (n, v) ∈ table := by
  obtain ⟨⟨k, w⟩, hp, rfl⟩ := Option.map_eq_some_iff.mp h
  obtain rfl : k = n := by simpa using List.find?_some hp
  exact List.mem_of_find?_eq_some hp

theorem exists_find? (h : (n, v) ∈ table) : ∃ w, find? n table = some w := by
  have hsome : (table.find? (·.1 = n)).isSome := by
    rw [List.find?_isSome]
    exact ⟨_, h, by simp⟩
  obtain ⟨p, hp⟩ := Option.isSome_iff_exists.mp hsome
  exact ⟨p.2, by rw [find?, hp, Option.map_some]⟩

/-! ### Writes and declarations -/

/-- The locals that instructions write, in order, with the families of the values. -/
def writesOf (is : List Insn) : List (UInt16 × Family) :=
  is.filterMap fun i => (writes? i).bind fun n => (writtenFamily? i.opcode).map fun f => (n, f)

/-- The descriptor that an entry of the local variable table gives for the local. -/
def declares? (n : UInt16) (i : Insn) : Option Text :=
  match i.opcode == .localVariable, i.operand with
  | true, .localVariable _ desc _ _ index => if index = n then some desc else none
  | _, _ => none

/-- The descriptors that instructions declare for a local, in order. -/
def declarationsOf (is : List Insn) (n : UInt16) : List Text := is.filterMap (declares? n)

/-- What is kept of the declarations of a local: nothing without any, and the descriptor if they
agree. -/
def agreed : List Text → Option (Option Text)
  | [] => none
  | d :: ds => some (if ∀ e ∈ ds, e = d then some d else none)

theorem agreed_concat (ds : List Text) (d : Text) : agreed (ds ++ [d]) = match agreed ds with
    | none => some (some d)
    | some known => some (if known = some d then known else none) := by
  cases ds with
  | nil => simp [agreed]
  | cons e ds =>
    simp only [List.cons_append, agreed, List.forall_mem_append, List.forall_mem_singleton]
    by_cases hds : ∀ x ∈ ds, x = e
    · by_cases hd : d = e
      · simp [hd]
      · rw [if_neg (fun h => hd h.2), if_pos hds, if_neg (by simpa using Ne.symm hd)]
    · rw [if_neg (fun h => hds h.1), if_neg hds]
      simp

/-- Each write has the family of the first write to its local. -/
def Agree (ws : List (UInt16 × Family)) : Prop := ∀ p ∈ ws, find? p.1 ws = some p.2

/-- The fault names the first write that has another family than the first write to its local. -/
def Clash (is : List Insn) (fault : Fault) : Prop :=
  ∃ front i back text n f g, is = front ++ i :: back ∧ Agree (writesOf front) ∧ i.Writes n g ∧
    find? n (writesOf front) = some f ∧ f ≠ g ∧ i.text? = some text ∧ fault = mixed text n f g

theorem Clash.append {is js : List Insn} {fault : Fault} (h : Clash is fault) :
    Clash (is ++ js) fault := by
  obtain ⟨front, i, back, text, n, f, g, rfl, hrest⟩ := h
  exact ⟨front, i, back ++ js, text, n, f, g, by simp, hrest⟩

/-- Writes do not agree if two of them leave values of different families in a local. -/
theorem agree_iff {ws : List (UInt16 × Family)} :
    Agree ws ↔ ∀ n f g, (n, f) ∈ ws → (n, g) ∈ ws → f = g := by
  constructor
  · intro h n f g hf hg
    exact Option.some.inj ((h _ hf).symm.trans (h _ hg))
  · rintro h ⟨n, f⟩ hp
    obtain ⟨g, hg⟩ := exists_find? hp
    rw [hg, h n g f (mem_of_find? hg) hp]

/-- What a survey knows of instructions: the families of the first writes, the declarations that
agree, and the first write that does not fit. -/
structure Tells (is : List Insn) (s : Survey) : Prop where
  written : ∀ n, find? n s.written = find? n (writesOf is)
  declared : ∀ n, find? n s.declared = agreed (declarationsOf is n)
  agree : s.conflict = none → Agree (writesOf is)
  clash : ∀ fault, s.conflict = some fault → Clash is fault

variable {site : CallSite} {s s' : Survey} {i : Insn} {is : List Insn} {f : Family}

theorem tells_empty : Tells [] {} where
  written _ := rfl
  declared _ := rfl
  agree _ := fun _ hp => nomatch hp
  clash _ h := nomatch h

theorem writesOf_of_writes (hw : i.Writes n f) : writesOf [i] = [(n, f)] := by
  simp [writesOf, hw.1, hw.2]

theorem writesOf_of_not_writes (hno : ∀ n f, ¬i.Writes n f) : writesOf [i] = [] := by
  rw [writesOf, List.filterMap_cons_none, List.filterMap_nil]
  rw [Option.bind_eq_none_iff]
  intro n hn
  rw [Option.map_eq_none_iff, Option.eq_none_iff_forall_ne_some]
  exact fun f hf => hno n f ⟨hn, hf⟩

/-- A write is looked up and put on record. -/
theorem visit_of_writes (hw : i.Writes n f) : visit site s i = s.write i n f := by
  have hcall : site.isCall i = false := by
    by_contra hcall
    rw [Insn.Writes, writtenFamily?_of_isCall (Bool.not_eq_false _ ▸ hcall)] at hw
    cases hw.2
  have hop : i.opcode ≠ .localVariable := by
    intro hop
    rw [Insn.Writes, hop] at hw
    cases hw.2
  obtain ⟨-, hslot, hzero⟩ := writes?_eq_some_iff.mp hw.1
  rw [visit, hcall, if_neg Bool.false_ne_true, if_neg hop, hw.2, hslot, Option.getD_some]
  exact if_neg hzero

/-- A declaration is added, and lost when another one differs. -/
theorem find?_declare {index : UInt16} {desc : Text} :
    find? n (s.declare index desc).declared = if index = n then
      match find? n s.declared with
      | none => some (some desc)
      | some known => some (if known = some desc then known else none)
    else find? n s.declared := by
  unfold declare
  by_cases hn : index = n
  · subst hn
    rw [if_pos rfl]
    cases hknown : find? index s.declared with
    | none => simp [find?_cons]
    | some known =>
      dsimp only
      split
      · next hsame =>
        rw [hknown]
        -- the same declaration again, or one that was lost before
        rcases Bool.or_eq_true _ _ ▸ hsame with h | h <;> simp_all
      · next hother =>
        have hmap := find?_map (fun i d => if i = index then none else d) index s.declared
        rw [hmap, hknown]
        simp only [Bool.or_eq_true, decide_eq_true_eq, not_or] at hother
        simp [hother.1]
  · rw [if_neg hn]
    split
    · rw [find?_cons, if_neg hn]
    · split
      · rfl
      · have hmap := find?_map (fun i d => if i = index then none else d) n s.declared
        rw [hmap]
        simp [Ne.symm hn]

/-- What a survey makes of an instruction that writes no local. -/
theorem visit_of_not_writes (site : CallSite) (s : Survey) (hi : i.WellShaped)
    (hno : ∀ n f, ¬i.Writes n f) :
    ∃ s', visit site s i = .ok s' ∧ s'.written = s.written ∧ s'.conflict = s.conflict ∧
      ∀ n, find? n s'.declared = match declares? n i with
        | none => find? n s.declared
        | some d => match find? n s.declared with
          | none => some (some d)
          | some known => some (if known = some d then known else none) := by
  have hplain : i.opcode ≠ .localVariable → ∀ n, declares? n i = none := by
    intro hop n
    simp [declares?, hop]
  by_cases hcall : site.isCall i = true
  · have hop : i.opcode ≠ .localVariable := by
      intro hop
      rw [CallSite.isCall, hop] at hcall
      cases hcall
    refine ⟨_, if_pos hcall, rfl, rfl, fun n => ?_⟩
    rw [hplain hop]
  by_cases hop : i.opcode = .localVariable
  · obtain ⟨op, x⟩ := i
    obtain rfl : op = .localVariable := hop
    rcases hi with hshape | ⟨-, hcompact | hcompact⟩
    · cases x with
      | localVariable name desc start stop index =>
        obtain ⟨-, hwritten, hconflict⟩ := declare_frame s index desc
        refine ⟨s.declare index desc, ?_, hwritten, hconflict, fun n => ?_⟩
        · rw [visit, if_neg hcall]
          rfl
        · rw [find?_declare]
          by_cases hn : index = n <;> simp [declares?, hn]
      | _ => cases hshape
    · cases hcompact
    · cases hcompact
  · refine ⟨s, ?_, rfl, rfl, fun n => by rw [hplain hop]⟩
    rw [visit, if_neg hcall, if_neg hop]
    split
    · rfl
    · next family hfamily =>
      refine if_pos ?_
      by_contra hzero
      cases hslot : i.slot? with
      | none =>
        rw [hslot] at hzero
        exact hzero rfl
      | some k =>
        rw [hslot] at hzero
        exact hno k family ⟨writes?_eq_some_iff.mpr ⟨by rw [hfamily]; rfl, hslot, hzero⟩, hfamily⟩

theorem declarationsOf_concat (is : List Insn) (i : Insn) (n : UInt16) :
    declarationsOf (is ++ [i]) n = declarationsOf is n ++ (declares? n i).toList := by
  rw [declarationsOf, List.filterMap_append]
  refine congrArg (declarationsOf is n ++ ·) ?_
  cases h : declares? n i <;> simp [h]

/-- A write declares nothing. -/
theorem declares?_of_writes (hw : i.Writes n f) : declares? k i = none := by
  have hop : i.opcode ≠ .localVariable := by
    intro hop
    rw [Insn.Writes, hop] at hw
    cases hw.2
  simp [declares?, hop]

theorem writesOf_append (is js : List Insn) : writesOf (is ++ js) = writesOf is ++ writesOf js := by
  simp [writesOf]

/-- One more write, of a local that the survey knows or does not know. -/
theorem Tells.write (h : Tells is s) (hi : i.WellShaped) (hw : i.Writes n f) :
    ∃ s', s.write i n f = .ok s' ∧ Tells (is ++ [i]) s' := by
  have hwrites : writesOf (is ++ [i]) = writesOf is ++ [(n, f)] := by
    rw [writesOf_append, writesOf_of_writes hw]
  have hlookup : ∀ k, find? k (writesOf (is ++ [i])) =
      (find? k (writesOf is)).or (if n = k then some f else none) := fun k => by
    rw [hwrites, find?_append, find?_cons]
    rfl
  have hdeclared : ∀ k, declarationsOf (is ++ [i]) k = declarationsOf is k := fun k => by
    rw [declarationsOf_concat, declares?_of_writes hw, Option.toList_none, List.append_nil]
  -- the writes so far agree as they did, so only the new one is to be compared
  have hagree : Agree (writesOf is) → find? n (writesOf is) = none ∨
    find? n (writesOf is) = some f →
      Agree (writesOf (is ++ [i])) := by
    intro hold hnew p hp
    rw [hlookup]
    rw [hwrites] at hp
    rcases List.mem_append.mp hp with hp | hp
    · rw [hold p hp]
      rfl
    · obtain rfl := List.mem_singleton.mp hp
      rcases hnew with hnew | hnew <;> simp [hnew]
  rw [Survey.write, h.written n]
  cases hknown : find? n (writesOf is) with
  | none =>
    refine ⟨_, rfl, fun k => ?_, fun k => ?_, fun hnone => hagree (h.agree hnone) (.inl hknown),
      fun fault hfault => (h.clash fault hfault).append⟩
    · rw [hlookup, find?_cons, h.written k]
      by_cases hk : n = k
      · subst hk
        simp [hknown]
      · simp [hk]
    · rw [hdeclared]
      exact h.declared k
  | some known =>
    have hwritten : ∀ k, find? k s.written = find? k (writesOf (is ++ [i])) := fun k => by
      rw [hlookup, h.written k]
      by_cases hk : n = k
      · subst hk
        simp [hknown]
      · simp [hk]
    have hdeclared' : ∀ k, find? k s.declared = agreed (declarationsOf (is ++ [i]) k) := fun k => by
      rw [hdeclared]
      exact h.declared k
    dsimp only
    by_cases hsame : known = f
    · refine ⟨s, if_pos (by simp [hsame]), hwritten, hdeclared',
        fun hnone => hagree (h.agree hnone) (.inr (hknown.trans (congrArg some hsame))),
        fun fault hfault => (h.clash fault hfault).append⟩
    · cases hconflict : s.conflict with
      | some fault =>
        refine ⟨s, by simp, hwritten, hdeclared', fun hnone => ?_,
          fun fault hfault => (h.clash fault hfault).append⟩
        rw [hconflict] at hnone
        cases hnone
      | none =>
        obtain ⟨text, htext⟩ := ((Insn.writes_iff hi).mp hw).1.exists_text
        refine ⟨{ s with conflict := some (mixed text n known f) }, ?_, hwritten, hdeclared', nofun,
          fun fault hfault => ?_⟩
        · simp [hsame, htext]
        · exact ⟨is, i, [], text, n, known, f, rfl, h.agree hconflict, hw, hknown, hsame, htext,
            (Option.some.inj hfault).symm⟩

/-- One more instruction. -/
theorem Tells.visit (site : CallSite) (h : Tells is s) (hi : i.WellShaped) :
    ∃ s', Survey.visit site s i = .ok s' ∧ Tells (is ++ [i]) s' := by
  by_cases hw : ∃ n f, i.Writes n f
  · obtain ⟨n, f, hw⟩ := hw
    rw [visit_of_writes hw]
    exact h.write hi hw
  · have hno : ∀ n f, ¬i.Writes n f := fun n f hnf => hw ⟨n, f, hnf⟩
    obtain ⟨s', hvisit, hwritten, hconflict, hdeclared⟩ := visit_of_not_writes site s hi hno
    have hsame : writesOf (is ++ [i]) = writesOf is := by
      rw [writesOf_append, writesOf_of_not_writes hno, List.append_nil]
    refine ⟨s', hvisit, fun n => ?_, fun n => ?_, fun hnone => ?_, fun fault hfault => ?_⟩
    · rw [hwritten, hsame, h.written n]
    · rw [hdeclared, h.declared n]
      rw [declarationsOf_concat]
      cases declares? n i with
      | none => rw [Option.toList_none, List.append_nil]
      | some d => rw [Option.toList_some, agreed_concat]
    · rw [hsame]
      exact h.agree (hconflict ▸ hnone)
    · exact (h.clash fault (hconflict ▸ hfault)).append

/-- The survey of well-shaped instructions comes to its end. -/
theorem exists_ofInsns (site : CallSite) (his : ∀ i ∈ is, i.WellShaped) :
    ∃ s, ofInsns site is = .ok s ∧ Tells is s := by
  have hrun : ∀ (js : List Insn) {seen : List Insn} {s₀ : Survey}, (∀ j ∈ js, j.WellShaped) →
      Tells seen s₀ → ∃ s, js.foldlM (Survey.visit site) s₀ = .ok s ∧ Tells (seen ++ js) s := by
    intro js
    induction js with
    | nil =>
      intro seen s₀ _ hs
      exact ⟨s₀, rfl, by rwa [List.append_nil]⟩
    | cons j js ih =>
      intro seen s₀ hjs hs
      obtain ⟨s₁, hvisit, hs₁⟩ := hs.visit site (hjs j List.mem_cons_self)
      obtain ⟨s, hrun, htells⟩ := ih (fun i hi => hjs i (List.mem_cons_of_mem _ hi)) hs₁
      refine ⟨s, ?_, by rwa [List.append_assoc, List.singleton_append] at htells⟩
      rw [List.foldlM_cons, hvisit]
      exact hrun
  exact hrun is his tells_empty

end Survey

/-! ### Slots -/

/-- The entries of the local variable table for the local agree on the descriptor. -/
def Listing.DeclaredAs (l : Listing) (n : UInt16) (desc : Text) : Prop :=
  Survey.declarationsOf l.insns n ≠ [] ∧ ∀ d ∈ Survey.declarationsOf l.insns n, d = desc

/-- Two writes leave values of different families in one local. -/
def Listing.Mixes (l : Listing) : Prop :=
  ∃ n f g, (n, f) ∈ l.writes ∧ (n, g) ∈ l.writes ∧ f ≠ g

/-- The slot holds values of the family. If these are references, it has the type that the local
variable table gives for its local, when this is a reference type that all entries agree on, and
otherwise the type of all objects. -/
structure Slot.Holds (l : Listing) (s : Slot) (f : Family) : Prop where
  load : s.load = f.load
  store : s.store = f.store
  plain : f ≠ .reference → s.desc = f.descriptor
  declared : ∀ d, f = .reference → Descriptor.isReference d = true →
  l.DeclaredAs s.index d → s.desc = d
  undeclared : f = .reference →
    (∀ d, Descriptor.isReference d = true → ¬l.DeclaredAs s.index d) → s.desc = "Ljava/lang/Object;"

namespace Survey

variable {l : Listing} {s : Survey} {n : UInt16} {f : Family}

theorem agreed_eq_iff {ds : List Text} {d : Text} :
    agreed ds = some (some d) ↔ ds ≠ [] ∧ ∀ e ∈ ds, e = d := by
  cases ds with
  | nil => simp [agreed]
  | cons e ds =>
    simp only [agreed, Option.some.injEq, List.forall_mem_cons, ne_eq, reduceCtorEq,
      not_false_eq_true,
      true_and]
    split
    · next hall =>
      rw [Option.some.injEq]
      exact ⟨fun h => ⟨h, fun x hx => (hall x hx).trans h⟩, And.left⟩
    · next hnot =>
      refine ⟨nofun, fun h => absurd (fun x hx => ?_) hnot⟩
      rw [h.2 x hx, h.1]

theorem find?_of_mem {table : List (UInt16 × Family)} (honce : table.Pairwise fun p q => p.1 ≠ q.1)
    (h : (n, f) ∈ table) : find? n table = some f := by
  obtain ⟨g, hg⟩ := exists_find? h
  have hmem := mem_of_find? hg
  have : Std.Symm fun p q : UInt16 × Family => p.1 ≠ q.1 := ⟨fun _ _ => Ne.symm⟩
  by_contra hne
  have hdiff : (n, g) ≠ (n, f) := fun heq => hne (hg.trans (congrArg some (Prod.mk.inj heq).2))
  exact honce.forall hmem h hdiff rfl

/-- The slot that is made for a write holds the values that are written. -/
theorem Tells.holds (h : Tells l.insns s) (name : Text) :
    Slot.Holds l ⟨n, s.slotDescriptor n f, name⟩ f := by
  obtain ⟨hfamily, -⟩ := s.slotDescriptor_family n f
  have hdeclared : ∀ d, find? n s.declared = some (some d) ↔ l.DeclaredAs n d := fun d => by
    rw [h.declared n, agreed_eq_iff]
    rfl
  refine ⟨congrArg Family.load hfamily, congrArg Family.store hfamily, fun hf => ?_,
    fun d hf href hd => ?_, fun hf hno => ?_⟩
  · unfold slotDescriptor
    split
    · exact absurd rfl hf
    · rfl
  · subst hf
    have hjoin : (find? n s.declared).join = some d := by
      rw [(hdeclared d).mpr hd, Option.join_some]
    simp only [slotDescriptor, hjoin, if_pos href]
  · subst hf
    cases hjoin : (find? n s.declared).join with
    | none =>
      simp only [slotDescriptor, hjoin]
      rfl
    | some d =>
      have href : ¬Descriptor.isReference d = true := fun href =>
        hno d href ((hdeclared d).mp (Option.join_eq_some_iff.mp hjoin))
      simp only [slotDescriptor, hjoin, if_neg href]
      rfl

end Survey

section Discover

variable {settings : Settings} {l : Listing} {method desc : Text} {states : States} {t : MethodType}

/-- What a listing writes are its assignments to locals other than the receiver. -/
theorem mem_writes_iff (hshape : ∀ i ∈ l.insns, i.WellShaped) (p : UInt16 × Family) :
    p ∈ l.writes ↔ p.1 ≠ 0 ∧ ∃ i ∈ l.insns, i.Assigns p.1 p.2 := by
  rw [Listing.mem_writes]
  constructor
  · rintro ⟨i, hi, hw⟩
    obtain ⟨hassigns, hzero⟩ := (Insn.writes_iff (hshape i hi)).mp hw
    exact ⟨hzero, i, hi, hassigns⟩
  · rintro ⟨hzero, i, hi, hassigns⟩
    exact ⟨i, hi, (Insn.writes_iff (hshape i hi)).mpr ⟨hassigns, hzero⟩⟩

/-- A write that does not fit is one of two that do not agree. -/
theorem Survey.Clash.mixes {fault : Fault} (h : Survey.Clash l.insns fault) : l.Mixes := by
  obtain ⟨front, i, back, text, n, f, g, hinsns, -, hw, hfirst, hne, -⟩ := h
  have hwrites : l.writes = Survey.writesOf front ++ Survey.writesOf (i :: back) := by
    rw [← Survey.writesOf_append, ← hinsns]
    rfl
  refine ⟨n, f, g, ?_, ?_, hne⟩
  · rw [hwrites]
    exact List.mem_append_left _ (Survey.mem_of_find? hfirst)
  · exact Listing.mem_writes.mpr ⟨i, by simp [hinsns], hw⟩

/-- A body is refused for a write that does not fit, if it suspends, and for nothing else. -/
theorem discover_cases (settings : Settings) (method : Text) (hshape : ∀ i ∈ l.insns, i.WellShaped)
    (hdesc : Descriptor.parse desc = .ok t) :
    (0 < l.yieldCount settings ∧ l.Mixes ∧
      ∃ fault, discover settings l method desc = Outcome.fail fault ∧ Survey.Clash l.insns fault) ∨
    ¬(0 < l.yieldCount settings ∧ l.Mixes) ∧ ∃ states,
    discover settings l method desc = .ok states := by
  obtain ⟨s, hs, htells⟩ := Survey.exists_ofInsns settings.yieldSite hshape
  have hyields : s.yields = l.yieldCount settings := by
    rw [(Survey.foldlM_visit_eq_ok hs).1]
    exact Nat.zero_add _
  rw [← hyields]
  simp only [discover, hdesc, hs, bind, Except.bind]
  cases hconflict : s.conflict with
  | none =>
    refine .inr ⟨fun h => ?_, _, rfl⟩
    obtain ⟨n, f, g, hf, hg, hne⟩ := h.2
    exact hne (Survey.agree_iff.mp (htells.agree hconflict) n f g hf hg)
  | some fault =>
    have hclash := htells.clash fault hconflict
    by_cases hpos : 0 < s.yields
    · exact .inl ⟨hpos, hclash.mixes, fault, if_pos hpos, hclash⟩
    · exact .inr ⟨fun h => hpos h.1, _, if_neg hpos⟩

/-- The slot of a local holds values of the family of the first write to it. -/
theorem holds_of_discover (hshape : ∀ i ∈ l.insns, i.WellShaped)
    (h : discover settings l method desc = .ok states) {r : Slot} (hr : r ∈ states.slots) :
    ∃ f, Survey.find? r.index l.writes = some f ∧ r.Holds l f := by
  obtain ⟨s, hs, rfl⟩ := discover_eq_ok h
  obtain ⟨s', hs', htells⟩ := Survey.exists_ofInsns settings.yieldSite hshape
  obtain rfl := Except.ok.inj (hs.symm.trans hs')
  rcases Slot.mem_of_mem_foldl_insert hr with hr | hr
  · obtain ⟨⟨n, f⟩, hp, rfl⟩ := List.mem_map.mp hr
    have hfirst := Survey.find?_of_mem (Survey.records_ofInsns hs).once hp
    exact ⟨f, (htells.written n).symm.trans hfirst, htells.holds _⟩
  · cases hr

/-- **Which locals are captured.** For well-shaped instructions and a descriptor that can be read,
what a body needs is told by its writes, which are the assignments to locals other than the
receiver. It is refused if and only if it suspends and leaves values of different families in a
local; the fault names the first write that does not fit. Otherwise it has as many states as yield
calls, all fresh, and a slot for each local that it writes and for no other, in ascending order. A
slot is kept in the field for its local and holds values of the family of the first write. If the
body suspends, this is the family of all writes to the local, so nothing that it writes is lost. -/
theorem discover_captures (settings : Settings) (method : Text)
    (hshape : ∀ i ∈ l.insns, i.WellShaped)
    (hdesc : Descriptor.parse desc = .ok t) :
    (∀ p, p ∈ l.writes ↔ p.1 ≠ 0 ∧ ∃ i ∈ l.insns, i.Assigns p.1 p.2) ∧
    ((∃ fault, discover settings l method desc = Outcome.fail fault) ↔
      0 < l.yieldCount settings ∧ l.Mixes) ∧
    (∀ fault, discover settings l method desc = Outcome.fail fault → Survey.Clash l.insns fault) ∧
    (¬(0 < l.yieldCount settings ∧ l.Mixes) → ∃ states,
      discover settings l method desc = .ok states ∧
      states.labels = Array.replicate (l.yieldCount settings) none ∧
      states.remaining = l.yieldCount settings ∧
      states.slots.Pairwise (·.index < ·.index) ∧
      (∀ n, (∃ s ∈ states.slots, s.index = n) ↔ ∃ f, (n, f) ∈ l.writes) ∧
      (∀ s ∈ states.slots, s.name = settings.slotFieldName method s.index ∧
        ∃ f, Survey.find? s.index l.writes = some f ∧ s.Holds l f) ∧
      (0 < l.yieldCount settings →
        ∀ p ∈ l.writes, ∃ s ∈ states.slots, s.index = p.1 ∧ s.Holds l p.2)) := by
  refine ⟨mem_writes_iff hshape, ?_⟩
  rcases discover_cases settings method hshape hdesc with
    ⟨hpos, hmixes, fault, hfail, hclash⟩ | ⟨hno, states, h⟩
  · refine ⟨⟨fun _ => ⟨hpos, hmixes⟩, fun _ => ⟨fault, hfail⟩⟩, fun fault' hfail' => ?_,
      fun hno => absurd ⟨hpos, hmixes⟩ hno⟩
    obtain rfl : fault = fault' := by
      rw [hfail] at hfail'
      injection hfail' with heq
      injection heq
    exact hclash
  · -- a body that is surveyed is not refused as well
    have hok : ∀ fault, discover settings l method desc ≠ Outcome.fail fault := by
      intro fault hfail
      rw [h] at hfail
      cases hfail
    obtain ⟨hlabels, hremaining⟩ := fresh_of_discover h
    have hslot : ∀ p ∈ l.writes, ∃ s ∈ states.slots, s.index = p.1 := by
      intro p hp
      obtain ⟨i, hi, hw⟩ := Listing.mem_writes.mp hp
      exact exists_slot_of_discover h hi hw.1
    refine ⟨⟨fun ⟨fault, hfail⟩ => absurd hfail (hok fault), fun hyes => absurd hyes hno⟩,
      fun fault hfail => absurd hfail (hok fault), fun _ => ⟨states, h, hlabels, hremaining,
        slots_pairwise_of_discover h, fun n => ⟨?_, ?_⟩, fun s hs =>
        ⟨(slot_of_discover h hs).2, holds_of_discover hshape h hs⟩, fun hpos p hp => ?_⟩⟩
    · rintro ⟨s, hs, rfl⟩
      obtain ⟨f, hfirst, -⟩ := holds_of_discover hshape h hs
      exact ⟨f, Survey.mem_of_find? hfirst⟩
    · rintro ⟨f, hf⟩
      exact hslot (n, f) hf
    · obtain ⟨s, hs, hindex⟩ := hslot p hp
      obtain ⟨f, hfirst, hholds⟩ := holds_of_discover hshape h hs
      -- a second family in the local would have been a mix
      have hsame : f = p.2 := by
        by_contra hne
        exact hno ⟨hpos, p.1, f, p.2, hindex ▸ Survey.mem_of_find? hfirst, hp, hne⟩
      exact ⟨s, hs, hindex, hsame ▸ hholds⟩

/-- Keeps a reference with a declared type, a counter, and a reference with two. -/
def keeping : Listing :=
  Listing.ofInsns 2 [.place 0, .plain .aconstNull, .plain (Family.reference.compactStore 1),
    .plain .iconst0, .load .istore 2, ⟨.iinc, .increment 2 1⟩, .plain .aconstNull, .load .astore 3,
    .load .aload 0, .call .invokeVirtual "Seq" "yieldReturn" "()V", .plain .iconst0,
    .plain .ireturn,
    .place 1, ⟨.localVariable, .localVariable "name" "Ljava/lang/String;" 0 1 1⟩,
    ⟨.localVariable, .localVariable "small" "[I" 0 1 3⟩,
    ⟨.localVariable, .localVariable "large" "[J" 0 1 3⟩]

theorem discover_captures_keeping : (∀ i ∈ keeping.insns, i.WellShaped) ∧
    Descriptor.parse "()Z" = .ok ⟨[], "Z"⟩ ∧ ¬(0 < keeping.yieldCount {} ∧ keeping.Mixes) ∧
    ∃ states, discover {} keeping "next" "()Z" = .ok states ∧ states.remaining = 1 ∧
      (∀ p ∈ keeping.writes, ∃ s ∈ states.slots, s.index = p.1 ∧ s.Holds keeping p.2) ∧
      ∃ s ∈ states.slots, s.index = 1 ∧ s.desc = "Ljava/lang/String;" := by
  have hshape : ∀ i ∈ keeping.insns, i.WellShaped := by decide +kernel
  have hdesc : Descriptor.parse "()Z" = .ok ⟨[], "Z"⟩ := rfl
  have hagree : ∀ p ∈ keeping.writes, Survey.find? p.1 keeping.writes = some p.2 := by
    decide +kernel
  have hno : ¬(0 < keeping.yieldCount {} ∧ keeping.Mixes) := by
    rintro ⟨-, n, f, g, hf, hg, hne⟩
    exact hne (Survey.agree_iff.mp hagree n f g hf hg)
  obtain ⟨-, -, -, hstates⟩ := discover_captures {} "next" hshape hdesc
  obtain ⟨states, h, -, hremaining, -, -, -, hall⟩ := hstates hno
  have hcount : keeping.yieldCount {} = 1 := by decide +kernel
  have hall := hall (by omega)
  refine ⟨hshape, hdesc, hno, states, h, hremaining.trans hcount, hall, ?_⟩
  obtain ⟨s, hs, hindex, hholds⟩ := hall (1, .reference) (by decide +kernel)
  refine ⟨s, hs, hindex, hholds.declared _ rfl rfl ?_⟩
  rw [hindex]
  exact ⟨by decide +kernel, by decide +kernel⟩

end Discover

end ClassWeaver
