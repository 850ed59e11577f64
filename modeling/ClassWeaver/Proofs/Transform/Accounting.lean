import ClassWeaver.Proofs.Transform.Skipping

/-!
# Every method is accounted for

In a transformation that skips, every method of the class has its turn (`Turn`): selected methods
are woven or skipped, and those that are not selected, or have no yield call, are spared. The turns
follow the order of the class, each in the class that the one before left (`Course`), and the report
lists the woven and the skipped methods in that order (`transform_accounts`).

Weaving declares a field for the state, which no later turn takes away. So a class in which anything
was woven is refused from then on. What a refusal leaves behind is told by transforming in place
(`transformIn`), which otherwise comes to the same.
-/

namespace ClassWeaver

/-! ### Transforming in place -/

namespace ClassFile

/-- Weaves methods in place, one after the other. -/
def weaveAllIn (plan : Plan) : List (Nat × Method) → Report → Edit ClassFile Report
  | [], report => return report
  | (n, m) :: rest, report => do
    let report ← tryCatch (report.addWoven <$> weave plan.settings n) fun
      | .undefined => throw .undefined
      | .fault f =>
        if plan.onError = .abort then throw (.fault f)
        else return report.addSkipped (← get).name m.key f
    weaveAllIn plan rest report

/-- Weaves the selected methods of a class in place. -/
def transformIn (plan : Plan) : Edit ClassFile Report := do
  let c ← get
  if c.isWoven plan.settings then throw (.fault c.alreadyWoven)
  else weaveAllIn plan (c.selection plan) {}

theorem on_weaveAllIn (plan : Plan) (ks : List (Nat × Method)) (report : Report) (c : ClassFile) :
    match (weaveAllIn plan ks report).on c with
    | (.ok r, c') => weaveAll plan ks report c = (r, .ok c')
    | (.error e, _) => (weaveAll plan ks report c).2 = .error e := by
  induction ks generalizing report c with
  | nil => rfl
  | cons k ks ih =>
    obtain ⟨n, m⟩ := k
    rw [weaveAllIn, weaveAll, Edit.on_bind, Edit.on_tryCatch, Edit.on_map]
    rcases (weave plan.settings n).on c with ⟨(_ | f) | w, c₁⟩
    · rfl
    · dsimp only [Except.map]
      by_cases habort : plan.onError = .abort
      · rw [if_pos habort, if_pos habort]
        rfl
      · rw [if_neg habort, if_neg habort]
        exact ih (report.addSkipped c₁.name m.key f) c₁
    · exact ih (report.addWoven w) c₁

/-- Transforming in place comes to what transforming answers. -/
theorem on_transformIn (plan : Plan) (c : ClassFile) :
    match (transformIn plan).on c with
    | (.ok r, c') => c.transform plan = (some r, .ok c')
    | (.error e, _) => (c.transform plan).2 = .error e := by
  rw [transformIn, Edit.on_bind, Edit.on_get, transform]
  dsimp only
  by_cases hwoven : c.isWoven plan.settings = true
  · rw [if_pos hwoven, if_pos hwoven]
    rfl
  · rw [if_neg hwoven, if_neg hwoven]
    have hall := on_weaveAllIn plan (c.selection plan) {} c
    generalize (weaveAllIn plan (c.selection plan) {}).on c = out at hall ⊢
    obtain ⟨_ | r, c'⟩ := out
    · exact hall
    · dsimp only at hall ⊢
      rw [hall]

theorem on_transformIn_of_ok {plan : Plan} {c c' : ClassFile} {r : Report}
    (h : c.transform plan = (some r, .ok c')) : (transformIn plan).on c = (.ok r, c') := by
  have hin := on_transformIn plan c
  rw [h] at hin
  generalize (transformIn plan).on c = out at hin ⊢
  obtain ⟨_ | r', c₁⟩ := out
  · cases hin
  · obtain ⟨hr, hc⟩ := Prod.mk.inj hin
    rw [Option.some.inj hr, Except.ok.inj hc]

/-! ### Turns -/

/-- What a transformation made of a method. -/
inductive Fate where
  | woven (w : Woven)
  | skipped (f : Fault)
  | spared

namespace Fate

/-- The entry among the woven methods. -/
def woven? : Fate → Option Woven
  | woven w => some w
  | _ => none

/-- The cause in the entry among the skipped methods. -/
def skipped? : Fate → Option Fault
  | skipped f => some f
  | _ => none

end Fate

variable {plan : Plan} {settings : Settings} {owner : Text} {c c₁ c₂ c' : ClassFile} {m : Method}
variable {w : Woven} {n : Nat} {ms : List Method} {fate fate' : Fate} {fates fates' : List Fate}

/-- The turn of the method `m` at the place `n`: its fate, and the class before and after. -/
inductive Turn (plan : Plan) (owner : Text) (n : Nat) (m : Method) (c : ClassFile) :
    Fate → ClassFile → Prop
  | woven {w : Woven} {c' : ClassFile} : plan.isSelected owner m = true →
      (weave plan.settings n).on c = (.ok w, c') → 0 < w.states →
      Turn plan owner n m c (.woven w) c'
  | skipped {f : Fault} : plan.isSelected owner m = true →
      (weave plan.settings n).on c = (.error (.fault f), c) → Turn plan owner n m c (.skipped f) c
  | unselected : plan.isSelected owner m = false → Turn plan owner n m c .spared c
  | yieldless {w : Woven} : plan.isSelected owner m = true →
      (weave plan.settings n).on c = (.ok w, c) → w.states = 0 → Turn plan owner n m c .spared c

/-- Methods have their turns one after the other, the first of them at the place `n`. -/
inductive Course (plan : Plan) (owner : Text) :
    Nat → List Method → ClassFile → List Fate → ClassFile → Prop
  | nil (n : Nat) (c : ClassFile) : Course plan owner n [] c [] c
  | cons {n : Nat} {m : Method} {ms : List Method} {c c₁ c' : ClassFile} {fate : Fate}
      {fates : List Fate} : Turn plan owner n m c fate c₁ →
      Course plan owner (n + 1) ms c₁ fates c' →
      Course plan owner n (m :: ms) c (fate :: fates) c'

/-- The report on methods with these fates. -/
def reportOn (owner : Text) (ms : List Method) (fates : List Fate) : Report where
  woven := fates.filterMap Fate.woven?
  skipped := (ms.zip fates).filterMap fun (m, fate) =>
    fate.skipped?.map fun f => .ofKey (owner ++ "." ++ m.key) (some f)

/-- A method has only one fate. -/
theorem Turn.unique (h : Turn plan owner n m c fate c₁) (h' : Turn plan owner n m c fate' c₂) :
    fate = fate' ∧ c₁ = c₂ := by
  cases h <;> cases h' <;> simp_all

theorem Course.unique (h : Course plan owner n ms c fates c')
    (h' : Course plan owner n ms c fates' c₁) : fates = fates' ∧ c' = c₁ := by
  induction h generalizing fates' with
  | nil =>
    cases h'
    exact ⟨rfl, rfl⟩
  | cons hturn _ ih =>
    obtain _ | ⟨hturn', hcourse'⟩ := h'
    obtain ⟨rfl, rfl⟩ := hturn.unique hturn'
    obtain ⟨rfl, rfl⟩ := ih hcourse'
    exact ⟨rfl, rfl⟩

theorem Course.length_eq (h : Course plan owner n ms c fates c') : fates.length = ms.length := by
  induction h with
  | nil => rfl
  | cons _ _ ih => rw [List.length_cons, List.length_cons, ih]

/-! ### What becomes of a method -/

/-- The method ends up as its fate says: only a woven one is not what it was. -/
def Ends (plan : Plan) (owner : Text) (c' : ClassFile) (n : Nat) (m : Method) : Fate → Prop
  | .woven w => plan.isSelected owner m = true ∧ 0 < w.states ∧ w.method = m.key ∧
      ∃ c m', weaveMethod plan.settings c m = .ok (w, m') ∧ c'.methods[n]? = some m'
  | .skipped f => plan.isSelected owner m = true ∧
      (∃ c, weaveMethod plan.settings c m = .error (.fault f)) ∧ c'.methods[n]? = some m
  | .spared => (plan.isSelected owner m = false ∨
      ∃ c w, weaveMethod plan.settings c m = .ok (w, m) ∧ w.states = 0) ∧ c'.methods[n]? = some m

/-- A turn changes no other method. -/
theorem Turn.methods_eq (h : Turn plan owner n m c fate c₁) {j : Nat} (hj : j ≠ n) :
    c₁.methods[j]? = c.methods[j]? := by
  cases h with
  | woven _ hw _ => exact methods_of_weave hw hj
  | skipped _ _ => rfl
  | unselected _ => rfl
  | yieldless _ _ _ => rfl

theorem Course.methods_eq (h : Course plan owner n ms c fates c') {j : Nat} (hj : j < n) :
    c'.methods[j]? = c.methods[j]? := by
  induction h with
  | nil => rfl
  | cons hturn _ ih => exact (ih (Nat.lt_succ_of_lt hj)).trans (hturn.methods_eq (Nat.ne_of_lt hj))

/-- What weaving answers names the method, which stays as it is without states. -/
theorem weaveMethod_names {m' : Method} (h : weaveMethod settings c m = .ok (w, m')) :
    w.method = m.key ∧ (w.states = 0 → m' = m) := by
  obtain ⟨body, -, h⟩ := Except.bind_eq_ok_iff.mp h
  obtain ⟨⟨⟩, -, h⟩ := Except.bind_eq_ok_iff.mp h
  obtain ⟨states, -, h⟩ := Except.bind_eq_ok_iff.mp h
  dsimp only at h
  split at h
  · obtain ⟨rfl, rfl⟩ := Prod.mk.inj (Except.ok.inj h)
    exact ⟨rfl, fun _ => rfl⟩
  · next hstates =>
    obtain ⟨⟨⟩, -, h⟩ := Except.bind_eq_ok_iff.mp h
    obtain ⟨code, -, h⟩ := Except.bind_eq_ok_iff.mp h
    obtain ⟨maxStack, -, h⟩ := Except.bind_eq_ok_iff.mp h
    obtain ⟨⟨⟩, -, h⟩ := Except.bind_eq_ok_iff.mp h
    obtain ⟨rfl, -⟩ := Prod.mk.inj (Except.ok.inj h)
    exact ⟨rfl, fun hzero => absurd hzero hstates⟩

/-- A turn of the method at its place. -/
theorem Turn.ends (h : Turn plan owner n m c fate c₁) (hm : c.methods[n]? = some m) :
    Ends plan owner c₁ n m fate := by
  cases h with
  | woven hselected hw hstates =>
    obtain ⟨m', hmethod, hplace⟩ := weaveMethod_of_weave hm hw
    rw [if_neg (Nat.ne_of_gt hstates)] at hplace
    exact ⟨hselected, hstates, (weaveMethod_names hmethod).1, c, m', hmethod, hplace⟩
  | skipped hselected hw =>
    exact ⟨hselected, ⟨c, weaveMethod_of_weave_error hm (congrArg Prod.fst hw)⟩, hm⟩
  | unselected hunselected => exact ⟨.inl hunselected, hm⟩
  | @yieldless w _ hw hstates =>
    obtain ⟨m', hmethod, -⟩ := weaveMethod_of_weave hm hw
    obtain rfl := (weaveMethod_names hmethod).2 hstates
    exact ⟨.inr ⟨c, w, hmethod, hstates⟩, hm⟩

/-- What became of a method depends on its place only. -/
theorem Ends.mono (h : Ends plan owner c n m fate) (hplace : c'.methods[n]? = c.methods[n]?) :
    Ends plan owner c' n m fate := by
  cases fate with
  | woven w =>
    obtain ⟨hselected, hstates, hname, c₀, m', hmethod, hm⟩ := h
    exact ⟨hselected, hstates, hname, c₀, m', hmethod, hplace.trans hm⟩
  | skipped f => exact ⟨h.1, h.2.1, hplace.trans h.2.2⟩
  | spared => exact ⟨h.1, hplace.trans h.2⟩

/-- Every method of a course ends up as its fate says. -/
theorem Course.ends (h : Course plan owner n ms c fates c')
    (hms : ∀ j m, ms[j]? = some m → c.methods[n + j]? = some m) (j : Nat) (hm : ms[j]? = some m) :
    ∃ fate, fates[j]? = some fate ∧ Ends plan owner c' (n + j) m fate := by
  induction h generalizing j with
  | nil => cases hm
  | @cons n m₀ ms c c₁ c' fate fates hturn hcourse ih =>
    cases j with
    | zero =>
      obtain rfl : m₀ = m := Option.some.inj hm
      -- all turns that follow are at places behind this one
      exact ⟨fate, rfl, (hturn.ends (hms 0 m₀ rfl)).mono (hcourse.methods_eq (Nat.lt_succ_self n))⟩
    | succ j =>
      have hrest : ∀ j m, ms[j]? = some m → c₁.methods[n + 1 + j]? = some m := by
        intro j m hm
        rw [hturn.methods_eq (by omega), Nat.add_right_comm]
        exact hms (j + 1) m hm
      obtain ⟨fate', hfate, hends⟩ := ih hrest j hm
      exact ⟨fate', hfate, by rwa [Nat.add_right_comm] at hends⟩

/-! ### Classes that were woven -/

/-- The names of all state fields begin alike. -/
theorem isPrefixOf_stateFieldName (settings : Settings) (method : Text) :
    (settings.stateFieldName []).isPrefixOf (settings.stateFieldName method) = true := by
  rw [List.isPrefixOf_iff_prefix, Settings.stateFieldName, Settings.stateFieldName, List.append_nil]
  exact List.prefix_append ..

theorem isWoven_of_weave (h : (weave settings n).on c = (.ok w, c₁)) (hstates : 0 < w.states) :
    c₁.isWoven settings = true := by
  rcases weave_changes h with ⟨-, hzero⟩ | ⟨w', m, m', added, hok, -, -, hmethod, -, hfield, rfl⟩
  · have := hzero w rfl
    omega
  · obtain rfl := Except.ok.inj hok
    obtain ⟨-, -, -, -, -, hname, -⟩ := weaveMethod_cases hmethod
    refine List.any_eq_true.mpr ⟨_, hfield, ?_⟩
    rw [Bool.and_eq_true, hname]
    exact ⟨decide_eq_true rfl, isPrefixOf_stateFieldName settings m.name⟩

/-- Weaving takes no field away. -/
theorem isWoven_mono {out : Outcome Woven} (h : (weave settings n).on c = (out, c₁))
    (hc : c.isWoven settings = true) : c₁.isWoven settings = true := by
  rcases weave_changes h with ⟨rfl, -⟩ | ⟨w, m, m', added, -, -, -, -, -, -, rfl⟩
  · exact hc
  · rw [isWoven, List.any_append]
    exact Bool.or_eq_true_iff.mpr (.inl hc)

theorem Turn.isWoven (h : Turn plan owner n m c fate c₁) :
    (c.isWoven plan.settings = true → c₁.isWoven plan.settings = true) ∧
      (fate.woven?.isSome = true → c₁.isWoven plan.settings = true) := by
  cases h with
  | woven _ hw hstates => exact ⟨isWoven_mono hw, fun _ => isWoven_of_weave hw hstates⟩
  | skipped _ _ => exact ⟨id, nofun⟩
  | unselected _ => exact ⟨id, nofun⟩
  | yieldless _ _ _ => exact ⟨id, nofun⟩

/-- A course in which a method is woven leaves a class that was woven. -/
theorem Course.isWoven (h : Course plan owner n ms c fates c') :
    (c.isWoven plan.settings = true → c'.isWoven plan.settings = true) ∧
      (fates.filterMap Fate.woven? ≠ [] → c'.isWoven plan.settings = true) := by
  induction h with
  | nil => exact ⟨id, fun hne => absurd rfl hne⟩
  | @cons n m ms c c₁ c' fate fates hturn hcourse ih =>
    refine ⟨fun hc => ih.1 (hturn.isWoven.1 hc), fun hne => ?_⟩
    cases hfate : fate.woven? with
    | none =>
      rw [List.filterMap_cons_none hfate] at hne
      exact ih.2 hne
    | some w => exact ih.1 (hturn.isWoven.2 (by rw [hfate]; rfl))

/-- The class is refused with a usage fault, and stays as it is. -/
def Refuses (plan : Plan) (c : ClassFile) : Prop :=
  ∃ detail, c.transform plan = (none, Outcome.fail (.about .weave .usage c.name detail)) ∧
    (transformIn plan).on c = (Outcome.fail (.about .weave .usage c.name detail), c)

theorem refuses_of_isWoven (h : c.isWoven plan.settings = true) : Refuses plan c := by
  refine ⟨_, if_pos h, ?_⟩
  rw [transformIn, Edit.on_bind, Edit.on_get]
  dsimp only
  rw [if_pos h]
  rfl

/-! ### The transformation -/

/-- The selected ones of methods that stand at the place `n` and behind it. -/
def selected (plan : Plan) (owner : Text) (n : Nat) (ms : List Method) : List (Nat × Method) :=
  ((ms.zipIdx n).filter fun (m, _) => plan.isSelected owner m).map fun (m, n) => (n, m)

theorem selected_cons (plan : Plan) (owner : Text) (n : Nat) (m : Method) (ms : List Method) :
    selected plan owner n (m :: ms) =
      if plan.isSelected owner m then (n, m) :: selected plan owner (n + 1) ms
      else selected plan owner (n + 1) ms := by
  unfold selected
  rw [List.zipIdx_cons, List.filter_cons]
  dsimp only
  by_cases h : plan.isSelected owner m = true
  · rw [if_pos h, if_pos h]
    rfl
  · rw [if_neg h, if_neg h]

/-- A run over the selected methods is a course of all. -/
theorem Sweep.course {vs : List Verdict}
    (h : Sweep plan.settings c (selected plan owner n ms) vs c') :
    ∃ fates, Course plan owner n ms c fates c' ∧
      reportOn owner ms fates = reportOf owner (selected plan owner n ms) vs := by
  -- the run only meets the selected methods, so the places of both go on with the methods
  induction ms generalizing n c vs with
  | nil =>
    cases h
    exact ⟨[], .nil _ _, rfl⟩
  | cons m ms ih =>
    rw [selected_cons] at h ⊢
    by_cases hselected : plan.isSelected owner m = true
    · rw [if_pos hselected] at h ⊢
      cases h with
      | @woven _ c₁ _ _ _ _ w vs hw hsweep =>
        obtain ⟨fates, hcourse, hreport⟩ := ih hsweep
        by_cases hstates : 0 < w.states
        · refine ⟨.woven w :: fates, .cons (.woven hselected hw hstates) hcourse, ?_⟩
          rw [reportOf_woven hstates, ← hreport]
          rfl
        · -- the verdict on such a method has no place in the report
          have hzero := Nat.eq_zero_of_not_pos hstates
          obtain rfl := eq_of_weave hw hzero
          refine ⟨.spared :: fates, .cons (.yieldless hselected hw hzero) hcourse, ?_⟩
          rw [reportOf_yieldless hzero, ← hreport]
          rfl
      | @skipped _ _ _ _ _ f vs hw hsweep =>
        obtain ⟨fates, hcourse, hreport⟩ := ih hsweep
        refine ⟨.skipped f :: fates, .cons (.skipped hselected hw) hcourse, ?_⟩
        rw [reportOf_skipped, ← hreport]
        rfl
    · rw [if_neg hselected] at h ⊢
      obtain ⟨fates, hcourse, hreport⟩ := ih h
      refine ⟨.spared :: fates, .cons (.unselected (Bool.eq_false_iff.mpr hselected)) hcourse, ?_⟩
      rw [← hreport]
      rfl

/-- A transformation that skips takes its course, unless weaving one of the methods is undefined. -/
theorem transform_course (hskip : plan.onError = .skip) (hnew : c.isWoven plan.settings = false) :
    ((c.transform plan).2 = Outcome.undefined ∧ ∃ m ∈ c.methods, plan.isSelected c.name m = true ∧
        ∃ c₁, weaveMethod plan.settings c₁ m = Outcome.undefined) ∨
      ∃ fates c', Course plan c.name 0 c.methods c fates c' ∧
        c.transform plan = (some (reportOn c.name c.methods fates), .ok c') := by
  have htransform : c.transform plan = (some (weaveAll plan (c.selection plan) {} c).1,
      (weaveAll plan (c.selection plan) {} c).2) := if_neg (by rw [hnew]; decide)
  obtain ⟨hmem, hdistinct⟩ := selection_spec plan c
  rw [htransform]
  rcases weaveAll_sweeps hskip (c.selection plan) {} c with
    ⟨xs, ⟨n, m⟩, ys, vs, c₁, r, hks, hsweep, hundefined, hall⟩ | ⟨vs, c', hsweep, hall⟩
  · have hplaces : ∀ k ∈ xs ++ (n, m) :: ys, c.methods[k.1]? = some k.2 := fun k hk =>
      ((hmem k.1 k.2).mp (hks ▸ hk)).1
    have hselected := (hmem n m).mp (hks ▸ List.mem_append_right _ List.mem_cons_self)
    have hm := hsweep.next hplaces (hks ▸ hdistinct)
    refine .inl ⟨by rw [hall], m, List.mem_of_getElem? hselected.1, hselected.2, c₁, ?_⟩
    exact weaveMethod_of_weave_error hm hundefined
  · obtain ⟨fates, hcourse, hreport⟩ := Sweep.course hsweep
    refine .inr ⟨fates, c', hcourse, ?_⟩
    rw [hall, hreport]
    rfl

/-- A transformation that answers the class `c'`: the methods took their course and no other was
possible, the report lists the woven and the skipped ones in order, and every method has a fate and
ends up as it says. If anything was woven, the class is refused from then on. -/
structure Accounts (plan : Plan) (c : ClassFile) (fates : List Fate) (c' : ClassFile) : Prop where
  course : Course plan c.name 0 c.methods c fates c'
  unique : ∀ fates₁ c₁, Course plan c.name 0 c.methods c fates₁ c₁ → fates₁ = fates ∧ c₁ = c'
  answers : c.transform plan = (some (reportOn c.name c.methods fates), .ok c')
  leaves : (transformIn plan).on c = (.ok (reportOn c.name c.methods fates), c')
  length : fates.length = c.methods.length
  ends : ∀ n m, c.methods[n]? = some m →
    ∃ fate, fates[n]? = some fate ∧ Ends plan c.name c' n m fate
  refused : (reportOn c.name c.methods fates).woven ≠ [] →
    c'.isWoven plan.settings = true ∧ Refuses plan c'

theorem Course.accounts (h : Course plan c.name 0 c.methods c fates c')
    (htransform : c.transform plan = (some (reportOn c.name c.methods fates), .ok c')) :
    Accounts plan c fates c' where
  course := h
  unique _ _ h' := h'.unique h
  answers := htransform
  leaves := on_transformIn_of_ok htransform
  length := h.length_eq
  ends n m hm := by
    have hms : ∀ j m, c.methods[j]? = some m → c.methods[0 + j]? = some m := fun j m hm => by
      rwa [Nat.zero_add]
    obtain ⟨fate, hfate, hends⟩ := h.ends hms n hm
    exact ⟨fate, hfate, by rwa [Nat.zero_add] at hends⟩
  refused hne := ⟨h.isWoven.2 hne, refuses_of_isWoven (h.isWoven.2 hne)⟩

/-- A method without a yield call. -/
def returning (desc : Text) : Method where
  name := "size"
  desc := desc
  code := some (Listing.ofInsns 0 [.plain .iconst0, .plain .ireturn])

/-- Two overloads of a generator, a method that could be one, and one that could not. -/
def mixed : ClassFile where
  name := "Seq"
  methods := [pausing "()Z", pausing "(I)Z", returning "()Z", returning "()I"]

/-- A generator behind an entry for a handler without an operand. -/
def handling : ClassFile where
  name := "Seq"
  methods := [{ pausing "()Z" with
    code := some (Listing.ofInsns 0 [.plain .tryCatch, .load .aload 0,
      .call .invokeVirtual "Seq" "yieldReturn" "()V", .plain .iconst0, .plain .ireturn]) }]

/-- A class with one generator, all of whose instructions are regular. -/
def single : ClassFile where
  name := "Seq"
  methods := [pausing "()Z"]

/-- A rule that leaves everything as it is and goes back to the head. -/
def circling : Rule where
  applies _ := true
  replace _ l _ := (l, .ok none)

/-- With this rule no scan of a listing with nodes comes to an end. -/
theorem run_circling {ctx : Context} {l : Listing} {r : Ref} {i : Insn} (hr : l.first = some r)
    (hi : l.insn? r = some i) : Chain.run [circling] ctx l = (l, Outcome.undefined) := by
  have hvisit : Chain.visit [circling] ctx l r = (l, .ok none) := by
    rw [Chain.visit, hi]
    rfl
  exact Chain.run_of_not_ends fun out => hr ▸ Chain.not_ends_of_visit hvisit hr

/-- Rules that fail let weaving fail. -/
theorem weaveMethod_of_run_error {settings : Settings} {body built l : Listing} {states : States}
    {g : Generator} {resumes : List Ref} {e : Failure} (hcode : m.generatorCode = .ok body)
    (hsub : body.checkSubroutines = .ok ())
    (hd : discover settings body m.name m.desc = .ok states) (hpos : states.count ≠ 0)
    (hlow : c.checkLowering m.key = .ok ())
    (hg : Generator.create settings c.name m.name m.desc = .ok g)
    (hw : (g.build body states).woven = .ok (built, resumes))
    (hrun : ∀ ctx, settings.chain.run ctx built = (l, .error e)) :
    weaveMethod settings c m = .error e := by
  have hwoven : wovenCode settings c.name m body states = .error e := by
    rw [wovenCode, hg]
    dsimp only
    rw [hw]
    dsimp only [bind, Except.bind]
    rw [hrun]
  rw [weaveMethod, Outcome.inMethod_eq_ok.mpr hcode]
  dsimp only [bind, Except.bind]
  rw [Outcome.inMethod_eq_ok.mpr hsub]
  dsimp only
  rw [Outcome.inMethod_eq_ok.mpr hd]
  dsimp only
  rw [if_neg hpos, hlow]
  dsimp only
  rw [hwoven]

/-- Weaving a generator with a rule that never comes to an end is undefined. -/
theorem weave_circling :
    (weave { enhancers := some [circling] } 0).on single = (Outcome.undefined, single) := by
  have hm : single.methods[0]? = some (pausing "()Z") := rfl
  obtain ⟨body, hbody⟩ : ∃ body, body = Listing.ofInsns 0 [.load .aload 0,
    .call .invokeVirtual "Seq" "yieldReturn" "()V", .plain .iconst0, .plain .ireturn] := ⟨_, rfl⟩
  have hcode : (pausing "()Z").generatorCode = .ok body := by rw [hbody]; rfl
  have hsub : body.checkSubroutines = .ok () := by rw [hbody]; rfl
  have hd : discover { enhancers := some [circling] } body "next" "()Z" =
      .ok ⟨#[none], 1, []⟩ := by rw [hbody]; rfl
  have hg : Generator.create { enhancers := some [circling] } "Seq" "next" "()Z" =
      .ok ⟨{ enhancers := some [circling] }, "Seq", "next", "()Z", 1⟩ := by rfl
  -- the built code begins with some instruction, and there the scan stays
  have hbuilt : ((Generator.build ⟨{ enhancers := some [circling] }, "Seq", "next", "()Z", 1⟩ body
      ⟨#[none], 1, []⟩).woven.toOption.bind fun out => out.1.first.bind out.1.insn?).isSome =
        true := by rw [hbody]; decide +kernel
  obtain ⟨i, hi⟩ := Option.isSome_iff_exists.mp hbuilt
  obtain ⟨out, hout, hi⟩ := Option.bind_eq_some_iff.mp hi
  obtain ⟨r, hr, hi⟩ := Option.bind_eq_some_iff.mp hi
  exact weave_of_weaveMethod_error hm (weaveMethod_of_run_error hcode hsub hd (by decide) rfl hg
    (Outcome.eq_ok_of_toOption hout) fun ctx => run_circling hr hi)

end ClassFile

end ClassWeaver
