import ClassWeaver.Proofs.Codec.Rereading
import ClassWeaver.Proofs.Transform.Defined

/-!
# Skipping methods that cannot be woven

A transformation that skips goes over all selected methods, whatever becomes of each. `Sweep` is
such a run: a method that cannot be woven leaves the class as it is and only its fault behind. Such
a run never ends early unless weaving a method is undefined (`weaveAll_sweeps`), which it is not on
a class that was read. What the transformation answers follows from the verdicts on the methods and
from whether the class can be written in the end (`transform_skips`). -/

namespace ClassWeaver

variable {settings : Settings} {plan : Plan} {c c₁ c' : ClassFile} {m m' : Method} {w : Woven}
variable {n : Nat}

/-- What became of a method: its woven form, or why it could not be woven. -/
abbrev Verdict := Except Fault Woven

namespace ClassFile

/-- Methods are woven one after the other, each in the class that those in front of it left. -/
inductive Sweep (settings : Settings) :
    ClassFile → List (Nat × Method) → List Verdict → ClassFile → Prop
  | nil (c : ClassFile) : Sweep settings c [] [] c
  | woven {c c₁ c' : ClassFile} {n : Nat} {m : Method} {ks : List (Nat × Method)} {w : Woven}
      {vs : List Verdict} : (weave settings n).on c = (.ok w, c₁) → Sweep settings c₁ ks vs c' →
      Sweep settings c ((n, m) :: ks) (.ok w :: vs) c'
  | skipped {c c' : ClassFile} {n : Nat} {m : Method} {ks : List (Nat × Method)} {f : Fault}
      {vs : List Verdict} : (weave settings n).on c = (.error (.fault f), c) →
      Sweep settings c ks vs c' → Sweep settings c ((n, m) :: ks) (.error f :: vs) c'

/-! ### One method -/

/-- Weaving a method changes no other. -/
theorem methods_of_weave {out : Outcome Woven} (h : (weave settings n).on c = (out, c₁)) {j : Nat}
    (hj : j ≠ n) : c₁.methods[j]? = c.methods[j]? := by
  rcases weave_changes h with ⟨rfl, -⟩ | ⟨-, -, m', -, -, -, -, -, -, -, rfl⟩
  · rfl
  · exact List.getElem?_set_ne hj.symm

/-- Weaving does not rename a class. -/
theorem name_of_weave {out : Outcome Woven} (h : (weave settings n).on c = (out, c₁)) :
    c₁.name = c.name := by
  rcases weave_changes h with ⟨rfl, -⟩ | ⟨-, -, -, -, -, -, -, -, -, -, rfl⟩ <;> rfl

/-- A method without states leaves the class as it is. -/
theorem eq_of_weave (h : (weave settings n).on c = (.ok w, c₁)) (hw : w.states = 0) : c₁ = c := by
  rcases weave_changes h with ⟨hsame, -⟩ | ⟨w', -, -, -, hok, hstates, -⟩
  · exact hsame
  · rw [Except.ok.inj hok] at hw
    omega

/-- So does a method that cannot be woven. -/
theorem eq_of_weave_error {e : Failure} (h : (weave settings n).on c = (.error e, c₁)) :
    c₁ = c := by
  rcases weave_changes h with ⟨hsame, -⟩ | ⟨_, _, _, _, hok, -⟩
  · exact hsame
  · cases hok

/-- Weaving a class weaves the method at the place, which stays as it is without states. -/
theorem weaveMethod_of_weave (hm : c.methods[n]? = some m)
    (h : (weave settings n).on c = (.ok w, c₁)) :
    ∃ m', weaveMethod settings c m = .ok (w, m') ∧
      c₁.methods[n]? = some (if w.states = 0 then m else m') := by
  obtain ⟨k, m', hk, hw⟩ := weave_eq_ok h
  obtain rfl := Option.some.inj (hm.symm.trans hk)
  refine ⟨m', hw, ?_⟩
  rcases weave_changes h with ⟨rfl, hzero⟩ | ⟨w', k, k', -, hok, hstates, hk, hk', -, -, rfl⟩
  · rw [if_pos (hzero w rfl)]
    exact hm
  · obtain rfl := Option.some.inj (hm.symm.trans hk)
    obtain ⟨rfl, rfl⟩ := Prod.mk.inj (Except.ok.inj (hw.symm.trans hk'))
    rw [if_neg (Nat.ne_of_gt hstates)]
    exact List.getElem?_set_self (List.getElem?_eq_some_iff.mp hm).1

/-- Where weaving a class fails, weaving the method at the place does. -/
theorem weaveMethod_of_weave_error {e : Failure} (hm : c.methods[n]? = some m)
    (h : ((weave settings n).on c).1 = .error e) : weaveMethod settings c m = .error e := by
  rw [weave_on, hm] at h
  dsimp only at h
  split at h
  · next e' he =>
    rw [he, Except.error.inj h]
  · cases h

/-- Weaving keeps all instructions of a class regular. -/
theorem Regular.weave (hc : c.Regular) (hsettings : settings.Regular) {out : Outcome Woven}
    (h : (weave settings n).on c = (out, c₁)) : c₁.Regular := by
  intro k hk
  rcases mem_methods_of_weave h hk with hk | ⟨m, hm, w, hw⟩
  · exact hc k hk
  · exact regular_weaveMethod hsettings (hc m hm) hw

/-! ### Runs -/

/-- The report on methods with these verdicts: those with states that were woven, and those that
were skipped with their faults. -/
def reportOf (owner : Text) (ks : List (Nat × Method)) (vs : List Verdict) : Report where
  woven := vs.filterMap fun
    | .ok w => if 0 < w.states then some w else none
    | .error _ => none
  skipped := (ks.zip vs).filterMap fun
    | (k, .error f) => some (.ofKey (owner ++ "." ++ k.2.key) (some f))
    | (_, .ok _) => none

section Report

variable {owner : Text} {k : Nat × Method} {ks : List (Nat × Method)} {vs : List Verdict}

theorem reportOf_woven (h : 0 < w.states) : reportOf owner (k :: ks) (.ok w :: vs) =
    { reportOf owner ks vs with woven := w :: (reportOf owner ks vs).woven } := by
  simp [reportOf, h]

theorem reportOf_yieldless (h : w.states = 0) :
    reportOf owner (k :: ks) (.ok w :: vs) = reportOf owner ks vs := by
  simp [reportOf, h]

theorem reportOf_skipped {f : Fault} : reportOf owner (k :: ks) (.error f :: vs) =
    { reportOf owner ks vs with
      skipped := .ofKey (owner ++ "." ++ k.2.key) (some f) :: (reportOf owner ks vs).skipped } :=
  rfl

end Report

/-- The method is as its verdict says: one that failed, or has no states, is still the same. -/
def Treated (settings : Settings) (c' : ClassFile) (k : Nat × Method) : Verdict → Prop
  | .error f => c'.methods[k.1]? = some k.2 ∧
      ∃ c, weaveMethod settings c k.2 = .error (.fault f)
  | .ok w => ∃ c m', weaveMethod settings c k.2 = .ok (w, m') ∧
      c'.methods[k.1]? = some (if w.states = 0 then k.2 else m')

theorem Sweep.methods_eq {ks : List (Nat × Method)} {vs : List Verdict}
    (h : Sweep settings c ks vs c') (hn : ∀ k ∈ ks, k.1 ≠ n) : c'.methods[n]? = c.methods[n]? := by
  induction h with
  | nil => rfl
  | woven hw _ ih =>
    rw [List.forall_mem_cons] at hn
    exact (ih hn.2).trans (methods_of_weave hw hn.1.symm)
  | skipped _ _ ih => exact ih (List.forall_mem_cons.mp hn).2

/-- A run that weaves nothing leaves the class as it is. -/
theorem Sweep.eq_of_woven_nil {owner : Text} {ks ks' : List (Nat × Method)} {vs : List Verdict}
    (h : Sweep settings c ks vs c') (hnil : (reportOf owner ks' vs).woven = []) : c' = c := by
  induction h with
  | nil => rfl
  | @woven c c₁ c' n m ks w vs hw _ ih =>
    by_cases hstates : 0 < w.states
    · have hcons : (reportOf owner ks' (.ok w :: vs)).woven =
          w :: (reportOf owner ks' vs).woven := by
        simp [reportOf, hstates]
      rw [hcons] at hnil
      cases hnil
    · have hsame : (reportOf owner ks' (.ok w :: vs)).woven = (reportOf owner ks' vs).woven := by
        simp [reportOf, hstates]
      rw [hsame] at hnil
      rw [ih hnil, eq_of_weave hw (Nat.eq_zero_of_not_pos hstates)]
  | skipped _ _ ih => exact ih hnil

theorem Sweep.regular {ks : List (Nat × Method)} {vs : List Verdict} (hsettings : settings.Regular)
    (hc : c.Regular) (h : Sweep settings c ks vs c') : c'.Regular := by
  induction h with
  | nil => exact hc
  | woven hw _ ih => exact ih (hc.weave hsettings hw)
  | skipped _ _ ih => exact ih hc

/-- Every method of a run ends up as its verdict says, unless two of them have the same place. -/
theorem Sweep.treated {ks : List (Nat × Method)} {vs : List Verdict}
    (h : Sweep settings c ks vs c') (hks : ∀ k ∈ ks, c.methods[k.1]? = some k.2)
    (hdistinct : (ks.map Prod.fst).Nodup) : List.Forall₂ (Treated settings c') ks vs := by
  induction h with
  | nil => exact .nil
  | @woven c c₁ c' n m ks w vs hw hsweep ih =>
    rw [List.forall_mem_cons] at hks
    rw [List.map_cons, List.nodup_cons] at hdistinct
    have hne : ∀ k ∈ ks, k.1 ≠ n := fun k hk heq => hdistinct.1 (List.mem_map.mpr ⟨k, hk, heq⟩)
    obtain ⟨m', hmethod, hplace⟩ := weaveMethod_of_weave hks.1 hw
    refine .cons ⟨c, m', hmethod, (hsweep.methods_eq hne).trans hplace⟩ (ih ?_ hdistinct.2)
    exact fun k hk => (methods_of_weave hw (hne k hk)).trans (hks.2 k hk)
  | @skipped c c' n m ks f vs hw hsweep ih =>
    rw [List.forall_mem_cons] at hks
    rw [List.map_cons, List.nodup_cons] at hdistinct
    have hne : ∀ k ∈ ks, k.1 ≠ n := fun k hk heq => hdistinct.1 (List.mem_map.mpr ⟨k, hk, heq⟩)
    have hmethod := weaveMethod_of_weave_error hks.1 (congrArg Prod.fst hw)
    exact .cons ⟨(hsweep.methods_eq hne).trans hks.1, c, hmethod⟩ (ih hks.2 hdistinct.2)

/-- A run goes over all methods, unless it comes to one where weaving is undefined. -/
theorem weaveAll_sweeps (hskip : plan.onError = .skip) (ks : List (Nat × Method)) (report : Report)
    (c : ClassFile) :
    (∃ xs k ys vs c₁ r, ks = xs ++ k :: ys ∧ Sweep plan.settings c xs vs c₁ ∧
        ((weave plan.settings k.1).on c₁).1 = Outcome.undefined ∧
        weaveAll plan ks report c = (r, Outcome.undefined)) ∨
      ∃ vs c', Sweep plan.settings c ks vs c' ∧ weaveAll plan ks report c = ({
        woven := report.woven ++ (reportOf c.name ks vs).woven
        skipped := report.skipped ++ (reportOf c.name ks vs).skipped }, .ok c') := by
  induction ks generalizing c report with
  | nil =>
    refine .inr ⟨[], c, .nil c, ?_⟩
    simp [weaveAll, reportOf]
  | cons k ks ih =>
    obtain ⟨n, m⟩ := k
    rcases hon : (weave plan.settings n).on c with ⟨(_ | f) | w, c₁⟩
    · -- weaving is undefined at this method, and the run ends here
      refine .inl ⟨[], (n, m), ks, [], c, report, rfl, .nil c, by rw [hon]; rfl, ?_⟩
      rw [weaveAll, hon]
    · -- a method that cannot be woven leaves the class as it was
      obtain rfl := eq_of_weave_error hon
      have hall : weaveAll plan ((n, m) :: ks) report c₁ =
          weaveAll plan ks (report.addSkipped c₁.name m.key f) c₁ := by
        rw [weaveAll, hon]
        exact if_neg (by rw [hskip]; decide)
      rcases ih (report.addSkipped c₁.name m.key f) c₁ with
        ⟨xs, k, ys, vs, c₂, r, rfl, hsweep, hundefined, hrest⟩ | ⟨vs, c', hsweep, hrest⟩
      · exact .inl ⟨(n, m) :: xs, k, ys, .error f :: vs, c₂, r, rfl, .skipped hon hsweep,
          hundefined, hall.trans hrest⟩
      · refine .inr ⟨.error f :: vs, c', .skipped hon hsweep, hall.trans ?_⟩
        rw [hrest]
        simp [reportOf_skipped, Report.addSkipped]
    · have hall : weaveAll plan ((n, m) :: ks) report c =
          weaveAll plan ks (report.addWoven w) c₁ := by rw [weaveAll, hon]
      rcases ih (report.addWoven w) c₁ with
        ⟨xs, k, ys, vs, c₂, r, rfl, hsweep, hundefined, hrest⟩ | ⟨vs, c', hsweep, hrest⟩
      · exact .inl ⟨(n, m) :: xs, k, ys, .ok w :: vs, c₂, r, rfl, .woven hon hsweep, hundefined,
          hall.trans hrest⟩
      · refine .inr ⟨.ok w :: vs, c', .woven hon hsweep, hall.trans ?_⟩
        rw [hrest, name_of_weave hon]
        -- a method without states is told as neither woven nor skipped
        by_cases hstates : 0 < w.states
        · simp [reportOf_woven hstates, Report.addWoven, hstates]
        · have hzero := Nat.eq_zero_of_not_pos hstates
          simp [reportOf_yieldless hzero, Report.addWoven, hzero]

/-- Where a run comes to, the methods that are left are still the same. -/
theorem Sweep.next {xs ys : List (Nat × Method)} {vs : List Verdict} (h : Sweep settings c xs vs c₁)
    (hks : ∀ k ∈ xs ++ (n, m) :: ys, c.methods[k.1]? = some k.2)
    (hdistinct : ((xs ++ (n, m) :: ys).map Prod.fst).Nodup) : c₁.methods[n]? = some m := by
  rw [h.methods_eq fun k hk heq => ?_]
  · exact hks (n, m) (List.mem_append_right _ List.mem_cons_self)
  · rw [List.map_append, List.map_cons, List.nodup_append] at hdistinct
    exact hdistinct.2.2 k.1 (List.mem_map_of_mem hk) n List.mem_cons_self heq

/-- Weaving is defined on regular instructions, so a run goes over all methods. -/
theorem weaveAll_sweeps_of_regular (hskip : plan.onError = .skip)
    (hsettings : plan.settings.Regular)
    {ks : List (Nat × Method)} (hc : c.Regular) (hks : ∀ k ∈ ks, c.methods[k.1]? = some k.2)
    (hdistinct : (ks.map Prod.fst).Nodup) (report : Report) :
    ∃ vs c', Sweep plan.settings c ks vs c' ∧ weaveAll plan ks report c = ({
      woven := report.woven ++ (reportOf c.name ks vs).woven
      skipped := report.skipped ++ (reportOf c.name ks vs).skipped }, .ok c') := by
  refine (weaveAll_sweeps hskip ks report c).resolve_left ?_
  rintro ⟨xs, ⟨n, m⟩, ys, vs, c₁, r, rfl, hsweep, hundefined, -⟩
  have hm := hsweep.next hks hdistinct
  have hdefined := gives_weaveMethod hsettings c₁
    (hsweep.regular hsettings hc m (List.mem_of_getElem? hm))
  rw [weaveMethod_of_weave_error hm hundefined] at hdefined
  exact hdefined

/-- A selected method stands at its place, and no place is selected twice. -/
theorem selection_spec (plan : Plan) (c : ClassFile) :
    (∀ n m, (n, m) ∈ c.selection plan ↔ c.methods[n]? = some m ∧ plan.isSelected c.name m = true) ∧
      ((c.selection plan).map Prod.fst).Nodup := by
  constructor
  · intro n m
    simp [selection, List.mem_zipIdx_iff_getElem?]
  · have hsub := (List.filter_sublist (l := c.methods.zipIdx)
      (p := fun x => plan.isSelected c.name x.1)).map Prod.snd
    rw [List.zipIdx_map_snd] at hsub
    rw [selection, List.map_map]
    exact hsub.nodup List.nodup_range'

end ClassFile

open ClassFile

/-- **A method that cannot be woven costs nothing else.** A transformation that skips, with the
standard rules, goes over all selected methods of a class that was not woven before. Each is woven,
or left as it was and listed with its fault, in their order; no other method changes. Bytes come
out if and only if the class can then be written, which it can as before if nothing was woven. -/
theorem transform_skips {data : List UInt8} (hparse : ClassFile.parse data = .ok c)
    (hskip : plan.onError = .skip) (hchain : plan.settings.enhancers = none)
    (hnew : c.isWoven plan.settings = false) :
    ∃ vs c', Sweep plan.settings c (c.selection plan) vs c' ∧
      List.Forall₂ (Treated plan.settings c') (c.selection plan) vs ∧
      (∀ (n : Nat) (m : Method), c.methods[n]? = some m → plan.isSelected c.name m = false →
        c'.methods[n]? = some m) ∧
      (transform plan data).1 = some (reportOf c.name (c.selection plan) vs) ∧
      (∀ d, (transform plan data).2 = .ok d ↔ ∃ c'', c'.encode = .ok (d, c'')) ∧
      ((reportOf c.name (c.selection plan) vs).woven = [] → c' = c) := by
  obtain ⟨p, hc⟩ := parsed_of_parse hparse
  obtain ⟨hmem, hdistinct⟩ := selection_spec plan c
  have hregular : c.Regular := fun m hm l hl => ((hc.faithful.methods m hm).code l hl).regular
  have hplaces : ∀ k ∈ c.selection plan, c.methods[k.1]? = some k.2 := fun k hk =>
    ((hmem k.1 k.2).mp hk).1
  obtain ⟨vs, c', hsweep, hall⟩ := weaveAll_sweeps_of_regular hskip
    (Settings.regular_of_standard hchain) hregular hplaces hdistinct {}
  have htreated := hsweep.treated hplaces hdistinct
  have htransform : c.transform plan = (some (reportOf c.name (c.selection plan) vs), .ok c') := by
    rw [ClassFile.transform, if_neg (by rw [hnew]; decide), hall]
    rfl
  have hrun : (transform plan data).1 = some (reportOf c.name (c.selection plan) vs) ∧
      ∀ d, (transform plan data).2 = .ok d ↔ ∃ c'', c'.encode = .ok (d, c'') := by
    rw [transform, hparse]
    dsimp only
    rw [htransform]
    dsimp only
    cases c'.encode with
    | error e => simp
    | ok out =>
      obtain ⟨bytes, c''⟩ := out
      simp
  refine ⟨vs, c', hsweep, htreated, fun n m hm hunselected => ?_, hrun.1, hrun.2, ?_⟩
  · rw [hsweep.methods_eq fun k hk heq => ?_]
    · exact hm
    · have hk := (hmem k.1 k.2).mp hk
      rw [heq, hm] at hk
      rw [Option.some.inj hk.1, hk.2] at hunselected
      cases hunselected
  · exact hsweep.eq_of_woven_nil

/-- Of two methods one returns nothing. It is skipped, and the other is woven. -/
theorem transform_skips_paused : ∃ report d,
    transform { selects := some fun _ _ _ => true } pausedFile = (some report, .ok d) ∧
      report.woven.map Woven.method = ["next()Z"] ∧
      report.skipped.map Skipped.name = ["yieldReturn()V"] := by
  obtain ⟨vs, c', hsweep, -, -, hreport, hbytes, -⟩ :=
    @transform_skips { selects := some fun _ _ _ => true } _ pausedFile parse_paused rfl rfl
      (by rfl)
  have hselection : paused.selection { selects := some fun _ _ _ => true } =
      [(0, pausedMethod), (1, pauseMethod)] := by rfl
  have hsecond : ((weave {} 1).on (woven 100)).1.toOption = none := by
    rw [weave_on]
    delta weaveMethod wovenCode
    decide +kernel
  rw [hselection] at hsweep hreport
  cases hsweep with
  | skipped h hrest => cases weave_standard.symm.trans h
  | woven h hrest =>
    cases weave_standard.symm.trans h
    cases hrest with
    | woven h hrest =>
      rw [h] at hsecond
      cases hsecond
    | skipped h hrest =>
      cases hrest
      obtain ⟨d, hencode⟩ := encode_woven write_standard
      exact ⟨_, d, Prod.ext hreport ((hbytes d).mpr ⟨_, hencode⟩), rfl, rfl⟩

end ClassWeaver
