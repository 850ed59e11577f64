import ClassWeaver.Proofs.Edit
import ClassWeaver.Proofs.Generator.Checks

/-!
# Weaving on copies

Weaving edits listings on its way to a method: labels are handed out in the body, and rules run over
what was built. All of that is done to copies, and the class stays as it is until nothing can fail
any more (`Work.Answers`, `Work.answers_prepare`). What a method becomes in the end is what
`weaveMethod` says of it, so that the class changes in one step (`ClassFile.weave_on`). -/

namespace ClassWeaver

/-! ### Working on copies -/

/-- The place is not the code of a method. -/
def Place.IsCopy : Place → Prop
  | .code _ => False
  | .copy _ => True

/-- At the place there is a copy of the listing. -/
def Bench.Copies (b : Bench) (p : Place) (l : Listing) : Prop := p.IsCopy ∧ b.listing? p = some l

namespace Bench

variable {b : Bench} {p : Place} {l l' : Listing}

/-- A copy can be changed without the class. -/
theorem Copies.put (h : b.Copies p l) (l' : Listing) :
    (b.put p l').file = b.file ∧ (b.put p l').Copies p l' := by
  obtain ⟨hcopy, hl⟩ := h
  cases p with
  | code => cases hcopy
  | copy k =>
    refine ⟨rfl, hcopy, ?_⟩
    have hlt : k < b.copies.size := (Array.getElem?_eq_some_iff.mp hl).1
    simp [listing?, Bench.put, hlt]

end Bench

namespace Work

variable {α β γ δ : Type} {b b' : Bench} {out : Outcome β} {R : α → β → Bench → Prop}
variable {x : Work α} {p : Place} {l : Listing}

/-- From the bench the work comes to the outcome, up to `R`, and leaves the class as it is. -/
inductive Answers (x : Work α) (b : Bench) (R : α → β → Bench → Prop) : Outcome β → Prop
  | ok {a : α} {v : β} {b' : Bench} :
      x.on b = (.ok a, b') → b'.file = b.file → R a v b' → Answers x b R (.ok v)
  | error {e : Failure} {b' : Bench} :
      x.on b = (.error e, b') → b'.file = b.file → Answers x b R (.error e)

namespace Answers

/-- A step that comes to a result without touching the class goes on with it. -/
theorem step {f : α → Work γ} {S : γ → δ → Bench → Prop} {out : Outcome δ} {a : α}
    (hx : x.on b = (.ok a, b')) (hfile : b'.file = b.file) (hf : Answers (f a) b' S out) :
    Answers (x >>= f) b S out := by
  cases hf with
  | error hon hfile' => exact .error ((Edit.on_bind_of_ok hx).trans hon) (hfile'.trans hfile)
  | ok hon hfile' hs => exact .ok ((Edit.on_bind_of_ok hx).trans hon) (hfile'.trans hfile) hs

/-- Two steps answer one after the other. -/
theorem bind {f : α → Work γ} {g : β → Outcome δ} {S : γ → δ → Bench → Prop}
    (hx : Answers x b R out)
    (hf : ∀ a v b', b'.file = b.file → R a v b' → Answers (f a) b' S (g v)) :
    Answers (x >>= f) b S (out >>= g) := by
  cases hx with
  | error hon hfile => exact .error (Edit.on_bind_of_error hon) hfile
  | ok hon hfile hr => exact .step hon hfile (hf _ _ _ hfile hr)

theorem pure {a : α} {v : β} (h : R a v b) : Answers (Pure.pure a) b R (.ok v) := .ok rfl rfl h

/-- A check comes to what it is, and changes nothing. -/
theorem lift (y : Outcome α) :
    Answers (liftM y) b (fun a v b' => a = v ∧ b' = b ∧ y = .ok v) y := by
  cases y with
  | error e => exact .error rfl rfl
  | ok a => exact .ok rfl rfl ⟨rfl, rfl, rfl⟩

end Answers

theorem on_file : file.on b = (.ok b.file, b) := rfl

theorem on_method {n : Nat} {m : Method} (h : b.file.methods[n]? = some m) :
    (method n).on b = (.ok m, b) := by
  rw [method, Edit.on_bind, on_file]
  dsimp only
  rw [h]
  rfl

theorem on_read (h : b.listing? p = some l) : (read p).on b = (.ok l, b) := by
  rw [read, Edit.on_bind, Edit.on_get]
  dsimp only
  rw [h]
  rfl

theorem on_write : (write p l).on b = (.ok (), b.put p l) := rfl

/-- A new listing is a copy. -/
theorem on_keep : ∃ p b', (keep l).on b = (.ok p, b') ∧ b'.file = b.file ∧ b'.Copies p l :=
  ⟨.copy b.copies.size, _, rfl, rfl, trivial, by simp [Bench.listing?]⟩

theorem on_clone (h : b.listing? p = some l) :
    ∃ q b', (clone p).on b = (.ok q, b') ∧ b'.file = b.file ∧ b'.Copies q l := by
  rw [clone, Edit.on_bind, on_read h]
  exact on_keep

/-! ### Weaving -/

variable {settings : Settings} {c : ClassFile} {m : Method} {states : States} {n : Nat}

/-- Building answers with the woven code, and hands out labels in the copy only. -/
theorem answers_build (g : Generator) (h : b.Copies p l) :
    Answers (build g p states) b
      (fun a v b' => b'.Copies a.1 v.1 ∧ a.2.1 = (g.build l states).states ∧ a.2.2 = v.2)
      (g.build l states).woven := by
  obtain ⟨hfile, -⟩ := h.put (g.build l states).body
  refine .step (on_read h.2) rfl (.step on_write hfile ?_)
  suffices h : Answers _ _ _ ((g.build l states).woven >>= pure) by rwa [bind_pure] at h
  refine (Answers.lift _).bind fun out v b' _ hout => ?_
  obtain ⟨rfl, rfl, -⟩ := hout
  obtain ⟨q, b', hon, hfile, hcopies⟩ := @on_keep (b.put p (g.build l states).body) out.1
  exact .step hon hfile (.pure ⟨hcopies, rfl, rfl⟩)

/-- Rules change the copy only. -/
theorem on_enhance (chain : Chain) (ctx : Context) (h : b.Copies p l) :
    ∃ b', (enhance chain ctx p).on b = ((chain.run ctx l).2, b') ∧ b'.file = b.file ∧
      b'.Copies p (chain.run ctx l).1 := by
  obtain ⟨hfile, hcopies⟩ := h.put (chain.run ctx l).1
  refine ⟨_, ?_, hfile, hcopies⟩
  rw [enhance, Edit.on_bind_of_ok (on_read h.2), Edit.on_bind_of_ok on_write]
  rfl

theorem answers_weaveBody (settings : Settings) (owner : Text) (m : Method) (states : States)
    (h : b.Copies p l) :
    Answers (weaveBody settings owner m p states) b
      (fun a v b' => b'.Copies a.1 v.1 ∧ a.2 = v.2) (wovenCode settings owner m l states) := by
  unfold weaveBody wovenCode
  cases Generator.create settings owner m.name m.desc with
  | error f => exact .error rfl rfl
  | ok g =>
    refine (answers_build g h).bind fun a v b' _ ha => ?_
    obtain ⟨q, states', resumes⟩ := a
    obtain ⟨hcopies, rfl, rfl⟩ := ha
    -- the rules may fail behind an edit, and what they come to is checked
    obtain ⟨b₁, hon, hfile, hcopies₁⟩ := on_enhance settings.chain
      { boundary := (Std.HashSet.ofList v.2).contains, owner, method := m.key
        states := (g.build l states).states } hcopies
    dsimp only at hon ⊢
    split
    · next e hrun =>
      rw [hrun] at hon
      exact .error (Edit.on_bind_of_error hon) hfile
    · next l' hrun =>
      rw [hrun] at hon hcopies₁
      refine .step hon hfile (.step (on_read hcopies₁.2) rfl ?_)
      refine (Answers.lift _).bind fun H H' b₂ _ hH => ?_
      obtain ⟨rfl, rfl, -⟩ := hH
      exact .pure ⟨hcopies₁, rfl⟩

/-- **All that can fail is done to copies.** -/
theorem answers_prepare (settings : Settings) (hm : b.file.methods[n]? = some m) :
    Answers (prepare settings n) b
      (fun a v b' => a.1 = v.1 ∧
        match a.2 with
        | none => v.1.states = 0
        | some p => v.1.states ≠ 0 ∧ ∃ l, b'.Copies p l ∧
            v.2 = { m with
              code := some l, maxStack := v.1.maxStack.toUInt16, codeAttributes := [] })
      (weaveMethod settings b.file m) := by
  unfold prepare weaveMethod
  refine .step (on_method hm) rfl ?_
  refine (Answers.lift _).bind fun body body' b' _ hbody => ?_
  obtain ⟨rfl, rfl, hbody⟩ := hbody
  obtain ⟨hcode, -⟩ := Method.generatorCode_eq_ok (Outcome.inMethod_eq_ok.mp hbody)
  have hplace : b'.listing? (.code n) = some body := by simp [Bench.listing?, hm, hcode]
  obtain ⟨p, b₁, hclone, hfile, hcopies⟩ := on_clone hplace
  refine .step hclone hfile (.step (on_read hcopies.2) rfl ?_)
  refine (Answers.lift _).bind fun u u' b₂ _ hu => ?_
  obtain ⟨-, rfl, -⟩ := hu
  refine .step (on_read hcopies.2) rfl ?_
  refine (Answers.lift _).bind fun states states' b₃ _ hstates => ?_
  obtain ⟨rfl, rfl, -⟩ := hstates
  dsimp only
  split
  · next hzero => exact .pure ⟨rfl, hzero⟩
  · next hpos =>
    refine .step on_file rfl ?_
    rw [hfile]
    refine (Answers.lift _).bind fun u u' b₄ _ hu => ?_
    obtain ⟨-, rfl, -⟩ := hu
    refine .step on_file rfl ?_
    rw [hfile]
    refine (answers_weaveBody settings _ m states hcopies).bind fun a v b₅ hfile₅ ha => ?_
    obtain ⟨q, H⟩ := a
    obtain ⟨code, H'⟩ := v
    obtain ⟨hcopies₅, rfl⟩ := ha
    refine (Answers.lift _).bind fun maxStack maxStack' b₆ _ hmax => ?_
    obtain ⟨rfl, rfl, -⟩ := hmax
    refine .step on_file rfl ?_
    rw [hfile₅, hfile]
    refine (Answers.lift _).bind fun u u' b₇ _ hu => ?_
    obtain ⟨-, rfl, -⟩ := hu
    exact .pure ⟨rfl, hpos, code, hcopies₅, rfl⟩

theorem on_commit (w : Woven) (hm : b.file.methods[n]? = some m) (h : b.Copies p l) :
    ∃ b', (commit n w p).on b = (.ok (), b') ∧ b'.file =
      ((b.file.setMethod n { m with
        code := some l, maxStack := w.maxStack.toUInt16
        codeAttributes := [] }).addFields w.fields).lowered := by
  rw [commit, Edit.on_bind_of_ok (on_method hm), Edit.on_bind_of_ok (on_read h.2)]
  exact ⟨_, rfl, rfl⟩

end Work

namespace ClassFile

/-- Weaving leaves the class that lies on the bench in the end. -/
theorem weave_on_bench (settings : Settings) (c : ClassFile) (n : Nat) :
    (weave settings n).on c =
      (((Work.weave settings n).on { file := c }).1,
        ((Work.weave settings n).on { file := c }).2.file) := rfl

/-- Weaving as one step: either a check fails, or there is nothing to do, or all is done. -/
theorem weave_on (settings : Settings) (c : ClassFile) (n : Nat) :
    (weave settings n).on c =
      match c.methods[n]? with
      | none => (Outcome.undefined, c)
      | some m =>
        match weaveMethod settings c m with
        | .error e => (.error e, c)
        | .ok (w, m') =>
          (.ok w, if w.states = 0 then c else ((c.setMethod n m').addFields w.fields).lowered) := by
  rw [weave_on_bench, Work.weave]
  cases hm : c.methods[n]? with
  | none =>
    have hprepare : (Work.prepare settings n).on { file := c } =
        (.error .undefined, { file := c }) := by
      rw [Work.prepare]
      refine Edit.on_bind_of_error ?_
      rw [Work.method, Edit.on_bind, Work.on_file]
      dsimp only
      rw [hm]
      rfl
    rw [Edit.on_bind_of_error hprepare]
    rfl
  | some m =>
    have hprepare := Work.answers_prepare (b := { file := c }) settings hm
    dsimp only at hprepare ⊢
    generalize weaveMethod settings c m = out at hprepare ⊢
    cases hprepare with
    | error hon hfile =>
      rw [Edit.on_bind_of_error hon]
      exact congrArg _ hfile
    | @ok a v b hon hfile hanswer =>
      obtain ⟨w, code⟩ := a
      obtain ⟨w', m'⟩ := v
      obtain ⟨rfl, hcode⟩ := hanswer
      dsimp only at hfile hcode ⊢
      rw [Edit.on_bind_of_ok hon]
      dsimp only
      cases code with
      | none =>
        rw [if_pos hcode]
        exact congrArg _ hfile
      | some p =>
        obtain ⟨hpos, l, hcopies, rfl⟩ := hcode
        obtain ⟨b', hcommit, hfile'⟩ := Work.on_commit w (hfile ▸ hm) hcopies
        rw [Edit.on_bind_of_ok hcommit, if_neg hpos]
        exact congrArg _ (hfile'.trans (by rw [hfile]))

/-- Where weaving the method at the place fails, weaving the class does. -/
theorem weave_of_weaveMethod_error {settings : Settings} {c : ClassFile} {n : Nat} {m : Method}
    {e : Failure} (hm : c.methods[n]? = some m) (h : weaveMethod settings c m = .error e) :
    (weave settings n).on c = (.error e, c) := by
  rw [weave_on, hm]
  dsimp only
  rw [h]

theorem weave_of_weaveMethod_ok {settings : Settings} {c : ClassFile} {n : Nat} {m m' : Method}
    {w : Woven} (hm : c.methods[n]? = some m) (h : weaveMethod settings c m = .ok (w, m'))
    (hstates : w.states ≠ 0) :
    (weave settings n).on c = (.ok w, ((c.setMethod n m').addFields w.fields).lowered) := by
  rw [weave_on, hm]
  dsimp only
  rw [h]
  dsimp only
  rw [if_neg hstates]

end ClassFile

end ClassWeaver
