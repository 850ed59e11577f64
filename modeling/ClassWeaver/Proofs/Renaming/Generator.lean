import ClassWeaver.Proofs.Generator.Splices
import ClassWeaver.Proofs.Renaming.Heights

/-!
# Generators do not look at label numbers

A survey reads opcodes, locals and calls. The code that is spliced in places labels which the body's
listing hands out behind all labels of the body, so they have one number in both listings. An
assembly commutes with renaming: the buffer, the states and the resume labels of one assembly are
those of the other under their new names (`Assembly.step_agree`), and so is the woven listing
(`Generator.build_agree`).
-/

namespace ClassWeaver

variable {f : Label → Label}

/-! ### Surveys -/

theorem CallSite.isCall_mapLabels (site : CallSite) (f : Label → Label) (i : Insn) :
    site.isCall (i.mapLabels f) = site.isCall i := by
  unfold isCall
  rw [Insn.member?_mapLabels]
  rfl

/-- The surveys differ at most in the text of their conflicts. -/
structure Survey.Same (s s' : Survey) : Prop where
  yields : s'.yields = s.yields
  written : s'.written = s.written
  declared : s'.declared = s.declared
  conflict : s'.conflict.isSome = s.conflict.isSome

namespace Survey

variable {s s' : Survey}

theorem Same.refl (s : Survey) : s.Same s := ⟨rfl, rfl, rfl, rfl⟩

theorem Same.declare (h : s.Same s') (index : UInt16) (desc : Text) :
    (s.declare index desc).Same (s'.declare index desc) := by
  unfold Survey.declare
  rw [h.declared]
  split
  · exact { h with declared := rfl }
  · split
    · exact h
    · exact { h with declared := rfl }

theorem write_agree (h : s.Same s') (f : Label → Label) (i : Insn) (index : UInt16)
    (family : Family) :
    Outcome.Agree Same (s.write i index family) (s'.write (i.mapLabels f) index family) := by
  unfold write
  rw [h.written]
  cases find? index s.written with
  | none => exact { h with written := rfl }
  | some known =>
    dsimp only
    refine .ite (by rw [h.conflict]) (fun _ => h) fun _ => ?_
    -- whether there is a text is all that counts, for a conflict hides all later ones
    have htext := Insn.text?_agree f i
    generalize i.text? = text, (i.mapLabels f).text? = text' at htext
    cases htext with
    | none => exact .undefined
    | some _ => exact { h with written := rfl, conflict := rfl }

theorem visit_agree (h : s.Same s') (site : CallSite) (f : Label → Label) (i : Insn) :
    Outcome.Agree Same (visit site s i) (visit site s' (i.mapLabels f)) := by
  unfold visit
  rw [CallSite.isCall_mapLabels, Insn.slot?_mapLabels, Insn.opcode_mapLabels]
  refine .ite Iff.rfl (fun _ => { h with yields := congrArg (· + 1) h.yields }) fun _ =>
    .ite Iff.rfl (fun _ => ?_) fun _ => ?_
  · obtain ⟨op, x⟩ := i
    cases x with
    | localVariable name desc start stop index => exact h.declare index desc
    | _ => exact .undefined
  · cases writtenFamily? i.opcode with
    | none => exact h
    | some family => exact .ite Iff.rfl (fun _ => h) fun _ => write_agree h f i _ family

/-- The captured slots depend on the written locals and on what is declared. -/
theorem Same.slots (h : s.Same s') (settings : Settings) (method : Text) :
    s'.slots settings method = s.slots settings method := by
  have hdesc : s'.slotDescriptor = s.slotDescriptor := by
    funext index family
    unfold slotDescriptor
    rw [h.declared]
  unfold Survey.slots
  rw [h.written, hdesc]

end Survey

/-! ### States -/

namespace States

@[simp] theorem count_mapLabels (f : Label → Label) (s : States) :
    (s.mapLabels f).count = s.count := by
  simp [mapLabels, count]

theorem label?_mapLabels (f : Label → Label) (s : States) (id : Nat) :
    (s.mapLabels f).label? id = (s.label? id).map f := by
  cases id with
  | zero => rfl
  | succ n =>
    simp only [label?, mapLabels, Array.getElem?_map]
    cases s.labels[n]? <;> rfl

/-- States without labels stay as they are. -/
theorem mapLabels_create (f : Label → Label) (count : Int) (slots : List Slot) :
    (create count slots).mapLabels f = create count slots := by
  simp [mapLabels, create]

theorem labelled_mapLabels (f : Label → Label) (s : States) :
    (s.mapLabels f).labelled = s.labelled.map fun x => (x.1, f x.2) := by
  simp only [labelled, mapLabels, Array.toList_map, List.zipIdx_map, List.filterMap_map,
    List.map_filterMap]
  refine List.filterMap_congr fun x _ => ?_
  obtain ⟨lbl, n⟩ := x
  cases lbl <;> rfl

end States

/-- Renamed bodies need the same states, none of which has a label yet. -/
theorem Listing.Renamed.discover_agree {σ : Equiv.Perm Label} {l l' : Listing}
    (h : Listing.Renamed σ l l') (settings : Settings) (method desc : Text) :
    Outcome.Agree (fun s s' => s' = s.mapLabels σ) (discover settings l method desc)
      (discover settings l' method desc) := by
  unfold discover
  rw [h.insns_eq]
  split
  · exact .fail _ _
  · have hsurvey : Outcome.Agree Survey.Same (Survey.ofInsns settings.yieldSite l.insns)
        (Survey.ofInsns settings.yieldSite (l.insns.map (Insn.mapLabels σ))) :=
      .foldlM (fun _ _ i _ hs => Survey.visit_agree hs settings.yieldSite σ i) (Survey.Same.refl {})
    -- a conflict counts, not what its text says
    refine hsurvey.bind fun s s' hs => ?_
    have hconflict := hs.conflict
    rw [hs.slots, hs.yields]
    match hc : s.conflict, hc' : s'.conflict with
    | none, none => exact (States.mapLabels_create ..).symm
    | some _, some _ =>
      exact .ite Iff.rfl (fun _ => .fail _ _) fun _ => (States.mapLabels_create ..).symm
    | none, some _ => rw [hc, hc'] at hconflict; cases hconflict
    | some _, none => rw [hc, hc'] at hconflict; cases hconflict

namespace Listing.Renamed

variable {σ : Equiv.Perm Label} {l l' : Listing}

/-- Labels that are handed out to states have one number in both listings. -/
theorem fillLabels (h : Renamed σ l l') (entries : List (Option Label)) :
    (States.fillLabels l' (entries.map (Option.map σ))).1 =
        (States.fillLabels l entries).1.map σ ∧
      Renamed σ (States.fillLabels l entries).2
        (States.fillLabels l' (entries.map (Option.map σ))).2 := by
  induction entries generalizing l l' with
  | nil => exact ⟨rfl, h⟩
  | cons entry entries ih =>
    cases entry with
    | some lbl =>
      obtain ⟨hlabels, hlisting⟩ := ih h
      exact ⟨congrArg (σ lbl :: ·) hlabels, hlisting⟩
    | none =>
      obtain ⟨hlabels, hlisting⟩ := ih h.newLabel
      refine ⟨?_, hlisting⟩
      refine (congrArg₂ List.cons ?_ hlabels :)
      exact h.newLabel_fst.1.trans h.newLabel_fst.2.symm

theorem labelAll (h : Renamed σ l l') (s : States) :
    ((s.mapLabels σ).labelAll l').1 = (s.labelAll l).1.map σ ∧
      ((s.mapLabels σ).labelAll l').2.1 = (s.labelAll l).2.1.mapLabels σ ∧
      Renamed σ (s.labelAll l).2.2 ((s.mapLabels σ).labelAll l').2.2 := by
  obtain ⟨hlabels, hlisting⟩ := h.fillLabels s.labels.toList
  have hentries : (s.mapLabels σ).labels.toList = s.labels.toList.map (Option.map σ) :=
    Array.toList_map
  simp only [States.labelAll, hentries]
  refine ⟨hlabels, ?_, hlisting⟩
  rw [hlabels]
  simp [States.mapLabels]

/-- The labels of all states are placed in both listings or in neither. -/
theorem checkBound_iff (h : Renamed σ l l') (s : States) :
    (s.mapLabels σ).checkBound l' = .ok () ↔ s.checkBound l = .ok () := by
  have hfind : (s.mapLabels σ).labelled.find? (fun x => decide (l'.binding x.2 = none)) =
      (s.labelled.find? fun x => decide (l.binding x.2 = none)).map fun x => (x.1, σ x.2) := by
    rw [States.labelled_mapLabels, List.find?_map]
    congr 2
    exact funext fun x => by simp only [Function.comp_apply, h.binding]
  unfold States.checkBound
  rw [hfind]
  cases s.labelled.find? fun x => decide (l.binding x.2 = none) with
  | none => exact Iff.rfl
  | some x => exact ⟨nofun, nofun⟩

end Listing.Renamed

/-! ### Buffers -/

namespace Buffer

variable {b : Buffer (List Insn)}

/-- The buffer with the labels of all instructions renamed, in front of it and in its region. -/
def mapLabels (f : Label → Label) (b : Buffer (List Insn)) : Buffer (List Insn) where
  sink := b.sink.map (Insn.mapLabels f)
  region := b.region.map fun reg => { reg with queue := reg.queue.map (Insn.mapLabels f) }

theorem start_mapLabels (f : Label → Label) (b : Buffer (List Insn)) (height : Int) :
    (b.mapLabels f).start height = (b.start height).mapLabels f := by
  obtain ⟨sink, region⟩ := b
  cases region <;> rfl

theorem isOpen_mapLabels (f : Label → Label) (b : Buffer (List Insn)) :
    (b.mapLabels f).isOpen = b.isOpen :=
  Option.isSome_map

theorem height_mapLabels (f : Label → Label) (b : Buffer (List Insn)) :
    (b.mapLabels f).height = b.height := by
  obtain ⟨sink, region⟩ := b
  cases region <;> rfl

theorem pending_mapLabels (f : Label → Label) (b : Buffer (List Insn)) :
    (b.mapLabels f).pending = b.pending := by
  obtain ⟨sink, region⟩ := b
  cases region with
  | none => rfl
  | some reg => exact List.length_map ..

theorem emitAll_mapLabels (f : Label → Label) (b : Buffer (List Insn)) :
    (b.mapLabels f).emitAll Assembly.output =
      ((b.emitAll Assembly.output).1.mapLabels f, .ok ()) := by
  rw [Assembly.emitAll_output, Assembly.emitAll_output]
  obtain ⟨sink, region⟩ := b
  cases region with
  | none => rfl
  | some reg => simp [mapLabels, waiting]

theorem close_agree (d : Discipline (List Insn)) (f : Label → Label) (b : Buffer (List Insn)) :
    Outcome.Agree (fun b b' => b' = b.mapLabels f) (b.close d) ((b.mapLabels f).close d) := by
  obtain ⟨sink, region⟩ := b
  cases region with
  | none => exact rfl
  | some reg =>
    simp only [close, mapLabels, Option.map_some, List.length_map]
    exact .ite Iff.rfl (fun _ => .fail _ _) fun _ => .ite Iff.rfl (fun _ => .fail _ _) fun _ => rfl

theorem enqueue_agree (f : Label → Label) (b : Buffer (List Insn)) (reg : Region) (i : Insn) :
    Outcome.Agree (fun b b' => b' = b.mapLabels f) (b.enqueue reg i)
      ((b.mapLabels f).enqueue { reg with queue := reg.queue.map (Insn.mapLabels f) }
        (i.mapLabels f)) := by
  unfold enqueue
  rw [Insn.isAdmissible_mapLabels]
  refine .ite Iff.rfl (fun _ => ?_) fun _ => Insn.blame_agree ..
  refine (Insn.effect_agree f i).bind ?_
  rintro e _ rfl
  exact .ite Iff.rfl (fun _ => Insn.blame_agree ..) fun _ => rfl

/-- An instruction goes through both buffers, or waits in both. -/
theorem visit_agree (g : Generator) (f : Label → Label) (b : Buffer (List Insn)) (i : Insn) :
    ((b.mapLabels f).visit (Assembly.discipline g) (i.mapLabels f)).1 =
        (b.visit (Assembly.discipline g) i).1.mapLabels f ∧
      @Outcome.Agree Unit Unit (· = ·) (b.visit (Assembly.discipline g) i).2
        ((b.mapLabels f).visit (Assembly.discipline g) (i.mapLabels f)).2 := by
  obtain ⟨sink, region⟩ := b
  cases region with
  | none => exact ⟨rfl, rfl⟩
  | some reg =>
    have henqueue := enqueue_agree f ⟨sink, some reg⟩ reg i
    unfold visit
    dsimp only [mapLabels, Option.map_some] at henqueue ⊢
    cases hb : enqueue ⟨sink, some reg⟩ reg i with
    | error e =>
      rw [hb] at henqueue
      obtain ⟨e', hb', he⟩ := henqueue.error
      rw [hb']
      exact ⟨rfl, he⟩
    | ok b =>
      obtain ⟨b', hb', rfl⟩ := henqueue.eq_ok hb
      rw [hb']
      dsimp only
      rw [← mapLabels, height_mapLabels]
      split
      -- at height zero everything goes out, under its new names as well
      · have hemit := emitAll_mapLabels f b
        have hall := congrArg Prod.snd (Assembly.emitAll_output b)
        exact ⟨congrArg Prod.fst hemit, .of_eq (hall.trans (congrArg Prod.snd hemit).symm)⟩
      · exact ⟨rfl, rfl⟩

end Buffer

/-! ### Assemblies -/

namespace Generator

theorem role_mapLabels (g : Generator) (f : Label → Label) (i : Insn) :
    g.role (i.mapLabels f) = g.role i := by
  unfold role
  rw [CallSite.isCall_mapLabels, CallSite.isCall_mapLabels]

theorem map_head (g : Generator) (f : Label → Label) (slots : List Slot) (start : Label)
    (targets : List Label) :
    (g.head slots start targets).map (Insn.mapLabels f) =
      g.head slots (f start) (targets.map f) := by
  have hclear (s : Slot) : (clear s).map (Insn.mapLabels f) = clear s := by
    unfold clear
    cases Family.ofDescriptor s.desc <;> rfl
  have hresumption : (g.resumption start targets).map (Insn.mapLabels f) =
      g.resumption (f start) (targets.map f) := by
    unfold resumption
    rw [List.isEmpty_map]
    split <;> simp
  simp [head, List.map_flatMap, hclear, hresumption]

theorem map_suspension (g : Generator) (f : Label → Label) (slots : List Slot) (id : Nat)
    (resume : Label) :
    (g.suspension slots id resume).map (Insn.mapLabels f) = g.suspension slots id (f resume) := by
  have hpush (v : Int32) : (push v).mapLabels f = push v := by
    unfold push
    repeat' split
    all_goals rfl
  have hsave (s : Slot) : (g.save s).map (Insn.mapLabels f) = g.save s := rfl
  have hrestore (s : Slot) : (g.restore s).map (Insn.mapLabels f) = g.restore s := rfl
  simp [suspension, List.map_flatMap, hsave, hrestore, hpush]

end Generator

namespace Assembly

variable {g : Generator}

/-- The assembly with all labels renamed. -/
def mapLabels (f : Label → Label) (a : Assembly) : Assembly where
  buffer := a.buffer.mapLabels f
  states := a.states.mapLabels f
  resumes := a.resumes.map f

theorem splice_mapLabels (f : Label → Label) (a : Assembly) (is : List Insn) :
    (a.mapLabels f).splice (is.map (Insn.mapLabels f)) = (a.splice is).mapLabels f := by
  simp [splice, mapLabels, Buffer.mapLabels]

theorem close_agree (f : Label → Label) (a : Assembly) :
    Outcome.Agree (fun a a' => a' = a.mapLabels f) (a.close g) ((a.mapLabels f).close g) := by
  have hemit : (a.mapLabels f).buffer.emitAll output =
      ((a.buffer.emitAll output).1.mapLabels f, .ok ()) := Buffer.emitAll_mapLabels f a.buffer
  have hall := Assembly.emitAll_output a.buffer
  unfold close
  rw [hemit, hall]
  refine (Buffer.close_agree (discipline g) f _).bind ?_
  rintro b _ rfl
  exact rfl

theorem suspend_agree (f : Label → Label) (a : Assembly) :
    Outcome.Agree (fun a a' => a' = a.mapLabels f) (a.suspend g) ((a.mapLabels f).suspend g) := by
  have hpending : (a.mapLabels f).buffer.pending = a.buffer.pending :=
    Buffer.pending_mapLabels f a.buffer
  have htake : (a.mapLabels f).states.take =
      a.states.take.map fun x => (x.1, x.2.mapLabels f) := by
    unfold States.take
    simp only [mapLabels, States.count_mapLabels]
    simp only [States.mapLabels]
    split <;> rfl
  unfold suspend
  rw [hpending, htake]
  refine .ite Iff.rfl (fun _ => .fail _ _) fun _ => ?_
  cases a.states.take with
  | error e => exact .fail _ _
  | ok x =>
    obtain ⟨id, states⟩ := x
    dsimp only [Except.map]
    rw [States.label?_mapLabels]
    cases states.label? id with
    | none => exact .undefined
    | some resume =>
      -- the suspension places the label of the state, which has its new name in the other
      have hsplice := splice_mapLabels f a (g.suspension states.slots id resume)
      rw [Generator.map_suspension] at hsplice
      refine congrArg (fun m : Assembly => { m with
        states := states.mapLabels f, resumes := f resume :: a.resumes.map f }) hsplice

theorem checkStatement_agree (f : Label → Label) (i : Insn) (height : Nat) :
    Outcome.Agree (· = ·) (checkStatement g i height)
      (checkStatement g (i.mapLabels f) height) := by
  unfold checkStatement
  rw [Generator.role_mapLabels]
  refine .ite Iff.rfl (fun _ => rfl) fun _ => (Insn.change_agree f i).bind ?_
  rintro change _ rfl
  exact .ite Iff.rfl (fun _ => Insn.blame_agree ..) fun _ => rfl

theorem answer_agree (f : Label → Label) (i : Insn) (a : Assembly) :
    Outcome.Agree (fun a a' => a' = a.mapLabels f) (a.answer g i)
      ((a.mapLabels f).answer g (i.mapLabels f)) := by
  unfold answer
  rw [Generator.role_mapLabels]
  cases g.role i with
  | plain => exact rfl
  | yields => exact suspend_agree f a
  | breaks => exact splice_mapLabels f a Generator.termination

theorem openAt_mapLabels (f : Label → Label) (i : Insn) (height : Option Nat) (a : Assembly) :
    (a.mapLabels f).openAt (i.mapLabels f) height = (a.openAt i height).mapLabels f := by
  unfold openAt
  rw [Insn.isAdmissible_mapLabels]
  split
  · exact congrArg (fun buffer => { a.mapLabels f with buffer })
      (Buffer.start_mapLabels f a.buffer 0)
  · rfl

theorem settle_agree {x y : Buffer (List Insn) × Except Failure Unit} (a : Assembly)
    (hbuffer : y.1 = x.1.mapLabels f) (hresult : @Outcome.Agree Unit Unit (· = ·) x.2 y.2) :
    Outcome.Agree (fun a a' => a' = a.mapLabels f) (a.settle x) ((a.mapLabels f).settle y) := by
  obtain ⟨buffer, result⟩ := x
  obtain ⟨buffer', result'⟩ := y
  obtain rfl : buffer' = buffer.mapLabels f := hbuffer
  match result, result' with
  | .ok (), .ok () => exact rfl
  | .error e, .error e' => exact hresult

theorem step_agree (f : Label → Label) (i : Insn) (height : Option Nat) (a : Assembly) :
    Outcome.Agree (fun a a' => a' = a.mapLabels f) (a.step g i height)
      ((a.mapLabels f).step g (i.mapLabels f) height) := by
  -- the two ways to go on: as code between statements, or as a statement
  have hvisit (a : Assembly) : Outcome.Agree (fun a a' => a' = a.mapLabels f)
      (a.settle (a.buffer.visit (discipline g) i))
      ((a.mapLabels f).settle ((a.mapLabels f).buffer.visit (discipline g) (i.mapLabels f))) := by
    obtain ⟨hbuffer, hresult⟩ := Buffer.visit_agree g f a.buffer i
    exact settle_agree a hbuffer hresult
  have hstatement (h : Nat) (a : Assembly) : Outcome.Agree (fun a a' => a' = a.mapLabels f)
      (do
        checkStatement g i h
        let a := a.openAt i (some h)
        let a ← a.settle (a.buffer.visit (discipline g) i)
        a.answer g i)
      (do
        checkStatement g (i.mapLabels f) h
        let a := (a.mapLabels f).openAt (i.mapLabels f) (some h)
        let a ← a.settle (a.buffer.visit (discipline g) (i.mapLabels f))
        a.answer g (i.mapLabels f)) := by
    refine (checkStatement_agree f i h).bind fun _ _ _ => ?_
    rw [openAt_mapLabels]
    refine (hvisit _).bind ?_
    rintro a' _ rfl
    exact answer_agree f i a'
  have hopen : (a.mapLabels f).buffer.isOpen = a.buffer.isOpen := Buffer.isOpen_mapLabels f a.buffer
  unfold step
  rw [hopen, Insn.isAdmissible_mapLabels]
  cases height with
  | none =>
    refine .ite Iff.rfl (fun _ => (close_agree f a).bind ?_) fun _ => hvisit a
    rintro a' _ rfl
    exact hvisit a'
  | some h =>
    refine .ite Iff.rfl (fun _ => (close_agree f a).bind ?_) fun _ => hstatement h a
    rintro a' _ rfl
    exact hstatement h a'

theorem visit_agree {σ : Equiv.Perm Label} {body body' : Listing} {heights : Heights}
    (h : Listing.Renamed σ body body') (a a' : Assembly) (r : Ref) (ha : a' = a.mapLabels σ) :
    Outcome.Agree (fun a a' => a' = a.mapLabels σ) (visit g body heights a r)
      (visit g body' heights a' r) := by
  subst ha
  refine (h.fetch_agree r).bind ?_
  rintro i _ rfl
  exact step_agree σ i (heights.at? r) a

theorem finish_agree (f : Label → Label) (a : Assembly) :
    Outcome.Agree (fun a a' => a' = a.mapLabels f) (a.finish g) ((a.mapLabels f).finish g) := by
  refine ((close_agree f a).mapFault _ _).bind ?_
  rintro a' _ rfl
  exact .ite Iff.rfl (fun _ => .fail _ _) fun _ => rfl

/-- Woven listings of renamed bodies are renamed, and their resume labels are placed by the same
nodes. -/
theorem listing_renamed {σ : Equiv.Perm Label} {body body' : Listing}
    (h : Listing.Renamed σ body body') (a : Assembly) :
    Listing.Renamed σ (a.listing body).1 ((a.mapLabels σ).listing body').1 ∧
      ((a.mapLabels σ).listing body').2 = (a.listing body).2 := by
  have hlisting : Listing.Renamed σ (a.listing body).1 ((a.mapLabels σ).listing body').1 := by
    have hall := h.fork.appendAll a.buffer.sink.reverse
    rw [List.map_reverse] at hall
    exact hall
  refine ⟨hlisting, ?_⟩
  have hresumes : (a.resumes.map σ).reverse.filterMap ((a.mapLabels σ).listing body').1.binding =
      a.resumes.reverse.filterMap (a.listing body).1.binding := by
    rw [← List.map_reverse, List.filterMap_map]
    exact List.filterMap_congr fun lbl _ => hlisting.binding lbl
  exact hresumes

end Assembly

/-! ### Building -/

/-- Feeding two consumers that agree takes related states to related states, and fails for both or
for neither. -/
theorem Listing.feed_agree {α β ι : Type} {R : α → β → Prop} {step : α → ι → Outcome α}
    {step' : β → ι → Outcome β} (h : ∀ a b i, R a b → Outcome.Agree R (step a i) (step' b i))
    (is : List ι) {a : α} {b : β} (hab : R a b) :
    R (feed step a is).1 (feed step' b is).1 ∧
      Option.Rel Failure.Agree (feed step a is).2 (feed step' b is).2 := by
  induction is generalizing a b with
  | nil => exact ⟨hab, .none⟩
  | cons i is ih =>
    have hstep := h a b i hab
    rw [feed, feed]
    cases hs : step a i with
    | ok a' =>
      cases hs' : step' b i with
      | ok b' =>
        rw [hs, hs'] at hstep
        exact ih hstep
      | error e' =>
        rw [hs, hs'] at hstep
        exact hstep.elim
    | error e =>
      cases hs' : step' b i with
      | ok b' =>
        rw [hs, hs'] at hstep
        exact hstep.elim
      | error e' =>
        rw [hs, hs'] at hstep
        exact ⟨hab, .some hstep⟩

namespace Generator

/-- The same was built of two bodies, but for label numbers. -/
structure BuildRenamed (σ : Equiv.Perm Label) (b b' : Build) : Prop where
  body : Listing.Renamed σ b.body b'.body
  states : b'.states = b.states.mapLabels σ
  woven : Outcome.Agree (fun x x' => Listing.Renamed σ x.1 x'.1 ∧ x'.2 = x.2) b.woven b'.woven

variable {σ : Equiv.Perm Label} {body body' : Listing}

theorem assemble_renamed (g : Generator) (heights : Heights) (h : Listing.Renamed σ body body')
    (states : States) :
    BuildRenamed σ (g.assemble heights body states)
      (g.assemble heights body' (states.mapLabels σ)) := by
  obtain ⟨htargets, hstates, hlabelled⟩ := h.newLabel.labelAll states
  have hstart := h.newLabel_fst
  unfold assemble
  dsimp only
  generalize body.newLabel.1 = start, body'.newLabel.1 = start' at hstart
  generalize states.labelAll body.newLabel.2 = x,
    (states.mapLabels σ).labelAll body'.newLabel.2 = x' at htargets hstates hlabelled
  obtain ⟨targets, states, body⟩ := x
  obtain ⟨targets', states', body'⟩ := x'
  obtain ⟨rfl, hstart⟩ := hstart
  obtain rfl : targets' = targets.map σ := htargets
  obtain rfl : states' = states.mapLabels σ := hstates
  dsimp only at hlabelled ⊢
  -- the head of one is the head of the other under its new labels
  let a : Assembly := ⟨⟨(g.head states.slots start' targets).reverse, none⟩, states, []⟩
  have ha' : (⟨⟨(g.head states.slots start' (targets.map σ)).reverse, none⟩,
      states.mapLabels σ, []⟩ : Assembly) = a.mapLabels σ := by
    have hhead := g.map_head σ states.slots start' targets
    rw [hstart] at hhead
    simp only [a, Assembly.mapLabels, Buffer.mapLabels, List.map_reverse, hhead]
    rfl
  have hslots : (states.mapLabels σ).slots = states.slots := rfl
  rw [hslots, ha', hlabelled.refs_eq]
  obtain ⟨hlast, hresult⟩ := Listing.feed_agree (R := fun a a' : Assembly => a' = a.mapLabels σ)
    (Assembly.visit_agree hlabelled) body.refs (rfl : a.mapLabels σ = a.mapLabels σ)
  generalize Listing.feed (Assembly.visit g body heights) a body.refs = y at hlast hresult
  generalize Listing.feed (Assembly.visit g body' heights) (a.mapLabels σ) body.refs = y'
    at hlast hresult
  obtain ⟨b, result⟩ := y
  obtain ⟨b', result'⟩ := y'
  obtain rfl : b' = b.mapLabels σ := hlast
  cases hresult with
  | none =>
    refine ⟨hlabelled, rfl, (Assembly.finish_agree σ b).map ?_⟩
    rintro c _ rfl
    exact Assembly.listing_renamed hlabelled c
  | some he => exact ⟨hlabelled, rfl, Failure.Agree.map he _ _⟩

/-- Renamed bodies are made resumable in the same way. -/
theorem build_renamed (g : Generator) (h : Listing.Renamed σ body body') (states : States) :
    BuildRenamed σ (g.build body states) (g.build body' (states.mapLabels σ)) := by
  have hheights := h.heights_agree
  unfold build
  cases hh : body.heights with
  | error e =>
    rw [hh] at hheights
    obtain ⟨e', hh', he⟩ := hheights.error
    rw [hh']
    exact ⟨h, rfl, Failure.Agree.map he _ _⟩
  | ok heights =>
    obtain ⟨_, hh', rfl⟩ := hheights.eq_ok hh
    rw [hh']
    exact assemble_renamed g heights h states

end Generator

end ClassWeaver
