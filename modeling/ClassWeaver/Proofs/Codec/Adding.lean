import ClassWeaver.Proofs.Codec.Pool

/-!
# What constants can be added to, and what that leaves

A pool that was read need not be sound: its last entry may be wide and lack its second place. Adding
constants only looks at the index of the pool, so all that it needs is that the index is right
(`Pool.Keyed`), which holds of every pool that was read. The entries that were there stay, under the
indices that they have in the index (`Pool.Grows`), and a constant that was added is kept at its
index (`Pool.KeptAt`) however much is added behind it: there it is found when it is looked up, and
there it is found when it is added again.
-/

namespace ClassWeaver

namespace Pool

variable {p q r : Pool} {c : Constant} {i : UInt16}

/-! ### Pools with a right index -/

/-- The index of the pool is right: it leads to places of the constants in the table, and to one
for every constant that can be recognised. -/
structure Keyed (p : Pool) : Prop where
  occupied : 0 < p.count
  found : ∀ {c : Constant} {n : Nat}, p.index[c]? = some n → p.entries[n]? = some c ∧ n ≠ 0
  recognised : ∀ c ∈ p.entries.toList, c.tag ≠ 0 → c.isNaN = false → ∃ n, p.index[c]? = some n

/-- A pool that nothing was added to. -/
def Initial (p : Pool) : Prop := p = .empty ∨ ∃ c c', Pool.read c = .ok (p, c')

theorem keyed_empty : Keyed .empty where
  occupied := by decide
  found := fun {c n} h => by
    rw [empty, Std.HashMap.getElem?_empty] at h
    cases h
  recognised := fun c hc htag => by
    obtain rfl := List.mem_singleton.mp (show c ∈ [Constant.unused] from hc)
    exact absurd rfl htag

/-- A table that begins with an unused entry has a right index. -/
theorem keyed_ofEntries {entries : Array Constant} {cs : List Constant}
    (h : entries.toList = .unused :: cs) : (ofEntries entries).Keyed where
  occupied := by
    rw [count, ofEntries, ← Array.length_toList, h]
    exact Nat.succ_pos _
  found := fun {c n} hn => by
    rw [ofEntries, getElem?_indexOf] at hn
    split at hn
    · cases hn
    · next hc =>
      obtain ⟨hlt, heq, -⟩ := List.findIdx?_eq_some_iff_getElem.mp hn
      have hentry : entries.toList[n]? = some c := by
        rw [List.getElem?_eq_getElem hlt, eq_of_beq heq]
      refine ⟨Array.getElem?_toList ▸ hentry, ?_⟩
      rintro rfl
      rw [h, List.getElem?_cons_zero] at hentry
      obtain rfl := Option.some.inj hentry
      exact hc rfl
  recognised := fun c hc htag hnan => by
    rw [ofEntries, getElem?_indexOf, if_neg (by simp [htag, hnan])]
    exact Option.isSome_iff_exists.mp (List.isSome_idxOf?.mpr hc)

theorem Initial.keyed (h : p.Initial) : p.Keyed := by
  rcases h with rfl | ⟨c, c', h⟩
  · exact keyed_empty
  · obtain ⟨entries, cs, rfl, hcs, -⟩ := yields_read c p c' h
    exact keyed_ofEntries hcs

/-! ### Growing -/

/-- A pool has become another by adding constants: they stand behind the entries that there were,
and the index leads where it led. -/
structure Grows (p q : Pool) : Prop where
  added : ∃ cs : List Constant, (∀ c ∈ cs, c ≠ .unused) ∧
    q.entries.toList = p.entries.toList ++ cs.flatMap newEntries
  index : ∀ {c : Constant} {n : Nat}, p.index[c]? = some n → q.index[c]? = some n

theorem Grows.within (h : p.Grows q) : p.Within q := by
  obtain ⟨cs, -, hcs⟩ := h.added
  exact ⟨cs.flatMap newEntries, hcs.symm⟩

theorem Grows.refl (p : Pool) : p.Grows p := by
  refine ⟨⟨[], ?_, (List.append_nil _).symm⟩, fun h => h⟩
  exact fun c hc => nomatch hc

theorem Grows.trans (h : p.Grows q) (h' : q.Grows r) : p.Grows r := by
  obtain ⟨cs, hcs, hq⟩ := h.added
  obtain ⟨cs', hcs', hr⟩ := h'.added
  refine ⟨⟨cs ++ cs', fun c hc => ?_, ?_⟩, fun hn => h'.index (h.index hn)⟩
  · exact (List.mem_append.mp hc).elim (hcs c) (hcs' c)
  · rw [hr, hq, List.flatMap_append, List.append_assoc]

/-- The constant stands at an index, where it is recognised if it can be. -/
def KeptAt (q : Pool) (c : Constant) (i : UInt16) : Prop :=
  ∃ n, i = n.toUInt16 ∧ n ≠ 0 ∧ q.entries[n]? = some c ∧ (c.isNaN = false → q.index[c]? = some n)

theorem KeptAt.grow (h : p.KeptAt c i) (hq : p.Grows q) : q.KeptAt c i := by
  obtain ⟨n, hi, hn, hentry, hindex⟩ := h
  exact ⟨n, hi, hn, hq.within.entry hentry, fun hnan => hq.index (hindex hnan)⟩

theorem KeptAt.get (h : q.KeptAt c i) (hq : q.Fits) (hc : c.Tagged) : q.get i = .ok c := by
  obtain ⟨n, rfl, hn, hentry, -⟩ := h
  exact get_of_entry hq hentry hn hc.tag_ne_zero

/-- A constant that is recognised is not added again. -/
theorem KeptAt.again (h : q.KeptAt c i) (hnan : c.isNaN = false) : q.add c = (i, q) := by
  obtain ⟨n, rfl, -, -, hindex⟩ := h
  rw [add, if_neg (by simp [hnan]), hindex hnan]

/-- What comes of adding to a pool: a pool that has grown, and an index of which something holds
in every pool that grows from that. -/
structure Puts (p : Pool) (out : UInt16 × Pool) (P : Pool → UInt16 → Prop) : Prop where
  keyed : out.2.Keyed
  grows : p.Grows out.2
  kept : ∀ q, out.2.Grows q → P q out.1

section Putting

variable {P P' : Pool → UInt16 → Prop} {out out' : UInt16 × Pool}

theorem Puts.andThen (h : Puts p out P) (h' : Puts out.2 out' P') :
    Puts p out' fun q j => P q out.1 ∧ P' q j :=
  ⟨h'.keyed, h.grows.trans h'.grows, fun q hq =>
    ⟨h.kept q (h'.grows.trans hq), h'.kept q hq⟩⟩

theorem Puts.imp (h : Puts p out P) (himp : ∀ q i, P q i → P' q i) : Puts p out P' :=
  ⟨h.keyed, h.grows, fun q hq => himp q _ (h.kept q hq)⟩

end Putting

theorem entries_extended (p : Pool) (c : Constant) :
    (p.extended c).entries.toList = p.entries.toList ++ newEntries c := by
  rw [extended]

/-- A constant that is not in the index goes to the end of the table. -/
theorem puts_extended (hp : p.Keyed) (hc : c ≠ .unused)
    (hnew : c.isNaN = true ∨ p.index[c]? = none) :
    Puts p (p.count.toUInt16, p.extended c) fun q i => q.KeptAt c i := by
  have hentry := entry_extended p c
  have hgrows : p.Grows (p.extended c) := by
    refine ⟨⟨[c], by simpa using hc, by simp [entries_extended]⟩, fun {d n} hd => ?_⟩
    cases hnan : c.isNaN with
    | true => rw [index_extended_nan hnan, hd]
    | false =>
      have hne : c ≠ d := by
        rintro rfl
        rw [hnan, hd] at hnew
        rcases hnew with h | h <;> cases h
      rw [index_extended hnan, if_neg hne, hd]
  -- a constant that is no number is at its place, too, but the index does not know it
  have hkept : (p.extended c).KeptAt c p.count.toUInt16 := by
    refine ⟨p.count, rfl, Nat.ne_of_gt hp.occupied, hentry, fun hnan => ?_⟩
    rw [index_extended hnan, if_pos rfl]
  refine ⟨⟨?_, fun {d n} hd => ?_, fun d hd htag hnan => ?_⟩, hgrows, fun q hq => hkept.grow hq⟩
  · exact Nat.lt_of_lt_of_le hp.occupied hgrows.within.length_le
  · -- what the index leads to is the new entry or an old one
    cases hnan : c.isNaN with
    | true =>
      rw [index_extended_nan hnan] at hd
      obtain ⟨hold, hn⟩ := hp.found hd
      exact ⟨hgrows.within.entry hold, hn⟩
    | false =>
      rw [index_extended hnan] at hd
      split at hd
      · next heq =>
        obtain rfl := Option.some.inj hd
        exact ⟨heq ▸ hentry, Nat.ne_of_gt hp.occupied⟩
      · obtain ⟨hold, hn⟩ := hp.found hd
        exact ⟨hgrows.within.entry hold, hn⟩
  · rw [entries_extended, List.mem_append] at hd
    rcases hd with hd | hd
    · obtain ⟨n, hn⟩ := hp.recognised d hd htag hnan
      exact ⟨n, hgrows.index hn⟩
    · have hdc : d = c := by
        unfold newEntries at hd
        split at hd
        · rcases List.mem_pair.mp hd with rfl | rfl
          · rfl
          · exact absurd rfl htag
        · exact List.mem_singleton.mp hd
      subst hdc
      exact ⟨p.count, by rw [index_extended hnan, if_pos rfl]⟩

/-- Only what is in the table, and can be recognised, is not appended. -/
theorem Keyed.add_of_new (hp : p.Keyed) (hnew : ¬(c ∈ p.entries.toList ∧ c.isNaN = false)) :
    p.add c = (p.count.toUInt16, p.extended c) := by
  refine add_of_none ?_
  split
  · rfl
  · next hnan =>
    refine Option.eq_none_iff_forall_ne_some.mpr fun n hn => hnew ⟨?_, by simpa using hnan⟩
    exact List.mem_of_getElem? (Array.getElem?_toList ▸ (hp.found hn).1)

theorem puts_add (hp : p.Keyed) (c : Constant) (hc : c ≠ .unused) :
    Puts p (p.add c) fun q i => q.KeptAt c i := by
  rcases add_eq p c with ⟨n, hn, hadd⟩ | ⟨hnew, hadd⟩
  · obtain ⟨hentry, hzero⟩ := hp.found hn
    have hkept : p.KeptAt c n.toUInt16 := ⟨n, rfl, hzero, hentry, fun _ => hn⟩
    rw [hadd]
    exact ⟨hp, .refl p, fun q hq => hkept.grow hq⟩
  · rw [hadd]
    exact puts_extended hp hc hnew

/-! ### Constants with parts -/

variable {tag : UInt8} {t name desc owner : Text}

/-- A constant that refers to a text stands at an index. -/
def SingleAt (q : Pool) (tag : UInt8) (t : Text) (i : UInt16) : Prop :=
  ∃ j, q.KeptAt (.utf8 t) j ∧ q.KeptAt (.single tag j) i

/-- A name with a type stands at an index. -/
def PairAt (q : Pool) (name desc : Text) (i : UInt16) : Prop :=
  ∃ j k, q.KeptAt (.utf8 name) j ∧ q.KeptAt (.utf8 desc) k ∧
    q.KeptAt (.pair Tag.nameAndType j k) i

/-- A reference to a field or method stands at an index. -/
def MemberAt (q : Pool) (tag : UInt8) (owner name desc : Text) (i : UInt16) : Prop :=
  ∃ j k, q.SingleAt Tag.classRef owner j ∧ q.PairAt name desc k ∧ q.KeptAt (.pair tag j k) i

theorem SingleAt.again (h : q.SingleAt tag t i) : q.addSingle tag t = (i, q) := by
  obtain ⟨j, htext, hsingle⟩ := h
  have hj : q.addText t = (j, q) := htext.again rfl
  rw [addSingle_eq, hj]
  exact hsingle.again rfl

theorem PairAt.again (h : q.PairAt name desc i) : q.addNameAndType name desc = (i, q) := by
  obtain ⟨j, k, hname, hdesc, hpair⟩ := h
  have hj : q.addText name = (j, q) := hname.again rfl
  have hk : q.addText desc = (k, q) := hdesc.again rfl
  rw [addNameAndType_eq, hj]
  dsimp only
  rw [hk]
  exact hpair.again rfl

theorem MemberAt.again (h : q.MemberAt tag owner name desc i) :
    q.addMember tag owner name desc = (i, q) := by
  obtain ⟨j, k, howner, hnat, hpair⟩ := h
  have hj : q.addClass owner = (j, q) := howner.again
  rw [addMember_eq, hj]
  dsimp only
  rw [hnat.again]
  exact hpair.again rfl

theorem puts_addText (hp : p.Keyed) (t : Text) :
    Puts p (p.addText t) fun q i => q.KeptAt (.utf8 t) i :=
  puts_add hp (.utf8 t) nofun

theorem puts_addSingle (hp : p.Keyed) (tag : UInt8) (t : Text) :
    Puts p (p.addSingle tag t) fun q i => q.SingleAt tag t i := by
  have htext := puts_addText hp t
  rw [addSingle_eq]
  generalize p.addText t = out at htext ⊢
  exact (htext.andThen (puts_add htext.keyed (.single tag out.1) nofun)).imp fun _ _ h => ⟨_, h⟩

theorem puts_addNameAndType (hp : p.Keyed) (name desc : Text) :
    Puts p (p.addNameAndType name desc) fun q i => q.PairAt name desc i := by
  have hname := puts_addText hp name
  have hdesc := puts_addText hname.keyed desc
  rw [addNameAndType_eq]
  generalize (p.addText name).2.addText desc = last at hdesc ⊢
  generalize p.addText name = first at hname hdesc ⊢
  have hpair := puts_add hdesc.keyed (.pair Tag.nameAndType first.1 last.1) nofun
  exact (hname.andThen (hdesc.andThen hpair)).imp fun _ _ h => ⟨_, _, h⟩

theorem puts_addMember (hp : p.Keyed) (tag : UInt8) (owner name desc : Text) :
    Puts p (p.addMember tag owner name desc) fun q i => q.MemberAt tag owner name desc i := by
  have howner : Puts p (p.addClass owner) _ := puts_addSingle hp Tag.classRef owner
  have hnat := puts_addNameAndType howner.keyed name desc
  rw [addMember_eq]
  generalize (p.addClass owner).2.addNameAndType name desc = last at hnat ⊢
  generalize p.addClass owner = first at howner hnat ⊢
  have hpair := puts_add hnat.keyed (.pair tag first.1 last.1) nofun
  exact (howner.andThen (hnat.andThen hpair)).imp fun _ _ h => ⟨_, _, h⟩

/-- A loadable constant stands at an index. -/
def LoadableAt (q : Pool) (i : UInt16) : Loadable → Prop
  | .int v => q.KeptAt (.integer v) i
  | .float bits => q.KeptAt (.float bits) i
  | .long v => q.KeptAt (.long v) i
  | .double bits => q.KeptAt (.double bits) i
  | .string t => q.SingleAt Tag.string t i
  | .classRef name => q.SingleAt Tag.classRef name i
  | .methodType desc => q.SingleAt Tag.methodType desc i
  | .pooled j => i = j ∧ ∃ c, q.get j = .ok c
  | .truth _ => False

theorem puts_addLoadable (hp : p.Keyed) {v : Loadable} {out : UInt16 × Pool}
    (h : p.addLoadable v = .ok out) : Puts p out fun q i => q.LoadableAt i v := by
  cases v with
  | int v => exact Except.ok.inj h ▸ puts_add hp (.integer v) nofun
  | float bits => exact Except.ok.inj h ▸ puts_add hp (.float bits) nofun
  | long v => exact Except.ok.inj h ▸ puts_add hp (.long v) nofun
  | double bits => exact Except.ok.inj h ▸ puts_add hp (.double bits) nofun
  | string t => exact Except.ok.inj h ▸ puts_addSingle hp Tag.string t
  | classRef name => exact Except.ok.inj h ▸ puts_addSingle hp Tag.classRef name
  | methodType desc => exact Except.ok.inj h ▸ puts_addSingle hp Tag.methodType desc
  | pooled i =>
    obtain ⟨c, hc, h⟩ := Except.bind_eq_ok_iff.mp h
    obtain rfl := Except.ok.inj h
    exact ⟨hp, .refl p, fun q hq => ⟨rfl, c, hq.within.get hc⟩⟩
  | truth b => cases h

/-! ### What is found in a pool -/

/-- Whatever is found at an index of the one pool is found there in the other. -/
structure Preserved (p q : Pool) : Prop where
  get : ∀ {i c}, p.get i = .ok c → q.get i = .ok c
  textAt : ∀ {i t}, p.textAt i = .ok t → q.textAt i = .ok t
  className : ∀ {i name}, p.className i = .ok name → q.className i = .ok name
  nameAndType : ∀ {i x}, p.nameAndType i = .ok x → q.nameAndType i = .ok x
  member : ∀ {i m}, p.member i = .ok m → q.member i = .ok m
  loadable : ∀ {i v}, p.loadable i = .ok v → q.loadable i = .ok v

theorem eq_ok_of_ite {α : Type} {b : Prop} [Decidable b] {x y x' y' : Except Fault α} {a : α}
    (h : x = .ok a → x' = .ok a) (h' : y = .ok a → y' = .ok a) :
    (if b then x else y) = .ok a → (if b then x' else y') = .ok a := by
  split
  · exact h
  · exact h'

/-- All that is found is put together from entries. -/
theorem preserved_of_get (h : ∀ {i c}, p.get i = .ok c → q.get i = .ok c) : Preserved p q := by
  have hexpect : ∀ {i tag c}, p.expect i tag = .ok c → q.expect i tag = .ok c := by
    intro i tag c hc
    obtain ⟨d, hd, hc⟩ := Except.bind_eq_ok_iff.mp hc
    exact Except.bind_eq_ok_iff.mpr ⟨d, h hd, hc⟩
  have htext : ∀ {i t}, p.textAt i = .ok t → q.textAt i = .ok t := by
    intro i t ht
    obtain ⟨d, hd, ht⟩ := Except.bind_eq_ok_iff.mp ht
    exact Except.bind_eq_ok_iff.mpr ⟨d, hexpect hd, ht⟩
  have hclass : ∀ {i name}, p.className i = .ok name → q.className i = .ok name := by
    intro i name hname
    obtain ⟨d, hd, hname⟩ := Except.bind_eq_ok_iff.mp hname
    exact Except.bind_eq_ok_iff.mpr ⟨d, hexpect hd, htext hname⟩
  have hnat : ∀ {i x}, p.nameAndType i = .ok x → q.nameAndType i = .ok x := by
    intro i x hx
    obtain ⟨d, hd, hx⟩ := Except.bind_eq_ok_iff.mp hx
    obtain ⟨name, hname, hx⟩ := Except.bind_eq_ok_iff.mp hx
    obtain ⟨desc, hdesc, hx⟩ := Except.bind_eq_ok_iff.mp hx
    exact Except.bind_eq_ok_iff.mpr ⟨d, hexpect hd, Except.bind_eq_ok_iff.mpr ⟨name, htext hname,
      Except.bind_eq_ok_iff.mpr ⟨desc, htext hdesc, hx⟩⟩⟩
  -- a member is made of a class and a name with a type, a loadable constant of at most a text
  refine ⟨h, htext, hclass, hnat, fun {i m} hm => ?_, fun {i v} hv => ?_⟩
  · obtain ⟨d, hd, hm⟩ := Except.bind_eq_ok_iff.mp hm
    refine Except.bind_eq_ok_iff.mpr ⟨d, h hd, ?_⟩
    revert hm
    refine eq_ok_of_ite (fun hm => ?_) nofun
    obtain ⟨owner, howner, hm⟩ := Except.bind_eq_ok_iff.mp hm
    obtain ⟨x, hx, hm⟩ := Except.bind_eq_ok_iff.mp hm
    exact Except.bind_eq_ok_iff.mpr ⟨owner, hclass howner,
      Except.bind_eq_ok_iff.mpr ⟨x, hnat hx, hm⟩⟩
  · obtain ⟨d, hd, hv⟩ := Except.bind_eq_ok_iff.mp hv
    refine Except.bind_eq_ok_iff.mpr ⟨d, h hd, ?_⟩
    have hpart : ∀ (f : Text → Loadable), (do return f (← p.textAt d.first)) = Except.ok v →
        (do return f (← q.textAt d.first)) = Except.ok v := by
      intro f hf
      obtain ⟨t, ht, hf⟩ := Except.bind_eq_ok_iff.mp hf
      exact Except.bind_eq_ok_iff.mpr ⟨t, htext ht, hf⟩
    revert hv
    cases d with
    | integer _ | float _ | long _ | double _ => exact id
    | _ =>
      refine eq_ok_of_ite id (eq_ok_of_ite id (eq_ok_of_ite id (eq_ok_of_ite id ?_)))
      refine eq_ok_of_ite (hpart _) (eq_ok_of_ite (hpart _) (eq_ok_of_ite (hpart _) ?_))
      exact eq_ok_of_ite id nofun

theorem Grows.preserved (h : p.Grows q) : p.Preserved q :=
  preserved_of_get fun hc => h.within.get hc

theorem KeptAt.textAt (h : q.KeptAt (.utf8 t) i) (hq : q.Fits) : q.textAt i = .ok t :=
  textAt_of_get (h.get hq trivial)

theorem SingleAt.className (h : q.SingleAt Tag.classRef t i) (hq : q.Fits) :
    q.className i = .ok t := by
  obtain ⟨j, htext, hsingle⟩ := h
  have htag : Tag.isSingle Tag.classRef = true := by decide
  exact className_of_get (hsingle.get hq htag) (htext.textAt hq)

theorem PairAt.nameAndType (h : q.PairAt name desc i) (hq : q.Fits) :
    q.nameAndType i = .ok (name, desc) := by
  obtain ⟨j, k, hname, hdesc, hpair⟩ := h
  have htag : Tag.isPair Tag.nameAndType = true := by decide
  exact nameAndType_of_get (hpair.get hq htag) (hname.textAt hq) (hdesc.textAt hq)

theorem MemberAt.member (h : q.MemberAt tag owner name desc i) (hq : q.Fits)
    (htag : Tag.isMember tag = true) : q.member i = .ok ⟨owner, name, desc, tag⟩ := by
  obtain ⟨j, k, howner, hnat, hpair⟩ := h
  have hpaired : Tag.isPair tag = true := by
    rw [Tag.isPair, htag]
    rfl
  exact member_of_get (hpair.get hq hpaired) htag (howner.className hq) (hnat.nameAndType hq)

theorem LoadableAt.loadable {v : Loadable} (h : q.LoadableAt i v) (hq : q.Fits)
    (hv : ∀ j, v = .pooled j → q.Pooled j) : q.loadable i = .ok v := by
  cases v with
  | int v => rw [Pool.loadable, KeptAt.get h hq trivial]; rfl
  | float bits => rw [Pool.loadable, KeptAt.get h hq trivial]; rfl
  | long v => rw [Pool.loadable, KeptAt.get h hq trivial]; rfl
  | double bits => rw [Pool.loadable, KeptAt.get h hq trivial]; rfl
  | string t =>
    obtain ⟨j, htext, hsingle⟩ := h
    have htag : Tag.isSingle Tag.string = true := by decide
    exact loadable_of_single (hsingle.get hq htag) (htext.textAt hq) (.inl ⟨rfl, rfl⟩)
  | classRef name =>
    obtain ⟨j, htext, hsingle⟩ := h
    have htag : Tag.isSingle Tag.classRef = true := by decide
    exact loadable_of_single (hsingle.get hq htag) (htext.textAt hq) (.inr (.inl ⟨rfl, rfl⟩))
  | methodType desc =>
    obtain ⟨j, htext, hsingle⟩ := h
    have htag : Tag.isSingle Tag.methodType = true := by decide
    exact loadable_of_single (hsingle.get hq htag) (htext.textAt hq) (.inr (.inr ⟨rfl, rfl⟩))
  | pooled j =>
    obtain ⟨rfl, -⟩ := h
    exact loadable_of_pooled (hv i rfl)
  | truth b => exact h.elim

end Pool

/-! ### Additions -/

/-- Something that can be added to a pool. -/
inductive Addition where
  | text (t : Text)
  | classRef (name : Text)
  | string (t : Text)
  | nameAndType (name desc : Text)
  | member (tag : UInt8) (owner name desc : Text)
  | loadable (v : Loadable)

namespace Addition

variable {p q r : Pool} {a : Addition} {i : UInt16}

/-- Adds to a pool: the index that is given out, and the pool afterwards. -/
def on (p : Pool) : Addition → Except Fault (UInt16 × Pool)
  | text t => .ok (p.addText t)
  | classRef name => .ok (p.addClass name)
  | string t => .ok (p.addString t)
  | nameAndType name desc => .ok (p.addNameAndType name desc)
  | member tag owner name desc => .ok (p.addMember tag owner name desc)
  | loadable v => p.addLoadable v

/-- What was added is found at the index. References must be to a field or method, and a constant
that is given by its index must be one that can be loaded like this. -/
def Resolves (q : Pool) (i : UInt16) : Addition → Prop
  | text t => q.textAt i = .ok t
  | classRef name => q.className i = .ok name
  | string t => q.loadable i = .ok (.string t)
  | nameAndType name desc => q.nameAndType i = .ok (name, desc)
  | member tag owner name desc =>
    Tag.isMember tag = true → q.member i = .ok ⟨owner, name, desc, tag⟩
  | loadable v => (∀ j, v = .pooled j → q.Pooled j) → q.loadable i = .ok v

/-- Whether the constant is not a number, and so is never recognised. -/
def isNaN : Addition → Bool
  | loadable (.float bits) => (Constant.float bits).isNaN
  | loadable (.double bits) => (Constant.double bits).isNaN
  | _ => false

/-- The entry of a constant that takes two indices. -/
def wide? : Addition → Option Constant
  | loadable (.long v) => some (.long v)
  | loadable (.double bits) => some (.double bits)
  | _ => none

/-- What was added stands at an index, with all its parts. -/
def StandsAt (q : Pool) (i : UInt16) : Addition → Prop
  | text t => q.KeptAt (.utf8 t) i
  | classRef name => q.SingleAt Tag.classRef name i
  | string t => q.SingleAt Tag.string t i
  | nameAndType name desc => q.PairAt name desc i
  | member tag owner name desc => q.MemberAt tag owner name desc i
  | loadable v => q.LoadableAt i v

theorem puts (hp : p.Keyed) {out : UInt16 × Pool} (h : a.on p = .ok out) :
    p.Puts out fun q i => a.StandsAt q i := by
  cases a with
  | text t => exact Except.ok.inj h ▸ Pool.puts_addText hp t
  | classRef name => exact Except.ok.inj h ▸ Pool.puts_addSingle hp Tag.classRef name
  | string t => exact Except.ok.inj h ▸ Pool.puts_addSingle hp Tag.string t
  | nameAndType name desc => exact Except.ok.inj h ▸ Pool.puts_addNameAndType hp name desc
  | member tag owner name desc => exact Except.ok.inj h ▸ Pool.puts_addMember hp tag owner name desc
  | loadable v => exact Pool.puts_addLoadable hp h

theorem StandsAt.resolves (h : a.StandsAt q i) (hq : q.Fits) : a.Resolves q i := by
  cases a with
  | text t => exact Pool.KeptAt.textAt h hq
  | classRef name => exact Pool.SingleAt.className h hq
  | string t =>
    have hstring : q.LoadableAt i (.string t) := h
    exact hstring.loadable hq nofun
  | nameAndType name desc => exact Pool.PairAt.nameAndType h hq
  | member tag owner name desc => exact fun htag => Pool.MemberAt.member h hq htag
  | loadable v => exact fun hv => Pool.LoadableAt.loadable h hq hv

/-- What stands in a pool is not added again. -/
theorem StandsAt.again (h : a.StandsAt q i) (hnan : a.isNaN = false) : a.on q = .ok (i, q) := by
  cases a with
  | text t => exact congrArg Except.ok (Pool.KeptAt.again h rfl)
  | classRef name => exact congrArg Except.ok (Pool.SingleAt.again h)
  | string t => exact congrArg Except.ok (Pool.SingleAt.again h)
  | nameAndType name desc => exact congrArg Except.ok (Pool.PairAt.again h)
  | member tag owner name desc => exact congrArg Except.ok (Pool.MemberAt.again h)
  | loadable v =>
    cases v with
    | int v => exact congrArg Except.ok (Pool.KeptAt.again h rfl)
    | float bits => exact congrArg Except.ok (Pool.KeptAt.again h hnan)
    | long v => exact congrArg Except.ok (Pool.KeptAt.again h rfl)
    | double bits => exact congrArg Except.ok (Pool.KeptAt.again h hnan)
    | string t => exact congrArg Except.ok (Pool.SingleAt.again h)
    | classRef name => exact congrArg Except.ok (Pool.SingleAt.again h)
    | methodType desc => exact congrArg Except.ok (Pool.SingleAt.again h)
    | pooled j =>
      obtain ⟨rfl, c, hc⟩ := h
      exact Except.bind_eq_ok_iff.mpr ⟨c, hc, rfl⟩
    | truth b => exact h.elim

/-- A constant with two indices is one entry and an unused one behind it, and it is there already
or comes to the end. -/
theorem on_of_wide {c : Constant} {out : UInt16 × Pool} (hp : p.Keyed) (hc : a.wide? = some c)
    (h : a.on p = .ok out) :
    if c ∈ p.entries.toList ∧ c.isNaN = false then out.2 = p
    else out.1 = p.count.toUInt16 ∧ out.2.entries.toList = p.entries.toList ++ [c, .unused] := by
  have hadd : out = p.add c ∧ c.isWide = true ∧ c.tag ≠ 0 := by
    unfold wide? at hc
    split at hc
    · obtain rfl := Option.some.inj hc
      exact ⟨(Except.ok.inj h).symm, rfl, show Tag.long ≠ 0 by decide⟩
    · obtain rfl := Option.some.inj hc
      exact ⟨(Except.ok.inj h).symm, rfl, show Tag.double ≠ 0 by decide⟩
    · cases hc
  obtain ⟨rfl, hwide, htag⟩ := hadd
  by_cases hknown : c ∈ p.entries.toList ∧ c.isNaN = false
  · obtain ⟨n, hn⟩ := hp.recognised c hknown.1 htag hknown.2
    rw [if_pos hknown, Pool.add, hknown.2, if_neg Bool.false_ne_true, hn]
  · rw [if_neg hknown, hp.add_of_new hknown]
    exact ⟨rfl, by rw [Pool.entries_extended, Pool.newEntries, if_pos hwide]⟩

end Addition

namespace Pool

/-- The pool when all of these were added one after the other. What cannot be added is left out. -/
def after (p : Pool) : List Addition → Pool
  | [] => p
  | a :: as =>
    match a.on p with
    | .ok (_, q) => q.after as
    | .error _ => p.after as

variable {p₀ p q : Pool}

/-- The index stays right, and no entry moves. -/
theorem Keyed.after (hp : p.Keyed) (as : List Addition) :
    (p.after as).Keyed ∧ p.Grows (p.after as) := by
  induction as generalizing p with
  | nil => exact ⟨hp, .refl p⟩
  | cons a as ih =>
    unfold Pool.after
    split
    · next i q hq =>
      have hputs := Addition.puts hp hq
      obtain ⟨hkeyed, hgrows⟩ := ih hputs.keyed
      exact ⟨hkeyed, hputs.grows.trans hgrows⟩
    · exact ih hp

/-- **Adding constants does not disturb a pool.** Let something be added to a pool that is new or
was read, in the middle of other additions that keep the number of entries within bounds. Then
whatever could be found at an index can still be found there; what was added is found at the index
that was given out; a new constant with two indices takes two; and what was added is recognised when
it is added again, unless it is not a number. -/
theorem after_exact (h₀ : p₀.Initial) (before later : List Addition) {a : Addition} {i : UInt16}
    (ha : a.on (p₀.after before) = .ok (i, p)) (hfits : (p.after later).Fits) :
    (p₀.after before).Preserved (p.after later) ∧ a.Resolves (p.after later) i ∧
    (∀ c, a.wide? = some c →
      if c ∈ (p₀.after before).entries.toList ∧ c.isNaN = false then p = p₀.after before
      else i.toNat = (p₀.after before).count ∧
        p.entries.toList = (p₀.after before).entries.toList ++ [c, .unused]) ∧
    (a.isNaN = false → a.on (p.after later) = .ok (i, p.after later)) := by
  obtain ⟨hkeyed, -⟩ := h₀.keyed.after before
  have hputs := Addition.puts hkeyed ha
  obtain ⟨-, hlater⟩ := hputs.keyed.after later
  have hstands := hputs.kept _ hlater
  have hgrows := hputs.grows.trans hlater
  refine ⟨hgrows.preserved, hstands.resolves hfits, fun c hc => ?_, hstands.again⟩
  have hwide := Addition.on_of_wide hkeyed hc ha
  dsimp only at hwide
  split at hwide
  · next hknown => rw [if_pos hknown, hwide]
  · next hknown =>
    have hcount : (p₀.after before).count < 65536 := by
      have hle := hgrows.within.length_le
      have hbound : (p.after later).count ≤ 65535 := hfits
      simp only [count, Array.length_toList] at hle hbound ⊢
      omega
    rw [if_neg hknown, hwide.1, toNat_toUInt16 hcount]
    exact ⟨rfl, hwide.2⟩

/-- The bytes of a pool with a class and a `long` that lacks its second place. -/
def cutBytes : List UInt8 :=
  [0, 4] ++ [1, 0, 1, 65] ++ [7, 0, 1] ++ [5, 0, 0, 0, 0, 0, 0, 0, 9]

/-- A pool that can be read, by the entries that it has. -/
theorem exists_of_read {x : Cursor} {entries : Array Constant}
    (h : (Pool.read x).toOption.map (fun out => out.1.entries) = some entries) :
    ∃ p x', Pool.read x = .ok (p, x') ∧ p.entries = entries := by
  cases hout : Pool.read x with
  | error e =>
    rw [hout] at h
    cases h
  | ok out =>
    rw [hout] at h
    exact ⟨out.1, out.2, rfl, Option.some.inj h⟩

theorem read_cutBytes : ∃ p x', Pool.read (.start cutBytes) = .ok (p, x') ∧
    p.entries = #[.unused, .utf8 "A", .single Tag.classRef 1, .long 9] :=
  exists_of_read (by decide +kernel)

/-- A second `long` gets two indices behind the first, and the text that is added next does not
disturb it. -/
theorem after_exact_cut : ∃ p₀ c' i p, Pool.read (.start cutBytes) = .ok (p₀, c') ∧
    Addition.on p₀ (.loadable (.long 7)) = .ok (i, p) ∧ i.toNat = 4 ∧
    p.entries.toList = p₀.entries.toList ++ [.long 7, .unused] ∧
    (p.after [.text "B"]).loadable i = .ok (.long 7) ∧
    Addition.on (p.after [.text "B"]) (.loadable (.long 7)) = .ok (i, p.after [.text "B"]) := by
  obtain ⟨p₀, c', hread, hentries⟩ := read_cutBytes
  have hinitial : p₀.Initial := .inr ⟨_, c', hread⟩
  have hnew : (.long 7 : Constant) ∉ p₀.entries.toList := by
    rw [hentries]
    decide
  obtain ⟨i, p, ha⟩ : ∃ i p, Addition.on p₀ (.loadable (.long 7)) = .ok (i, p) := ⟨_, _, rfl⟩
  have hputs := Addition.puts hinitial.keyed ha
  have hwide := Addition.on_of_wide hinitial.keyed rfl ha
  rw [if_neg fun h => hnew h.1] at hwide
  -- the text that comes later is new, so it makes one entry more
  have hfits : (p.after [.text "B"]).Fits := by
    have hcount : p.count = 6 := by
      rw [count, ← Array.length_toList, hwide.2, hentries]
      rfl
    have hlater : (.utf8 "B" : Constant) ∉ p.entries.toList := by
      rw [hwide.2, hentries]
      decide
    change (p.add (.utf8 "B")).2.count ≤ 65535
    rw [hputs.keyed.add_of_new fun h => hlater h.1, count, ← Array.length_toList, entries_extended,
      List.length_append, Array.length_toList, ← count, hcount]
    decide
  obtain ⟨-, hresolves, htwo, hagain⟩ := after_exact hinitial [] [.text "B"] ha hfits
  have hplaces := htwo (.long 7) rfl
  rw [if_neg fun h => hnew h.1] at hplaces
  obtain ⟨hindex, htable⟩ := hplaces
  have hresolves := hresolves fun j h => by cases h
  refine ⟨p₀, c', i, p, hread, ha, ?_, htable, hresolves, hagain rfl⟩
  rw [hindex]
  change p₀.entries.size = 4
  rw [hentries]
  rfl

end Pool

end ClassWeaver
