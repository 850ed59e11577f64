import Mathlib.Algebra.Order.Ring.Int
import ClassWeaver.Proofs.Instructions

/-!
# Following values on the stack

A run on tokens tells values apart that the heights of the stack do not: every value that is pushed
is a new token, and the instructions that copy and exchange values move tokens (`Tokens.step`).
Where a value comes from can be read off the code backwards (`origin?`), and the run bears it out:
what the code leaves at a depth is the token that stood at its origin, or a new one
(`Tokens.getElem?_run`).

A value keeps its place if nothing takes it and nothing moves a value under another one so far down.
On code that leaves the value as the highest one at the beginning and at no later time, the depth
says the rest (`origin?_of_spares`). -/

namespace ClassWeaver

/-! ### Instructions that move values -/

/-- The values that an opcode puts in place of those it takes, told by their depths before. Opcodes
without an arrangement put new values. -/
def Opcode.arrangement? (op : Opcode) : Option (List Nat) :=
  if op.code = 0x59 then some [0, 0]
  else if op.code = 0x5A then some [0, 1, 0]
  else if op.code = 0x5B then some [0, 1, 2, 0]
  else if op.code = 0x5C then some [0, 1, 0, 1]
  else if op.code = 0x5D then some [0, 1, 2, 0, 1]
  else if op.code = 0x5E then some [0, 1, 2, 3, 0, 1]
  else if op.code = 0x5F then some [1, 0]
  else none

/-- The opcodes that put a value under another one: all that have an arrangement but `dup` and
`dup2`. -/
def Opcode.shuffles (op : Opcode) : Bool :=
  op.arrangement?.isSome && op.code ≠ 0x59 && op.code ≠ 0x5C

/-- Tokens for the values on a stack, its top first, and the first token that is not in use. -/
structure Tokens where
  stack : List Nat
  fresh : Nat
  deriving DecidableEq

namespace Tokens

/-- The stack after an instruction that finds its operands. -/
def step (s : Tokens) (i : Insn) : Option Tokens :=
  match i.effect with
  | .error _ => none
  | .ok e =>
    if s.stack.length < e.pops then none
    else
      match i.opcode.arrangement? with
      | some places => some { s with stack := places.map (s.stack.getD · 0) ++ s.stack.drop e.pops }
      | none => some ⟨List.range' s.fresh e.pushes ++ s.stack.drop e.pops, s.fresh + e.pushes⟩

/-- The stack after straight code. -/
def run (s : Tokens) (code : List Insn) : Option Tokens := code.foldlM step s

end Tokens

/-- The depth before an instruction of the value that stands at a depth after it, if that is not a
new value. -/
def Insn.origin? (i : Insn) (depth : Nat) : Option Nat :=
  match i.effect with
  | .error _ => none
  | .ok e =>
    if e.pushes ≤ depth then some (depth - e.pushes + e.pops)
    else i.opcode.arrangement?.bind (·[depth]?)

/-- The depth before code of the value that stands at a depth after it. -/
def origin? : List Insn → Nat → Option Nat
  | [], depth => some depth
  | i :: code, depth => (origin? code depth).bind i.origin?

/-- Whether code leaves a value alone that has so many above it: it takes no value so far down, and
puts none under it. -/
def spares : Int → List Insn → Bool
  | _, [] => true
  | above, i :: code =>
    match i.effect with
    | .error _ => false
    | .ok e =>
      (!i.opcode.shuffles || e.pops ≤ above) && 0 ≤ above + i.rise && spares (above + i.rise) code

variable {i : Insn} {code : List Insn} {e : Effect} {s s' : Tokens} {places : List Nat}

/-- What an opcode with an arrangement takes and puts. All but `shuffles` leave what they take where
it was, and put copies on top. -/
theorem Opcode.arrangement_cases {op : Opcode} (h : op.arrangement? = some places) :
    ∃ e, (∀ x, (⟨op, x⟩ : Insn).effect = .ok e) ∧ places.length = e.pushes ∧
      (∀ k ∈ places, k < e.pops) ∧ (op.shuffles = false →
        e.pops ≤ e.pushes ∧ ∀ k < e.pops, places[e.pushes - e.pops + k]? = some k) := by
  obtain ⟨n⟩ := op
  unfold arrangement? at h
  split_ifs at h <;> subst_vars <;> obtain rfl := Option.some.inj h
  · exact ⟨⟨1, 2⟩, fun _ => rfl, rfl, by decide, by decide⟩
  · exact ⟨⟨2, 3⟩, fun _ => rfl, rfl, by decide, by decide⟩
  · exact ⟨⟨3, 4⟩, fun _ => rfl, rfl, by decide, by decide⟩
  · exact ⟨⟨2, 4⟩, fun _ => rfl, rfl, by decide, by decide⟩
  · exact ⟨⟨3, 5⟩, fun _ => rfl, rfl, by decide, by decide⟩
  · exact ⟨⟨4, 6⟩, fun _ => rfl, rfl, by decide, by decide⟩
  · exact ⟨⟨2, 2⟩, fun _ => rfl, rfl, by decide, by decide⟩

theorem Opcode.effect?_of_unlisted {op : Opcode} (h : ¬ListedCode op.code) : op.effect? = none := by
  have hne : ∀ {n : Int}, -5 ≤ n → n ≤ 201 → (op = ⟨n⟩) = False := fun h1 h2 =>
    eq_false (ne_of_unlisted h ⟨h1, h2⟩)
  have hcode : ∀ {n : Int}, -5 ≤ n → n ≤ 201 → (op.code = n) = False := fun h1 h2 =>
    eq_false fun heq => h (heq ▸ ⟨h1, h2⟩)
  have hw : ∀ {a b : Int}, -5 ≤ a → b ≤ 201 → op.within a b = false := within_of_unlisted h
  simp [effect?, isLocalLoad, isArrayLoad, isLocalStore, isArrayStore, isSwitch, nop, iinc, ifNull,
    ifNonNull, goto, gotoW, ret, jsr, jsrW, tableSwitch, lookupSwitch, newObject, checkCast,
    instanceOf, monitorEnter, monitorExit, hne, hcode, hw]

/-- Opcodes without an arrangement put one value at most. -/
theorem Opcode.pushes_le_one {op : Opcode} (h : op.arrangement? = none) (he : op.effect? = some e) :
    e.pushes ≤ 1 := by
  have hlisted : ListedCode op.code := by
    by_contra hl
    rw [effect?_of_unlisted hl] at he
    cases he
  have hall := forall_listed
    (P := fun op => op.arrangement? = none → op.effect?.all (fun e => e.pushes ≤ 1) = true)
    (by decide +kernel) hlisted h
  rw [he] at hall
  exact of_decide_eq_true hall

theorem Insn.pushes_le_one (h : i.opcode.arrangement? = none) (he : i.effect = .ok e) :
    e.pushes ≤ 1 := by
  unfold effect at he
  split_ifs at he
  · cases he
    exact Nat.zero_le 1
  · unfold callEffect at he
    split at he
    · cases he
    · split at he
      · cases he
      · cases he
        dsimp only
        split <;> decide
  · split at he
    · cases he
      exact Nat.le_refl 1
    · cases he
  · split at he
    · next heffect =>
      cases he
      exact Opcode.pushes_le_one h heffect
    · cases he

/-! ### Where values come from -/

namespace Tokens

theorem run_cons : s.run (i :: code) = (s.step i).bind fun s => s.run code := rfl

/-- What a step puts on the stack: as many tokens as the effect says, which were there before or are
new. -/
theorem step_cases (h : s.step i = some s') :
    ∃ e top, i.effect = .ok e ∧ e.pops ≤ s.stack.length ∧ top.length = e.pushes ∧
      s'.stack = top ++ s.stack.drop e.pops ∧ s.fresh ≤ s'.fresh ∧
      match i.opcode.arrangement? with
      | some places => ∀ k : Nat, top[k]? = places[k]?.bind (s.stack[·]?)
      | none => ∀ t ∈ top, s.fresh ≤ t := by
  unfold step at h
  split at h
  · cases h
  · next e he =>
    split at h
    · cases h
    · next hpops =>
      refine ⟨e, ?_⟩
      split at h <;> obtain rfl := Option.some.inj h
      · next places hplaces =>
        obtain ⟨e', he', hlength, hlt, -⟩ := Opcode.arrangement_cases hplaces
        obtain rfl : e' = e := Except.ok.inj ((he' i.operand).symm.trans he)
        refine ⟨_, he, Nat.not_lt.mp hpops, ?_, rfl, Nat.le_refl _, fun k => ?_⟩
        · rw [List.length_map, hlength]
        · rw [List.getElem?_map]
          cases hk : places[k]? with
          | none => rfl
          | some j =>
            have hj : j < s.stack.length :=
              Nat.lt_of_lt_of_le (hlt j (List.mem_of_getElem? hk)) (Nat.not_lt.mp hpops)
            simp [hj]
      · refine ⟨_, he, Nat.not_lt.mp hpops, List.length_range', rfl, Nat.le_add_right .., ?_⟩
        exact fun t ht => (List.mem_range'_1.mp ht).1

/-- An instruction that finds its operands goes on. -/
theorem exists_step (he : i.effect = .ok e) (h : e.pops ≤ s.stack.length) :
    ∃ s', s.step i = some s' := by
  unfold step
  rw [he]
  dsimp only
  rw [if_neg (Nat.not_lt.mpr h)]
  split <;> exact ⟨_, rfl⟩

/-- The height after an instruction. -/
theorem length_step (he : i.effect = .ok e) (h : s.step i = some s') :
    s'.stack.length = s.stack.length - e.pops + e.pushes := by
  obtain ⟨e', top, he', -, hlength, hstack, -⟩ := step_cases h
  obtain rfl : e' = e := Except.ok.inj (he'.symm.trans he)
  rw [hstack, List.length_append, List.length_drop, hlength, Nat.add_comm]

/-- What stands at a depth after an instruction was at its origin before, or is new. -/
theorem getElem?_step (h : s.step i = some s') (depth : Nat) :
    (∀ k, i.origin? depth = some k → s'.stack[depth]? = s.stack[k]?) ∧
    (i.origin? depth = none → ∀ t, s'.stack[depth]? = some t → s.fresh ≤ t) := by
  obtain ⟨e, top, he, -, hlength, hstack, -, htop⟩ := step_cases h
  unfold Insn.origin?
  rw [he, hstack]
  dsimp only
  by_cases hdepth : e.pushes ≤ depth
  · -- below what was put
    rw [if_pos hdepth, List.getElem?_append_right (by omega), List.getElem?_drop, hlength]
    refine ⟨fun k hk => ?_, nofun⟩
    obtain rfl := Option.some.inj hk
    rw [Nat.add_comm]
  · rw [if_neg hdepth, List.getElem?_append_left (by omega)]
    cases hplaces : i.opcode.arrangement? with
    | none =>
      rw [hplaces] at htop
      exact ⟨nofun, fun _ t ht => htop t (List.mem_of_getElem? ht)⟩
    | some places =>
      rw [hplaces] at htop
      rw [htop depth, Option.bind_some]
      refine ⟨fun k hk => by rw [hk]; rfl, fun hk t ht => ?_⟩
      rw [hk] at ht
      cases ht

/-- What stands at a depth after code was at its origin before, or is new. -/
theorem getElem?_run (h : s.run code = some s') (depth : Nat) :
    (∀ k, origin? code depth = some k → s'.stack[depth]? = s.stack[k]?) ∧
    (origin? code depth = none → ∀ t, s'.stack[depth]? = some t → s.fresh ≤ t) := by
  -- the origin is found from the end, the run goes from the beginning: the value at the origin
  -- before the rest of the code is followed through the first instruction
  induction code generalizing s with
  | nil =>
    obtain rfl := Option.some.inj h
    refine ⟨fun k hk => ?_, nofun⟩
    rw [Option.some.inj hk]
  | cons i code ih =>
    obtain ⟨m, hm, hrun⟩ := Option.bind_eq_some_iff.mp h
    obtain ⟨hkept, hnew⟩ := ih hrun
    obtain ⟨-, -, -, -, -, -, hfresh, -⟩ := step_cases hm
    cases ho : origin? code depth with
    | none =>
      have hnone : origin? (i :: code) depth = none := by rw [origin?, ho]; rfl
      exact ⟨fun k hk => (nomatch hnone.symm.trans hk),
        fun _ t ht => Nat.le_trans hfresh (hnew ho t ht)⟩
    | some k =>
      have hcons : origin? (i :: code) depth = i.origin? k := by rw [origin?, ho]; rfl
      rw [hcons, hkept k ho]
      exact getElem?_step hm k

/-- After straight code a token stands where the code takes it, and nowhere else. -/
theorem getElem?_run_iff {t : Nat} {rest : List Nat} {fresh : Nat} (ht : t < fresh)
    (hrest : t ∉ rest) (h : (⟨t :: rest, fresh⟩ : Tokens).run code = some s') (depth : Nat) :
    s'.stack[depth]? = some t ↔ origin? code depth = some 0 := by
  obtain ⟨hkept, hnew⟩ := getElem?_run h depth
  refine ⟨fun hdepth => ?_, fun ho => hkept 0 ho⟩
  cases ho : origin? code depth with
  | none => exact absurd (hnew ho t hdepth) (Nat.not_le.mpr ht)
  | some k =>
    rw [hkept k ho] at hdepth
    cases k with
    | zero => rfl
    | succ k =>
      have hk : rest[k]? = some t := hdepth
      exact absurd (List.mem_of_getElem? hk) hrest

end Tokens

/-! ### Values that keep their place -/

/-- An instruction leaves a value where it is if it takes nothing so far down, or only copies it. -/
theorem Insn.origin?_of_kept (he : i.effect = .ok e) {above after : Nat}
    (hafter : (after : Int) = above + i.rise) (hpos : after ≠ 0)
    (hs : i.opcode.shuffles = true → e.pops ≤ above) : i.origin? after = some above := by
  rw [rise_eq he] at hafter
  unfold origin?
  rw [he]
  dsimp only
  by_cases hbelow : e.pushes ≤ after
  · rw [if_pos hbelow]
    congr 1
    omega
  · rw [if_neg hbelow]
    cases hplaces : i.opcode.arrangement? with
    | none =>
      -- at most one value is new, and it is the highest, which ours is not
      have hone := Insn.pushes_le_one hplaces he
      omega
    | some places =>
      -- the value is among those taken, so they are copied
      have hshuffles : i.opcode.shuffles = false := by
        refine Bool.eq_false_iff.mpr fun hshuffles => ?_
        have hpops := hs hshuffles
        omega
      obtain ⟨e', he', -, -, hcopies⟩ := Opcode.arrangement_cases hplaces
      obtain rfl : e' = e := Except.ok.inj ((he' i.operand).symm.trans he)
      obtain ⟨hle, hcopy⟩ := hcopies hshuffles
      have hplace : e'.pushes - e'.pops + above = after := by omega
      rw [Option.bind_some, ← hplace]
      exact hcopy above (by omega)

/-- Code that spares a value leaves it where it is, if at no later time the value is the highest.
`top` is how many values are above it in the end. -/
theorem origin?_of_spares {above top : Nat} (hs : spares above code = true)
    (hsum : (above : Int) + (code.map Insn.rise).sum = top)
    (hlater : ∀ code', code' <:+ code → code' ≠ code → (code'.map Insn.rise).sum ≠ top) :
    origin? code top = some above := by
  induction code generalizing above with
  | nil =>
    have htop : (above : Int) = top := by simpa using hsum
    rw [origin?, Int.ofNat.inj htop]
  | cons i code ih =>
    rw [spares] at hs
    split at hs
    · cases hs
    · next e he =>
      simp only [Bool.and_eq_true, Bool.or_eq_true, Bool.not_eq_true', decide_eq_true_eq] at hs
      obtain ⟨⟨hshuffles, hnonneg⟩, hspares⟩ := hs
      obtain ⟨after, hafter⟩ := Int.eq_ofNat_of_zero_le hnonneg
      rw [hafter] at hspares
      rw [List.map_cons, List.sum_cons, ← Int.add_assoc, hafter] at hsum
      -- if the value were the highest here, the rest of the code would rise by `top`
      have hpos : after ≠ 0 := by
        rintro rfl
        have hne : code ≠ i :: code := fun heq => absurd (congrArg List.length heq) (by simp)
        refine hlater code (List.suffix_cons i code) hne ?_
        simpa using hsum
      have hrest : ∀ code', code' <:+ code → code' ≠ code → (code'.map Insn.rise).sum ≠ top := by
        intro code' hsuffix _
        refine hlater code' (hsuffix.trans (List.suffix_cons i code)) fun heq => ?_
        have hle := hsuffix.length_le
        rw [heq, List.length_cons] at hle
        omega
      rw [origin?, ih hspares hsum hrest, Option.bind_some]
      refine Insn.origin?_of_kept he hafter.symm hpos fun hmoves => ?_
      rw [hmoves] at hshuffles
      have hle : (e.pops : Int) ≤ above := hshuffles.resolve_left nofun
      omega

end ClassWeaver
