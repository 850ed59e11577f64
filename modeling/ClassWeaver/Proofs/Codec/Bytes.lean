import Mathlib.Algebra.Group.Nat.Defs
import Mathlib.Data.List.Forall2
import ClassWeaver.Bytes.Cursor
import ClassWeaver.Proofs.Instructions

/-!
# Reading back what was written

`Reads r pos bs a` says that the reading `r`, at place `pos` of some bytes that go on with `bs`,
consumes exactly `bs` and answers `a`, whatever comes behind. Readings are put together by
`Reads.bind`, as the bytes they read are put together by appending. The place matters to the
few readings that skip to a multiple of four; all others read the same at every place.
-/

namespace ClassWeaver

/-! ### Numbers -/

theorem ofBigEndian_concat (bs : List UInt8) (b : UInt8) :
    ofBigEndian (bs ++ [b]) = ofBigEndian bs * 256 + b.toNat := by
  simp [ofBigEndian]

/-- A number reads back as what fits its width. -/
theorem ofBigEndian_bigEndian (width n : Nat) :
    ofBigEndian (bigEndian width n) = n % 256 ^ width := by
  induction width generalizing n with
  | zero => rw [Nat.pow_zero, Nat.mod_one]; rfl
  | succ width ih =>
    have hbyte : (n % 256).toUInt8.toNat = n % 256 := by
      rw [Nat.toUInt8, UInt8.toNat_ofNat']
      exact Nat.mod_eq_of_lt (Nat.mod_lt _ (by decide))
    rw [bigEndian, ofBigEndian_concat, ih, hbyte, Nat.pow_succ, Nat.mul_comm (256 ^ width) 256,
      Nat.mod_mul, Nat.add_comm, Nat.mul_comm]

theorem ofBigEndian_of_lt {width n : Nat} (h : n < 256 ^ width) :
    ofBigEndian (bigEndian width n) = n := by
  rw [ofBigEndian_bigEndian, Nat.mod_eq_of_lt h]

@[simp]
theorem length_signedBigEndian (width : Nat) (z : Int) :
    (signedBigEndian width z).length = width := by
  rw [signedBigEndian, length_bigEndian]

theorem signedBigEndian_natCast {width n : Nat} (h : n < 256 ^ width) :
    signedBigEndian width n = bigEndian width n := by
  rw [← show 2 ^ (8 * width) = 256 ^ width from Nat.pow_mul 2 8 width] at h
  rw [signedBigEndian, BitVec.ofInt_natCast, BitVec.toNat_ofNat, Nat.mod_eq_of_lt h]

theorem ofBigEndian_signed (width : Nat) (z : Int) :
    ofBigEndian (signedBigEndian width z) = (z % (256 ^ width : Nat)).toNat := by
  have hpow : 2 ^ (8 * width) = 256 ^ width := Nat.pow_mul 2 8 width
  have hlt := (BitVec.ofInt (8 * width) z).isLt
  rw [hpow] at hlt
  rw [signedBigEndian, ofBigEndian_of_lt hlt, BitVec.toNat_ofInt, hpow]

theorem toNat_toUInt16 {n : Nat} (h : n < 65536) : n.toUInt16.toNat = n := by
  rw [Nat.toUInt16_eq, UInt16.toNat_ofNat']
  exact Nat.mod_eq_of_lt h

theorem toNat_toUInt32 {n : Nat} (h : n < 2 ^ 32) : n.toUInt32.toNat = n := by
  rw [Nat.toUInt32_eq, UInt32.toNat_ofNat']
  exact Nat.mod_eq_of_lt h

/-! ### Readings -/

/-- The reading consumes the bytes at the place and answers the value. -/
def Reads {α : Type} (r : Read α) (pos : Nat) (bs : List UInt8) (a : α) : Prop :=
  ∀ data rest, data.drop pos = bs ++ rest → pos ≤ data.length →
    r ⟨data, pos, bs ++ rest⟩ = .ok (a, ⟨data, pos + bs.length, rest⟩)

namespace Reads

variable {α β : Type} {r : Read α} {f : α → Read β} {pos : Nat} {bs bs' : List UInt8} {a : α}
variable {b : β}

theorem pure (a : α) : Reads (Pure.pure a) pos [] a := fun _ _ _ _ => rfl

/-- What is read in two steps is written in two parts. -/
theorem bind (h : Reads r pos bs a) (h' : Reads (f a) (pos + bs.length) bs' b) :
    Reads (r >>= f) pos (bs ++ bs') b := by
  intro data rest hdata hpos
  rw [List.append_assoc] at hdata
  have hfirst := h data (bs' ++ rest) hdata hpos
  have hdrop : data.drop (pos + bs.length) = bs' ++ rest := by
    rw [← List.drop_drop, hdata, List.drop_left]
  have hlen : pos + bs.length ≤ data.length := by
    have := congrArg List.length hdata
    simp only [List.length_drop, List.length_append] at this
    omega
  have hsecond := h' data rest hdrop hlen
  change Bind.bind (r ⟨data, pos, bs ++ bs' ++ rest⟩) (fun p => f p.1 p.2) = _
  rw [List.append_assoc, hfirst, List.length_append, ← Nat.add_assoc]
  exact hsecond

/-- A last step that reads nothing more, but may look at what was read. -/
theorem last (h : Reads r pos bs a) (h' : Reads (f a) (pos + bs.length) [] b) :
    Reads (r >>= f) pos bs b := by
  have := h.bind h'
  rwa [List.append_nil] at this

/-- A first step that reads nothing. -/
theorem first (h : Reads r pos [] a) (h' : Reads (f a) pos bs b) : Reads (r >>= f) pos bs b :=
  h.bind h'

/-- A first step that reads nothing and depends on a test. -/
theorem first_ite {p : Prop} [Decidable p] {s : Read α} (h : Reads (if p then r else s) pos [] a)
    (h' : Reads (f a) pos bs b) : Reads (if p then r >>= f else s >>= f) pos bs b := by
  split at h
  · next hp => exact if_pos hp ▸ h.first h'
  · next hp => exact if_neg hp ▸ h.first h'

theorem map (h : Reads r pos bs a) (g : α → β) :
    Reads (r >>= fun a => Pure.pure (g a)) pos bs (g a) :=
  h.last (pure (g a))

/-- The first two of three steps can be taken together. -/
theorem assoc {γ : Type} {g : β → Read γ} {c : γ} (h : Reads ((r >>= f) >>= g) pos bs c) :
    Reads (r >>= fun a => f a >>= g) pos bs c := by
  rwa [bind_assoc] at h

theorem under (h : Reads r pos bs a) (text : Text) : Reads (r.under text) pos bs a := by
  intro data rest hdata hpos
  rw [Read.under, h data rest hdata hpos]

theorem lift {x : Except Fault α} (h : x = .ok a) : Reads (liftM x) pos [] a := by
  subst h
  exact fun _ _ _ _ => rfl

/-- Asking for the place reads nothing. -/
theorem here {f : Nat → Read β} (h : Reads (f pos) pos bs b) :
    Reads (Read.here >>= fun c => f c.position) pos bs b := fun data rest => h data rest

/-- Reading from the start of some bytes, of which some may be left. -/
theorem run (h : Reads r 0 bs a) : r.run bs = .ok a := by
  have := h bs [] (by simp) (Nat.zero_le _)
  rw [List.append_nil] at this
  rw [Read.run, Cursor.start, this]

/-! ### Numbers of a fixed width -/

theorem bytes (bs : List UInt8) : Reads (Read.bytes bs.length) pos bs bs := by
  intro data rest hdata hpos
  simp [Read.bytes]

theorem number {width : Nat} (h : bs.length = width) :
    Reads (Read.number width) pos bs (ofBigEndian bs) := by
  subst h
  exact (bytes bs).map ofBigEndian

theorem u1 (b : UInt8) : Reads Read.u1 pos [b] b := by
  have hread : Reads (Read.number 1) pos [b] (ofBigEndian [b]) := number rfl
  have hb : (ofBigEndian [b]).toUInt8 = b := by simp [ofBigEndian]
  have hmap := hread.map Nat.toUInt8
  rwa [hb] at hmap

theorem u2 {n : Nat} (h : n < 65536) : Reads Read.u2 pos (bigEndian 2 n) n.toUInt16 := by
  have hread : Reads (Read.number 2) pos (bigEndian 2 n) _ := number (length_bigEndian 2 n)
  rw [ofBigEndian_of_lt h] at hread
  exact hread.map Nat.toUInt16

theorem u4 {n : Nat} (h : n < 2 ^ 32) : Reads Read.u4 pos (bigEndian 4 n) n.toUInt32 := by
  have hread : Reads (Read.number 4) pos (bigEndian 4 n) _ := number (length_bigEndian 4 n)
  rw [ofBigEndian_of_lt h] at hread
  exact hread.map Nat.toUInt32

theorem u8 {n : Nat} (h : n < 2 ^ 64) : Reads Read.u8 pos (bigEndian 8 n) n.toUInt64 := by
  have hread : Reads (Read.number 8) pos (bigEndian 8 n) _ := number (length_bigEndian 8 n)
  rw [ofBigEndian_of_lt h] at hread
  exact hread.map Nat.toUInt64

theorem word (n : UInt16) : Reads Read.u2 pos (bigEndian 2 n.toNat) n := by
  have h : Reads Read.u2 pos (bigEndian 2 n.toNat) n.toNat.toUInt16 := u2 n.toNat_lt
  rwa [Nat.toUInt16_eq, UInt16.ofNat_toNat] at h

theorem u4_bits (n : UInt32) : Reads Read.u4 pos (bigEndian 4 n.toNat) n := by
  have h : Reads Read.u4 pos (bigEndian 4 n.toNat) n.toNat.toUInt32 := u4 n.toNat_lt
  rwa [Nat.toUInt32_eq, UInt32.ofNat_toNat] at h

theorem u8_bits (n : UInt64) : Reads Read.u8 pos (bigEndian 8 n.toNat) n := by
  have h : Reads Read.u8 pos (bigEndian 8 n.toNat) n.toNat.toUInt64 := u8 n.toNat_lt
  rwa [Nat.toUInt64_eq, UInt64.ofNat_toNat] at h

/-! Signed numbers are read in two's complement, so any integer comes back modulo the width. -/

theorem i1 (z : Int) : Reads Read.i1 pos (signedBigEndian 1 z) (Int8.ofInt z) := by
  have hread : Reads (Read.number 1) pos (signedBigEndian 1 z) _ :=
    number (length_signedBigEndian 1 z)
  have hz : (ofBigEndian (signedBigEndian 1 z)).toUInt8.toInt8 = Int8.ofInt z := by
    refine Int8.toBitVec_inj.mp (BitVec.eq_of_toNat_eq ?_)
    rw [UInt8.toBitVec_toInt8, Nat.toUInt8_eq, UInt8.toBitVec_ofNat', BitVec.toNat_ofNat,
      Int8.toBitVec_ofInt, BitVec.toNat_ofInt, ofBigEndian_signed]
    omega
  have hmap := (hread.map Nat.toUInt8).map UInt8.toInt8
  rwa [hz] at hmap

theorem i2 (z : Int) : Reads Read.i2 pos (signedBigEndian 2 z) (Int16.ofInt z) := by
  have hread : Reads (Read.number 2) pos (signedBigEndian 2 z) _ :=
    number (length_signedBigEndian 2 z)
  have hz : (ofBigEndian (signedBigEndian 2 z)).toUInt16.toInt16 = Int16.ofInt z := by
    refine Int16.toBitVec_inj.mp (BitVec.eq_of_toNat_eq ?_)
    rw [UInt16.toBitVec_toInt16, Nat.toUInt16_eq, UInt16.toBitVec_ofNat', BitVec.toNat_ofNat,
      Int16.toBitVec_ofInt, BitVec.toNat_ofInt, ofBigEndian_signed]
    omega
  have hmap := (hread.map Nat.toUInt16).map UInt16.toInt16
  rwa [hz] at hmap

theorem i4 (z : Int) : Reads Read.i4 pos (signedBigEndian 4 z) (Int32.ofInt z) := by
  have hread : Reads (Read.number 4) pos (signedBigEndian 4 z) _ :=
    number (length_signedBigEndian 4 z)
  have hz : (ofBigEndian (signedBigEndian 4 z)).toUInt32.toInt32 = Int32.ofInt z := by
    refine Int32.toBitVec_inj.mp (BitVec.eq_of_toNat_eq ?_)
    rw [UInt32.toBitVec_toInt32, Nat.toUInt32_eq, UInt32.toBitVec_ofNat', BitVec.toNat_ofNat,
      Int32.toBitVec_ofInt, BitVec.toNat_ofInt, ofBigEndian_signed]
    omega
  have hmap := (hread.map Nat.toUInt32).map UInt32.toInt32
  rwa [hz] at hmap

/-! ### Skipping and repeating -/

/-- Bytes can be skipped whatever they are. -/
theorem skip (bs : List UInt8) : Reads (Read.skip bs.length) pos bs () := by
  intro data rest hdata hpos
  have hlen : pos + bs.length ≤ data.length := by
    have := congrArg List.length hdata
    simp only [List.length_drop, List.length_append] at this
    omega
  have hdrop : data.drop (pos + bs.length) = rest := by
    rw [← List.drop_drop, hdata, List.drop_left]
  have hcond : (0 ≤ ((pos : Int) + bs.length) && (pos : Int) + bs.length ≤ data.length) = true := by
    simp only [Bool.and_eq_true, decide_eq_true_eq]
    omega
  have hnat : ((pos : Int) + bs.length).toNat = pos + bs.length := by omega
  rw [Read.skip, Read.seek, if_pos hcond, hnat, hdrop]

theorem repeated_go {item : Nat → Read α} {bss : List (List UInt8)} {as : List α}
    (h : List.Forall₂ (fun bs a => ∀ n pos, Reads (item n) pos bs a) bss as) (seen : Array α)
    (pos : Nat) :
    Reads (Read.repeated.go item as.length seen) pos bss.flatten (seen.toList ++ as) := by
  induction h generalizing seen pos with
  | nil =>
    rw [List.append_nil]
    exact Reads.pure _
  | @cons bs a bss as hitem hrest ih =>
    have hlast := ih (seen.push a) (pos + bs.length)
    rw [Array.toList_push, List.append_assoc] at hlast
    exact (hitem seen.size pos).bind hlast

/-- Items are read in order, each from its own bytes. -/
theorem repeated {item : Nat → Read α} {bss : List (List UInt8)} {as : List α}
    (h : List.Forall₂ (fun bs a => ∀ n pos, Reads (item n) pos bs a) bss as) :
    Reads (Read.repeated item as.length) pos bss.flatten as := by
  have hgo := repeated_go h #[] pos
  exact hgo

end Reads

/-! ### What a reading can answer -/

/-- Every answer of the reading has the property, whatever the bytes are. -/
def Yields {α : Type} (r : Read α) (P : α → Prop) : Prop :=
  ∀ c a c', r c = .ok (a, c') → P a

namespace Yields

variable {α β : Type} {r : Read α} {f : α → Read β} {P : α → Prop} {Q : β → Prop} {a : α}

theorem trivial (r : Read α) : Yields r fun _ => True := fun _ _ _ _ => True.intro

theorem pure (h : P a) : Yields (Pure.pure a) P := by
  intro c b c' heq
  obtain ⟨rfl, -⟩ := Prod.mk.inj (Except.ok.inj heq)
  exact h

theorem throw (f : Fault) : Yields (MonadExcept.throw f : Read α) P := fun _ _ _ h => nomatch h

theorem bind (h : Yields r P) (h' : ∀ a, P a → Yields (f a) Q) : Yields (r >>= f) Q := by
  intro c b c'' heq
  change Bind.bind (r c) (fun p => f p.1 p.2) = .ok (b, c'') at heq
  cases hr : r c with
  | error e =>
    rw [hr] at heq
    cases heq
  | ok p =>
    rw [hr] at heq
    exact h' p.1 (h c p.1 p.2 hr) p.2 b c'' heq

/-- Whatever the first step answers. -/
theorem andThen (h : ∀ a, Yields (f a) Q) : Yields (r >>= f) Q :=
  (trivial r).bind fun a _ => h a

theorem lift {x : Except Fault α} (h : ∀ a, x = .ok a → P a) : Yields (liftM x : Read α) P := by
  intro c a c' heq
  cases x with
  | error e => cases heq
  | ok b =>
    obtain ⟨rfl, -⟩ := Prod.mk.inj (Except.ok.inj heq)
    exact h b rfl

theorem under (h : Yields r P) (text : Text) : Yields (r.under text) P := by
  intro c a c' heq
  unfold Read.under at heq
  split at heq
  · next p hp =>
    obtain rfl := Except.ok.inj heq
    exact h c a c' hp
  · cases heq

theorem ite {p : Prop} [Decidable p] {s : Read α} (h : p → Yields r P) (h' : ¬p → Yields s P) :
    Yields (if p then r else s) P := by
  by_cases hp : p
  · rw [if_pos hp]
    exact h hp
  · rw [if_neg hp]
    exact h' hp

theorem run (h : Yields r P) {data : List UInt8} (heq : r.run data = .ok a) : P a := by
  unfold Read.run at heq
  split at heq
  · next b c hb =>
    obtain rfl := Except.ok.inj heq
    exact h _ b c hb
  · cases heq

theorem bytes (n : Nat) : Yields (Read.bytes n) fun bs => bs.length = n := by
  intro c bs c' h
  rw [Read.bytes] at h
  split at h
  · next hlength =>
    obtain ⟨rfl, -⟩ := Prod.mk.inj (Except.ok.inj h)
    exact hlength
  · cases h

theorem repeated_go {item : Nat → Read α} (h : ∀ n, Yields (item n) P) (left : Nat)
    (seen : Array α) (hseen : ∀ a ∈ seen.toList, P a) :
    Yields (Read.repeated.go item left seen) fun as => ∀ a ∈ as, P a := by
  induction left generalizing seen with
  | zero => exact pure hseen
  | succ left ih =>
    refine (h seen.size).bind fun a ha => ih (seen.push a) ?_
    intro b hb
    rw [Array.toList_push, List.mem_append, List.mem_singleton] at hb
    rcases hb with hb | rfl
    · exact hseen b hb
    · exact ha

theorem repeated {item : Nat → Read α} (h : ∀ n, Yields (item n) P) (count : Nat) :
    Yields (Read.repeated item count) fun as => ∀ a ∈ as, P a :=
  repeated_go h count #[] fun _ ha => nomatch ha

end Yields

/-! ### Where a reading can end -/

/-- A place of the same bytes that is not in front. -/
structure Cursor.Before (c c' : Cursor) : Prop where
  data : c'.data = c.data
  position : c.position ≤ c'.position
  rest : c.rest = c.data.drop c.position → c'.rest = c'.data.drop c'.position

theorem Cursor.Before.refl (c : Cursor) : c.Before c := ⟨rfl, Nat.le_refl _, fun h => h⟩

theorem Cursor.Before.trans {c c' c'' : Cursor} (h : c.Before c') (h' : c'.Before c'') :
    c.Before c'' :=
  ⟨h'.data.trans h.data, Nat.le_trans h.position h'.position, fun hc => h'.rest (h.rest hc)⟩

/-- The reading never goes back. -/
def Advances {α : Type} (r : Read α) : Prop := ∀ c a c', r c = .ok (a, c') → c.Before c'

namespace Advances

variable {α β : Type} {r s : Read α} {f : α → Read β}

theorem pure (a : α) : Advances (Pure.pure a : Read α) := by
  intro c b c' h
  obtain ⟨-, rfl⟩ := Prod.mk.inj (Except.ok.inj h)
  exact .refl c

theorem throw (f : Fault) : Advances (MonadExcept.throw f : Read α) := fun _ _ _ h => nomatch h

theorem bind (h : Advances r) (h' : ∀ a, Advances (f a)) : Advances (r >>= f) := by
  intro c b c'' heq
  change Bind.bind (r c) (fun x => f x.1 x.2) = .ok (b, c'') at heq
  obtain ⟨x, hx, heq⟩ := Except.bind_eq_ok_iff.mp heq
  exact (h c x.1 x.2 hx).trans (h' x.1 x.2 b c'' heq)

theorem lift (x : Except Fault α) : Advances (liftM x : Read α) := by
  intro c a c' h
  cases x with
  | error e => cases h
  | ok b =>
    obtain ⟨-, rfl⟩ := Prod.mk.inj (Except.ok.inj h)
    exact .refl c

theorem under (h : Advances r) (text : Text) : Advances (r.under text) := by
  intro c a c' heq
  unfold Read.under at heq
  split at heq
  · next p hp =>
    obtain rfl := Except.ok.inj heq
    exact h c a c' hp
  · cases heq

theorem ite {p : Prop} [Decidable p] (h : Advances r) (h' : Advances s) :
    Advances (if p then r else s) := by
  split
  · exact h
  · exact h'

theorem bytes (n : Nat) : Advances (Read.bytes n) := by
  intro c a c' h
  unfold Read.bytes at h
  dsimp only at h
  split at h
  · obtain ⟨-, rfl⟩ := Prod.mk.inj (Except.ok.inj h)
    refine ⟨rfl, Nat.le_add_right .., fun hc => ?_⟩
    dsimp only
    rw [hc, List.drop_drop]
  · cases h

theorem number (width : Nat) : Advances (Read.number width) := (bytes width).bind fun _ => pure _

theorem u1 : Advances Read.u1 := (number 1).bind fun _ => pure _

theorem u2 : Advances Read.u2 := (number 2).bind fun _ => pure _

theorem i1 : Advances Read.i1 := u1.bind fun _ => pure _

theorem i2 : Advances Read.i2 := u2.bind fun _ => pure _

theorem i4 : Advances Read.i4 := ((number 4).bind fun _ => pure _).bind fun _ => pure _

theorem skip {n : Int} (hn : 0 ≤ n) : Advances (Read.skip n) := by
  intro c a c' h
  unfold Read.skip Read.seek at h
  split at h
  · obtain ⟨-, rfl⟩ := Prod.mk.inj (Except.ok.inj h)
    refine ⟨rfl, ?_, fun _ => rfl⟩
    dsimp only
    omega
  · cases h

theorem repeated {item : Nat → Read α} (h : ∀ n, Advances (item n)) (count : Nat) :
    Advances (Read.repeated item count) := by
  have hgo : ∀ (left : Nat) (seen : Array α), Advances (Read.repeated.go item left seen) := by
    intro left
    induction left with
    | zero => exact fun seen => pure _
    | succ left ih => exact fun seen => (h _).bind fun a => ih _
  exact hgo count #[]

end Advances

end ClassWeaver
