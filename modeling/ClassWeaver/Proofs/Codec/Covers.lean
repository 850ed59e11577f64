import Mathlib.Data.List.Induction
import Mathlib.Data.List.Range
import ClassWeaver.Proofs.Codec.Bytes

/-!
# Readings along places

What stands at a place of some bytes can be told without reading: `numberAt` and `signedAt` are the
numbers that the bytes from a place on write. `Covers r data pos Q` ties a reading to places. If
the reading succeeds at the place `pos`, it stops at a place of the same bytes, and `Q` holds of
its answer and of that place. `Reads` says that a reading succeeds on bytes that are known; this is
for bytes that are not, where all that is known is that the reading succeeded.
-/

namespace ClassWeaver

/-! ### Numbers at places -/

section Numbers

variable {data : List UInt8} {width pos : Nat}

/-- The number that some bytes at a place write. -/
def numberAt (data : List UInt8) (width pos : Nat) : Nat :=
  ofBigEndian ((data.drop pos).take width)

/-- The same number in two's complement. -/
def signedAt (data : List UInt8) (width pos : Nat) : Int :=
  (numberAt data width pos : Int).bmod (256 ^ width)

theorem ofBigEndian_lt (bs : List UInt8) : ofBigEndian bs < 256 ^ bs.length := by
  induction bs using List.reverseRecOn with
  | nil => decide
  | append_singleton bs b ih =>
    have hb := b.toNat_lt
    rw [ofBigEndian_concat, List.length_append, List.length_singleton, Nat.pow_succ]
    omega

theorem numberAt_lt : numberAt data width pos < 256 ^ width :=
  Nat.lt_of_lt_of_le (ofBigEndian_lt _)
    (Nat.pow_le_pow_right (by decide) (List.length_take_le _ _))

theorem toInt_toInt8 (n : Nat) : n.toUInt8.toInt8.toInt = (n : Int).bmod 256 := by
  rw [← Int8.toInt_toBitVec, UInt8.toBitVec_toInt8, Nat.toUInt8_eq, UInt8.toBitVec_ofNat',
    BitVec.toInt_ofNat']

theorem toInt_toInt16 (n : Nat) : n.toUInt16.toInt16.toInt = (n : Int).bmod 65536 := by
  rw [← Int16.toInt_toBitVec, UInt16.toBitVec_toInt16, Nat.toUInt16_eq, UInt16.toBitVec_ofNat',
    BitVec.toInt_ofNat']

theorem toInt_toInt32 (n : Nat) : n.toUInt32.toInt32.toInt = (n : Int).bmod 4294967296 := by
  rw [← Int32.toInt_toBitVec, UInt32.toBitVec_toInt32, Nat.toUInt32_eq, UInt32.toBitVec_ofNat',
    BitVec.toInt_ofNat']

end Numbers

/-! ### Readings along places -/

/-- What the reading answers at a place of the bytes, and at which place it then stands, if it
does not fail. -/
def Covers {α : Type} (r : Read α) (data : List UInt8) (pos : Nat) (Q : α → Nat → Prop) : Prop :=
  pos ≤ data.length → ∀ a c, r ⟨data, pos, data.drop pos⟩ = .ok (a, c) →
    ∃ stop ≤ data.length, c = ⟨data, stop, data.drop stop⟩ ∧ Q a stop

namespace Covers

variable {α β : Type} {r s : Read α} {f : α → Read β} {data : List UInt8} {pos : Nat}
variable {P Q : α → Nat → Prop} {R : β → Nat → Prop} {a : α}

theorem pure (h : Q a pos) : Covers (Pure.pure a) data pos Q := by
  intro hpos b c heq
  obtain ⟨rfl, rfl⟩ := Prod.mk.inj (Except.ok.inj heq)
  exact ⟨pos, hpos, rfl, h⟩

theorem throw (f : Fault) : Covers (MonadExcept.throw f : Read α) data pos Q :=
  fun _ _ _ h => nomatch h

theorem bind (h : Covers r data pos P) (h' : ∀ a stop, P a stop → Covers (f a) data stop R) :
    Covers (r >>= f) data pos R := by
  intro hpos b c heq
  change Bind.bind (r ⟨data, pos, data.drop pos⟩) (fun x => f x.1 x.2) = .ok (b, c) at heq
  obtain ⟨⟨a, c₁⟩, ha, heq⟩ := Except.bind_eq_ok_iff.mp heq
  obtain ⟨stop, hstop, rfl, hP⟩ := h hpos a c₁ ha
  exact h' a stop hP hstop b c heq

theorem imp (h : Covers r data pos P) (hPQ : ∀ a stop, P a stop → Q a stop) :
    Covers r data pos Q := by
  intro hpos a c heq
  obtain ⟨stop, hstop, hc, hP⟩ := h hpos a c heq
  exact ⟨stop, hstop, hc, hPQ a stop hP⟩

/-- What is known of the answer by other means may be used. -/
theorem and (h : Covers r data pos P) {T : α → Prop} (hT : Yields r T) :
    Covers r data pos fun a stop => P a stop ∧ T a := by
  intro hpos a c heq
  obtain ⟨stop, hstop, hc, hP⟩ := h hpos a c heq
  exact ⟨stop, hstop, hc, hP, hT _ a c heq⟩

theorem lift {x : Except Fault α} (h : ∀ a, x = .ok a → Q a pos) :
    Covers (liftM x : Read α) data pos Q := by
  intro hpos a c heq
  cases x with
  | error e => cases heq
  | ok b =>
    obtain ⟨rfl, rfl⟩ := Prod.mk.inj (Except.ok.inj heq)
    exact ⟨pos, hpos, rfl, h b rfl⟩

/-- A step that looks something up and reads nothing. -/
theorem lookup {x : Except Fault α} (h : ∀ a, x = .ok a → Covers (f a) data pos R) :
    Covers ((liftM x : Read α) >>= f) data pos R := by
  refine (lift (Q := fun a stop => x = .ok a ∧ stop = pos) fun a ha => ⟨ha, rfl⟩).bind
    fun a stop ha => ?_
  rw [ha.2]
  exact h a ha.1

theorem under (h : Covers r data pos Q) (text : Text) : Covers (r.under text) data pos Q := by
  intro hpos a c heq
  unfold Read.under at heq
  split at heq
  · next x hx =>
    obtain rfl := Except.ok.inj heq
    exact h hpos a c hx
  · cases heq

theorem ite {p : Prop} [Decidable p] (h : p → Covers r data pos Q) (h' : ¬p → Covers s data pos Q) :
    Covers (if p then r else s) data pos Q := by
  by_cases hp : p
  · rw [if_pos hp]
    exact h hp
  · rw [if_neg hp]
    exact h' hp

/-- Asking for the place. -/
theorem here {g : Cursor → Read β} (h : Covers (g ⟨data, pos, data.drop pos⟩) data pos R) :
    Covers (Read.here >>= g) data pos R := h

theorem run {T : α → Prop} (h : Covers r data 0 fun a _ => T a) (heq : r.run data = .ok a) :
    T a := by
  unfold Read.run at heq
  split at heq
  · next b c hb =>
    obtain rfl := Except.ok.inj heq
    obtain ⟨-, -, -, hT⟩ := h (Nat.zero_le _) b c hb
    exact hT
  · cases heq

/-! Numbers of a fixed width, and bytes. -/

theorem bytes (n : Nat) :
    Covers (Read.bytes n) data pos fun bs stop => bs = (data.drop pos).take n ∧ stop = pos + n := by
  intro hpos bs c h
  unfold Read.bytes at h
  dsimp only at h
  split at h
  · next hlength =>
    rw [List.length_take, List.length_drop] at hlength
    obtain ⟨rfl, rfl⟩ := Prod.mk.inj (Except.ok.inj h)
    exact ⟨pos + n, by omega, by rw [List.drop_drop], rfl, rfl⟩
  · cases h

theorem number (width : Nat) : Covers (Read.number width) data pos fun n stop =>
    n = numberAt data width pos ∧ stop = pos + width :=
  (bytes width).bind fun _ _ h => .pure ⟨by rw [h.1, numberAt], h.2⟩

theorem u1 : Covers Read.u1 data pos fun n stop =>
    n = (numberAt data 1 pos).toUInt8 ∧ n.toNat = numberAt data 1 pos ∧ stop = pos + 1 := by
  refine (number 1).bind fun n stop h => .pure ⟨by rw [h.1], ?_, h.2⟩
  rw [h.1, Nat.toUInt8_eq, UInt8.toNat_ofNat']
  exact Nat.mod_eq_of_lt numberAt_lt

theorem u2 : Covers Read.u2 data pos fun n stop =>
    n = (numberAt data 2 pos).toUInt16 ∧ n.toNat = numberAt data 2 pos ∧ stop = pos + 2 :=
  (number 2).bind fun n stop h =>
    .pure ⟨by rw [h.1], by rw [h.1, toNat_toUInt16 numberAt_lt], h.2⟩

theorem u4 : Covers Read.u4 data pos fun n stop =>
    n.toNat = numberAt data 4 pos ∧ stop = pos + 4 :=
  (number 4).bind fun n stop h => .pure ⟨by rw [h.1, toNat_toUInt32 numberAt_lt], h.2⟩

theorem i1 : Covers Read.i1 data pos fun n stop =>
    n.toInt = signedAt data 1 pos ∧ stop = pos + 1 :=
  u1.bind fun n stop h => .pure ⟨by rw [h.1, toInt_toInt8]; rfl, h.2.2⟩

theorem i2 : Covers Read.i2 data pos fun n stop =>
    n.toInt = signedAt data 2 pos ∧ stop = pos + 2 :=
  u2.bind fun n stop h => .pure ⟨by rw [h.1, toInt_toInt16]; rfl, h.2.2⟩

theorem i4 : Covers Read.i4 data pos fun n stop =>
    n.toInt = signedAt data 4 pos ∧ stop = pos + 4 :=
  ((number 4).bind fun n stop h => .pure (Q := fun w stop =>
    w = (numberAt data 4 pos).toUInt32 ∧ stop = pos + 4) ⟨by rw [h.1], h.2⟩).bind
      fun w stop h => .pure ⟨by rw [h.1, toInt_toInt32]; rfl, h.2⟩

theorem skip (n : Nat) : Covers (Read.skip n) data pos fun _ stop => stop = pos + n := by
  intro _ a c h
  unfold Read.skip Read.seek at h
  split at h
  · next hplace =>
    simp only [Bool.and_eq_true, decide_eq_true_eq] at hplace
    obtain ⟨-, rfl⟩ := Prod.mk.inj (Except.ok.inj h)
    have hnat : ((pos : Int) + n).toNat = pos + n := by omega
    exact ⟨pos + n, by omega, by rw [hnat], rfl⟩
  · cases h

/-! Items one behind the other. -/

theorem repeated_go {item : Nat → Read α} {S : Nat → Nat → List α → Nat → Prop}
    (hnil : ∀ pos, S 0 pos [] pos)
    (hcons : ∀ n left pos, Covers (item n) data pos fun a mid =>
      ∀ as stop, S left mid as stop → S (left + 1) pos (a :: as) stop)
    (left : Nat) (seen : Array α) (pos : Nat) :
    Covers (Read.repeated.go item left seen) data pos fun as stop =>
      ∃ new, as = seen.toList ++ new ∧ S left pos new stop := by
  induction left generalizing seen pos with
  | zero => exact .pure ⟨[], (List.append_nil _).symm, hnil pos⟩
  | succ left ih =>
    refine (hcons seen.size left pos).bind fun a mid ha => ?_
    refine (ih (seen.push a) mid).imp fun as stop h => ?_
    obtain ⟨new, rfl, hnew⟩ := h
    exact ⟨a :: new, by rw [Array.toList_push, List.append_assoc]; rfl, ha new stop hnew⟩

/-- A relation between items and the bytes they take, put together item by item. -/
theorem repeated {item : Nat → Read α} {S : Nat → Nat → List α → Nat → Prop}
    (hnil : ∀ pos, S 0 pos [] pos)
    (hcons : ∀ n left pos, Covers (item n) data pos fun a mid =>
      ∀ as stop, S left mid as stop → S (left + 1) pos (a :: as) stop) (count : Nat) :
    Covers (Read.repeated item count) data pos (S count pos) := by
  refine (repeated_go hnil hcons count #[] pos).imp fun as stop h => ?_
  obtain ⟨new, rfl, hnew⟩ := h
  exact hnew

/-- Items of one width stand at places of that distance. -/
theorem repeated_fixed {item : Nat → Read α} {w : Nat} {g : α → β} {f : Nat → β}
    (h : ∀ n pos, Covers (item n) data pos fun a stop => g a = f pos ∧ stop = pos + w)
    (count : Nat) :
    Covers (Read.repeated item count) data pos fun as stop =>
      as.map g = (List.range' pos count w).map f ∧ stop = pos + w * count := by
  refine (repeated (S := fun left pos as stop => as.map g = (List.range' pos left w).map f ∧
    stop = pos + w * left) (fun _ => ⟨rfl, rfl⟩) (fun n left pos => ?_) count).imp
      fun _ _ h => h
  refine (h n pos).imp fun a mid ha as stop has => ⟨?_, ?_⟩
  · rw [List.map_cons, ha.1, has.1, ha.2, List.range'_succ, List.map_cons]
  · rw [has.2, ha.2, Nat.mul_succ]
    omega

end Covers

end ClassWeaver
