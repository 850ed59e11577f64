/-!
# Big-endian numbers

A number of a fixed width is written with its most significant byte first. What does not fit
the width is dropped.
-/

namespace ClassWeaver

/-- The lowest `width` bytes of a number, most significant first. -/
def bigEndian : (width : Nat) → (n : Nat) → List UInt8
  | 0, _ => []
  | width + 1, n => bigEndian width (n / 256) ++ [(n % 256).toUInt8]

/-- The number written by some bytes. -/
def ofBigEndian (bytes : List UInt8) : Nat := bytes.foldl (fun n b => n * 256 + b.toNat) 0

/-- The lowest `width` bytes of an integer in two's complement. -/
def signedBigEndian (width : Nat) (n : Int) : List UInt8 :=
  bigEndian width (BitVec.ofInt (8 * width) n).toNat

@[simp]
theorem length_bigEndian (width n : Nat) : (bigEndian width n).length = width := by
  induction width generalizing n with
  | zero => rfl
  | succ width ih => simp [bigEndian, ih]

end ClassWeaver
