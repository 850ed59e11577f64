import ClassWeaver.Text.Basic

/-!
# Code points of a text

`Text.scalars` reads a text as UTF-8 without ever failing: a byte that does not belong to a
well-formed sequence is kept as `Scalar.stray`. Well-formed means shortest form, no
surrogates and nothing above `0x10FFFF`.
-/

namespace ClassWeaver

/-- One unit of a text read as UTF-8. -/
inductive Scalar where
  /-- A well-formed sequence for the code point. -/
  | point (code : Nat)
  /-- A byte outside every well-formed sequence. -/
  | stray (byte : UInt8)
  deriving DecidableEq, Repr

namespace Text

/-- Whether `b` can continue a multi-byte sequence. -/
def isContinuation (b : UInt8) : Bool := 0x80 ≤ b && b ≤ 0xBF

/-- The payload bits of a continuation byte. -/
def payload (b : UInt8) : Nat := b.toNat % 64

/-- Reads the sequence that starts with `b` and continues in `t`: its code point and the
number of continuation bytes. -/
def leading? (b : UInt8) (t : Text) : Option (Nat × Nat) :=
  if b < 0x80 then some (b.toNat, 0)
  else if b < 0xC2 then none
  else if b < 0xE0 then
    match t with
    | c :: _ => if isContinuation c then some (b.toNat % 32 * 64 + payload c, 1) else none
    | [] => none
  else if b < 0xF0 then
    match t with
    | c :: d :: _ =>
      let code := b.toNat % 16 * 4096 + payload c * 64 + payload d
      if isContinuation c && isContinuation d && 0x800 ≤ code && !(0xD800 ≤ code && code < 0xE000)
      then some (code, 2) else none
    | _ => none
  else if b < 0xF5 then
    match t with
    | c :: d :: e :: _ =>
      let code := b.toNat % 8 * 262144 + payload c * 4096 + payload d * 64 + payload e
      if isContinuation c && isContinuation d && isContinuation e
          && 0x10000 ≤ code && code < 0x110000
      then some (code, 3) else none
    | _ => none
  else none

/-- Reads `t`, whose first `skip` bytes belong to the sequence before, behind the units in
`seen` (newest first). -/
def scalarsFrom (seen : List Scalar) : (skip : Nat) → Text → List Scalar
  | _, [] => seen.reverse
  | skip + 1, _ :: t => scalarsFrom seen skip t
  | 0, b :: t =>
    match leading? b t with
    | some (code, k) => scalarsFrom (.point code :: seen) k t
    | none => scalarsFrom (.stray b :: seen) 0 t

/-- The text as a sequence of code points and stray bytes. -/
def scalars (t : Text) : List Scalar := scalarsFrom [] 0 t

/-- The UTF-8 bytes of a code point. -/
def ofCode (code : Nat) : Text :=
  if code < 0x80 then [code.toUInt8]
  else if code < 0x800 then
    [(0xC0 + code / 64).toUInt8, (0x80 + code % 64).toUInt8]
  else if code < 0x10000 then
    [(0xE0 + code / 4096).toUInt8, (0x80 + code / 64 % 64).toUInt8, (0x80 + code % 64).toUInt8]
  else
    [(0xF0 + code / 262144).toUInt8, (0x80 + code / 4096 % 64).toUInt8,
      (0x80 + code / 64 % 64).toUInt8, (0x80 + code % 64).toUInt8]

/-- The code points of a text, with the replacement character for each stray byte. -/
def codes (t : Text) : List Nat :=
  t.scalars.map fun
    | .point code => code
    | .stray _ => 0xFFFD

end Text

end ClassWeaver
