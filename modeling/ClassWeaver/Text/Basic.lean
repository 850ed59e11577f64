/-!
# Text as bytes

Names, descriptors and string constants of a class file are byte strings: nothing promises
that they are valid UTF-8, and messages quote them byte for byte. `Text` is therefore a list
of bytes, `utf8` embeds string literals, and the operations here are the few that rendering
and pattern handling need: decimal and hexadecimal numerals, joining, splitting and search.
-/

namespace ClassWeaver

/-- A byte string. -/
abbrev Text := List UInt8

/-- The UTF-8 bytes of a string. -/
def utf8 (s : String) : Text := s.toUTF8.data.toList

instance : Coe String Text := ⟨utf8⟩

namespace Text

/-! ### Numerals -/

/-- The byte of the hexadecimal digit `d < 16`, in lower case. -/
def hexDigit (d : Nat) : UInt8 :=
  if d < 10 then (48 + d).toUInt8 else (87 + d).toUInt8

/-- The decimal numeral of a natural number. -/
def ofNat (n : Nat) : Text := (Nat.toDigits 10 n).map fun c => c.toNat.toUInt8

/-- The decimal numeral of an integer, with a leading minus sign below zero. -/
def ofInt : Int → Text
  | .ofNat n => ofNat n
  | .negSucc n => 45 :: ofNat (n + 1)

/-- The lowest `width` hexadecimal digits of `n`, with leading zeros. -/
def hex : (width : Nat) → (n : Nat) → Text
  | 0, _ => []
  | width + 1, n => hex width (n / 16) ++ [hexDigit (n % 16)]

/-- `t` with spaces in front up to `width` bytes. -/
def padLeft (width : Nat) (t : Text) : Text :=
  List.replicate (width - t.length) 32 ++ t

/-- `t`, or `dflt` in place of the empty text. -/
def orElse (t dflt : Text) : Text := if t.isEmpty then dflt else t

/-! ### Joining, splitting, searching -/

/-- The texts of a list with `sep` between neighbours. -/
def join (sep : Text) (texts : List Text) : Text := (texts.intersperse sep).flatten

/-- Pieces of `t` between the occurrences of the byte `sep`; there is always at least one. -/
def splitAtByte (sep : UInt8) (t : Text) : List Text :=
  t.foldr
    (fun b pieces =>
      if b = sep then [] :: pieces
      else match pieces with
        | [] => [[b]]
        | piece :: rest => (b :: piece) :: rest)
    [[]]

/-- Splits `t` in front of the first occurrence of `b`. -/
def spanByte (b : UInt8) (t : Text) : Text × Text := t.span (· ≠ b)

/-- Splits `t` around the last occurrence of `b`, if there is one. -/
def splitLast? (b : UInt8) (t : Text) : Option (Text × Text) :=
  match spanByte b t.reverse with
  | (_, []) => none
  | (after, _ :: before) => some (before.reverse, after.reverse)

/-- Whether `part` occurs in `t` as a contiguous block. -/
def hasPart (part : Text) : Text → Bool
  | [] => part.isEmpty
  | b :: t => part.isPrefixOf (b :: t) || hasPart part t

/-- `t` without `tail` at its end, or `t` itself when it does not end so. -/
def dropSuffix (t tail : Text) : Text :=
  if tail.isSuffixOf t then t.take (t.length - tail.length) else t

end Text

end ClassWeaver
