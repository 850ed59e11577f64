import ClassWeaver.Text.Printable
import ClassWeaver.Text.Rune

/-!
# Quoted text

A quoted text is printable ASCII and Unicode between double quotes. The quote and the
backslash are escaped by a backslash, seven control characters have a letter of their own,
and everything else that is not printable is written in hexadecimal: `\x` and two digits for
ASCII controls and for stray bytes, `\u` and four or `\U` and eight digits for code points.
-/

namespace ClassWeaver.Text

/-- The letter that names an ASCII control character behind a backslash. -/
def controlLetter? : Nat → Option UInt8
  | 7 => some 97
  | 8 => some 98
  | 12 => some 102
  | 10 => some 110
  | 13 => some 114
  | 9 => some 116
  | 11 => some 118
  | _ => none

/-- A code point inside quotes of the kind `mark`. -/
def escapeCode (mark : UInt8) (code : Nat) : Text :=
  if code = mark.toNat || code = 92 then [92, code.toUInt8]
  else if isPrintable code then ofCode code
  else match controlLetter? code with
    | some letter => [92, letter]
    | none =>
      if code < 0x80 then 92 :: 120 :: hex 2 code
      else if code < 0x10000 then 92 :: 117 :: hex 4 code
      else 92 :: 85 :: hex 8 code

/-- One unit of a text inside quotes of the kind `mark`. -/
def escapeScalar (mark : UInt8) : Scalar → Text
  | .point code => escapeCode mark code
  | .stray b => 92 :: 120 :: hex 2 b.toNat

/-- The text between double quotes. -/
def quote (t : Text) : Text := 34 :: t.scalars.flatMap (escapeScalar 34) ++ [34]

/-- The code point of the same number as a byte, between single quotes. -/
def quoteByte (b : UInt8) : Text := 39 :: escapeCode 39 b.toNat ++ [39]

end ClassWeaver.Text
