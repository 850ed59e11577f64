import ClassWeaver.Text.Rune

/-!
# The characters of a configuration file

A file is written in UTF-8, or in UTF-16 behind a byte order mark. It is read in windows of
512 bytes, a window only when its first character is asked for. So bytes that spell no
character spoil a file only for a reader who reaches their window: `Yaml.Source.ofText` gives
the characters of the windows in front, and then `tear`.
-/

namespace ClassWeaver

namespace Yaml

/-- Stands where a file cannot be read on; no file holds this character. -/
def tear : Char := '\x00'

/-- Whether the file cannot be read on within the next `count` characters. -/
def tornWithin (count : Nat) (cs : List Char) : Bool := (cs.take count).contains tear

/-- Whether a file may hold the character with this code. -/
def isAllowed (code : Nat) : Bool :=
  code = 0x09 || code = 0x0A || code = 0x0D || (0x20 ≤ code && code ≤ 0x7E) || code = 0x85
    || (0xA0 ≤ code && code ≤ 0xD7FF) || (0xE000 ≤ code && code ≤ 0xFFFD)
    || (0x10000 ≤ code && code ≤ 0x10FFFF)

/-! ### Encodings -/

/-- How characters are written. -/
inductive Encoding where
  | utf8
  | utf16 (littleEndian : Bool)
  deriving DecidableEq, Repr

namespace Encoding

/-- The code unit that two bytes of UTF-16 spell. -/
def unit (littleEndian : Bool) (a b : UInt8) : Nat :=
  if littleEndian then a.toNat + 256 * b.toNat else 256 * a.toNat + b.toNat

/-- The number of bytes of the character at the front, as far as its beginning tells. -/
def width : Encoding → List UInt8 → Nat
  | .utf8, b :: _ =>
    if b < 0xC0 then 1 else if b < 0xE0 then 2 else if b < 0xF0 then 3 else if b < 0xF8 then 4 else 1
  | .utf16 little, a :: b :: _ => if unit little a b / 1024 = 54 then 4 else 2
  | .utf16 _, _ => 2
  | .utf8, [] => 1

/-- The code of the character at the front, if there is one. -/
def code? : Encoding → List UInt8 → Option Nat
  | .utf8, b :: t => (Text.leading? b t).map Prod.fst
  | .utf16 little, a :: b :: t =>
    let high := unit little a b
    if high / 1024 = 55 then none
    else if high / 1024 = 54 then
      match t with
      | c :: d :: _ =>
        let low := unit little c d
        if low / 1024 = 55 then some (0x10000 + high % 1024 * 1024 + low % 1024) else none
      | _ => none
    else some high
  | _, _ => none

/-- The size of a window, in bytes. -/
def windowSize : Nat := 512

/-- Decodes bytes of which the first `skip` belong to the character before and which have
`left` more bytes in their window. The characters of the window so far and those of the
windows in front stand newest first. -/
def decodeFrom (e : Encoding) (window done : List Char) :
    (left skip : Nat) → List UInt8 → List Char
  | _, _, [] => (window ++ done).reverse
  | left, skip + 1, _ :: t => decodeFrom e window done left skip t
  | left, 0, b :: t =>
    let w := e.width (b :: t)
    if ((b :: t).take w).length < w then (tear :: window ++ done).reverse
    else
      match (e.code? (b :: t)).filter isAllowed with
      | none => (tear :: (if left < w then window ++ done else done)).reverse
      | some code =>
        let c := Char.ofNat code
        if left < w then decodeFrom e [c] (window ++ done) (windowSize - w) (w - 1) t
        else decodeFrom e (c :: window) done (left - w) (w - 1) t

end Encoding

/-! ### Files -/

/-- A file that can be read. -/
structure Source where
  chars : List Char
  /-- Lines that begin before this index lose their first character. -/
  veiled : Nat := 0

namespace Source

/-- Decodes the bytes behind a mark of so many bytes. A second mark veils the lines of the
first window. -/
def decode (e : Encoding) (mark : Nat) (t : Text) : Source :=
  let left := Encoding.windowSize - mark
  let chars := e.decodeFrom [] [] left 0 t
  { chars
    veiled :=
      if chars.head? = some '\ufeff' then
        ((e.decodeFrom [] [] left 0 (t.take left)).filter (· ≠ tear)).length - 3
      else 0 }

/-- The characters of a file. -/
def ofText : Text → Source
  | 0xFF :: 0xFE :: t => decode (.utf16 true) 2 t
  | 0xFE :: 0xFF :: t => decode (.utf16 false) 2 t
  | 0xEF :: 0xBB :: 0xBF :: t => decode .utf8 3 t
  | t => decode .utf8 0 t

end Source

end Yaml

end ClassWeaver
