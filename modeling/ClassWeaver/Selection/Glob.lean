import ClassWeaver.Text.Rune

/-!
# Globs

A glob matches names with `*` for any run of bytes, `?` for a single character and `[...]` for
a character from a set, or with `^` in front for one outside it. Neither `*` nor `?` matches a
slash. A backslash takes the special meaning off the next character.

Matching is by commitment: each part between stars is matched at the first place where it
fits, and a later failure does not come back to try another place.
-/

namespace ClassWeaver

/-- What matches one character. -/
inductive GlobItem where
  | byte (b : UInt8)
  /-- Any character but a slash. -/
  | any
  /-- A character inside or outside some inclusive ranges. -/
  | set (negated : Bool) (ranges : List (Nat × Nat))
  deriving DecidableEq, Repr

/-- A part of a glob: items without a star between them, and whether a star is in front. -/
structure GlobPart where
  star : Bool
  items : List GlobItem
  deriving DecidableEq, Repr

/-- A glob as its parts. -/
abbrev Glob := List GlobPart

namespace Text

/-- The first character of a text and what follows; a stray byte counts as the replacement
character. -/
def uncons? : Text → Option (Nat × Text)
  | [] => none
  | b :: t =>
    match leading? b t with
    | some (code, k) => some (code, t.drop k)
    | none => some (0xFFFD, t)

end Text

namespace Glob

/-! ### Reading -/

/-- Reads a character of a set, which must be followed by something. -/
def setChar? (t : Text) : Option (Nat × Text) :=
  let take : Text → Option (Nat × Text)
    | [] => none
    | b :: t =>
      match Text.leading? b t with
      | some (code, k) => if (t.drop k).isEmpty then none else some (code, t.drop k)
      | none => none
  match t with
  | [] => none
  | b :: rest =>
    if b = 45 || b = 93 then none
    else if b = 92 then take rest
    else take t

/-- Reads the ranges of a set up to its closing bracket, behind those in `seen` (newest
first). Every range takes at least a byte, so the length of the text is enough fuel. -/
def setRanges? :
    (fuel : Nat) → (seen : List (Nat × Nat)) → Text → Option (List (Nat × Nat) × Text)
  | 0, _, _ => none
  | fuel + 1, seen, t =>
    if t.head? = some 93 && !seen.isEmpty then some (seen.reverse, t.drop 1)
    else do
      let (low, t) ← setChar? t
      if t.head? = some 45 then
        let (high, t) ← setChar? (t.drop 1)
        setRanges? fuel ((low, high) :: seen) t
      else setRanges? fuel ((low, low) :: seen) t

/-- Reads a set behind its opening bracket. -/
def set? (t : Text) : Option (GlobItem × Text) :=
  let negated := t.head? = some 94
  let t := if negated then t.drop 1 else t
  (setRanges? (t.length + 1) [] t).map fun (ranges, rest) => (.set negated ranges, rest)

/-- Reads a glob from a place with `part` in the making (its items newest first) and the parts
in `seen` before it (newest first). -/
def read? : (fuel : Nat) → (seen : List GlobPart) → (part : GlobPart) → Text → Option Glob
  | 0, _, _, _ => none
  | fuel + 1, seen, part, t =>
    let add (i : GlobItem) : GlobPart := { part with items := i :: part.items }
    let parts : List GlobPart := { part with items := part.items.reverse } :: seen
    match t with
    | [] => some parts.reverse
    | b :: rest =>
      if b = 42 then
        if part.items.isEmpty then
          read? fuel seen { part with star := true } rest
        else read? fuel parts { star := true, items := [] } rest
      else if b = 63 then read? fuel seen (add .any) rest
      else if b = 91 then
        match set? rest with
        | some (i, rest) => read? fuel seen (add i) rest
        | none => none
      else if b = 92 then
        match rest with
        | [] => none
        | c :: rest => read? fuel seen (add (.byte c)) rest
      else read? fuel seen (add (.byte b)) rest

/-- Reads a glob; `none` when it is malformed. -/
def parse? (t : Text) : Option Glob := read? (t.length + 1) [] { star := false, items := [] } t

/-! ### Matching -/

/-- Whether an item matches the first character: what is left of the name. -/
def matchItem? (i : GlobItem) (name : Text) : Option Text :=
  match i, name with
  | _, [] => none
  | .byte b, c :: rest => if b = c then some rest else none
  | .any, c :: _ => if c = 47 then none else name.uncons?.map Prod.snd
  | .set negated ranges, _ =>
    match name.uncons? with
    | none => none
    | some (code, rest) =>
      if ranges.any (fun (low, high) => low ≤ code && code ≤ high) = negated then none
      else some rest

/-- Whether items match at the front: what is left of the name. -/
def matchItems? (items : List GlobItem) (name : Text) : Option Text :=
  items.foldlM (fun name i => matchItem? i name) name

/-- What is left of the name behind the first place where the items fit, after a star has
taken at least one byte. The last part must fit up to the end. -/
def search? (items : List GlobItem) (final : Bool) : (name : Text) → Option Text
  | [] => none
  | b :: rest =>
    if b = 47 then none
    else match matchItems? items rest with
      | some t => if final && !t.isEmpty then search? items final rest else some t
      | none => search? items final rest

/-- Whether parts match the whole name. -/
def isMatch : Glob → (name : Text) → Bool
  | [], name => name.isEmpty
  | part :: rest, name =>
    if part.star && part.items.isEmpty then !name.contains 47
    else
      let found :=
        match matchItems? part.items name with
        | some t =>
          if t.isEmpty || !rest.isEmpty then some t
          else if part.star then search? part.items rest.isEmpty name else none
        | none => if part.star then search? part.items rest.isEmpty name else none
      match found with
      | some t => isMatch rest t
      | none => false

end Glob

end ClassWeaver
