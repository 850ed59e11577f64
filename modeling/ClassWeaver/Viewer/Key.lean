import ClassWeaver.Text.Rune

/-!
# Keys

A key of the keyboard has a name and may type characters. Reactions to keys go by the name; a
key that only types is named by what it types.
-/

namespace ClassWeaver

/-- A key that was pressed. -/
structure Key where
  name : Text
  /-- The characters that it types. -/
  typed : Text := []
  deriving DecidableEq, Repr

namespace Key

/-- The keys that type nothing. -/
def silent : List Text := ["up", "down", "left", "right", "pgup", "pgdown", "enter", "tab", "esc",
  "backspace", "ctrl+c"]

/-- The key with a name; one that is not silent types its name. -/
def ofName (name : Text) : Key :=
  if silent.contains name then { name } else { name, typed := name }

/-- The keys that type a text, one for each character. -/
def ofText (t : Text) : List Key :=
  t.codes.map fun code => { name := Text.ofCode code, typed := Text.ofCode code }

/-- Whether the key has one of these names. -/
def isAny (k : Key) (names : List Text) : Bool := names.contains k.name

end Key

end ClassWeaver
