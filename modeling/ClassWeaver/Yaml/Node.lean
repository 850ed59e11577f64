import ClassWeaver.Yaml.Token

/-!
# Documents as trees

A document is a scalar, a sequence or a mapping of further nodes. The readers here follow the
tokens: a block sequence may stand at the column of the key it belongs to, an entry or value
that is missing is the empty scalar, and a comma may follow the last entry between brackets.

Only the first document of a text counts. `Node.ofText?` reads it; a text without a document
is the empty scalar.
-/

namespace ClassWeaver

namespace Yaml

/-- A node of a document. -/
inductive Node where
  | scalar (text : List Char) (quoted : Bool)
  | sequence (items : List Node)
  | mapping (entries : List (Node × Node))
  deriving Repr

namespace Node

/-- What a missing node stands for. -/
def empty : Node := .scalar [] false

/-- A node, and the scanner behind it. -/
abbrev Parsed := Option (Node × Scanner)

/-- What ends an entry of a block. -/
def blockEnds : List Token := [.key, .value, .endBlock]

/-- What ends an entry between brackets. -/
def flowEnds : List Token := [.comma, .closeBracket, .closeBrace]

mutual

/-- Reads a node. Between brackets no block can begin, and only the key or value of a block
mapping can be a sequence at the same column. -/
def read (block dashes : Bool) : (fuel : Nat) → Scanner → Parsed
  | 0, _ => none
  | fuel + 1, s => do
    let (t, s) ← s.peek
    match t with
    | .scalar text quoted => return (.scalar text quoted, s.drop)
    | .openBracket => flowItems fuel true [] s.drop
    | .openBrace => flowEntries fuel true [] s.drop
    | .dash => if dashes then levelItems fuel [] s else none
    | .beginSequence => if block then blockItems fuel [] s.drop else none
    | .beginMapping => if block then blockEntries fuel [] s.drop else none
    | _ => none

/-- Reads a node of a block, or the empty node if one of the tokens `ends` follows. -/
def readUnless (ends : List Token) (block dashes : Bool) : (fuel : Nat) → Scanner → Parsed
  | 0, _ => none
  | fuel + 1, s => do
    let (t, s) ← s.peek
    if ends.contains t then return (empty, s) else read block dashes fuel s

/-- Reads the entries of a block sequence, newest first. -/
def blockItems : (fuel : Nat) → List Node → Scanner → Parsed
  | 0, _, _ => none
  | fuel + 1, items, s => do
    let (t, s) ← s.peek
    match t with
    | .dash => do
      let (item, s) ← readUnless [.dash, .endBlock] true false fuel s.drop
      blockItems fuel (item :: items) s
    | .endBlock => return (.sequence items.reverse, s.drop)
    | _ => none

/-- Reads the entries of a sequence at the column of its key, newest first. -/
def levelItems : (fuel : Nat) → List Node → Scanner → Parsed
  | 0, _, _ => none
  | fuel + 1, items, s => do
    let (t, s) ← s.peek
    if t = .dash then do
      let (item, s) ← readUnless (.dash :: blockEnds) true false fuel s.drop
      levelItems fuel (item :: items) s
    else return (.sequence items.reverse, s)

/-- Reads the entries of a block mapping, newest first. -/
def blockEntries : (fuel : Nat) → List (Node × Node) → Scanner → Parsed
  | 0, _, _ => none
  | fuel + 1, entries, s => do
    let (t, s) ← s.peek
    match t with
    | .key => do
      let (key, s) ← readUnless blockEnds true true fuel s.drop
      let (value, s) ← blockValue fuel s
      blockEntries fuel ((key, value) :: entries) s
    | .endBlock => return (.mapping entries.reverse, s.drop)
    | _ => none

/-- Reads the value of a key in a block. -/
def blockValue : (fuel : Nat) → Scanner → Parsed
  | 0, _ => none
  | fuel + 1, s => do
    let (t, s) ← s.peek
    if t = .value then readUnless blockEnds true true fuel s.drop else return (empty, s)

/-- Reads the entries of a sequence in brackets, newest first. An entry may be a key with a
value. -/
def flowItems : (fuel : Nat) → (first : Bool) → List Node → Scanner → Parsed
  | 0, _, _, _ => none
  | fuel + 1, first, items, s => do
    let (t, s) ← s.peek
    if t = .closeBracket then return (.sequence items.reverse, s.drop)
    else if first then do
      let (item, s) ← flowItem fuel s
      flowItems fuel false (item :: items) s
    else if t = .comma then do
      let (t, s) ← s.drop.peek
      if t = .closeBracket then return (.sequence items.reverse, s.drop)
      else
        let (item, s) ← flowItem fuel s
        flowItems fuel false (item :: items) s
    else none

/-- Reads an entry of a sequence in brackets. -/
def flowItem : (fuel : Nat) → Scanner → Parsed
  | 0, _ => none
  | fuel + 1, s => do
    let (t, s) ← s.peek
    if t = .key then do
      let (entry, s) ← flowPair fuel s.drop
      return (.mapping [entry], s)
    else read false false fuel s

/-- Reads a key and its value in brackets. -/
def flowPair : (fuel : Nat) → Scanner → Option ((Node × Node) × Scanner)
  | 0, _ => none
  | fuel + 1, s => do
    let (key, s) ← readUnless (.value :: flowEnds) false false fuel s
    let (t, s) ← s.peek
    if t = .value then do
      let (value, s) ← readUnless flowEnds false false fuel s.drop
      return ((key, value), s)
    else return ((key, empty), s)

/-- Reads the entries of a mapping in braces, newest first. -/
def flowEntries : (fuel : Nat) → (first : Bool) → List (Node × Node) → Scanner → Parsed
  | 0, _, _, _ => none
  | fuel + 1, first, entries, s => do
    let (t, s) ← s.peek
    if t = .closeBrace then return (.mapping entries.reverse, s.drop)
    else if first then do
      let (entry, s) ← flowEntry fuel s
      flowEntries fuel false (entry :: entries) s
    else if t = .comma then do
      let (t, s) ← s.drop.peek
      if t = .closeBrace then return (.mapping entries.reverse, s.drop)
      else
        let (entry, s) ← flowEntry fuel s
        flowEntries fuel false (entry :: entries) s
    else none

/-- Reads an entry of a mapping in braces; a node alone is a key without a value. -/
def flowEntry : (fuel : Nat) → Scanner → Option ((Node × Node) × Scanner)
  | 0, _ => none
  | fuel + 1, s => do
    let (t, s) ← s.peek
    if t = .key then flowPair fuel s.drop
    else
      let (key, s) ← read false false fuel s
      return ((key, empty), s)

end

/-- Reads the root of a document. The token behind it is looked at, whatever it is. -/
def root? (s : Scanner) : Option Node := do
  let (n, s) ← readUnless [.documentStart, .documentEnd, .finish] true false (16 * s.size + 16) s
  let _ ← s.peek
  return n

/-- Reads the first document of a file. -/
def ofSource? (src : Source) : Option Node := do
  let (t, s) ← (Scanner.start src).peek
  match t with
  | .finish => return empty
  | .documentStart => root? s.drop
  | .documentEnd => none
  | _ => root? s

/-- Reads the first document of a text. -/
def ofText? (t : Text) : Option Node := ofSource? (.ofText t)

/-! ### Values -/

/-- Whether the node stands for no value. -/
def isNull : Node → Bool
  | .scalar text false => ["", "~", "null", "Null", "NULL"].contains (String.ofList text)
  | _ => false

/-- The text of a scalar. -/
def text? : Node → Option Text
  | .scalar text _ => some (utf8 (String.ofList text))
  | _ => none

/-- The words for truth and falsehood in older documents, which are known quoted or not. -/
def olderWords : List String × List String :=
  (["y", "Y", "yes", "Yes", "YES", "on", "On", "ON"],
   ["n", "N", "no", "No", "NO", "off", "Off", "OFF"])

/-- The truth value of a scalar. -/
def flag? : Node → Option Bool
  | .scalar text quoted =>
    let word := String.ofList text
    if !quoted && ["true", "True", "TRUE"].contains word then some true
    else if !quoted && ["false", "False", "FALSE"].contains word then some false
    else if olderWords.1.contains word then some true
    else if olderWords.2.contains word then some false
    else none
  | _ => none

/-- The texts of a sequence of scalars; entries without a value are left out. -/
def texts? : Node → Option (List Text)
  | .sequence items => (items.filter fun n => !n.isNull).mapM text?
  | _ => none

/-! ### Fields

A mapping may take over the fields of others: those stand under the key `<<`, one mapping or a
sequence of them. Fields that are set in front of them win.
-/

/-- A named part of a mapping. -/
abbrev Field := Text × Node

/-- Whether mappings to take over stand under this key. -/
def isMerge : Node → Bool
  | .scalar text quoted => !quoted && text = ['<', '<']
  | _ => false

def isScalar : Node → Bool
  | .scalar .. => true
  | _ => false

/-- Whether no two keys are the same; keys that are no scalars count as the same. -/
def distinctKeys (entries : List (Node × Node)) : Bool :=
  let keys := entries.map fun (key, _) =>
    match key with
    | .scalar text _ => (0, text)
    | .sequence _ => (1, [])
    | .mapping _ => (2, [])
  keys.eraseDups.length = keys.length

/-- The fields that a mapping sets itself. Keys must be scalars and differ; an entry whose key
stands for no value is left out. -/
def ownFields? (entries : List (Node × Node)) : Option (List Field) :=
  if distinctKeys entries then
    (entries.filter fun (key, _) => !key.isMerge && !key.isNull).mapM fun (key, value) => do
      return (← key.text?, value)
  else none

/-- Fields, and those further ones whose names are not among them. -/
def withFields (fields more : List Field) : List Field :=
  fields ++ more.filter fun (name, _) => fields.all fun f => f.1 ≠ name

mutual

/-- The fields under the merge keys of these entries. -/
def mergedIn? : List (Node × Node) → Option (List Field)
  | [] => some []
  | (key, value) :: rest => do
    let fields ← if key.isMerge then mergedFrom? value else some []
    return withFields fields (← mergedIn? rest)

/-- The fields that a node under a merge key stands for. -/
def mergedFrom? : Node → Option (List Field)
  | .mapping entries => do return withFields (← ownFields? entries) (← mergedIn? entries)
  | .sequence items => mergedAll? items
  | .scalar .. => none

/-- The fields of the mappings in a sequence under a merge key. -/
def mergedAll? : List Node → Option (List Field)
  | [] => some []
  | .mapping entries :: rest => do
    let fields := withFields (← ownFields? entries) (← mergedIn? entries)
    return withFields fields (← mergedAll? rest)
  | _ :: _ => none

end

/-- The fields of a mapping, with those that it takes over. -/
def fields? : Node → Option (List Field)
  | .mapping entries => do return withFields (← ownFields? entries) (← mergedIn? entries)
  | _ => none

/-- Whether a mapping takes over fields though it has a key that is no scalar. Which fields it
sets itself is then undefined. -/
def isMuddled : Node → Bool
  | .mapping entries =>
    distinctKeys entries && entries.any (·.1.isMerge) && entries.any (!·.1.isScalar)
  | _ => false

end Node

end Yaml

end ClassWeaver
