import ClassWeaver.Printout
import ClassWeaver.Text.Lowercase
import ClassWeaver.Transform
import ClassWeaver.Viewer.LineInput
import ClassWeaver.Viewer.Pane

/-!
# The interactive viewer

The viewer lists the methods of a class with what weaving makes of each, and shows the code of
one of them before and after. `Viewer.update` is its reaction to a key and `Viewer.screen` what
it shows; nothing else depends on a terminal.
-/

namespace ClassWeaver

/-! ### Methods -/

/-- A method in the list. -/
structure MethodEntry where
  name : Text
  desc : Text
  /-- How weaving went; empty if the method was left alone. -/
  status : Text := []
  states : Nat := 0

namespace MethodEntry

def key (e : MethodEntry) : Text := e.name ++ e.desc

/-- The remark behind a method. -/
def remark (e : MethodEntry) : Text := "  " ++ Terminal.block (e.status.orElse "unchanged")

/-- The entry of a method, according to a report on its class. -/
def ofMethod (owner : Text) (report : Report) (m : Method) : MethodEntry :=
  match report.woven.reverse.find? (·.method = m.key) with
  | some w =>
    { name := m.name, desc := m.desc, status := Text.ofNat w.states ++ " states"
      states := w.states }
  | none =>
    let cause := report.skipped.reverse.find? fun s =>
      s.owner = owner && s.name = m.key && s.cause?.isSome
    { name := m.name, desc := m.desc
      status := ((cause.bind Skipped.cause?).map Fault.message).getD [] }

end MethodEntry

/-- A class before and after weaving. -/
structure Comparison where
  before : ClassFile
  after : ClassFile
  methods : List MethodEntry

namespace Comparison

/-- Weaves a class for comparison. Methods that fail are always skipped. -/
def ofClass (plan : Plan) (c : ClassFile) : Outcome Comparison := do
  let (report, woven) := c.transform { plan with onError := .skip }
  let after ← woven
  return {
    before := c
    after
    methods := (c.methods.filter (·.code.isSome)).map
      (MethodEntry.ofMethod c.name (report.getD {})) }

/-- Weaves a class file for comparison. -/
def ofBytes (plan : Plan) (data : List UInt8) : Outcome Comparison :=
  match ClassFile.parse data with
  | .error f => Outcome.fail f
  | .ok c => ofClass plan c

end Comparison

/-! ### The viewer -/

/-- The state of the viewer. -/
structure Viewer where
  file : Text
  plan : Plan := {}
  /-- Why the class could not be shown. -/
  problem : Option Fault := none
  shown : Option Comparison := none
  /-- The places of the methods that the filter lets through. -/
  visible : List Nat := []
  /-- The selected one of them. -/
  selected : Nat := 0
  filter : LineInput := {}
  filtering : Bool := false
  /-- Whether the code of the selected method is shown. -/
  listing : Bool := false
  /-- Whether code is shown after weaving or before. -/
  woven : Bool := true
  pane : Pane := {}

namespace Viewer

/-- The methods of the class. -/
def methods (v : Viewer) : List MethodEntry :=
  match v.shown with
  | some c => c.methods
  | none => []

/-- The selected method. -/
def current? (v : Viewer) : Option MethodEntry := do v.methods[← v.visible[v.selected]?]?

/-- Applies the filter, in any case, and keeps the selection inside the list. -/
def applyFilter (v : Viewer) : Viewer :=
  let wanted := v.filter.text.lower
  let fits (e : MethodEntry) : Bool := Text.hasPart wanted e.key.lower
  let visible := (v.methods.zipIdx.filter fun (e, _) => fits e).map Prod.snd
  { v with visible, selected := Nat.min v.selected (visible.length - 1) }

/-- Takes up a class that was read, or the reason why it could not be. -/
def load (v : Viewer) (data : Except Fault (List UInt8)) : Outcome Viewer :=
  match data with
  | .error f => .ok { v with problem := some f }
  | .ok data =>
    match Comparison.ofBytes v.plan data with
    | .ok c => .ok { v with shown := some c }.applyFilter
    | .error .undefined => Outcome.undefined
    | .error (.fault f) => .ok { v with problem := some f }

/-- The lines around the pane. -/
def frameHeight : Nat := 6

/-- Takes account of the size of the terminal. -/
def resize (v : Viewer) (width height : Nat) : Viewer :=
  { v with pane := { v.pane with width, height := Nat.max (height - frameHeight) 1 } }

/-- Puts the code of the selected method into the pane. -/
def showCode (v : Viewer) : Outcome Viewer :=
  match v.current?, v.shown with
  | some e, some c => do
    let c := if v.woven then c.after else c.before
    let m := (c.findMethod? e.name e.desc).bind fun n => c.methods[n]?
    match m.bind fun m => m.code.map (m, ·) with
    | none => return { v with pane := v.pane.setText "method has no code" }
    | some (m, l) =>
      let text ← Printout.ofMethod Terminal.block c.name m l
      return { v with pane := { v.pane.setText text with offset := 0 } }
  | _, _ => .ok v

/-- The reaction to a key in the method list. -/
def updateList (v : Viewer) (k : Key) : Outcome Viewer :=
  if k.isAny ["/"] then .ok { v with filtering := true }
  else if k.isAny ["up", "k"] then .ok { v with selected := v.selected - 1 }
  else if k.isAny ["down", "j"] then
    .ok { v with selected := if v.selected + 1 < v.visible.length then v.selected + 1
                 else v.selected }
  else if k.isAny ["enter"] && !v.visible.isEmpty then { v with listing := true }.showCode
  else .ok v

/-- The reaction to a key in a listing. -/
def updateListing (v : Viewer) (k : Key) : Outcome Viewer :=
  if k.isAny ["tab"] then { v with woven := !v.woven }.showCode
  else if k.isAny ["esc"] then .ok { v with listing := false }
  else .ok { v with pane := v.pane.update k }

/-- The reaction to a key, and whether it ends the viewer. -/
def update (v : Viewer) (k : Key) : Outcome (Viewer × Bool) :=
  if k.isAny ["ctrl+c"] then .ok (v, true)
  else if v.filtering then
    if k.isAny ["enter", "esc"] then .ok ({ v with filtering := false }, false)
    else do
      let filter ← v.filter.update k
      return ({ v with filter }.applyFilter, false)
  else if k.isAny ["q"] then .ok (v, true)
  else do
    let v ← if v.listing then v.updateListing k else v.updateList k
    return (v, false)

/-! ### The screen -/

/-- The line of a method in the list. -/
def methodLine (v : Viewer) (place : Nat) (e : MethodEntry) : Text :=
  (if place = v.selected then Terminal.block ("> " ++ e.key) else "  " ++ e.key) ++ e.remark

/-- The lines of the method list. -/
def methodLines (v : Viewer) : List Text :=
  if v.visible.isEmpty then ["  no methods match"]
  else v.visible.zipIdx.filterMap fun (n, place) => (v.methods[n]?).map (v.methodLine place)

/-- What stands above the method list: the filter, or whose methods these are. -/
def heading (v : Viewer) (owner : Text) : Text :=
  if v.filtering || !v.filter.codes.isEmpty then "/ " ++ v.filter.shown.orElse "filter methods"
  else "Methods of " ++ Terminal.block owner ++ ":"

/-- What stands above a listing. -/
def listingHeading (v : Viewer) : Text :=
  Terminal.block ((v.current?.map MethodEntry.key).getD []) ++ " ("
    ++ (if v.woven then utf8 "woven" else utf8 "original") ++ ")"

/-- Everything that is shown of a class, below the title. -/
def body (v : Viewer) (owner : Text) : List Text :=
  if v.listing then
    v.listingHeading :: v.pane.shown
      ++ [utf8 "tab original/woven • ↑/↓ scroll • esc back • q quit"]
  else
    [v.heading owner, []] ++ v.methodLines
      ++ [[], utf8 "↑/↓ select • / filter • enter show • q quit"]

/-- What is shown, as one text. -/
def display (v : Viewer) : Text :=
  match v.problem, v.shown with
  | some f, _ => Terminal.block ("Error: " ++ f.message ++ "\n\nPress q to quit.")
  | none, none => "Loading class..."
  | none, some c =>
    Text.join "\n" ((" JVM Yield Weaver  " ++ v.file) :: [] :: v.body c.before.name)

/-- `t` without spaces at its end. -/
def trimmed (t : Text) : Text := (t.reverse.dropWhile (· = 32)).reverse

/-- The lines of the screen. -/
def screen (v : Viewer) : List Text := (v.display.splitAtByte 10).map trimmed

end Viewer

end ClassWeaver
