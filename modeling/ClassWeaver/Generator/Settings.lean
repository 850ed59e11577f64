import ClassWeaver.Enhance.Arrays
import ClassWeaver.Generator.CallSite

/-!
# Settings of the weaver

Which calls suspend and end a generator, how the fields of a woven method are named, and which
rules run over the woven code. Whatever is left empty has a default.
-/

namespace ClassWeaver

/-- How methods are woven. An empty name stands for its default. -/
structure Settings where
  yieldCall : CallSite := {}
  breakCall : CallSite := {}
  /-- In front of the name of every state field. -/
  stateField : Text := []
  /-- In front of the name of every slot field. -/
  slotField : Text := []
  /-- Whether a region must be closed at height zero. -/
  strictClose : Bool := false
  /-- The rules for the woven code; without any list of them the standard rules. -/
  enhancers : Option Chain := none

namespace Settings

/-- The call that suspends a generator. -/
def yieldSite (s : Settings) : CallSite :=
  { s.yieldCall with name := s.yieldCall.name.orElse "yieldReturn" }

/-- The call that ends a generator. -/
def breakSite (s : Settings) : CallSite :=
  { s.breakCall with name := s.breakCall.name.orElse "yieldBreak" }

/-- The rules that run over the woven code. -/
def chain (s : Settings) : Chain := s.enhancers.getD Chain.standard

/-- What the names of state fields begin with, unless something else is chosen. -/
def defaultStateStem : Text := "$state"

/-- What the names of slot fields begin with, unless something else is chosen. -/
def defaultSlotStem : Text := "$slot"

/-- What the names of state fields begin with. -/
def stateStem (s : Settings) : Text := s.stateField.orElse defaultStateStem

/-- What the names of slot fields begin with. -/
def slotStem (s : Settings) : Text := s.slotField.orElse defaultSlotStem

/-- The field that holds the state in which a method resumes. -/
def stateFieldName (s : Settings) (method : Text) : Text :=
  s.stateStem ++ "$" ++ method

/-- The field that keeps a local of a method while it is suspended. -/
def slotFieldName (s : Settings) (method : Text) (index : UInt16) : Text :=
  s.slotStem ++ "$" ++ method ++ "$" ++ Text.ofNat index.toNat

end Settings

end ClassWeaver
