import FuseMap.Device.Basic

/-! # Pins of tables on a device

Every output pin of a table has to be an output of the device that no other table uses, and every
input pin an input that the table lists once.
-/

namespace FuseMap.Device

/-- Checks input pins of the table of an output; `seen` are the pins before them. -/
def validateInputs (d : Device) (outputPin : Int) (seen : List Int) : List Int → Except Error Unit
  | [] => .ok ()
  | pin :: rest =>
    if ¬ pin ∈ d.profile.inputPins then .error (.illegalInput pin outputPin d.identifier)
    else if pin ∈ seen then .error (.repeatedInput pin outputPin)
    else validateInputs d outputPin (pin :: seen) rest

/-- Checks tables; `configured` are the output pins of the tables before them. -/
def validateFrom (d : Device) (configured : List Int) : List TruthTable → Except Error Unit
  | [] => .ok ()
  | t :: rest => do
    if ¬ t.outputPin ∈ d.profile.outputPins then
      throw (.illegalOutput t.outputPin d.identifier)
    if t.outputPin ∈ configured then
      throw (.repeatedOutput t.outputPin)
    validateInputs d t.outputPin [] t.inputPins
    validateFrom d (t.outputPin :: configured) rest

/-- Checks the pins of tables. -/
def validate (d : Device) (tables : List TruthTable) : Except Error Unit :=
  d.validateFrom [] tables

end FuseMap.Device
