import FuseMap.Device.Geometry
import FuseMap.Error

/-! # Devices

A device is a profile with sound geometry and the identifier it is selected by.
-/

namespace FuseMap

/-- A device: a profile that has been checked, under an identifier. -/
structure Device where
  identifier : String
  profile : Device.Profile
  sound : profile.check = .ok ()

namespace Device

/-- The device of a profile, if its geometry is sound. -/
def ofProfile (identifier : String) (p : Profile) : Except Error Device :=
  match h : p.check with
  | .ok () => .ok ⟨identifier, p, h⟩
  | .error fault => .error (.unsoundProfile identifier fault)

/-- The output cell of a pin. -/
def output (d : Device) (pin : Int) : Except Error OutputCell :=
  match d.profile.outputs.find? (·.pin == pin) with
  | some o => .ok o
  | none => .error (.unknownPin pin .output d.identifier)

def rowCapacity (d : Device) (pin : Int) : Except Error Int := do
  return (← d.output pin).termRows

/-- The first fuse of the rows of an output and their number. -/
def block (d : Device) (pin : Int) : Except Error (Int × Int) := do
  let o ← d.output pin
  return (o.firstRow * d.profile.rowLength, o.rowCount)

/-- The column of a pin or of its complement in a row. -/
def column (d : Device) (pin : Int) (inverted : Bool) : Except Error Nat :=
  match d.profile.columnPins.idxOf? pin with
  | some i => .ok (2 * i + inverted.toNat)
  | none => .error (.unknownPin pin .input d.identifier)

/-- The output pins in the order of the fuse map. -/
def outputOrder (d : Device) : List Int := d.profile.outputs.map (·.pin)

def summary (d : Device) : String :=
  s!"DeviceConfig({Text.quoted d.identifier}, {d.profile.deviceName}, " ++
    s!"{d.profile.fuseCount} fuses)"

end Device

end FuseMap
