import FuseMap.Device.Fault

/-! # Device profiles

A profile describes the fuses of one device. The matrix comes first: rows of fuses, each row a
product term over the columns. Every column pin has two columns, the pin and then its complement.
The fuses after the matrix are mode bits and regions.
-/

namespace FuseMap.Device

/-- One output with its rows of the matrix and its mode bits. -/
structure OutputCell where
  pin : Int
  firstRow : Int
  termRows : Int
  /-- Whether the first row enables the output; the rows of the terms follow it. -/
  enableRow : Bool
  /-- The fuses of the mode bits by name. -/
  modeBits : List (String × Int)
deriving DecidableEq, Inhabited, Repr

/-- A range of fuses after the matrix. -/
structure Region where
  name : Json.Value
  offset : Int
  width : Int
deriving Inhabited

/-- The description of a device as it is read, before it is checked. -/
structure Profile where
  deviceName : String
  pinCount : Int
  fuseCount : Int
  columnPins : List Int
  inputPins : List Int
  outputPins : List Int
  /-- The value of a fuse that connects a column to a row. -/
  connectedFuse : Int
  /-- The values for the mode bits, as they are written in the profile. -/
  modeValues : List (String × Json.Value)
  outputs : List OutputCell
  /-- Rows that belong to no output, by name. -/
  sharedRows : List (String × Int)
  regions : List Region
deriving Inhabited

/-- The number of rows of an output, its enable row included. -/
def OutputCell.rowCount (o : OutputCell) : Int :=
  o.termRows + if o.enableRow then 1 else 0

namespace Profile

def rowLength (p : Profile) : Nat := 2 * p.columnPins.length

/-- The value of a fuse that connects nothing. -/
def disconnectedFuse (p : Profile) : Int := 1 - p.connectedFuse

/-- A value for mode bits. -/
def modeValue? (p : Profile) (name : String) : Option Json.Value := p.modeValues.lookup name

end Profile

end FuseMap.Device
