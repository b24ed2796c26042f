import FuseMap.Device.Basic
import FuseMap.Fuse.Array
import FuseMap.SumOfProducts.Basic

/-! # Layout of an output

The rows of an output are its enable row, if it has one, then one row per term, then the rows that
are left over. A row of a term connects the columns of its literals and no others. The enable row
connects nothing, so that it is always true; a row left over connects every column, so that it is
always false.
-/

namespace FuseMap

namespace Device

/-- The fuse that connects a column to a row. -/
def connected (d : Device) : Fuse := UInt8.ofNat d.profile.connectedFuse.toNat

/-- The fuse that connects nothing. -/
def disconnected (d : Device) : Fuse := UInt8.ofNat d.profile.disconnectedFuse.toNat

/-- A row that connects every column. -/
def falseRow (d : Device) : List Fuse := List.replicate d.profile.rowLength d.connected

/-- A row that connects nothing. -/
def trueRow (d : Device) : List Fuse := List.replicate d.profile.rowLength d.disconnected

def termRow (d : Device) (t : ProductTerm) : Except Error (List Fuse) := do
  let columns ← t.mapM fun l => d.column l.pin l.inverted
  return (List.range d.profile.rowLength).map fun column =>
    if columns.contains column then d.connected else d.disconnected

/-- The value that the mode bit of a name takes. Outputs are active high. -/
def modeBitValue (d : Device) (registered : Bool) (name : String) : Option Json.Value :=
  if name = "polarity" then d.profile.modeValue? "polarity_active_high"
  else if name = "combinatorial" then
    d.profile.modeValue? (if registered then "registered" else "combinatorial")
  else none

/-- The mode bits that are stored for an output, in the order of their names. -/
def modeBits (d : Device) (o : OutputCell) (registered : Bool) : List (Int × Json.Value) :=
  ["combinatorial", "polarity"].filterMap fun name => do
    return (← o.modeBits.lookup name, ← d.modeBitValue registered name)

/-- Lays out a sum in the rows of its output. -/
def layout (d : Device) (s : SumOfProducts) : Except Error FuseBlock := do
  let o ← d.output s.outputPin
  if o.termRows < s.terms.length then
    throw (.tooManyTerms s.outputPin s.terms.length o.termRows)
  let rows ← s.terms.mapM d.termRow
  let used := (if o.enableRow then [d.trueRow] else []) ++ rows
  let unused := List.replicate (o.rowCount.toNat - used.length) d.falseRow
  return {
    outputPin := s.outputPin
    firstFuse := o.firstRow * d.profile.rowLength
    fuses := (used ++ unused).flatten
    modeBits := d.modeBits o s.registered }

end Device

end FuseMap
