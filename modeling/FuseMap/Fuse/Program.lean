import FuseMap.Fuse.Block

/-! # From truth tables to fuses

Every table becomes a sum, every sum a block, and the blocks are placed in the order of the
device's outputs. The first failure ends the whole.
-/

namespace FuseMap.Device

/-- The fuses of a device with nothing programmed: the rows of the matrix are false, all other
fuses are 0. -/
def blank (d : Device) : Except Error FuseArray := do
  let zeros ← FuseArray.filled d.profile.fuseCount 0 (some d.profile.rowLength)
  let matrix := if d.profile.connectedFuse = 0 then 0 else d.profile.matrixFuses.toNat
  return { zeros with fuses := FuseArray.overwrite zeros.fuses 0 (List.replicate matrix 1) }

/-- The blocks of sums, in the order of the sums. -/
def layouts (d : Device) (sums : List SumOfProducts) : Except Error (List FuseBlock) :=
  sums.mapM d.layout

/-- Items in the order of the device's outputs; those of one output stay as they were. -/
def inOutputOrder {α : Type} (d : Device) (outputPin : α → Int) (items : List α) : List α :=
  inOrder (fun a b =>
    decide (d.outputOrder.idxOf (outputPin a) ≤ d.outputOrder.idxOf (outputPin b))) items

/-- Places blocks in a blank array. -/
def placeAll (d : Device) (blocks : List FuseBlock) : Except Error FuseArray := do
  (d.inOutputOrder (·.outputPin) blocks).foldlM (fun a b => (a.place b).mapError (·.error))
    (← d.blank)

/-- The fuses that implement truth tables on a device. -/
def program (d : Device) (tables : List TruthTable) : Except Error FuseArray := do
  let sums ← SumOfProducts.ofTables tables
  let blocks ← d.layouts sums
  d.placeAll blocks

end FuseMap.Device
