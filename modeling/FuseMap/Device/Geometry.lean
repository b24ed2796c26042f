import FuseMap.Device.Profile

/-! # The geometry of a device

A profile is sound if no row of the matrix has two owners, the matrix fits the fuses of the device,
and the mode bits and regions lie after it. `Profile.check` finds the first fault.
-/

namespace FuseMap.Device

/-! ## Rows -/

/-- Consecutive rows with one owner, the end excluded. -/
structure RowRange where
  first : Int
  stop : Int
  owner : Owner
deriving DecidableEq, Repr

namespace RowRange

/-- The first row that is in both ranges. -/
def meet? (a b : RowRange) : Option Int :=
  let row := max a.first b.first
  if row < a.stop ∧ row < b.stop then some row else none

/-- The first row of a range that is in one of the others, with the owner it has there. -/
def firstShared? (r : RowRange) (others : List RowRange) : Option (Int × Owner) :=
  others.foldl (fun best other =>
    match r.meet? other, best with
    | some row, some (least, owner) => if row < least then some (row, other.owner)
      else some (least, owner)
    | some row, none => some (row, other.owner)
    | none, best => best) none

/-- Adds a range of rows that nobody owns yet. -/
def claim (owned : List RowRange) (r : RowRange) : Except GeometryFault (List RowRange) :=
  match r.firstShared? owned with
  | some (row, owner) => .error (.sharedRow row owner r.owner)
  | none => .ok (owned ++ [r])

end RowRange

def OutputCell.rows (o : OutputCell) : RowRange :=
  ⟨o.firstRow, o.firstRow + o.rowCount, .output o.pin⟩

/-- A row that belongs to no output, as a range. -/
def sharedRow (entry : String × Int) : RowRange :=
  ⟨entry.2, entry.2 + 1, .shared entry.1⟩

namespace Profile

/-- The rows with an owner. -/
def ownedRows (p : Profile) : List RowRange :=
  p.outputs.map OutputCell.rows ++ p.sharedRows.map sharedRow

/-- The number of rows of the matrix: one more than the greatest row with an owner. -/
def matrixRows (p : Profile) : Int :=
  ((p.ownedRows.filter fun r => r.first < r.stop).map (·.stop)).max?.getD 0

def matrixFuses (p : Profile) : Int := p.matrixRows * p.rowLength

/-! ## Checks -/

/-- Refuses a connected fuse that is no bit and pins that occur twice. -/
def checkPins (p : Profile) : Except GeometryFault Unit :=
  if p.connectedFuse ≠ 0 ∧ p.connectedFuse ≠ 1 then .error .connectedFuse
  else if ¬ p.columnPins.Nodup then .error .repeatedColumn
  else if ¬ (p.outputs.map (·.pin)).Nodup then .error .repeatedOutput
  else .ok ()

/-- The values for mode bits that a profile has to give. -/
def requiredModeValues : List String := ["polarity_active_high", "combinatorial", "registered"]

def isBit (v : Json.Value) : Bool := v.equalsInteger 0 || v.equalsInteger 1

/-- Refuses values for mode bits that are missing or no bits. -/
def checkModeValues (p : Profile) : Except GeometryFault Unit :=
  requiredModeValues.forM fun name =>
    if (p.modeValue? name).any isBit then .ok () else .error (.modeValue name)

/-- Adds the rows of an output to the rows with an owner. -/
def claimOutput (p : Profile) (owned : List RowRange) (o : OutputCell) :
    Except GeometryFault (List RowRange) :=
  if ¬ o.pin ∈ p.outputPins then .error (.notAnOutputPin o.pin)
  else if o.termRows < 0 ∨ o.firstRow < 0 then .error (.negativeRows o.pin)
  else RowRange.claim owned o.rows

/-- Refuses rows with two owners: first the outputs claim theirs, then the shared rows follow. -/
def checkRows (p : Profile) : Except GeometryFault Unit := do
  let owned ← p.outputs.foldlM p.claimOutput []
  let _ ← (p.sharedRows.map sharedRow).foldlM RowRange.claim owned

/-- Refuses a matrix with more fuses than the device. -/
def checkMatrix (p : Profile) : Except GeometryFault Unit :=
  if p.fuseCount < p.matrixFuses then
    .error (.matrixTooLarge p.matrixRows p.rowLength p.fuseCount)
  else .ok ()

/-- A mode bit of an output pin. -/
structure ModeBit where
  pin : Int
  name : String
  offset : Int
deriving DecidableEq, Repr

def modeBits (p : Profile) : List ModeBit :=
  p.outputs.flatMap fun o => o.modeBits.map fun (name, offset) => ⟨o.pin, name, offset⟩

/-- Adds a mode bit at a fuse after the matrix that no other has. -/
def claimModeBit (p : Profile) (taken : List ModeBit) (b : ModeBit) :
    Except GeometryFault (List ModeBit) :=
  if b.offset < p.matrixFuses ∨ p.fuseCount ≤ b.offset then
    .error (.modeBitOutside b.name b.pin b.offset)
  else
    match taken.find? (·.offset == b.offset) with
    | some other => .error (.sharedModeBit b.offset other.pin b.pin)
    | none => .ok (taken ++ [b])

/-- Refuses mode bits outside their area and two of them at one fuse. -/
def checkModeBits (p : Profile) : Except GeometryFault Unit := do
  let _ ← p.modeBits.foldlM p.claimModeBit []

/-- Refuses regions that start in the matrix or end after the last fuse. -/
def checkRegions (p : Profile) : Except GeometryFault Unit :=
  p.regions.forM fun r =>
    if r.offset < p.matrixFuses ∨ p.fuseCount < r.offset + r.width then
      .error (.regionOutside r.name)
    else .ok ()

/-- The first fault of the geometry, if it has one. -/
def check (p : Profile) : Except GeometryFault Unit := do
  p.checkPins
  p.checkModeValues
  p.checkRows
  p.checkMatrix
  p.checkModeBits
  p.checkRegions

end Profile

end FuseMap.Device
