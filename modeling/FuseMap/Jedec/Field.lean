import FuseMap.Device.Basic

/-! # Fields of a fuse file

The fuses of a device are written in fields: one for each row of the matrix, one for each region,
and one for each gap that they leave.
-/

namespace FuseMap.Jedec

/-- Consecutive fuses. -/
structure Field where
  first : Int
  length : Int
deriving DecidableEq, Repr

namespace Field

/-- The order of fields: by the first fuse, then by the length. -/
def le (a b : Field) : Bool :=
  a.first < b.first || (a.first == b.first && a.length ≤ b.length)

def sort (fields : List Field) : List Field := inOrder le fields

end Field

def rowFields (p : Device.Profile) : List Field :=
  (List.range p.matrixRows.toNat).map fun (row : Nat) => ⟨row * p.rowLength, p.rowLength⟩

def regionFields (p : Device.Profile) : List Field :=
  p.regions.map fun r => ⟨r.offset, r.width⟩

/-- The gaps between fields in their order. All fuses below `position` are covered, and the fuses
end at `stop`. -/
def gaps (stop position : Int) : List Field → List Field
  | [] => if position < stop then [⟨position, stop - position⟩] else []
  | f :: rest =>
    let others := gaps stop (max position (f.first + f.length)) rest
    if position < f.first then ⟨position, f.first - position⟩ :: others else others

/-- The fields of a device in their order. -/
def fields (p : Device.Profile) : List Field :=
  let listed := Field.sort (rowFields p ++ regionFields p)
  Field.sort (listed ++ gaps p.fuseCount 0 listed)

end FuseMap.Jedec
