import FuseMap.Error

/-! # Fuse arrays

A fuse array holds one byte per fuse, and the ranges of fuses that outputs have been placed in.
Placing an output refuses ranges that leave the array or meet a range that is taken; a refused
output changes nothing.
-/

namespace FuseMap

/-- The value of a fuse. -/
abbrev Fuse := UInt8

/-- The fuse that an integer stands for. -/
def Fuse.ofInt (n : Int) : Except Error Fuse :=
  if 0 ≤ n ∧ n ≤ 255 then .ok (UInt8.ofNat n.toNat) else .error .fuseValueRange

/-- The fuse that a value of a profile stands for; a number with a point is none. -/
def Fuse.ofJson : Json.Value → Except Error Fuse
  | .bool b => .ok (if b then 1 else 0)
  | .integer n => Fuse.ofInt n
  | _ => .error .fuseValueKind

/-- A range of fuses, its end excluded, and the output pin it belongs to. -/
structure Placement where
  first : Int
  stop : Int
  outputPin : Int
deriving DecidableEq, Repr

/-- Whether two ranges meet. -/
def Placement.meets (a b : Placement) : Bool :=
  a.first < b.stop && b.first < a.stop

/-- The fuses of one output: consecutive fuses of the matrix, and single mode bits with their
values. -/
structure FuseBlock where
  outputPin : Int
  firstFuse : Int
  fuses : List Fuse
  modeBits : List (Int × Json.Value)

namespace FuseBlock

/-- The ranges that a block needs: its fuses of the matrix, then its mode bits. -/
def ranges (b : FuseBlock) : List Placement :=
  ⟨b.firstFuse, b.firstFuse + b.fuses.length, b.outputPin⟩ ::
    b.modeBits.map fun (offset, _) => ⟨offset, offset + 1, b.outputPin⟩

end FuseBlock

/-! ## Positions

Positions are counted from the front or, if negative, from the end.
-/

/-- The items of a list from one position up to another, cut to the ends of the list. -/
def window {α : Type} (l : List α) (start stop : Int) : List α :=
  let place (i : Int) : Nat := if i < 0 then (i + l.length).toNat else i.toNat
  (l.take (place stop)).drop (place start)

/-- A position counted from the front. -/
def position? (length : Nat) (i : Int) : Option Nat :=
  if 0 ≤ i ∧ i < length then some i.toNat
  else if i < 0 ∧ 0 ≤ i + length then some (i + length).toNat
  else none

/-- An array of fuses, with the ranges that have an owner. -/
structure FuseArray where
  fuses : List Fuse
  /-- The number of fuses of a row, if the array has rows. -/
  rowLength : Option Int
  /-- The ranges that have been placed, in the order of placement. -/
  placed : List Placement := []
deriving DecidableEq, Repr

namespace FuseArray

/-- An array of equal fuses. -/
def filled (size : Int) (fuse : Fuse) (rowLength : Option Int) : Except Error FuseArray :=
  if isSize size then .ok { fuses := List.replicate size.toNat fuse, rowLength }
  else .error .arrayTooLarge

def get (a : FuseArray) (i : Int) : Except Error Fuse :=
  match (position? a.fuses.length i).bind (a.fuses[·]?) with
  | some fuse => .ok fuse
  | none => .error .indexOutside

/-- The array with a bit stored at a position. -/
def set (a : FuseArray) (i : Int) (bit : Bool) : Except Error FuseArray :=
  match position? a.fuses.length i with
  | some n => .ok { a with fuses := a.fuses.set n (if bit then 1 else 0) }
  | none => .error .indexOutside

/-- The length of a row that has the given column. -/
def checkedRowLength (a : FuseArray) (column : Int) : Except Error Int :=
  match a.rowLength with
  | none => .error .noRowLayout
  | some length =>
    if 0 ≤ column ∧ column < length then .ok length else .error (.columnOutside column length)

def cell (a : FuseArray) (row column : Int) : Except Error Fuse := do
  let length ← a.checkedRowLength column
  a.get (row * length + column)

/-- The fuses of a row, cut to the ends of the array. -/
def row (a : FuseArray) (r : Int) : Except Error (List Fuse) := do
  let length ← a.checkedRowLength 0
  return window a.fuses (r * length) (r * length + length)

/-! ## Placing -/

/-- Adds a range inside the array that meets none of the ranges taken so far. -/
def claim (size : Nat) (taken : List Placement) (r : Placement) : Except Error (List Placement) :=
  if r.first < 0 ∨ size < r.stop then .error (.fusesOutside r.first r.stop r.outputPin)
  else
    match taken.find? r.meets with
    | some other => .error (.fusesTaken r.first r.stop r.outputPin other.outputPin)
    | none => .ok (taken ++ [r])

/-- The reason why a block was not placed, and the array it left. -/
structure PlaceFailure where
  error : Error
  left : FuseArray

/-- Stores the values of mode bits one after the other. A value that is no byte ends this, and the
values before it stay stored. -/
def storeModeBits (a : FuseArray) : List (Int × Json.Value) → Except PlaceFailure FuseArray
  | [] => .ok a
  | (offset, value) :: rest =>
    match Fuse.ofJson value with
    | .ok fuse => storeModeBits { a with fuses := a.fuses.set offset.toNat fuse } rest
    | .error e => .error ⟨e, a⟩

/-- Replaces the fuses from a position on. -/
def overwrite (fuses : List Fuse) (first : Nat) (new : List Fuse) : List Fuse :=
  fuses.take first ++ new ++ fuses.drop (first + new.length)

/-- Places a block: all of its ranges are claimed before the first fuse is written. -/
def place (a : FuseArray) (b : FuseBlock) : Except PlaceFailure FuseArray :=
  match b.ranges.foldlM (claim a.fuses.length) a.placed with
  | .error e => .error ⟨e, a⟩
  | .ok placed =>
    storeModeBits { a with placed, fuses := overwrite a.fuses b.firstFuse.toNat b.fuses }
      b.modeBits

end FuseArray

end FuseMap
