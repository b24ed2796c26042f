import FuseMap.Device.Reader

/-! # Profile files

A profile file is a JSON object with one profile per device, in which lines that start with `#` are
comments.
-/

namespace FuseMap.Device

def isComment (line : List Char) : Bool :=
  (line.dropWhile Text.isBlank).head? == some '#'

/-- A text without its comment lines. -/
def withoutComments (text : List Char) : List Char :=
  ((Text.lines text).filter fun line => !isComment line).flatten

/-- The outcome of reading profiles: the identifiers of the devices that were begun, which are
printed, and the devices, unless one of them failed. -/
structure Loading where
  begun : List String
  devices : Except Error (List Device)

/-- Builds the devices of named profiles in their order, up to the first that fails. An identifier
is printed before its device is built, and one that is no text cannot be. -/
def build : List (Json.Str × Json.Value) → Loading
  | [] => ⟨[], .ok []⟩
  | (.broken b, _) :: _ =>
    ⟨[], .error (.malformedProfile (b.text Json.codeEscape) .brokenIdentifier)⟩
  | (.plain identifier, v) :: rest =>
    match ofJson identifier v with
    | .error e => ⟨[identifier], .error e⟩
    | .ok d =>
      let others := build rest
      ⟨identifier :: others.begun, others.devices.map (d :: ·)⟩

/-- Reads the text of a profile file within limits; the path is named in errors. -/
def loadWithin (limits : Json.Limits) (path : String) (text : List Char) : Loading :=
  match Json.parseWithin limits (withoutComments text) with
  | .error e => ⟨[], .error (.profilesNotJson path e)⟩
  | .ok (.record fields) => build fields
  | .ok _ => ⟨[], .error (.profilesNotAnObject path)⟩

/-- Reads the text of a profile file. -/
def load (path : String) (text : List Char) : Loading := loadWithin .standard path text

/-- The device with the given identifier. -/
def select (devices : List Device) (identifier : String) : Except Error Device :=
  match devices.find? (·.identifier == identifier) with
  | some d => .ok d
  | none => .error (.unknownDevice identifier (devices.map (·.identifier)))

end FuseMap.Device
