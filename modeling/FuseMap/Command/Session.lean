import FuseMap.Command.Arguments
import FuseMap.Command.FileSystem
import FuseMap.Design.Parser
import FuseMap.Device.Registry
import FuseMap.Fuse.Program
import FuseMap.Jedec.File
import FuseMap.SumOfProducts.Listing
import FuseMap.TruthTable.File
import FuseMap.Validation

/-! # Runs of the program

A run is a function of the arguments and the file system. It gives an exit status, what was
printed, and the file system it leaves. What was printed or written before a failure stays.
-/

namespace FuseMap.Command

/-- What a run can see and change. -/
structure World where
  files : FileSystem
  output : String := ""
  errors : String := ""

/-- Why a run failed. -/
inductive Failure
  | failed (e : Error)
  /-- A file could not be opened. -/
  | file (e : FileError) (path : String)

/-- What surrounds a run. -/
structure Setting where
  /-- The directory that holds the shipped profile file. -/
  directory : Path
  /-- The date for listings. -/
  date : String
  /-- The depth of nested arrays and objects for which the stack has room. -/
  depth : Nat := 990
  /-- There is room for table files, which are nested three deep. -/
  depth_le : 3 ≤ depth := by decide
  /-- The line of a design in whose functions the stack runs out, if it does so before something
  else is found wrong. How much of it a function takes is left open. -/
  exhausted? : List Char → Option Nat := fun _ => none
  /-- The number of operators and opening parentheses for which the stack has room in any case. -/
  room : Nat := 200
  /-- Nothing but operators and opening parentheses takes room on the stack. -/
  room_lt : ∀ {text line}, exhausted? text = some line → room < text.countP Design.isNesting := by
    nofun

/-- A setting in which the stack runs out in nested values only. -/
def Setting.standard (directory : Path) (date : String) : Setting := { directory, date }

/-- The limits of the program as a reader of JSON. -/
def Setting.limits (setting : Setting) : Json.Limits :=
  ⟨some Text.maxDigits, some setting.depth⟩

/-- A step of a run. -/
abbrev Session := ExceptT Failure (StateM World)

namespace Session

def say (line : String) : Session Unit :=
  modify fun w => { w with output := w.output ++ line ++ "\n" }

/-- Goes on with a result, or fails with its error. -/
def check {α : Type} (r : Except Error α) : Session α :=
  match r with
  | .ok a => return a
  | .error e => throw (.failed e)

/-- The failure of opening a file. -/
def fileFailure (e : FileError) (p : Path) : Failure :=
  match e with
  | .nullInPath => .failed .nullInPath
  | e => .file e p.text

/-- Goes on with the result of an access to a file. -/
def access {α : Type} (p : Path) (r : Except FileError α) : Session α :=
  match r with
  | .ok a => return a
  | .error e => throw (fileFailure e p)

/-- The text of bytes, with one kind of line end. -/
def decode (bytes : ByteArray) : Session (List Char) :=
  match String.fromUTF8? bytes with
  | some s => return Text.unifyNewlines s.toList
  | none => throw (.failed .notUtf8)

def readText (p : Path) : Session (List Char) := do
  decode (← access p ((← get).files.read p))

def writeText (p : Path) (text : String) : Session Unit := do
  let files ← access p ((← get).files.write p text.toUTF8)
  modify fun w => { w with files }

/-! ## Devices -/

/-- The profile file of a name: the file itself, or else a file of that name in the program's
directory. -/
def profileFile (setting : Setting) (name : String) : Session Path := do
  let p := Path.ofString name
  if ← access p ((← get).files.isFile p) then return p
  return setting.directory.under p

/-- The devices of a profile file. A file that does not exist has none; a file without a name
cannot even be looked for. -/
def loadDevices (setting : Setting) (name? : Option String) : Session (List Device) := do
  say ("Loading device profiles: " ++ name?.getD "[]")
  let some name := name? | throw (.failed .noProfileName)
  let p ← profileFile setting name
  match (← get).files.read p with
  | .error .missing =>
    say s!"No device profiles found, specified file doesn't exist: '{p.text}'"
    return []
  | r =>
    let text ← decode (← access p r)
    let loading := Device.loadWithin setting.limits p.text text
    loading.begun.forM fun identifier => say s!"Device profile added: {identifier}"
    check loading.devices

def selectDevice (setting : Setting) (name? : Option String) (identifier : String) :
    Session Device := do
  let devices ← loadDevices setting name?
  let d ← check (Device.select devices identifier)
  say s!"Device selected: {identifier}"
  return d

/-! ## Jobs -/

/-- The listing of sums for a fuse file with the given stem. -/
def listingText (setting : Setting) (d : Device) (stem : String) (names : Design.Names)
    (sums : List SumOfProducts) : Except Error String := do
  let entries ← (d.inOutputOrder (·.outputPin) sums).mapM fun s => do
    let capacity ← d.rowCapacity s.outputPin
    return s!"/* pin {s.outputPin}: {s.terms.length} of {capacity} product terms */\n" ++
      s.listing names ++ "\n"
  return s!"Name {stem};\nDevice {d.profile.deviceName};\nDate {setting.date};\n\n" ++
    String.join entries

/-- Writes the listing beside a fuse file. -/
def writeListing (setting : Setting) (fuseFile : Path) (tables : List TruthTable) (d : Device)
    (names : Design.Names) : Session Unit := do
  let p := fuseFile.parent.child (fuseFile.stem ++ ".dnf.txt")
  let sums ← check (SumOfProducts.ofTables tables)
  let text ← check (listingText setting d fuseFile.stem names sums)
  writeText p text
  say s!"Listing written: {p.text}"

/-- Writes the fuse file of tables, and the listing if it is wanted. -/
def writeFuseFile (setting : Setting) (listing : Bool) (tables : List TruthTable) (d : Device)
    (fuseFile : String) (names : Design.Names) : Session Unit := do
  check (d.validate tables)
  say "Building DNF expressions..."
  let sums ← check (SumOfProducts.ofTables tables)
  say "Building output pin fuse blocks..."
  let blocks ← check (d.layouts sums)
  let array ← check (d.placeAll blocks)
  let p := Path.ofString fuseFile
  writeText p (← check (Jedec.render d array.fuses))
  if listing then writeListing setting p tables d names

/-- Reads a design, as far as the stack has room for its functions. -/
def readDesign (setting : Setting) (source : String) : Session Design := do
  let text ← readText (Path.ofString source)
  match setting.exhausted? text with
  | some line => throw (.failed (.design ⟨.stackExhausted, line⟩))
  | none => check ((Design.parse (String.ofList text)).mapError .design)

/-- Does a job. Nothing is written before all of its input has been read and checked. -/
def perform (setting : Setting) (o : Options) : Job → Session Unit
  | .compile source fuseFile device => do
    let design ← readDesign setting source
    let d ← selectDevice setting o.devices device
    writeFuseFile setting o.listing design.tables d fuseFile design.names
    say s!"compilation successfully, new jedec file was created {fuseFile}"
  | .assemble tableFile fuseFile device => do
    let text ← readText (Path.ofString tableFile)
    let tables ← check (TruthTable.loadWithin setting.limits tableFile text)
    let d ← selectDevice setting o.devices device
    writeFuseFile setting o.listing tables d fuseFile []
    say s!"new jedec file was created {fuseFile}"
  | .tabulate source tableFile device => do
    let design ← readDesign setting source
    if let some identifier := device then
      let d ← selectDevice setting o.devices identifier
      check (d.validate design.tables)
    writeText (Path.ofString tableFile) (TruthTable.save design.tables)
    say s!"new table json file was created {tableFile}"

end Session

/-! ## Runs -/

/-- How a run ends: with an exit status, or at once by an error that is not reported. -/
inductive Ending
  | exit (status : Nat)
  | aborted (e : Error)

structure Outcome where
  ending : Ending
  world : World

/-- The end of a job. An error is reported if it is of a kind that is, and if its wording can be
made up. -/
def finish (result : Except Failure Unit) (w : World) : Outcome :=
  let report (message : String) : Outcome :=
    ⟨.exit 1, { w with errors := w.errors ++ "error: " ++ message ++ "\n" }⟩
  match result with
  | .ok () => ⟨.exit 0, w⟩
  | .error (.failed e) =>
    if e.isReported && e.isWritable then report e.message else ⟨.aborted e, w⟩
  | .error (.file e path) => report s!"{e.message}: '{path}'"

/-- The end of a run without a job. -/
def stop (s : Stop) (files : FileSystem) : Outcome :=
  match s with
  | .help => ⟨.exit 0, { files, output := help }⟩
  | .misuse message => ⟨.exit 2, { files, errors := usageError message }⟩

/-- The job that arguments ask for. -/
def request (arguments : List String) : Except Stop (Options × Job) := do
  let o ← options arguments
  let j ← job o.files
  return (o, j)

/-- The run of the program on its arguments. -/
def run (setting : Setting) (arguments : List String) (files : FileSystem) : Outcome :=
  match request arguments with
  | .error s => stop s files
  | .ok (o, j) =>
    let (result, w) := (Session.perform setting o j).run { files }
    finish result w

end FuseMap.Command
