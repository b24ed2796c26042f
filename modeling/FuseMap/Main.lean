import FuseMap.Command.Session
import FuseMap.Device.Shipped
import Std.Time.Format

/-! # The program

The files that a run can come to are looked up before it and those that it changed are written
after it; the run itself is `FuseMap.Command.run`.
-/

namespace FuseMap.Command

/-- The paths that a request can come to. -/
def Job.paths (setting : Setting) (o : Options) (j : Job) : List Path :=
  let devices := match o.devices with
    | some name => [Path.ofString name, setting.directory.under (Path.ofString name)]
    | none => []
  let fuseFiles (file : String) : List Path :=
    let p := Path.ofString file
    [p, p.parent.child (p.stem ++ ".dnf.txt")]
  devices ++ match j with
    | .compile source fuseFile _ => Path.ofString source :: fuseFiles fuseFile
    | .assemble tableFile fuseFile _ => Path.ofString tableFile :: fuseFiles fuseFile
    | .tabulate source tableFile _ => [Path.ofString source, Path.ofString tableFile]

/-- The places on the way of a path, and its own. -/
def Path.places (p : Path) : List Path :=
  (List.range p.parts.length).map fun n =>
    FileSystem.placeOf { p with parts := p.parts.take (n + 1) }

def lookUp (fs : FileSystem) (place : Path) : IO FileSystem := do
  try
    let bytes ← IO.FS.readBinFile place.text
    return { fs with files := FileSystem.insertFile place bytes fs.files }
  catch e =>
    match e with
    | .inappropriateType .. => return { fs with directories := place :: fs.directories }
    | _ => return fs

/-- The file system as far as a request can come to it. The shipped profiles are there even if
their file is not. -/
def survey (setting : Setting) (o : Options) (j : Job) : IO FileSystem := do
  let shipped := setting.directory.child Device.shippedName
  let start : FileSystem := { files := [(shipped, Device.shippedText.toUTF8)] }
  ((j.paths setting o).flatMap Path.places).foldlM lookUp start

/-- Writes the files that a run changed. -/
def commit (before after : FileSystem) : IO Unit :=
  after.files.forM fun (place, bytes) => do
    unless before.content? place == some bytes do
      IO.FS.writeBinFile place.text bytes

end FuseMap.Command

open FuseMap.Command in
/-- Runs the program on its arguments. -/
def main (arguments : List String) : IO UInt32 := do
  let today ← Std.Time.PlainDate.now
  let setting := Setting.standard (.ofString (toString (← IO.appDir))) (today.format "MM/dd/uu")
  let files ← match request arguments with
    | .ok (o, j) => survey setting o j
    | .error _ => pure {}
  let outcome := run setting arguments files
  (← IO.getStdout).putStr outcome.world.output
  commit files outcome.world.files
  (← IO.getStderr).putStr outcome.world.errors
  match outcome.ending with
  | .exit status => return UInt32.ofNat status
  | .aborted e =>
    IO.eprintln e.message
    return 1
