import FuseMap.Command.Path
import FuseMap.Text.Integer
import FuseMap.Text.Quoted

/-! # Command line arguments

Options may stand before or after the files, but not between them. A long option may be cut short
as long as only one begins so. Two dashes end the options.
-/

namespace FuseMap.Command

/-! ## Texts -/

def usage : String :=
  "usage: truthgal [-h] [--devices DEVICES] [--listing | --no-listing]\n" ++
  "                file [file ...]\n"

/-- What the program prints when it is asked for help. -/
def help : String :=
  usage ++ "\n" ++
  "Compile truth table source files into JEDEC fuse files for GAL devices\n\n" ++
  "positional arguments:\n" ++
  "  file                  <source> <jedec> <device>, api <tables> <jedec>\n" ++
  "                        <device> or api <source> <tables> [device]\n\n" ++
  "options:\n" ++
  "  -h, --help            show this help message and exit\n" ++
  "  --devices DEVICES     Json file containing device profiles\n" ++
  "  --listing, --no-listing\n" ++
  "                        Enable DNF expression listing output\n"

/-- What the program prints when it is used wrongly. -/
def usageError (message : String) : String :=
  usage ++ "truthgal: error: " ++ message ++ "\n"

/-! ## Words -/

inductive Flag
  | shortHelp
  | help
  | devices
  | listing
  | noListing
deriving DecidableEq, Repr

namespace Flag

/-- All options in the order in which they are compared. -/
def all : List Flag := [.shortHelp, .help, .devices, .listing, .noListing]

def text : Flag → String
  | .shortHelp => "-h"
  | .help => "--help"
  | .devices => "--devices"
  | .listing => "--listing"
  | .noListing => "--no-listing"

/-- The spellings of an option and of those that belong with it. -/
def group : Flag → String
  | .shortHelp | .help => "-h/--help"
  | .devices => "--devices"
  | .listing | .noListing => "--listing/--no-listing"

def ofText? (s : String) : Option Flag := all.find? (·.text == s)

end Flag

/-- An argument by its role. -/
inductive Word
  | file (s : String)
  /-- The two dashes that end the options. -/
  | divider
  /-- An option, with the value that is joined to it. -/
  | option (flag : Flag) (joined : Option String)
  /-- What looks like an option and is none. -/
  | unknown (s : String)
deriving DecidableEq, Repr

/-- A text cut at its first equals sign. -/
def splitEquals? (cs : List Char) : Option (List Char × List Char) :=
  if cs.contains '=' then some (cs.takeWhile (· != '='), (cs.dropWhile (· != '=')).drop 1)
  else none

/-- Whether a character is a decimal digit of any script. -/
def isAnyDigit (c : Char) : Bool := (Text.digitValue? c).isSome

/-- Whether a text is a negative number: digits, or digits after a point. One line feed may
follow. -/
def isNegativeNumber (cs : List Char) : Bool :=
  let body := if cs.getLast? == some '\n' then cs.dropLast else cs
  match body with
  | '-' :: rest =>
    let after := rest.dropWhile isAnyDigit
    match after with
    | [] => !rest.isEmpty
    | '.' :: fraction => !fraction.isEmpty && fraction.all isAnyDigit
    | _ => false
  | _ => false

/-- The options that a text may be short for, with the value joined to it. -/
def candidates (cs : List Char) : List (Flag × Option String) :=
  match cs with
  | '-' :: '-' :: _ =>
    let (start, joined) := match splitEquals? cs with
      | some (start, value) => (start, some (String.ofList value))
      | none => (cs, none)
    (Flag.all.filter fun f => start.isPrefixOf f.text.toList).map (·, joined)
  | _ => []

/-- The option that a text is, with the value joined to it by an equals sign. -/
def spelled? (s : String) : Option (Flag × Option String) :=
  match Flag.ofText? s with
  | some f => some (f, none)
  | none => do
    let (start, value) ← splitEquals? s.toList
    let f ← Flag.ofText? (String.ofList start)
    return (f, some (String.ofList value))

/-- The role of an argument before the two dashes. What follows the short option is joined to it. -/
def classify (s : String) : Except String Word :=
  if s.toList.head? ≠ some '-' ∨ s = "-" then .ok (.file s)
  else
    match spelled? s with
    | some (f, joined) => .ok (.option f joined)
    | none =>
      if s.toList.take 2 = ['-', 'h'] then
        .ok (.option .shortHelp (some (String.ofList (s.toList.drop 2))))
      else
        match candidates s.toList with
        | [(f, joined)] => .ok (.option f joined)
        | [] =>
          if isNegativeNumber s.toList || s.toList.contains ' ' then .ok (.file s)
          else .ok (.unknown s)
        | several =>
          .error (s!"ambiguous option: {s} could match " ++
            ", ".intercalate (several.map (·.1.text)))

def classifyAll : List String → Except String (List Word)
  | [] => .ok []
  | "--" :: rest => .ok (.divider :: rest.map .file)
  | s :: rest => do
    let word ← classify s
    return word :: (← classifyAll rest)

/-! ## Options -/

/-- What the arguments say. -/
structure Options where
  /-- The name of the profile file. -/
  devices : Option String := some "devices.config"
  listing : Bool := false
  files : List String := []
deriving DecidableEq, Repr

/-- Why there are no options to go by. -/
inductive Stop
  | help
  | misuse (message : String)
deriving DecidableEq, Repr

/-- Whether files can still be taken: only the first run of files is. -/
inductive Phase
  | before
  | inside
  | after
deriving DecidableEq, Repr

/-- The phase after an option. -/
def Phase.afterOption : Phase → Phase
  | .before => .before
  | _ => .after

/-- A value that an option does not take. -/
def ignoredValue (f : Flag) (value : String) : Stop :=
  .misuse s!"argument {f.group}: ignored explicit argument {Text.quoted value}"

/-- The end of a run by the short option for help with something joined to it: the same option
again any number of times, and nothing else. -/
def joinedHelp (value : String) : Stop :=
  let rest := value.toList.dropWhile (· == 'h')
  if rest.isEmpty && !value.isEmpty then .help
  else ignoredValue .shortHelp (String.ofList rest)

/-- The profile file that a value names. Two dashes are dropped, and then there is none. -/
def profileName? (value : String) : Option String :=
  if value = "--" then none else some value

/-- Goes through the words; `extras` are those that nothing takes. -/
def gather (o : Options) (phase : Phase) (extras : List String) :
    List Word → Except Stop Options
  | [] =>
    if o.files.isEmpty then .error (.misuse "the following arguments are required: file")
    else if extras.isEmpty then .ok o
    else .error (.misuse ("unrecognized arguments: " ++ " ".intercalate extras))
  | .file s :: rest =>
    if phase = .after then gather o phase (extras ++ [s]) rest
    else gather { o with files := o.files ++ [s] } .inside extras rest
  | .divider :: rest =>
    if phase = .after then gather o phase (extras ++ ["--"]) rest
    else gather o .inside extras rest
  | .unknown s :: rest => gather o phase.afterOption (extras ++ [s]) rest
  | .option .devices none :: .file s :: rest =>
    gather { o with devices := some s } phase.afterOption extras rest
  | .option .devices none :: _ =>
    .error (.misuse "argument --devices: expected one argument")
  | .option .devices (some value) :: rest =>
    gather { o with devices := profileName? value } phase.afterOption extras rest
  | .option .listing none :: rest =>
    gather { o with listing := true } phase.afterOption extras rest
  | .option .noListing none :: rest =>
    gather { o with listing := false } phase.afterOption extras rest
  | .option .listing (some value) :: _ => .error (ignoredValue .listing value)
  | .option .noListing (some value) :: _ => .error (ignoredValue .noListing value)
  | .option .shortHelp none :: _ => .error .help
  | .option .shortHelp (some value) :: _ => .error (joinedHelp value)
  | .option .help none :: _ => .error .help
  | .option .help (some value) :: _ => .error (ignoredValue .help value)

def options (arguments : List String) : Except Stop Options := do
  let words ← (classifyAll arguments).mapError .misuse
  gather {} .before [] words

/-! ## Jobs -/

/-- What the program is to do. -/
inductive Job
  /-- Turn a design text into a fuse file. -/
  | compile (source fuseFile device : String)
  /-- Turn a table file into a fuse file. -/
  | assemble (tableFile fuseFile device : String)
  /-- Turn a design text into a table file, checked against a device if one is given. -/
  | tabulate (source tableFile : String) (device : Option String)
deriving DecidableEq, Repr

def sourceEndings : List String := ["txt"]

def fuseFileEndings : List String := ["jedec", "jed"]

def tableFileEndings : List String := ["json"]

/-- Refuses a file with another ending than the given ones. -/
def checkEnding (file : String) (endings : List String) : Except Stop Unit :=
  if endings.contains (Path.ofString file).ending then .ok ()
  else .error (.misuse (s!"invalid file extension {file}, expected " ++
    " or ".intercalate (endings.map ("." ++ ·))))

def wrongCount {α : Type} : Except Stop α := .error (.misuse "invalid argument count")

/-- The job of the files after the word `api`; the ending of the first selects it. -/
def exchangeJob : List String → Except Stop Job
  | first :: second :: rest =>
    let ending := (Path.ofString first).ending
    if tableFileEndings.contains ending then
      match rest with
      | [device] => do
        checkEnding second fuseFileEndings
        return .assemble first second device
      | _ => wrongCount
    else if sourceEndings.contains ending then
      match rest with
      | [] => do
        checkEnding second tableFileEndings
        return .tabulate first second none
      | [device] => do
        checkEnding second tableFileEndings
        return .tabulate first second (some device)
      | _ => wrongCount
    else .error (.misuse s!"invalid file extension {first}")
  | _ => wrongCount

def job : List String → Except Stop Job
  | "api" :: files => exchangeJob files
  | [source, fuseFile, device] => do
    checkEnding source sourceEndings
    checkEnding fuseFile fuseFileEndings
    return .compile source fuseFile device
  | _ => wrongCount

end FuseMap.Command
