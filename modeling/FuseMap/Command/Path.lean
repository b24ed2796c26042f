/-! # Paths

A path is a list of parts and the place they start from. Empty parts and single dots do not count;
double dots do.
-/

namespace FuseMap.Command

/-- The place that a path starts from. -/
inductive Anchor
  /-- The current directory. -/
  | current
  /-- The root of the file system. -/
  | root
  /-- The root as well, but written with two slashes. -/
  | doubleRoot
  /-- A directory that is known by a name only. -/
  | named (name : String)
deriving DecidableEq, Repr

namespace Anchor

/-- The place that a text starts from: with three and more slashes it is the root again. -/
def ofText (cs : List Char) : Anchor :=
  match (cs.takeWhile (· == '/')).length with
  | 0 => .current
  | 2 => .doubleRoot
  | _ => .root

/-- The anchor in its usual writing. -/
def usual : Anchor → Anchor
  | .doubleRoot => .root
  | a => a

end Anchor

structure Path where
  anchor : Anchor
  parts : List String
deriving DecidableEq, Repr

namespace Path

/-- The parts between slashes. -/
def splitSlashes : List Char → List (List Char)
  | [] => [[]]
  | c :: rest =>
    match splitSlashes rest with
    | [] => [[c]]
    | part :: parts => if c = '/' then [] :: part :: parts else (c :: part) :: parts

/-- The path that a text stands for. -/
def ofString (s : String) : Path :=
  { anchor := .ofText s.toList
    parts := ((splitSlashes s.toList).map String.ofList).filter fun part =>
      part ≠ "" ∧ part ≠ "." }

def text (p : Path) : String :=
  let names := "/".intercalate p.parts
  match p.anchor with
  | .current => if p.parts.isEmpty then "." else names
  | .root => "/" ++ names
  | .doubleRoot => "//" ++ names
  | .named name => if p.parts.isEmpty then name else name ++ "/" ++ names

/-- A path seen from a directory; only a path from the current directory is. -/
def under (directory p : Path) : Path :=
  if p.anchor = .current then { directory with parts := directory.parts ++ p.parts } else p

def name (p : Path) : String := p.parts.getLast?.getD ""

def parent (p : Path) : Path := { p with parts := p.parts.dropLast }

def child (p : Path) (file : String) : Path := { p with parts := p.parts ++ [file] }

/-! ## Endings

The ending of a name is what follows its last dot, unless nothing stands before or after that dot.
-/

/-- A name cut at its last dot, if it has an ending. -/
def splitEnding? (name : String) : Option (String × String) :=
  let reversed := name.toList.reverse
  let ending := reversed.takeWhile (· != '.')
  let before := (reversed.dropWhile (· != '.')).drop 1
  if ending.isEmpty || before.isEmpty then none
  else some (String.ofList before.reverse, String.ofList ending.reverse)

/-- The ending of the name in lower case, empty if it has none. -/
def ending (p : Path) : String :=
  match splitEnding? p.name with
  | some (_, e) => String.ofList (e.toList.map Char.toLower)
  | none => ""

def stem (p : Path) : String :=
  match splitEnding? p.name with
  | some (s, _) => s
  | none => p.name

end Path

end FuseMap.Command
