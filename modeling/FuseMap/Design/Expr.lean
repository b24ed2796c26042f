import FuseMap.TruthTable

/-! # Boolean functions
-/

namespace FuseMap.Design

/-- A boolean function of named pins. -/
inductive Expr
  | const (b : Bool)
  | pin (name : String)
  | not (e : Expr)
  | and (left right : Expr)
  | or (left right : Expr)
  | xor (left right : Expr)
deriving DecidableEq, Inhabited, Repr

namespace Expr

/-- The value of a function when the pins have the given values. -/
def value (pins : String → Bool) : Expr → Bool
  | .const b => b
  | .pin name => pins name
  | .not e => !e.value pins
  | .and a b => a.value pins && b.value pins
  | .or a b => a.value pins || b.value pins
  | .xor a b => a.value pins != b.value pins

def names : Expr → List String
  | .const _ => []
  | .pin name => [name]
  | .not e => e.names
  | .and a b => a.names ++ b.names
  | .or a b => a.names ++ b.names
  | .xor a b => a.names ++ b.names

/-- The inputs of a function: its names without repetition, in the order of first use. -/
def inputs (e : Expr) : List String := e.names.eraseDups

/-- The value that a pin has in the combination of inputs with the given index; the first input is
the most significant bit. -/
def inputValue (index : Nat) : List String → String → Bool
  | [], _ => false
  | input :: inputs, name =>
    if input == name then index / TruthTable.combinations inputs.length % 2 == 1
    else inputValue index inputs name

/-- The values of a function for all combinations of its inputs. -/
def tabulate (e : Expr) : List Bool :=
  let inputs := e.inputs
  (List.range (TruthTable.combinations inputs.length)).map fun index =>
    e.value (inputValue index inputs)

end Expr

/-! ## Trees

Functions are exchanged as trees whose nodes are labelled with the name of their kind. A tree may
hold kinds that nobody knows; that matters only if the evaluation comes to them.
-/

/-- A labelled tree. -/
inductive Tree
  | const (b : Bool)
  | pin (name : String)
  | node (kind : String) (parts : List Tree)
  /-- A tree that has not even a kind. -/
  | empty
  /-- Something that is no tree. -/
  | atom
deriving Inhabited

/-- The reason why a tree has no value. -/
inductive Tree.Error
  | missingPin (name : String)
  | unknownKind (kind : String)
  | missingPart
  | notATree
deriving DecidableEq, Repr

/-- The value of a node from the values of its parts. The right part of an `and` or `or` is left out
when the left part decides; parts that a kind does not need are not looked at. -/
def Tree.nodeValue (kind : String) (parts : List (Except Tree.Error Bool)) :
    Except Tree.Error Bool :=
  let part (n : Nat) : Except Tree.Error Bool := (parts[n]?).getD (.error .missingPart)
  match kind with
  | "not" => (part 0).map (!·)
  | "and" => (part 0).bind fun a => if a then part 1 else .ok false
  | "or" => (part 0).bind fun a => if a then .ok true else part 1
  | "xor" => (part 0).bind fun a => (part 1).map (a != ·)
  | "const" | "pin" => .error .missingPart
  | kind => .error (.unknownKind kind)

mutual

/-- The value of a tree when some pins have values. -/
def Tree.value (pins : String → Option Bool) : Tree → Except Tree.Error Bool
  | .const b => .ok b
  | .pin name =>
    match pins name with
    | some b => .ok b
    | none => .error (.missingPin name)
  | .node kind parts => nodeValue kind (values pins parts)
  | .empty => .error .missingPart
  | .atom => .error .notATree

def Tree.values (pins : String → Option Bool) : List Tree → List (Except Tree.Error Bool)
  | [] => []
  | t :: rest => t.value pins :: values pins rest

end

def Expr.tree : Expr → Tree
  | .const b => .const b
  | .pin name => .pin name
  | .not e => .node "not" [e.tree]
  | .and a b => .node "and" [a.tree, b.tree]
  | .or a b => .node "or" [a.tree, b.tree]
  | .xor a b => .node "xor" [a.tree, b.tree]

end FuseMap.Design
