import FuseMap.Design.Fault
import FuseMap.Design.Token

/-! # Reading tokens

A reader takes something off the front of a list of tokens. A failure at the end of the list has no
line; the line in which the text ends is filled in at the end.
-/

namespace FuseMap.Design

/-- A fault and its line, `none` standing for the end of the text. -/
structure Failure where
  fault : Fault
  line? : Option Nat
deriving DecidableEq, Repr

/-- The failure of finding something else than what was needed at the front of the tokens. -/
def Failure.expected (what : String) (found : List Lexeme) : Failure :=
  ⟨.expected what (found.head?.map (·.token.text)), found.head?.map (·.line)⟩

/-- The failure as an error of a text that ends in the given line. -/
def Failure.locate (lastLine : Nat) (f : Failure) : SyntaxError :=
  ⟨f.fault, f.line?.getD lastLine⟩

/-- A name or a row of digits and its line. -/
structure Word where
  text : String
  line : Nat
deriving DecidableEq, Repr

def takeSymbol (s : Symbol) : List Lexeme → Except Failure (List Lexeme)
  | ⟨.symbol t, line⟩ :: rest =>
    if t = s then .ok rest
    else .error (.expected (inApostrophes (String.singleton s.char)) (⟨.symbol t, line⟩ :: rest))
  | rest => .error (.expected (inApostrophes (String.singleton s.char)) rest)

def takeArrow : List Lexeme → Except Failure (List Lexeme)
  | ⟨.arrow, _⟩ :: rest => .ok rest
  | rest => .error (.expected "'->'" rest)

/-- Takes one word of the kind that `pick` knows. -/
def takeWord (pick : Token → Option String) (what : String) :
    List Lexeme → Except Failure (Word × List Lexeme)
  | [] => .error (.expected what [])
  | ⟨token, line⟩ :: rest =>
    match pick token with
    | some text => .ok (⟨text, line⟩, rest)
    | none => .error (.expected what (⟨token, line⟩ :: rest))

/-- Takes words as long as commas come before them. -/
def takeMoreWords (pick : Token → Option String) (what : String) :
    List Lexeme → Except Failure (List Word × List Lexeme)
  | ⟨.symbol .comma, _⟩ :: ⟨token, line⟩ :: rest =>
    match pick token with
    | some text => do
      let (words, rest) ← takeMoreWords pick what rest
      return (⟨text, line⟩ :: words, rest)
    | none => .error (.expected what (⟨token, line⟩ :: rest))
  | [⟨.symbol .comma, _⟩] => .error (.expected what [])
  | rest => .ok ([], rest)

/-- Takes one or more words with commas between them. -/
def takeWords (pick : Token → Option String) (what : String) (lexemes : List Lexeme) :
    Except Failure (List Word × List Lexeme) := do
  let (word, rest) ← takeWord pick what lexemes
  let (words, rest) ← takeMoreWords pick what rest
  return (word :: words, rest)

end FuseMap.Design
