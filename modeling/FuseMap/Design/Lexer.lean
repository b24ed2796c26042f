import FuseMap.Design.Fault
import FuseMap.Design.Token

/-! # From text to tokens

The text is cut into pieces from the front: comments, white space and tokens. A piece of white
space, a number and a word are as long as they can be, a block comment is as short as it can be.
-/

namespace FuseMap.Design

/-- The white space of the design language. -/
def isSpace (c : Char) : Bool :=
  c == ' ' || c == '\t' || c == '\r' || c == '\n'

/-- The characters of a name after its first, which is a letter. -/
def isNameChar (c : Char) : Bool :=
  c.isAlphanum || c == '_'

/-- Whether digits may stand as one number: with a zero in front they are a row of bits. -/
def isNumber (digits : List Char) : Bool :=
  digits.head? != some '0' || digits.all fun d => d == '0' || d == '1'

/-- The token that a word is. -/
def wordToken (word : String) : Token :=
  match keywords.lookup word with
  | some k => .keyword k
  | none => .identifier word

/-- The length of a block comment after its opening, up to and with the first closing mark. -/
def blockLength? : List Char → Option Nat
  | [] => none
  | '*' :: '/' :: _ => some 2
  | _ :: rest => (blockLength? rest).map (· + 1)

/-- A piece of the text: a token, or nothing that counts, and its length. -/
structure Piece where
  token? : Option Token
  length : Nat
deriving DecidableEq, Repr

/-- The first piece of a text that does not start with a comment. -/
def plainPiece (c : Char) (rest : List Char) : Except Fault Piece :=
  if isSpace c then .ok ⟨none, ((c :: rest).takeWhile isSpace).length⟩
  else if c = '-' ∧ rest.head? = some '>' then .ok ⟨some .arrow, 2⟩
  else if c.isDigit then
    let digits := (c :: rest).takeWhile Char.isDigit
    if isNumber digits then .ok ⟨some (.number (String.ofList digits)), digits.length⟩
    else .error (.notBits (String.ofList digits))
  else if c.isAlpha then
    let word := (c :: rest).takeWhile isNameChar
    .ok ⟨some (wordToken (String.ofList word)), word.length⟩
  else
    match Symbol.ofChar? c with
    | some s => .ok ⟨some (.symbol s), 1⟩
    | none => .error (.unexpectedCharacter c)

/-- The first piece of a text that starts with the character `c`. -/
def piece (c : Char) (rest : List Char) : Except Fault Piece :=
  match c, rest with
  | '/', '/' :: rest => .ok ⟨none, 2 + (rest.takeWhile (· != '\n')).length⟩
  | '/', '*' :: rest =>
    match blockLength? rest with
    | some n => .ok ⟨none, 2 + n⟩
    | none => .error .unclosedComment
  | c, rest => plainPiece c rest

/-- The tokens of a text. The first `skip` characters belong to a piece that has been read, `line`
is the line of the next character, and `read` are the tokens so far, last first. -/
def lexFrom (skip line : Nat) (read : List Lexeme) : List Char → Except SyntaxError Script
  | [] => .ok ⟨read.reverse, line⟩
  | c :: rest =>
    let nextLine := if c = '\n' then line + 1 else line
    match skip with
    | skip + 1 => lexFrom skip nextLine read rest
    | 0 =>
      match piece c rest with
      | .error fault => .error ⟨fault, line⟩
      | .ok p =>
        lexFrom (p.length - 1) nextLine ((p.token?.map (⟨·, line⟩)).toList ++ read) rest

def lex (text : String) : Except SyntaxError Script :=
  lexFrom 0 1 [] text.toList

end FuseMap.Design
