/-! # Tokens of the design language
-/

namespace FuseMap.Design

/-- The words that cannot be pin names. -/
inductive Keyword
  | pin
  | table
  | count
  | fill
  | dff
deriving DecidableEq, Repr

def Keyword.text : Keyword → String
  | .pin => "pin"
  | .table => "table"
  | .count => "count"
  | .fill => "fill"
  | .dff => "dff"

def keywords : List (String × Keyword) :=
  [.pin, .table, .count, .fill, .dff].map fun k => (k.text, k)

/-- The tokens of one character. -/
inductive Symbol
  | and
  | or
  | xor
  | not
  | leftParen
  | rightParen
  | leftBrace
  | rightBrace
  | comma
  | semicolon
  | equals
  | dot
deriving DecidableEq, Repr

def Symbol.char : Symbol → Char
  | .and => '&'
  | .or => '|'
  | .xor => '?'
  | .not => '!'
  | .leftParen => '('
  | .rightParen => ')'
  | .leftBrace => '\x7b'
  | .rightBrace => '\x7d'
  | .comma => ','
  | .semicolon => ';'
  | .equals => '='
  | .dot => '.'

/-- The symbol of a character, if it has one. -/
def Symbol.ofChar? (c : Char) : Option Symbol :=
  if c = '&' then some .and
  else if c = '|' then some .or
  else if c = '?' then some .xor
  else if c = '!' then some .not
  else if c = '(' then some .leftParen
  else if c = ')' then some .rightParen
  else if c = '\x7b' then some .leftBrace
  else if c = '\x7d' then some .rightBrace
  else if c = ',' then some .comma
  else if c = ';' then some .semicolon
  else if c = '=' then some .equals
  else if c = '.' then some .dot
  else none

/-- A token. A number keeps its digits, since zeros in front count in a row of bits. -/
inductive Token
  | keyword (k : Keyword)
  | identifier (name : String)
  | number (digits : String)
  | arrow
  | symbol (s : Symbol)
deriving DecidableEq, Repr

namespace Token

def text : Token → String
  | .keyword k => k.text
  | .identifier name => name
  | .number digits => digits
  | .arrow => "->"
  | .symbol s => String.singleton s.char

/-- The name of a token's kind: names and numbers have one each, any other token is a kind of its
own. -/
def kind : Token → String
  | .identifier _ => "identifier"
  | .number _ => "number"
  | t => t.text

/-- The name that a token is, if it is one. -/
def identifier? : Token → Option String
  | .identifier name => some name
  | _ => none

/-- The digits of a token, if it is a number. -/
def number? : Token → Option String
  | .number digits => some digits
  | _ => none

end Token

/-- A token and the line it starts in. -/
structure Lexeme where
  token : Token
  line : Nat
deriving DecidableEq, Repr

/-- The tokens of a text and the line in which the text ends. -/
structure Script where
  lexemes : List Lexeme
  lastLine : Nat
deriving DecidableEq, Repr

end FuseMap.Design
