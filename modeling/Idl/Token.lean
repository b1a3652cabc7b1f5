/-
Idl/Token.lean

The tokens of the schema language.

A token is a kind, a text and a span.  The kinds are finitely many; what distinguishes two
identifiers or two literals is their text, which is the spelling in the source.  `TokenKind.name`
names a kind in messages, and `Token.display` shows one token.
-/
import Idl.Span

namespace Idl

/-! ### Keywords and punctuation -/

/-- The reserved words. -/
inductive Keyword where
  | pkg | imp | enum | const | struct | protocol | service | required | optional | ext
  deriving DecidableEq, Repr

namespace Keyword

/-- All reserved words. -/
def all : List Keyword :=
  [.pkg, .imp, .enum, .const, .struct, .protocol, .service, .required, .optional, .ext]

/-- The word. -/
def spelling : Keyword → String
  | .pkg => "package"
  | .imp => "import"
  | .enum => "enum"
  | .const => "const"
  | .struct => "struct"
  | .protocol => "protocol"
  | .service => "service"
  | .required => "required"
  | .optional => "optional"
  | .ext => "extends"

/-- The keyword that is spelled `word`. -/
def ofSpelling? (word : String) : Option Keyword := all.find? (·.spelling = word)

theorem ofSpelling?_spelling (k : Keyword) : ofSpelling? k.spelling = some k := by
  cases k <;> rfl

theorem spelling_of_ofSpelling? {word : String} {k : Keyword} (h : ofSpelling? word = some k) :
    k.spelling = word := by
  simpa using List.find?_some h

end Keyword

/-- The tokens of one character. -/
inductive Punct where
  | lparen | rparen | lbracket | rbracket | lbrace | rbrace | less | greater
  | comma | period | semicolon | colon | assign | atSign | dollar | hash
  deriving DecidableEq, Repr

namespace Punct

/-- All tokens of one character. -/
def all : List Punct :=
  [.lparen, .rparen, .lbracket, .rbracket, .lbrace, .rbrace, .less, .greater,
   .comma, .period, .semicolon, .colon, .assign, .atSign, .dollar, .hash]

/-- The character. -/
def char : Punct → Char
  | .lparen => '('
  | .rparen => ')'
  | .lbracket => '['
  | .rbracket => ']'
  | .lbrace => Char.ofNat 0x7b
  | .rbrace => Char.ofNat 0x7d
  | .less => '<'
  | .greater => '>'
  | .comma => ','
  | .period => '.'
  | .semicolon => ';'
  | .colon => ':'
  | .assign => '='
  | .atSign => '@'
  | .dollar => '$'
  | .hash => '#'

/-- The punctuation token that `c` is. -/
def ofChar? (c : Char) : Option Punct := all.find? (·.char = c)

theorem char_of_ofChar? {c : Char} {p : Punct} (h : ofChar? c = some p) : p.char = c := by
  simpa using List.find?_some h

end Punct

/-! ### Kinds -/

/-- The kinds of token. -/
inductive TokenKind where
  /-- The end of the file. -/
  | eof
  | comment
  /-- Text that is no token. -/
  | illegal
  | ident
  | int
  | float
  | char
  | string
  | punct (p : Punct)
  | keyword (k : Keyword)
  deriving DecidableEq, Repr

namespace TokenKind

/-- The name of a kind in messages. -/
def name : TokenKind → String
  | .eof => "EOF"
  | .comment => "COMMENT"
  | .illegal => "ILLEGAL"
  | .ident => "IDENT"
  | .int => "INT"
  | .float => "FLOAT"
  | .char => "CHAR"
  | .string => "STRING"
  | .punct p => String.ofList ['\'', p.char, '\'']
  | .keyword k => k.spelling

/-- Identifiers count as literals: their text matters. -/
def isLiteral : TokenKind → Bool
  | .ident | .int | .float | .char | .string => true
  | _ => false

def isKeyword : TokenKind → Bool
  | .keyword _ => true
  | _ => false

def isPunct : TokenKind → Bool
  | .punct _ => true
  | _ => false

/-- Whether a token of the kind has a text of its own. -/
def hasText : TokenKind → Bool
  | .eof | .punct _ | .keyword _ => false
  | _ => true

/-- The kind as a message names it when it was expected. -/
def expectedName (k : TokenKind) : String :=
  if k.isPunct then k.name else "'" ++ k.name ++ "'"

end TokenKind

/-! ### Tokens -/

/-- A token. -/
structure Token where
  kind : TokenKind
  /-- The spelling, without the carriage return that may end a line comment. -/
  text : String
  span : Span
  deriving DecidableEq, Repr

namespace Token

/-- Where the token starts. -/
def pos (t : Token) : Pos := t.span.start

/-- The text, of those tokens that have one of their own. -/
def text? (t : Token) : Option String := if t.kind.hasText then some t.text else none

/-- The token as a message shows it. -/
def display (t : Token) : String :=
  match t.kind with
  | .eof => "<eof>"
  | .illegal => "<error: " ++ t.text ++ ">"
  | _ => t.text

/-- The token as a message names it when something else was expected. -/
def foundName (t : Token) : String :=
  if t.kind.isLiteral then "'" ++ t.kind.name ++ "' " ++ t.text
  else if t.kind = .eof then "'" ++ t.kind.name ++ "'"
  else "'" ++ t.display ++ "'"

end Token

end Idl
