/-
Idl/Token/Lexer.lean

Tokens with positions of 32 bits.

`scanSource` counts positions without end, but the spans of tokens are kept in words of 32 bits.  The
lexer wraps an offset to a word before it adds it to the base of its source, and it takes the text of
a token out of the source, from the wrapped offset of its start on.  As long as all positions of a
source are words, nothing is wrapped, and what `lexSource?` reads is what `scanSource` says.  No longer
source is ever registered as a file, but the lexer itself takes any: from the offset `2 ^ 32` on the spans
start anew, texts begin too early, and where the wrapped offset is inside of a character there is no
text that could be taken, and no result.
-/
import Idl.Token.Scan

namespace Idl

/-- The text between two offsets in bytes, if both stand between characters. -/
def slice? (source : String) (start stop : Nat) : Option String :=
  if start ≤ stop ∧ String.Pos.Raw.isValid source ⟨start⟩ ∧ String.Pos.Raw.isValid source ⟨stop⟩ then
    some (String.Pos.Raw.extract source ⟨start⟩ ⟨stop⟩)
  else none

/-- A source that is read, and the position of its first byte. -/
structure Lexer where
  source : String
  base : UInt32

namespace Lexer

/-- The span from one offset to another. -/
def span (l : Lexer) (start stop : Nat) : Span :=
  ⟨(l.base + start.toUInt32).toNat, (l.base + stop.toUInt32).toNat⟩

/-- The text of the token from one offset to another. -/
def text? (l : Lexer) (start stop : Nat) : Option String := slice? l.source start.toUInt32.toNat stop

/-- The kind of a word. -/
def wordKind (text : String) : TokenKind :=
  match Keyword.ofSpelling? text with
  | some k => .keyword k
  | none => .ident

/-- The kind of a token with a text: a word is a keyword or an identifier by its text. -/
def kindOf (kind : TokenKind) (text : String) : TokenKind :=
  match kind with
  | .ident | .keyword _ => wordKind text
  | k => k

/-- Whether a number is written in base 16. -/
def isHexadecimal : List Char → Bool
  | '0' :: x :: _ => x == 'x' || x == 'X'
  | _ => false

/-- What is wrong with an integer from `start` to `stop`, of which `cs` tells how it is written: it has no
digits behind `0x`, or a digit that its octal text cannot have. -/
def intFault? (start stop : Nat) (cs text : List Char) : Option NumberFault :=
  if isHexadecimal cs then
    if stop.toUInt32 = (start + 2).toUInt32 then some .hexDigitsMissing else none
  else if 1 < text.length ∧ text.head? = some '0' ∧ text.any (fun c => c == '8' || c == '9') then
    some .octalDigitInvalid
  else none

/-- The faults of the token `s`, which is read from `cs`, stands from `start` to `stop` and has a
text. -/
def faults (l : Lexer) (s : Scan) (start stop : Nat) (cs text : List Char) : List LexError :=
  if s.kind = .int then
    ((intFault? start stop cs text).map fun f => ⟨.invalidNumber f, l.span start stop⟩).toList
  else s.faults.map fun e => { e with span := l.span (start + e.span.start) (start + e.span.stop) }

/-- The token that starts with `c`, at the offset `start`. -/
def token? (l : Lexer) (start : Nat) (c : Char) (cs : List Char) : Option ScannedToken :=
  let s := scan c cs
  let spelling := c :: cs.take s.more
  let stop := start + byteWidth spelling
  match s.kind with
  | .punct p => some ⟨⟨.punct p, String.ofList spelling, l.span start stop⟩, []⟩
  | _ => do
    let text ← l.text? start stop
    -- a line comment, as it is spelled, loses the carriage return at the end of its text
    let shown :=
      if s.kind = .comment ∧ spelling.take 2 = ['/', '/'] ∧ text.toList.getLast? = some '\r' then
        String.ofList text.toList.dropLast
      else text
    return {
      token := ⟨kindOf s.kind text, shown, l.span start stop⟩
      faults := l.faults s start stop (c :: cs) text.toList }

/-- The tokens of the rest of the source, which starts at the offset `start`. -/
def tokens? (l : Lexer) (start : Nat) : List Char → Option (List ScannedToken)
  | [] => some []
  | c :: cs =>
    if isSeparator c then l.tokens? (start + c.utf8Size) cs
    else do
      let t ← l.token? start c cs
      let ts ← l.tokens? (start + byteWidth (c :: cs.take (scan c cs).more))
        (cs.drop (scan c cs).more)
      return t :: ts
termination_by cs => cs.length
decreasing_by all_goals simp; try omega

end Lexer

/-- Reads a whole source whose first byte has the position `base`. -/
def lexSource? (base : UInt32) (source : String) : Option Scanned := do
  let l : Lexer := ⟨source, base⟩
  let tokens ← l.tokens? 0 source.toList
  return {
    tokens
    eof := ⟨.eof, "", l.span source.utf8ByteSize source.utf8ByteSize⟩
    lineStarts := (lineStartsRead 0 source.toList).map (·.toUInt32.toNat) }

end Idl
