/-
Idl/Token/Scan.lean

From text to tokens.

`scan c cs` reads the one token that starts with `c`: its kind, how many characters of `cs`
belong to it, and what is wrong inside it.  It looks at nothing before `c`, so a token depends
only on the text from its start on.  `tokensFrom` skips separators and scans, again and again,
until the text ends.  No text is refused: what is no token becomes an `illegal` one, and a
malformed literal stays a literal, with its faults beside it.  Where lines start is noted on the
way, newline by newline, between the tokens and inside of them.
-/
import Idl.Text.Letter
import Idl.Text.Quoted
import Idl.Text.Width
import Idl.Token
import Idl.Token.Fault

namespace Idl

/-- What `scan` finds after the first character of a token. -/
structure Scan where
  kind : TokenKind
  /-- How many further characters belong to the token. -/
  more : Nat
  /-- The faults inside the token, as offsets from its start. -/
  faults : List LexError := []

/-- The number of characters at the head of `cs` that satisfy `p`. -/
def runLength (p : Char → Bool) (cs : List Char) : Nat := (cs.takeWhile p).length

/-! ### Words -/

/-- The characters that can start an identifier. -/
def isIdentStart (c : Char) : Bool := isLetter c || c == '_'

/-- The characters that can continue an identifier. -/
def isIdentContinue (c : Char) : Bool := isLetter c || isNumeral c || c == '_'

/-- Reads an identifier or a keyword. -/
def scanWord (c : Char) (cs : List Char) : Scan :=
  let tail := cs.takeWhile isIdentContinue
  { kind := match Keyword.ofSpelling? (String.ofList (c :: tail)) with
      | some k => .keyword k
      | none => .ident
    more := tail.length }

/-! ### Numbers -/

/-- An ASCII digit. -/
def isDigit (c : Char) : Bool := isDigitIn 10 c

/-- The length of a fraction, with its period. -/
def fractionLength : List Char → Nat
  | '.' :: cs => 1 + runLength isDigit cs
  | _ => 0

/-- The length of an exponent, with its letter and sign. -/
def exponentLength : List Char → Nat
  | e :: cs =>
    if e = 'e' ∨ e = 'E' then
      match cs with
      | '+' :: ds => 2 + runLength isDigit ds
      | '-' :: ds => 2 + runLength isDigit ds
      | ds => 1 + runLength isDigit ds
    else 0
  | [] => 0

/-- Reads a number, given with its first character. -/
def scanNumber (cs : List Char) : Scan :=
  let fault (length : Nat) (f : NumberFault) : List LexError :=
    [⟨.invalidNumber f, ⟨0, byteWidth (cs.take length)⟩⟩]
  match cs with
  | '0' :: x :: ds =>
    if x = 'x' ∨ x = 'X' then
      let digits := runLength (isDigitIn 16) ds
      { kind := .int, more := 1 + digits
        faults := if digits = 0 then fault 2 .hexDigitsMissing else [] }
    else decimal fault
  | _ => decimal fault
where
  /-- A number in decimal form, or an octal one, which looks the same. -/
  decimal (fault : Nat → NumberFault → List LexError) : Scan :=
    let whole := runLength isDigit cs
    let fraction := fractionLength (cs.drop whole)
    let exponent := exponentLength (cs.drop (whole + fraction))
    let length := whole + fraction + exponent
    if fraction + exponent = 0 then
      let octal := decide (1 < length) && cs.head? == some '0'
      { kind := .int, more := length - 1
        faults :=
          if octal && (cs.take length).any (fun c => c == '8' || c == '9')
          then fault length .octalDigitInvalid else [] }
    else
      { kind := .float, more := length - 1
        faults :=
          if exponent ≠ 0 && !((cs.take length).getLast?.any isDigit)
          then fault length .exponentDigitsMissing else [] }

/-! ### Literals between quotes -/

/-- What stands between an opening quote and the closing one, or the end of the line. -/
structure QuotedBody where
  /-- The number of characters, with the closing quote. -/
  length : Nat
  /-- The number of characters and escapes that stand for something. -/
  units : Nat
  closed : Bool
  faults : List LexError

/-- The fault that an escape is reported for.  An escape that the end of the text cuts off is
not reported, since the literal around it is. -/
def EscapeFault.lexErrorKind? : EscapeFault → Option LexErrorKind
  | .unfinished => none
  | .unknown name => some (.invalidEscape name)
  | .invalidCodePoint => some .invalidCodePoint

/-- The faults of an escape whose backslash has the offset `start`. -/
def Escape.faults (start : Nat) (e : Escape) (cs : List Char) : List LexError :=
  match e.outcome with
  | .ok _ => []
  | .error f =>
    (f.lexErrorKind?.map fun k => ⟨k, ⟨start, start + 1 + byteWidth (cs.take e.width)⟩⟩).toList

/-- Reads the body of a literal up to its closing quote; `start` is its offset. -/
def QuotedBody.read (quote : Char) (start : Nat) : List Char → QuotedBody
  | [] => ⟨0, 0, false, []⟩
  | c :: cs =>
    if c = '\n' then ⟨0, 0, false, []⟩
    else if c = quote then ⟨1, 0, true, []⟩
    else if c = '\\' then
      let e := Escape.read quote cs
      let rest := read quote (start + 1 + byteWidth (cs.take e.width)) (cs.drop e.width)
      ⟨1 + e.width + rest.length, 1 + rest.units, rest.closed, e.faults start cs ++ rest.faults⟩
    else
      let rest := read quote (start + c.utf8Size) cs
      ⟨1 + rest.length, 1 + rest.units, rest.closed, rest.faults⟩
termination_by cs => cs.length
decreasing_by all_goals simp; try omega

/-- Reads a string literal after its opening quote. -/
def scanString (cs : List Char) : Scan :=
  let body := QuotedBody.read '"' 1 cs
  { kind := .string, more := body.length
    faults := body.faults ++
      if body.closed then []
      else [⟨.unterminatedString, ⟨0, 1 + byteWidth (cs.take body.length)⟩⟩] }

/-- Reads a character literal after its opening quote. -/
def scanChar (cs : List Char) : Scan :=
  let body := QuotedBody.read '\'' 1 cs
  { kind := .char, more := body.length
    faults := body.faults ++
      if body.closed && body.units == 1 then []
      else [⟨.invalidCharacter, ⟨0, 1 + byteWidth (cs.take body.length)⟩⟩] }

/-- Reads a raw string literal, which may span lines, after its opening quote. -/
def scanRawString (cs : List Char) : Scan :=
  let length := runLength (· != backQuote) cs
  if length < cs.length then { kind := .string, more := length + 1 }
  else
    { kind := .string, more := length
      faults := [⟨.unterminatedString, ⟨0, 1 + byteWidth cs⟩⟩] }

/-! ### Comments -/

/-- The length of the rest of a block comment, up to the end of its outermost level, when
`depth + 1` levels are open; `none` if it is not closed. -/
def blockCommentLength? (depth : Nat) : List Char → Option Nat
  | '*' :: '/' :: cs =>
    match depth with
    | 0 => some 2
    | d + 1 => (blockCommentLength? d cs).map (· + 2)
  | '/' :: '*' :: cs => (blockCommentLength? (depth + 1) cs).map (· + 2)
  | _ :: cs => (blockCommentLength? depth cs).map (· + 1)
  | [] => none

/-- Reads a line comment after its first slash. -/
def scanLineComment (cs : List Char) : Scan :=
  { kind := .comment, more := runLength (· != '\n') cs }

/-- Reads a block comment after its first slash. -/
def scanBlockComment (cs : List Char) : Scan :=
  match blockCommentLength? 0 (cs.drop 1) with
  | some n => { kind := .comment, more := 1 + n }
  | none =>
    { kind := .illegal, more := cs.length
      faults := [⟨.unterminatedComment, ⟨0, 1 + byteWidth cs⟩⟩] }

/-! ### Any token -/

/-- Reads the token that starts with `c`, which is no separator. -/
def scan (c : Char) (cs : List Char) : Scan :=
  if isIdentStart c then scanWord c cs
  else if isDigit c || (c == '.' && cs.head?.any isDigit) then scanNumber (c :: cs)
  else if c = '"' then scanString cs
  else if c = backQuote then scanRawString cs
  else if c = '\'' then scanChar cs
  else if c = '/' ∧ cs.head? = some '/' then scanLineComment cs
  else if c = '/' ∧ cs.head? = some '*' then scanBlockComment cs
  else match Punct.ofChar? c with
    | some p => { kind := .punct p, more := 0 }
    | none =>
      { kind := .illegal, more := 0, faults := [⟨.unexpectedCharacter c, ⟨0, c.utf8Size⟩⟩] }

/-- The text of a token that is spelled `cs`: a line comment loses the carriage return that
ends its line. -/
def tokenText (kind : TokenKind) (cs : List Char) : List Char :=
  if kind = .comment ∧ cs.take 2 = ['/', '/'] ∧ cs.getLast? = some '\r' then cs.dropLast else cs

/-! ### All tokens -/

/-- A token and the faults inside it. -/
structure ScannedToken where
  token : Token
  faults : List LexError
  deriving DecidableEq, Repr

/-- The tokens of a text that starts at `pos`, without the end of the file. -/
def tokensFrom (pos : Pos) : List Char → List ScannedToken
  | [] => []
  | c :: cs =>
    if isSeparator c then tokensFrom (pos + c.utf8Size) cs
    else
      let s := scan c cs
      let spelling := c :: cs.take s.more
      let stop := pos + byteWidth spelling
      { token := ⟨s.kind, String.ofList (tokenText s.kind spelling), ⟨pos, stop⟩⟩
        faults := s.faults.map (·.shift pos) } :: tokensFrom stop (cs.drop s.more)
termination_by cs => cs.length
decreasing_by all_goals simp; try omega

/-- The offsets right after each newline of `cs`, whose first character has offset `start`. -/
def lineStartsFrom (start : Nat) : List Char → List Nat
  | [] => []
  | c :: cs =>
    let next := start + c.utf8Size
    if c = '\n' then next :: lineStartsFrom next cs else lineStartsFrom next cs

/-- The offsets at which lines start in a text at offset `start`, in the order in which the reader
of its tokens comes by them: those of a separator, or those inside the spelling of a token, and
then those of the rest. -/
def lineStartsRead (start : Nat) : List Char → List Nat
  | [] => []
  | c :: cs =>
    if isSeparator c then lineStartsFrom start [c] ++ lineStartsRead (start + c.utf8Size) cs
    else
      let more := (scan c cs).more
      let spelling := c :: cs.take more
      lineStartsFrom start spelling ++ lineStartsRead (start + byteWidth spelling) (cs.drop more)
termination_by cs => cs.length
decreasing_by all_goals simp; try omega

/-- The tokens of a source, with the faults inside them. -/
structure Scanned where
  /-- All tokens but the last. -/
  tokens : List ScannedToken
  /-- The end of the file. -/
  eof : Token
  /-- The offsets at which lines start, but for the first line. -/
  lineStarts : List Nat

/-- Reads a whole source whose first byte has the position `base`. -/
def scanSource (base : Pos) (source : String) : Scanned :=
  { tokens := tokensFrom base source.toList
    eof := ⟨.eof, "", Span.ofPos (base + byteWidth source.toList)⟩
    lineStarts := lineStartsRead 0 source.toList }

namespace Scanned

/-- The faults of all tokens. -/
def errors (s : Scanned) : List LexError := s.tokens.flatMap (·.faults)

/-- All tokens, the end of the file last. -/
def allTokens (s : Scanned) : List Token := s.tokens.map (·.token) ++ [s.eof]

/-- What is known of a source at `base` after its first `count` tokens: these, their faults, and
the lines that start up to the end of the last of them.  Asking for more tokens than there are
reads to the end. -/
def take (s : Scanned) (base : Pos) (count : Nat) : Scanned :=
  if s.tokens.length < count then s
  else
    let taken := s.tokens.take count
    let stop := (taken.getLast?.map (·.token.span.stop)).getD base
    { s with
      tokens := taken
      lineStarts := s.lineStarts.takeWhile fun l => decide (base + l ≤ stop) }

end Scanned

end Idl
