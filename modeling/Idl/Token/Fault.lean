/-
Idl/Token/Fault.lean

What can be wrong inside a token, and how a message puts it.
-/
import Idl.Diagnostic
import Idl.Text.Shown

namespace Idl

/-- What can be wrong with a number. -/
inductive NumberFault where
  | hexDigitsMissing
  | exponentDigitsMissing
  | octalDigitInvalid
  deriving DecidableEq, Repr

/-- The fault in words. -/
def NumberFault.message : NumberFault → String
  | .hexDigitsMissing => "hexadecimal literal has no digits"
  | .exponentDigitsMissing => "exponent has no digits"
  | .octalDigitInvalid => "invalid digit in octal literal"

/-- What can be wrong inside a token. -/
inductive LexErrorKind where
  | unexpectedCharacter (c : Char)
  | unterminatedString
  | unterminatedComment
  | invalidEscape (name : Char)
  | invalidCodePoint
  | invalidNumber (fault : NumberFault)
  | invalidCharacter
  deriving DecidableEq, Repr

/-- The fault in words. -/
def LexErrorKind.message : LexErrorKind → String
  | .unexpectedCharacter c => "illegal character " ++ shown c
  | .unterminatedString => "string literal not terminated"
  | .unterminatedComment => "comment not terminated"
  | .invalidEscape name => "unknown escape sequence '\\" ++ name.toString ++ "'"
  | .invalidCodePoint => "escape sequence is invalid Unicode code point"
  | .invalidNumber fault => "invalid number literal: " ++ fault.message
  | .invalidCharacter => "invalid character literal"

/-- A fault and the part of the source that shows it. -/
structure LexError where
  kind : LexErrorKind
  span : Span
  deriving DecidableEq, Repr

/-- A fault as an error of the run. -/
def LexError.toDiagnostic (e : LexError) : Diagnostic := .error e.kind.message e.span

/-- The same fault, with all positions moved up. -/
def LexError.shift (offset : Nat) (e : LexError) : LexError :=
  { e with span := ⟨offset + e.span.start, offset + e.span.stop⟩ }

end Idl
