import Lisplet.Text.Alphabetic
import Lisplet.Text.Blank

/-!
# Character classes

The reader decides what to do by the class of the next character alone. The seven punctuation
marks have a class each; `endOfText` is what it sees past the last character.
-/

namespace Lisplet

/-- What the next character means to the reader. -/
inductive CharClass where
  | openParen
  | closeParen
  | openBrace
  | closeBrace
  | apostrophe
  | quote
  | dot
  | blank
  | letter
  | digit
  | unknown
  | endOfText
  deriving DecidableEq, Repr

namespace CharClass

def nameMarks : List Char :=
  ['_', '+', '-', '*', '/', '<', '>', '=', '!', '?', '@', '$', '%', '&', '^', '~']

/-- The class of a character. Blanks come before digits and letters, and only the ASCII digits are
digits. -/
def ofChar (c : Char) : CharClass :=
  if c = '(' then .openParen
  else if c = ')' then .closeParen
  else if c = '\x7b' then .openBrace
  else if c = '\x7d' then .closeBrace
  else if c = '\x27' then .apostrophe
  else if c = '\x22' then .quote
  else if c = '.' then .dot
  else if Text.isBlank c then .blank
  else if c.isDigit then .digit
  else if nameMarks.contains c || Text.isAlphabetic c then .letter
  else .unknown

def continuesSymbol : CharClass → Bool
  | .letter | .digit | .dot => true
  | _ => false

def continuesKey : CharClass → Bool
  | .letter | .digit => true
  | _ => false

/-- Whether a character of this class ends a number, and likewise a quoted word. -/
def endsNumber : CharClass → Bool
  | .blank | .openParen | .closeParen | .openBrace | .closeBrace | .endOfText => true
  | _ => false

end CharClass

end Lisplet
