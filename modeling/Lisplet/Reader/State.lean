import Lisplet.CharClass
import Lisplet.Error
import Lisplet.Form
import Lisplet.Text.Path

/-!
# The reading machine

Source text is read one character at a time by a machine with a stack. The stack holds the
brackets that wait for a form, the innermost first; the mode says what is being read on top of
them. Since a state is all that the characters read so far have left behind, reading can stop at
the end of a text and go on when more text arrives.

A character is handled in two steps. `settle` looks at it and ends whatever it cannot continue; a
fault found here leaves the character unread. `take` then reads it; a fault found here has read it.
The end of the text is looked at in the same way, but never read.
-/

namespace Lisplet.Reader

def maxNesting : Nat := 512

/-- A bracket that waits for a form. Positions count the characters before it. -/
inductive Open where
  /-- An expression, with its items so far, the latest first. -/
  | expr (start : Nat) (items : List Form)
  /-- A quoted list, with its items so far, the latest first. -/
  | list (start : Nat) (items : List Form)
  /-- A struct that has come to the value of `key`, with the fields before it. -/
  | field (start : Nat) (fields : Record Form) (key : String)

/-- What is being read. Texts are held backwards. -/
inductive Mode where
  /-- Between forms. -/
  | blank
  /-- After a minus that may begin a number; `quoted` in a literal. -/
  | minus (start : Nat) (quoted : Bool)
  | number (start : Nat) (point : Bool) (text : List Char)
  | symbol (start : Nat) (text : List Char)
  /-- In a string; `escaped` after a backslash. -/
  | string (start : Nat) (text : List Char) (escaped : Bool)
  /-- After an apostrophe, before the literal. -/
  | tick (start : Nat)
  /-- In a quoted word. -/
  | word (text : List Char)
  /-- In a struct, before a key or the closing brace. -/
  | fields (start : Nat) (fields : Record Form)
  | key (start : Nat) (fields : Record Form) (text : List Char)
  /-- In a struct, after a key. -/
  | colon (start : Nat) (fields : Record Form) (key : String)

/-- The machine: the forms completed at the outermost level (the latest first), the open brackets
and the mode. -/
structure State where
  forms : List Form := []
  stack : List Open := []
  mode : Mode := .blank

/-- How many open brackets there are in a mode: a struct is on the stack only while it waits for the
value of a field. -/
def Mode.depth : Mode → Nat
  | .fields _ _ | .key _ _ _ | .colon _ _ _ => 1
  | _ => 0

def State.nesting (s : State) : Nat :=
  s.stack.length + s.mode.depth

/-- A complaint, with the position at which the offending text starts. -/
structure Fault where
  what : Complaint
  start : Nat

namespace State

/-- Hands a complete form to whatever waits for it. -/
def deliver (s : State) (f : Form) : State :=
  match s.stack with
  | [] => { s with forms := f :: s.forms, mode := .blank }
  | .expr start items :: stack => { s with stack := .expr start (f :: items) :: stack, mode := .blank }
  | .list start items :: stack => { s with stack := .list start (f :: items) :: stack, mode := .blank }
  | .field start fields key :: stack =>
    { s with stack, mode := .fields start (fields.insert key f) }

/-- Opens a bracket, unless that is one too many; `start` is where the form begins. Where a bracket can
be opened, the stack has all that are open, and is as high as the counter of the reader says. -/
def nest (s : State) (start : Nat) (opened : State) : Except Fault State :=
  if s.stack.length < maxNesting then .ok opened else .error ⟨.nestingTooDeep, start⟩

end State

/-! ## What ends a lexeme -/

/-- The number written by `text`: a double when it has a point. -/
def numberForm? (point : Bool) (text : List Char) : Option Form :=
  if point then (Double.ofText? text).map .double else (Integer.ofText? text).map .int

/-- The form of a symbol: the two constants in any case, or a path without empty segments. -/
def symbolForm? (text : List Char) : Option Form :=
  let name := text.map Char.toLower
  if name = "nil".toList then some .nil
  else if name = "true".toList then some .true
  else if (Text.pieces '.' text).any List.isEmpty then none
  else some (.symbol (String.ofList text))

def listForm (items : List Form) : Form :=
  if items.isEmpty then .nil else .list items

def exprForm (items : List Form) : Form :=
  if items.isEmpty then .nil else .expr items

/-- Ends what cannot go on with a character of class `next`. -/
def State.endLexeme (s : State) (next : CharClass) : Except Fault State :=
  match s.mode with
  | .number start point text =>
    if next.endsNumber then
      match numberForm? point text.reverse with
      | some f => .ok (s.deliver f)
      | none => .error ⟨.invalidNumber, start⟩
    else .ok s
  | .symbol start text =>
    if next.continuesSymbol then .ok s
    else
      match symbolForm? text.reverse with
      | some f => .ok (s.deliver f)
      | none => .error ⟨.invalidPath, start⟩
  | .word text =>
    if next.endsNumber then .ok (s.deliver (.str (String.ofList text.reverse))) else .ok s
  | .key start fields text =>
    if next.continuesKey then .ok s
    else .ok { s with mode := .colon start fields (String.ofList text.reverse) }
  | _ => .ok s

/-- Decides what a minus begins, once the class of the next character is known. -/
def State.decideMinus (s : State) (next : CharClass) : State :=
  match s.mode with
  | .minus start quoted =>
    { s with
      mode :=
        if next = .digit then .number start false ['-']
        else if quoted then .word ['-']
        else .symbol start ['-'] }
  | _ => s

/-- Refuses a character that cannot stand where a colon or the value of a field has to. -/
def State.refuse (s : State) (next : Option Char) : Except Fault State :=
  match s.mode, s.stack, next with
  | .colon start _ _, _, some c =>
    if c = ':' ∨ CharClass.ofChar c = .blank then .ok s else .error ⟨.colonExpected, start⟩
  | .blank, .field start _ _ :: _, some c =>
    if CharClass.ofChar c = .closeBrace then .error ⟨.valueExpected, start⟩ else .ok s
  | _, _, _ => .ok s

/-- Ends whatever the next character, or the end of the text, cannot continue. -/
def State.settle (s : State) (next : Option Char) : Except Fault State :=
  let cls := next.elim .endOfText CharClass.ofChar
  match (s.decideMinus cls).endLexeme cls with
  | .ok s => s.refuse next
  | .error e => .error e

/-! ## Reading a character -/

def State.beginForm (s : State) (pos : Nat) (c : Char) : Except Fault State :=
  match CharClass.ofChar c with
  | .blank => .ok s
  | .digit => .ok { s with mode := .number pos false [c] }
  | .letter => .ok { s with mode := if c = '-' then .minus pos false else .symbol pos [c] }
  | .quote => .ok { s with mode := .string pos [] false }
  | .apostrophe => .ok { s with mode := .tick pos }
  | .openParen => s.nest pos { s with stack := .expr pos [] :: s.stack }
  | .openBrace => s.nest pos { s with mode := .fields pos [] }
  | .closeParen =>
    match s.stack with
    | .expr _ items :: stack => .ok (State.deliver { s with stack } (exprForm items.reverse))
    | _ => .error ⟨.unexpectedCloseParen, pos⟩
  | .closeBrace =>
    match s.stack with
    | .expr start _ :: _ => .error ⟨.mismatchedCloseBrace, start⟩
    | _ => .error ⟨.unexpectedCloseBrace, pos⟩
  | .dot | .unknown | .endOfText => .error ⟨.unexpectedCharacter, pos⟩

/-- Reads the first character of a literal whose form begins at `start`. -/
def State.beginLiteral (s : State) (start pos : Nat) (c : Char) : Except Fault State :=
  match CharClass.ofChar c with
  | .digit => .ok { s with mode := .number pos false [c] }
  | .letter => .ok { s with mode := if c = '-' then .minus pos true else .word [c] }
  | .quote => .ok { s with mode := .string pos [] false }
  | .openParen => s.nest start { s with stack := .list pos [] :: s.stack, mode := .blank }
  | .apostrophe | .dot | .unknown => .ok { s with mode := .word [c] }
  | .blank | .openBrace | .closeParen | .closeBrace | .endOfText => .error ⟨.badLiteral, start⟩

def State.beginItem (s : State) (start : Nat) (items : List Form) (stack : List Open) (pos : Nat)
    (c : Char) : Except Fault State :=
  match CharClass.ofChar c with
  | .blank => .ok s
  | .closeParen => .ok (State.deliver { s with stack } (listForm items.reverse))
  | .closeBrace => .error ⟨.mismatchedCloseBrace, start⟩
  | _ => s.beginLiteral pos pos c

def State.beginKey (s : State) (start : Nat) (fields : Record Form) (c : Char) :
    Except Fault State :=
  match CharClass.ofChar c with
  | .blank => .ok s
  | .closeBrace => .ok (s.deliver (.struct fields))
  | .letter => .ok { s with mode := .key start fields [c] }
  | .closeParen => .error ⟨.mismatchedCloseParen, start⟩
  | _ => .error ⟨.keyExpected, start⟩

/-- Reads the character `c` at position `pos` in a settled state. -/
def State.take (s : State) (pos : Nat) (c : Char) : Except Fault State :=
  match s.mode with
  | .blank =>
    match s.stack with
    | .list start items :: stack => s.beginItem start items stack pos c
    | _ => s.beginForm pos c
  | .minus start quoted =>
    .ok { s with mode := if quoted then .word [c, '-'] else .symbol start [c, '-'] }
  | .number start point text =>
    match CharClass.ofChar c with
    | .digit => .ok { s with mode := .number start point (c :: text) }
    | .dot =>
      if point then .error ⟨.invalidNumber, start⟩
      else .ok { s with mode := .number start true (c :: text) }
    | _ => .error ⟨.invalidNumber, start⟩
  | .symbol start text => .ok { s with mode := .symbol start (c :: text) }
  | .string start text escaped =>
    if escaped then .ok { s with mode := .string start (Text.unescape c :: text) false }
    else if c = '\x22' then .ok (s.deliver (.str (String.ofList text.reverse)))
    else if c = '\\' then .ok { s with mode := .string start text true }
    else .ok { s with mode := .string start (c :: text) false }
  | .tick start => s.beginLiteral start pos c
  | .word text => .ok { s with mode := .word (c :: text) }
  | .fields start fields => s.beginKey start fields c
  | .key start fields text => .ok { s with mode := .key start fields (c :: text) }
  | .colon start fields key =>
    if c = ':' then
      .ok { s with stack := .field start fields key :: s.stack, mode := .blank }
    else
      .ok s

/-! ## At the end of the text -/

/-- What a settled state is in the middle of, as the complaint if nothing more comes; none between
forms at the outermost level. -/
def State.unfinished (s : State) : Option Fault :=
  match s.mode with
  | .string start _ _ => some ⟨.unterminatedString, start⟩
  | .tick start => some ⟨.badLiteral, start⟩
  | .fields start _ | .key start _ _ | .colon start _ _ => some ⟨.mismatchedOpenBrace, start⟩
  | _ =>
    match s.stack with
    | [] => none
    | .expr start _ :: _ | .list start _ :: _ => some ⟨.mismatchedOpenParen, start⟩
    | .field start _ _ :: _ => some ⟨.mismatchedOpenBrace, start⟩

end Lisplet.Reader
