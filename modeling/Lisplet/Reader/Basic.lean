import Lisplet.Reader.State

/-!
# Reading a source

A `Reader` is a source being read, together with the answers that are available when a form is
left open at its end. Each request for more takes the next answer. A text that is not empty is
added to the source on a new line; an empty answer, or none, adds a single blank and is the last
one the reader asks for, so that what is open then is reported as a fault.

`Reader.next` reads one form, `Reader.all` every remaining form, and `read` all the forms of a
source with no answers at all. A failed call leaves the reader behind the offending text, out of all
brackets, and the next call starts afresh from there.
-/

namespace Lisplet

/-- A source in the course of being read. -/
structure Reader where
  /-- The characters already read, the latest first. -/
  before : List Char := []
  /-- How many characters have been read. -/
  pos : Nat := 0
  /-- The characters still to be read. -/
  after : List Char
  /-- The answers to come. -/
  answers : List (Option String) := []
  /-- Whether an empty answer has been given. -/
  exhausted : Bool := false
  /-- The prompts of the requests so far, the latest first. -/
  asked : List String := []
  /-- The counter of the brackets that are open. -/
  depth : Nat := 0

namespace Reader

def ofSource (source : String) (answers : List (Option String)) : Reader :=
  { after := source.toList, answers }

/-- Everything the reader has been given: the source and the answers added to it. -/
def buffer (r : Reader) : List Char :=
  r.before.reverse ++ r.after

def fragment (r : Reader) (start : Nat) : List Char :=
  (r.before.take (r.pos - start)).reverse

/-- A fault as an error: the complaint with the offending text, and all of the source. -/
def malformed (r : Reader) (f : Fault) : Error :=
  .malformed f.what.text (String.ofList (r.fragment f.start)) (String.ofList r.buffer)

def prompt (r : Reader) : String :=
  String.ofList (Text.oneLine r.buffer) ++ " ... "

def prompts (r : Reader) : List String :=
  r.asked.reverse

/-- The reader with its counter, where the brackets open in `s` have given way to those of `t`. -/
def counting (r : Reader) (s t : State) : Reader :=
  { r with depth := r.depth - s.nesting + t.nesting }

/-! ## Running the machine -/

/-- How a run over the available text ended, and what it left unread. -/
structure Run where
  outcome : Except Fault State
  before : List Char
  pos : Nat
  after : List Char

/-- Runs the machine over `text`. With `single` set it stops as soon as a form is complete, which
may leave the character that ended the form unread. -/
def run (single : Bool) (s : State) (before : List Char) (pos : Nat) : List Char → Run
  | [] => { outcome := s.settle none, before, pos, after := [] }
  | c :: cs =>
    match s.settle (some c) with
    | .error f => { outcome := .error f, before, pos, after := c :: cs }
    | .ok s =>
      if single && !s.forms.isEmpty then
        { outcome := .ok s, before, pos, after := c :: cs }
      else
        match s.take pos c with
        | .error f => { outcome := .error f, before := c :: before, pos := pos + 1, after := cs }
        | .ok s =>
          if single && !s.forms.isEmpty then
            { outcome := .ok s, before := c :: before, pos := pos + 1, after := cs }
          else
            run single s (c :: before) (pos + 1) cs

def leg (single : Bool) (s : State) (r : Reader) : Except Error State × Reader :=
  let run := run single s r.before r.pos r.after
  let r := { r with before := run.before, pos := run.pos, after := run.after }
  match run.outcome with
  | .error f => (.error (r.malformed f), r.counting s {})
  | .ok t => (.ok t, r.counting s t)

/-- The fault of a settled state when nothing more comes: an open form, or no form at all where one
is wanted. -/
def faultAtEnd (single : Bool) (s : State) (pos : Nat) : Option Fault :=
  match s.unfinished with
  | some f => some f
  | none => if single && s.forms.isEmpty then some ⟨.unexpectedEnd, pos⟩ else none

def conclude (single : Bool) (s : State) (r : Reader) : Except Error (List Form) × Reader :=
  match faultAtEnd single s r.pos with
  | some f => (.error (r.malformed f), r.counting s {})
  | none => (.ok s.forms.reverse, r)

/-- Reads on from state `s` without asking for more. -/
def finish (single : Bool) (s : State) (r : Reader) : Except Error (List Form) × Reader :=
  match leg single s r with
  | (.error e, r) => (.error e, r)
  | (.ok s, r) => conclude single s r

/-! ## Requests -/

def asking (r : Reader) : Reader :=
  { r with asked := r.prompt :: r.asked }

def extend (r : Reader) (text : String) : Reader :=
  { r with after := r.after ++ '\n' :: text.toList }

def exhaust (r : Reader) : Reader :=
  { r with after := r.after ++ [' '], exhausted := true }

/-- Reads on from state `s`, asking for more whenever a form is open at the end of the text. The
answers are those the reader still has. -/
def resume (single : Bool) (s : State) (r : Reader) : List (Option String) →
    Except Error (List Form) × Reader
  | [] =>
    match leg single s { r with answers := [] } with
    | (.error e, r) => (.error e, r)
    | (.ok s, r) =>
      if s.unfinished.isNone then conclude single s r else finish single s r.asking.exhaust
  | answer :: rest =>
    match leg single s { r with answers := answer :: rest } with
    | (.error e, r) => (.error e, r)
    | (.ok s, r) =>
      if s.unfinished.isNone then conclude single s r
      else
        let r := { r.asking with answers := rest }
        let text := answer.getD ""
        if text.isEmpty then finish single s r.exhaust else resume single s (r.extend text) rest

def start (single : Bool) (r : Reader) : Except Error (List Form) × Reader :=
  if r.exhausted then finish single {} r else resume single {} r r.answers

def all (r : Reader) : Except Error (List Form) × Reader :=
  r.start false

def next (r : Reader) : Except Error Form × Reader :=
  match r.start true with
  | (.ok fs, r) => (.ok (fs.headD .nil), r)
  | (.error e, r) => (.error e, r)

end Reader

/-- The forms of a source, or the error that its first malformed form is. -/
def read (source : String) : Except Error (List Form) :=
  (Reader.ofSource source []).all.1

end Lisplet
