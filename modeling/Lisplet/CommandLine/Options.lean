import Lisplet.Interpreter.Prelude
import Lisplet.Text.Similarity

/-!
# Command lines

What a command line asks for: a source to evaluate or a session, with some options, or a completion
script for a shell.

Arguments are taken from left to right. The value of an option or of the positional argument is
kept aside until the next option or value comes, and only then checked; so an argument that is not
known at all is reported before a bad value right in front of it.
-/

namespace Lisplet.CommandLine

inductive ColorChoice where
  | auto
  | always
  | never
  deriving DecidableEq, Repr

namespace ColorChoice

def name : ColorChoice → String
  | .auto => "auto"
  | .always => "always"
  | .never => "never"

def all : List ColorChoice := [.auto, .always, .never]

end ColorChoice

inductive Shell where
  | bash
  | elvish
  | fish
  | powershell
  | zsh
  deriving DecidableEq, Repr

namespace Shell

def name : Shell → String
  | .bash => "bash"
  | .elvish => "elvish"
  | .fish => "fish"
  | .powershell => "powershell"
  | .zsh => "zsh"

def all : List Shell := [.bash, .elvish, .fish, .powershell, .zsh]

end Shell

/-- Why a command line does not lead to a run. -/
inductive Refusal where
  | invalidValue
  | invalidSubcommand
  | unknownArgument
  | valueValidation
  | tooManyValues
  | argumentConflict
  | missingRequiredArgument
  /-- Not an error: help was asked for. -/
  | displayHelp
  /-- Not an error: the version was asked for. -/
  | displayVersion
  deriving DecidableEq, Repr

def defaultHistory : String := ".archscript_history"

structure Options where
  source : Option String := none
  color : ColorChoice := .auto
  verbose : Bool := false
  history : String := defaultHistory
  noHistory : Bool := false
  maxDepth : Nat := Interpreter.defaultMaxDepth
  complete : Option Shell := none
  deriving DecidableEq, Repr

/-! ## Values -/

/-- What takes a value. -/
inductive Slot where
  | color
  | history
  | maxDepth
  | source
  | shell
  deriving DecidableEq, Repr

structure Given where
  color : Option ColorChoice := none
  history : Option String := none
  maxDepth : Option Nat := none
  source : Option String := none
  shell : Option Shell := none
  verbose : Bool := false
  noHistory : Bool := false

/-- A limit: an optional plus sign and digits, of at most 64 bits. -/
def limitOfText? (s : String) : Option Nat :=
  let digits := match s.toList with
    | '+' :: cs => cs
    | cs => cs
  (Integer.natOfText? digits).filter (· ≤ 0xFFFFFFFFFFFFFFFF)

def orRefuse {α : Type} (refusal : Refusal) : Option α → Except Refusal α
  | some a => .ok a
  | none => .error refusal

def Given.has (g : Given) : Slot → Bool
  | .color => g.color.isSome
  | .history => g.history.isSome
  | .maxDepth => g.maxDepth.isSome
  | .source => g.source.isSome
  | .shell => g.shell.isSome

/-- Checks the value of a slot and enters it; a slot takes one value only. -/
def Given.enter (g : Given) (slot : Slot) (value : String) : Except Refusal Given :=
  if g.has slot then
    .error .argumentConflict
  else
    match slot with
    | .color =>
      (orRefuse .invalidValue (ColorChoice.all.find? (·.name = value))).map fun c =>
        { g with color := some c }
    | .history => if value.isEmpty then .error .invalidValue else .ok { g with history := some value }
    | .maxDepth =>
      (orRefuse .valueValidation (limitOfText? value)).map fun n => { g with maxDepth := some n }
    | .source => .ok { g with source := some value }
    | .shell =>
      (orRefuse .invalidValue (Shell.all.find? (·.name = value))).map fun s =>
        { g with shell := some s }

/-- The value kept aside: none, one that is still to come, or one that is still to be checked. -/
inductive Pending where
  | nothing
  | awaited (slot : Slot)
  | unchecked (slot : Slot) (value : String)
  deriving DecidableEq, Repr

def Given.settle (g : Given) : Pending → Except Refusal Given
  | .nothing => .ok g
  | .awaited _ => .error .invalidValue
  | .unchecked slot value => g.enter slot value

/-! ## Options -/

inductive Switch where
  /-- Takes a value. -/
  | takes (slot : Slot)
  | verbose
  | noHistory
  | help
  | version
  deriving DecidableEq, Repr

/-- The options of one level of the command line, and the slot of its positional argument. -/
structure Grammar where
  long : List (String × Switch)
  short : List (Char × Switch)
  positional : Slot

def mainGrammar : Grammar where
  long :=
    [ ("color", .takes .color), ("verbose", .verbose), ("history", .takes .history),
      ("no-history", .noHistory), ("max-depth", .takes .maxDepth), ("help", .help),
      ("version", .version) ]
  short := [('v', .verbose), ('h', .help), ('V', .version)]
  positional := .source

/-- What follows the word `complete`. -/
def completeGrammar : Grammar where
  long := [("help", .help)]
  short := [('h', .help)]
  positional := .shell

def Given.turnOn (g : Given) : Switch → Except Refusal Given
  | .verbose => if g.verbose then .error .argumentConflict else .ok { g with verbose := true }
  | .noHistory => if g.noHistory then .error .argumentConflict else .ok { g with noHistory := true }
  | .help => .error .displayHelp
  | .version => .error .displayVersion
  | .takes _ => .ok g

structure Scan where
  given : Given := {}
  pending : Pending := .nothing
  /-- Whether everything from here on is positional. -/
  literal : Bool := false
  /-- Whether the positional argument has been taken. -/
  placed : Bool := false

/-- The name of a long option and the value attached to it by an equals sign. -/
def splitLong (cs : List Char) : List Char × Option String :=
  let name := cs.takeWhile (· != '=')
  match cs.dropWhile (· != '=') with
  | [] => (name, none)
  | _ :: value => (name, some (String.ofList value))

def Scan.long (s : Scan) (grammar : Grammar) (cs : List Char) : Except Refusal Scan := do
  let (name, attached) := splitLong cs
  match grammar.long.lookup (String.ofList name), attached with
  | none, _ => .error .unknownArgument
  | some (.takes slot), some value =>
    let given ← s.given.settle s.pending
    let given ← given.enter slot value
    .ok { s with given, pending := .nothing }
  | some (.takes slot), none =>
    let given ← s.given.settle s.pending
    .ok { s with given, pending := .awaited slot }
  | some _, some _ => .error .tooManyValues
  | some switch, none =>
    let given ← s.given.settle s.pending
    let given ← given.turnOn switch
    .ok { s with given, pending := .nothing }

def Scan.short (s : Scan) (grammar : Grammar) : List Char → Except Refusal Scan
  | [] => .ok s
  | c :: cs =>
    match grammar.short.lookup c with
    | none => .error .unknownArgument
    | some switch => do
      let given ← s.given.settle s.pending
      let given ← given.turnOn switch
      Scan.short { s with given, pending := .nothing } grammar cs

/-- Takes a positional argument; `unplaced` refuses one too many. -/
def Scan.positional (s : Scan) (grammar : Grammar) (unplaced : String → Refusal) (arg : String) :
    Except Refusal Scan := do
  if s.placed then
    .error (unplaced arg)
  else
    let given ← s.given.settle s.pending
    .ok { s with given, pending := .unchecked grammar.positional arg, placed := true }

/-- Whether the next argument is the value of an option. -/
def Scan.isAwaiting (s : Scan) : Bool :=
  match s.pending with
  | .awaited _ => true
  | _ => false

def Scan.take (s : Scan) (grammar : Grammar) (unplaced : String → Refusal) (arg : String) :
    Except Refusal Scan :=
  if s.literal then
    s.positional grammar unplaced arg
  else
    match arg.toList with
    | '-' :: '-' :: [] => .ok { s with literal := true }
    | '-' :: '-' :: cs => s.long grammar cs
    | '-' :: c :: cs => s.short grammar (c :: cs)
    | _ =>
      match s.pending with
      | .awaited slot => .ok { s with pending := .unchecked slot arg }
      | _ => s.positional grammar unplaced arg

/-! ## Subcommands -/

def subcommands : List String := ["complete", "help"]

/-- Refuses a second positional argument: perhaps it was meant for a subcommand. -/
def unplacedArgument (literal : Bool) (arg : String) : Refusal :=
  if literal && subcommands.contains arg then .unknownArgument
  else if subcommands.any fun name => Text.similar arg.toList name.toList then .invalidSubcommand
  else .unknownArgument

def completeShell (args : List String) : Except Refusal Shell := do
  let s ← args.foldlM (fun s arg => Scan.take s completeGrammar (fun _ => .unknownArgument) arg) {}
  let given ← s.given.settle s.pending
  orRefuse .missingRequiredArgument given.shell

/-- The answer to `help` and the words after it, which name a subcommand if there are any. -/
def helpRefusal : List String → Refusal
  | [] => .displayHelp
  | [name] => if subcommands.contains name then .displayHelp else .invalidSubcommand
  | _ => .invalidSubcommand

def Given.options (g : Given) (complete : Option Shell) : Except Refusal Options :=
  if g.noHistory && g.history.isSome then
    .error .argumentConflict
  else
    .ok
      { source := g.source
        color := g.color.getD .auto
        verbose := g.verbose
        history := g.history.getD defaultHistory
        noHistory := g.noHistory
        maxDepth := g.maxDepth.getD Interpreter.defaultMaxDepth
        complete }

/-- Takes the remaining arguments. A subcommand is looked for wherever no value is awaited. -/
def scanArguments (s : Scan) : List String → Except Refusal Options
  | [] => do
    let given ← s.given.settle s.pending
    given.options none
  | arg :: rest =>
    if !s.literal && !s.isAwaiting && arg = "help" then
      .error (helpRefusal rest)
    else if !s.literal && !s.isAwaiting && arg = "complete" then do
      let shell ← completeShell rest
      let given ← s.given.settle s.pending
      given.options (some shell)
    else do
      scanArguments (← s.take mainGrammar (unplacedArgument s.literal) arg) rest

def parse (args : List String) : Except Refusal Options :=
  scanArguments {} args

/-! ## Settings -/

structure Settings where
  colorEnabled : Bool
  verbose : Bool
  /-- The history file, if a history is kept. -/
  history : Option String
  maxDepth : Nat
  deriving DecidableEq, Repr

/-- The settings of a run; `terminal` tells whether its output goes to a terminal. -/
def Options.settings (o : Options) (terminal : Bool) : Settings where
  colorEnabled := match o.color with
    | .always => true
    | .never => false
    | .auto => terminal
  verbose := o.verbose
  history := if o.noHistory then none else some o.history
  maxDepth := o.maxDepth

def Settings.logLevel (s : Settings) : String :=
  if s.verbose then "debug" else "warn"

end Lisplet.CommandLine
