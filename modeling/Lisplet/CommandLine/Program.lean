import Lisplet.CommandLine.History
import Lisplet.CommandLine.Options
import Lisplet.Session

/-!
# The program

What a command line does: the text it puts on the standard output and on the standard error, and
the exit code. A source given on the command line is evaluated once; without one there is a session
over the standard input, which keeps its history in a file.
-/

namespace Lisplet.CommandLine

/-- What a run leaves behind. -/
structure Report where
  code : Nat := 0
  stdout : String := ""
  stderr : String := ""

/-- One after the other; the exit code is the second one's. -/
def Report.append (r s : Report) : Report :=
  { code := s.code, stdout := r.stdout ++ s.stdout, stderr := r.stderr ++ s.stderr }

structure Surroundings where
  /-- What stands under a name in the file system. -/
  entry : String → Option Entry
  /-- Whether the output goes to a terminal. -/
  terminal : Bool := false
  /-- How far evaluation may go. -/
  fuel : Nat

def version : String := "archscript 0.1.0"

def usage : String := "Usage: archscript [OPTIONS] [SOURCE] [COMMAND]"

/-- A line on the standard error, bold and red when colour is on. -/
def errorLine (color : Bool) (message : String) : String :=
  if color then "\x1b[1m\x1b[31m" ++ message ++ "\x1b[39m\x1b[0m\n" else message ++ "\n"

def haltMessage : Halt → String
  | .error e => e.report
  | .crash c => c.message
  | .outOfFuel => "evaluation was given up"

def haltCode : Halt → Nat
  | .error _ => 1
  | _ => 101

def runOnce (fuel : Nat) (settings : Settings) (source input : String) : Report :=
  let console : Console := { input := Session.linesOf input, terminated := true }
  let (outcome, i) := (Interpreter.fresh settings.maxDepth console).run (evalSource fuel source)
  let written := Console.textOf i.console.written.reverse
  match outcome with
  | .ok v => { stdout := written ++ i.heap.text v ++ "\n" }
  | .error h =>
    { code := haltCode h
      stdout := written
      stderr := errorLine settings.colorEnabled (haltMessage h) }

/-! ## Sessions -/

/-- What a turn puts out. The history is saved after each command. -/
def turnReport (s : Surroundings) (settings : Settings) : Session.Turn → Report
  | .skipped _ => {}
  | .command _ _ _ written outcome =>
    let text := Console.textOf written
    let saved := match settings.history.bind (HistoryFile.saveFault? s.entry) with
      | none => ""
      | some fault => errorLine settings.colorEnabled ("Error saving history: " ++ fault.message)
    match outcome with
    | .ok v => { stdout := text ++ v ++ "\n", stderr := saved }
    | .error (.crash c) =>
      { code := 101
        stdout := text
        stderr := errorLine settings.colorEnabled (haltMessage (.crash c)) }
    | .error h =>
      { stdout := text, stderr := errorLine settings.colorEnabled (haltMessage h) ++ saved }

def runSession (s : Surroundings) (settings : Settings) (input : String) : Report :=
  (Session.ofText s.fuel settings.maxDepth input).foldl
    (fun r turn => r.append (turnReport s settings turn)) {}

/-! ## The whole -/

def refuse : Refusal → Report
  | .displayHelp => { stdout := usage ++ "\n" }
  | .displayVersion => { stdout := version ++ "\n" }
  | _ => { code := 2, stderr := usage ++ "\n" }

def run (s : Surroundings) (args : List String) (input : String) : Report :=
  match parse args with
  | .error refusal => refuse refusal
  | .ok options =>
    match options.complete, options.source with
    | some _, _ => {}
    | none, some source => runOnce s.fuel (options.settings s.terminal) source input
    | none, none => runSession s (options.settings s.terminal) input

end Lisplet.CommandLine
