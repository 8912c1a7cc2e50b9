import Lisplet.CommandLine.Program

/-!
# Entry point

Reads the standard input, runs the program and writes what it reports. The only thing it has to
find out beforehand is what stands under the names on the way to the history file.
-/

namespace Lisplet.Main

open CommandLine

def isThere (name : String) : IO Bool := do
  try
    let _ ← IO.FS.realPath name
    pure true
  catch _ =>
    pure false

def entryAt (name : String) : IO (Option Entry) := do
  if ← isThere (name ++ "/.") then pure (some .directory)
  else if ← isThere name then pure (some .file)
  else pure none

def historySteps (args : List String) : List String :=
  match parse args with
  | .error _ => []
  | .ok options =>
    match (options.settings false).history with
    | none => []
    | some path => HistoryFile.steps path

/-- How far evaluation may go before it is given up. -/
def fuel : Nat := 1000000000000000000

def run (args : List String) : IO UInt32 := do
  let entries ← (historySteps args).mapM fun name => do pure (name, ← entryAt name)
  let surroundings : Surroundings := { entry := fun name => (entries.lookup name).join, fuel }
  let input ← (← IO.getStdin).readToEnd
  let report := CommandLine.run surroundings args input
  IO.print report.stdout
  IO.eprint report.stderr
  pure report.code.toUInt32

end Lisplet.Main

def main (args : List String) : IO UInt32 :=
  Lisplet.Main.run args
