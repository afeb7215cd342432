import Parlance.Command

/-! The command line: run a program and print the value of its last statement, or check it. -/
namespace Parlance.Main

structure Options where
  file : Option String
  grammar : Option String
  operators : Option String
  deriving Repr

inductive Choice where
  | run
  | check
  deriving DecidableEq, Repr

def readOptions : Options → List String → Option Options
  | o, [] => some o
  | o, "--grammar" :: path :: rest | o, "-g" :: path :: rest =>
    readOptions { o with grammar := some path } rest
  | o, "--operators" :: path :: rest | o, "-o" :: path :: rest =>
    readOptions { o with operators := some path } rest
  | o, "--verbose" :: rest | o, "-v" :: rest => readOptions o rest
  | o, path :: rest =>
    if path.startsWith "-" || o.file.isSome then none
    else readOptions { o with file := some path } rest

def readArguments : List String → Option (Choice × Options)
  | "run" :: rest => (readOptions ⟨none, none, none⟩ rest).map (.run, ·)
  | "check" :: rest => (readOptions ⟨none, none, none⟩ rest).map (.check, ·)
  | _ => none

def usage : String :=
  "usage: parlance (run | check) [FILE] [--grammar FILE] [--operators FILE] [--verbose]"

def readFile? : Option String → IO (Option String)
  | none => pure none
  | some path => some <$> IO.FS.readFile path

def perform (choice : Choice) (o : Options) : IO UInt32 := do
  let source ← match o.file with
    | some path => IO.FS.readFile path
    | none => do (← IO.getStdin).readToEnd
  let request : Request := {
    source
    grammar := ← readFile? o.grammar
    operators := ← readFile? o.operators
    syntaxOnly := choice == .check }
  match request.perform with
  | .valid => IO.println "Syntax is valid"; pure 0
  | .printed text => IO.println text; pure 0
  | .failed e => IO.eprintln e.message; pure 1
  | .outOfFuel => IO.eprintln "evaluation was cut off"; pure 1

end Parlance.Main

def main (arguments : List String) : IO UInt32 :=
  match Parlance.Main.readArguments arguments with
  | none => do
    IO.eprintln Parlance.Main.usage
    pure 2
  | some (choice, options) => do
    try Parlance.Main.perform choice options
    catch e => do
      IO.eprintln ("IO error: " ++ toString e)
      pure 1
