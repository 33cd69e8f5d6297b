import SureCode.CommandLine.Words
import SureCode.Decimal.Word
import SureCode.Pruning.Basic

/-!
# Commands

What the program can be asked to do: count the nodes of a snippet, print the tree of a file,
evaluate a file of samples, or calibrate on a file of records. `Command.ofArguments?` reads a
command line; a command line that asks for nothing of that kind is refused.
-/

namespace SureCode.CommandLine

/-- How to evaluate samples. What is given here overrides the settings of the configuration file. -/
structure RunOptions where
  samples : String
  config : Option String
  engine : Option Engine
  maxHoles : Option Nat
  thresholds : List Float
  searchLimit : Option Nat
  minTargetNodes : Option Nat
  allLines : Bool
deriving Repr

/-- How to calibrate. -/
structure CalibrateOptions where
  records : String
  confidence : Option Float
  errorRates : List Float
deriving Repr

/-- What the program is asked to do. -/
inductive Command where
  | nodes (code : String)
  | tree (path : String)
  | run (options : RunOptions)
  | calibrate (options : CalibrateOptions)
deriving Repr

/-- Reads the value of an option that may be given once. -/
def optional? {α : Type} (words : List Word) (name : String) (read : String → Option α) :
    Option (Option α) := do
  match ← value? words name with
  | none => return none
  | some text => return some (← read text)

/-- The words of a command behind its name. The flag for more messages goes with every command. -/
def commandWords? (flags options : List String) (args : List String) : Option (List Word) := do
  let words ← words? ⟨"verbose" :: flags, options⟩ args
  let _ ← flag? words "verbose"
  return words

/-- The one plain word of a command that takes no options. -/
def soleWord? (args : List String) : Option String := do
  match plainWords (← commandWords? [] [] args) with
  | [text] => return text
  | _ => none

/-- The parts of a list of values between commas. -/
def parts (values : List String) : List String := values.flatMap (·.splitOn ",")

def runOptions? (args : List String) : Option RunOptions := do
  let words ← commandWords? ["all-lines"]
    ["samples", "config", "engine", "max-holes", "threshold", "search-limit", "min-target-nodes"]
    args
  guard (plainWords words).isEmpty
  return {
    samples := ← (← value? words "samples")
    config := ← value? words "config"
    engine := ← optional? words "engine" Engine.ofLabel?
    maxHoles := ← optional? words "max-holes" Decimal.countOfWord?
    thresholds := ← (values words "threshold").mapM Decimal.doubleOfWord?
    searchLimit := ← optional? words "search-limit" Decimal.countOfWord?
    minTargetNodes := ← optional? words "min-target-nodes" Decimal.countOfWord?
    allLines := ← flag? words "all-lines" }

def calibrateOptions? (args : List String) : Option CalibrateOptions := do
  let words ← commandWords? [] ["records", "delta", "epsilons"] args
  guard (plainWords words).isEmpty
  return {
    records := ← (← value? words "records")
    confidence := ← optional? words "delta" Decimal.doubleOfWord?
    errorRates := ← (parts (values words "epsilons")).mapM Decimal.doubleOfWord? }

/-- The command with a name and its arguments. -/
def Command.ofName? (name : String) (args : List String) : Option Command :=
  match name with
  | "nodes" => (soleWord? args).map .nodes
  | "tree" => (soleWord? args).map .tree
  | "run" => (runOptions? args).map .run
  | "calibrate" => (calibrateOptions? args).map .calibrate
  | _ => none

/-- The command that a command line asks for. The flag for more messages may stand before the name.
-/
def Command.ofArguments? : List String → Option Command
  | [] => none
  | arg :: rest =>
    if arg = "-v" ∨ arg = "--verbose" then
      match rest with
      | name :: args => Command.ofName? name args
      | [] => none
    else Command.ofName? arg rest

end SureCode.CommandLine
