import SureCode.Calibration.Basic
import SureCode.CommandLine.Command
import SureCode.Evaluation.Basic
import SureCode.Json.Printer
import SureCode.Json.Reader

/-!
# Reports

What the program writes for a command, as a function of the files that the command names. A report
has the text for the standard output, the messages for the standard error and the exit code.
-/

namespace SureCode.CommandLine

/-- What is behind the path of a file. -/
inductive FileContent where
  | text (text : String)
  /-- It can be opened and not read. -/
  | unreadable
  | missing
deriving DecidableEq, Repr

/-- What a command comes to. -/
structure Report where
  output : String := ""
  /-- Why it failed, if it did. -/
  failure : Option String := none
  /-- How many samples there were and what became of them. -/
  summary : Option String := none
  exitCode : Nat := 0
deriving DecidableEq, Repr

namespace Report

/-- A command that failed. -/
def failed (message : String) : Report := { failure := some message, exitCode := 1 }

/-- A command line that asks for no command. -/
def misused : Report := { exitCode := 2 }

/-- The lines for the standard error. -/
def messages (r : Report) : List String :=
  (r.failure.map ("Error: " ++ ·)).toList ++ r.summary.toList

end Report

/-- The files that a command reads. -/
def Command.paths : Command → List String
  | .nodes _ => []
  | .tree path => [path]
  | .run options => options.config.toList ++ [options.samples]
  | .calibrate options => [options.records]

/-- How scalars are written in messages. -/
def writeScalar (x : Float) : String := NumberStyle.message.render x

/-! ### Files -/

/-- The text of a file that is read as a whole. -/
def wholeText (path : String) : FileContent → Except String String
  | .text text => .ok text
  | _ => .error ("failed to read `" ++ path ++ "`")

/-- The documents on the lines of a text, from the line with the given number on. Blank lines are
passed over. -/
def documentsFrom {α : Type} (path : String) (read : Json Float → Option α) :
    Nat → List String → Except String (List α)
  | _, [] => .ok []
  | number, line :: rest =>
    if line.toList.all Text.isBlank then documentsFrom path read (number + 1) rest
    else match (Json.parse? line).bind read with
      | none => .error (path ++ ":" ++ toString number ++ ": malformed line")
      | some a => do return a :: (← documentsFrom path read (number + 1) rest)

/-- The documents in a file with one of them a line. -/
def documents {α : Type} (path : String) (read : Json Float → Option α) :
    FileContent → Except String (List α)
  | .text text => documentsFrom path read 1 (text.splitOn "\n")
  | .unreadable => .error ("failed to read `" ++ path ++ "`")
  | .missing => .error ("failed to open `" ++ path ++ "`")

/-! ### Commands -/

/-- The number of nodes, or minus one for a text that does not parse. -/
def nodesReport (code : String) : Report :=
  let count := match nodeCount? code with
    | some n => toString n
    | none => "-1"
  { output := count ++ "\n" }

def treeReport (path : String) (file : FileContent) : Except String Report := do
  let text ← wholeText path file
  let p : Parse Float := parse text
  if p.hasErrors then
    throw ("`" ++ path ++ "` has " ++ toString p.diagnostics.length ++ " syntax errors")
  let lines := match p.tree with
    | some t => t.dump
    | none => ["<empty>"]
  return { output := String.join (lines.map (· ++ "\n")) }

/-- The settings of a configuration file, or the default ones if there is none. -/
def configured (look : String → FileContent) : Option String → Except String (Settings Float)
  | none => .ok Settings.defaults
  | some path => do
    let text ← wholeText path (look path)
    match Settings.ofFile text with
    | .ok settings => return settings
    | .error _ => throw ("invalid configuration `" ++ path ++ "`")

/-- The settings with those that the command line gives. -/
def RunOptions.override (o : RunOptions) (s : Settings Float) : Settings Float where
  thresholds := if o.thresholds.isEmpty then s.thresholds else o.thresholds
  maxHoles := o.maxHoles.or s.maxHoles
  engine := o.engine.getD s.engine
  searchLimit := o.searchLimit.getD s.searchLimit
  firstLineOnly := s.firstLineOnly && !o.allLines
  minTargetNodes := o.minTargetNodes.getD s.minTargetNodes

def runReport (look : String → FileContent) (o : RunOptions) : Except String Report := do
  let settings ← configured look o.config
  let settings ← (o.override settings).normalize.mapError fun _ => "invalid thresholds"
  let samples ← documents o.samples Sample.ofJson? (look o.samples)
  let batch := settings.evaluateAll samples
  return {
    output := String.join (batch.records.map fun record => record.toJson.compact ++ "\n")
    summary := some (toString samples.length ++ " samples, " ++ toString batch.records.length
      ++ " records, " ++ toString batch.skipped.length ++ " skipped") }

def calibrateReport (o : CalibrateOptions) (file : FileContent) : Except String Report := do
  let outcomes ← documents o.records Outcome.ofJson? file
  let rates := if o.errorRates.isEmpty then defaultErrorRates else o.errorRates
  let coverages := aggregate outcomes
  let points ← (calibrate coverages rates (o.confidence.getD defaultConfidence)).mapError
    (·.message writeScalar)
  let json : Json Float := .object
    [("thresholds", .ofList Coverage.toJson coverages),
     ("points", .ofList CalibrationPoint.toJson points)]
  return { output := json.pretty ++ "\n" }

/-- What a command comes to, given what is behind each path. -/
def Command.report (look : String → FileContent) (c : Command) : Report :=
  let result : Except String Report := match c with
    | .nodes code => .ok (nodesReport code)
    | .tree path => treeReport path (look path)
    | .run options => runReport look options
    | .calibrate options => calibrateReport options (look options.records)
  match result with
  | .ok report => report
  | .error message => .failed message

/-- What a command line comes to. -/
def report (look : String → FileContent) (args : List String) : Report :=
  match Command.ofArguments? args with
  | some c => c.report look
  | none => .misused

end SureCode.CommandLine
