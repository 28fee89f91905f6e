import Equational.CommandLine

/-!
# The program

Reads the files that the arguments name, runs the search with a clock, and prints the
report.
-/

namespace Equational.Program

/-- Whether a code is the given one. Some systems give codes below zero. -/
def isCode (expected code : UInt32) : Bool := code == expected || code == 0 - expected

def fileError : IO.Error → CommandLine.FileError
  | .noFileOrDirectory .. => .missing
  | .inappropriateType _ code _ => if isCode 20 code then .noDirectory else .directory
  | e@(.invalidArgument _ code _) => if isCode 36 code then .nameTooLong else .other (toString e)
  | e => .other (toString e)

def readText (path : String) : IO (Except CommandLine.FileError String) := do
  try
    let bytes ← IO.FS.readBinFile path
    match String.fromUTF8? bytes with
    | some text => pure (.ok text)
    | none => pure (.error .notText)
  catch e => pure (.error (fileError e))

def readFiles (paths : List String) : IO CommandLine.Files := do
  let contents ← paths.mapM fun path => do pure (path, ← readText path)
  pure fun path => (contents.lookup path).getD (.error .missing)

/-- Lets each search make the given number of moves, and adds the time it took. -/
def stepTimed (g : Guidance) (count : Nat) (searches : List (Search × Nat)) (stats : Statistics)
    (source : Source) : IO (Checked (List (Search × Nat) × Statistics) × Source) := do
  let mut stats := stats
  let mut source := source
  let mut stepped := #[]
  for (x, time) in searches do
    let started ← IO.monoMsNow
    let ((outcome, task), rest) := (Task.steps g count).runOn ⟨x, stats⟩ source
    source := rest
    match outcome with
    | .error cause => return (.error cause, source)
    | .ok () =>
      stats := task.stats
      stepped := stepped.push (task.search, time + ((← IO.monoMsNow) - started))
  pure (.ok (stepped.toList, stats), source)

def searchTimed (job : CommandLine.Job) (new : Solver) : IO (Checked (Solver × List Nat)) := do
  let ((outcome, started), rest) :=
    (Solver.setTargets job.kernel job.targets).runOn new job.kernel.source
  match outcome with
  | .error cause => pure (.error cause)
  | .ok () =>
    let mut solver := started
    let mut source := rest
    let mut times := started.searches.map fun _ => 0
    for _ in [0:job.settings.maxSteps] do
      if solver.isDone then break
      let (outcome, rest) ← stepTimed (solver.guidance job.kernel) job.settings.stepSize
        (solver.searches.zip times) (solver.stats.add .steps 1) source
      source := rest
      match outcome with
      | .error cause => return .error cause
      | .ok (searches, stats) =>
        solver := { solver with searches := searches.map Prod.fst, stats }
        times := searches.map Prod.snd
    pure (.ok (solver, times))

def prove (options : CommandLine.Options) : IO CommandLine.Report := do
  let files ← readFiles ([options.context, options.targets] ++ options.settings.toList)
  match CommandLine.Job.prepare files (UInt64.ofNat (← IO.monoNanosNow)) options with
  | .error e => pure e.report
  | .ok job =>
    match job.settings.makeSolver with
    | .error cause => pure (CommandLine.Violation.report cause)
    | .ok new =>
      match ← searchTimed job new with
      | .error cause => pure (CommandLine.Violation.report cause)
      | .ok (solver, times) =>
        match job.report solver times with
        | .ok report => pure report
        | .error cause => pure (CommandLine.Violation.report cause)

/-- Carries out a command, prints what there is to print, and gives the exit code. -/
def run (arguments : List String) : IO UInt32 := do
  let command := CommandLine.Command.ofArguments arguments
  let report ← match command with
    | .prove options => prove options
    | _ => pure (command.report?.getD {})
  for line in report.output do IO.println line
  for line in report.errors do IO.eprintln line
  pure report.exit

end Equational.Program

def main (arguments : List String) : IO UInt32 := Equational.Program.run arguments
