import Equational.Context.Reader
import Equational.Settings.Reader

/-!
# The command line

The program is given a context and a file of targets, searches for proofs, and reports
what it found. Everything but the reading of files, the printing and the measuring of time
is here.
-/

namespace Equational.CommandLine

/-! ### Arguments -/

structure Options where
  context : String
  targets : String
  settings : Option String := none
  seed : Option UInt64 := none
  deriving DecidableEq, Repr

inductive UsageError where
  | settingsWithoutFile
  | seedWithoutValue
  | badSeed (text : String)
  | unknownOption (text : String)
  | files
  deriving DecidableEq, Repr

def UsageError.message : UsageError → String
  | .settingsWithoutFile => "--settings needs a file"
  | .seedWithoutValue => "--seed needs a value"
  | .badSeed text => s!"bad seed `{text}`"
  | .unknownOption text => s!"unknown option `{text}`"
  | .files => "expected a context file and a targets file"

def seed? (text : String) : Option UInt64 :=
  let digits := match text.toList with
    | '+' :: rest => rest
    | all => all
  if digits.isEmpty || !digits.all Char.isDigit then none
  else
    let n := digits.foldl (fun n c => 10 * n + (c.toNat - '0'.toNat)) 0
    if n < UInt64.size then some (UInt64.ofNat n) else none

structure Arguments where
  files : List String := []
  settings : Option String := none
  seed : Option UInt64 := none

def Arguments.scan : List String → Arguments → Except UsageError Arguments
  | [], given => .ok given
  | "--settings" :: [], _ => .error .settingsWithoutFile
  | "--settings" :: path :: rest, given => scan rest { given with settings := some path }
  | "--seed" :: [], _ => .error .seedWithoutValue
  | "--seed" :: value :: rest, given =>
    match seed? value with
    | none => .error (.badSeed value)
    | some seed => scan rest { given with seed := some seed }
  | argument :: rest, given =>
    if argument.toList.head? = some '-' then .error (.unknownOption argument)
    else scan rest { given with files := given.files ++ [argument] }

def Options.ofArguments (arguments : List String) : Except UsageError Options := do
  let given ← Arguments.scan arguments {}
  match given.files with
  | [context, targets] => .ok { context, targets, settings := given.settings, seed := given.seed }
  | _ => .error .files

inductive Command where
  | help
  | version
  | prove (options : Options)
  | misuse (error : UsageError)
  deriving DecidableEq, Repr

def Command.ofArguments (arguments : List String) : Command :=
  match arguments.head? with
  | some "-h" | some "--help" => .help
  | some "-v" | some "--version" => .version
  | _ =>
    match Options.ofArguments arguments with
    | .ok options => .prove options
    | .error e => .misuse e

/-! ### Files -/

inductive FileError where
  | missing
  | directory
  | noDirectory
  | nameTooLong
  | notText
  | other (text : String)
  deriving DecidableEq, Repr

def FileError.message : FileError → String
  | .missing => "No such file or directory (os error 2)"
  | .directory => "Is a directory (os error 21)"
  | .noDirectory => "Not a directory (os error 20)"
  | .nameTooLong => "File name too long (os error 36)"
  | .notText => "stream did not contain valid UTF-8"
  | .other text => text

abbrev Files := String → Except FileError String

/-- The steps of a path. A path from the root starts with a step to it. -/
def steps (path : String) : List String :=
  match path.toList.head? with
  | some '/' => "/" :: path.splitOn "/"
  | _ => path.splitOn "/"

/-- The files by the steps that lead to them, the latest first. The null device is always there,
and empty. -/
def places (contents : List (String × Except FileError String)) :
    List (List String × Except FileError String) :=
  (("/dev/null", .ok "") :: contents).reverse.map fun (name, text) =>
    ((steps name).filter fun step => step != "" && step != ".", text)

/-- The directory above a place. Nothing is above the root. -/
def above (place : List String) : List String :=
  match place.getLast? with
  | none | some ".." => place ++ [".."]
  | some "/" => place
  | some _ => place.dropLast

def maxName : Nat := 255

def maxPath : Nat := 4095

/-- Follows a path step by step. Each step but the first leaves a directory, and what lies beside
the directories above is not known. -/
def follow (files : List (List String × Except FileError String)) :
    List String → List String → Except FileError (List String)
  | place, [] => .ok place
  | place, step :: rest =>
    if (files.lookup place).isSome then .error .noDirectory
    else if step = "" ∨ step = "." then follow files place rest
    else if step = ".." then follow files (above place) rest
    else if maxName < step.utf8ByteSize then .error .nameTooLong
    else
      let place := place ++ [step]
      if step = "/" ∨ files.any fun file => place.isPrefixOf file.1 then follow files place rest
      else .error .missing

/-- The files of a directory by their paths in it. The last of several files with one path
counts. -/
def Files.ofDirectory (contents : List (String × Except FileError String)) : Files := fun path => do
  if path.isEmpty then throw .missing
  if maxPath < path.utf8ByteSize then throw .nameTooLong
  let files := places contents
  let place ← follow files [] (steps path)
  ((files.lookup place).getD (.error .directory))

/-! ### Preparation -/

inductive InputError where
  | contextFile (error : FileError)
  | context (error : ContextError)
  | settingsFile (error : FileError)
  | settings (error : SettingsError)
  | targetsFile (path : String) (error : FileError)
  | statement (path : String) (error : ReadError)
  | noTargets (path : String)
  | violated (cause : Violation)
  deriving DecidableEq, Repr

def secondsText (milliseconds : Nat) : String :=
  let rest := toString (1000 + milliseconds % 1000)
  toString (milliseconds / 1000) ++ "." ++ String.ofList rest.toList.tail ++ "s"

def unexpectedForm : String := "not in the expected form"

def InputError.message : InputError → String
  | .contextFile e => "failed to read model context: " ++ e.message
  | .context .document => "invalid model context file: " ++ unexpectedForm
  | .context (.definition e) => e.message
  | .settingsFile e => "failed to read search settings: " ++ e.message
  | .settings .document => "invalid search settings file: " ++ unexpectedForm
  | .settings (.fault fault) => fault.message
  | .targetsFile path e => s!"failed to read {path}: " ++ e.message
  | .statement path e => s!"{path}: " ++ e.message
  | .noTargets path => s!"{path} contains no statements"
  | .violated cause => cause.message.getD "internal error"

def InputError.ofKernel (path : String) : KernelError → InputError
  | .unreadable e => .statement path e
  | .violated cause => .violated cause

structure Job where
  settings : Settings
  kernel : Kernel
  targets : List Statement

def readSettings (files : Files) : Option String → Except InputError Settings
  | none => .ok {}
  | some path => do
    let text ← (files path).mapError .settingsFile
    (Settings.read text).mapError .settings

def Job.prepare (files : Files) (clock : UInt64) (o : Options) : Except InputError Job := do
  let text ← (files o.context).mapError .contextFile
  let ctx ← (Context.read 0 text).mapError .context
  let settings ← readSettings files o.settings
  let options := settings.kernelOptions clock
  let options := { options with seed := o.seed.getD options.seed }
  let kernel ← (Kernel.read ctx options).mapError (.ofKernel o.context)
  let text ← (files o.targets).mapError (.targetsFile o.targets)
  let targets ← (Statement.readSource ctx text).mapError (.statement o.targets)
  if targets.isEmpty then throw (.noTargets o.targets)
  pure { settings, kernel, targets }

/-! ### Search -/

def Job.search (j : Job) : Changes Solver Unit := do
  Solver.setTargets j.kernel j.targets
  Solver.run j.kernel j.settings.stepSize j.settings.maxSteps

/-! ### Report -/

structure Report where
  exit : UInt32 := 0
  output : List String := []
  errors : List String := []
  deriving DecidableEq, Repr

def usage : List String :=
  ["Usage: eqprover <context.json> <targets.txt> [options]",
    "",
    "Options:",
    "  --settings <file>  Search settings (JSON)",
    "  --seed <n>         Override the random seed",
    "  -h, --help         Show this help message",
    "  -v, --version      Show version information",
    "",
    "Set RUST_LOG to control log output (default: info)."]

def Job.header (j : Job) : List String :=
  [s!"Search settings: " ++ j.settings.name ++ " (" ++ j.settings.desc ++ ")",
    "Seed: " ++ toString j.kernel.options.seed,
    "Targets: " ++ toString j.targets.length,
    ""]

def outcomeLines (target : Statement) (x : Search) (milliseconds : Nat) :
    Checked (List String) := do
  let text ← target.text
  let proof ← match x.proof with
    | none => pure []
    | some proof => do
      let lines ← proof.texts
      pure ("  Proof:" :: lines.map ("    " ++ ·))
  pure ([text ++ ": " ++ x.verdict.text,
    "  Expansions: " ++ toString x.expansions,
    "  Time: " ++ secondsText milliseconds] ++ proof)

def Job.report (j : Job) (solver : Solver) (times : List Nat) : Checked Report := do
  let outcomes ← (j.targets.zip (solver.searches.zip times)).mapM
    fun (target, x, time) => outcomeLines target x time
  pure
    { exit := if solver.verdicts.all (· == .proven) then 0 else 3
      output := j.header ++ outcomes.flatten ++ [""] ++ solver.stats.report }

def Violation.report (e : Violation) : Report :=
  { exit := 101, errors := [(e.message).getD "internal error"] }

def InputError.report (e : InputError) : Report :=
  match e with
  | .violated cause => Violation.report cause
  | e => { exit := 2, errors := ["Error: " ++ e.message] }

def Command.report? : Command → Option Report
  | .help => some { errors := usage }
  | .version => some { output := ["eqprover 0.1.0"] }
  | .misuse e => some { exit := 2, errors := ("Error: " ++ e.message) :: usage }
  | .prove _ => none

def Job.run (j : Job) : Checked Report := do
  let new ← j.settings.makeSolver
  let ((outcome, solver), _) := j.search.runOn new j.kernel.source
  outcome
  j.report solver (solver.searches.map fun _ => 0)

def run (files : Files) (arguments : List String) : Report :=
  match Command.ofArguments arguments with
  | .prove options =>
    match Job.prepare files 0 options with
    | .error e => e.report
    | .ok job =>
      match job.run with
      | .ok report => report
      | .error cause => Violation.report cause
  | command => command.report?.getD {}

end Equational.CommandLine
