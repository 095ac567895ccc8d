import Forager.Command.Listener
import Forager.Command.RunFile
import Forager.Command.Usage
import Forager.Session.Lookup
import Forager.Session.Play

/-!
# Running a command

`run` does what the arguments of the command line say. The result holds what is printed, what is reported in the
journal, and why the command failed if it did. A command that is used wrongly has not begun; one that fails later
leaves what it did and printed before.
-/

namespace Forager.Command

set_option autoImplicit false

inductive CommandError where
  | usage (e : UsageError)
  | runFile (e : RunFileError)
  | listener (e : AddressError)
  | store (e : Archive.StoreError)
  | session (e : SessionError)

namespace CommandError

def message : CommandError → String
  | .usage e => e.message
  | .runFile e => e.message
  | .listener e => s!"metrics listener: listen tcp: {e.message}"
  | .store e => e.message
  | .session e => e.message

/-- Whether the arguments were wrong, so that the usage is shown. -/
def isUsage : CommandError → Bool
  | .usage _ => true
  | _ => false

def exitCode (e : CommandError) : Nat := if e.isUsage then 2 else 1

end CommandError

structure Result where
  env : Environment
  stdout : String := ""
  journal : Journal := []
  failure : Option CommandError := none

def Result.exitCode (r : Result) : Nat := (r.failure.map CommandError.exitCode).getD 0

/-- What an operation prints, and why it failed if it did. -/
structure Report where
  stdout : String := ""
  failure : Option SessionError := none

def Report.of : Except SessionError String → Report
  | .ok stdout => { stdout }
  | .error e => { failure := some e }

/-! ## Tables -/

/-- A number with six digits after the point. -/
def figure (x : Float) : String := Number.fixed 6 x

def row (fields : List String) : String := "\t".intercalate fields ++ "\n"

def progressRow (p : Progress) : String := row [toString p.index, figure p.mean, figure p.max]

def matchRow (index : Nat) (m : MatchReport) : String :=
  row [toString index, toString m.seed, figure m.fitness, toString m.score, toString m.opponentScore,
    toString m.steps, toString m.aborted]

def matchTable (r : PlayResult) : String :=
  row ["match", "seed", "fitness", "score", "opponent", "steps", "aborted"] ++
    String.join (r.played.mapIdx matchRow) ++ row ["mean", figure r.fitness]

def runRow (i : RunItem) : String :=
  row [i.runId, ({ i.createdAt.utc with nanos := 0 }).text, i.simulator, s!"pop={i.population}",
    s!"gens={i.generations}", s!"seed={i.seed}", s!"completed={i.completed}", "best=" ++ figure i.bestFitness]

def programText (i : ProgramInfo) : String :=
  s!"; {i.path} program {i.slot} size={i.size} depth={i.depth}\n{i.pretty}"

/-! ## Actions -/

def printEvolution (request : RunRequest) (deadline : Deadline) : StateM Session Report := do
  let e ← Session.evolve request deadline
  if e.failure.isNone then
    Session.note [⟨.info, "fittest strategy written",
      [("run_id", .text e.summary.runId), ("out", .text request.outDir), ("fitness", .real e.summary.bestFitness)]⟩]
  return ⟨String.join (e.reported.map progressRow), e.failure⟩

def printMatches (request : PlayRequest) (deadline : Deadline) : StateM Session Report := do
  return .of ((← (Session.play request deadline).run).map matchTable)

/-- Prints the programs of strategies, up to the first strategy that is not valid. -/
def printPrograms : List String → StateM Session Report
  | [] => return {}
  | path :: rest => do
    match ← (Session.validate path).run with
    | .error e => return { failure := some e }
    | .ok infos =>
      let r ← printPrograms rest
      return { r with stdout := String.join (infos.map programText) ++ r.stdout }

/-- Prints the fittest programs of a run, its generations, or all runs. -/
def printRuns (limit : Int64) (runId : String) (best : Bool) : StateM Session Report := do
  let s ← get
  return .of <|
    if best then (s.run runId).map fun d => String.join (d.bestPrograms.map (· ++ "\n"))
    else if runId ≠ "" then (s.history runId).map fun h => String.join (h.map progressRow)
    else (s.runs limit.toInt).map fun items => String.join (items.map runRow)

def printCopy (runId outDir : String) : StateM Session Report := do
  return .of ((← (Session.exportRun runId outDir).run).map (· ++ "\n"))

/-! ## Requests -/

def arenaOf (o : Options) : Arena.Config :=
  { maxSteps := (o.integer "max-steps" 0).toInt, treats := (o.integer "treats" 0).toInt }

def requestOf (o : Options) : RunRequest :=
  { baseline := o.text "baseline" ""
    progenitor := o.text "progenitor" ""
    population := o.integer "pop" 100
    mutationRate := o.real "rate" 0.05
    repeats := o.integer "repeats" 1
    generations := o.integer "gens" 10
    seed := o.integer "seed" 1
    workers := o.integer "workers" 1
    selection := o.text "selection" "roulette"
    tournamentSize := o.integer "tournament-size" 3
    arena := arenaOf o
    outDir := o.text "out" "" }

/-- The run that the flags and the run file ask for. -/
def runRequest (d : Disk) (o : Options) : Except CommandError RunRequest := do
  let path := o.text "config" ""
  let request ←
    if path = "" then pure (requestOf o)
    else do return (← (RunFile.load d path).mapError .runFile).apply o.has (requestOf o)
  (checkRequest request).mapError .usage
  return request

def playRequest (o : Options) : Except UsageError PlayRequest := do
  let request : PlayRequest :=
    { team := o.text "team" ""
      opponent := o.text "opponent" ""
      repeats := o.integer "repeats" 1
      seed := o.integer "seed" 1
      arena := arenaOf o }
  require (request.team ≠ "") (.missing "team")
  require (1 ≤ request.repeats) (.tooFew "repeats" request.repeats)
  return request

/-! ## Commands -/

/-- What is to be done in a session. -/
structure Job where
  /-- Where the metrics of the session are served; empty if nowhere. -/
  metricsAddress : String := ""
  act : StateM Session Report

def Action.job (action : Action) (d : Disk) (o : Options) (deadline : Deadline) : Except CommandError Job := do
  match action with
  | .evolve =>
    let request ← runRequest d o
    return { metricsAddress := o.text "metrics-addr" "", act := printEvolution request deadline }
  | .play =>
    let request ← (playRequest o).mapError .usage
    return { act := printMatches request deadline }
  | .validate => return { act := printPrograms o.arguments }
  | .runs =>
    (require (!(o.isOn "best" && o.text "run" "" = "")) .bestWithoutRun).mapError .usage
    return { act := printRuns (o.integer "limit" 20) (o.text "run" "") (o.isOn "best") }
  | .copyRun =>
    (require (o.text "artifacts" "" ≠ "") (.missing "artifacts")).mapError .usage
    return { act := printCopy (o.text "run" "") (o.text "out" "exports") }

def Job.run (job : Job) (env : Environment) (o : Options) : Result :=
  match if job.metricsAddress = "" then .ok () else checkAddress job.metricsAddress with
  | .error e => { env, failure := some (.listener e) }
  | .ok () =>
    let serves := job.metricsAddress ≠ ""
    let journal : Journal := if serves then [⟨.info, "serving metrics", []⟩] else []
    match Session.start env (o.text "store" "memory") (o.text "artifacts" "") "" with
    | .error e => { env, journal, failure := some (.store e) }
    | .ok s =>
      let (report, s) := job.act.run { s with journal, metrics := if serves then some {} else none }
      { env := s.env, stdout := report.stdout, journal := s.journal, failure := report.failure.map .session }

def checkArguments (action : Action) (arguments : List String) : Except UsageError Unit :=
  match action with
  | .validate => require (!arguments.isEmpty) .noPaths
  | action => require arguments.isEmpty (.arguments action arguments)

inductive Wish where
  | help (action : Option Action)
  | action (action : Action) (options : Options)

def wishOf (action : Option Action) (arguments : List String) : Except UsageError Wish := do
  let options ← (parse (flagsOf action) arguments).mapError .flag
  if options.isOn helpFlag.name then return .help action
  match action with
  | none => throw .noAction
  | some action =>
    checkArguments action options.arguments
    return .action action options

def wish (arguments : List String) : Except UsageError Wish :=
  match words arguments with
  | [] => wishOf none arguments
  | word :: _ =>
    match Action.ofName? word with
    | some action => wishOf (some action) (without word arguments)
    | none => if word = "help" then .ok (.help none) else .error (.unknownAction word)

/-- Does what the arguments of the command line say. The journal holds details only if they are wanted. -/
def run (env : Environment) (arguments : List String) (deadline : Deadline) : Result :=
  match wish arguments with
  | .error e => { env, failure := some (.usage e) }
  | .ok (.help _) => { env }
  | .ok (.action action options) =>
    match action.job env.disk options deadline with
    | .error e => { env, failure := some e }
    | .ok job =>
      let r := job.run env options
      { r with journal := r.journal.atLeast (if options.isOn "verbose" then .debug else .info) }

end Forager.Command
