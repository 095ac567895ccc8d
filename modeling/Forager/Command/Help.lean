import Forager.Command.Run

/-!
# Help

The text that says how an action is called. It is printed on demand and after wrong use.
-/

namespace Forager.Command

set_option autoImplicit false

def Action.about : Action → String
  | .evolve => "Evolve a strategy against a fixed baseline"
  | .play => "Play forage matches and report the result"
  | .validate => "Parse and type check strategies, printing them in canonical form"
  | .runs => "List stored runs, or one run's generations with --run"
  | .copyRun => "Copy a run's artifact files, the newest run by default"

/-- What stands for the value of a flag. -/
def FlagKind.placeholder : FlagKind → String
  | .text => " string"
  | .integer => " int"
  | .real => " float"
  | .toggle => ""

def flagLine (f : Flag) : String :=
  let letter := match f.letter with
    | some c => s!"  -{c}, "
    | none => "      "
  letter ++ "--" ++ f.name ++ f.kind.placeholder ++ "\n"

def flagLines (heading : String) (flags : List Flag) : String :=
  "\n" ++ heading ++ ":\n" ++ String.join (flags.map flagLine)

/-- The line of an action in a list of actions. -/
def actionLine (t : Action) : String :=
  "  " ++ t.name ++ String.ofList (List.replicate (12 - t.name.length) ' ') ++ t.about ++ "\n"

/-- How an action is called, or how one is chosen. -/
def usage : Option Action → String
  | none =>
    s!"Usage:\n  {programName} [flags]\n  {programName} [command]\n\nAvailable Commands:\n" ++
      String.join (Action.all.map actionLine) ++ flagLines "Flags" (commonFlags ++ [helpFlag])
  | some t =>
    let operands := if t = .validate then " PATH..." else ""
    s!"Usage:\n  {programName} {t.name}{operands} [flags]\n" ++
      flagLines "Flags" (t.ownFlags ++ [helpFlag]) ++ flagLines "Global Flags" commonFlags

def namedAction (arguments : List String) : Option Action := (words arguments).head?.bind Action.ofName?

/-- What goes to the error channel when a command fails. -/
def failureText (arguments : List String) (e : CommandError) : String :=
  s!"Error: {e.message}\n" ++ if e.isUsage then usage (namedAction arguments) else ""

/-- The text that the arguments ask for instead of an action. -/
def helpText? (arguments : List String) : Option String :=
  match wish arguments with
  | .ok (.help action) =>
    some ((match action with
      | some t => t.about
      | none => "Evolve forage team strategies written as S-expression programs") ++ "\n\n" ++ usage action)
  | _ => none

/-- The paths that the arguments mention, as far as the files that are known say. -/
def mentionedPaths (d : Disk) (arguments : List String) : List String :=
  match wish arguments with
  | .ok (.action action o) =>
    let paths := match action with
      | .evolve =>
        match runRequest d o with
        | .ok r => [r.baseline, r.progenitor, r.outDir, o.text "config" ""]
        | .error _ => [o.text "config" ""]
      | .play => [o.text "team" "", o.text "opponent" ""]
      | .validate => o.arguments
      | .runs => []
      | .copyRun => [o.text "out" "exports"]
    (o.text "artifacts" "" :: paths).filter (· ≠ "")
  | _ => []

end Forager.Command
