import Forager.Program.Expr
import Forager.Number.Read
import Forager.Sexp.Parse
import Forager.Text.Quoted

/-!
# Expressions from text

`build` turns an S-expression into an expression and checks on the way down that every operation is known and has as
many arguments of the right shape as it takes. Categories are not looked at.
-/

namespace Forager.Program

set_option autoImplicit false

def sensorCount : Nat := 16

/-- Why an S-expression is no expression. `word` leads the offending one. -/
inductive StructureError where
  | atomAtRoot (text : String)
  | noWord
  | unknownWord (word : String)
  | takesNothing (word : String)
  | atomArgument (word text : String)
  | tooFewBranches
  | tooManyBranches
  | notUnary
  | notBinary (word : String)
  | notOneSensor
  | badSensor (text : String)
  | sensorOutOfRange (sensor : Int)
  | notTwoSpeeds
  | badNumber (word text : String)
  | notOneState
  | badState (text : String)
  | notAProgram (word : String)
  deriving DecidableEq, Repr

/-- A complaint about the operation led by `word`, if it has one. -/
def complaint (word text : String) : String :=
  if word = "" then s!"grammar: {text}" else s!"grammar: {word}: {text}"

def StructureError.message : StructureError → String
  | .atomAtRoot text => complaint "" s!"expected S-expression, got atom {Text.quote text}"
  | .noWord => complaint "" "expression did not start with atom"
  | .unknownWord word => complaint "" s!"unexpected expression name '{word}'"
  | .takesNothing word => complaint word "takes no arguments"
  | .atomArgument word text => complaint word s!"expected S-expression, got atom {Text.quote text}"
  | .tooFewBranches => complaint Kind.branch.word "requires at least 2 args"
  | .tooManyBranches => complaint Kind.branch.word "cannot have more than 3 args"
  | .notUnary => complaint Kind.negation.word "can only take a single expression"
  | .notBinary word => complaint word "is a binary operator"
  | .notOneSensor => complaint Kind.getRange.word "takes only one sensor index argument"
  | .badSensor text => complaint Kind.getRange.word s!"invalid sensor index {Text.quote text}"
  | .sensorOutOfRange sensor =>
    complaint Kind.getRange.word s!"sensor index {sensor} outside [0,{sensorCount})"
  | .notTwoSpeeds => complaint Kind.setSpeed.word "takes two literal arguments"
  | .badNumber word text => complaint word s!"invalid number {Text.quote text}"
  | .notOneState => complaint Kind.inState.word "takes only one argument"
  | .badState text => complaint Kind.inState.word (State.unknownMessage text)
  | .notAProgram word => complaint word s!"program root must be {Kind.step.word}"

/-- Reads a finite number for the operation led by `word`. -/
def readReal (word text : String) : Except StructureError Float :=
  match Number.real? text with
  | .ok x => if Number.isFinite x then .ok x else .error (.badNumber word text)
  | .error _ => .error (.badNumber word text)

def readSensor : List Sexp → Except StructureError Op
  | [.atom text] =>
    match Number.integer? text with
    | .ok n => if 0 ≤ n ∧ n < sensorCount then .ok (.getRange n) else .error (.sensorOutOfRange n)
    | .error _ => .error (.badSensor text)
  | _ => .error .notOneSensor

def readSpeeds : List Sexp → Except StructureError Op
  | [.atom left, .atom right] => do
    let l ← readReal Kind.setSpeed.word left
    let r ← readReal Kind.setSpeed.word right
    return .setSpeed l r
  | _ => .error .notTwoSpeeds

def readState : List Sexp → Except StructureError Op
  | [.atom text] =>
    match State.ofName? text with
    | some state => .ok (.inState state)
    | none => .error (.badState text)
  | _ => .error .notOneState

/-- Whether an operation may have this many logical arguments. -/
def checkCount (kind : Kind) (count : Nat) : Except StructureError Unit :=
  match kind with
  | .branch =>
    if count < 2 then .error .tooFewBranches else if 3 < count then .error .tooManyBranches else .ok ()
  | .negation => if count = 1 then .ok () else .error .notUnary
  | _ => .ok ()

mutual

def build : Sexp → Except StructureError Expr
  | .atom text => .error (.atomAtRoot text)
  | .list [] => .error .noWord
  | .list (.list _ :: _) => .error .noWord
  | .list (.atom word :: args) =>
    if word = "" then .error .noWord
    else match Kind.ofWord? word with
      | none => .error (.unknownWord word)
      | some .getRange => do return .leaf (← readSensor args)
      | some .setSpeed => do return .leaf (← readSpeeds args)
      | some .inState => do return .leaf (← readState args)
      | some (.comparison c) =>
        if args.length = 2 then do return .node (.comparison c) (← buildOperands args)
        else .error (.notBinary word)
      | some kind =>
        match kind with
        | .step | .all | .any | .branch | .negation => do
          checkCount kind args.length
          return .node (.blank kind) (← buildLists word args)
        | _ => if args.isEmpty then .ok (.leaf (.blank kind)) else .error (.takesNothing word)

/-- Builds arguments all of which must be lists. -/
def buildLists (word : String) : List Sexp → Except StructureError (List Expr)
  | [] => .ok []
  | .atom text :: _ => .error (.atomArgument word text)
  | .list items :: rest => do
    let e ← build (.list items)
    let es ← buildLists word rest
    return e :: es

/-- Builds the operands of a comparison, where an atom is a number. -/
def buildOperands : List Sexp → Except StructureError (List Expr)
  | [] => .ok []
  | .atom text :: rest => do
    let x ← readReal "" text
    let es ← buildOperands rest
    return .leaf (.literal x) :: es
  | .list items :: rest => do
    let e ← build (.list items)
    let es ← buildOperands rest
    return e :: es

end

/-! ## Texts -/

inductive TextError where
  | parse (e : Sexp.ParseError)
  | malformed (e : StructureError)
  deriving DecidableEq, Repr

def TextError.message : TextError → String
  | .parse e => e.message
  | .malformed e => e.message

def parse (text : String) : Except TextError Expr :=
  match Sexp.parse text with
  | .error e => .error (.parse e)
  | .ok t => (build t).mapError .malformed

/-- An expression that is a program, since its root is a step. -/
def asProgram (e : Expr) : Except StructureError Expr :=
  if e.kind = .step then .ok e else .error (.notAProgram e.word)

def parseProgram (text : String) : Except TextError Expr :=
  match parse text with
  | .error e => .error e
  | .ok e => (asProgram e).mapError .malformed

end Forager.Program
