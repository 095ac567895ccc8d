import Forager.Breeding.Mutation
import Forager.Breeding.Crossover
import Forager.Chance.Seed
import Forager.Simulator
import Forager.Text.Sha1

/-!
# Individuals

An individual is a strategy, one program for each robot of a team, with the fitness it was last seen to have. It can
be mutated, crossed with another, and evaluated in a simulator.
-/

namespace Forager.Breeding

set_option autoImplicit false

open Program (Expr Kind TextError)
open Chance (Draw)

/-- A strategy and its last evaluation. -/
structure Individual where
  id : String
  programs : List Expr
  fitness : Float := 0
  evaluated : Bool := false
  /-- How many matches of the last evaluation were cut short. -/
  aborted : Nat := 0

inductive StrategyError where
  | empty
  | missing (slot : Nat)
  | notAProgram (slot : Nat) (word : String)
  deriving DecidableEq, Repr

def StrategyError.message : StrategyError → String
  | .empty => "strategy contains no programs"
  | .missing slot => s!"program {slot} is nil"
  | .notAProgram slot word => s!"program {slot}: root must be step, got {word}"

namespace Individual

/-- The programs of all slots from `slot` on, each of which must be there and be rooted in a step. -/
def checkSlots : (slot : Nat) → List (Option Expr) → Except StrategyError (List Expr)
  | _, [] => .ok []
  | slot, none :: _ => .error (.missing slot)
  | slot, some e :: rest =>
    if e.kind = .step then (checkSlots (slot + 1) rest).map (e :: ·) else .error (.notAProgram slot e.word)

/-- A new individual from slots that may be empty. -/
def ofSlots (id : String) (slots : List (Option Expr)) : Except StrategyError Individual :=
  if slots.isEmpty then .error .empty else (checkSlots 0 slots).map fun programs => { id, programs }

def new (id : String) (programs : List Expr) : Except StrategyError Individual := ofSlots id (programs.map some)

/-- The individual whose one program does nothing. -/
def default (id : String) : Individual := { id, programs := [.idle] }

/-- The program of a slot. Slots beyond the last begin again at the first, and negative ones count from the last. -/
def program (ind : Individual) (slot : Int) : Expr := ind.programs.getD (slot % ind.programs.length).toNat .idle

/-- The bytes that identify the programs. -/
def imprint (programs : List Expr) : List UInt8 :=
  programs.flatMap fun e => (e.print ++ "\n").toUTF8.toList

/-- A digest of the programs, the same for equal strategies. -/
def fingerprint (ind : Individual) : String := Text.Sha1.hexDigest (imprint ind.programs)

end Individual

/-! ## Offspring -/

inductive BreedError where
  | noMate
  | noSource
  | strategy (e : StrategyError)
  | swap (e : Sexp.LinkError)
  | mutant (slot : Nat) (e : TextError)
  | crossed (slot : Nat) (e : TextError)
  /-- A program lacks an argument that one of its operations needs. -/
  | incomplete (slot : Nat)
  deriving DecidableEq, Repr

def noSourceMessage : String := "random source is required"

def BreedError.message : BreedError → String
  | .noMate => "mate is required"
  | .noSource => noSourceMessage
  | .strategy e => e.message
  | .swap e => s!"swap subtrees: {e.message}"
  | .mutant slot e => s!"mutate slot {slot}: {e.message}"
  | .crossed slot e => s!"crossover slot {slot}: {e.message}"
  | .incomplete slot => s!"mutate slot {slot}: missing argument"

abbrev Breeds := ExceptT BreedError Draw

/-- The text of a mutant, which is read again: this is where a number that has grown too large is noticed. -/
def mutateSlot (rate : Float) (slot : Nat) (e : Expr) : Breeds Expr := do
  match ← (mutate rate e).run with
  | none => throw (.incomplete slot)
  | some mutant =>
    match Program.parseProgram mutant.print with
    | .ok e => return e
    | .error x => throw (.mutant slot x)

/-- Mutants of the programs of all slots from `slot` on. -/
def mutateSlots (rate : Float) : (slot : Nat) → List Expr → Breeds (List Expr)
  | _, [] => return []
  | slot, e :: rest => do
    let e ← mutateSlot rate slot e
    let rest ← mutateSlots rate (slot + 1) rest
    return e :: rest

/-- A breeding step that has failed or not. -/
def settled {ε α : Type} (wrap : ε → BreedError) : Except ε α → Breeds α
  | .ok x => return x
  | .error e => throw (wrap e)

def readCrossed (slot : Nat) (text : String) : Breeds Expr := settled (.crossed slot) (Program.parseProgram text)

/-- The programs of a child from slot `i` on: at slot `slot` a mutant of the crossed program, elsewhere mutants of the
parent's own. -/
def childPrograms (rate : Float) (slot : Nat) (crossed : String) : (i : Nat) → List Expr → Breeds (List Expr)
  | _, [] => return []
  | i, e :: rest => do
    let source ← if i = slot then readCrossed i crossed else pure e
    let e ← mutateSlot rate i source
    let rest ← childPrograms rate slot crossed (i + 1) rest
    return e :: rest

namespace Individual

def mutant (ind : Individual) (id : String) (rate : Float) : Breeds Individual := do
  let programs ← mutateSlots rate 0 ind.programs
  settled .strategy (Individual.new id programs)

/-- Two children. One slot that both parents have is crossed, and then every slot is mutated. -/
def cross (ind mate : Individual) (ids : String × String) (rate : Float) : Breeds (Individual × Individual) := do
  let slot ← Chance.below (min ind.programs.length mate.programs.length)
  let crossed ← settled .swap (← crossover (ind.programs.getD slot .idle) (mate.programs.getD slot .idle))
  let left ← childPrograms rate slot crossed.first 0 ind.programs
  let right ← childPrograms rate slot crossed.second 0 mate.programs
  let first ← settled .strategy (Individual.new ids.1 left)
  let second ← settled .strategy (Individual.new ids.2 right)
  return (first, second)

end Individual

/-! ## Evaluation -/

inductive EvaluationError where
  | noSimulator
  | noRepeats
  | canceled
  | failed (id : String) (e : MatchError)
  deriving DecidableEq, Repr

def EvaluationError.message : EvaluationError → String
  | .noSimulator => "simulator is required"
  | .noRepeats => "repeats must be >= 1"
  | .canceled => canceledMessage
  | .failed id e => s!"evaluate {id}: {e.message}"

/-- What evaluations share: the simulator with the number of matches it has played, the deadline, and the journal. -/
structure Playing where
  before : Nat := 0
  deadline : Deadline := none
  journal : Journal := []

structure Totals where
  fitness : Float := 0
  aborted : Nat := 0

/-- Plays `count` matches from repeat `r` on, unless the run is called off or a match fails. -/
def playSeries (sim : Simulator) (id : String) (team opponent : List Expr) (seed : Int64) :
    (count r : Nat) → Totals → Playing → Except EvaluationError Totals × Playing
  | 0, _, totals, p => (.ok totals, p)
  | count + 1, r, totals, p =>
    match p.deadline.look with
    | (true, deadline) => (.error .canceled, { p with deadline })
    | (false, deadline) =>
      let reply := sim.play p.before deadline ⟨team, opponent, Chance.derive seed (.ofNat r)⟩
      let p := ⟨p.before + 1, reply.deadline, p.journal ++ reply.journal⟩
      match reply.result with
      | .error e => (.error (.failed id e), p)
      | .ok outcome =>
        let aborted := if outcome.aborted then totals.aborted + 1 else totals.aborted
        playSeries sim id team opponent seed count (r + 1) ⟨totals.fitness + outcome.fitness, aborted⟩ p

namespace Individual

/-- Plays `repeats` matches against an opponent and records the mean fitness. Every individual that is evaluated with
the same seed meets the same conditions. -/
def evaluate (ind : Individual) (sim : Simulator) (opponent : List Expr) (repeats : Int) (seed : Int64)
    (p : Playing) : Except EvaluationError Individual × Playing :=
  if repeats < 1 then (.error .noRepeats, p)
  else
    match playSeries sim ind.id ind.programs opponent seed repeats.toNat 0 {} p with
    | (.error e, p) => (.error e, p)
    | (.ok totals, p) =>
      (.ok { ind with
        fitness := totals.fitness / Float.ofInt repeats
        evaluated := true
        aborted := totals.aborted }, p)

end Individual

end Forager.Breeding
