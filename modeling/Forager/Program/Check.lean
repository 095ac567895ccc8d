import Forager.Program.Expr

/-!
# Categories

`check` finds the first argument, in the order of the text, whose category does not fit its place.
-/

namespace Forager.Program

set_option autoImplicit false

/-- An expression of category `got` where `wanted` is needed. -/
structure CategoryError where
  label : String
  got : Category
  wanted : Category
  deriving DecidableEq, Repr

def CategoryError.message (e : CategoryError) : String :=
  s!"grammar: {e.got.name} expression {e.label} used in {e.wanted.name} context"

/-- The error of using the expression where `wanted` is needed. -/
def Expr.misused (e : Expr) (wanted : Category) : CategoryError := ⟨e.op.label, e.category, wanted⟩

/-- What an operation wants of its arguments, if it has any. -/
def Kind.wants : Kind → Option Category
  | .step | .all | .any | .branch | .negation => some .boolean
  | .comparison _ => some .real
  | _ => none

/-- Whether a category serves where `wanted` is needed. -/
def Category.serves (c wanted : Category) : Bool :=
  match wanted with
  | .boolean => c.isLogical
  | w => c = w

mutual

/-- The first misplaced argument, if any. -/
def check : Expr → Except CategoryError Unit
  | .node op args =>
    match op.kind.wants with
    | some wanted => checkAll wanted args
    | none => .ok ()

def checkAll (wanted : Category) : List Expr → Except CategoryError Unit
  | [] => .ok ()
  | e :: rest =>
    if e.category.serves wanted then
      match check e with
      | .ok () => checkAll wanted rest
      | .error x => .error x
    else .error (e.misused wanted)

end

end Forager.Program
