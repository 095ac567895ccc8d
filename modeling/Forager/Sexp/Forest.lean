import Forager.Sexp.Parse

/-!
# Forests of linked nodes

A forest keeps the nodes of several S-expressions in one store. Nodes refer to their parent and their children by
number, so that two subtrees, also of different trees, can be exchanged by relinking them. Any integer may be
presented as a reference; `node?` tells which are valid. `tree?` reads the tree below a node.
-/

namespace Forager.Sexp

set_option autoImplicit false

/-- The number of a node. -/
abbrev Ref := Int

/-- A node: its content is the text of an atom, or the children of a list. -/
structure Node where
  /-- The text of an atom, `none` for a list. -/
  text? : Option String
  parent : Option Ref
  children : List Ref
  deriving DecidableEq, Repr

/-- Nodes in the order in which they were made. -/
structure Forest where
  nodes : Array Node
  deriving DecidableEq, Repr

inductive LinkError where
  | rootNode
  | sameNode
  | nestedSwap
  | invalidRef
  | attachedNode
  | notList
  | notAmongChildren
  deriving DecidableEq, Repr

def LinkError.message : LinkError → String
  | .rootNode => "root node has no parent"
  | .sameNode => "cannot swap a node with itself"
  | .nestedSwap => "cannot swap a node with its own ancestor"
  | .invalidRef => "invalid node reference"
  | .attachedNode => "node already has a parent"
  | .notList => "node is not a list"
  | .notAmongChildren => "node missing from parent child list"

/-- A child that a new list could not adopt. -/
structure ChildError where
  child : Ref
  cause : LinkError
  deriving DecidableEq, Repr

def ChildError.message (e : ChildError) : String := s!"sexp: list child {e.child}: {e.cause.message}"

namespace Forest

def empty : Forest := ⟨#[]⟩

def size (f : Forest) : Nat := f.nodes.size

def node? (f : Forest) : Ref → Option Node
  | .ofNat n => f.nodes[n]?
  | .negSucc _ => none

def valid (f : Forest) (r : Ref) : Bool := (f.node? r).isSome

def update (f : Forest) (r : Ref) (change : Node → Node) : Forest :=
  match r with
  | .ofNat n => ⟨f.nodes.modify n change⟩
  | .negSucc _ => f

def push (f : Forest) (n : Node) : Forest × Ref := (⟨f.nodes.push n⟩, f.nodes.size)

/-! ## Reading -/

def isList (f : Forest) (r : Ref) : Bool :=
  match f.node? r with
  | some n => n.text?.isNone
  | none => false

/-- The text of an atom, nothing for a list. -/
def text (f : Forest) (r : Ref) : String :=
  match f.node? r with
  | some n => n.text?.getD ""
  | none => ""

def children (f : Forest) (r : Ref) : List Ref :=
  match f.node? r with
  | some n => n.children
  | none => []

def args (f : Forest) (r : Ref) : List Ref := (f.children r).tail

/-- The text of the atom that leads a list, nothing if none does. -/
def head (f : Forest) (r : Ref) : String :=
  match f.children r with
  | first :: _ => f.text first
  | [] => ""

/-- The parent of a node that is no root. -/
def parent (f : Forest) (r : Ref) : Option Ref := (f.node? r).bind (·.parent)

/-- The node reached from `r` by at most `fuel` parent links. -/
def climb (f : Forest) : (fuel : Nat) → Ref → Ref
  | 0, r => r
  | fuel + 1, r =>
    match f.parent r with
    | some p => climb f fuel p
    | none => r

/-- The root of the tree of a node. -/
def root (f : Forest) (r : Ref) : Ref := f.climb f.size r

/-- Whether one of the next `fuel` nodes above `r` is `a`. -/
def isAbove (f : Forest) (a : Ref) : (fuel : Nat) → Ref → Bool
  | 0, _ => false
  | fuel + 1, r =>
    match f.parent r with
    | some p => p = a || isAbove f a fuel p
    | none => false

/-- Whether `a` lies on the way from `r` to its root, `r` excluded. -/
def isAncestor (f : Forest) (a r : Ref) : Bool := f.isAbove a f.size r

/-- The nodes from `r` down in preorder, through at most `fuel` levels, without those below a node that `enter`
refuses. -/
def preorder (f : Forest) (enter : Ref → Bool) : (fuel : Nat) → Ref → List Ref
  | 0, _ => []
  | fuel + 1, r =>
    match f.node? r with
    | some n => r :: if enter r then n.children.flatMap (preorder f enter fuel) else []
    | none => []

/-- The nodes from `r` down in preorder, without those below a node that `enter` refuses. -/
def walk (f : Forest) (r : Ref) (enter : Ref → Bool) : List Ref := f.preorder enter (f.size + 1) r

/-- The tree below `r`, through at most `fuel` levels. -/
def treeWithin (f : Forest) : (fuel : Nat) → Ref → Option Sexp
  | 0, _ => none
  | fuel + 1, r =>
    match f.node? r with
    | some ⟨some text, _, _⟩ => some (.atom text)
    | some ⟨none, _, children⟩ => (children.mapM (treeWithin f fuel)).map .list
    | none => none

def tree? (f : Forest) (r : Ref) : Option Sexp := f.treeWithin (f.size + 1) r

def print (f : Forest) (r : Ref) : String := ((f.tree? r).map Sexp.print).getD ""

def pretty (f : Forest) (r : Ref) : String := ((f.tree? r).map Sexp.pretty).getD "\n"

def same (f : Forest) (a : Ref) (g : Forest) (b : Ref) : Bool :=
  match f.tree? a, g.tree? b with
  | some s, some t => s = t
  | _, _ => false

/-! ## Growing and relinking -/

def atom (f : Forest) (text : String) : Forest × Ref := f.push ⟨some text, none, []⟩

def emptyList (f : Forest) : Forest × Ref := f.push ⟨none, none, []⟩

/-- Makes a root the last child of a list. -/
def append (f : Forest) (list child : Ref) : Except LinkError Forest :=
  match f.node? list, f.node? child with
  | some l, some c =>
    if l.text?.isSome then .error .notList
    else if c.parent.isSome then .error .attachedNode
    else
      let g := f.update list fun n => { n with children := n.children ++ [child] }
      .ok (g.update child fun n => { n with parent := some list })
  | _, _ => .error .invalidRef

/-- Adopts children one after the other, up to the first that cannot be adopted. -/
def adopt (f : Forest) (list : Ref) : List Ref → Forest × Option ChildError
  | [] => (f, none)
  | child :: rest =>
    match f.append list child with
    | .ok g => adopt g list rest
    | .error cause => (f, some ⟨child, cause⟩)

/-- Adds a list that adopts the given roots. If one cannot be adopted, the list stays with those before it. -/
def list (f : Forest) (children : List Ref) : Forest × Except ChildError Ref :=
  let (g, r) := f.emptyList
  match g.adopt r children with
  | (h, none) => (h, .ok r)
  | (h, some e) => (h, .error e)

/-- Exchanges the subtrees of two nodes, neither of which lies above the other. -/
def swap (f : Forest) (x y : Ref) : Except LinkError Forest :=
  match f.node? x, f.node? y with
  | some nx, some ny =>
    if x = y then .error .sameNode
    else match nx.parent, ny.parent with
      | some px, some py =>
        if f.isAncestor x y || f.isAncestor y x then .error .nestedSwap
        else match (f.children px).idxOf? x, (f.children py).idxOf? y with
          | some ix, some iy =>
            let f := f.update px fun n => { n with children := n.children.set ix y }
            let f := f.update py fun n => { n with children := n.children.set iy x }
            let f := f.update x fun n => { n with parent := some py }
            .ok (f.update y fun n => { n with parent := some px })
          | _, _ => .error .notAmongChildren
      | _, _ => .error .rootNode
  | _, _ => .error .invalidRef

/-! ## Whole trees -/

/-- Adds a root for every token that begins a node, linked into the innermost open list. -/
def grow : Forest → List Ref → List Token → Forest
  | f, _, [] => f
  | f, stack, .opening :: rest =>
    let (g, r) := f.emptyList
    grow (link g stack r) (r :: stack) rest
  | f, stack, .closing :: rest => grow f stack.tail rest
  | f, stack, .atom text :: rest =>
    let (g, r) := f.atom text
    grow (link g stack r) stack rest
where
  /-- Puts a new node below the innermost open list. -/
  link (f : Forest) (stack : List Ref) (r : Ref) : Forest :=
    match stack with
    | l :: _ => (f.append l r).toOption.getD f
    | [] => f

/-- Reads a text into the forest. The nodes that were made before a fault stay. -/
def parse (f : Forest) (text : String) : Forest × Except ParseError Ref :=
  let s := scan text
  let g := grow f [] s.tokens
  match s.fault with
  | some e => (g, .error e)
  | none => (g, .ok f.size)

mutual

def plant (f : Forest) : Sexp → Forest × Ref
  | .atom text => f.atom text
  | .list items =>
    let (g, r) := f.emptyList
    (plantAll g r items, r)

def plantAll (f : Forest) (list : Ref) : List Sexp → Forest
  | [] => f
  | item :: rest =>
    let (g, r) := plant f item
    plantAll ((g.append list r).toOption.getD g) list rest

end

end Forest

end Forager.Sexp
