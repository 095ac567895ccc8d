import Forager.Yaml.Scalar

/-!
# Reading YAML

`parse?` reads the first document of a text: scalars, sequences and mappings, in lines or in brackets, with anchors
and tags. An empty document reads as the empty scalar.
-/

namespace Forager.Yaml

set_option autoImplicit false

inductive Tag where
  /-- No tag, or a lone exclamation mark. -/
  | absent
  /-- A tag of the core language, by its name. -/
  | core (name : String)
  | other (name : String)
  deriving DecidableEq, Repr

inductive Node where
  /-- A scalar; `isPlain` tells that it was neither quoted nor a block. -/
  | scalar (isPlain : Bool) (tag : Tag) (text : String)
  | sequence (items : List Node)
  | mapping (entries : List (Node × Node))
  deriving Inhabited

def Node.empty : Node := .scalar true .absent ""

def Node.tagged (tag : Tag) : Node → Node
  | .scalar isPlain _ text => .scalar isPlain tag text
  | n => n

/-- What is still to be read, and where it begins. -/
structure Page where
  rest : List Char
  line : Nat := 0
  column : Nat := 0
  /-- Whether a key may begin here. -/
  keys : Bool := true
  anchors : List (String × Node) := []

namespace Page

def atEnd (p : Page) : Bool := p.rest.isEmpty || (p.column = 0 && startsMark p.rest)

/-- Whether a sign that must be followed by a blank stands here. -/
def signed (p : Page) (sign : Char) : Bool :=
  match p.rest with
  | c :: rest => c = sign && startsBlank rest
  | [] => false

def pass (p : Page) (c : Char) : Page :=
  if c = '\n' then { p with line := p.line + 1, column := 0 } else { p with column := p.column + 1 }

def moveTo (p : Page) (rest : List Char) : Page :=
  { (p.rest.take (p.rest.length - rest.length)).foldl pass p with rest }

/-- Skips blanks, comments and line breaks. Outside brackets a key may begin on every line, and no tab may stand where
a key may. -/
def skip (flow : Bool) (p : Page) : Page :=
  go false p.line p.column p.keys p.rest
where
  /-- Goes on, inside a comment or not. -/
  go (comment : Bool) (line column : Nat) (keys : Bool) : List Char → Page
    | [] => { p with rest := [], line, column, keys }
    | c :: rest =>
      if c = '\n' then go false (line + 1) 0 (keys || !flow) rest
      else if comment || c = ' ' || (c = '\t' && (flow || !keys)) then go comment line (column + 1) keys rest
      else if c = '#' then go true line (column + 1) keys rest
      else { p with rest := c :: rest, line, column, keys }

end Page

/-- A reader of a part of a page. -/
abbrev Reads := StateT Page Option

def passSign : Reads Unit := modify fun p => p.moveTo (p.rest.drop 1)

def setKeys (keys : Bool) : Reads Unit := modify fun p => { p with keys }

/-- Whether a character may stand in the name of an anchor. -/
def isNameChar (c : Char) : Bool := c.isAlphanum || c = '_' || c = '-'

/-- The name of an anchor, after its sign. -/
def anchorName : Reads String := do
  passSign
  let p ← get
  let name := p.rest.takeWhile isNameChar
  let rest := p.rest.dropWhile isNameChar
  let closed := startsBlank rest || rest.head?.any fun c => ['?', ':', ',', ']', '}', '%', '@', '\x60'].contains c
  if name.isEmpty || !closed then failure
  set (p.moveTo rest)
  return String.ofList name

def tagOf (source : List Char) : Tag :=
  let core := "tag:yaml.org,2002:".toList
  match source with
  | ['!'] => .absent
  | '!' :: '!' :: name => .core (String.ofList name)
  | '!' :: '<' :: uri =>
    let uri := uri.takeWhile (· ≠ '>')
    if core.isPrefixOf uri then .core (String.ofList (uri.drop core.length)) else .other (String.ofList uri)
  | _ => .other (String.ofList source)

/-- A tag, which ends at a blank. -/
def readTag (flow : Bool) : Reads Tag := do
  let p ← get
  let ends (c : Char) : Bool := isBlank c || c = '\n' || (flow && isFlowMark c)
  let source := p.rest.takeWhile (!ends ·)
  set (p.moveTo (p.rest.dropWhile (!ends ·)))
  return tagOf source

/-- What may stand in front of a node: an anchor and a tag. -/
structure Properties where
  anchor : Option String := none
  tag : Option Tag := none

def Properties.any (ps : Properties) : Bool := ps.anchor.isSome || ps.tag.isSome

/-- The properties on one line in front of a node. -/
def properties (flow : Bool) : (fuel : Nat) → Properties → Reads Properties
  | 0, _ => failure
  | fuel + 1, ps => do
    let p ← get
    match p.rest.head? with
    | some '&' =>
      if ps.anchor.isSome then failure
      let name ← anchorName
      let q ← get
      set (q.moveTo (q.rest.dropWhile isBlank))
      properties flow fuel { ps with anchor := some name }
    | some '!' =>
      if ps.tag.isSome then failure
      let tag ← readTag flow
      let q ← get
      set (q.moveTo (q.rest.dropWhile isBlank))
      properties flow fuel { ps with tag := some tag }
    | _ => return ps

/-- The node with its properties. An anchor is remembered for aliases. -/
def withProperties (ps : Properties) (n : Node) : Reads Node := do
  let n := match ps.tag with
    | some tag => n.tagged tag
    | none => n
  match ps.anchor with
  | some name => modify fun p => { p with anchors := (name, n) :: p.anchors }
  | none => pure ()
  return n

def aliased : Reads Node := do
  let name ← anchorName
  match (← get).anchors.lookup name with
  | some n => return n
  | none => failure

def scalarBy (isPlain : Bool) (read : List Char → Option (List Char × List Char)) : Reads Node := do
  let p ← get
  match read p.rest with
  | none => failure
  | some (text, rest) =>
    set { p.moveTo rest with keys := false }
    return .scalar isPlain .absent (String.ofList text)

def quotedScalar : Reads Node := do
  let p ← get
  scalarBy false fun
    | '\'' :: rest => singleQuoted (p.rest.length + 1) [] rest
    | '"' :: rest => doubleQuoted (p.rest.length + 1) [] [] rest
    | _ => none

def plainScalar (flow : Bool) (indent : Int) : Reads Node := do
  let p ← get
  if !beginsPlain flow p.rest then failure
  scalarBy true (plain flow indent (p.rest.length + 1))

/-! ## Brackets -/

def skipFlow : Reads Page := do
  modify (·.skip true)
  get

/-- Whether a closing bracket, a comma or a colon comes next, so that nothing is written here. -/
def flowGap (p : Page) : Bool := p.rest.head?.any fun c => c = ',' || c = ']' || c = '}' || c = ':'

mutual

def flowNode : (fuel : Nat) → Reads Node
  | 0 => failure
  | fuel + 1 => do
    let _ ← skipFlow
    let ps ← properties true fuel {}
    let p ← skipFlow
    if flowGap p then
      if ps.any then withProperties ps .empty else failure
    else match p.rest.head? with
      | some '[' => do
        passSign
        let items ← flowItems fuel
        withProperties ps (.sequence items)
      | some '{' => do
        passSign
        let entries ← flowEntries fuel
        withProperties ps (.mapping entries)
      | some '*' => if ps.any then failure else aliased
      | some '\'' | some '"' => do
        let n ← quotedScalar
        withProperties ps n
      | _ => do
        let n ← plainScalar true (-1)
        withProperties ps n

/-- The value after a key inside brackets, if there is one. The colon stands on the line of the key, which is `line` if
that matters. -/
def flowValue : (fuel : Nat) → (line : Option Nat) → Reads (Option Node)
  | 0, _ => failure
  | fuel + 1, line => do
    let p ← skipFlow
    if p.rest.head? = some ':' then
      if line.any (· ≠ p.line) then failure
      passSign
      let p ← skipFlow
      if flowGap p then return some .empty
      return some (← flowNode fuel)
    else return none

/-- An entry of a mapping, whose key may be announced by a question mark. -/
def flowEntry : (fuel : Nat) → Reads (Node × Option Node)
  | 0 => failure
  | fuel + 1 => do
    let p ← skipFlow
    let announced := p.rest.head? = some '?'
    if announced then passSign
    let p ← skipFlow
    let key ← if p.rest.head? = some ':' then pure Node.empty else flowNode fuel
    let value ← flowValue fuel (if announced then none else some p.line)
    return (key, value)

/-- The items of a sequence, after the opening bracket or a comma. -/
def flowItems : (fuel : Nat) → Reads (List Node)
  | 0 => failure
  | fuel + 1 => do
    let p ← skipFlow
    if p.rest.head? = some ']' then
      passSign
      return []
    let (key, value) ← flowEntry fuel
    let item := match value with
      | some v => .mapping [(key, v)]
      | none => key
    let p ← skipFlow
    match p.rest.head? with
    | some ',' =>
      passSign
      return item :: (← flowItems fuel)
    | some ']' =>
      passSign
      return [item]
    | _ => failure

/-- The entries of a mapping, after the opening bracket or a comma. -/
def flowEntries : (fuel : Nat) → Reads (List (Node × Node))
  | 0 => failure
  | fuel + 1 => do
    let p ← skipFlow
    if p.rest.head? = some '}' then
      passSign
      return []
    let (key, value) ← flowEntry fuel
    let entry := (key, value.getD .empty)
    let p ← skipFlow
    match p.rest.head? with
    | some ',' =>
      passSign
      return entry :: (← flowEntries fuel)
    | some '}' =>
      passSign
      return [entry]
    | _ => failure

end

/-! ## Lines -/

/-- A key on one line with its colon. -/
def keyNode (fuel : Nat) : Reads Node := do
  let start ← get
  let ps ← properties false fuel {}
  let p ← get
  let key ← match p.rest.head? with
    | some '*' => if ps.any then failure else aliased
    | some '\'' | some '"' => quotedScalar
    | some '[' | some '{' => flowNode fuel
    | _ =>
      if beginsPlain false p.rest then scalarBy true fun cs => some (plainLine false [] cs)
      else if p.signed ':' then pure .empty
      else failure
  let key ← withProperties ps key
  let p ← get
  let p := p.moveTo (p.rest.dropWhile isBlank)
  if p.line ≠ start.line || !p.signed ':' then failure
  set { p.moveTo (p.rest.drop 1) with keys := false }
  return key

def skipBlock : Reads Page := do
  modify (·.skip false)
  get

mutual

/-- A node on lines that are indented by more than `indent`. A sequence may be indented by just as much if `dashes`
says so. -/
def blockNode : (fuel : Nat) → (indent : Int) → (dashes : Bool) → Reads Node
  | 0, _, _ => failure
  | fuel + 1, indent, dashes => do
    let p ← skipBlock
    let inside : Bool := indent < p.column
    if p.atEnd then return .empty
    else if p.signed '-' then
      if p.keys && (inside || (dashes && p.column = indent)) then return .sequence (← blockItems fuel p.column)
      else if inside then failure
      else return .empty
    else if !inside then return .empty
    else if p.keys && (p.signed '?' || ((keyNode fuel).run p).isSome) then
      return .mapping (← blockEntries fuel p.column)
    else blockContent fuel indent dashes

/-- A node that is no sequence or mapping, or one with properties on a line of their own. -/
def blockContent : (fuel : Nat) → (indent : Int) → (dashes : Bool) → Reads Node
  | 0, _, _ => failure
  | fuel + 1, indent, dashes => do
    let line := (← get).line
    let ps ← properties false fuel {}
    let p ← skipBlock
    if ps.any && (p.atEnd || p.line ≠ line) then
      let n ← blockNode fuel indent dashes
      withProperties ps n
    else match p.rest with
      | '*' :: _ => if ps.any then failure else aliased
      | '\'' :: _ | '"' :: _ => do
        let n ← quotedScalar
        withProperties ps n
      | '[' :: _ | '{' :: _ => do
        let n ← flowNode fuel
        setKeys false
        withProperties ps n
      | '|' :: _ => do
        let n ← scalarBy false fun cs => blockScalar false indent (cs.drop 1)
        withProperties ps n
      | '>' :: _ => do
        let n ← scalarBy false fun cs => blockScalar true indent (cs.drop 1)
        withProperties ps n
      | _ => do
        let n ← plainScalar false indent
        withProperties ps n

/-- The items of a sequence whose dashes stand in a column. -/
def blockItems : (fuel column : Nat) → Reads (List Node)
  | 0, _ => failure
  | fuel + 1, column => do
    passSign
    setKeys true
    let item ← blockNode fuel column false
    let p ← skipBlock
    if p.atEnd || p.column < column then return [item]
    else if column < p.column || !p.keys then failure
    else if p.signed '-' then return item :: (← blockItems fuel column)
    else return [item]

/-- The entries of a mapping whose keys stand in a column. -/
def blockEntries : (fuel column : Nat) → Reads (List (Node × Node))
  | 0, _ => failure
  | fuel + 1, column => do
    let p ← skipBlock
    if p.atEnd || p.column < column then return []
    else if column < p.column || !p.keys || p.signed '-' then failure
    else if p.signed '?' then
      passSign
      setKeys true
      let key ← blockNode fuel column false
      let p ← skipBlock
      let value ← if p.signed ':' && p.column = column && p.keys then do
          passSign
          setKeys true
          blockNode fuel column false
        else pure .empty
      return (key, value) :: (← blockEntries fuel column)
    else
      let key ← keyNode fuel
      let value ← blockNode fuel column true
      return (key, value) :: (← blockEntries fuel column)

end

/-! ## Documents -/

/-- Whether a character may stand in a text. -/
def isAllowed (c : Char) : Bool :=
  c = '\t' || c = '\n' || (0x20 ≤ c.toNat && c.toNat ≤ 0x7E) ||
    (0xA0 ≤ c.toNat && c.toNat ≠ 0xFEFF && c.toNat ≠ 0xFFFE && c.toNat ≠ 0xFFFF)

/-- The text with one kind of line break. -/
def unifyBreaks : List Char → List Char
  | '\r' :: '\n' :: rest => '\n' :: unifyBreaks rest
  | '\r' :: rest => '\n' :: unifyBreaks rest
  | c :: rest => (if c.toNat = 0x85 || c.toNat = 0x2028 || c.toNat = 0x2029 then '\n' else c) :: unifyBreaks rest
  | [] => []

/-- The words of a line, up to a comment. -/
def wordsOf (line : List Char) : List String :=
  (((String.ofList line).splitToList isBlank).filter (· ≠ "")).takeWhile fun word => word.toList.head? ≠ some '#'

/-- Whether a line is a directive: the version of the language, or a handle for tags. -/
def isDirective (line : List Char) : Bool :=
  match wordsOf line with
  | ["%YAML", version] => version = "1.1"
  | ["%TAG", handle, _] => handle.toList.head? = some '!' && handle.toList.getLast? = some '!'
  | _ => false

/-- Passes the directives in front of a document, and tells whether there are any. -/
def skipDirectives : (fuel : Nat) → Reads Bool
  | 0 => failure
  | fuel + 1 => do
    let p ← skipBlock
    if p.column = 0 && p.rest.head? = some '%' then
      if !isDirective (p.rest.takeWhile (· ≠ '\n')) then failure
      set (p.moveTo (p.rest.dropWhile (· ≠ '\n')))
      let _ ← skipDirectives fuel
      return true
    else return false

/-- Whether the document may end here. What follows it has to begin like something, but is not read. -/
def mayEnd (p : Page) : Bool :=
  p.atEnd || match p.rest with
    | '%' :: _ => p.column = 0 && isDirective (p.rest.takeWhile (· ≠ '\n'))
    | '\'' :: rest => (singleQuoted (rest.length + 1) [] rest).isSome
    | '"' :: rest => (doubleQuoted (rest.length + 1) [] [] rest).isSome
    | c :: rest =>
      if ['-', '?', ':'].contains c && startsBlank rest then p.keys else !(['\t', '@', '\x60'].contains c)
    | [] => true

def document (fuel : Nat) : Reads Node := do
  let directives ← skipDirectives fuel
  let p ← skipBlock
  if p.column = 0 && startsMark p.rest && p.rest.head? = some '-' then
    set { p.moveTo (p.rest.drop 3) with keys := false }
  else if directives then failure
  let n ← blockNode fuel (-1) false
  if mayEnd (← skipBlock) then return n else failure

def parse? (text : String) : Option Node :=
  let cs := match unifyBreaks text.toList with
    | '\uFEFF' :: rest => rest
    | cs => cs
  if cs.all isAllowed then ((document (4 * cs.length + 16)).run { rest := cs }).map (·.1) else none

end Forager.Yaml
