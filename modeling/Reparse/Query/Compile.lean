import Reparse.Query.Basic
import Reparse.Query.Notation
/-!
# Compiling queries

Kinds, literals and fields of a syntax tree are looked up in the language, and captures get their numbers,
inner ones first.
-/
namespace Reparse.Query

open SyntaxTree

/-- What has been gathered so far. -/
structure Draft where
  captureNames : List String := []
  /-- Captures of the current pattern. -/
  bound : List Nat := []
  /-- Predicates of the current pattern, by their children. -/
  pending : List (List SyntaxTree) := []

abbrev Compile := StateT Draft (Except Error)

def fail {α : Type} (offset : Nat) (cause : Cause) : Compile α := throw ⟨cause, offset⟩

/-- The text of a string token without its quotes and escapes. -/
def unescape : List Char → List Char
  | [] => []
  | ['\\'] => ['\\']
  | '\\' :: c :: rest =>
    let c := match c with
      | 'n' => '\n'
      | 't' => '\t'
      | 'r' => '\r'
      | '0' => '\x00'
      | c => c
    c :: unescape rest
  | c :: rest => c :: unescape rest

def stringText (t : Token) : String := String.ofList (unescape (t.text.toList.drop 1).dropLast)

/-- The name of a capture. -/
def captureText (t : Token) : String := String.ofList (t.text.toList.drop 1)

def visibleSymbol? (l : Language) (name : String) (named : Bool) : Option Symbol :=
  (l.symbolNamed? name named).filter l.isVisible

def kindTest (l : Language) (t : Token) : Compile NodeTest :=
  match t.text with
  | "_" => return .named
  | "ERROR" => return .error
  | "MISSING" => return .missing
  | name =>
    match visibleSymbol? l name true with
    | some s => return .symbol s
    | none => fail t.offset (.unknownKind name)

def literalTest (l : Language) (t : Token) : Compile NodeTest :=
  match visibleSymbol? l (stringText t) false with
  | some s => return .symbol s
  | none => fail t.offset (.unknownLiteral (stringText t))

/-- The field that is named among `children`. -/
def fieldOf (l : Language) (children : List SyntaxTree) : Compile FieldId :=
  match ownToken? .ident children with
  | none => fail 0 (.unknownField "")
  | some t =>
    match l.fieldNamed? t.text with
    | some field => return field
    | none => fail t.offset (.unknownField t.text)

/-- The number of a capture, a new one for a new name. -/
def bindCapture (t : Token) : Compile Nat :=
  modifyGet fun d =>
    let name := captureText t
    match d.captureNames.idxOf? name with
    | some i => (i, { d with bound := i :: d.bound })
    | none =>
      let i := d.captureNames.length
      (i, { d with captureNames := d.captureNames ++ [name], bound := i :: d.bound })

/-- The captures of a pattern. -/
def bindCaptures (children : List SyntaxTree) : Compile (List Nat) :=
  ((ownTokens children).filter (·.kind == .capture)).mapM bindCapture

def quantifierOf (children : List SyntaxTree) : Quantifier :=
  match (ownTokens children).find? (·.kind.isQuantifier) with
  | some t =>
    match t.kind with
    | .question => .optional
    | .star => .star
    | _ => .plus
  | none => .one

/-- The inside of a node pattern or group. -/
structure Inside where
  items : List Item
  anchoredEnd : Bool
  absent : List FieldId

variable (l : Language)

mutual

/-- The step of a pattern with these children, its captures being still open. -/
def body : List SyntaxTree → Compile (List Nat → Step)
  | [] => fail 0 (.malformed "expected a pattern")
  | .node .nodePattern children :: _ => do
    let test ← match ownToken? .ident children with
      | some t => kindTest l t
      | none => pure .named
    let inside ← inside false children
    return .node test inside.items inside.anchoredEnd inside.absent
  | .node .anonymousPattern children :: _ => do
    let test ← match ownToken? .string children with
      | some t => literalTest l t
      | none => pure .any
    return .node test [] false []
  | .node .wildcardPattern _ :: _ => return .node .any [] false []
  | .node .alternation children :: _ => do
    let branches ← branchSteps children
    if branches.isEmpty then fail (SyntaxTree.node .alternation children).start .emptyAlternation
    else return .oneOf branches
  | _ :: rest => body rest

/-- The items among `children`; `anchored` says whether an anchor stands before them. -/
def inside (anchored : Bool) : List SyntaxTree → Compile Inside
  | [] => return ⟨[], anchored, []⟩
  | .node .anchor _ :: rest => inside true rest
  | .node .negatedField children :: rest => do
    let field ← fieldOf l children
    let more ← inside anchored rest
    return { more with absent := field :: more.absent }
  | .node .field children :: rest => do
    let field ← fieldOf l children
    let (step, quantifier) ← fieldStep children
    let more ← inside false rest
    return { more with items := .mk step quantifier (some field) anchored :: more.items }
  | .node .pattern children :: rest => do
    let step ← body children
    let step := step (← bindCaptures children)
    let more ← inside false rest
    return { more with items := .mk step (quantifierOf children) none anchored :: more.items }
  | .node .predicate children :: rest => do
    modify fun d => { d with pending := d.pending ++ [children] }
    inside anchored rest
  | _ :: rest => inside anchored rest

/-- The first pattern among `children`. -/
def fieldStep : List SyntaxTree → Compile (Step × Quantifier)
  | .node .pattern children :: _ => do
    let step ← body children
    return (step (← bindCaptures children), quantifierOf children)
  | _ :: rest => fieldStep rest
  | [] => fail 0 (.malformed "expected a pattern after the field name")

/-- All patterns among `children`; how often a branch may occur counts for nothing. -/
def branchSteps : List SyntaxTree → Compile (List Step)
  | [] => return []
  | .node .pattern children :: rest => do
    let step ← body children
    let step := step (← bindCaptures children)
    return step :: (← branchSteps rest)
  | _ :: rest => branchSteps rest

end

/-! ## Predicates -/

/-- An argument of a predicate; a capture has to be one of the pattern's. -/
def operand (t : Token) : Compile Operand := do
  match t.kind with
  | .capture =>
    let d ← get
    match d.captureNames.idxOf? (captureText t) with
    | some i => if d.bound.contains i then return .capture i
    | none => pure ()
    fail t.offset (.unknownCapture (captureText t))
  | .string => return .text (stringText t)
  | _ => return .text t.text

def isArgument (t : Token) : Bool := t.kind == .capture || t.kind == .string || t.kind == .ident

/-- The predicate with these children. -/
def predicateOf (children : List SyntaxTree) : Compile Predicate := do
  let offset := (SyntaxTree.node .predicate children).start
  let name := ((ownToken? .predicateName children).map (·.text)).getD ""
  let operands ← ((ownTokens children).filter isArgument).mapM operand
  match operands with
  | [first, second] =>
    match first with
    | .text _ => fail offset (.captureNeeded name)
    | .capture capture =>
      match name with
      | "#eq?" => return .equal capture second false
      | "#not-eq?" => return .equal capture second true
      | "#match?" | "#not-match?" =>
        match second with
        | .capture _ => fail offset (.stringNeeded name)
        | .text source =>
          match Regex.read? source with
          | some regex => return .occurs capture regex (name == "#not-match?")
          | none => fail offset (.invalidRegex name)
      | _ => fail offset (.unknownPredicate name)
  | _ => fail offset (.argumentCount name operands.length)

/-! ## Patterns -/

/-- The items of a pattern at the top, which may be a group. -/
def topItems (start : Nat) (children : List SyntaxTree) : Compile (List Item) := do
  let group := children.findSome? fun
    | .node .group inner => some inner
    | _ => none
  match group with
  | some inner =>
    if (ownTokens children).any fun t => t.kind.isQuantifier || t.kind == .capture then
      fail start .decoratedGroup
    let inside ← inside l false inner
    if let field :: _ := inside.absent then
      fail start (.looseNegation ((l.fieldName? field).getD ""))
    if inside.items.isEmpty then fail start .emptyGroup
    return inside.items
  | none =>
    let step ← body l children
    return [.mk (step (← bindCaptures children)) (quantifierOf children) none false]

/-- A pattern at the top; its predicates are read when all its captures are known. -/
def topPattern (start : Nat) (children : List SyntaxTree) : Compile Pattern := do
  modify fun d => { d with bound := [], pending := [] }
  let items ← topItems l start children
  let predicates ← (← get).pending.mapM predicateOf
  return ⟨items.head?.toList.map Item.asHead ++ items.tail, predicates, start⟩

/-- The patterns among the children of a query. -/
def patternsOf : List SyntaxTree → Compile (List Pattern)
  | [] => return []
  | s :: rest => do
    match s with
    | .node .pattern children =>
      let p ← topPattern l s.start children
      return p :: (← patternsOf rest)
    | .node .predicate _ => fail s.start .loosePredicate
    | _ => patternsOf rest

/-- The query that a source is for a language. -/
def compile (source : String) : Except Error Query :=
  let (tree, faults) := SyntaxTree.ofSource source
  match faults, tree with
  | fault :: _, _ => .error ⟨.malformed fault.message, fault.range.start⟩
  | [], .node _ children => do
    let (patterns, draft) ← (patternsOf l children).run {}
    return ⟨l, patterns, draft.captureNames⟩
  | [], .token _ => return ⟨l, [], []⟩

end Reparse.Query
