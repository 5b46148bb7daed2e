import Reparse.Tree.Subtree
import Reparse.Text.Lines
/-!
# Trees and nodes

A tree is a root with its language. A node is a subtree at its place in a tree; its children are the
visible nodes nearest below it, hidden nodes being replaced by their children. A child fills the field
that its parent's production gives it, or the field of the hidden node around it.
-/
namespace Reparse

inductive ParseStatus where
  | complete
  /-- Stopped early; the tree covers the rest of the text by an error. -/
  | cancelled
  deriving DecidableEq, Repr

def ParseStatus.text : ParseStatus → String
  | complete => "Complete"
  | cancelled => "Cancelled"

structure Tree where
  root : Subtree
  language : Language
  status : ParseStatus

structure Node where
  tree : Tree
  subtree : Subtree
  start : Nat

namespace Tree

def size (t : Tree) : Nat := t.root.size

def isEmpty (t : Tree) : Bool := t.size == 0

def isCancelled (t : Tree) : Bool := t.status == .cancelled

def rootNode (t : Tree) : Node := ⟨t, t.root, 0⟩

def isVisible (t : Tree) (s : Subtree) : Bool := t.language.isVisible s.symbol

end Tree

/-- The field of the `index`th child of `parent`, extras not counted. -/
def Language.fieldOfChild (l : Language) (parent : NodeInfo) (index : Nat) : Option FieldId :=
  if parent.production = noProduction then none
  else (l.table.productions[parent.production.toNat]?).bind fun p =>
    (p.fields.find? fun field => field.1.toNat == index).map (·.2)

namespace Node

def symbol (n : Node) : Symbol := n.subtree.symbol

def kind (n : Node) : String := n.tree.language.symbolName n.symbol

def isNamed (n : Node) : Bool := n.tree.language.isNamed n.symbol

def isExtra (n : Node) : Bool := n.subtree.isExtra

def isError (n : Node) : Bool := n.symbol.isError

def isMissing (n : Node) : Bool := n.subtree.isMissing

def hasError (n : Node) : Bool := n.subtree.hasError

def hasChanges (n : Node) : Bool := n.subtree.hasChanges

def stop (n : Node) : Nat := n.start + n.subtree.size

def range (n : Node) : TextRange := .ofSize n.start n.subtree.size

/-- Whether both are one subtree at one start. -/
def same (a b : Node) : Bool := a.subtree.same b.subtree && a.start == b.start

def childCount (n : Node) : Nat := n.subtree.info.visibleChildren

def namedChildCount (n : Node) : Nat := n.subtree.info.namedChildren

/-- Visible nodes below, and the node itself. -/
def descendantCount (n : Node) : Nat := n.subtree.info.visibleDescendants + 1

/-- The field of a child: none for an extra; otherwise that of the production, or else the one that the
hidden parent fills. -/
def fieldOf (l : Language) (parent : NodeInfo) (inherited : Option FieldId) (index : Nat) (c : Subtree) :
    Option FieldId :=
  if c.isExtra then none else l.fieldOfChild parent index <|> inherited

/-- The index that the next child has. -/
def nextIndex (index : Nat) (c : Subtree) : Nat := if c.isExtra then index else index + 1

/-- The visible nodes among `children` of `parent` and below the hidden ones, with their fields. `index`
counts the structural children before. -/
def shown (t : Tree) (parent : NodeInfo) (start : Nat) (inherited : Option FieldId) :
    (index : Nat) → (offsets : List Nat) → List Subtree → List (Node × Option FieldId)
  | _, _, [] => []
  | _, [], _ => []
  | index, offset :: offsets, .node info below :: rest =>
    let c := Subtree.node info below
    let field := fieldOf t.language parent inherited index c
    let here :=
      if t.isVisible c then [(⟨t, c, start + offset⟩, field)]
      else if 0 < info.visibleChildren then shown t info (start + offset) field 0 info.offsets below
      else []
    here ++ shown t parent start inherited (nextIndex index c) offsets rest

/-- The children with the fields that they fill. -/
def childrenWithFields (n : Node) : List (Node × Option FieldId) :=
  shown n.tree n.subtree.info n.start none 0 n.subtree.info.offsets n.subtree.children

def children (n : Node) : List Node := n.childrenWithFields.map (·.1)

def namedChildren (n : Node) : List Node := n.children.filter isNamed

def child? (n : Node) (i : Nat) : Option Node := n.children[i]?

def namedChild? (n : Node) (i : Nat) : Option Node := n.namedChildren[i]?

/-- The children that fill a field. -/
def childrenOfField (n : Node) (field : Option FieldId) : List Node :=
  match field with
  | none => []
  | some field => (n.childrenWithFields.filter fun c => c.2 == some field).map (·.1)

def childrenNamed (n : Node) (name : String) : List Node :=
  n.childrenOfField (n.tree.language.fieldNamed? name)

def fieldNameOfChild? (n : Node) (i : Nat) : Option String := do
  let (_, field) ← n.childrenWithFields[i]?
  n.tree.language.fieldName? (← field)

/-- The first child that ends after `byte`. -/
def firstChildFor? (n : Node) (byte : Nat) : Option Node := n.children.find? fun c => byte < c.stop

/-! ## Parents and siblings -/

mutual

/-- The visible node nearest above `target`, searched below `s`; `nearest` is the one nearest above the
children of `s`. -/
def parentIn (target nearest : Node) (start : Nat) : Subtree → Option Node
  | .node info children =>
    let isTarget (c : Nat × Subtree) : Bool := c.2.same target.subtree && start + c.1 == target.start
    if (info.offsets.zip children).any isTarget then some nearest
    else parentAmong target nearest start info.offsets children

/-- Searches the children that hold the range of `target`, in order. -/
def parentAmong (target nearest : Node) (start : Nat) : List Nat → List Subtree → Option Node
  | offset :: offsets, c :: rest =>
    let pos := start + offset
    if target.start < pos then none
    else if pos + c.size < target.stop ∨ c.size < target.subtree.size then
      parentAmong target nearest start offsets rest
    else
      let above := if target.tree.isVisible c then ⟨target.tree, c, pos⟩ else nearest
      parentIn target above pos c <|> parentAmong target nearest start offsets rest
  | _, _ => none

end

/-- The nearest visible ancestor, found by descending from the root. -/
def parent? (n : Node) : Option Node :=
  let root := n.tree.rootNode
  if n.same root then none else parentIn n root 0 root.subtree

/-- The siblings before the node, the nearest first, and those after it. -/
def siblings? (n : Node) : Option (List Node × List Node) := do
  let children := (← n.parent?).children
  let before := children.takeWhile fun c => !c.same n
  match children.drop before.length with
  | _ :: after => some (before.reverse, after)
  | [] => none

def nextSibling? (n : Node) : Option Node := do (← n.siblings?).2.head?

def prevSibling? (n : Node) : Option Node := do (← n.siblings?).1.head?

def nextNamedSibling? (n : Node) : Option Node := do (← n.siblings?).2.find? isNamed

def prevNamedSibling? (n : Node) : Option Node := do (← n.siblings?).1.find? isNamed

/-! ## Lookup by range -/

/-- How many children to pass over: the last child that starts at or before `offset` is the first to be
looked at. -/
def childrenBefore (offsets : List Nat) (offset : Nat) : Nat :=
  (offsets.takeWhile (· ≤ offset)).length - 1

mutual

/-- The smallest node below `s` that holds the range and is shown; `result` is the smallest one above. -/
def smallestIn (range : TextRange) (named : Bool) (result : Node) (start : Nat) : Subtree → Node
  | .node info children =>
    smallestAmong range named result start (childrenBefore info.offsets (range.start - start))
      info.offsets children

/-- Looks at the children after the first `skip`. -/
def smallestAmong (range : TextRange) (named : Bool) (result : Node) (start : Nat) :
    (skip : Nat) → List Nat → List Subtree → Node
  | skip + 1, _ :: offsets, _ :: rest => smallestAmong range named result start skip offsets rest
  | 0, offset :: offsets, c :: rest =>
    let first := start + offset
    let last := first + c.size
    if last < range.stop ∨ last ≤ range.start then smallestAmong range named result start 0 offsets rest
    else if range.start < first then result
    else
      let l := result.tree.language
      let result :=
        if l.isVisible c.symbol && (!named || l.isNamed c.symbol) then ⟨result.tree, c, first⟩
        else result
      smallestIn range named result first c
  | _, _, _ => result

end

/-- The smallest visible node that spans `range`, or the smallest named one. -/
def spanning? (n : Node) (range : TextRange) (named : Bool) : Option Node :=
  if n.range.covers range then some (smallestIn range named n n.start n.subtree) else none

/-! ## Texts -/

/-- The node's bytes in `source`, empty if they are no text there. -/
def textIn (n : Node) (source : String) : String :=
  let bytes := source.toUTF8
  if n.stop ≤ bytes.size then (String.fromUTF8? (bytes.extract n.start n.stop)).getD "" else ""

def startPoint (n : Node) (index : LineIndex) : Point := index.point n.start

def stopPoint (n : Node) (index : LineIndex) : Point := index.point n.stop

/-- A node's label: its kind, after its field. A missing node is written whole. -/
def label (l : Language) (field : Option FieldId) (s : Subtree) : String :=
  let name := l.symbolName s.symbol
  let field := match field.bind l.fieldName? with
    | some field => field ++ ": "
    | none => ""
  field ++
    if s.isMissing then
      "(MISSING " ++ (if l.isNamed s.symbol then name else "\"" ++ name ++ "\"") ++ ")"
    else "(" ++ name

mutual

/-- The named structure in parentheses, with fields. -/
def expression (l : Language) (field : Option FieldId) : Subtree → String
  | .node info children =>
    label l field (.node info children) ++
      if info.missing then "" else expressions l info none 0 children ++ ")"

/-- The expressions of the shown children, each after a blank. -/
def expressions (l : Language) (parent : NodeInfo) (inherited : Option FieldId) :
    (index : Nat) → List Subtree → String
  | _, [] => ""
  | index, .node info below :: rest =>
    let c := Subtree.node info below
    let field := fieldOf l parent inherited index c
    let here :=
      if l.isVisible info.symbol then
        if l.isNamed info.symbol || info.missing then " " ++ expression l field c else ""
      else if 0 < info.visibleChildren then expressions l info field 0 below
      else ""
    here ++ expressions l parent inherited (nextIndex index c) rest

end

def toExpression (n : Node) : String := expression n.tree.language none n.subtree

/-- Kind and range. -/
def debugText (n : Node) : String :=
  n.kind ++ " " ++ toString n.start ++ ".." ++ toString n.stop

end Node

/-- Symbol, size, number of children and whether an edit touched it. -/
def Subtree.debugText (s : Subtree) : String :=
  "Subtree \x7b symbol: Symbol(" ++ toString s.symbol.index ++ "), size: " ++ toString s.size
    ++ ", children: " ++ toString s.children.length ++ ", has_changes: " ++ toString s.hasChanges
    ++ " \x7d"

namespace Tree

def toExpression (t : Tree) : String := t.rootNode.toExpression

def debugText (t : Tree) : String :=
  "Tree \x7b language: " ++ quoted t.language.table.name ++ ", status: " ++ t.status.text
    ++ ", root: " ++ quoted t.toExpression ++ " \x7d"

end Tree
end Reparse
