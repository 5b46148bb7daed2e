import Reparse.Grammar.Build
import Reparse.Language
import Reparse.Wren.Scanner
/-!
# The Wren language

Variables, control flow, imports, classes with their members and attributes, and expressions with the
precedences of their operators. White space, line comments and nested block comments are extras, and
identifiers are words, so keywords are reserved. String interpolation, block arguments and
newline-terminated statements are left out.
-/
namespace Reparse.Wren

open Pattern (literal seq choice star plus optional oneOf noneOf)

/-! ## Tokens -/

def digit : Pattern := oneOf [('0', '9')]

def digits : Pattern := plus digit

def letter : Pattern := oneOf [('a', 'z'), ('A', 'Z')]

def nameRest : Pattern := star (oneOf [('a', 'z'), ('A', 'Z'), ('0', '9'), ('_', '_')])

def text (s : String) : Pattern := literal s.toList

def number : Pattern :=
  choice [
    seq [text "0x", plus (oneOf [('0', '9'), ('a', 'f'), ('A', 'F')])],
    seq [
      digits,
      optional (seq [.char '.', digits]),
      optional (seq [
        oneOf [('e', 'e'), ('E', 'E')], optional (oneOf [('+', '+'), ('-', '-')]), digits])]]

def string : Pattern :=
  seq [
    .char '"',
    star (choice [
      noneOf [('"', '"'), ('\\', '\\'), ('\n', '\n')],
      seq [.char '\\', .any]]),
    .char '"']

def rawString : Pattern :=
  let other := noneOf [('"', '"')]
  seq [
    text "\"\"\"",
    star (choice [other, seq [.char '"', other], seq [text "\"\"", other]]),
    text "\"\"\""]

def restOfLine : Pattern := star (noneOf [('\n', '\n')])

def tokens : List (String × Pattern) := [
  ("identifier", seq [letter, nameRest]),
  ("number", number),
  ("string", string),
  ("line_comment", seq [text "//", restOfLine]),
  ("_whitespace", plus (oneOf [(' ', ' '), ('\t', '\t'), ('\r', '\r'), ('\n', '\n')])),
  ("field", seq [.char '_', letter, nameRest]),
  ("static_field", seq [text "__", oneOf [('a', 'z'), ('A', 'Z'), ('_', '_')], nameRest]),
  ("raw_string", rawString),
  ("shebang", seq [text "#!", restOfLine])]

/-! ## Rules -/

def sym (name : String) : Item := .symbol name

def lit (text : String) : Item := .literal text

/-- A child of kind `kind` under a field. -/
def sub (field kind : String) : Item := .field field (sym kind)

def identifier (field : String) : Item := sub field "identifier"

def expression (field : String) : Item := sub field "_expression"

def operator (text : String) : Item := .field "operator" (lit text)

def body : Item := sub "body" "method_body"

/-- A rule without precedence. -/
def rule (lhs : String) (items : List Item) : Rule := { lhs, items }

/-- One rule per kind, each with this kind alone. -/
def oneOfKinds (lhs : String) (kinds : List String) : List Rule :=
  kinds.map fun kind => rule lhs [sym kind]

/-- One or more of `kind` with commas between them. -/
def commaSeparated (lhs kind : String) : List Rule := [
  rule lhs [sym kind],
  rule lhs [sym lhs, lit ",", sym kind]]

def statementKinds : List String := [
  "var_statement", "if_statement", "while_statement", "for_statement", "return_statement",
  "break_statement", "continue_statement", "block", "expression_statement", "class_definition",
  "import_statement"]

def ifHead : List Item := [
  lit "if", lit "(", expression "condition", lit ")", sub "consequence" "_statement"]

def statements : List Rule := [
    rule "source_file" [],
    rule "source_file" [sym "_statements"],
    rule "source_file" [sym "shebang"],
    rule "source_file" [sym "shebang", sym "_statements"]]
  ++ oneOfKinds "_statement" statementKinds
  ++ [
    rule "var_statement" [lit "var", identifier "name"],
    rule "var_statement" [lit "var", identifier "name", lit "=", expression "value"],
    rule "expression_statement" [sym "_expression"],
    ⟨"if_statement", ifHead, 0, .right⟩,
    ⟨"if_statement", ifHead ++ [lit "else", sub "alternative" "_statement"], 0, .right⟩,
    rule "while_statement" [
      lit "while", lit "(", expression "condition", lit ")", sub "body" "_statement"],
    rule "for_statement" [
      lit "for", lit "(", identifier "variable", lit "in", expression "iterator", lit ")",
      sub "body" "_statement"],
    ⟨"return_statement", [lit "return"], 0, .right⟩,
    ⟨"return_statement", [lit "return", expression "value"], 0, .right⟩,
    rule "break_statement" [lit "break"],
    rule "continue_statement" [lit "continue"],
    rule "block" [lit "\x7b", lit "\x7d"],
    rule "block" [lit "\x7b", sym "_statements", lit "\x7d"]]

/-- Binary operators with their precedences. -/
def binaryOperators : List (String × Int) := [
  ("==", 5), ("!=", 5), ("<", 7), ("<=", 7), (">", 7), (">=", 7), ("+", 13), ("-", 13), ("*", 14),
  ("/", 14), ("%", 14), ("..", 12), ("...", 12), ("<<", 11), (">>", 11), ("&", 10), ("^", 9),
  ("|", 8), ("is", 6)]

def logicalOperators : List (String × Int) := [("||", 3), ("&&", 4)]

/-- Prefix operators bind tighter than any binary one. -/
def prefixLevel : Int := 15

/-- Calls and subscripts bind tightest. -/
def callLevel : Int := 16

def assignment (target : String) : Rule :=
  ⟨"assignment_expression", [sub "left" target, lit "=", expression "right"], 1, .right⟩

def binary (lhs : String) (op : String × Int) : Rule :=
  ⟨lhs, [expression "left", operator op.1, expression "right"], op.2, .left⟩

def unary (op : String) : Rule :=
  ⟨"unary_expression", [operator op, expression "operand"], prefixLevel, .none⟩

def expressions : List Rule :=
  oneOfKinds "_expression" [
    "identifier", "number", "string", "boolean", "null", "assignment_expression",
    "binary_expression", "unary_expression", "call_expression", "parenthesized_expression"]
  ++ [assignment "identifier"]
  ++ binaryOperators.map (binary "binary_expression")
  ++ ["-", "!"].map unary
  ++ [
    ⟨"call_expression", [identifier "function", sub "arguments" "argument_list"], callLevel, .none⟩,
    ⟨"argument_list", [lit "(", lit ")"], callLevel, .none⟩,
    ⟨"argument_list", [lit "(", sym "_arguments", lit ")"], callLevel, .none⟩]
  ++ commaSeparated "_arguments" "_expression"
  ++ [
    rule "parenthesized_expression" [lit "(", sym "_expression", lit ")"],
    rule "boolean" [lit "true"],
    rule "boolean" [lit "false"],
    rule "null" [lit "null"]]
  ++ oneOfKinds "_expression" [
    "field", "static_field", "raw_string", "this", "super_expression", "logical_expression",
    "conditional_expression", "method_call_expression", "subscript_expression", "list_literal",
    "map_literal"]
  ++ ["field", "static_field", "method_call_expression", "subscript_expression"].map assignment
  ++ logicalOperators.map (binary "logical_expression")
  ++ [
    unary "~",
    ⟨"conditional_expression",
      [expression "condition", lit "?", expression "consequence", lit ":", expression "alternative"],
      2, .right⟩,
    ⟨"method_call_expression", [expression "receiver", lit ".", identifier "method"],
      callLevel, .right⟩,
    ⟨"method_call_expression",
      [expression "receiver", lit ".", identifier "method", sub "arguments" "argument_list"],
      callLevel, .left⟩,
    ⟨"subscript_expression", [expression "receiver", lit "[", sym "_arguments", lit "]"],
      callLevel, .left⟩,
    rule "this" [lit "this"],
    ⟨"super_expression", [lit "super"], -1, .none⟩,
    rule "super_expression" [lit "super", lit ".", identifier "method"],
    rule "super_expression" [
      lit "super", lit ".", identifier "method", sub "arguments" "argument_list"],
    rule "super_expression" [lit "super", sub "arguments" "argument_list"],
    rule "list_literal" [lit "[", lit "]"],
    rule "list_literal" [lit "[", sym "_arguments", lit "]"],
    rule "list_literal" [lit "[", sym "_arguments", lit ",", lit "]"],
    rule "map_literal" [lit "\x7b", lit "\x7d"],
    rule "map_literal" [lit "\x7b", sym "_map_entries", lit "\x7d"],
    rule "map_literal" [lit "\x7b", sym "_map_entries", lit ",", lit "\x7d"]]
  ++ commaSeparated "_map_entries" "map_entry"
  ++ [rule "map_entry" [expression "key", lit ":", expression "value"]]

def imports : List Rule := [
    ⟨"import_statement", [lit "import", sub "path" "string"], 0, .right⟩,
    ⟨"import_statement",
      [lit "import", sub "path" "string", lit "for", sub "variables" "import_variable_list"],
      0, .right⟩,
    rule "import_variable_list" [sym "_import_variables"]]
  ++ commaSeparated "_import_variables" "import_variable"
  ++ [
    rule "import_variable" [identifier "name"],
    rule "import_variable" [identifier "name", lit "as", identifier "alias"]]

/-- `items` if wanted. -/
def given (wanted : Bool) (items : List Item) : List Item := if wanted then items else []

/-- Attributes, `foreign`, the name, a superclass and members; all but the name may be absent. -/
def classDefinition (attributes foreign superclass members : Bool) : Rule :=
  rule "class_definition" (
    given attributes [sym "_attributes"] ++ given foreign [lit "foreign"]
      ++ [lit "class", identifier "name"] ++ given superclass [lit "is", identifier "superclass"]
      ++ [lit "\x7b"] ++ given members [sym "_class_members"] ++ [lit "\x7d"])

def classDefinitions : List Rule :=
  let choices := [false, true]
  choices.flatMap fun attributes => choices.flatMap fun foreign =>
    choices.flatMap fun superclass => choices.map fun members =>
      classDefinition attributes foreign superclass members

def attributes (marker : String) : List Rule := [
  rule "attribute" [lit marker, identifier "name"],
  rule "attribute" [lit marker, identifier "name", lit "=", sub "value" "_attribute_value"],
  rule "attribute" [lit marker, identifier "name", sym "attribute_group"]]

def attributeGroups : List Rule :=
  [rule "attribute_group" [lit "(", sym "_attribute_entries", lit ")"]]
  ++ commaSeparated "_attribute_entries" "attribute_entry"
  ++ [
    rule "attribute_entry" [identifier "key"],
    rule "attribute_entry" [identifier "key", lit "=", sub "value" "_attribute_value"]]
  ++ oneOfKinds "_attribute_value" ["identifier", "string", "boolean", "number"]

/-- What may stand before a member: attributes, `static`, both or nothing. -/
def memberHeads : List (List Item) := [
  [], [sym "_attributes"], [lit "static"], [sym "_attributes", lit "static"]]

def constructorDefinition (attributes parameters : Bool) : Rule :=
  rule "constructor_definition" (
    given attributes [sym "_attributes"] ++ [lit "construct", identifier "name"]
      ++ given parameters [sub "parameters" "parameter_list"] ++ [body])

/-- The operators that a class may define between two operands. -/
def operatorMethods : List String := [
  "+", "-", "*", "/", "%", "<", ">", "<=", ">=", "==", "!=", "&", "|", "^", "<<", ">>", "..", "...",
  "is"]

def methods : List Rule :=
  oneOfKinds "_method" [
    "getter_definition", "setter_definition", "named_method", "operator_method",
    "prefix_operator_method", "subscript_method", "subscript_setter_method"]
  ++ [
    rule "getter_definition" [identifier "name", body],
    rule "setter_definition" [
      identifier "name", lit "=", lit "(", identifier "parameter", lit ")", body],
    rule "named_method" [identifier "name", sub "parameters" "parameter_list", body]]
  ++ operatorMethods.map (fun op =>
    rule "operator_method" [operator op, lit "(", identifier "parameter", lit ")", body])
  ++ ["-", "!", "~"].map (fun op => rule "prefix_operator_method" [operator op, body])
  ++ [
    rule "subscript_method" [
      lit "[", sub "parameters" "subscript_parameter_list", lit "]", body],
    rule "subscript_setter_method" [
      lit "[", sub "parameters" "subscript_parameter_list", lit "]", lit "=", lit "(",
      identifier "value_parameter", lit ")", body],
    rule "subscript_parameter_list" [sym "_parameters"],
    rule "_foreign_method" [sym "foreign_named_method"],
    rule "_foreign_method" [sym "foreign_getter"],
    rule "foreign_named_method" [identifier "name", sub "parameters" "parameter_list"],
    rule "foreign_getter" [identifier "name"],
    rule "parameter_list" [lit "(", lit ")"],
    rule "parameter_list" [lit "(", sym "_parameters", lit ")"]]
  ++ commaSeparated "_parameters" "identifier"
  ++ [
    rule "method_body" [lit "\x7b", lit "\x7d"],
    rule "method_body" [lit "\x7b", sym "_statements", lit "\x7d"]]

def classes : List Rule :=
  classDefinitions
  ++ attributes "#" ++ attributes "#!" ++ attributeGroups
  ++ oneOfKinds "_class_member" ["method_definition", "constructor_definition", "foreign_method"]
  ++ memberHeads.map (fun head => rule "method_definition" (head ++ [sym "_method"]))
  ++ memberHeads.map (fun head =>
    rule "foreign_method" (head ++ [lit "foreign", sym "_foreign_method"]))
  ++ [
    constructorDefinition false false, constructorDefinition false true,
    constructorDefinition true false, constructorDefinition true true]
  ++ methods

def grammar : Grammar where
  name := "wren"
  tokens := tokens
  externals := ["block_comment"]
  extras := ["_whitespace", "line_comment", "block_comment"]
  rules := statements ++ expressions ++ imports ++ classes
  repeats := [
    ⟨"_statements", "_statement"⟩, ⟨"_attributes", "attribute"⟩, ⟨"_class_members", "_class_member"⟩]
  start := some "source_file"
  word := some "identifier"

/-! ## The compiled language -/

/-- The table of the grammar. -/
def table : Except BuildError Table := grammar.build

/-- The compiled bytes of the grammar. -/
def bytes : List UInt8 :=
  match table with
  | .ok table => Blob.encode table
  | .error _ => []

/-- The language under a handle, with the scanner for its comments. -/
def language (handle : Nat) : Except LoadError Language := do
  pure ((← Language.load handle bytes).withScanner scanner)

end Reparse.Wren
