import Reparse.Text.Utf8
import Reparse.Text.Range
import Reparse.Text.Edit
import Reparse.Text.Lines
import Reparse.Text.Quoted
import Reparse.Diagnostic
import Reparse.Symbol
import Reparse.Lex.CharClass
import Reparse.Lex.Pattern
import Reparse.Lex.Automaton
import Reparse.Table.Basic
import Reparse.Table.Fault
import Reparse.Blob.Basic
import Reparse.Blob.Writer
import Reparse.Blob.Reader
import Reparse.Lex.Source
import Reparse.Lex.Scanner
import Reparse.Language
import Reparse.Grammar.Basic
import Reparse.Grammar.Lowered
import Reparse.Grammar.Terminals
import Reparse.Grammar.ItemSets
import Reparse.Grammar.Build
import Reparse.Wren.Scanner
import Reparse.Wren.Grammar
import Reparse.Lex.Match
import Reparse.Lex.Token
import Reparse.Tree.Subtree
import Reparse.Tree.Basic
import Reparse.Tree.Cursor
import Reparse.Tree.Edited
import Reparse.Tree.Changes
import Reparse.Tree.Problems
import Reparse.Parse.Options
import Reparse.Parse.Stack
import Reparse.Parse.Recovery
import Reparse.Parse.Reuse
import Reparse.Parse.Balance
import Reparse.Parse.Session
import Reparse.Parse.Parser
import Reparse.Text.WordChars
import Reparse.Text.LetterCase
import Reparse.Regex.CharSet
import Reparse.Regex.Basic
import Reparse.Regex.Reader
import Reparse.Query.Token
import Reparse.Query.SyntaxTree
import Reparse.Query.Reading
import Reparse.Query.Notation
import Reparse.Query.Error
import Reparse.Query.Basic
import Reparse.Query.Compile
import Reparse.Query.Search
import Reparse.Query.Match
import Reparse.Proofs.Grammar.Entries
import Reparse.Proofs.Grammar.Lowering
import Reparse.Proofs.Grammar.Recognition
import Reparse.Proofs.Language
import Reparse.Proofs.Lex.Automaton
import Reparse.Proofs.Lex.Bounds
import Reparse.Proofs.Lex.Construction
import Reparse.Proofs.Lex.Encoding
import Reparse.Proofs.Lex.Munch
import Reparse.Proofs.Lex.Window
import Reparse.Proofs.Tree.Damage
import Reparse.Proofs.Lex.Relex
import Reparse.Proofs.Parse.Reuse
import Reparse.Proofs.Parse.Tables
import Reparse.Proofs.Blob.Framing
import Reparse.Proofs.Blob.RoundTrip
import Reparse.Proofs.Lex.Searching
import Reparse.Proofs.Parse.Loaded
import Reparse.Proofs.Parse.Coverage
import Reparse.Proofs.Parse.Endless
import Reparse.Proofs.Parse.Apart
import Reparse.Proofs.Parse.Linked
import Reparse.Proofs.Lex.Chunks
import Reparse.Proofs.Lex.Declined
import Reparse.Proofs.Parse.Chunks
import Reparse.Proofs.Parse.Productions
import Reparse.Proofs.Tree.Recorded
import Reparse.Proofs.Tree.Sights
import Reparse.Proofs.Tree.Appearance
import Reparse.Proofs.Parse.Tracked
import Reparse.Proofs.Parse.Nodes
import Reparse.Proofs.Tree.Counted
import Reparse.Proofs.Tree.Views
import Reparse.Proofs.Tree.Fronts
import Reparse.Proofs.Parse.Opening
import Reparse.Proofs.Parse.FromScratch
import Reparse.Proofs.Parse.Again
import Reparse.Proofs.Query.Occurrences
import Reparse.Proofs.Query.Search
import Reparse.Proofs.Query.Lossless
import Reparse.Proofs.Tree.Ranges
import Reparse.Proofs.Query.Ranges
import Reparse.Proofs.Lex.Patterns
import Reparse.Proofs.Grammar.Operators
import Reparse.Proofs.Tree.Offsets
import Reparse.Proofs.Query.Limits
import Reparse.Proofs.Query.Single
import Reparse.Proofs.Parse.Aligned
import Reparse.Proofs.Parse.Repairs
import Reparse.Proofs.Grammar.Conflicts
import Reparse.Proofs.Grammar.Solutions
import Reparse.Proofs.Tree.Inventory
import Reparse.Proofs.Parse.Provenance
import Reparse.Proofs.Tree.Lineage
import Reparse.Proofs.Tree.Parents
import Reparse.Proofs.Tree.Changes
import Reparse.Proofs.Tree.Lookup
import Reparse.Proofs.Tree.Shallow
import Reparse.Proofs.Tree.Faults
import Reparse.Proofs.Lex.Reuse
import Reparse.Proofs.Parse.Cursor
import Reparse.Proofs.Parse.Repetitions
import Reparse.Proofs.Text.Lines
import Reparse.Proofs.Query.Predicates
import Reparse.Proofs.Lex.CharClass
