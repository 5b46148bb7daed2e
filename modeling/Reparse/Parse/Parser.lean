import Reparse.Parse.Session
/-!
# Parsers

A parser parses texts of one language, one after the other, and makes a tree of each, errors included.
With an old tree, edited to fit the new text, it takes over what the edits left untouched, so the work
is in proportion to the edits.
-/
namespace Reparse

structure Parser where
  language : Language
  marks : LexMarks
  options : ParseOptions
  /-- Of the last parse. -/
  stats : ParseStats

namespace Parser

variable {σ : Type}

def ofLanguage (l : Language) : Parser := ⟨l, l.lexMarks, {}, {}⟩

/-- A tree with what has changed by its parse. -/
structure Parsed (σ : Type) where
  tree : Tree
  parser : Parser
  input : σ
  nextId : NodeId

/-- Balances the root of a parse that ran to its end. -/
def finish (env : SessionEnv σ) (root : Subtree) (status : ParseStatus) (nextId : NodeId) :
    Subtree × NodeId :=
  match status with
  | .complete => root.balanced ⟨env.language, fun id => env.firstId ≤ id⟩ nextId
  | .cancelled => (root, nextId)

/-- Parses the text of a host, reusing an old tree of the same language. New nodes are numbered from
`nextId` on. `limit` bounds the steps; a table may reduce without end. -/
def parse (p : Parser) (limit : Nat) (host : Host σ) (input : σ) (old : Option Tree) (nextId : NodeId) :
    Option (Parsed σ) :=
  let env : SessionEnv σ := ⟨p.language, host, p.options, nextId⟩
  let old := old.filter fun tree => tree.language.sameAs p.language
  (Session.run env limit (.start p.marks input old nextId)).map fun (root, status, s) =>
    let (root, nextId) := finish env root status s.nextId
    { tree := ⟨root, p.language, status⟩
      parser := { p with marks := s.lex.marks, stats := s.stats }
      input := s.lex.input
      nextId }

/-- A host over bytes at hand, with panic mode for recovery and nothing that stops a parse. -/
def plainHost (bytes : ByteArray) : Host Unit where
  source := .ofBytes bytes
  recover context input := (context.panicMode, input)
  isCancelled _ := false
  elapsed _ := 0

/-- The trees of several texts, parsed one by one. -/
def parseAll (l : Language) (limit : Nat) (nextId : NodeId) : List ByteArray → Option (List Tree)
  | [] => some []
  | bytes :: rest => do
    let parsed ← (ofLanguage l).parse limit (plainHost bytes) () none nextId
    pure (parsed.tree :: (← parseAll l limit parsed.nextId rest))

/-- One line on what the parser is; `isCancelled` tells whether parses are cancelled now. -/
def debugText (p : Parser) (isCancelled : Bool) : String :=
  let o := p.options
  let s := p.stats
  "Parser \x7b language: " ++ quoted p.language.table.name
    ++ ", options: ParseOptions \x7b cancellation: "
    ++ (if o.cancellable then
        "Some(CancellationToken \x7b is_cancelled: " ++ toString isCancelled ++ " \x7d)"
      else "None")
    ++ ", timeout: " ++ (match o.timeout with
      | some seconds => "Some(" ++ toString seconds ++ (if seconds = 0 then "ns)" else "s)")
      | none => "None")
    ++ ", cancellation_check_interval: " ++ toString o.checkInterval.toNat
    ++ ", max_pop_depth: " ++ toString o.maxPopDepth
    ++ " \x7d, stats: ParseStats \x7b tokens_lexed: " ++ toString s.tokensLexed
    ++ ", bytes_lexed: " ++ toString s.bytesLexed
    ++ ", subtrees_reused: " ++ toString s.subtreesReused
    ++ ", nodes_created: " ++ toString s.nodesCreated ++ " \x7d \x7d"

end Parser
end Reparse
