import Reparse.Proofs.Parse.Coverage
import Reparse.Proofs.Tree.Ranges
import Reparse.Query.Match
/-!
# Queries restricted to ranges

A query is tried at the nodes of a walk, so with ranges it has the matches that start at a node which the restricted walk
keeps. An empty node at the end of one that is skipped is lost with it, even where it touches a range.
-/
namespace Reparse

open Subtree

namespace Query

end Query

/-- Any number of `a` with blanks around them, each before the rest of them. -/
def Grammar.trailing : Grammar where
  name := "trailing"
  tokens := [("blank", .chars ⟨#[(' ', ' ')], false⟩)]
  extras := ["blank"]
  rules := [⟨"s", [.literal "a", .symbol "s"], 0, .none⟩, ⟨"s", [], 0, .none⟩]

/-- The table of `Grammar.trailing`. -/
def Table.trailing : Table where
  name := "trailing"
  symbols := #[.endOfInput, ⟨"blank", true, true, true, false⟩, ⟨"a", true, false, false, false⟩,
    ⟨"s", true, true, false, false⟩]
  tokenCount := 3
  fields := #[]
  productions := #[⟨⟨3⟩, 2, []⟩, ⟨⟨3⟩, 0, []⟩]
  stateCount := 4
  actions := #[some (.reduce 1), none, some (.shift 1), some (.reduce 1), none, some (.shift 1), some .accept, none, none,
    some (.reduce 0), none, none]
  gotos := #[some 2, some 3, none, none]
  lexNodes := #[.accept ⟨1⟩, .chars ⟨#[(' ', ' ')], false⟩ 0, .accept ⟨2⟩, .chars ⟨#[('a', 'a')], false⟩ 2]
  tokenLex := #[.none, ⟨some 1, false, false⟩, ⟨some 3, true, false⟩]
  extras := [⟨1⟩]
  externals := []
  start := ⟨3⟩
  word := none

def Language.trailing : Language where
  handle := 0
  table := .trailing
  version := Blob.formatVersion
  modes := #[⟨[⟨1⟩, ⟨2⟩], []⟩, ⟨[⟨1⟩], []⟩]
  stateModes := #[0, 0, 1, 1]
  errorMode := ⟨[⟨1⟩, ⟨2⟩], []⟩
  keywords := []
  scanner := none

def Parser.trailing : Parser := .ofLanguage .trailing

end Reparse
