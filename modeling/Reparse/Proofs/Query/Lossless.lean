import Mathlib
import Reparse.Query.Notation
/-!
# Syntax trees keep their source

The tokens of a query source are its characters cut into pieces, and reading them goes on to the last one. So the syntax
tree of a source, however malformed that is, holds every token once and in order, and spells the source.
-/
namespace Reparse.Query

/-! ## Tokens -/

/-- Tokens that stand one after the other from an offset on, none of them empty. -/
inductive Consecutive : Nat → List Token → Prop
  | nil (offset : Nat) : Consecutive offset []
  | cons {t : Token} {rest : List Token} : t.text ≠ "" → Consecutive (t.offset + t.size) rest →
    Consecutive t.offset (t :: rest)

/-- The tokens are the source, cut into pieces. -/
structure Cuts (source : String) (ts : List Token) : Prop where
  consecutive : Consecutive 0 ts
  joined : String.join (ts.map (·.text)) = source

namespace Token

theorem text_ne_empty (c : Char) (cs : List Char) : String.ofList (c :: cs) ≠ "" := by
  intro h
  have hChars := congrArg String.toList h
  simp at hChars

theorem consecutive_scanFrom (offset : Nat) (cs : List Char) : Consecutive offset (scanFrom offset cs) := by
  fun_induction scanFrom offset cs with
  | case1 offset => exact .nil offset
  | case2 offset c cs kind n hFirst text ih => exact .cons (t := ⟨kind, text, offset⟩) (text_ne_empty c _) ih

theorem join_scanFrom (offset : Nat) (cs : List Char) :
    String.join ((scanFrom offset cs).map (·.text)) = String.ofList cs := by
  fun_induction scanFrom offset cs with
  | case1 => rfl
  | case2 offset c cs kind n hFirst text ih =>
    rw [List.map_cons, String.join_cons, ih, ← String.ofList_append, List.cons_append, List.take_append_drop]

theorem cuts_scan (source : String) : Cuts source (scan source) where
  consecutive := consecutive_scanFrom 0 source.toList
  joined := by rw [scan, join_scanFrom, String.ofList_toList]

end Token

/-! ## Reading to the end -/

namespace Reading

variable {least more : Nat} {ts : List Token}

theorem rest_andThen (r : Reading least ts)
    (f : (rest : List Token) → rest.length + least ≤ ts.length → Reading more rest) :
    (r.andThen f).rest = (f r.rest r.shorter).rest := rfl

theorem rest_relax (r : Reading least ts) : r.relax.rest = r.rest := rfl

/-- A reading that leaves nothing holds all tokens. -/
theorem tokensOf_parts (r : Reading least ts) (h : r.rest = []) : SyntaxTree.tokensOf r.parts = ts := by
  have hCover := r.cover
  rwa [h, List.append_nil] at hCover

end Reading

/-- Patterns, predicates and what is rejected take a token at least, so reading ends at the end of the source only. -/
theorem toplevel_rest (stop : Nat) (ts : List Token) : (toplevel stop ts).rest = [] := by
  fun_induction toplevel stop ts with
  | case1 ts ih =>
    rw [Reading.rest_andThen]
    generalize (Reading.trivia ts).rest = rest, (Reading.trivia ts).shorter = hShorter
    match rest, hShorter with
    | [], _ => rfl
    | t :: rest, hShorter =>
      dsimp only
      rw [Reading.rest_relax, Reading.rest_andThen]
      exact ih t rest hShorter _ (Reading.shorter _)

/-! ## Open and closed nodes -/

/-- What is met on the way through a tree. -/
inductive Mark where
  | opened (kind : NodeKind)
  | token (t : Token)
  | closed

namespace SyntaxTree

mutual

/-- Where nodes are opened and closed, and the tokens between. -/
def marks : SyntaxTree → List Mark
  | token t => [.token t]
  | node kind children => .opened kind :: (marksOf children ++ [.closed])

def marksOf : List SyntaxTree → List Mark
  | [] => []
  | s :: rest => s.marks ++ marksOf rest

end

/-- The trees that marks describe: `before` are those done in the innermost open node, `above` are the nodes around it,
each with what was done before. None if a node is closed that was not opened, or stays open. -/
def ofMarks? : (before : List SyntaxTree) → (above : List (NodeKind × List SyntaxTree)) → List Mark →
    Option (List SyntaxTree)
  | before, [], [] => some before
  | _, _ :: _, [] => none
  | before, above, .opened kind :: rest => ofMarks? [] ((kind, before) :: above) rest
  | before, above, .token t :: rest => ofMarks? (before ++ [.token t]) above rest
  | before, (kind, outer) :: above, .closed :: rest => ofMarks? (outer ++ [.node kind before]) above rest
  | _, [], .closed :: _ => none

mutual

theorem ofMarks?_marks (before : List SyntaxTree) (above : List (NodeKind × List SyntaxTree)) (rest : List Mark) :
    ∀ s : SyntaxTree, ofMarks? before above (s.marks ++ rest) = ofMarks? (before ++ [s]) above rest
  | .token t => by rw [marks, List.singleton_append, ofMarks?]
  | .node kind children => by
    rw [marks, List.cons_append, ofMarks?, List.append_assoc, ofMarks?_marksOf [] _ _ children, List.nil_append,
      List.singleton_append, ofMarks?]

theorem ofMarks?_marksOf (before : List SyntaxTree) (above : List (NodeKind × List SyntaxTree)) (rest : List Mark) :
    ∀ children : List SyntaxTree, ofMarks? before above (marksOf children ++ rest) = ofMarks? (before ++ children) above rest
  | [] => by rw [marksOf, List.nil_append, List.append_nil]
  | s :: children => by
    rw [marksOf, List.append_assoc, ofMarks?_marks before above _ s, ofMarks?_marksOf _ above rest children,
      List.append_assoc, List.singleton_append]

end

end SyntaxTree

/-! ## The tree of a source -/

/-- The tokens of a source are the source, cut into pieces that are not empty, and its syntax tree is a query that holds
them from left to right, so that it spells the source. Whatever is opened on the way through the tree is closed again:
opening and closing alone give the tree back. The tree of other tokens holds these in the same way. -/
theorem ofSource_lossless (source : String) :
    Cuts source (Token.scan source) ∧ (∃ parts, (SyntaxTree.ofSource source).1 = .node .query parts) ∧
    (SyntaxTree.ofSource source).1.tokens = Token.scan source ∧ (SyntaxTree.ofSource source).1.text = source ∧
    SyntaxTree.ofMarks? [] [] (SyntaxTree.ofSource source).1.marks = some [(SyntaxTree.ofSource source).1] ∧
    ∀ (stop : Nat) (ts : List Token), SyntaxTree.tokensOf (toplevel stop ts).parts = ts := by
  have hTokens (stop : Nat) (ts : List Token) : SyntaxTree.tokensOf (toplevel stop ts).parts = ts :=
    (toplevel stop ts).tokensOf_parts (toplevel_rest stop ts)
  have hCuts := Token.cuts_scan source
  have hTree : (SyntaxTree.ofSource source).1.tokens = Token.scan source := by
    rw [← hTokens source.utf8ByteSize (Token.scan source)]
    rfl
  refine ⟨hCuts, ⟨_, rfl⟩, hTree, ?_, ?_, hTokens⟩
  · rw [SyntaxTree.text, hTree, hCuts.joined]
  · have hMarks := SyntaxTree.ofMarks?_marks [] [] [] (SyntaxTree.ofSource source).1
    rw [List.append_nil] at hMarks
    exact hMarks

end Reparse.Query
