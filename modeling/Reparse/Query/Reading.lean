import Reparse.Query.SyntaxTree
import Reparse.Diagnostic
/-!
# Readings

What a rule of the query grammar makes of the tokens in front of it. A reading loses no token: those of its
elements and those it leaves are the ones it was given.
-/
namespace Reparse.Query

open SyntaxTree

/-- A reading of `ts` that takes `least` tokens or more. -/
structure Reading (least : Nat) (ts : List Token) where
  parts : List SyntaxTree
  faults : List Diagnostic
  /-- The tokens left. -/
  rest : List Token
  cover : tokensOf parts ++ rest = ts
  shorter : rest.length + least ≤ ts.length

namespace Reading

variable {least more : Nat} {ts : List Token}

/-- Takes nothing. -/
def done (ts : List Token) : Reading 0 ts := ⟨[], [], ts, rfl, Nat.le_refl _⟩

/-- Takes a token in front of another reading. -/
def cons (t : Token) (r : Reading least ts) : Reading (least + 1) (t :: ts) where
  parts := .token t :: r.parts
  faults := r.faults
  rest := r.rest
  cover := by simp [tokensOf, tokens, r.cover]
  shorter := by have := r.shorter; simp; omega

def relax (r : Reading least ts) : Reading 0 ts :=
  { r with shorter := by have := r.shorter; omega }

def take (t : Token) (ts : List Token) : Reading 1 (t :: ts) := cons t (done ts)

/-- Takes the next token, if there is one. -/
def next : (ts : List Token) → Reading 0 ts
  | [] => done []
  | t :: ts => (take t ts).relax

/-- Goes on with the tokens left. -/
def andThen (r : Reading least ts)
    (f : (rest : List Token) → rest.length + least ≤ ts.length → Reading more rest) : Reading least ts :=
  let s := f r.rest r.shorter
  { parts := r.parts ++ s.parts
    faults := r.faults ++ s.faults
    rest := s.rest
    cover := by rw [tokensOf_append, List.append_assoc, s.cover, r.cover]
    shorter := by have := r.shorter; have := s.shorter; omega }

/-- Makes one node of the elements. -/
def wrap (kind : NodeKind) (r : Reading least ts) : Reading least ts where
  parts := [.node kind r.parts]
  faults := r.faults
  rest := r.rest
  cover := by simp [tokensOf, tokens, r.cover]
  shorter := r.shorter

/-- Takes blanks and comments. -/
def trivia : (ts : List Token) → Reading 0 ts
  | [] => done []
  | t :: ts =>
    if t.kind.isTrivia then (cons t (trivia ts)).relax else done (t :: ts)

/-- The bytes of the token in front, or the end of the source. -/
def here (stop : Nat) : List Token → TextRange
  | t :: _ => .ofSize t.offset t.size
  | [] => .empty stop

/-- Puts a fault at the token in front of the reading. -/
def blame (stop : Nat) (message : String) (r : Reading least ts) : Reading least ts :=
  { r with faults := .ofMessage .E0501 (here stop ts) message :: r.faults }

/-- Takes a token of a kind, or finds fault with the one that stands there. -/
def expect (stop : Nat) (kind : TokenKind) (what : String) (ts : List Token) : Reading 0 ts :=
  if ts.head?.any (·.kind == kind) then next ts else (done ts).blame stop ("expected " ++ what)

/-- Takes a token as an error. -/
def reject (stop : Nat) (message : String) (t : Token) (ts : List Token) : Reading 1 (t :: ts) :=
  ((take t ts).wrap .error).blame stop message

end Reading
end Reparse.Query
