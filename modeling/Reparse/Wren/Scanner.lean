import Reparse.Lex.Scanner
/-!
# Block comments of Wren

Block comments nest, so they are left to a scanner. A whole comment is one token, and no state is kept
between tokens. A comment that is not closed extends to the end of the input.
-/
namespace Reparse.Wren

/-- Where a scan of a comment stands. -/
inductive CommentPhase where
  /-- No comment is valid here. -/
  | refused
  /-- Nothing is read yet. -/
  | opening
  /-- A slash is read. -/
  | slash
  /-- Inside `depth` comments. -/
  | inside (depth : Nat)
  /-- Inside, right after a slash. -/
  | afterSlash (depth : Nat)
  /-- Inside, right after a star. -/
  | afterStar (depth : Nat)
  /-- All comments are closed. -/
  | closed
  deriving DecidableEq, Repr

namespace CommentPhase

def toMemory : CommentPhase → ScanMemory
  | refused => [0]
  | opening => [1]
  | slash => [2]
  | inside depth => [3, depth]
  | afterSlash depth => [4, depth]
  | afterStar depth => [5, depth]
  | closed => [6]

def ofMemory : ScanMemory → CommentPhase
  | [1] => opening
  | [2] => slash
  | [3, depth] => inside depth
  | [4, depth] => afterSlash depth
  | [5, depth] => afterStar depth
  | [6] => closed
  | _ => refused

theorem ofMemory_toMemory (p : CommentPhase) : ofMemory p.toMemory = p := by cases p <;> rfl

/-- The phase after a character inside `depth` comments. -/
def within (depth : Nat) (c : Char) : CommentPhase :=
  if c = '/' then afterSlash depth else if c = '*' then afterStar depth else inside depth

/-- The phase after a character; none if it rules a comment out or follows the end of one. -/
def next? : CommentPhase → Char → Option CommentPhase
  | refused, _ => none
  | opening, c => if c = '/' then some slash else none
  | slash, c => if c = '*' then some (inside 1) else none
  | inside depth, c => some (within depth c)
  | afterSlash depth, c => some (if c = '*' then inside (depth + 1) else within depth c)
  | afterStar depth, c =>
    some (if c = '/' then if depth ≤ 1 then closed else inside (depth - 1) else within depth c)
  | closed, _ => none

/-- Whether a token ends in this phase if nothing more is read. -/
def isComment : CommentPhase → Bool
  | refused | opening | slash => false
  | _ => true

end CommentPhase

/-- The block comment is the first external token. -/
def comment (phase : CommentPhase) : Bool × Option Scanned :=
  if phase.isComment then (true, some ⟨0, []⟩) else (false, none)

def scanner : Scanner where
  start _ valid :=
    (if valid.head?.getD false then CommentPhase.opening else .refused).toMemory
  onChar memory c :=
    let phase := CommentPhase.ofMemory memory
    match phase.next? c with
    | some phase => .advance false phase.toMemory
    | none =>
      let (mark, result) := comment phase
      .stop mark result
  onEnd memory := comment (.ofMemory memory)

end Reparse.Wren
