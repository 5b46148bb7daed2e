import Reparse.Proofs.Tree.Tiling
import Reparse.Tree.Basic
/-!
# What is seen of a tree

The visible nodes of a tree in preorder, each with its kind, its range and the field that it fills. A hidden node whose
production gives no fields shows what its children show, so that it can be taken away or put around them unseen.
-/
namespace Reparse

/-- What is seen of a visible node. -/
structure Sight where
  depth : Nat
  symbol : Symbol
  kind : String
  range : TextRange
  field : Option FieldId
  extra : Bool
  missing : Bool
  hasError : Bool
  deriving DecidableEq, Repr

namespace Subtree

def sight (l : Language) (depth start : Nat) (field : Option FieldId) (s : Subtree) : Sight where
  depth := depth
  symbol := s.symbol
  kind := l.symbolName s.symbol
  range := .ofSize start s.size
  field := field
  extra := s.isExtra
  missing := s.isMissing
  hasError := s.hasError

mutual

/-- A node and the visible nodes below it, each before its children. -/
def sights (l : Language) (depth start : Nat) (field : Option FieldId) : Subtree → List Sight
  | node info children =>
    sight l depth start field (node info children) ::
      sightsAmong l info (depth + 1) start none 0 info.offsets children

/-- Those at and below the children of `parent`; hidden ones are replaced by what is seen below them. -/
def sightsAmong (l : Language) (parent : NodeInfo) (depth start : Nat) (inherited : Option FieldId) :
    (index : Nat) → (offsets : List Nat) → List Subtree → List Sight
  | _, _, [] => []
  | _, [], _ => []
  | index, offset :: offsets, node info below :: rest =>
    let c := node info below
    let field := Node.fieldOf l parent inherited index c
    let here :=
      if l.isVisible info.symbol then sights l depth (start + offset) field c
      else if 0 < info.visibleChildren then sightsAmong l info depth (start + offset) field 0 info.offsets below
      else []
    here ++ sightsAmong l parent depth start inherited (Node.nextIndex index c) offsets rest

end

end Subtree

namespace Node

/-- The node and the visible nodes below it, each before its children. -/
def preorder (n : Node) (depth : Nat) (field : Option FieldId) : List Sight :=
  n.subtree.sights n.tree.language depth n.start field

end Node

namespace Subtree

variable {l : Language} {info : NodeInfo} {children : List Subtree}

/-- What a child shows that fills `field`: itself or what is seen below it. -/
def shows (l : Language) (depth start : Nat) (field : Option FieldId) (s : Subtree) : List Sight :=
  if l.isVisible s.symbol then s.sights l depth start field
  else if 0 < s.info.visibleChildren then
    sightsAmong l s.info depth start field 0 s.info.offsets s.children
  else []

/-- What subtrees in a row show that all fill `field`, extras apart. -/
def spread (l : Language) (depth start : Nat) (field : Option FieldId) : List Subtree → List Sight
  | [] => []
  | c :: rest =>
    c.shows l depth start (if c.isExtra then none else field) ++ spread l depth (start + c.size) field rest

theorem spread_append (l : Language) (depth start : Nat) (field : Option FieldId) (a b : List Subtree) :
    spread l depth start field (a ++ b) =
      spread l depth start field a ++ spread l depth (start + totalOf size a) field b := by
  induction a generalizing start with
  | nil => rfl
  | cons c rest ih => rw [List.cons_append, spread, spread, ih, totalOf_cons, List.append_assoc, Nat.add_assoc]

theorem spread_singleton (l : Language) (depth start : Nat) (field : Option FieldId) (s : Subtree) :
    spread l depth start field [s] = s.shows l depth start (if s.isExtra then none else field) :=
  List.append_nil _

theorem sightsAmong_cons (l : Language) (parent : NodeInfo) (depth start : Nat) (inherited : Option FieldId)
    (index offset : Nat) (offsets : List Nat) (c : Subtree) (rest : List Subtree) :
    sightsAmong l parent depth start inherited index (offset :: offsets) (c :: rest) =
      spread l depth (start + offset) (l.fieldOfChild parent index <|> inherited) [c] ++
        sightsAmong l parent depth start inherited (Node.nextIndex index c) offsets rest := by
  obtain ⟨info, below⟩ := c
  rw [sightsAmong, spread_singleton]
  rfl

/-- Where no child has a field of its own, all of them fill that of the parent. -/
theorem sightsAmong_eq_spread (hFields : ∀ i, l.fieldOfChild info i = none) (depth start : Nat)
    (field : Option FieldId) (index q : Nat) (children : List Subtree) :
    sightsAmong l info depth start field index (runningSums q (children.map size)) children =
      spread l depth (start + q) field children := by
  induction children generalizing index q with
  | nil => rw [sightsAmong, spread]
  | cons c rest ih =>
    rw [List.map_cons, runningSums, sightsAmong_cons, ih, hFields, spread_singleton, spread, Nat.add_assoc]
    rfl

theorem shows_eq_nil {s : Subtree} (h : shownChildren l s = 0) (depth start : Nat) (field : Option FieldId) :
    s.shows l depth start field = [] := by
  rw [shownChildren] at h
  rw [shows]
  split at h
  · cases h
  next hHidden => rw [if_neg hHidden, if_neg (by omega)]

theorem sightsAmong_eq_nil (h : totalOf (shownChildren l) children = 0) (parent : NodeInfo) (depth start : Nat)
    (inherited : Option FieldId) (index : Nat) (offsets : List Nat) :
    sightsAmong l parent depth start inherited index offsets children = [] := by
  induction children generalizing index offsets with
  | nil => rw [sightsAmong]
  | cons c rest ih =>
    rw [totalOf_cons, Nat.add_eq_zero_iff] at h
    cases offsets with
    | nil =>
      rw [sightsAmong]
      simp
    | cons offset offsets =>
      rw [sightsAmong_cons, spread_singleton, shows_eq_nil h.1, ih h.2, List.append_nil]

/-- A hidden node shows what is seen among its children. -/
theorem shows_of_hidden (hHidden : l.isVisible info.symbol = false)
    (hShown : children ≠ [] → info.visibleChildren = totalOf (shownChildren l) children) (depth start : Nat)
    (field : Option FieldId) :
    (node info children).shows l depth start field = sightsAmong l info depth start field 0 info.offsets children := by
  have hSymbol : l.isVisible (node info children).symbol = false := hHidden
  rw [shows, hSymbol, if_neg Bool.false_ne_true]
  split
  · rfl
  next hNone =>
    cases children with
    | nil => rw [sightsAmong]
    | cons c rest =>
      have hTotal := hShown (List.cons_ne_nil c rest)
      rw [sightsAmong_eq_nil (by rw [← hTotal]; exact Nat.eq_zero_of_not_pos hNone)]

/-- Children that show the same under any field, one by one, are seen the same under parents by one production. -/
theorem sightsAmong_congr {parent parent' : NodeInfo} (hParent : parent'.production = parent.production)
    {old new : List Subtree}
    (h : List.Forall₂ (fun new old => new.isExtra = old.isExtra ∧ new.size = old.size ∧
      ∀ depth start field, spread l depth start field [new] = spread l depth start field [old]) new old)
    (depth start : Nat) (inherited : Option FieldId) (index q : Nat) :
    sightsAmong l parent' depth start inherited index (runningSums q (new.map size)) new =
      sightsAmong l parent depth start inherited index (runningSums q (old.map size)) old := by
  induction h generalizing index q with
  | nil => rw [sightsAmong, sightsAmong]
  | @cons new old rest rest' hHere _ ih =>
    obtain ⟨hExtra, hSize, hSame⟩ := hHere
    have hField : l.fieldOfChild parent' index = l.fieldOfChild parent index := by
      rw [Language.fieldOfChild, Language.fieldOfChild, hParent]
    have hNext : Node.nextIndex index new = Node.nextIndex index old := by rw [Node.nextIndex, Node.nextIndex, hExtra]
    rw [List.map_cons, List.map_cons, runningSums, runningSums, sightsAmong_cons, sightsAmong_cons, hSame, hField, hNext,
      hSize, ih]

end Subtree
end Reparse
