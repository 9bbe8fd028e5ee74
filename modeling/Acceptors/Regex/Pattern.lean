import Acceptors.Regex.Expr
import Acceptors.Regex.Token

/-! Patterns as expressions, by the grammar

    union  ::= concat ("|" concat)*
    concat ::= repeat*
    repeat ::= atom "*"*
    atom   ::= SYMBOL | NAME | "(" union ")"

Tokens are taken from left to right. A frame holds what has been read of one union; a stack of them
holds the unions around it, each with the offset of the parenthesis that interrupted it. -/

namespace Acceptors.Regex

namespace Pattern

abbrev Scope := List (String × Expr)

/-- A union read in part: its finished branches and the items of the last one, newest first. -/
structure Frame where
  branches : List Expr
  items : List Expr
deriving DecidableEq, Repr

def concatOf : List Expr → Expr
  | [] => .empty
  | [e] => e
  | items => .concat items

def unionOf : List Expr → Expr
  | [e] => e
  | branches => .union branches

namespace Frame

def empty : Frame := ⟨[], []⟩

def push (f : Frame) (e : Expr) : Frame := { f with items := e :: f.items }

def branch (f : Frame) : Frame := ⟨concatOf f.items.reverse :: f.branches, []⟩

def close (f : Frame) : Expr := unionOf f.branch.branches.reverse

end Frame

/-- Reads the remaining tokens within `frame` and the frames of `stack`. -/
def read (scope : Scope) : List Token → Frame → List (Nat × Frame) → Except PatternError Expr
  | [], frame, [] => .ok frame.close
  | [], _, (offset, _) :: _ => .error ⟨.unmatchedOpen, offset⟩
  | ⟨kind, offset⟩ :: tokens, frame, stack =>
    match kind with
    | .symbol c => read scope tokens (frame.push (.literal c)) stack
    | .name text =>
      match scope.lookup text with
      | some target => read scope tokens (frame.push (.reference text target)) stack
      | none => .error ⟨.undefinedReference text, offset⟩
    | .opening => read scope tokens .empty ((offset, frame) :: stack)
    | .closing =>
      match stack with
      | [] => .error ⟨.unmatchedClose, offset⟩
      | (_, outer) :: stack => read scope tokens (outer.push frame.close) stack
    | .bar => read scope tokens frame.branch stack
    | .star =>
      match frame.items with
      | [] => .error ⟨.nothingToRepeat, offset⟩
      | e :: items => read scope tokens { frame with items := .star e :: items } stack

def parse (scope : Scope) (tokens : List Token) : Except PatternError Expr :=
  read scope tokens .empty []

end Pattern

end Acceptors.Regex
