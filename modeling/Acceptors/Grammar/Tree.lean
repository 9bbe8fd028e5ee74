import Acceptors.Failure

/-! Parse trees. A node for a nonterminal has the symbols of one of its bodies as children, or a
single leaf that marks the empty body. -/

namespace Acceptors

inductive Tree
  | node (symbol : String) (children : List Tree)
  | leaf (terminal : Char)
  | empty
deriving Repr, Inhabited

namespace Tree

def symbol : Tree → String
  | node symbol _ => symbol
  | leaf c => c.toString
  | empty => emptyText

def children : Tree → List Tree
  | node _ children => children
  | leaf _ => []
  | empty => []

mutual

def yield : Tree → List Char
  | node _ children => yieldOf children
  | leaf c => [c]
  | empty => []

def yieldOf : List Tree → List Char
  | [] => []
  | t :: ts => yield t ++ yieldOf ts

end

mutual

/-- The number of edges on the longest path from the root to a leaf. -/
def depth : Tree → Nat
  | node _ children => depthOf children
  | leaf _ => 0
  | empty => 0

def depthOf : List Tree → Nat
  | [] => 0
  | t :: ts => max (depth t + 1) (depthOf ts)

end

mutual

def nodeCount : Tree → Nat
  | node _ children => nodeCountOf children + 1
  | leaf _ => 0
  | empty => 0

def nodeCountOf : List Tree → Nat
  | [] => 0
  | t :: ts => nodeCount t + nodeCountOf ts

end

def formOf (frontier : List Tree) : String :=
  let text := String.join (frontier.map fun t =>
    match t with
    | empty => ""
    | t => t.symbol)
  if text.isEmpty then emptyText else text

def expandLeftmost? : List Tree → Option (List Tree)
  | [] => none
  | node _ children :: rest => some (children ++ rest)
  | t :: rest => (expandLeftmost? rest).map (t :: ·)

/-- The frontiers met while nodes are expanded from the left, at most `fuel` times. -/
def frontiers : Nat → List Tree → List (List Tree)
  | 0, frontier => [frontier]
  | fuel + 1, frontier =>
    match expandLeftmost? frontier with
    | some next => frontier :: frontiers fuel next
    | none => [frontier]

def leftmostDerivation (t : Tree) : List String := (frontiers t.nodeCount [t]).map formOf

end Tree

end Acceptors
