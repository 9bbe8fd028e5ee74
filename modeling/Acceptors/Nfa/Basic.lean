import Acceptors.Alphabet
import Acceptors.StateTable
import Acceptors.Search

/-! Nondeterministic finite automata with moves that read nothing. Each state has a sorted row of
edges without repeats, so automata with the same edges are equal whatever the order in which the
edges were given. -/

namespace Acceptors

structure Edge where
  label : Option Char
  target : Nat
deriving DecidableEq, Repr

namespace Edge

/-- Empty moves come first. -/
def labelRank : Option Char → Nat
  | none => 0
  | some c => c.toNat + 1

def before (a b : Edge) : Bool :=
  labelRank a.label < labelRank b.label ||
    (labelRank a.label == labelRank b.label && a.target < b.target)

def insert (e : Edge) : List Edge → List Edge
  | [] => [e]
  | f :: row => if e = f then f :: row else if before e f then e :: f :: row else f :: insert e row

end Edge

structure Nfa where
  states : StateTable
  alphabet : Alphabet
  start : Nat
  accepting : Array Bool
  rows : Array (List Edge)
deriving DecidableEq, Repr

namespace Nfa

def rowsOf (states : Nat) (edges : List (Nat × Edge)) : Array (List Edge) :=
  edges.foldl (fun rows e => rows.modify e.1 (Edge.insert e.2)) (Array.replicate states [])

def edges (n : Nfa) (s : Nat) : List Edge := n.rows.getD s []

def targets (n : Nfa) (label : Option Char) (s : Nat) : List Nat :=
  (n.edges s).filterMap fun e => if e.label = label then some e.target else none

def startState (n : Nfa) : String := n.states.name n.start

def stateIds (n : Nfa) : List Nat := List.range n.states.size

def acceptStates (n : Nfa) : List String :=
  (n.stateIds.filter fun s => n.accepting.getD s false).map n.states.name

/-- Every transition, by state, with the empty moves of a state before the others and those in the
order of the alphabet. -/
def transitions (n : Nfa) : List (String × Option Char × String) :=
  n.stateIds.flatMap fun s => (none :: n.alphabet.symbols.map some).flatMap fun label =>
    (n.targets label s).map fun t => (n.states.name s, label, n.states.name t)

end Nfa

end Acceptors
