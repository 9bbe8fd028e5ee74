import Acceptors.Nfa.Basic

/-! Runs of a nondeterministic automaton on sets of live states. A set is the ascending list of its
members, so equal sets are equal lists. -/

namespace Acceptors.Nfa

abbrev StateSet := List Nat

structure Trace where
  input : List Char
  stateSets : List (List String)
  accepted : Bool
deriving DecidableEq, Repr

def closure (n : Nfa) (set : List Nat) : StateSet :=
  Search.reachable n.states.size (n.targets none) set

def startSet (n : Nfa) : StateSet := n.closure [n.start]

def step (n : Nfa) (set : StateSet) (c : Char) : StateSet :=
  n.closure (set.flatMap (n.targets (some c)))

def run (n : Nfa) (set : StateSet) (word : List Char) : StateSet := word.foldl n.step set

def isAccepting (n : Nfa) (set : StateSet) : Bool := set.any fun s => n.accepting.getD s false

def setNames (n : Nfa) (set : StateSet) : List String := set.map n.states.name

def epsilonClosure (n : Nfa) (names : List String) : List String :=
  n.setNames (n.closure (names.filterMap n.states.id?))

def recognizes (n : Nfa) (word : List Char) : Bool := n.isAccepting (n.run n.startSet word)

/-- Decides a word over any characters by what is live before it. Nothing is read when no state
is. -/
def acceptsFrom (n : Nfa) (set : StateSet) : List Char → Bool
  | [] => n.isAccepting set
  | c :: rest => if set.isEmpty then false else n.acceptsFrom (n.step set c) rest

def accepts (n : Nfa) (word : List Char) : Except DomainError Bool :=
  (n.alphabet.tokenize word).map (n.acceptsFrom n.startSet)

def path (n : Nfa) (set : StateSet) : List Char → List StateSet
  | [] => [set]
  | c :: rest => set :: n.path (n.step set c) rest

def traceOf (n : Nfa) (word : List Char) : Trace :=
  ⟨word, (n.path n.startSet word).map n.setNames, n.recognizes word⟩

def trace (n : Nfa) (word : List Char) : Except DomainError Trace :=
  (n.alphabet.tokenize word).map n.traceOf

/-- Where the symbols lead from a state, by way of the empty moves after them too. -/
def successors (n : Nfa) (s : Nat) : List Nat := n.alphabet.symbols.flatMap (n.step [s])

def reachable (n : Nfa) : List Nat := Search.reachable n.states.size n.successors n.startSet

def reachableStates (n : Nfa) : List String := n.setNames n.reachable

end Acceptors.Nfa
