import Acceptors.Alphabet
import Acceptors.StateTable
import Acceptors.Search
import Acceptors.TransitionTable

/-! Deterministic finite automata. The transition table may be partial; without a transition the
automaton falls into an implicit dead state, written `none`. -/

namespace Acceptors

structure Dfa where
  states : StateTable
  alphabet : Alphabet
  start : Nat
  accepting : Array Bool
  table : TransitionTable Nat
deriving DecidableEq, Repr

namespace Dfa

structure Trace where
  input : List Char
  states : List (Option String)
  accepted : Bool
deriving DecidableEq, Repr

def column? (d : Dfa) (c : Char) : Option Nat := d.alphabet.symbols.idxOf? c

def next? (d : Dfa) (state : Nat) (c : Char) : Option Nat :=
  match d.column? c with
  | some i => d.table.get? state i
  | none => none

/-- A step from a state or from the dead state. -/
def step (d : Dfa) (state : Option Nat) (c : Char) : Option Nat := state.bind (d.next? · c)

def run (d : Dfa) (state : Option Nat) (word : List Char) : Option Nat := word.foldl d.step state

def isAccepting (d : Dfa) : Option Nat → Bool
  | some state => d.accepting.getD state false
  | none => false

def recognizes (d : Dfa) (word : List Char) : Bool := d.isAccepting (d.run (some d.start) word)

/-- Decides a word over the alphabet; any other word is refused. Nothing is read after the first
missing transition. -/
def accepts (d : Dfa) (word : List Char) : Except DomainError Bool :=
  (d.alphabet.tokenize word).map fun symbols => d.isAccepting (symbols.foldlM d.next? d.start)

def path (d : Dfa) (state : Option Nat) : List Char → List (Option Nat)
  | [] => [state]
  | c :: rest => state :: d.path (d.step state c) rest

def trace (d : Dfa) (word : List Char) : Except DomainError Trace :=
  (d.alphabet.tokenize word).map fun input =>
    ⟨input, (d.path (some d.start) input).map (·.map d.states.name), d.recognizes input⟩

def startState (d : Dfa) : String := d.states.name d.start

def stateIds (d : Dfa) : List Nat := List.range d.states.size

def acceptStates (d : Dfa) : List String :=
  (d.stateIds.filter fun s => d.isAccepting (some s)).map d.states.name

def isAcceptState (d : Dfa) (name : String) : Bool := d.isAccepting (d.states.id? name)

def transition? (d : Dfa) (name : String) (c : Char) : Option String := do
  let target ← d.next? (← d.states.id? name) c
  return d.states.name target

def transitions (d : Dfa) : List (String × Char × String) :=
  d.stateIds.flatMap fun s => d.alphabet.symbols.filterMap fun c =>
    (d.next? s c).map fun t => (d.states.name s, c, d.states.name t)

def missingTransitions (d : Dfa) : List (String × Char) :=
  d.stateIds.flatMap fun s =>
    (d.alphabet.symbols.filter fun c => (d.next? s c).isNone).map fun c => (d.states.name s, c)

/-- Whether there are as many transitions as pairs of a state and a symbol. -/
def isTotal (d : Dfa) : Bool := d.table.size == d.states.size * d.alphabet.size

def successors (d : Dfa) (state : Nat) : List Nat :=
  (List.range d.alphabet.size).filterMap (d.table.get? state)

def reachable (d : Dfa) : List Nat := Search.reachable d.states.size d.successors [d.start]

def reachableStates (d : Dfa) : List String := d.reachable.map d.states.name

end Dfa

end Acceptors
