import Acceptors.Declaration
import Acceptors.Nfa.Basic

/-! Plain descriptions of nondeterministic automata, and the automaton that a well-formed one
describes. -/

namespace Acceptors.Nfa

structure Definition where
  states : List String
  inputAlphabet : List Char
  startState : String
  acceptStates : List String
  /-- State, label and targets; an empty move has no label. -/
  delta : List (String × Option Char × List String)
deriving DecidableEq, Repr

namespace Definition

def checkLabel (alphabet : Alphabet) (field : String) : Option Char → Except ParseError Unit
  | none => .ok ()
  | some c => if c ∈ alphabet then .ok () else .error (.inField field (.foreignSymbol c))

def edgesOf (states : StateTable) (alphabet : Alphabet) :
    String × Option Char × List String → Except ParseError (List (Nat × Edge))
  | (state, label, targets) => do
    let field := Declaration.labelField state label
    let s ← states.resolve state (Declaration.stateField state)
    checkLabel alphabet field label
    targets.mapM fun target => do return (s, ⟨label, ← states.resolve target field⟩)

def build (definition : Definition) : Except ParseError Nfa := do
  let states ← Declaration.states definition.states
  let alphabet ← Declaration.alphabet definition.inputAlphabet "input_alphabet"
  let start ← states.resolve definition.startState "start_state"
  let accepting ← Declaration.marked states definition.acceptStates "accept_states"
  let edges ← definition.delta.mapM (edgesOf states alphabet)
  return ⟨states, alphabet, start, accepting, rowsOf states.size edges.flatten⟩

end Definition

end Acceptors.Nfa
