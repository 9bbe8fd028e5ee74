import Acceptors.Declaration
import Acceptors.Dfa.Basic

/-! Plain descriptions of deterministic automata, and the automaton that a well-formed one
describes. -/

namespace Acceptors.Dfa

structure Definition where
  states : List String
  inputAlphabet : List Char
  startState : String
  acceptStates : List String
  delta : List (String × Char × String)
deriving DecidableEq, Repr

namespace Definition

def enter (states : StateTable) (alphabet : Alphabet) (table : TransitionTable Nat) :
    String × Char × String → Except ParseError (TransitionTable Nat)
  | (state, c, target) => do
    let field := Declaration.labelField state (some c)
    let s ← states.resolve state (Declaration.stateField state)
    let some i := alphabet.symbols.idxOf? c | .error (.inField field (.foreignSymbol c))
    let t ← states.resolve target field
    if (table.get? s i).isSome then .error (.inField field .duplicateTransition)
    else return table.insert s i t

def checkTotal (d : Dfa) : Except ParseError Dfa :=
  match d.missingTransitions with
  | [] => .ok d
  | (state, c) :: _ => .error (.inField (Declaration.stateField state) (.missingTransition c))

def build (definition : Definition) (requireTotal : Bool) : Except ParseError Dfa := do
  let states ← Declaration.states definition.states
  let alphabet ← Declaration.alphabet definition.inputAlphabet "input_alphabet"
  let start ← states.resolve definition.startState "start_state"
  let accepting ← Declaration.marked states definition.acceptStates "accept_states"
  let table ← definition.delta.foldlM (enter states alphabet)
    (TransitionTable.empty states.size alphabet.size)
  let d : Dfa := ⟨states, alphabet, start, accepting, table⟩
  if requireTotal then checkTotal d else return d

end Definition

end Acceptors.Dfa
