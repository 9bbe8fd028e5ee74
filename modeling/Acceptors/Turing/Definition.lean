import Acceptors.Declaration
import Acceptors.Turing.Basic

/-! Plain descriptions of Turing machines, and the machine that a well-formed one describes. -/

namespace Acceptors.Turing

structure Definition where
  states : List String
  inputAlphabet : List Char
  /-- Tape symbols besides the input symbols; the blank may be among them. -/
  tapeAlphabetExtra : List Char
  startState : String
  acceptState : String
  rejectState : String
  delta : List (String × Char × Action)
deriving DecidableEq, Repr

namespace Definition

def checkSymbols (alphabet : Alphabet) (field : String) : List Char → Except ParseError Unit
  | [] => .ok ()
  | c :: rest =>
    if c ∈ alphabet then checkSymbols alphabet field rest
    else .error (.inField field (.foreignTapeSymbol c))

def enter (states : StateTable) (alphabet : Alphabet) (rules : TransitionTable Rule) :
    String × Char × Action → Except ParseError (TransitionTable Rule)
  | (state, read, action) => do
    let field := Declaration.labelField state (some read)
    let s ← states.resolve state (Declaration.stateField state)
    checkSymbols alphabet field [read, action.write]
    let next ← states.resolve action.nextState field
    let i := alphabet.symbols.idxOf read
    if (rules.get? s i).isSome then .error (.inField field .duplicateTransition)
    else return rules.insert s i ⟨next, action.write, action.direction⟩

def tapeAlphabet (inputAlphabet extra : List Char) : Except ParseError Alphabet := do
  let declared := (inputAlphabet ++ extra).filter (· != blankSymbol)
  let alphabet ← Declaration.alphabet declared "tape_alphabet_extra"
  return alphabet.insert blankSymbol

def build (d : Definition) : Except ParseError TuringMachine := do
  let states ← Declaration.states d.states
  let inputAlphabet ← Declaration.alphabet d.inputAlphabet "input_alphabet"
  if blankSymbol ∈ inputAlphabet then .error (.inField "input_alphabet" .blankInput)
  else
    let tapeAlphabet ← tapeAlphabet d.inputAlphabet d.tapeAlphabetExtra
    let start ← states.resolve d.startState "start_state"
    let accept ← states.resolve d.acceptState "accept_state"
    let reject ← states.resolve d.rejectState "reject_state"
    if accept = reject then .error (.inField "reject_state" .sameHaltingStates)
    else
      let rules ← d.delta.foldlM (enter states tapeAlphabet)
        (TransitionTable.empty states.size tapeAlphabet.size)
      return ⟨states, inputAlphabet, tapeAlphabet, start, accept, reject, rules⟩

end Definition

end Acceptors.Turing
