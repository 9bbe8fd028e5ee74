import Acceptors.Nfa.Definition
import Acceptors.Source.Fields

/-! Documents that describe nondeterministic automata. -/

namespace Acceptors.Nfa

namespace Definition

/-- The moves of one label. The empty key and the marker of the empty word label empty moves. -/
def readEntry (state field : String) (e : Entry) :
    Except ParseError (String × Option Char × List String) := do
  let label ←
    if e.key.isEmpty || e.key == emptyText then Except.ok none
    else (Source.keySymbol field e).map some
  return (state, label, ← Source.names field e.value)

def ofFields (f : Source.Fields) : Except ParseError Definition := do
  let delta ← Source.delta readEntry (f.optional? "delta")
  return {
    states := ← f.names "states"
    inputAlphabet := ← f.symbols "input_alphabet"
    startState := ← f.scalar "start_state"
    acceptStates := ← f.optionalNames "accept_states"
    delta }

end Definition

def ofText (text : String) : Except ParseError Nfa := do
  let fields ← Source.Fields.ofRoot .finiteAutomaton (← Node.ofText text)
  let definition ← Definition.ofFields fields
  definition.build.mapError fields.places.locate

end Acceptors.Nfa
