import Acceptors.Dfa.Definition
import Acceptors.Source.Fields

/-! Documents that describe deterministic automata. -/

namespace Acceptors.Dfa

namespace Definition

def readEntry (state field : String) (e : Entry) : Except ParseError (String × Char × String) := do
  let c ← Source.keySymbol field e
  return (state, c, ← e.value.asScalar field)

def ofFields (f : Source.Fields) : Except ParseError Definition := do
  let delta ← Source.delta readEntry (f.optional? "delta")
  return {
    states := ← f.names "states"
    inputAlphabet := ← f.symbols "input_alphabet"
    startState := ← f.scalar "start_state"
    acceptStates := ← f.optionalNames "accept_states"
    delta }

end Definition

def ofText (text : String) (requireTotal : Bool) : Except ParseError Dfa := do
  let fields ← Source.Fields.ofRoot .finiteAutomaton (← Node.ofText text)
  let definition ← Definition.ofFields fields
  (definition.build requireTotal).mapError fields.places.locate

end Acceptors.Dfa
