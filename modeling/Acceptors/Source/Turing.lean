import Acceptors.Source.Fields
import Acceptors.Turing.Definition

/-! Documents that describe Turing machines. -/

namespace Acceptors

namespace Turing

/-- Reads `[next_state, write, direction]`. -/
def Action.ofNode (field : String) (n : Node) : Except ParseError Action := do
  match ← n.asList field with
  | [nextState, write, direction] =>
    let write ← Source.symbol field write
    let letter ← direction.asScalar field
    match Direction.ofLetter? letter with
    | none => .error (direction.error field (.unknownDirection letter))
    | some move => return ⟨← nextState.asScalar field, write, move⟩
  | items => .error (n.error field (.actionLength items.length))

namespace Definition

def readEntry (state field : String) (e : Entry) : Except ParseError (String × Char × Action) := do
  let read ← Source.keySymbol field e
  return (state, read, ← Action.ofNode field e.value)

def ofFields (f : Source.Fields) : Except ParseError Definition := do
  let delta ← Source.delta readEntry (f.optional? "delta")
  return {
    states := ← f.names "states"
    inputAlphabet := ← f.symbols "input_alphabet"
    tapeAlphabetExtra := ← f.optionalSymbols "tape_alphabet_extra"
    startState := ← f.scalar "start_state"
    acceptState := ← f.scalar "accept_state"
    rejectState := ← f.scalar "reject_state"
    delta }

end Definition

end Turing

def TuringMachine.ofText (text : String) : Except ParseError TuringMachine := do
  let fields ← Source.Fields.ofRoot .turingMachine (← Node.ofText text)
  let definition ← Turing.Definition.ofFields fields
  definition.build.mapError fields.places.locate

end Acceptors
