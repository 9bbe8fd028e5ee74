import Acceptors.Alphabet
import Acceptors.StateTable

/-! The parts that the definitions of finite automata and of Turing machines have in common:
declared states, a declared alphabet and the states singled out by name. -/

namespace Acceptors.Declaration

def states (names : List String) : Except ParseError StateTable :=
  if names.isEmpty then .error (.inField "states" .noStates)
  else StateTable.ofNames names "states"

def alphabet (symbols : List Char) (field : String) : Except ParseError Alphabet :=
  (Alphabet.ofDistinct symbols).mapError fun c => .inField field (.duplicateSymbol c)

def marked (t : StateTable) (names : List String) (field : String) :
    Except ParseError (Array Bool) :=
  names.foldlM (fun marks name => do return marks.setIfInBounds (← t.resolve name field) true)
    (Array.replicate t.size false)

def stateField (state : String) : String := "delta." ++ state

def labelField (state : String) (label : Option Char) : String :=
  stateField state ++ "." ++ labelKey label

end Acceptors.Declaration
