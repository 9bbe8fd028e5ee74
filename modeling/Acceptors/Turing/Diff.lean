import Acceptors.Failure
import Acceptors.Turing.Tape

/-! The change that one step makes. A diff holds both sides of it, so it can be used forward and
backward; the symbol is written where the head was before the step. -/

namespace Acceptors

structure Diff where
  prevState : String
  nextState : String
  prevHead : Int
  nextHead : Int
  prevSymbol : Char
  nextSymbol : Char
deriving DecidableEq, Repr

namespace Configuration

def check (c : Configuration) (use : Replay) (state : String) (head cell : Int) (symbol : Char) :
    Except Violation Unit :=
  if c.state = state ∧ c.head = head then
    let found := c.tape.read cell
    if found = symbol then .ok () else .error (.wrongSymbol use symbol cell found)
  else .error (.wrongPlace use state head c.state c.head)

def apply (c : Configuration) (d : Diff) : Except Violation Configuration := do
  c.check .apply d.prevState d.prevHead d.prevHead d.prevSymbol
  return ⟨d.nextState, (c.tape.write d.prevHead d.nextSymbol).extendTo d.nextHead, d.nextHead⟩

def reverse (c : Configuration) (d : Diff) : Except Violation Configuration := do
  c.check .reverse d.nextState d.nextHead d.prevHead d.nextSymbol
  return ⟨d.prevState, c.tape.write d.prevHead d.prevSymbol, d.prevHead⟩

end Configuration

end Acceptors
