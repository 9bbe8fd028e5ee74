import Acceptors.Alphabet
import Acceptors.StateTable
import Acceptors.TransitionTable
import Acceptors.Turing.Log

/-! Deterministic Turing machines with one tape, an accepting and a rejecting halt state. Where no
rule applies, the machine falls into the rejecting state and leaves the tape alone. -/

namespace Acceptors

inductive Direction
  | left
  | right
  | stay
deriving DecidableEq, Repr

namespace Direction

def offset : Direction → Int
  | left => -1
  | right => 1
  | stay => 0

def letter : Direction → String
  | left => "L"
  | right => "R"
  | stay => "S"

def name : Direction → String
  | left => "Left"
  | right => "Right"
  | stay => "Stay"

def all : List Direction := [.left, .right, .stay]

def ofLetter? (text : String) : Option Direction := all.find? fun d => d.letter == text

def ofName? (text : String) : Option Direction := all.find? fun d => d.name == text

theorem mem_all (d : Direction) : d ∈ all := by cases d <;> decide

end Direction

namespace Turing

structure Rule where
  next : Nat
  write : Char
  direction : Direction
deriving DecidableEq, Repr

structure Action where
  nextState : String
  write : Char
  direction : Direction
deriving DecidableEq, Repr

end Turing

structure TuringMachine where
  states : StateTable
  inputAlphabet : Alphabet
  tapeAlphabet : Alphabet
  start : Nat
  accept : Nat
  reject : Nat
  rules : TransitionTable Turing.Rule
deriving DecidableEq, Repr

namespace TuringMachine

def rule? (m : TuringMachine) (state : Nat) (c : Char) : Option Turing.Rule :=
  match m.tapeAlphabet.symbols.idxOf? c with
  | some i => m.rules.get? state i
  | none => none

def startState (m : TuringMachine) : String := m.states.name m.start

def acceptState (m : TuringMachine) : String := m.states.name m.accept

def rejectState (m : TuringMachine) : String := m.states.name m.reject

def stateIds (m : TuringMachine) : List Nat := List.range m.states.size

def action (m : TuringMachine) (r : Turing.Rule) : Turing.Action :=
  ⟨m.states.name r.next, r.write, r.direction⟩

def transition? (m : TuringMachine) (name : String) (c : Char) : Option Turing.Action := do
  return m.action (← m.rule? (← m.states.id? name) c)

def transitions (m : TuringMachine) : List (String × Char × Turing.Action) :=
  m.stateIds.flatMap fun s => m.tapeAlphabet.symbols.filterMap fun c =>
    (m.rule? s c).map fun r => (m.states.name s, c, m.action r)

def halts (m : TuringMachine) (state : Nat) : Bool := state == m.accept || state == m.reject

def isHalting (m : TuringMachine) (name : String) : Bool := (m.states.id? name).any m.halts

def haltingStates (m : TuringMachine) : List String :=
  (m.stateIds.filter m.halts).map m.states.name

def initial (m : TuringMachine) (word : List Char) : Except DomainError Configuration :=
  (m.inputAlphabet.tokenize word).map fun symbols =>
    ⟨m.startState, .ofInput symbols blankSymbol, 0⟩

def status (m : TuringMachine) (c : Configuration) : Status :=
  match m.states.id? c.state with
  | some id =>
    if id = m.accept then .accepted else if id = m.reject then .rejected else .running
  | none => .running

/-- The rule for a state and symbol; without one, the move to the rejecting state. -/
def ruleOrReject (m : TuringMachine) (state : Nat) (c : Char) : Turing.Rule :=
  (m.rule? state c).getD ⟨m.reject, c, .stay⟩

def nextDiff (m : TuringMachine) (c : Configuration) : Except Violation (Option Diff) :=
  match m.states.id? c.state with
  | none => .error (.unknownState c.state)
  | some state =>
    if m.halts state then .ok none
    else
      let symbol := c.symbol
      let rule := m.ruleOrReject state symbol
      .ok (some
        { prevState := c.state
          nextState := m.states.name rule.next
          prevHead := c.head
          nextHead := c.head + rule.direction.offset
          prevSymbol := symbol
          nextSymbol := rule.write })

end TuringMachine

end Acceptors
