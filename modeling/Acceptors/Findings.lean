import Acceptors.Automaton

/-! Likely mistakes in an automaton, found without running it. An automaton with findings can still
be run. -/

namespace Acceptors

inductive Finding
  | unreachableStates (states : List String)
  | missingTransitions (pairs : List (String × Char))
  | unusedSymbols (symbols : List Char)
  | stuckStates (states : List String)
  | unreachableNonterminals (names : List String)
  | unproductiveNonterminals (names : List String)
deriving DecidableEq, Repr

namespace Finding

def commaSeparated (texts : List String) : String := String.intercalate ", " texts

def message : Finding → String
  | unreachableStates states => "unreachable states: " ++ commaSeparated states
  | missingTransitions pairs =>
    "missing transitions: " ++
      commaSeparated (pairs.map fun (state, c) => "(" ++ state ++ ", " ++ c.toString ++ ")")
  | unusedSymbols symbols =>
    "symbols never used by a transition: " ++ commaSeparated (symbols.map Char.toString)
  | stuckStates states => "states without outgoing transitions: " ++ commaSeparated states
  | unreachableNonterminals names => "unreachable nonterminals: " ++ commaSeparated names
  | unproductiveNonterminals names => "nonterminals that derive no string: " ++ commaSeparated names

def ofItems {α : Type} (finding : List α → Finding) : List α → List Finding
  | [] => []
  | items => [finding items]

def unreached (names reachable : List String) : List String :=
  names.filter fun name => !reachable.contains name

end Finding

namespace Dfa

def unreachableStates (d : Dfa) : List String :=
  Finding.unreached d.states.names.toList d.reachableStates

def unusedSymbols (d : Dfa) : List Char :=
  d.alphabet.symbols.filter fun c => d.stateIds.all fun s => (d.next? s c).isNone

def findings (d : Dfa) : List Finding :=
  Finding.ofItems .unreachableStates d.unreachableStates ++
  Finding.ofItems .missingTransitions d.missingTransitions ++
  Finding.ofItems .unusedSymbols d.unusedSymbols

end Dfa

namespace Nfa

def unreachableStates (n : Nfa) : List String :=
  Finding.unreached n.states.names.toList n.reachableStates

def unusedSymbols (n : Nfa) : List Char :=
  n.alphabet.symbols.filter fun c => n.stateIds.all fun s => (n.targets (some c) s).isEmpty

def findings (n : Nfa) : List Finding :=
  Finding.ofItems .unreachableStates n.unreachableStates ++
  Finding.ofItems .unusedSymbols n.unusedSymbols

end Nfa

namespace Grammar

def findings (g : Grammar) : List Finding :=
  Finding.ofItems .unreachableNonterminals g.unreachableNonterminals ++
  Finding.ofItems .unproductiveNonterminals g.unproductiveNonterminals

end Grammar

namespace TuringMachine

def rulesOf (m : TuringMachine) (s : Nat) : List (Char × Turing.Rule) :=
  m.tapeAlphabet.symbols.filterMap fun c => (m.rule? s c).map fun r => (c, r)

/-- The states that the rules of a state lead to. Rules that lead to the rejecting state are left
out, so its own rules count only where it is the start state. -/
def successors (m : TuringMachine) (s : Nat) : List Nat :=
  ((m.rulesOf s).map fun (_, r) => r.next).filter (· != m.reject)

/-- The states that no rules lead to from the start state. The rejecting state never counts as
unreachable, since missing rules lead there. -/
def unreachableStates (m : TuringMachine) : List String :=
  ((Search.unreachable m.states.size m.successors [m.start]).filter (· != m.reject)).map
    m.states.name

def stuckStates (m : TuringMachine) : List String :=
  (m.stateIds.filter fun s => !m.halts s && (m.rulesOf s).isEmpty).map m.states.name

def usedSymbols (m : TuringMachine) : List Char :=
  m.stateIds.flatMap fun s => (m.rulesOf s).flatMap fun (c, r) => [c, r.write]

def unusedSymbols (m : TuringMachine) : List Char :=
  let used := m.usedSymbols
  m.tapeAlphabet.symbols.filter fun c => c != blankSymbol && !used.contains c

def findings (m : TuringMachine) : List Finding :=
  Finding.ofItems .unreachableStates m.unreachableStates ++
  Finding.ofItems .stuckStates m.stuckStates ++
  Finding.ofItems .unusedSymbols m.unusedSymbols

end TuringMachine

def Automaton.findings : Automaton → List Finding
  | dfa d => d.findings
  | nfa n => n.findings
  | regex _ => []
  | cfg g => g.findings
  | tm m => m.findings

end Acceptors
