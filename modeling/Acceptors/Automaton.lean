import Acceptors.Dfa.Minimize
import Acceptors.Grammar.Chart
import Acceptors.Settings
import Acceptors.Source.Dfa
import Acceptors.Source.Grammar
import Acceptors.Source.Nfa
import Acceptors.Source.Regex
import Acceptors.Source.Turing
import Acceptors.Turing.Execution

/-! Acceptors of any kind behind one interface: reading, deciding words, running, minimizing. -/

namespace Acceptors

inductive Automaton
  | dfa (d : Dfa)
  | nfa (n : Nfa)
  | regex (r : Regex)
  | cfg (g : Grammar)
  | tm (m : TuringMachine)
deriving DecidableEq, Repr

inductive Record
  | dfa (trace : Dfa.Trace)
  | nfa (trace : Nfa.Trace)
  | regex (trace : Nfa.Trace)
  | cfg (trace : Grammar.Trace)
  | tm (log : Log)
deriving Repr

namespace Record

def formalism : Record → Formalism
  | dfa _ => .dfa
  | nfa _ => .nfa
  | regex _ => .regex
  | cfg _ => .cfg
  | tm _ => .tm

def accepted : Record → Bool
  | dfa t => t.accepted
  | nfa t => t.accepted
  | regex t => t.accepted
  | cfg t => t.accepted
  | tm l => l.outcome == .accepted

end Record

namespace Automaton

def formalism : Automaton → Formalism
  | dfa _ => .dfa
  | nfa _ => .nfa
  | regex _ => .regex
  | cfg _ => .cfg
  | tm _ => .tm

def ofText (f : Formalism) (text : String) (s : Settings) : Except ParseError Automaton :=
  match f with
  | .dfa => (Dfa.ofText text s.requireTotalDelta).map dfa
  | .nfa => (Nfa.ofText text).map nfa
  | .regex => (Regex.ofText text).map regex
  | .cfg => (Grammar.ofText text s.maxTreeDepth s.maxChartCells).map cfg
  | .tm => (TuringMachine.ofText text).map tm

/-- Whether the automaton accepts a word. A Turing machine that is cut off does not. -/
def accepts (a : Automaton) (word : List Char) (s : Settings) : Except Failure Bool :=
  match a with
  | dfa d => (d.accepts word).mapError .domain
  | nfa n => (n.accepts word).mapError .domain
  | regex r => .ok (r.accepts word)
  | cfg g => g.accepts word
  | tm m => m.accepts word s.maxSteps

def execute (a : Automaton) (word : List Char) (s : Settings) : Except Failure Record :=
  match a with
  | dfa d => ((d.trace word).mapError .domain).map .dfa
  | nfa n => ((n.trace word).mapError .domain).map .nfa
  | regex r => .ok (.regex (r.trace word))
  | cfg g => (g.trace word).map .cfg
  | tm m => (m.run word s.maxSteps).map .tm

/-- The minimal automaton for the same language, which only deterministic automata have here. -/
def minimize : Automaton → Except DomainError Automaton
  | dfa d => .ok (dfa d.minimize)
  | a => .error (.unsupported "minimization" a.formalism)

end Automaton

end Acceptors
