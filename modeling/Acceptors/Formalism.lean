/-! The five kinds of acceptor. Each has a display name, the extension of its source files and a
tag under which its runs are reported. -/

namespace Acceptors

inductive Formalism
  | dfa
  | nfa
  | regex
  | cfg
  | tm
deriving DecidableEq, Repr

namespace Formalism

def all : List Formalism := [.dfa, .nfa, .regex, .cfg, .tm]

def name : Formalism → String
  | dfa => "DFA"
  | nfa => "NFA"
  | regex => "regex"
  | cfg => "CFG"
  | tm => "Turing Machine"

def extension : Formalism → String
  | dfa => "dfa"
  | nfa => "nfa"
  | regex => "regex"
  | cfg => "cfg"
  | tm => "tm"

def tag : Formalism → String
  | dfa => "Dfa"
  | nfa => "Nfa"
  | regex => "Regex"
  | cfg => "Cfg"
  | tm => "Tm"

def ofName? (text : String) : Option Formalism :=
  match text.toLower with
  | "dfa" => some dfa
  | "nfa" => some nfa
  | "regex" | "re" => some regex
  | "cfg" | "grammar" => some cfg
  | "tm" | "turing" => some tm
  | _ => none

theorem mem_all (f : Formalism) : f ∈ all := by cases f <;> decide

end Formalism

end Acceptors
