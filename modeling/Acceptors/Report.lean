import Acceptors.Automaton
import Acceptors.Json.Basic

/-! Records of runs as JSON and as lines of text. -/

namespace Acceptors

namespace Tape

def toJson (t : Tape) : Json := .object [
  ("cells", .ofChars t.cells),
  ("origin", .ofInt t.first),
  ("blank", .ofChar t.blank)]

end Tape

namespace Configuration

def toJson (c : Configuration) : Json := .object [
  ("state", .string c.state),
  ("tape", c.tape.toJson),
  ("head", .ofInt c.head)]

end Configuration

namespace Diff

def toJson (d : Diff) : Json := .object [
  ("prev_state", .string d.prevState),
  ("next_state", .string d.nextState),
  ("prev_head", .ofInt d.prevHead),
  ("next_head", .ofInt d.nextHead),
  ("prev_symbol", .ofChar d.prevSymbol),
  ("next_symbol", .ofChar d.nextSymbol)]

end Diff

namespace Log

def toJson (l : Log) : Json := .object [
  ("initial", l.initial.toJson),
  ("final", l.final.toJson),
  ("diffs", .array (l.diffs.toList.map Diff.toJson)),
  ("outcome", .string l.outcome.tag)]

def lines (l : Log) : List String :=
  go l.steps (.ofLog l)
where
  line (t : Timeline) : String :=
    let number := toString t.position
    "  " ++ String.ofList (List.replicate (5 - number.length) ' ') ++ number ++ "  " ++
      t.current.display
  go : Nat → Timeline → List String
    | 0, t => [line t]
    | steps + 1, t =>
      match t.forward? with
      | .ok (some next) => line t :: go steps next
      | .ok none => [line t]
      | .error e => [line t, "  error: " ++ (Failure.violation e).message]

end Log

namespace Tree

mutual

def toJson : Tree → Json
  | node symbol children => .object [
    ("symbol", .string symbol),
    ("kind", .string "Nonterminal"),
    ("children", .array (toJsons children))]
  | leaf c => .object [
    ("symbol", .ofChar c), ("kind", .string "Terminal"), ("children", .array [])]
  | empty => .object [
    ("symbol", .string emptyText), ("kind", .string "Epsilon"), ("children", .array [])]

def toJsons : List Tree → List Json
  | [] => []
  | t :: ts => toJson t :: toJsons ts

end

end Tree

namespace Dfa.Trace

def toJson (t : Trace) : Json := .object [
  ("input", .ofChars t.input),
  ("states", .array (t.states.map fun s =>
    match s with
    | some name => .string name
    | none => .null)),
  ("accepted", .bool t.accepted)]

def lines (t : Trace) : List String :=
  ["  " ++ String.intercalate " -> " (t.states.map fun s => s.getD "∅")]

end Dfa.Trace

namespace Nfa.Trace

def toJson (t : Trace) : Json := .object [
  ("input", .ofChars t.input),
  ("state_sets", .array (t.stateSets.map .ofStrings)),
  ("accepted", .bool t.accepted)]

/-- One line for each prefix of the word, which is set to the right in eight columns. -/
def lines (t : Trace) : List String :=
  t.stateSets.zipIdx.map fun (set, i) =>
    let consumed := t.input.take i
    "  " ++ String.ofList (List.replicate (8 - consumed.length) ' ' ++ consumed) ++
      " \x7b" ++ String.intercalate ", " set ++ "\x7d"

end Nfa.Trace

namespace Grammar.Trace

def toJson (t : Trace) : Json := .object [
  ("input", .string (String.ofList t.input)),
  ("tree", (t.tree.map Tree.toJson).getD .null),
  ("derivation", .ofStrings t.derivation),
  ("accepted", .bool t.accepted)]

def lines (t : Trace) : List String := t.derivation.map fun form => "  => " ++ form

end Grammar.Trace

namespace Record

def toJson (r : Record) : Json := .object [
  ("formalism", .string r.formalism.tag),
  ("data",
    match r with
    | dfa t => t.toJson
    | nfa t => t.toJson
    | regex t => t.toJson
    | cfg t => t.toJson
    | tm l => l.toJson)]

def lines : Record → List String
  | dfa t => t.lines
  | nfa t => t.lines
  | regex t => t.lines
  | cfg t => t.lines
  | tm l => l.lines

def verdict : Record → String
  | tm l => s!"{l.outcome.text} after {l.steps} step(s), output: {l.final.output}"
  | r => if r.accepted then "accept" else "reject"

end Record

def Dfa.lines (d : Dfa) : List String :=
  ["states: [" ++ String.intercalate ", " d.states.names.toList ++ "]",
    "start_state: " ++ d.startState,
    "accept_states: [" ++ String.intercalate ", " d.acceptStates ++ "]"] ++
  d.transitions.map fun (source, c, target) => "  " ++ source ++ " --" ++ c.toString ++
  "--> " ++ target

end Acceptors
