import Std.Data.TreeMap
import Acceptors.Dfa.Basic
import Acceptors.Nfa.Run

/-! The subset construction. Live sets become the states of a deterministic automaton in the order
of their discovery; the empty set stays implicit, so the result may be partial. -/

namespace Acceptors.Nfa

structure Subsets where
  sets : Array StateSet
  numbers : Std.TreeMap StateSet Nat

namespace Subsets

def empty : Subsets := ⟨#[], ∅⟩

/-- The number of a set, which is added when it is new. The empty set has none. -/
def locate (found : Subsets) (set : StateSet) : Subsets × Option Nat :=
  if set.isEmpty then (found, none)
  else match found.numbers[set]? with
    | some i => (found, some i)
    | none =>
      let i := found.sets.size
      (⟨found.sets.push set, found.numbers.insert set i⟩, some i)

def expand (n : Nfa) (set : StateSet) : List Char → Subsets → Subsets × List (Option Nat)
  | [], found => (found, [])
  | c :: symbols, found =>
    let (found, target) := found.locate (n.step set c)
    let (found, row) := expand n set symbols found
    (found, target :: row)

def explore (n : Nfa) : Nat → Subsets → Array (List (Option Nat)) →
    Subsets × Array (List (Option Nat))
  | 0, found, rows => (found, rows)
  | fuel + 1, found, rows =>
    match found.sets[rows.size]? with
    | none => (found, rows)
    | some set =>
      let (found, row) := expand n set n.alphabet.symbols found
      explore n fuel found (rows.push row)

end Subsets

/-- All live sets with their rows; there are fewer than two to the number of states. -/
def subsets (n : Nfa) : Subsets × Array (List (Option Nat)) :=
  Subsets.explore n (Nat.pow 2 n.states.size) (Subsets.empty.locate n.startSet).1 #[]

def toDfa (n : Nfa) : Dfa :=
  let (found, rows) := n.subsets
  let name (set : StateSet) : String := "\x7b" ++ String.intercalate "," (n.setNames set) ++ "\x7d"
  { states := .generate (found.sets.toList.map name)
    alphabet := n.alphabet
    start := 0
    accepting := found.sets.map n.isAccepting
    table := ⟨rows.map List.toArray⟩ }

end Acceptors.Nfa
