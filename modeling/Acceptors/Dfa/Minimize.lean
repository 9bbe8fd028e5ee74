import Std.Data.TreeMap
import Acceptors.Dfa.Basic

/-! The minimal automaton of a language, by partition refinement. Unreachable states go first. The
implicit dead state takes part in the refinement as one more state, the sink; what turns out to be
equivalent to it is dropped, except that a dead start state stays as a lone rejecting state. -/

namespace Acceptors.Dfa

def places (bound : Nat) (numbers : List Nat) : Array (Option Nat) :=
  numbers.zipIdx.foldl (fun found p => found.setIfInBounds p.1 (some p.2))
    (Array.replicate bound none)

/-- The reachable states of an automaton in classes. The sink stands behind the last of them. -/
structure Partition where
  reached : List Nat
  place : Array (Option Nat)
  /-- The class at each place, the sink's last. Classes are numbered as they first appear. -/
  classes : Array Nat

namespace Partition

def renumber (signatures : List (List Nat)) : Array Nat :=
  go ∅ #[] signatures
where
  go (numbers : Std.TreeMap (List Nat) Nat) (done : Array Nat) : List (List Nat) → Array Nat
    | [] => done
    | s :: rest =>
      match numbers[s]? with
      | some k => go numbers (done.push k) rest
      | none => go (numbers.insert s numbers.size) (done.push numbers.size) rest

def count (classes : Array Nat) : Nat := classes.foldl (fun n k => max n (k + 1)) 0

/-- Tells two states of one class apart when some symbol leads them to different classes. -/
def split (successors : List (List Nat)) (classes : Array Nat) : Array Nat :=
  renumber (List.zipWith (fun k row => k :: row.map fun s => classes.getD s 0)
    classes.toList successors)

def refine (successors : List (List Nat)) : Nat → Array Nat → Array Nat
  | 0, classes => classes
  | fuel + 1, classes =>
    let finer := split successors classes
    if count finer = count classes then finer else refine successors fuel finer

/-- The class of the states from which nothing is accepted. -/
def dead (p : Partition) : Nat := p.classes.getD p.reached.length 0

def classOf (p : Partition) (state : Nat) : Nat :=
  p.classes.getD ((p.place.getD state none).getD p.reached.length) 0

def members (p : Partition) : Array (List Nat) :=
  (p.reached.zip p.classes.toList).foldr (fun m groups => groups.modify m.2 (m.1 :: ·))
    (Array.replicate (count p.classes) [])

end Partition

/-- Where each symbol leads from the reachable states, as places among these, and from the sink. -/
def successorRows (d : Dfa) (reached : List Nat) (place : Array (Option Nat)) :
    List (List Nat) :=
  let sink := reached.length
  let columns := List.range d.alphabet.size
  let target (state column : Nat) : Nat :=
    ((d.table.get? state column).bind fun t => place.getD t none).getD sink
  reached.map (fun s => columns.map (target s)) ++ [columns.map fun _ => sink]

def partition (d : Dfa) : Partition :=
  let reached := d.reachable
  let place := places d.states.size reached
  let first := Partition.renumber
    (reached.map (fun s => [if d.isAccepting (some s) then 1 else 0]) ++ [[0]])
  ⟨reached, place, Partition.refine (d.successorRows reached place) (reached.length + 1) first⟩

def className : List String → String
  | [name] => name
  | names => "\x7b" ++ String.intercalate "," names ++ "\x7d"

/-- Names classes in order. A lone member keeps its name; other names get primes until they differ
from `taken` and from each other. -/
def nameClasses (taken : Std.TreeSet String) : List (List String) → List String
  | [] => []
  | [name] :: rest => name :: nameClasses taken rest
  | members :: rest =>
    let name := freshName taken.contains taken.size (className members)
    name :: nameClasses (taken.insert name) rest

def minimize (d : Dfa) : Dfa :=
  let p := d.partition
  let members := p.members
  let startClass := p.classOf d.start
  let kept := (List.range members.size).filter fun k =>
    !(members.getD k []).isEmpty && (k != p.dead || k == startClass)
  let groups := kept.map fun k => members.getD k []
  let names := groups.map fun group => group.map d.states.name
  let lone := names.filterMap fun group =>
    match group with
    | [name] => some name
    | _ => none
  let number := places members.size kept
  let representative := (groups.map fun group => group.headD 0).toArray
  let target (k column : Nat) : Option Nat := do
    let image := p.classOf (← d.table.get? (representative.getD k 0) column)
    if image = p.dead then none else number.getD image none
  { states := ⟨(nameClasses (.ofList lone) names).toArray⟩
    alphabet := d.alphabet
    start := (number.getD startClass none).getD 0
    accepting := (groups.map fun group => group.any fun s => d.isAccepting (some s)).toArray
    table := .tabulate kept.length d.alphabet.size target }

end Acceptors.Dfa
