import Acceptors.Nfa.Run
import Acceptors.Regex.Expr

/-! The automaton of an expression, put together from fragments. A fragment has one state to enter
and one to leave by; building one only adds new states and edges among them. -/

namespace Acceptors.Regex

/-- States `0` to `size - 1`, and the edges between them, newest first. -/
structure Builder where
  size : Nat
  edges : List (Nat × Edge)
deriving Repr

namespace Builder

def empty : Builder := ⟨0, []⟩

def addState (b : Builder) : Builder := { b with size := b.size + 1 }

def connect (b : Builder) (source : Nat) (label : Option Char) (target : Nat) : Builder :=
  { b with edges := (source, ⟨label, target⟩) :: b.edges }

def join (b : Builder) (sources : List Nat) (target : Nat) : Builder :=
  sources.foldl (fun b source => b.connect source none target) b

end Builder

structure Fragment where
  entry : Nat
  exit : Nat
deriving DecidableEq, Repr

namespace Fragment

def single (b : Builder) (label : Option Char) : Builder × Fragment :=
  (b.addState.addState.connect b.size label (b.size + 1), ⟨b.size, b.size + 1⟩)

mutual

def build (b : Builder) : Expr → Builder × Fragment
  | .empty => single b none
  | .literal c => single b (some c)
  | .reference _ target => build b target
  | .concat [] => single b none
  | .concat (e :: items) =>
    let (b, first) := build b e
    let (b, exit) := buildAfter b first.exit items
    (b, ⟨first.entry, exit⟩)
  | .union branches =>
    let entry := b.size
    let (b, exits) := buildBranches b.addState entry branches
    (b.addState.join exits b.size, ⟨entry, b.size⟩)
  | .star body =>
    let entry := b.size
    let (b, inner) := build b.addState body
    let exit := b.size
    let b := b.addState.connect entry none inner.entry
    let b := b.connect inner.exit none inner.entry
    let b := b.connect inner.exit none exit
    (b.connect entry none exit, ⟨entry, exit⟩)

/-- The fragments of further items, each entered from the exit of the one before. -/
def buildAfter (b : Builder) (exit : Nat) : List Expr → Builder × Nat
  | [] => (b, exit)
  | e :: items =>
    let (b, f) := build b e
    buildAfter (b.connect exit none f.entry) f.exit items

def buildBranches (b : Builder) (entry : Nat) : List Expr → Builder × List Nat
  | [] => (b, [])
  | e :: branches =>
    let (b, f) := build b e
    let (b, exits) := buildBranches (b.connect entry none f.entry) entry branches
    (b, f.exit :: exits)

end

end Fragment

def Builder.alphabet (b : Builder) : Alphabet :=
  .ofList ((b.edges.filterMap fun e => e.2.label).mergeSort fun c d => c ≤ d)

def stateName (id : Nat) : String := "q" ++ toString id

def Expr.toNfa (e : Expr) : Nfa :=
  let (b, f) := Fragment.build .empty e
  { states := ⟨Array.ofFn fun (i : Fin b.size) => stateName i⟩
    alphabet := b.alphabet
    start := f.entry
    accepting := Array.ofFn fun (i : Fin b.size) => i == f.exit
    rows := Nfa.rowsOf b.size b.edges }

end Acceptors.Regex
