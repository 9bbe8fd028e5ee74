import Acceptors.Failure
import Acceptors.Search

/-! Context-free grammars. Nonterminals are numbered in the order of their declaration, and the
first one is the start symbol. -/

namespace Acceptors

namespace Grammar

inductive Symbol
  | terminal (c : Char)
  | nonterminal (index : Nat)
deriving DecidableEq, Repr

/-- A head and a body; the empty body derives the empty word. -/
structure Production where
  head : Nat
  body : List Symbol
deriving DecidableEq, Repr

def Symbol.terminal? : Symbol → Option Char
  | .terminal c => some c
  | .nonterminal _ => none

def Symbol.nonterminal? : Symbol → Option Nat
  | .terminal _ => none
  | .nonterminal index => some index

end Grammar

structure Grammar where
  nonterminals : Array String
  productions : List Grammar.Production
  maxTreeDepth : Nat
  maxChartCells : Nat
deriving DecidableEq, Repr

namespace Grammar

def defaultTreeDepth : Nat := 10000

def defaultChartCells : Nat := 4194304

def withLimits (g : Grammar) (treeDepth chartCells : Nat) : Grammar :=
  { g with maxTreeDepth := treeDepth, maxChartCells := chartCells }

def name (g : Grammar) (index : Nat) : String := g.nonterminals.getD index ""

def startSymbol (g : Grammar) : String := g.name 0

def bodies (g : Grammar) (head : Nat) : List (List Symbol) :=
  g.productions.filterMap fun p => if p.head = head then some p.body else none

def terminals (g : Grammar) : List Char :=
  (g.productions.flatMap fun p => p.body.filterMap Symbol.terminal?).eraseDups

def displaySymbol (g : Grammar) : Symbol → String
  | .terminal c => c.toString
  | .nonterminal index => g.name index

def displayBody (g : Grammar) (body : List Symbol) : String :=
  if body.isEmpty then emptyText else String.join (body.map g.displaySymbol)

def displayProduction (g : Grammar) (p : Production) : String :=
  g.name p.head ++ " -> " ++ g.displayBody p.body

def display (g : Grammar) : String :=
  String.join (g.productions.map fun p => g.displayProduction p ++ "\n")

def successors (g : Grammar) (head : Nat) : List Nat :=
  (g.bodies head).flatMap fun body => body.filterMap Symbol.nonterminal?

def unreachableNonterminals (g : Grammar) : List String :=
  (Search.unreachable g.nonterminals.size g.successors [0]).map g.name

def isCovered (marks : Array Bool) (body : List Symbol) : Bool :=
  body.all fun s =>
    match s with
    | .terminal _ => true
    | .nonterminal index => marks.getD index false

def markHeads (g : Grammar) (marks : Array Bool) : Array Bool :=
  g.productions.foldl
    (fun marks p => if isCovered marks p.body then marks.setIfInBounds p.head true else marks) marks

def productive (g : Grammar) : Nat → Array Bool
  | 0 => Array.replicate g.nonterminals.size false
  | rounds + 1 => g.markHeads (g.productive rounds)

/-- Nonterminals that derive no word at all. A round that marks nothing new is the last, so there
are no more of them than nonterminals. -/
def unproductiveNonterminals (g : Grammar) : List String :=
  let marks := g.productive g.nonterminals.size
  ((List.range g.nonterminals.size).filter fun i => !marks.getD i false).map g.name

end Grammar

end Acceptors
