import Acceptors.Grammar.Basic
import Acceptors.Grammar.Tree

/-! The span chart of one input: which nonterminals derive which parts of it. Facts are found in
rounds. A round only uses facts of earlier rounds, and its number is the rank of the facts it adds,
so a fact has a derivation from facts of lower rank and a tree can be built from the top down even
where the grammar is cyclic. -/

namespace Acceptors

structure Chart where
  grammar : Grammar
  input : Array Char
  ranks : Array (Option Nat)
  rounds : Nat
  isComplete : Bool
deriving Repr

namespace Chart

/-- Counts of cells stop at the largest 64-bit number. -/
def saturate (n : Nat) : Nat := min n 18446744073709551615

def cellCount (nonterminals length : Nat) : Nat :=
  saturate (saturate (nonterminals * (length + 1)) * (length + 1))

def ofInput (g : Grammar) (word : List Char) : Except DomainError Chart :=
  let cells := cellCount g.nonterminals.size word.length
  if g.maxChartCells < cells then .error (.chartTooLarge word.length cells g.maxChartCells)
  else .ok ⟨g, word.toArray, Array.replicate cells none, 0, false⟩

def length (c : Chart) : Nat := c.input.size

def index (c : Chart) (nonterminal i j : Nat) : Nat :=
  (nonterminal * (c.length + 1) + i) * (c.length + 1) + j

def rank? (c : Chart) (nonterminal i j : Nat) : Option Nat :=
  c.ranks.getD (c.index nonterminal i j) none

/-- Whether a fact is known from a round before `bound`. -/
def isBelow (c : Chart) (bound nonterminal i j : Nat) : Bool :=
  match c.rank? nonterminal i j with
  | some r => r < bound
  | none => false

def reachOver (c : Chart) (bound : Nat) (positions : List Nat) : Grammar.Symbol → List Nat
  | .terminal t => positions.filterMap fun p => if c.input[p]? = some t then some (p + 1) else none
  | .nonterminal a =>
    match positions with
    | [] => []
    | [i] => (List.range' i (c.length + 1 - i)).filter (c.isBelow bound a i)
    | _ => (List.range (c.length + 1)).filter fun j =>
      positions.any fun i => i ≤ j && c.isBelow bound a i j

/-- The ends of the parts that a body matches from `start`, by facts ranked below `bound`. -/
def reach (c : Chart) (body : List Grammar.Symbol) (start bound : Nat) : List Nat :=
  body.foldl (c.reachOver bound) [start]

def newFacts (c : Chart) (bound : Nat) : List Nat :=
  c.grammar.productions.flatMap fun p => (List.range (c.length + 1)).flatMap fun i =>
    (c.reach p.body i bound).filterMap fun j =>
      if (c.rank? p.head i j).isNone then some (c.index p.head i j) else none

def advance (c : Chart) : Chart :=
  if c.isComplete then c
  else
    let round := c.rounds + 1
    let found := c.newFacts round
    let rank := some round
    { c with
      ranks := found.foldl (fun ranks cell => ranks.setIfInBounds cell rank) c.ranks
      rounds := round
      isComplete := found.isEmpty }

def advanceAll : Nat → Chart → Chart
  | 0, c => c
  | fuel + 1, c =>
    let next := c.advance
    if next.isComplete then next else advanceAll fuel next

/-- Every round but the last adds a fact, and there are no more facts than cells. -/
def complete (c : Chart) : Chart := advanceAll (c.ranks.size + 1) c

def derives (c : Chart) (nonterminal : String) (i j : Nat) : Bool :=
  match c.grammar.nonterminals.idxOf? nonterminal with
  | some a => i ≤ j && j ≤ c.length && (c.rank? a i j).isSome
  | none => false

def accepts (c : Chart) : Bool := (c.rank? 0 0 c.length).isSome

/-- The leftmost way to cover the input from `first` to `last` with a body by facts ranked below
`bound`: the part of each symbol in order. -/
def split (c : Chart) (bound : Nat) : List Grammar.Symbol → Nat → Nat → Option (List (Nat × Nat))
  | [], first, last => if first = last then some [] else none
  | .terminal t :: body, first, last =>
    if first < last ∧ c.input[first]? = some t then
      (split c bound body (first + 1) last).map ((first, first + 1) :: ·)
    else none
  | .nonterminal a :: body, first, last =>
    (List.range' first (last + 1 - first)).findSome? fun mid =>
      if c.isBelow bound a first mid then
        (split c bound body mid last).map ((first, mid) :: ·)
      else none

def derivation? (c : Chart) (rank nonterminal i j : Nat) :
    Option (List (Grammar.Symbol × Nat × Nat)) :=
  (c.grammar.bodies nonterminal).findSome? fun body =>
    (c.split rank body i j).map fun spans => body.zip spans

def build (c : Chart) : (levels : Nat) → (nonterminal i j : Nat) → Except Violation Tree
  | 0, _, _, _ => .error (.treeTooDeep c.grammar.maxTreeDepth)
  | levels + 1, a, i, j =>
    match c.rank? a i j with
    | none => .error (.missingFact (c.grammar.name a) i j)
    | some rank =>
      match c.derivation? rank a i j with
      | none => .error (.missingDerivation rank (c.grammar.name a) i j)
      | some [] => .ok (.node (c.grammar.name a) [.empty])
      | some parts => do
        let children ← parts.mapM fun (symbol, first, last) =>
          match symbol with
          | .terminal t => return .leaf t
          | .nonterminal b => build c levels b first last
        return .node (c.grammar.name a) children

def parseTree (c : Chart) : Except Violation (Option Tree) :=
  if c.accepts then (c.build c.grammar.maxTreeDepth 0 0 c.length).map some else .ok none

end Chart

namespace Grammar

structure Trace where
  input : List Char
  tree : Option Tree
  /-- The sentential forms of the leftmost derivation; none when the word is rejected. -/
  derivation : List String
deriving Repr

def Trace.accepted (t : Trace) : Bool := t.tree.isSome

def parseTree (g : Grammar) (word : List Char) : Except Failure (Option Tree) := do
  let chart ← (Chart.ofInput g word).mapError Failure.domain
  chart.complete.parseTree.mapError Failure.violation

def accepts (g : Grammar) (word : List Char) : Except Failure Bool :=
  (g.parseTree word).map Option.isSome

def trace (g : Grammar) (word : List Char) : Except Failure Trace :=
  (g.parseTree word).map fun tree =>
    ⟨word, tree, (tree.map Tree.leftmostDerivation).getD []⟩

end Grammar

end Acceptors
