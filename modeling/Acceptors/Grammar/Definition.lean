import Acceptors.Grammar.Basic
import Acceptors.Text.Longest

/-! Grammars as lists of nonterminals with their right-hand sides in plain text. -/

namespace Acceptors.Grammar

structure Definition where
  rules : List (String × List String)
deriving DecidableEq, Repr

namespace Definition

/-- Reads a right-hand side. Where a nonterminal's name matches, the longest one is taken; any other
character is a terminal. The first `skip` characters belong to the symbol before them. -/
def scan (names : List (List Char)) : Nat → List Char → List Symbol
  | _, [] => []
  | skip + 1, _ :: rest => scan names skip rest
  | 0, c :: rest =>
    match Text.longestName? names (c :: rest) with
    | some name => .nonterminal (names.idxOf name) :: scan names (name.length - 1) rest
    | none => .terminal c :: scan names 0 rest

def bodyOf (names : List (List Char)) (text : String) : List Symbol :=
  if text = emptyText then [] else scan names 0 text.toList

def checkNames : List String → List String → Except ParseError Unit
  | _, [] => .ok ()
  | seen, name :: rest =>
    if name.isEmpty then .error (.ofReason .emptyNonterminal)
    else if name ∈ seen then .error (.inField name (.duplicateNonterminal name))
    else checkNames (name :: seen) rest

def productionsOf (names : List (List Char)) (head : Nat) :
    List (String × List String) → Except ParseError (List Production)
  | [] => .ok []
  | (name, bodies) :: rest => do
    if bodies.isEmpty then .error (.inField name .noBodies)
    else
      let further ← productionsOf names (head + 1) rest
      return bodies.map (fun text => ⟨head, bodyOf names text⟩) ++ further

def names (d : Definition) : List String := d.rules.map Prod.fst

def build (d : Definition) : Except ParseError Grammar := do
  if d.rules.isEmpty then .error (.ofReason .noNonterminals)
  else
    checkNames [] d.names
    let productions ← productionsOf (d.names.map String.toList) 0 d.rules
    return ⟨d.names.toArray, productions, defaultTreeDepth, defaultChartCells⟩

end Definition

end Acceptors.Grammar
