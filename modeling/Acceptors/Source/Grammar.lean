import Acceptors.Grammar.Definition
import Acceptors.Source.Fields

/-! Documents that describe grammars: a mapping from nonterminals to right-hand sides. -/

namespace Acceptors.Grammar

def Definition.readEntry (e : Entry) : Except ParseError (String × List String) := do
  return (e.key, ← Source.names e.key e.value)

/-- Locates an error by the nonterminal it concerns, or else at the beginning of the document. -/
def locate (root : Node) (entries : List Entry) (e : ParseError) : ParseError :=
  match e.field? with
  | some _ => Source.Places.locate (entries.map fun e => (e.key, e.location)) e
  | none => e.withLocation root.location

def ofText (text : String) (treeDepth chartCells : Nat) : Except ParseError Grammar := do
  let root ← Node.ofText text
  let entries ← root.asMapping "document"
  let rules ← entries.mapM Definition.readEntry
  let g ← (Definition.build ⟨rules⟩).mapError (locate root entries)
  return g.withLimits treeDepth chartCells

end Acceptors.Grammar
