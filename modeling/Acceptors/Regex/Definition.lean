import Acceptors.Regex.Basic
import Acceptors.Regex.Pattern
import Acceptors.Search

/-! Regular expressions as lists of named patterns followed by the pattern to match. A binding may
refer to bindings before it; a reference that leads back to its own binding is an error. -/

namespace Acceptors.Regex

structure PatternLine where
  text : String
  location? : Option Location
deriving DecidableEq, Repr

namespace PatternLine

def ofText (text : String) : PatternLine := ⟨text, none⟩

def error (line : PatternLine) (field : String) (e : PatternError) : ParseError :=
  ⟨e.reason, some field, line.location?.map fun l => ⟨l.line, l.column + e.offset⟩⟩

end PatternLine

structure Definition where
  bindings : List (String × PatternLine)
  pattern : PatternLine
deriving DecidableEq, Repr

namespace Definition

def names (d : Definition) : List String := d.bindings.map Prod.fst

def checkNames : List String → List (String × PatternLine) → Except ParseError Unit
  | _, [] => .ok ()
  | seen, (name, line) :: rest =>
    if name ∈ seen then .error (line.error name ⟨.duplicateBinding name, 0⟩)
    else checkNames (name :: seen) rest

def tokensOf (names : List String) (field : String) (line : PatternLine) :
    Except ParseError (List Token) :=
  (Token.tokenize names line.text.toList).mapError (line.error field)

def references (names : List String) (tokens : List Token) : List Nat :=
  tokens.filterMap fun token =>
    match token.kind with
    | .name text => names.idxOf? text
    | _ => none

def leadsTo (graph : Array (List Nat)) (source target : Nat) : Bool :=
  let next (i : Nat) : List Nat := graph.getD i []
  (Search.reachable graph.size next (next source)).contains target

/-- The first reference of binding `index` that goes to itself or forward, and back from there. -/
def circular? (names : List String) (graph : Array (List Nat)) (index : Nat)
    (tokens : List Token) : Option PatternError :=
  tokens.findSome? fun token =>
    match token.kind with
    | .name text => do
      let target ← names.idxOf? text
      if index ≤ target && leadsTo graph target index then
        some ⟨.circularReference text, token.offset⟩
      else none
    | _ => none

/-- Resolves bindings in order; `scope` holds those before them, newest first. -/
def resolve (names : List String) (graph : Array (List Nat)) :
    Pattern.Scope → List (String × PatternLine × List Token) → Except ParseError Pattern.Scope
  | scope, [] => .ok scope
  | scope, (name, line, tokens) :: rest =>
    match circular? names graph scope.length tokens with
    | some e => .error (line.error name e)
    | none =>
      match Pattern.parse scope tokens with
      | .error e => .error (line.error name e)
      | .ok e => resolve names graph ((name, e) :: scope) rest

def build (d : Definition) : Except ParseError Regex := do
  checkNames [] d.bindings
  let tokens ← d.bindings.mapM fun (name, line) => tokensOf d.names name line
  let graph := (tokens.map (references d.names)).toArray
  let scope ← resolve d.names graph [] (d.bindings.zipWith (fun b t => (b.1, b.2, t)) tokens)
  let tokens ← tokensOf d.names "pattern" d.pattern
  let expr ← (Pattern.parse scope tokens).mapError (d.pattern.error "pattern")
  return ofExpr scope.reverse expr

end Definition

def ofPattern (pattern : String) : Except ParseError Regex :=
  Definition.build ⟨[], .ofText pattern⟩

end Acceptors.Regex
