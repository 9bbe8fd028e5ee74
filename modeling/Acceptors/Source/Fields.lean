import Acceptors.Declaration
import Acceptors.Document.Basic

/-! The entries of a document that describes an automaton: which keys there are, what is read from
them, and where in the text a key path leads. -/

namespace Acceptors.Source

/-- Where key paths begin, in the order of the text. Of two equal paths the first counts. -/
abbrev Places := List (String × Location)

/-- Whether a path is another one or leads on from it, after a dot. -/
def encloses (outer path : List Char) : Bool :=
  outer == path || (outer ++ ['.']).isPrefixOf path

def longerPath (best : Option (List Char × Location)) (p : List Char × Location) :
    Option (List Char × Location) :=
  match best with
  | some b => if b.1.length < p.1.length then some p else some b
  | none => some p

def Places.find? (places : Places) (path : String) : Option Location :=
  let text := path.toList
  let known := places.map fun p => (p.1.toList, p.2)
  ((known.filter fun p => encloses p.1 text).foldl longerPath none).map Prod.snd

def Places.locate (places : Places) (e : ParseError) : ParseError :=
  match e.location?, e.field? with
  | none, some field => { e with location? := places.find? field }
  | _, _ => e

structure Schema where
  keys : List String
  aliases : List (String × String)

def Schema.finiteAutomaton : Schema :=
  { keys := ["states", "input_alphabet", "start_state", "accept_states", "delta"]
    aliases := [("accept_state", "accept_states")] }

def Schema.turingMachine : Schema :=
  { keys := ["states", "input_alphabet", "tape_alphabet_extra", "start_state", "accept_state",
      "reject_state", "delta"]
    aliases := [] }

structure Fields where
  root : Node
  entries : List (String × Entry)

namespace Fields

def collect (schema : Schema) (found : List (String × Entry)) :
    List Entry → Except ParseError (List (String × Entry))
  | [] => .ok found.reverse
  | e :: rest =>
    let key := (schema.aliases.lookup e.key).getD e.key
    if key ∉ schema.keys then .error ⟨.unknownKey e.key, some e.key, some e.location⟩
    else if (found.lookup key).isSome then .error ⟨.repeatedKey key, some key, some e.location⟩
    else collect schema ((key, e) :: found) rest

def ofRoot (schema : Schema) (root : Node) : Except ParseError Fields := do
  return ⟨root, ← collect schema [] (← root.asMapping "document")⟩

def optional? (f : Fields) (key : String) : Option Node := (f.entries.lookup key).map Entry.value

def required (f : Fields) (key : String) : Except ParseError Node :=
  match f.optional? key with
  | some n => .ok n
  | none => .error (f.root.error key (.missingKey key))

end Fields

def names (field : String) (n : Node) : Except ParseError (List String) := do
  (← n.asList field).mapM fun item => item.asScalar field

def symbol (field : String) (n : Node) : Except ParseError Char := do
  let text ← n.asScalar field
  (symbolOfText text field).mapError fun e => n.error field e.reason

def symbols (field : String) (n : Node) : Except ParseError (List Char) := do
  (← n.asList field).mapM (symbol field)

def keySymbol (field : String) (e : Entry) : Except ParseError Char :=
  (symbolOfText e.key field).mapError fun error => error.withLocation e.location

namespace Fields

def scalar (f : Fields) (key : String) : Except ParseError String := do
  (← f.required key).asScalar key

def names (f : Fields) (key : String) : Except ParseError (List String) := do
  Source.names key (← f.required key)

def symbols (f : Fields) (key : String) : Except ParseError (List Char) := do
  Source.symbols key (← f.required key)

def optionalNames (f : Fields) (key : String) : Except ParseError (List String) :=
  match f.optional? key with
  | some n => Source.names key n
  | none => .ok []

def optionalSymbols (f : Fields) (key : String) : Except ParseError (List Char) :=
  match f.optional? key with
  | some n => Source.symbols key n
  | none => .ok []

end Fields

/-- The key path of an entry below a state. The empty key stands for the empty word. -/
def entryField (state key : String) : String :=
  Declaration.stateField state ++ "." ++ (if key.isEmpty then emptyText else key)

/-- Reads the entries below the states of a `delta` mapping. A state without a value has none. -/
def delta {α : Type} (read : String → String → Entry → Except ParseError α) :
    Option Node → Except ParseError (List α)
  | none => .ok []
  | some n => do
    let rows ← (← n.asMapping "delta").mapM fun state =>
      if state.value.isNull then .ok []
      else do
        let entries ← state.value.asMapping (Declaration.stateField state.key)
        entries.mapM fun e => read state.key (entryField state.key e.key) e
    return rows.flatten

def deltaPlaces : Option Node → Places
  | some (.mapping _ states) => states.flatMap fun state =>
    (Declaration.stateField state.key, state.location) ::
      match state.value with
      | .mapping _ entries => entries.map fun e => (entryField state.key e.key, e.location)
      | _ => []
  | _ => []

def Fields.places (f : Fields) : Places :=
  f.entries.map (fun (key, e) => (key, e.location)) ++ deltaPlaces (f.optional? "delta")

end Acceptors.Source
