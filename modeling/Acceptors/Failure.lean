import Acceptors.Formalism
import Acceptors.Location

/-! What can go wrong, by cause. Each cause has one wording, given by its `message`; a `ParseError`
says in addition which entry of a source is at fault and where it stands. -/

namespace Acceptors

def blankSymbol : Char := '_'

/-- Stands for the empty string wherever one is shown or written as a key. -/
def emptyMark : Char := 'ε'

def emptyText : String := "ε"

def maxSourceBytes : Nat := 65536

/-- The pieces of a document that a syntax error can name, in the order in which they are listed. -/
inductive Construct
  | endOfInput
  | document
  | line
  | indent
  | entry
  | sequenceItem
  | flowSequence
  | flowMapping
  | flowPair
  | scalar
  | singleQuoted
  | singleText
  | doubleQuoted
  | doubleText
  | plain
deriving DecidableEq, Repr

namespace Construct

def all : List Construct :=
  [.endOfInput, .document, .line, .indent, .entry, .sequenceItem, .flowSequence, .flowMapping,
    .flowPair, .scalar, .singleQuoted, .singleText, .doubleQuoted, .doubleText, .plain]

def name : Construct → String
  | endOfInput => "EOI"
  | document => "document"
  | line => "line"
  | indent => "indent"
  | entry => "entry"
  | sequenceItem => "sequence_item"
  | flowSequence => "flow_sequence"
  | flowMapping => "flow_mapping"
  | flowPair => "flow_pair"
  | scalar => "scalar"
  | singleQuoted => "single_quoted"
  | singleText => "single_text"
  | doubleQuoted => "double_quoted"
  | doubleText => "double_text"
  | plain => "plain"

def alternatives : List String → String
  | [] => ""
  | [a] => a
  | [a, b] => s!"{a} or {b}"
  | names => String.intercalate ", " names.dropLast ++ ", or " ++ names.getLastD ""

theorem mem_all (c : Construct) : c ∈ all := by cases c <;> decide

end Construct

inductive Shape
  | nothing
  | scalar
  | list
  | mapping
deriving DecidableEq, Repr

def Shape.name : Shape → String
  | .nothing => "nothing"
  | .scalar => "a scalar"
  | .list => "a list"
  | .mapping => "a mapping"

inductive Reason
  | other (text : String)
  | sourceTooLarge
  | unexpectedText (expected : List Construct)
  | inconsistentIndentation
  | duplicateKey (key : String)
  | wrongShape (wanted found : Shape)
  | unknownKey (key : String)
  | repeatedKey (key : String)
  | missingKey (key : String)
  | emptySymbol
  | longSymbol (text : String)
  | actionLength (items : Nat)
  | unknownDirection (text : String)
  | noStates
  | emptyState
  | duplicateState (name : String)
  | undeclaredState (name : String)
  | duplicateSymbol (symbol : Char)
  | foreignSymbol (symbol : Char)
  | foreignTapeSymbol (symbol : Char)
  | blankInput
  | sameHaltingStates
  | duplicateTransition
  | missingTransition (symbol : Char)
  | noNonterminals
  | emptyNonterminal
  | duplicateNonterminal (name : String)
  | noBodies
  | duplicateBinding (name : String)
  | circularReference (name : String)
  | undefinedReference (name : String)
  | danglingEscape
  | unmatchedOpen
  | unmatchedClose
  | nothingToRepeat
  | lateBinding
  | secondPattern
  | noPattern
deriving DecidableEq, Repr

def Reason.message : Reason → String
  | other text => text
  | sourceTooLarge => s!"document is larger than {maxSourceBytes} bytes"
  | unexpectedText expected =>
    "syntax error: expected " ++ Construct.alternatives (expected.map Construct.name)
  | inconsistentIndentation => "inconsistent indentation"
  | duplicateKey key => s!"duplicate key '{key}'"
  | wrongShape wanted found => s!"expected {wanted.name}, found {found.name}"
  | unknownKey key => s!"unknown key '{key}'"
  | repeatedKey key => s!"'{key}' is given more than once"
  | missingKey key => s!"missing required key '{key}'"
  | emptySymbol => "empty symbol"
  | longSymbol text => s!"symbol '{text}' must be a single character"
  | actionLength items => s!"expected [next_state, write, direction], found {items} item(s)"
  | unknownDirection text => s!"invalid direction '{text}', expected L, R or S"
  | noStates => "at least one state is required"
  | emptyState => "state names must not be empty"
  | duplicateState name => s!"duplicate state '{name}'"
  | undeclaredState name => s!"undeclared state '{name}'"
  | duplicateSymbol symbol => s!"duplicate symbol '{symbol}'"
  | foreignSymbol symbol => s!"symbol '{symbol}' is not in the input alphabet"
  | foreignTapeSymbol symbol => s!"symbol '{symbol}' is not in the tape alphabet"
  | blankInput => s!"the blank symbol '{blankSymbol}' cannot be an input symbol"
  | sameHaltingStates => "accept_state and reject_state must be different states"
  | duplicateTransition => "duplicate transition"
  | missingTransition symbol => s!"missing transition on '{symbol}'"
  | noNonterminals => "a grammar needs at least one nonterminal"
  | emptyNonterminal => "nonterminal names must not be empty"
  | duplicateNonterminal name => s!"duplicate nonterminal '{name}'"
  | noBodies => "expected at least one right-hand side"
  | duplicateBinding name => s!"duplicate binding '{name}'"
  | circularReference name => s!"circular subexpression '{name}'"
  | undefinedReference name => s!"'{name}' used before its definition"
  | danglingEscape => "dangling escape '\\'"
  | unmatchedOpen => "unmatched '('"
  | unmatchedClose => "unmatched ')'"
  | nothingToRepeat => "'*' has nothing to repeat"
  | lateBinding => "bindings must come before the final pattern"
  | secondPattern => "a regex document has exactly one pattern line"
  | noPattern => "missing final pattern"

/-- A malformed source or definition. `field?` is the dotted key path of the entry at fault, such as
`delta.q0.1`, and `location?` its place in the text, when there is one. -/
structure ParseError where
  reason : Reason
  field? : Option String
  location? : Option Location
deriving DecidableEq, Repr

namespace ParseError

def ofReason (reason : Reason) : ParseError := ⟨reason, none, none⟩

def inField (field : String) (reason : Reason) : ParseError := ⟨reason, some field, none⟩

def withLocation (e : ParseError) (l : Location) : ParseError := { e with location? := some l }

def message (e : ParseError) : String :=
  (match e.location? with
    | some l => s!"line {l.line}, column {l.column}: "
    | none => "") ++
  (match e.field? with
    | some field => "`" ++ field ++ "`: "
    | none => "") ++
  e.reason.message

end ParseError

inductive DomainError
  | unknownSymbol (symbol : Char) (position : Nat)
  | unsupported (operation : String) (formalism : Formalism)
  | chartTooLarge (length cells limit : Nat)
deriving DecidableEq, Repr

def DomainError.message : DomainError → String
  | unknownSymbol symbol position =>
    s!"symbol '{symbol}' at position {position} is not in the input alphabet"
  | unsupported operation formalism => s!"{operation} is not supported for {formalism.name}"
  | chartTooLarge length cells limit =>
    s!"input of length {length} needs {cells} chart cells, above the limit of {limit}"

inductive Replay
  | apply
  | reverse
deriving DecidableEq, Repr

def Replay.name : Replay → String
  | .apply => "apply"
  | .reverse => "reverse"

inductive Violation
  | wrongPlace (use : Replay) (state : String) (head : Int) (foundState : String) (foundHead : Int)
  | wrongSymbol (use : Replay) (symbol : Char) (cell : Int) (found : Char)
  | unknownState (state : String)
  | treeTooDeep (limit : Nat)
  | missingFact (nonterminal : String) (first last : Nat)
  | missingDerivation (rank : Nat) (nonterminal : String) (first last : Nat)
deriving DecidableEq, Repr

def Violation.message : Violation → String
  | wrongPlace use state head foundState foundHead =>
    s!"cannot {use.name} diff: expected state '{state}' at head {head}, " ++
      s!"found '{foundState}' at head {foundHead}"
  | wrongSymbol use symbol cell found =>
    s!"cannot {use.name} diff: expected '{symbol}' at cell {cell}, found '{found}'"
  | unknownState state => s!"configuration is in unknown state '{state}'"
  | treeTooDeep limit => s!"grammar did not terminate: parse tree deeper than {limit}"
  | missingFact nonterminal first last => s!"no fact for {nonterminal} over {first}..{last}"
  | missingDerivation rank nonterminal first last =>
    s!"no derivation of rank {rank} for {nonterminal} over {first}..{last}"

inductive ReadError
  | missing
  | notDirectory
  | isDirectory
  | denied
  | nameTooLong
  /-- A path with a null character, which no file can have. -/
  | nullCharacter
  | notText
  | other (text : String)
deriving DecidableEq, Repr

def ReadError.message : ReadError → String
  | missing => "No such file or directory (os error 2)"
  | notDirectory => "Not a directory (os error 20)"
  | isDirectory => "Is a directory (os error 21)"
  | denied => "Permission denied (os error 13)"
  | nameTooLong => "File name too long (os error 36)"
  | nullCharacter => "file name contained an unexpected NUL byte"
  | notText => "stream did not contain valid UTF-8"
  | other text => text

/-- A fault in getting at a source, as opposed to one inside it. -/
inductive FileError
  | unreadable (path : String) (error : ReadError)
  | unreadableDirectory (path : String) (error : ReadError)
  | unknownExtension (path : String)
  | invalidSettings
  | unknownSample (name : String) (known : List String)
  | noFile
  | notLoaded (path : String) (error : ParseError)
deriving DecidableEq, Repr

def FileError.message : FileError → String
  | unreadable path error => s!"Failed to read file {path}: {error.message}"
  | unreadableDirectory path error => s!"Failed to read directory {path}: {error.message}"
  | unknownExtension path => s!"Cannot tell the formalism of {path} from its extension"
  | invalidSettings => "Invalid configuration"
  | unknownSample name known =>
    s!"Unknown sample '{name}', expected one of: " ++ String.intercalate ", " known
  | noFile => "No input file given"
  | notLoaded path error => s!"Failed to load automaton from {path}: Parse error: {error.message}"

inductive Failure
  | parse (error : ParseError)
  | domain (error : DomainError)
  | violation (error : Violation)
  | file (error : FileError)
deriving DecidableEq, Repr

def Failure.message : Failure → String
  | parse error => "Parse error: " ++ error.message
  | domain error => "Domain error: " ++ error.message
  | violation error => "Internal invariant violated: " ++ error.message
  | file error => "File error: " ++ error.message

instance : Coe ParseError Failure := ⟨.parse⟩
instance : Coe DomainError Failure := ⟨.domain⟩
instance : Coe Violation Failure := ⟨.violation⟩
instance : Coe FileError Failure := ⟨.file⟩

end Acceptors
