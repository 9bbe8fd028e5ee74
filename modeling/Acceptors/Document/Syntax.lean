import Acceptors.Document.Node
import Acceptors.Document.Scan

/-! The lines of a document. A line has an indent and then an entry `key: value`, a list item `- …`,
or nothing, and may end in a comment. Values on a line are scalars, `[lists]` and `{mappings}`; only
the latter two may go on over line ends. -/

namespace Acceptors

structure Field where
  key : String
  location : Location
  value : Option Node
deriving DecidableEq

inductive Line.Content
  | entry (field : Field)
  | item
  | itemValue (value : Node)
  | itemEntry (field : Field)
deriving DecidableEq

structure Line where
  indent : Nat
  location : Location
  content : Line.Content
deriving DecidableEq

namespace Syntax

def isLineEnd (c : Char) : Bool := c == '\n' || c == '\r'

def isBlank (c : Char) : Bool := c == ' ' || c == '\t'

def isSpace (c : Char) : Bool := isBlank c || isLineEnd c

def isPlain (c : Char) : Bool :=
  !(c == ':' || c == ',' || c == '[' || c == ']' || c == '\x7b' || c == '\x7d' || c == '#' ||
    c == '\'' || c == '"' || isSpace c)

/-- The text up to a single quote or line end, with the quotes written twice, after what was read
before, newest first. -/
def singleText (read : List Char) : List Char → List Char × List Char
  | '\'' :: '\'' :: rest => singleText ('\'' :: '\'' :: read) rest
  | c :: rest =>
    if c = '\'' || isLineEnd c then (read.reverse, c :: rest) else singleText (c :: read) rest
  | [] => (read.reverse, [])

/-- The text up to a double quote or line end that no backslash stands before, after what was read
before, newest first. -/
def doubleText (read : List Char) : List Char → List Char × List Char
  | '\\' :: c :: rest => doubleText (c :: '\\' :: read) rest
  | c :: rest =>
    if c = '"' || isLineEnd c then (read.reverse, c :: rest) else doubleText (c :: read) rest
  | [] => (read.reverse, [])

def plainText (text : List Char) : List Char × List Char :=
  let run := text.takeWhile fun c => isPlain c || isBlank c
  let read := (run.reverse.dropWhile isBlank).reverse
  (read, text.drop read.length)

def unquoteSingle : List Char → List Char
  | '\'' :: '\'' :: rest => '\'' :: unquoteSingle rest
  | c :: rest => c :: unquoteSingle rest
  | [] => []

def unescape : Char → Char
  | 'n' => '\n'
  | 't' => '\t'
  | c => c

def unquoteDouble : List Char → List Char
  | '\\' :: c :: rest => unescape c :: unquoteDouble rest
  | c :: rest => c :: unquoteDouble rest
  | [] => []

def singleQuoted : Scan String := .named .singleQuoted do
  Scan.char '\''
  let text ← Scan.named .singleText (Scan.part (singleText []))
  Scan.char '\''
  return String.ofList (unquoteSingle text)

def doubleQuoted : Scan String := .named .doubleQuoted do
  Scan.char '"'
  let text ← Scan.named .doubleText (Scan.part (doubleText []))
  Scan.char '"'
  return String.ofList (unquoteDouble text)

def plain : Scan String := .named .plain do
  Scan.next isPlain
  return String.ofList (← Scan.part plainText)

def scalar : Scan String := .named .scalar (singleQuoted <|> doubleQuoted <|> plain)

def skipSpace : Scan (List Char) := .skip isSpace

def skipBlanks : Scan (List Char) := .skip isBlank

/-- `p, p, …` with space around the commas and perhaps a comma at the end, or nothing. -/
def separated {α : Type} (limit : Nat) (p : Scan α) : Scan (List α) := do
  let items ← Scan.optional do
    let x ← p
    let rest ← Scan.many limit do
      let _ ← skipSpace
      Scan.char ','
      let _ ← skipSpace
      p
    let _ ← Scan.optional do
      let _ ← skipSpace
      Scan.char ','
    return x :: rest
  return items.getD []

def bracketed {α : Type} (opening closing : Char) (limit : Nat) (p : Scan α) : Scan (List α) := do
  Scan.char opening
  let _ ← skipSpace
  let items ← separated limit p
  let _ ← skipSpace
  Scan.char closing
  return items

/-- One pair of a flow mapping; the value may stand on a later line. -/
def flowPair (value : Scan Node) : Scan Entry := .named .flowPair do
  let location ← Scan.location
  let key ← scalar
  let _ ← skipSpace
  Scan.char ':'
  let _ ← skipSpace
  return .mk key location (← value)

def flowSequence (limit : Nat) (value : Scan Node) : Scan (List Node) :=
  .named .flowSequence (bracketed '[' ']' limit value)

def flowMapping (limit : Nat) (value : Scan Node) : Scan (List Entry) :=
  .named .flowMapping (bracketed '\x7b' '\x7d' limit (flowPair value))

/-- A list, mapping or scalar. Each level of nesting takes from `limit`, of which the length of the
text is enough. -/
def value : (limit : Nat) → Scan Node
  | 0 => .fail
  | limit + 1 => do
    let location ← Scan.location
    Node.list location <$> flowSequence limit (value limit) <|>
      Node.mapping location <$> flowMapping limit (value limit) <|>
      Node.scalar location <$> scalar

def entry (limit : Nat) : Scan Field := .named .entry do
  let location ← Scan.location
  let key ← scalar
  let _ ← skipBlanks
  Scan.char ':'
  let value ← Scan.optional do
    let _ ← Scan.skip1 isBlank
    value limit
  return ⟨key, location, value⟩

def afterDash : Scan Unit :=
  (do let _ ← Scan.skip1 isBlank) <|> Scan.newline <|> Scan.endOfText

def item (limit : Nat) : Scan Line.Content := .named .sequenceItem do
  Scan.char '-'
  Scan.ahead afterDash
  let content ← Scan.optional do
    let _ ← Scan.skip1 isBlank
    Line.Content.itemEntry <$> entry limit <|> Line.Content.itemValue <$> value limit
  return content.getD .item

def skipComment : Scan Unit := do
  Scan.char '#'
  let _ ← Scan.skip fun c => !isLineEnd c

def line (limit : Nat) : Scan (Option Line) := .named .line do
  let indent ← Scan.named .indent (Scan.skip (· == ' '))
  let location ← Scan.location
  let content ← Scan.optional (item limit <|> Line.Content.entry <$> entry limit)
  let _ ← skipBlanks
  let _ ← Scan.optional skipComment
  return content.map fun content => ⟨indent.length, location, content⟩

def document (limit : Nat) : Scan (List Line) := .named .document do
  let first ← line limit
  let rest ← Scan.many limit do
    Scan.newline
    line limit
  Scan.endOfText
  return (first :: rest).filterMap id

def lines (text : List Char) : Except ParseError (List Line) :=
  match document (text.length + 1) (.ofText text) .initial with
  | (_, some (lines, _)) => .ok lines
  | (attempts, none) => .error attempts.error

end Syntax

end Acceptors
