import Acceptors.Document.Basic
import Acceptors.Regex.Definition

/-! Documents that describe regular expressions: lines `name = pattern`, and after them one line
with the pattern to match. Blank lines and lines that begin with `#` do not count. -/

namespace Acceptors.Regex

inductive SourceLine
  | binding (location : Location) (name : String) (pattern : PatternLine)
  | pattern (location : Location) (pattern : PatternLine)
deriving DecidableEq, Repr

namespace SourceLine

/-- The lines of a text, each with the place where it begins, after those found before, newest
first. A line is ended by a line feed, a carriage return, or a carriage return and a line feed. -/
def split (found : List (Location × List Char)) (start here : Location) (line : List Char) :
    List Char → List (Location × List Char)
  | [] => ((start, line.reverse) :: found).reverse
  | '\n' :: rest =>
    let next := here.next '\n'
    split ((start, line.reverse) :: found) next next [] rest
  | '\r' :: '\n' :: rest =>
    let next := (here.next '\r').next '\n'
    split ((start, line.reverse) :: found) next next [] rest
  | '\r' :: rest =>
    let next := here.next '\r'
    split ((start, line.reverse) :: found) next next [] rest
  | c :: rest => split found start (here.next c) (c :: line) rest

def isNameStart (c : Char) : Bool := c.isAlpha || c == '_'

def isNameRest (c : Char) : Bool := c.isAlphanum || c == '_'

def binding? (l : Location) (text : List Char) : Option SourceLine :=
  if text.head?.any isNameStart then
    let (name, rest) := text.span isNameRest
    let (blanks, rest) := rest.span Syntax.isBlank
    match rest with
    | '=' :: body =>
      let place := l.after (name ++ blanks ++ ['='])
      let line : PatternLine :=
        if body.isEmpty then .ofText "" else ⟨String.ofList body, some place⟩
      some (.binding l (String.ofList name) line)
    | _ => none
  else none

def ofLine? (start : Location) (line : List Char) : Option SourceLine :=
  let (blanks, text) := line.span Syntax.isBlank
  let l := start.after blanks
  match text with
  | [] => none
  | '#' :: _ => none
  | text => (binding? l text).orElse fun _ => some (.pattern l ⟨String.ofList text, some l⟩)

def ofText (text : String) : List SourceLine :=
  (split [] .start .start [] text.toList).filterMap fun (l, line) => ofLine? l line

end SourceLine

namespace Definition

def collect (bindings : List (String × PatternLine)) (pattern : Option PatternLine) :
    List SourceLine → Except ParseError Definition
  | [] =>
    match pattern with
    | some p => .ok ⟨bindings.reverse, p⟩
    | none => .error ((ParseError.inField "pattern" .noPattern).withLocation .start)
  | .binding l name line :: rest =>
    if pattern.isSome then .error ((ParseError.ofReason .lateBinding).withLocation l)
    else collect ((name, line) :: bindings) pattern rest
  | .pattern l line :: rest =>
    if pattern.isSome then
      .error ((ParseError.inField "pattern" .secondPattern).withLocation l)
    else collect bindings (some line) rest

end Definition

def ofText (text : String) : Except ParseError Regex := do
  checkSize text
  let d ← Definition.collect [] none (SourceLine.ofText text)
  d.build

end Acceptors.Regex
