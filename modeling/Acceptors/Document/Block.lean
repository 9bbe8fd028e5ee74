import Acceptors.Document.Syntax

/-! Nested blocks from indented lines. Lines of one indent that follow each other are the entries of
one mapping or the items of one list; what belongs to one of them stands below it, indented further.
The items of a list that is the value of a key may stand at the indent of the key. -/

namespace Acceptors

namespace Line

def isItem (l : Line) : Bool :=
  match l.content with
  | .entry _ => false
  | _ => true

end Line

namespace Block

abbrev Reader (α : Type) := List Line → Except ParseError (α × List Line)

def misplaced (l : Line) : ParseError :=
  (ParseError.ofReason .inconsistentIndentation).withLocation l.location

/-- Whether a line begins the value of a key at `indent`. -/
def belongsToKey (indent : Nat) (l : Line) : Bool :=
  indent < l.indent || (l.indent == indent && l.isItem)

/-- The value of a key at `indent`: what stands beside it, or else the block below it. -/
def fieldValue (block : Nat → Reader Node) (indent : Nat) (f : Field) : Reader Node := fun lines =>
  match f.value, lines with
  | some n, lines => .ok (n, lines)
  | none, [] => .ok (.null f.location, [])
  | none, l :: lines =>
    if belongsToKey indent l then block l.indent (l :: lines)
    else .ok (.null f.location, l :: lines)

def itemBelow (block : Nat → Reader Node) (indent : Nat) (location : Location) : Reader Node
  | [] => .ok (.null location, [])
  | l :: lines =>
    if indent < l.indent then block l.indent (l :: lines)
    else .ok (.null location, l :: lines)

mutual

def block : (fuel indent : Nat) → Reader Node
  | _, _, [] => .ok (.null .start, [])
  | 0, _, l :: _ => .error (misplaced l)
  | fuel + 1, indent, l :: lines =>
    if l.isItem then
      (items fuel indent [] (l :: lines)).map fun (found, rest) => (.list l.location found, rest)
    else
      (entries fuel indent [] (l :: lines)).map fun (found, rest) =>
        (.mapping l.location found, rest)

/-- The entries at `indent`, after those found before, newest first. -/
def entries : (fuel indent : Nat) → List Entry → Reader (List Entry)
  | _, _, found, [] => .ok (found.reverse, [])
  | 0, _, _, l :: _ => .error (misplaced l)
  | fuel + 1, indent, found, l :: lines =>
    match l.content with
    | .entry f =>
      if l.indent = indent then
        match fieldValue (block fuel) indent f lines with
        | .error e => .error e
        | .ok (value, lines) =>
          match Entry.add found (.mk f.key f.location value) with
          | .error e => .error e
          | .ok found => entries fuel indent found lines
      else .ok (found.reverse, l :: lines)
    | _ => .ok (found.reverse, l :: lines)

def items : (fuel indent : Nat) → List Node → Reader (List Node)
  | _, _, found, [] => .ok (found.reverse, [])
  | 0, _, _, l :: _ => .error (misplaced l)
  | fuel + 1, indent, found, l :: lines =>
    if l.indent = indent then
      match l.content with
      | .entry _ => .ok (found.reverse, l :: lines)
      | .itemValue n => items fuel indent (n :: found) lines
      | .item =>
        match itemBelow (block fuel) indent l.location lines with
        | .error e => .error e
        | .ok (n, lines) => items fuel indent (n :: found) lines
      | .itemEntry f =>
        let inner := f.location.column - 1
        match fieldValue (block fuel) inner f lines with
        | .error e => .error e
        | .ok (value, lines) =>
          match entries fuel inner [.mk f.key f.location value] lines with
          | .error e => .error e
          | .ok (found', lines) => items fuel indent (.mapping f.location found' :: found) lines
    else .ok (found.reverse, l :: lines)

end

/-- The document that lines make up. Every line has to find its place. -/
def ofLines (lines : List Line) : Except ParseError Node :=
  match lines with
  | [] => .ok (.null .start)
  | l :: rest =>
    match block (3 * (rest.length + 1) + 2) l.indent (l :: rest) with
    | .error e => .error e
    | .ok (n, []) => .ok n
    | .ok (_, l :: _) => .error (misplaced l)

end Block

end Acceptors
