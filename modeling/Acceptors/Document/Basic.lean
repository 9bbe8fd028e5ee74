import Acceptors.Document.Block

/-! Reading whole documents. -/

namespace Acceptors

def Line.inlineValue? (l : Line) : Option Node :=
  match l.content with
  | .entry f => f.value
  | .item => none
  | .itemValue n => some n
  | .itemEntry f => f.value

def checkSize (text : String) : Except ParseError Unit :=
  if maxSourceBytes < text.utf8ByteSize then .error (.ofReason .sourceTooLarge) else .ok ()

def checkLines : List Line → Except ParseError Unit
  | [] => .ok ()
  | l :: lines =>
    match l.inlineValue? with
    | none => checkLines lines
    | some n => do
      n.checkKeys
      checkLines lines

/-- The document that a text holds. Faults in the form of the text come before repeated keys on a
line, and these before faults in the arrangement of lines. -/
def Node.ofText (text : String) : Except ParseError Node := do
  checkSize text
  let lines ← Syntax.lines text.toList
  checkLines lines
  Block.ofLines lines

end Acceptors
