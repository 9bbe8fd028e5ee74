import Acceptors.Failure

/-! Paths as text, with `/` between the names. -/

namespace Acceptors

namespace Path

def segments (path : String) : List String := path.splitOn "/"

/-- Whether a segment stays in the directory that it stands in. -/
def isIdle (segment : String) : Bool := segment == "" || segment == "."

def names (path : String) : List String := (segments path).filter fun s => !isIdle s

def fileName? (path : String) : Option String :=
  match (names path).getLast? with
  | some ".." => none
  | name => name

/-- What follows the last dot of a file's name, unless the name begins with that dot. -/
def extension? (path : String) : Option String := do
  let name := (← fileName? path).toList
  let (reversed, rest) := name.reverse.span (· != '.')
  match rest with
  | _ :: _ :: _ => some (String.ofList reversed.reverse)
  | _ => none

def isAbsolute (path : String) : Bool := path.startsWith "/"

/-- A path as seen from a directory. One that begins at the root stands for itself. -/
def join (directory path : String) : String :=
  if isAbsolute path then path
  else if directory.isEmpty || directory.endsWith "/" then directory ++ path
  else directory ++ "/" ++ path

def maxNameBytes : Nat := 255

def maxBytes : Nat := 4095

def check (path : String) : Except ReadError Unit :=
  if path.contains '\x00' then .error .nullCharacter
  else if path.isEmpty then .error .missing
  else if maxBytes < path.utf8ByteSize then .error .nameTooLong
  else .ok ()

end Path

def Formalism.ofPath? (path : String) : Option Formalism := (Path.extension? path).bind ofName?

end Acceptors
