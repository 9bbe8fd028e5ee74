import Acceptors.Automaton
import Acceptors.Files.System

/-! Loading automata from files, whose extensions tell the formalism. -/

namespace Acceptors

abbrev ReadFile := String → Except ReadError String

def loadAs (read : ReadFile) (path : String) (f : Formalism) (s : Settings) :
    Except Failure Automaton :=
  match read path with
  | .error e => .error (.file (.unreadable path e))
  | .ok text => (Automaton.ofText f text s).mapError .parse

def load (read : ReadFile) (path : String) (s : Settings) : Except Failure Automaton :=
  match Formalism.ofPath? path with
  | none => .error (.file (.unknownExtension path))
  | some f => loadAs read path f s

def withPath (path : String) : Failure → Failure
  | .parse e => .file (.notLoaded path e)
  | e => e

def loadDirectory (fs : FileSystem) (path : String) (s : Settings) :
    List (Except Failure (String × Automaton)) :=
  match fs.list path with
  | .error e => [.error (.file (.unreadableDirectory path e))]
  | .ok entries => entries.filterMap fun (name, content) =>
    let inner := Path.join path name
    if content.isDirectory || (Formalism.ofPath? inner).isNone then none
    else some (((load fs.readText inner s).mapError (withPath inner)).map fun a => (inner, a))

end Acceptors
