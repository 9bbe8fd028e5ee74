import Acceptors.Files.Path

/-! Directories and files in memory, and how the names of a path are followed through them. -/

namespace Acceptors

inductive FileTree
  | file (bytes : ByteArray)
  | directory (entries : List (String × FileTree))

instance : Inhabited FileTree := ⟨.directory []⟩

namespace FileTree

def isDirectory : FileTree → Bool
  | file _ => false
  | directory _ => true

/-- Follows names from a directory. `above` holds the directories around it, innermost first; the
one above the outermost is the outermost itself. A name is judged only when the way has come to
it. -/
def follow (above : List FileTree) (here : FileTree) : List String → Except ReadError FileTree
  | [] => .ok here
  | name :: rest =>
    match here with
    | file _ => .error .notDirectory
    | directory entries =>
      if Path.isIdle name then follow above here rest
      else if name = ".." then
        match above with
        | [] => follow [] here rest
        | up :: above => follow above up rest
      else if Path.maxNameBytes < name.utf8ByteSize then .error .nameTooLong
      else
        match entries.lookup name with
        | none => .error .missing
        | some next => follow (here :: above) next rest

def text : FileTree → Except ReadError String
  | directory _ => .error .isDirectory
  | file bytes =>
    match String.fromUTF8? bytes with
    | some text => .ok text
    | none => .error .notText

def entries : FileTree → Except ReadError (List (String × FileTree))
  | directory entries => .ok (entries.mergeSort fun a b => a.1 ≤ b.1)
  | file _ => .error .notDirectory

/-- What comes of putting something where there is something already: an empty directory leaves a
directory as it is. -/
def replace : FileTree → FileTree → FileTree
  | directory entries, directory [] => directory entries
  | _, content => content

/-- Puts something below a directory, together with the directories on the way to it. Nothing can be
put below a file. -/
def insert (t : FileTree) (content : FileTree) : List String → FileTree
  | [] => t.replace content
  | name :: rest =>
    match t with
    | file bytes => file bytes
    | directory entries =>
      let inner := (entries.lookup name).getD (directory [])
      directory ((entries.filter fun e => e.1 != name) ++ [(name, inner.insert content rest)])

end FileTree

end Acceptors
