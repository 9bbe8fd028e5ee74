import Acceptors.Files.Tree

/-! All files there are, as a program sees them: what a path leads to depends on the directory in
which the program works. -/

namespace Acceptors

structure FileSystem where
  root : FileTree
  /-- The names that lead from the root to the directory where relative paths begin. -/
  workingDirectory : List String

namespace FileSystem

def find (fs : FileSystem) (path : String) : Except ReadError FileTree := do
  Path.check path
  let start := if Path.isAbsolute path then [] else fs.workingDirectory
  fs.root.follow [] (start ++ Path.segments path)

def readText (fs : FileSystem) (path : String) : Except ReadError String := do
  (← fs.find path).text

def list (fs : FileSystem) (path : String) : Except ReadError (List (String × FileTree)) := do
  (← fs.find path).entries

end FileSystem

end Acceptors
