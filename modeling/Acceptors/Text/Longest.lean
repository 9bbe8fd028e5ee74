/-! The longest of a list of names that a text begins with. -/

namespace Acceptors.Text

/-- Chooses the longer of two names, the later one among equals. -/
def longer (best : Option (List Char)) (name : List Char) : Option (List Char) :=
  match best with
  | some b => if b.length ≤ name.length then some name else some b
  | none => some name

def longestName? (names : List (List Char)) (text : List Char) : Option (List Char) :=
  (names.filter fun name => !name.isEmpty && name.isPrefixOf text).foldl longer none

end Acceptors.Text
