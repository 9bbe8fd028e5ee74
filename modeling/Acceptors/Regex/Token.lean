import Acceptors.Failure
import Acceptors.Text.Blank
import Acceptors.Text.Longest

/-! Tokens of a pattern. White space separates tokens, a backslash takes the meaning from the
character after it, and where the name of a binding matches, the longest such name is one token. -/

namespace Acceptors.Regex

structure PatternError where
  reason : Reason
  offset : Nat
deriving DecidableEq, Repr

namespace Token

inductive Kind
  | opening
  | closing
  | bar
  | star
  | symbol (c : Char)
  | name (text : String)
deriving DecidableEq, Repr

end Token

structure Token where
  kind : Token.Kind
  offset : Nat
deriving DecidableEq, Repr

namespace Token

/-- The tokens of a text that begins at `offset`. The first `skip` characters belong to the token
before it. -/
def scan (names : List (List Char)) :
    (skip offset : Nat) → List Char → List Token → Except PatternError (List Token)
  | _, _, [], found => .ok found.reverse
  | skip + 1, offset, _ :: rest, found => scan names skip (offset + 1) rest found
  | 0, offset, c :: rest, found =>
    if Text.isBlank c then scan names 0 (offset + 1) rest found
    else if c = '\\' then
      match rest with
      | [] => .error ⟨.danglingEscape, offset⟩
      | e :: rest => scan names 0 (offset + 2) rest (⟨.symbol e, offset⟩ :: found)
    else if c = '(' then scan names 0 (offset + 1) rest (⟨.opening, offset⟩ :: found)
    else if c = ')' then scan names 0 (offset + 1) rest (⟨.closing, offset⟩ :: found)
    else if c = '|' then scan names 0 (offset + 1) rest (⟨.bar, offset⟩ :: found)
    else if c = '*' then scan names 0 (offset + 1) rest (⟨.star, offset⟩ :: found)
    else
      match Text.longestName? names (c :: rest) with
      | some name =>
        scan names (name.length - 1) (offset + 1) rest (⟨.name (.ofList name), offset⟩ :: found)
      | none => scan names 0 (offset + 1) rest (⟨.symbol c, offset⟩ :: found)

def tokenize (names : List String) (pattern : List Char) : Except PatternError (List Token) :=
  scan (names.map String.toList) 0 0 pattern []

end Token

end Acceptors.Regex
