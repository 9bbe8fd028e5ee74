/-! JSON values. A number keeps its text, and an object its members in the order in which they are
written, repeated keys included. -/

namespace Acceptors

inductive Json
  | null
  | bool (value : Bool)
  | number (text : String)
  | string (text : String)
  | array (items : List Json)
  | object (members : List (String × Json))
deriving Repr, Inhabited

namespace Json

def ofNat (n : Nat) : Json := .number (toString n)

def ofInt (n : Int) : Json := .number (toString n)

def ofChar (c : Char) : Json := .string c.toString

def ofStrings (texts : List String) : Json := .array (texts.map .string)

def ofChars (symbols : List Char) : Json := .array (symbols.map ofChar)

def member? : Json → String → Option Json
  | .object members, key => members.lookup key
  | _, _ => none

end Json

end Acceptors
