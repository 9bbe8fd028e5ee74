import Acceptors.Json.Basic

/-! JSON text, on one line or indented by two blanks a level. Characters beyond ASCII stand for
themselves. -/

namespace Acceptors.Json

def hexDigit (n : Nat) : Char := if n < 10 then Char.ofNat (48 + n) else Char.ofNat (87 + n)

def escape (c : Char) : String :=
  if c = '"' then "\\\""
  else if c = '\\' then "\\\\"
  else if c = '\n' then "\\n"
  else if c = '\r' then "\\r"
  else if c = '\t' then "\\t"
  else if c.toNat = 8 then "\\b"
  else if c.toNat = 12 then "\\f"
  else if c.toNat < 32 then
    String.ofList ['\\', 'u', '0', '0', hexDigit (c.toNat / 16), hexDigit (c.toNat % 16)]
  else c.toString

def quoted (text : String) : String :=
  (text.foldl (fun out c => out ++ escape c) "\"").push '"'

mutual

def writeCompact (out : String) : Json → String
  | null => out ++ "null"
  | bool b => out ++ (if b then "true" else "false")
  | number text => out ++ text
  | string text => out ++ quoted text
  | array items => (writeItems (out.push '[') true items).push ']'
  | object members => (writeMembers (out.push '\x7b') true members).push '\x7d'

def writeItems (out : String) (first : Bool) : List Json → String
  | [] => out
  | v :: items => writeItems (writeCompact (if first then out else out.push ',') v) false items

def writeMembers (out : String) (first : Bool) : List (String × Json) → String
  | [] => out
  | (key, v) :: members =>
    let out := if first then out else out.push ','
    writeMembers (writeCompact (out ++ quoted key ++ ":") v) false members

end

def compact (v : Json) : String := writeCompact "" v

def newline (out : String) (level : Nat) : String :=
  (List.replicate (2 * level) ' ').foldl String.push (out.push '\n')

mutual

def writeIndented (level : Nat) (out : String) : Json → String
  | null => out ++ "null"
  | bool b => out ++ (if b then "true" else "false")
  | number text => out ++ text
  | string text => out ++ quoted text
  | array [] => out ++ "[]"
  | array (v :: items) =>
    let out := writeIndented (level + 1) (newline (out.push '[') (level + 1)) v
    (newline (writeMoreItems (level + 1) out items) level).push ']'
  | object [] => out ++ "\x7b\x7d"
  | object ((key, v) :: members) =>
    let out := newline (out.push '\x7b') (level + 1) ++ quoted key ++ ": "
    let out := writeIndented (level + 1) out v
    (newline (writeMoreMembers (level + 1) out members) level).push '\x7d'

def writeMoreItems (level : Nat) (out : String) : List Json → String
  | [] => out
  | v :: items =>
    writeMoreItems level (writeIndented level (newline (out.push ',') level) v) items

def writeMoreMembers (level : Nat) (out : String) : List (String × Json) → String
  | [] => out
  | (key, v) :: members =>
    let out := newline (out.push ',') level ++ quoted key ++ ": "
    writeMoreMembers level (writeIndented level out v) members

end

def indented (v : Json) : String := writeIndented 0 "" v

end Acceptors.Json
