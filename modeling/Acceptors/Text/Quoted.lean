import Acceptors.Text.Unprintable

/-! Texts between double quotes, on one line and in printable characters only. -/

namespace Acceptors.Text.Quoted

def codePoint (c : Char) : String := String.ofList (Nat.toDigits 16 c.toNat)

def escape (c : Char) : String :=
  if c = '"' then "\\\""
  else if c = '\\' then "\\\\"
  else if c = '\n' then "\\n"
  else if c = '\r' then "\\r"
  else if c = '\t' then "\\t"
  else if c.toNat = 0 then "\\0"
  else if isPrintable c then c.toString
  else "\\u\x7b" ++ codePoint c ++ "\x7d"

def encode (text : String) : String :=
  (text.foldl (fun out c => out ++ escape c) "\"").push '"'

end Acceptors.Text.Quoted
