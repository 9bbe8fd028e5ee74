import Acceptors.Json.Basic

/-! Reading JSON text. Only blanks, tabs and line ends may stand between tokens and nothing may
follow the value. An escape for half of a surrogate pair is refused in the keys of the outermost
object, and read as the replacement character in other strings. -/

namespace Acceptors.Json

namespace Reader

def isSpace (c : Char) : Bool := c == ' ' || c == '\n' || c == '\r' || c == '\t'

def skipSpace (text : List Char) : List Char := text.dropWhile isSpace

def hexValue? (c : Char) : Option Nat :=
  if c.isDigit then some (c.toNat - 48)
  else if 'a' ≤ c && c ≤ 'f' then some (c.toNat - 87)
  else if 'A' ≤ c && c ≤ 'F' then some (c.toNat - 55)
  else none

def hex4? (a b c d : Char) : Option Nat := do
  return (((← hexValue? a) * 16 + (← hexValue? b)) * 16 + (← hexValue? c)) * 16 + (← hexValue? d)

def isHighSurrogate (n : Nat) : Bool := 0xD800 ≤ n && n ≤ 0xDBFF

def isLowSurrogate (n : Nat) : Bool := 0xDC00 ≤ n && n ≤ 0xDFFF

def escaped? : Char → Option Char
  | '"' => some '"'
  | '\\' => some '\\'
  | '/' => some '/'
  | 'b' => some '\x08'
  | 'f' => some '\x0c'
  | 'n' => some '\n'
  | 'r' => some '\r'
  | 't' => some '\t'
  | _ => none

/-- Half of a surrogate pair, which names no character. -/
def lone? (strict : Bool) : Option Char := if strict then none else some '\uFFFD'

def stringBody (strict : Bool) : List Char → List Char → Option (List Char × List Char)
  | found, '"' :: rest => some (found.reverse, rest)
  | found, '\\' :: 'u' :: a :: b :: c :: d :: '\\' :: 'u' :: e :: f :: g :: h :: rest => do
    let n ← hex4? a b c d
    let low := (hex4? e f g h).getD 0
    if isHighSurrogate n && isLowSurrogate low then
      let code := 0x10000 + (n - 0xD800) * 0x400 + (low - 0xDC00)
      stringBody strict (Char.ofNat code :: found) rest
    else
      let char ← if isHighSurrogate n || isLowSurrogate n then lone? strict else some (Char.ofNat n)
      stringBody strict (char :: found) ('\\' :: 'u' :: e :: f :: g :: h :: rest)
  | found, '\\' :: 'u' :: a :: b :: c :: d :: rest => do
    let n ← hex4? a b c d
    let char ← if isHighSurrogate n || isLowSurrogate n then lone? strict else some (Char.ofNat n)
    stringBody strict (char :: found) rest
  | found, '\\' :: c :: rest => do
    stringBody strict ((← escaped? c) :: found) rest
  | found, c :: rest => if c.toNat < 32 then none else stringBody strict (c :: found) rest
  | _, [] => none

def digits? (text : List Char) : Option (List Char × List Char) :=
  match text.span Char.isDigit with
  | ([], _) => none
  | found => some found

def numberPart? (opening : List Char) (text : List Char) : Option (List Char × List Char) := do
  let (digits, rest) ← digits? text
  return (opening ++ digits, rest)

def fraction? : List Char → Option (List Char × List Char)
  | '.' :: rest => numberPart? ['.'] rest
  | rest => some ([], rest)

def exponent? : List Char → Option (List Char × List Char)
  | e :: sign :: rest =>
    if e == 'e' || e == 'E' then
      if sign == '+' || sign == '-' then numberPart? [e, sign] rest
      else numberPart? [e] (sign :: rest)
    else some ([], e :: sign :: rest)
  | [e] => if e == 'e' || e == 'E' then none else some ([], [e])
  | [] => some ([], [])

/-- A number without its sign. No further digit follows a leading zero. -/
def magnitude? (text : List Char) : Option (List Char × List Char) := do
  let (whole, rest) ← digits? text
  if whole.length > 1 && whole.head? == some '0' then none
  else
    let (fraction, rest) ← fraction? rest
    let (exponent, rest) ← exponent? rest
    return (whole ++ fraction ++ exponent, rest)

def number? : List Char → Option (Json × List Char)
  | '-' :: rest => do
    let (text, rest) ← magnitude? rest
    return (.number (String.ofList ('-' :: text)), rest)
  | rest => do
    let (text, rest) ← magnitude? rest
    return (.number (String.ofList text), rest)

mutual

/-- A value at the head of a text, and what comes after it. Only the keys of the value itself are
read strictly, if at all. -/
def value? (strict : Bool) : Nat → List Char → Option (Json × List Char)
  | 0, _ => none
  | fuel + 1, text =>
    match text with
    | 'n' :: 'u' :: 'l' :: 'l' :: rest => some (.null, rest)
    | 't' :: 'r' :: 'u' :: 'e' :: rest => some (.bool true, rest)
    | 'f' :: 'a' :: 'l' :: 's' :: 'e' :: rest => some (.bool false, rest)
    | '"' :: rest => do
      let (text, rest) ← stringBody false [] rest
      return (.string (String.ofList text), rest)
    | '[' :: rest =>
      match skipSpace rest with
      | ']' :: rest => some (.array [], rest)
      | rest => items? fuel [] rest
    | '\x7b' :: rest =>
      match skipSpace rest with
      | '\x7d' :: rest => some (.object [], rest)
      | rest => members? strict fuel [] rest
    | rest => number? rest

def items? : Nat → List Json → List Char → Option (Json × List Char)
  | 0, _, _ => none
  | fuel + 1, found, text =>
    match value? false fuel text with
    | none => none
    | some (v, rest) =>
      match skipSpace rest with
      | ',' :: rest => items? fuel (v :: found) (skipSpace rest)
      | ']' :: rest => some (.array (v :: found).reverse, rest)
      | _ => none

def members? (strict : Bool) : Nat → List (String × Json) → List Char → Option (Json × List Char)
  | 0, _, _ => none
  | fuel + 1, found, text =>
    match text with
    | '"' :: rest =>
      match stringBody strict [] rest with
      | none => none
      | some (key, rest) =>
        match skipSpace rest with
        | ':' :: rest =>
          match value? false fuel (skipSpace rest) with
          | none => none
          | some (v, rest) =>
            let found := (String.ofList key, v) :: found
            match skipSpace rest with
            | ',' :: rest => members? strict fuel found (skipSpace rest)
            | '\x7d' :: rest => some (.object found.reverse, rest)
            | _ => none
        | _ => none
    | _ => none

end

end Reader

def parse? (text : String) : Option Json :=
  let text := text.toList
  match Reader.value? true (text.length + 1) (Reader.skipSpace text) with
  | some (v, rest) => if (Reader.skipSpace rest).isEmpty then some v else none
  | none => none

end Acceptors.Json
