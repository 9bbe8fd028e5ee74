/-! Tapes that are infinite both ways. The cells from 0 on and those before 0 are kept apart, each
as far as it has been touched; every other cell is blank. -/

namespace Acceptors

structure Tape where
  /-- The cells 0, 1, 2, … -/
  right : Array Char
  /-- The cells -1, -2, -3, … -/
  left : Array Char
  blank : Char
deriving Repr

namespace Tape

def ofInput (input : List Char) (blank : Char) : Tape := ⟨input.toArray, #[], blank⟩

def read (t : Tape) : Int → Char
  | .ofNat n => t.right.getD n t.blank
  | .negSucc n => t.left.getD n t.blank

def pad (half : Array Char) (blank : Char) (n : Nat) : Array Char :=
  half ++ Array.replicate (n + 1 - half.size) blank

/-- Stores the cell at `position`, and with it all cells up to there. -/
def extendTo (t : Tape) : Int → Tape
  | .ofNat n => { t with right := pad t.right t.blank n }
  | .negSucc n => { t with left := pad t.left t.blank n }

def store (half : Array Char) (blank : Char) (n : Nat) (c : Char) : Array Char :=
  (pad half blank n).setIfInBounds n c

def write (t : Tape) (position : Int) (c : Char) : Tape :=
  match position with
  | .ofNat n => { t with right := store t.right t.blank n c }
  | .negSucc n => { t with left := store t.left t.blank n c }

def first (t : Tape) : Int := -t.left.size

def stop (t : Tape) : Int := t.right.size

def cells (t : Tape) : List Char := t.left.toList.reverse ++ t.right.toList

def dropLastBlanks (blank : Char) (cells : List Char) : List Char :=
  (cells.reverse.dropWhile (· == blank)).reverse

def trimmed (t : Tape) : List Char :=
  dropLastBlanks t.blank (t.cells.dropWhile (· == t.blank))

def firstSymbol (t : Tape) : Int :=
  match t.trimmed with
  | [] => 0
  | _ => t.first + (t.cells.takeWhile (· == t.blank)).length

def contents (t : Tape) : String := String.ofList t.trimmed

/-- Tapes are the same when they hold the same symbols in the same places, however many blanks each
of them stores. -/
instance : BEq Tape where
  beq a b := a.blank == b.blank && a.firstSymbol == b.firstSymbol && a.trimmed == b.trimmed

end Tape

structure Configuration where
  state : String
  tape : Tape
  head : Int
deriving Repr

namespace Configuration

instance : BEq Configuration where
  beq a b := a.state == b.state && a.tape == b.tape && a.head == b.head

def symbol (c : Configuration) : Char := c.tape.read c.head

def output (c : Configuration) : String := c.tape.contents

/-- The state and the stored tape, as far as the head, with the head's cell in brackets. -/
def display (c : Configuration) : String :=
  let low := min c.tape.first c.head
  let high := max c.tape.stop (c.head + 1)
  let cell (i : Nat) : String :=
    let position := low + i
    let symbol := (c.tape.read position).toString
    if position = c.head then "[" ++ symbol ++ "]" else symbol
  c.state ++ ": " ++ String.join ((List.range (high - low).toNat).map cell)

end Configuration

end Acceptors
