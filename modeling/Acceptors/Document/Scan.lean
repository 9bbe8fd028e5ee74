import Acceptors.Failure

/-! Scanning a text with backtracking. A scanner takes a cursor and either fails or returns a value
and the cursor after what it read. Besides, it keeps an account of the named constructs that were
tried in vain at the furthest place reached, from which a syntax error is reported. -/

namespace Acceptors

structure Cursor where
  rest : List Char
  index : Nat
  location : Location
deriving Repr

namespace Cursor

def ofText (text : List Char) : Cursor := ⟨text, 0, .start⟩

def after (c : Cursor) (read rest : List Char) : Cursor :=
  ⟨rest, c.index + read.length, c.location.after read⟩

end Cursor

/-- The constructs tried at the furthest place where one failed, newest first. -/
structure Attempts where
  index : Nat
  location : Location
  constructs : List Construct
deriving Repr

namespace Attempts

def initial : Attempts := ⟨0, .start, []⟩

def countAt (a : Attempts) (c : Cursor) : Nat :=
  if a.index = c.index then a.constructs.length else 0

/-- Records that a construct failed at a cursor. Attempts inside it at the same place give way to
it, except for a single one, which says more than the construct around it. -/
def record (a : Attempts) (c : Cursor) (construct : Construct) (earlier : Nat) : Attempts :=
  if a.countAt c = earlier + 1 then a
  else if a.index = c.index then
    { a with constructs := construct :: a.constructs.drop (a.constructs.length - earlier) }
  else if a.index < c.index then ⟨c.index, c.location, [construct]⟩
  else a

def expected (a : Attempts) : List Construct := Construct.all.filter (· ∈ a.constructs)

def error (a : Attempts) : ParseError :=
  (ParseError.ofReason (.unexpectedText a.expected)).withLocation a.location

end Attempts

def Scan (α : Type) : Type := Cursor → Attempts → Attempts × Option (α × Cursor)

namespace Scan

variable {α β : Type}

@[inline] def pure (x : α) : Scan α := fun c a => (a, some (x, c))

@[inline] def bind (p : Scan α) (q : α → Scan β) : Scan β := fun c a =>
  match p c a with
  | (a, some (x, c)) => q x c a
  | (a, none) => (a, none)

instance : Monad Scan where
  pure := Scan.pure
  bind := Scan.bind

def fail : Scan α := fun _ a => (a, none)

@[inline] def orElse (p q : Scan α) : Scan α := fun c a =>
  match p c a with
  | (a, none) => q c a
  | found => found

instance : OrElse (Scan α) := ⟨fun p q => p.orElse (q ())⟩

@[inline] def optional (p : Scan α) : Scan (Option α) := fun c a =>
  match p c a with
  | (a, some (x, c)) => (a, some (some x, c))
  | (a, none) => (a, some (none, c))

/-- Succeeds where `p` does, and reads nothing. -/
@[inline] def ahead (p : Scan α) : Scan Unit := fun c a =>
  match p c a with
  | (a, some _) => (a, some ((), c))
  | (a, none) => (a, none)

def location : Scan Location := fun c a => (a, some (c.location, c))

@[inline] def part (cut : List Char → List Char × List Char) : Scan (List Char) := fun c a =>
  let (read, rest) := cut c.rest
  (a, some (read, c.after read rest))

def skip (p : Char → Bool) : Scan (List Char) := part (List.span p)

def skip1 (p : Char → Bool) : Scan (List Char) := fun c a =>
  match c.rest with
  | x :: _ => if p x then skip p c a else (a, none)
  | [] => (a, none)

def next (p : Char → Bool) : Scan Unit := fun c a =>
  match c.rest with
  | x :: _ => if p x then (a, some ((), c)) else (a, none)
  | [] => (a, none)

def char (x : Char) : Scan Unit := fun c a =>
  match c.rest with
  | y :: rest => if y = x then (a, some ((), c.after [y] rest)) else (a, none)
  | [] => (a, none)

/-- Reads one line end: a line feed, a carriage return, or a carriage return and a line feed. -/
def newline : Scan Unit := fun c a =>
  match c.rest with
  | '\n' :: rest => (a, some ((), c.after ['\n'] rest))
  | '\r' :: '\n' :: rest => (a, some ((), c.after ['\r', '\n'] rest))
  | '\r' :: rest => (a, some ((), c.after ['\r'] rest))
  | _ => (a, none)

@[inline] def named (construct : Construct) (p : Scan α) : Scan α := fun c a =>
  let earlier := a.countAt c
  match p c a with
  | (a, none) => (a.record c construct earlier, none)
  | found => found

def endOfText : Scan Unit := named .endOfInput fun c a =>
  if c.rest.isEmpty then (a, some ((), c)) else (a, none)

def manyAfter (p : Scan α) : Nat → List α → Scan (List α)
  | 0, found, c, a => (a, some (found.reverse, c))
  | limit + 1, found, c, a =>
    match p c a with
    | (a, some (x, c)) => manyAfter p limit (x :: found) c a
    | (a, none) => (a, some (found.reverse, c))

/-- Reads `p` as often as it is there. Since `p` never reads nothing, the length of the text is
limit enough. -/
def many (limit : Nat) (p : Scan α) : Scan (List α) := manyAfter p limit []

end Scan

end Acceptors
