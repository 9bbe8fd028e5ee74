import Std.Data.TreeSet
import Acceptors.Failure

/-! The names of an automaton's states. A state is known inside the library by its number, the
place of its name in the table. -/

namespace Acceptors

/-- Appends primes until the name is free; `bound` primes at most. -/
def freshName (taken : String → Bool) : Nat → String → String
  | 0, name => name
  | bound + 1, name => if taken name then freshName taken bound (name.push '\'') else name

structure StateTable where
  names : Array String
deriving DecidableEq, Repr

namespace StateTable

def empty : StateTable := ⟨#[]⟩

def size (t : StateTable) : Nat := t.names.size

def isEmpty (t : StateTable) : Bool := t.names.isEmpty

def id? (t : StateTable) (name : String) : Option Nat := t.names.idxOf? name

def name (t : StateTable) (id : Nat) : String := t.names.getD id ""

def push (t : StateTable) (name : String) : StateTable :=
  ⟨t.names.push (freshName t.names.contains (t.size + 1) name)⟩

/-- A table of generated names in order. One that is taken already gets primes, as with `push`. -/
def generate (names : List String) : StateTable :=
  ⟨go #[] ∅ names⟩
where
  go (done : Array String) (taken : Std.TreeSet String compare) : List String → Array String
    | [] => done
    | name :: rest =>
      let fresh := freshName taken.contains (done.size + 1) name
      go (done.push fresh) (taken.insert fresh) rest

def ofNames (names : List String) (field : String) : Except ParseError StateTable :=
  go empty names
where
  go (t : StateTable) : List String → Except ParseError StateTable
    | [] => .ok t
    | name :: rest =>
      if name.isEmpty then .error (.inField field .emptyState)
      else if t.names.contains name then .error (.inField field (.duplicateState name))
      else go (t.push name) rest

def resolve (t : StateTable) (name field : String) : Except ParseError Nat :=
  match t.id? name with
  | some id => .ok id
  | none => .error (.inField field (.undeclaredState name))

end StateTable

def symbolOfText (text : String) (field : String) : Except ParseError Char :=
  match text.toList with
  | [c] => .ok c
  | [] => .error (.inField field .emptySymbol)
  | _ => .error (.inField field (.longSymbol text))

def labelKey : Option Char → String
  | some c => c.toString
  | none => emptyText

end Acceptors
