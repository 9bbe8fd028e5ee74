/-! Partial maps from a state and the place of a symbol in an alphabet. Two tables of the same
automaton are equal as values exactly when they hold the same entries, in whatever order these were
put in. -/

namespace Acceptors

structure TransitionTable (α : Type) where
  rows : Array (Array (Option α))
deriving DecidableEq, Repr

namespace TransitionTable

variable {α : Type}

def empty (states symbols : Nat) : TransitionTable α :=
  ⟨Array.replicate states (Array.replicate symbols none)⟩

def tabulate (states symbols : Nat) (entry : Nat → Nat → Option α) : TransitionTable α :=
  ⟨Array.ofFn fun (s : Fin states) => Array.ofFn fun (c : Fin symbols) => entry s c⟩

def get? (t : TransitionTable α) (state symbol : Nat) : Option α :=
  ((t.rows.getD state #[]).getD symbol none)

def insert (t : TransitionTable α) (state symbol : Nat) (entry : α) : TransitionTable α :=
  ⟨t.rows.modify state fun row => row.setIfInBounds symbol (some entry)⟩

def cells (t : TransitionTable α) : List (Option α) := t.rows.toList.flatMap Array.toList

def size (t : TransitionTable α) : Nat := t.cells.countP Option.isSome

end TransitionTable

end Acceptors
