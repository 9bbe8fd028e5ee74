import Std.Data.TreeSet

/-! Breadth-first search in a finite graph. Vertices are the numbers below a bound; edges that leave
this range are ignored. A search goes level by level, and what it costs depends on what it reaches,
not on the bound. -/

namespace Acceptors.Search

/-- What has been reached, and the part of it that was reached last, newest first. -/
structure Front where
  seen : Std.TreeSet Nat
  level : List Nat

def visit (bound : Nat) (s : Front) (v : Nat) : Front :=
  if bound ≤ v || s.seen.contains v then s else ⟨s.seen.insert v, v :: s.level⟩

def start (bound : Nat) (starts : List Nat) : Front := starts.foldl (visit bound) ⟨∅, []⟩

def expand (bound : Nat) (next : Nat → List Nat) (s : Front) : Front :=
  (s.level.reverse.flatMap next).foldl (visit bound) ⟨s.seen, []⟩

/-- Expands levels until one is empty. No two levels share a vertex, so a graph is searched to the
end with as much fuel as it has vertices. -/
def sweep (bound : Nat) (next : Nat → List Nat) : Nat → Front → Front
  | 0, s => s
  | fuel + 1, s => if s.level.isEmpty then s else sweep bound next fuel (expand bound next s)

def reached (bound : Nat) (next : Nat → List Nat) (starts : List Nat) : Std.TreeSet Nat :=
  (sweep bound next bound (start bound starts)).seen

def reachable (bound : Nat) (next : Nat → List Nat) (starts : List Nat) : List Nat :=
  (reached bound next starts).toList

def unreachable (bound : Nat) (next : Nat → List Nat) (starts : List Nat) : List Nat :=
  let seen := reached bound next starts
  (List.range bound).filter fun v => !seen.contains v

/-- Whether all levels from this one on pass a test. Nothing is expanded after a failure. -/
def holds (bound : Nat) (next : Nat → List Nat) (test : Nat → Bool) : Nat → Front → Bool
  | 0, _ => true
  | fuel + 1, s =>
    s.level.isEmpty || (s.level.all test && holds bound next test fuel (expand bound next s))

def all (bound : Nat) (next : Nat → List Nat) (starts : List Nat) (test : Nat → Bool) : Bool :=
  holds bound next test bound (start bound starts)

end Acceptors.Search
