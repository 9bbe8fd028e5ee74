import Acceptors.Turing.Diff

/-! Records of runs, and cursors that move over them without running the machine again. -/

namespace Acceptors

inductive Status
  | running
  | accepted
  | rejected
  | stepLimitExceeded
deriving DecidableEq, Repr

namespace Status

def tag : Status → String
  | running => "Running"
  | accepted => "Accepted"
  | rejected => "Rejected"
  | stepLimitExceeded => "StepLimitExceeded"

def text : Status → String
  | running => "running"
  | accepted => "accepted"
  | rejected => "rejected"
  | stepLimitExceeded => "step limit exceeded"

end Status

structure Log where
  initial : Configuration
  final : Configuration
  diffs : Array Diff
  outcome : Status
deriving Repr

def Log.steps (l : Log) : Nat := l.diffs.size

structure Timeline where
  log : Log
  current : Configuration
  position : Nat
deriving Repr

namespace Timeline

def ofLog (l : Log) : Timeline := ⟨l, l.initial, 0⟩

def isAtEnd (t : Timeline) : Bool := t.position == t.log.steps

def forward? (t : Timeline) : Except Violation (Option Timeline) :=
  match t.log.diffs[t.position]? with
  | none => .ok none
  | some d => (t.current.apply d).map fun c =>
    some { t with current := c, position := t.position + 1 }

def backward? (t : Timeline) : Except Violation (Option Timeline) :=
  match t.position with
  | 0 => .ok none
  | p + 1 =>
    match t.log.diffs[p]? with
    | none => .ok none
    | some d => (t.current.reverse d).map fun c => some { t with current := c, position := p }

/-- Repeats a move. The cursor stays where the move fails or finds an end, and the failure is
reported. -/
def repeatMove (move : Timeline → Except Violation (Option Timeline)) :
    Nat → Timeline → Timeline × Option Violation
  | 0, t => (t, none)
  | n + 1, t =>
    match move t with
    | .error e => (t, some e)
    | .ok none => (t, none)
    | .ok (some next) => repeatMove move n next

def seek (t : Timeline) (step : Nat) : Timeline × Option Violation :=
  let target := min step t.log.steps
  if t.position ≤ target then repeatMove forward? (target - t.position) t
  else repeatMove backward? (t.position - target) t

def toStart (t : Timeline) : Timeline := ofLog t.log

/-- Jumps to the final configuration, which no diff is used for. -/
def toEnd (t : Timeline) : Timeline := ⟨t.log, t.log.final, t.log.steps⟩

end Timeline

def Log.configurationAt (l : Log) (step : Nat) : Except Violation Configuration :=
  match (Timeline.ofLog l).seek step with
  | (t, none) => .ok t.current
  | (_, some e) => .error e

end Acceptors
