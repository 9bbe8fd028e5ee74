import Acceptors.Turing.Basic

/-! Runs in progress. A run can be advanced step by step or in chunks, and yields its log at any
moment. -/

namespace Acceptors

structure Execution where
  machine : TuringMachine
  initial : Configuration
  current : Configuration
  diffs : Array Diff
  maxSteps : Nat
  status : Status
deriving Repr

namespace Execution

def start (m : TuringMachine) (word : List Char) (maxSteps : Nat) : Except DomainError Execution :=
  (m.initial word).map fun c => ⟨m, c, c, #[], maxSteps, m.status c⟩

def steps (e : Execution) : Nat := e.diffs.size

/-- Takes one step, unless the run has come to its end. The step after the last one allowed cuts the
run off. -/
def step (e : Execution) : Except Violation Execution :=
  if e.status ≠ .running then .ok e
  else if e.maxSteps ≤ e.steps then .ok { e with status := .stepLimitExceeded }
  else
    match e.machine.nextDiff e.current with
    | .error v => .error v
    | .ok none => .ok { e with status := e.machine.status e.current }
    | .ok (some d) =>
      match e.current.apply d with
      | .error v => .error v
      | .ok c => .ok { e with current := c, diffs := e.diffs.push d, status := e.machine.status c }

def runFor : Nat → Execution → Except Violation Execution
  | 0, e => .ok e
  | n + 1, e =>
    match e.step with
    | .error v => .error v
    | .ok next => if next.status ≠ .running then .ok next else runFor n next

def log (e : Execution) : Log := ⟨e.initial, e.current, e.diffs, e.status⟩

/-- Runs to the end. At most the steps still allowed are taken, and one more that cuts the run
off. -/
def finish (e : Execution) : Except Violation Log :=
  (runFor (e.maxSteps - e.steps + 1) e).map log

end Execution

namespace TuringMachine

def run (m : TuringMachine) (word : List Char) (maxSteps : Nat) : Except Failure Log := do
  let e ← (Execution.start m word maxSteps).mapError Failure.domain
  e.finish.mapError Failure.violation

def accepts (m : TuringMachine) (word : List Char) (maxSteps : Nat) : Except Failure Bool :=
  (m.run word maxSteps).map fun l => l.outcome == .accepted

end TuringMachine

end Acceptors
